import Sylar.HttpResume

/-! # `HttpRequestParser` and `HttpResponseParser`

The messages of `http.h`, the callbacks of `http_parser.cpp` that fill them in, and the two
`execute` over `http_parser_execute`.

The callbacks for a body append to it.  Those for a header name and a header value take the
fragment for the whole, and that for a URL parses the fragment on its own.  So a stream may be
cut at a seam (`request_resumes`, `response_resumes`), and how it is cut does not show as long
as the cuts are at seams (`parsers_ignore_cuts`); it does show in the path where a cut is
inside a URL (`cut_url_changes_path`). -/
namespace Sylar.Http

/-! ## Messages -/

/-- `std::map<std::string, std::string, CaseInsensitiveLess>`: `m_headers[key] = val` and
`find`.  The comparison is no order, so that nothing is said about them here. -/
class HeaderMap (M : Type) where
  empty : M
  assign : M → Bytes → Bytes → M
  find : M → Bytes → Option Bytes

/-- `HttpRequest`; its method keeps the number that `http_parser` has for it. -/
structure HttpRequest (M : Type) where
  method : Method := .get
  version : Nat := 0x11
  close : Bool := true
  path : Bytes := bytes "/"
  query : Bytes := []
  fragment : Bytes := []
  body : Bytes := []
  headers : M
  deriving DecidableEq

/-- `HttpResponse`; its status is the number. -/
structure HttpResponse (M : Type) where
  status : Nat := 200
  version : Nat := 0x11
  close : Bool := true
  body : Bytes := []
  reason : Bytes := []
  headers : M
  deriving DecidableEq

/-- `( p->http_major << 4 ) | p->http_minor`, a `uint8_t` -/
def packVersion (p : HttpParser) : Nat := ((p.httpMajor <<< 4) ||| p.httpMinor) % 2 ^ 8

/-- `tolower` -/
def tolower (c : UInt8) : UInt8 := if chr 'A' ≤ c ∧ c ≤ chr 'Z' then c + 32 else c

/-- `strcasecmp( lhs.c_str(), rhs.c_str() ) == 0` -/
def strcasecmpEq (lhs rhs : Bytes) : Bool :=
  let lowered (s : Bytes) : Bytes := (s.takeWhile (· != 0)).map tolower
  lowered lhs == lowered rhs

namespace HttpRequest
variable {M : Type} [HeaderMap M]

def getHeader (r : HttpRequest M) (key default : Bytes) : Bytes :=
  (HeaderMap.find r.headers key).getD default

def setHeader (r : HttpRequest M) (key val : Bytes) : HttpRequest M :=
  { r with headers := HeaderMap.assign r.headers key val }

def appendBody (r : HttpRequest M) (val : Bytes) : HttpRequest M := { r with body := r.body ++ val }

/-- `HttpRequest::init`: the comparison is inside the test for an empty `conn`. -/
def init (r : HttpRequest M) : HttpRequest M :=
  let conn := r.getHeader (bytes "connection") []
  if conn = [] then { r with close := !strcasecmpEq conn (bytes "keep-alive") } else r

end HttpRequest

namespace HttpResponse
variable {M : Type} [HeaderMap M]

def setHeader (r : HttpResponse M) (key val : Bytes) : HttpResponse M :=
  { r with headers := HeaderMap.assign r.headers key val }

def appendBody (r : HttpResponse M) (body : Bytes) : HttpResponse M :=
  { r with body := r.body ++ body }

end HttpResponse

/-! ## Callbacks -/

/-- The number of an error in `HTTP_ERRNO_MAP` -/
def Errno.code : Errno → Int
  | .cbNotify .messageBegin => 1
  | .cbData .url => 2
  | .cbData .headerField => 3
  | .cbData .headerValue => 4
  | .cbNotify .headersComplete => 5
  | .cbData .body => 6
  | .cbNotify .messageComplete => 7
  | .cbData .status => 8
  | .cbNotify .chunkHeader => 9
  | .cbNotify .chunkComplete => 10
  | .invalidEofState => 11
  | .headerOverflow => 12
  | .closedConnection => 13
  | .invalidVersion => 14
  | .invalidStatus => 15
  | .invalidMethod => 16
  | .invalidUrl => 17
  | .lfExpected => 23
  | .invalidHeaderToken => 24
  | .invalidContentLength => 25
  | .unexpectedContentLength => 26
  | .invalidChunkSize => 27
  | .invalidConstant => 28
  | .invalidInternalState => 29
  | .strict => 30
  | .unknown => 32
  | .invalidTransferEncoding => 33

/-- The members of the two parser classes that the callbacks write: they reach them by
`m_parser.data`. -/
structure Parse (D : Type) where
  data : D
  finished : Bool := false
  field : Bytes := []
  deriving DecidableEq

section Callbacks
variable {M : Type} [HeaderMap M]

def onRequestHeadersCompleteCb (p : HttpParser) (u : Parse (HttpRequest M)) :
    Parse (HttpRequest M) × Int :=
  ({ u with data := { u.data with version := packVersion p, method := p.method } }, 0)

def onRequestMessageCompleteCb (u : Parse (HttpRequest M)) : Parse (HttpRequest M) × Int :=
  ({ u with finished := true }, 0)

def onRequestUrlCb (buf : Bytes) (u : Parse (HttpRequest M)) : Parse (HttpRequest M) × Int :=
  match parseUrl buf false Url.init with
  | none => (u, 1)
  | some url =>
    let r := u.data
    let r := if url.fieldSet .path then { r with path := url.component .path buf } else r
    let r := if url.fieldSet .query then { r with query := url.component .query buf } else r
    let r :=
      if url.fieldSet .fragment then { r with fragment := url.component .fragment buf } else r
    ({ u with data := r }, 0)

def onRequestHeaderFieldCb (buf : Bytes) (u : Parse (HttpRequest M)) :
    Parse (HttpRequest M) × Int :=
  ({ u with field := buf }, 0)

def onRequestHeaderValueCb (buf : Bytes) (u : Parse (HttpRequest M)) :
    Parse (HttpRequest M) × Int :=
  ({ u with data := u.data.setHeader u.field buf }, 0)

def onRequestBodyCb (buf : Bytes) (u : Parse (HttpRequest M)) : Parse (HttpRequest M) × Int :=
  ({ u with data := u.data.appendBody buf }, 0)

/-- `s_request_settings`; the callbacks that only write to the log return 0. -/
def requestSettings (M : Type) [HeaderMap M] : Settings (Parse (HttpRequest M)) where
  onData m _ buf u :=
    match m with
    | .url => onRequestUrlCb buf u
    | .status => (u, 0)
    | .headerField => onRequestHeaderFieldCb buf u
    | .headerValue => onRequestHeaderValueCb buf u
    | .body => onRequestBodyCb buf u
  onNotify n p u :=
    match n with
    | .headersComplete => onRequestHeadersCompleteCb p u
    | .messageComplete => onRequestMessageCompleteCb u
    | .messageBegin | .chunkHeader | .chunkComplete => (u, 0)

def onResponseHeadersCompleteCb (p : HttpParser) (u : Parse (HttpResponse M)) :
    Parse (HttpResponse M) × Int :=
  ({ u with data := { u.data with version := packVersion p, status := p.statusCode } }, 0)

def onResponseMessageCompleteCb (u : Parse (HttpResponse M)) : Parse (HttpResponse M) × Int :=
  ({ u with finished := true }, 0)

def onResponseHeaderFieldCb (buf : Bytes) (u : Parse (HttpResponse M)) :
    Parse (HttpResponse M) × Int :=
  ({ u with field := buf }, 0)

def onResponseHeaderValueCb (buf : Bytes) (u : Parse (HttpResponse M)) :
    Parse (HttpResponse M) × Int :=
  ({ u with data := u.data.setHeader u.field buf }, 0)

/-- `on_response_status_cb` sets the code: the phrase only goes to the log. -/
def onResponseStatusCb (p : HttpParser) (u : Parse (HttpResponse M)) :
    Parse (HttpResponse M) × Int :=
  ({ u with data := { u.data with status := p.statusCode } }, 0)

def onResponseBodyCb (buf : Bytes) (u : Parse (HttpResponse M)) : Parse (HttpResponse M) × Int :=
  ({ u with data := u.data.appendBody buf }, 0)

/-- `s_response_settings` -/
def responseSettings (M : Type) [HeaderMap M] : Settings (Parse (HttpResponse M)) where
  onData m p buf u :=
    match m with
    | .url => (u, 0)
    | .status => onResponseStatusCb p u
    | .headerField => onResponseHeaderFieldCb buf u
    | .headerValue => onResponseHeaderValueCb buf u
    | .body => onResponseBodyCb buf u
  onNotify n p u :=
    match n with
    | .headersComplete => onResponseHeadersCompleteCb p u
    | .messageComplete => onResponseMessageCompleteCb u
    | .messageBegin | .chunkHeader | .chunkComplete => (u, 0)

end Callbacks

/-! ## `execute` -/

/-- `std::memmove( data, data + nparsed, len - nparsed )` -/
def memmove (data : Bytes) (nparsed : Nat) : Bytes :=
  data.drop nparsed ++ data.drop (data.length - nparsed)

/-- `HttpRequestParser`: `m_parser` with what its callbacks write, and `m_error`. -/
structure HttpRequestParser (M : Type) where
  session : Session (Parse (HttpRequest M))
  error : Int := 0
  deriving DecidableEq

namespace HttpRequestParser
variable {M : Type}

/-- `m_parser` -/
def parser (o : HttpRequestParser M) : HttpParser := o.session.1

/-- `m_data` -/
def data (o : HttpRequestParser M) : HttpRequest M := o.session.2.data

/-- `isFinished` -/
def finished (o : HttpRequestParser M) : Bool := o.session.2.finished

/-- `HttpRequestParser::HttpRequestParser` -/
def init (M : Type) [HeaderMap M] : HttpRequestParser M where
  session := (HttpParser.init .request, { data := { headers := HeaderMap.empty } })

/-- What `execute` makes of the errors of a call: `HPE_UNKNOWN` stands for an upgrade. -/
def settle (o : HttpRequestParser M) : HttpRequestParser M :=
  if o.parser.upgrade then { o with error := Errno.unknown.code }
  else
    match o.parser.httpErrno with
    | some e => { o with error := e.code }
    | none => o

/-- `HttpRequestParser::execute`: the parser, the buffer and the number of bytes parsed. -/
def execute [HeaderMap M] (o : HttpRequestParser M) (data : Bytes) :
    HttpRequestParser M × Bytes × Nat :=
  let (session, nparsed) := Http.execute (requestSettings M) o.session data
  let quiet := !session.1.upgrade && session.1.httpErrno.isNone
  (settle { o with session },
    if quiet && nparsed < data.length then memmove data nparsed else data, nparsed)

/-- The parser behind a call. -/
def feed [HeaderMap M] (o : HttpRequestParser M) (data : Bytes) : HttpRequestParser M :=
  (execute o data).1

end HttpRequestParser

/-- `HttpResponseParser` -/
structure HttpResponseParser (M : Type) where
  session : Session (Parse (HttpResponse M))
  error : Int := 0
  deriving DecidableEq

namespace HttpResponseParser
variable {M : Type}

/-- `m_parser` -/
def parser (o : HttpResponseParser M) : HttpParser := o.session.1

/-- `HttpResponseParser::HttpResponseParser` -/
def init (M : Type) [HeaderMap M] : HttpResponseParser M where
  session := (HttpParser.init .response, { data := { headers := HeaderMap.empty } })

/-- What `execute` makes of the errors of a call. -/
def settle (o : HttpResponseParser M) : HttpResponseParser M :=
  match o.parser.httpErrno with
  | some e => { o with error := e.code }
  | none => o

/-- `HttpResponseParser::execute` -/
def execute [HeaderMap M] (o : HttpResponseParser M) (data : Bytes) :
    HttpResponseParser M × Bytes × Nat :=
  let (session, nparsed) := Http.execute (responseSettings M) o.session data
  let quiet := session.1.httpErrno.isNone
  (settle { o with session },
    if quiet && nparsed < data.length then memmove data nparsed else data, nparsed)

/-- The parser behind a call. -/
def feed [HeaderMap M] (o : HttpResponseParser M) (data : Bytes) : HttpResponseParser M :=
  (execute o data).1

end HttpResponseParser

/-! ## Cuts -/

/-- The callbacks for a request gather the body; there is no reason phrase. -/
def requestFragments (M : Type) [HeaderMap M] : (requestSettings M).Fragments where
  body x u := { u with data := u.data.appendBody x }
  status _ u := u
  onBody _ _ _ := rfl
  onStatus _ _ _ := rfl
  body_append x y u := by simp [HttpRequest.appendBody]
  status_status _ _ := rfl

/-- The callbacks for a response gather the body, and set the status code for a phrase. -/
def responseFragments (M : Type) [HeaderMap M] : (responseSettings M).Fragments where
  body x u := { u with data := u.data.appendBody x }
  status n u := { u with data := { u.data with status := n } }
  onBody _ _ _ := rfl
  onStatus _ _ _ := rfl
  body_append x y u := by simp [HttpResponse.appendBody]
  status_status _ _ := rfl

/-- An object over a session of `http_parser`: what it makes of an error of a call (`settle`)
is nothing where there was none, and does not change behind an error. -/
theorem resumes_settle {σ O : Type} {s : Settings σ} (F : s.Fragments) (session : O → Session σ)
    (settle : O → Session σ → O) (quiet : HttpParser → Prop)
    (hsession : ∀ o r, session (settle o r) = r)
    (hquiet : ∀ o r r', r.1.httpErrno = none → quiet r.1 → settle (settle o r) r' = settle o r')
    (hagain : ∀ o r, settle (settle o r) r = settle o r) :
    Segments.Resumes (fun o x => settle o (execute s (session o) x).1)
      (fun o => Ready (session o).1)
      (fun o rest => Seam (session o).1 rest ∧
        ((session o).1.httpErrno = none → quiet (session o).1)) where
  keeps := by
    intro o x ho hx
    rw [hsession]
    exact execute_ready ho hx
  resumes := by
    intro o x y ho hx hy hseam
    rw [hsession] at hseam ⊢
    rw [execute_append F ho hx hy hseam.1]
    generalize (execute s (session o) x).1 = r at hseam ⊢
    by_cases herr : r.1.httpErrno = none
    · exact (hquiet o r _ herr (hseam.2 herr)).symm
    · -- nothing happens behind an error
      have hr : execute s r y = (r, 0) := execute_failed r.2 y herr
      rw [hr]
      exact (hagain o r).symm

namespace HttpRequestParser
variable {M : Type}

/-- Where a stream of requests may be cut: at a seam of `http_parser`, and not behind the
headers that announce an upgrade, which is an error of this class. -/
def Seam (o : HttpRequestParser M) (rest : Bytes) : Prop :=
  Http.Seam o.parser rest ∧ (o.parser.httpErrno = none → o.parser.upgrade = false)

instance (o : HttpRequestParser M) (rest : Bytes) : Decidable (Seam o rest) :=
  inferInstanceAs (Decidable (_ ∧ (_ → _)))

theorem Seam.left {o : HttpRequestParser M} {x y : Bytes} (h : Seam o (x ++ y)) : Seam o x :=
  ⟨Http.Seam.left h.1, h.2⟩

theorem ready (M : Type) [HeaderMap M] : Ready (init M).parser := ready_init .request

theorem settle_session (o : HttpRequestParser M) : (settle o).session = o.session := by
  unfold settle
  repeat' split
  all_goals rfl

theorem settle_quiet (o : HttpRequestParser M) (herr : o.parser.httpErrno = none)
    (hup : o.parser.upgrade = false) : settle o = o := by
  unfold settle
  rw [hup, herr]
  rfl

theorem feed_session [HeaderMap M] (o : HttpRequestParser M) (data : Bytes) :
    (feed o data).session = (Http.execute (requestSettings M) o.session data).1 :=
  settle_session { o with session := (Http.execute (requestSettings M) o.session data).1 }

/-- A call that finds no error and no upgrade parses all bytes. -/
theorem execute_quiet [HeaderMap M] {o : HttpRequestParser M} (ho : Ready o.parser) {data : Bytes}
    (hne : data ≠ []) (herr : (feed o data).parser.httpErrno = none)
    (hup : (feed o data).parser.upgrade = false) :
    (execute o data).2.2 = data.length ∧ (feed o data).error = o.error := by
  have hsession := feed_session o data
  unfold parser at herr hup
  rw [hsession] at herr hup
  refine ⟨execute_parsed ho hne herr fun hexit => ?_, ?_⟩
  · rw [hup] at hexit
    cases hexit.1
  · show (settle ⟨(Http.execute (requestSettings M) o.session data).1, o.error⟩).error = o.error
    rw [settle_quiet ⟨_, _⟩ herr hup]

/-- A cut in a stream in which no error and no upgrade is found. -/
theorem seam_of_no_error [HeaderMap M] {o : HttpRequestParser M} (ho : Ready o.parser)
    {a b : Bytes} (ha : a ≠ []) (hab : (feed o (a ++ b)).parser.httpErrno = none)
    (htorn : (feed o a).parser.state.torn = false) (hstatus : (feed o a).parser.state ≠ .resStatus)
    (hup : (feed o a).parser.upgrade = false) :
    Seam (feed o a) b ∧ (feed o a).parser.httpErrno = none := by
  unfold Seam
  unfold parser at *
  rw [feed_session] at *
  have hseam := Http.seam_of_no_error (requestFragments M) ho ha hab htorn hstatus hup
  exact ⟨⟨hseam, fun _ => hup⟩, no_error_left (requestFragments M) ho ha hab htorn⟩

/-- **A request is resumed at a seam.** -/
theorem resumes [HeaderMap M] :
    Segments.Resumes (feed (M := M)) (fun o => Ready o.parser) Seam := by
  refine resumes_settle (requestFragments M) session (fun o r => settle { o with session := r })
    (fun p => p.upgrade = false) (fun o r => settle_session _) (fun o r r' herr hup => ?_)
    fun o r => ?_
  · rw [settle_quiet ⟨r, o.error⟩ herr hup]
  · unfold settle parser
    grind

end HttpRequestParser

namespace HttpResponseParser
variable {M : Type}

/-- Where a stream of responses may be cut. -/
def Seam (o : HttpResponseParser M) (rest : Bytes) : Prop := Http.Seam o.parser rest

instance (o : HttpResponseParser M) (rest : Bytes) : Decidable (Seam o rest) :=
  inferInstanceAs (Decidable (Http.Seam o.parser rest))

theorem settle_session (o : HttpResponseParser M) : (settle o).session = o.session := by
  unfold settle
  split <;> rfl

theorem settle_quiet (o : HttpResponseParser M) (herr : o.parser.httpErrno = none) :
    settle o = o := by
  unfold settle
  rw [herr]

/-- **A response is resumed at a seam.** -/
theorem resumes [HeaderMap M] :
    Segments.Resumes (feed (M := M)) (fun o => Ready o.parser) Seam := by
  have h := resumes_settle (responseFragments M) session
    (fun o r => settle { o with session := r }) (fun _ => True) (fun o r => settle_session _)
    (fun o r r' herr _ => by rw [settle_quiet ⟨r, o.error⟩ herr])
    fun o r => by
      unfold settle parser
      grind
  exact ⟨h.keeps, fun ho hx hy hseam => h.resumes ho hx hy ⟨hseam, fun _ => trivial⟩⟩

end HttpResponseParser

open Segments in
/-- **Where the cuts are at seams, they do not show.**  Two ways to cut one stream of requests,
or of responses, lead to the same parser: its message, its error, and whether it is
finished. -/
theorem parsers_ignore_cuts {M : Type} [HeaderMap M] {xs ys : List Bytes}
    (heq : xs.flatten = ys.flatten) :
    (AtSeams HttpRequestParser.feed HttpRequestParser.Seam (HttpRequestParser.init M) xs →
      AtSeams HttpRequestParser.feed HttpRequestParser.Seam (HttpRequestParser.init M) ys →
      feedAll HttpRequestParser.feed (HttpRequestParser.init M) xs =
        feedAll HttpRequestParser.feed (HttpRequestParser.init M) ys) ∧
    (AtSeams HttpResponseParser.feed HttpResponseParser.Seam (HttpResponseParser.init M) xs →
      AtSeams HttpResponseParser.feed HttpResponseParser.Seam (HttpResponseParser.init M) ys →
      feedAll HttpResponseParser.feed (HttpResponseParser.init M) xs =
        feedAll HttpResponseParser.feed (HttpResponseParser.init M) ys) :=
  ⟨fun hxs hys => HttpRequestParser.resumes.feedAll_eq_of_flatten (ready_init .request) hxs hys heq,
    fun hxs hys =>
      HttpResponseParser.resumes.feedAll_eq_of_flatten (ready_init .response) hxs hys heq⟩

/-- The headers as a list, which is what `std::map` makes of them as long as there is at most one:
with this comparison it promises nothing for two keys. -/
instance : HeaderMap (List (Bytes × Bytes)) where
  empty := []
  assign m key val :=
    if m.any (strcasecmpEq key ·.1) then
      m.map fun e => if strcasecmpEq key e.1 then (e.1, val) else e
    else m ++ [(key, val)]
  find m key := (m.find? (strcasecmpEq key ·.1)).map (·.2)

section Examples
open Segments

/-- A request that is cut between two headers and inside its body, and a response that is cut
inside its reason phrase and inside its body. -/
theorem parsers_ignore_cuts_post :
    feedAll HttpRequestParser.feed (HttpRequestParser.init (List (Bytes × Bytes)))
        [bytes "POST /a HTTP/1.1\r\n", bytes "content-length: 4\r\n\r\nab", bytes "cd"] =
      feedAll HttpRequestParser.feed (HttpRequestParser.init (List (Bytes × Bytes)))
        [bytes "POST /a HTTP/1.1\r\ncontent-length: 4\r\n\r\nabcd"] ∧
    feedAll HttpResponseParser.feed (HttpResponseParser.init (List (Bytes × Bytes)))
        [bytes "HTTP/1.1 404 Not Fo", bytes "und\r\ncontent-length: 2\r\n\r\na", bytes "b"] =
      feedAll HttpResponseParser.feed (HttpResponseParser.init (List (Bytes × Bytes)))
        [bytes "HTTP/1.1 404 Not Found\r\ncontent-length: 2\r\n\r\nab"] :=
  ⟨(parsers_ignore_cuts (by decide +kernel)).1 (by decide +kernel) (by decide +kernel),
    (parsers_ignore_cuts (by decide +kernel)).2 (by decide +kernel) (by decide +kernel)⟩

/-- A cut inside a URL: the second fragment is parsed on its own, and its path replaces that
of the first. -/
theorem cut_url_changes_path :
    let whole : List Bytes := [bytes "GET /a/b HTTP/1.1\r\n\r\n"]
    let cut : List Bytes := [bytes "GET /a", bytes "/b HTTP/1.1\r\n\r\n"]
    let parse (segments : List Bytes) : HttpRequestParser (List (Bytes × Bytes)) :=
      feedAll HttpRequestParser.feed (HttpRequestParser.init _) segments
    whole.flatten = cut.flatten ∧
      (parse whole).finished = true ∧ (parse whole).error = 0 ∧
      (parse whole).data.path = bytes "/a/b" ∧
      (parse cut).finished = true ∧ (parse cut).error = 0 ∧
      (parse cut).data.path = bytes "/b" ∧
      (parse whole).data.path ≠ (parse cut).data.path := by
  decide +kernel

end Examples

end Sylar.Http
