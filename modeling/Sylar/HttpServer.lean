import Sylar.HttpHeaders
import Sylar.HttpSession
import Sylar.HttpUser

/-! # The keep-alive loop of `HttpServer`

`handleClient` answers one request after the other, and goes on to the next unless the server
or the request wants the connection closed.  Whether the request does is settled by
`HttpRequest::init`, which looks at the value of the header only where there is none.  So every
request wants it closed (`recvRequest_close`), and the server keeps no connection, whatever
the client has asked for: **`keepAlive_iff`**. -/
namespace Sylar.Http
open Segments

/-! ## Responses -/

/-- `HTTP_STATUS_MAP`, with the texts as `#msg` has them. -/
def httpStatusMap : List (Nat × String) :=
  [(100, "Continue"), (101, "Switching Protocols"), (102, "Processing"), (200, "OK"),
    (201, "Created"), (202, "Accepted"), (203, "Non - Authoritative Information"),
    (204, "No Content"), (205, "Reset Content"), (206, "Partial Content"),
    (207, "Multi - Status"), (208, "Already Reported"), (226, "IM Used"),
    (300, "Multiple Choices"), (301, "Moved Permanently"), (302, "Found"), (303, "See Other"),
    (304, "Not Modified"), (305, "Use Proxy"), (307, "Temporary Redirect"),
    (308, "Permanent Redirect"), (400, "Bad Request"), (401, "Unauthorized"),
    (402, "Payment Required"), (403, "Forbidden"), (404, "Not Found"),
    (405, "Method Not Allowed"), (406, "Not Acceptable"), (407, "Proxy Authentication Required"),
    (408, "Request Timeout"), (409, "Conflict"), (410, "Gone"), (411, "Length Required"),
    (412, "Precondition Failed"), (413, "Payload Too Large"), (414, "URI Too Long"),
    (415, "Unsupported Media Type"), (416, "Range Not Satisfiable"), (417, "Expectation Failed"),
    (421, "Misdirected Request"), (422, "Unprocessable Entity"), (423, "Locked"),
    (424, "Failed Dependency"), (426, "Upgrade Required"), (428, "Precondition Required"),
    (429, "Too Many Requests"), (431, "Request Header Fields Too Large"),
    (451, "Unavailable For Legal Reasons"), (500, "Internal Server Error"),
    (501, "Not Implemented"), (502, "Bad Gateway"), (503, "Service Unavailable"),
    (504, "Gateway Timeout"), (505, "HTTP Version Not Supported"),
    (506, "Variant Also Negotiates"), (507, "Insufficient Storage"), (508, "Loop Detected"),
    (510, "Not Extended"), (511, "Network Authentication Required")]

/-- `HttpStatusToString` -/
def httpStatusToString (status : Nat) : Bytes :=
  bytes ((httpStatusMap.lookup status).getD "<unknown>")

/-- `os << n` -/
def decimal (n : Nat) : Bytes := bytes (toString n)

/-- The end of a line. -/
def crlf : Bytes := bytes "\r\n"

namespace HttpResponse
variable {M : Type} [StdMap M]

/-- `HttpResponse::HttpResponse` -/
def create (version : Nat) (close : Bool) : HttpResponse M :=
  { version, close, headers := HeaderMap.empty }

variable (r : HttpResponse M)

def statusLine : Bytes :=
  bytes "HTTP/" ++ decimal (r.version >>> 4) ++ bytes "." ++ decimal (r.version &&& 0x0F) ++
    bytes " " ++ decimal r.status ++ bytes " " ++
    (if r.reason = [] then httpStatusToString r.status else r.reason) ++ crlf

/-- The loop over the headers passes over `connection`. -/
def headerLines : Bytes :=
  ((StdMap.entries r.headers).filter fun e => !strcasecmpEq e.1 (bytes "connection")).flatMap
    fun e => e.1 ++ bytes ": " ++ e.2 ++ crlf

omit [StdMap M] in
def connectionLine : Bytes :=
  bytes "connection: " ++ (if r.close then bytes "close" else bytes "keep-alive") ++ crlf

omit [StdMap M] in
/-- The length of a body, which is not written, and the empty line. -/
def lengthLine : Bytes :=
  if r.body ≠ [] then bytes "content-length: " ++ decimal r.body.length ++ crlf ++ crlf else crlf

/-- `HttpResponse::dump` -/
def dump : Bytes := r.statusLine ++ r.headerLines ++ r.connectionLine ++ r.lengthLine

end HttpResponse

/-! ## The server -/

section Server
variable (M : Type) [StdMap M]

/-- What a servlet makes of a request and its response. -/
abbrev Servlet := HttpRequest M → HttpResponse M → HttpRequest M × HttpResponse M

/-- `HttpServer` -/
structure HttpServer where
  name : Bytes
  isKeepAlive : Bool
  dispatch : Servlet M

variable {M}

/-- It leaves it to the server whether the connection is closed. -/
structure Servlet.KeepsClose (handle : Servlet M) : Prop where
  request : ∀ req rsp, (handle req rsp).1.close = req.close
  response : ∀ req rsp, (handle req rsp).2.close = rsp.close

/-- `NotFoundServlet::handle` -/
def notFoundServlet (name : String) : Servlet M := fun req rsp =>
  let content := "<html><head><title>404 Not Found</title></head><body><center>" ++
    "<h1>404 Not Found</h1></center><hr><center>" ++ name ++ "</center></body></html>"
  let rsp := { rsp with status := 404 }
  let rsp := rsp.setHeader (bytes "Server") (bytes "sylar/1.0.0")
  let rsp := rsp.setHeader (bytes "Content-Type") (bytes "text/html")
  (req, { rsp with body := bytes content })

theorem notFoundServlet_keepsClose (name : String) :
    Servlet.KeepsClose (notFoundServlet (M := M) name) :=
  ⟨fun _ _ => rfl, fun _ _ => rfl⟩

/-! ## Requests as they are received -/

variable {bufSize : Nat}

/-- No callback writes `m_close`. -/
theorem requestSettings_keeps (close : Bool) :
    (requestSettings M).Keeps fun u => u.data.close = close where
  onData := by
    intro m p buf u h
    cases m
    case url =>
      show (onRequestUrlCb buf u).1.data.close = close
      unfold onRequestUrlCb
      dsimp only
      split
      · exact h
      · dsimp only
        repeat' split
        all_goals exact h
    all_goals exact h
  onNotify := by
    intro n p u h
    cases n <;> exact h

theorem HttpRequestParser.feed_close {o : HttpRequestParser M} {close : Bool}
    (h : o.data.close = close) (data : Bytes) : (o.feed data).data.close = close := by
  show (HttpRequestParser.feed o data).session.2.data.close = close
  rw [HttpRequestParser.feed_session]
  exact (requestSettings_keeps close).execute h data

/-- `init` can only set `m_close`. -/
theorem HttpRequest.init_close {r : HttpRequest M} (h : r.close = true) : r.init.close = true := by
  unfold HttpRequest.init
  dsimp only
  split
  · rename_i hconn
    rw [hconn]
    rfl
  · exact h

/-- What the loop returns is a request that wants the connection closed, and it takes a read. -/
theorem recvLoop_some {o : HttpRequestParser M} (ho : o.data.close = true) {buffer : Bytes}
    {offset : Nat} {reads : List Bytes} {r : HttpRequest M} {rest : List Bytes}
    (h : recvLoop bufSize o buffer offset reads = (some r, rest)) :
    r.close = true ∧ rest.length < reads.length := by
  induction reads generalizing o buffer offset with
  | nil => cases h
  | cons segment reads ih =>
    unfold recvLoop at h
    dsimp only at h
    split at h
    · cases h
    have hfeed := HttpRequestParser.feed_close ho
      ((buffer.take offset ++ segment ++ buffer.drop (offset + segment.length)).take
        (offset + segment.length))
    split at h
    · cases h
    split at h
    · cases h
    split at h
    · cases h
      exact ⟨HttpRequest.init_close hfeed, Nat.lt_succ_self _⟩
    · obtain ⟨hclose, hlen⟩ := ih hfeed h
      exact ⟨hclose, hlen.trans (Nat.lt_succ_self _)⟩

theorem recvRequest_shorter {reads : List Bytes} {r : HttpRequest M} {rest : List Bytes}
    (h : recvRequest M bufSize reads = (some r, rest)) : rest.length < reads.length :=
  (recvLoop_some rfl h).2

/-- **Every request that is received wants the connection closed.** -/
theorem recvRequest_close {reads : List Bytes} {r : HttpRequest M} {rest : List Bytes}
    (h : recvRequest M bufSize reads = (some r, rest)) : r.close = true :=
  (recvLoop_some rfl h).1

/-! ## The loop -/

variable (M) in
/-- A turn of the loop: the request that was received, the response that was sent, and whether
the loop goes on to receive another. -/
structure Turn where
  request : HttpRequest M
  response : HttpResponse M
  goesOn : Bool

namespace HttpServer
variable (server : HttpServer M)

/-- What the loop does with a request. -/
def answer (req : HttpRequest M) : Turn M :=
  let rsp := HttpResponse.create req.version (req.close || !server.isKeepAlive)
  let rsp := rsp.setHeader (bytes "Server") server.name
  let r := server.dispatch req rsp
  { request := req, response := r.2, goesOn := !(!server.isKeepAlive || r.1.close) }

/-- `HttpServer::handleClient`, where `reads` is what the calls of `read` return. -/
def handleClient (bufSize : Nat) (reads : List Bytes) : List (Turn M) :=
  match _h : recvRequest M bufSize reads with
  | (none, _) => []
  | (some req, rest) =>
    let turn := server.answer req
    if turn.goesOn then turn :: handleClient bufSize rest else [turn]
termination_by reads.length
decreasing_by exact recvRequest_shorter ‹_›

end HttpServer

/-- The request carries a connection header that asks to keep the connection. -/
def HttpRequest.CarriesKeepAlive (r : HttpRequest M) : Prop :=
  SameIgnoringCase (r.getHeader (bytes "connection") []) (bytes "keep-alive")

instance (r : HttpRequest M) : Decidable r.CarriesKeepAlive := inferInstanceAs (Decidable (_ = _))

/-- The connection is kept where the server keeps connections and the request asks for it, and
the response says so. -/
structure Turn.Right (isKeepAlive : Bool) (t : Turn M) : Prop where
  goesOn : t.goesOn = true ↔ isKeepAlive = true ∧ t.request.CarriesKeepAlive
  keep : isKeepAlive = true ∧ t.request.CarriesKeepAlive →
    t.response.connectionLine = bytes "connection: keep-alive\r\n"
  close : ¬ (isKeepAlive = true ∧ t.request.CarriesKeepAlive) →
    t.response.connectionLine = bytes "connection: close\r\n"

namespace HttpServer
variable {server : HttpServer M}

/-- A request that wants the connection closed is answered so. -/
theorem answer_close (hkeeps : server.dispatch.KeepsClose) {req : HttpRequest M}
    (h : req.close = true) :
    (server.answer req).goesOn = false ∧
      (server.answer req).response.connectionLine = bytes "connection: close\r\n" := by
  constructor
  · rw [answer]
    dsimp only
    rw [hkeeps.request, h, Bool.or_true]
    rfl
  · rw [answer, HttpResponse.connectionLine]
    dsimp only
    rw [hkeeps.response]
    show bytes "connection: " ++ (if (req.close || _) = true then _ else _) ++ crlf = _
    rw [h, Bool.true_or, if_pos rfl]
    decide +kernel

/-- The only turn: the first request that is received. -/
theorem handleClient_eq (hkeeps : server.dispatch.KeepsClose) (reads : List Bytes) :
    server.handleClient bufSize reads =
      (recvRequest M bufSize reads).1.toList.map server.answer := by
  rw [handleClient]
  split
  · rename_i h
    rw [h]
    rfl
  · rename_i req rest h
    dsimp only
    rw [h, (answer_close hkeeps (recvRequest_close h)).1]
    rfl

/-- **When the connections are kept as they should**: never, where that means to keep one. -/
theorem keepAlive_iff (hkeeps : server.dispatch.KeepsClose) (bufSize : Nat)
    (reads : List Bytes) :
    (∀ t ∈ server.handleClient bufSize reads, t.Right server.isKeepAlive) ↔
      ∀ req ∈ (recvRequest M bufSize reads).1,
        ¬ (server.isKeepAlive = true ∧ req.CarriesKeepAlive) := by
  have hturns : ∀ t, t ∈ server.handleClient bufSize reads ↔
      ∃ req ∈ (recvRequest M bufSize reads).1, server.answer req = t := by
    intro t
    rw [handleClient_eq hkeeps, List.mem_map]
    exact exists_congr fun req => and_congr_left' Option.mem_toList
  have hclose : ∀ req ∈ (recvRequest M bufSize reads).1, req.close = true := by
    intro req hreq
    exact recvRequest_close (Prod.ext (Option.mem_def.mp hreq) rfl)
  constructor
  · intro h req hreq hkeep
    have hgoes := (h _ ((hturns _).mpr ⟨req, hreq, rfl⟩)).goesOn.mpr hkeep
    rw [(answer_close hkeeps (hclose req hreq)).1] at hgoes
    cases hgoes
  · intro h t ht
    obtain ⟨req, hreq, rfl⟩ := (hturns t).mp ht
    obtain ⟨hgoes, hline⟩ := answer_close hkeeps (hclose req hreq)
    constructor
    case goesOn =>
      rw [hgoes]
      exact iff_of_false Bool.false_ne_true (h req hreq)
    case keep => exact fun hkeep => absurd hkeep (h req hreq)
    case close => exact fun _ => hline

section Examples

/-- A server that keeps connections and has no servlets. -/
def keeping : HttpServer EntryList where
  name := bytes "sylar"
  isKeepAlive := true
  dispatch := notFoundServlet "sylar/1.0.0"

/-- A request that does not ask to keep the connection. -/
def plain : Bytes := bytes "GET / HTTP/1.1\r\nhost: a\r\n\r\n"

/-- It is answered, and rightly. -/
theorem keepAlive_iff_plain :
    (keeping.handleClient 4096 [plain]).length = 1 ∧
      ∀ t ∈ keeping.handleClient 4096 [plain], t.Right true := by
  constructor
  · decide +kernel
  · exact (keepAlive_iff (notFoundServlet_keepsClose "sylar/1.0.0") 4096 _).mpr
      (by decide +kernel)

/-- A request that asks to keep the connection. -/
def asking : Bytes := bytes "GET / HTTP/1.1\r\nconnection: keep-alive\r\n\r\n"

/-- It is the last one. -/
theorem keepAlive_refused :
    ¬ ∀ t ∈ keeping.handleClient 4096 [asking], t.Right true := by
  intro h
  have hasks : (recvRequest EntryList 4096 [asking]).1.any
      (fun req => decide req.CarriesKeepAlive) = true := by decide +kernel
  obtain ⟨req, hreq, hcarries⟩ := (Option.any_eq_true ..).mp hasks
  have hclose : req.close = true := recvRequest_close (Prod.ext hreq rfl)
  have hkeeps := notFoundServlet_keepsClose (M := EntryList) "sylar/1.0.0"
  have hturn : keeping.answer req ∈ keeping.handleClient 4096 [asking] := by
    rw [handleClient_eq hkeeps, hreq]
    exact List.mem_singleton_self _
  have hgoes := (h _ hturn).goesOn.mpr ⟨rfl, of_decide_eq_true hcarries⟩
  rw [(answer_close hkeeps hclose).1] at hgoes
  cases hgoes

end Examples

end HttpServer

end Server

end Sylar.Http
