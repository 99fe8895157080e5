import Sylar.HttpUrl

/-! # `http_parser_execute`

The parser of `http_parser.c`: the record `http_parser`, and one call of
`http_parser_execute` over a buffer with the callbacks of a `Settings`.

A call is a loop over the bytes of the buffer.  Most states read one byte (`byteStep`);
inside a header name, a header value and a body the source runs ahead with a loop of its
own, so that these states (`step`) say how far `p` moved.  `goto reexecute` hands the same
byte to the state that was just set, which is a call of that state's function here.

A mark is a pointer to where a span began in this buffer.  It is kept as the bytes since
then (`Marks`), so that a data callback is handed them; a mark that is still set when the
buffer ends is handed over by `flush`. -/
namespace Sylar.Http

/-! ## The record -/

/-- `enum http_method` -/
inductive Method where
  | delete | get | head | post | put
  | connect | options | trace
  | copy | lock | mkcol | move | propfind | proppatch | search | unlock | bind | rebind
  | unbind | acl
  | report | mkactivity | checkout | merge
  | msearch | notify | subscribe | unsubscribe
  | patch | purge
  | mkcalendar
  | link | unlink
  | source
  deriving DecidableEq, Repr

/-- `method_strings` -/
def Method.string : Method → Bytes
  | .delete => bytes "DELETE"
  | .get => bytes "GET"
  | .head => bytes "HEAD"
  | .post => bytes "POST"
  | .put => bytes "PUT"
  | .connect => bytes "CONNECT"
  | .options => bytes "OPTIONS"
  | .trace => bytes "TRACE"
  | .copy => bytes "COPY"
  | .lock => bytes "LOCK"
  | .mkcol => bytes "MKCOL"
  | .move => bytes "MOVE"
  | .propfind => bytes "PROPFIND"
  | .proppatch => bytes "PROPPATCH"
  | .search => bytes "SEARCH"
  | .unlock => bytes "UNLOCK"
  | .bind => bytes "BIND"
  | .rebind => bytes "REBIND"
  | .unbind => bytes "UNBIND"
  | .acl => bytes "ACL"
  | .report => bytes "REPORT"
  | .mkactivity => bytes "MKACTIVITY"
  | .checkout => bytes "CHECKOUT"
  | .merge => bytes "MERGE"
  | .msearch => bytes "M-SEARCH"
  | .notify => bytes "NOTIFY"
  | .subscribe => bytes "SUBSCRIBE"
  | .unsubscribe => bytes "UNSUBSCRIBE"
  | .patch => bytes "PATCH"
  | .purge => bytes "PURGE"
  | .mkcalendar => bytes "MKCALENDAR"
  | .link => bytes "LINK"
  | .unlink => bytes "UNLINK"
  | .source => bytes "SOURCE"

/-- The spans that are handed to a data callback, one for each mark of a call. -/
inductive Mark where
  | headerField
  | headerValue
  | url
  | body
  | status
  deriving DecidableEq, Repr

/-- The callbacks without data. -/
inductive Notice where
  | messageBegin
  | headersComplete
  | messageComplete
  | chunkHeader
  | chunkComplete
  deriving DecidableEq, Repr

/-- `enum http_errno` without `HPE_OK`; `HPE_CB_x` names its callback. -/
inductive Errno where
  | cbData (m : Mark)
  | cbNotify (n : Notice)
  | invalidEofState
  | headerOverflow
  | closedConnection
  | invalidVersion
  | invalidStatus
  | invalidMethod
  | invalidUrl
  | lfExpected
  | invalidHeaderToken
  | invalidContentLength
  | unexpectedContentLength
  | invalidChunkSize
  | invalidConstant
  | invalidInternalState
  | strict
  | unknown
  | invalidTransferEncoding
  deriving DecidableEq, Repr

/-- `enum header_states` -/
inductive HeaderState where
  | general
  | C
  | CO
  | CON
  | matchingConnection
  | matchingProxyConnection
  | matchingContentLength
  | matchingTransferEncoding
  | matchingUpgrade
  | connection
  | contentLength
  | contentLengthNum
  | contentLengthWs
  | transferEncoding
  | upgrade
  | matchingTransferEncodingTokenStart
  | matchingTransferEncodingChunked
  | matchingTransferEncodingToken
  | matchingConnectionTokenStart
  | matchingConnectionKeepAlive
  | matchingConnectionClose
  | matchingConnectionUpgrade
  | matchingConnectionToken
  | transferEncodingChunked
  | connectionKeepAlive
  | connectionClose
  | connectionUpgrade
  deriving DecidableEq, Repr

/-- `enum flags`, one field for each bit -/
structure Flags where
  chunked : Bool := false
  connectionKeepAlive : Bool := false
  connectionClose : Bool := false
  connectionUpgrade : Bool := false
  trailing : Bool := false
  upgrade : Bool := false
  skipbody : Bool := false
  contentlength : Bool := false
  deriving DecidableEq, Repr

/-- `enum http_parser_type` -/
inductive ParserType where
  | request
  | response
  | both
  deriving DecidableEq, Repr

/-- `struct http_parser`; `http_errno` is `none` for `HPE_OK`. -/
structure HttpParser where
  type : ParserType
  flags : Flags
  state : State
  headerState : HeaderState
  index : Nat
  usesTransferEncoding : Bool
  allowChunkedLength : Bool
  lenientHttpHeaders : Bool
  nread : Nat
  contentLength : Nat
  httpMajor : Nat
  httpMinor : Nat
  statusCode : Nat
  method : Method
  httpErrno : Option Errno
  upgrade : Bool
  deriving DecidableEq, Repr

/-- `ULLONG_MAX` -/
def ullongMax : Nat := 2 ^ 64 - 1

/-- `max_header_size` -/
def maxHeaderSize : Nat := 80 * 1024

namespace HttpParser

/-- `start_state` -/
def startState (p : HttpParser) : State := if p.type = .request then .startReq else .startRes

/-- `http_parser_init`: the record is zeroed. -/
def init (t : ParserType) : HttpParser where
  type := t
  flags := {}
  state := match t with
    | .request => .startReq
    | .response => .startRes
    | .both => .startReqOrRes
  headerState := .general
  index := 0
  usesTransferEncoding := false
  allowChunkedLength := false
  lenientHttpHeaders := false
  nread := 0
  contentLength := 0
  httpMajor := 0
  httpMinor := 0
  statusCode := 0
  method := .delete
  httpErrno := none
  upgrade := false

/-- `http_message_needs_eof` -/
def messageNeedsEof (p : HttpParser) : Bool :=
  if p.type = .request then false
  else if p.statusCode / 100 = 1 ∨ p.statusCode = 204 ∨ p.statusCode = 304 ∨ p.flags.skipbody then
    false
  else if p.usesTransferEncoding ∧ ¬ p.flags.chunked then true
  else if p.flags.chunked ∨ p.contentLength ≠ ullongMax then false
  else true

/-- `http_should_keep_alive` -/
def shouldKeepAlive (p : HttpParser) : Bool :=
  if 0 < p.httpMajor ∧ 0 < p.httpMinor then
    if p.flags.connectionClose then false else !p.messageNeedsEof
  else if ¬ p.flags.connectionKeepAlive then false
  else !p.messageNeedsEof

/-- `NEW_MESSAGE()` -/
def newMessage (p : HttpParser) : State := if p.shouldKeepAlive then p.startState else .dead

end HttpParser

/-! ## Tables -/

/-- `PARSING_HEADER(state)`: the states up to `s_headers_done` -/
def State.parsingHeader : State → Bool
  | .chunkData | .chunkDataAlmostDone | .chunkDataDone => false
  | .bodyIdentity | .bodyIdentityEof | .messageDone => false
  | _ => true

/-- The states in which `url_mark` is set when a buffer begins. -/
def State.inUrl : State → Bool
  | .reqPath | .reqSchema | .reqSchemaSlash | .reqSchemaSlashSlash => true
  | .reqServerStart | .reqServer | .reqServerWithAt => true
  | .reqQueryStringStart | .reqQueryString | .reqFragmentStart | .reqFragment => true
  | _ => false

/-- `TOKEN(c)`: the lower-case character of a token, 0 for a character of no token -/
def token (c : UInt8) : UInt8 :=
  if isAlpha c then lower c
  else if isNum c then c
  else if (bytes "!#$%&'*+-.^_`|~").contains c then c
  else 0

/-- `IS_HEADER_CHAR(ch)` -/
def isHeaderChar (ch : UInt8) : Bool :=
  ch == CR || ch == LF || ch == 9 || (31 < ch && ch != 127)

/-- `unhex[ch]`, `none` for -1.  The table names its first 128 entries only: the others
are 0. -/
def unhex (ch : UInt8) : Option Nat :=
  if isNum ch then some (digit ch)
  else if chr 'a' ≤ lower ch ∧ lower ch ≤ chr 'f' then some ((lower ch).toNat - 87)
  else if 128 ≤ ch then some 0
  else none

/-- The method that `s_start_req` guesses from its first character. -/
def methodOfInitial (ch : UInt8) : Option Method :=
  match Char.ofNat ch.toNat with
  | 'A' => some .acl
  | 'B' => some .bind
  | 'C' => some .connect
  | 'D' => some .delete
  | 'G' => some .get
  | 'H' => some .head
  | 'L' => some .lock
  | 'M' => some .mkcol
  | 'N' => some .notify
  | 'O' => some .options
  | 'P' => some .post
  | 'R' => some .report
  | 'S' => some .subscribe
  | 'T' => some .trace
  | 'U' => some .unlock
  | _ => none

/-- The method that `s_req_method` corrects its guess to at a character that differs. -/
def methodAt (m : Method) (index : Nat) (ch : UInt8) : Option Method :=
  match m, index, Char.ofNat ch.toNat with
  | .post, 1, 'U' => some .put
  | .post, 1, 'A' => some .patch
  | .post, 1, 'R' => some .propfind
  | .put, 2, 'R' => some .purge
  | .connect, 1, 'H' => some .checkout
  | .connect, 2, 'P' => some .copy
  | .mkcol, 1, 'O' => some .move
  | .mkcol, 1, 'E' => some .merge
  | .mkcol, 1, '-' => some .msearch
  | .mkcol, 2, 'A' => some .mkactivity
  | .mkcol, 3, 'A' => some .mkcalendar
  | .subscribe, 1, 'E' => some .search
  | .subscribe, 1, 'O' => some .source
  | .report, 2, 'B' => some .rebind
  | .propfind, 4, 'P' => some .proppatch
  | .lock, 1, 'I' => some .link
  | .unlock, 2, 'S' => some .unsubscribe
  | .unlock, 2, 'B' => some .unbind
  | .unlock, 3, 'I' => some .unlink
  | _, _, _ => none

/-! ## Header names and values -/

namespace HttpParser

/-- A word is matched one character at a time: `index` is the last position that matched.
The header state is `missed` at a character that differs, `hit` at the word's last one. -/
def matchWord (p : HttpParser) (word : String) (c : UInt8) (hs missed hit : HeaderState) :
    HttpParser × HeaderState :=
  let index := (p.index + 1) % 2 ^ 5
  let p := { p with index }
  if word.length < index ∨ c ≠ (bytes word).getD index 0 then (p, missed)
  else if index = word.length - 1 then (p, hit)
  else (p, hs)

/-- The switch over `header_state` inside a header name, at a character `ch` of it. -/
def fieldChar (p : HttpParser) (ch : UInt8) : HttpParser :=
  let c := token ch
  let next (r : HttpParser × HeaderState) : HttpParser := { r.1 with headerState := r.2 }
  let step (hs : HeaderState) : HttpParser :=
    { p with index := (p.index + 1) % 2 ^ 5, headerState := hs }
  match p.headerState with
  | .C => step (if c = chr 'o' then .CO else .general)
  | .CO => step (if c = chr 'n' then .CON else .general)
  | .CON =>
    step (if c = chr 'n' then .matchingConnection
      else if c = chr 't' then .matchingContentLength
      else .general)
  | .matchingConnection =>
    next (p.matchWord "connection" c p.headerState .general .connection)
  | .matchingProxyConnection =>
    next (p.matchWord "proxy-connection" c p.headerState .general .connection)
  | .matchingContentLength =>
    next (p.matchWord "content-length" c p.headerState .general .contentLength)
  | .matchingTransferEncoding =>
    let r := p.matchWord "transfer-encoding" c p.headerState .general .transferEncoding
    let p := next r
    if r.2 = .transferEncoding then { p with usesTransferEncoding := true } else p
  | .matchingUpgrade => next (p.matchWord "upgrade" c p.headerState .general .upgrade)
  | .connection | .contentLength | .transferEncoding | .upgrade =>
    if ch ≠ chr ' ' then { p with headerState := .general } else p
  | _ => p

/-- The loop of `s_header_field`: the characters of the name that the buffer still holds,
in number, and the character that ends them.  In `h_general` the source skips them in a
loop of its own, with the same outcome. -/
def fieldLoop (p : HttpParser) : Bytes → HttpParser × Nat × Option UInt8
  | [] => (p, 0, none)
  | ch :: rest =>
    if token ch = 0 then (p, 0, some ch)
    else
      let (q, n, stop) := (p.fieldChar ch).fieldLoop rest
      (q, n + 1, stop)

/-- The switch over `h_state` inside a header value, at a character `ch` of it: the header
state after it, or an error. -/
def valueChar (p : HttpParser) (hs : HeaderState) (ch : UInt8) :
    HttpParser × HeaderState × Option Errno :=
  let c := lower ch
  let bad (hs : HeaderState) : HttpParser × HeaderState × Option Errno :=
    ({ p with headerState := hs }, hs, some .invalidContentLength)
  let word (w : String) (missed hit : HeaderState) : HttpParser × HeaderState × Option Errno :=
    let r := p.matchWord w c hs missed hit
    (r.1, r.2, none)
  let comma (start : HeaderState) : HttpParser × HeaderState × Option Errno :=
    if ch = chr ',' then ({ p with index := 0 }, start, none) else (p, hs, none)
  let num : HttpParser × HeaderState × Option Errno :=
    if ch = chr ' ' then (p, .contentLengthWs, none)
    else if ¬ isNum ch then bad .contentLengthNum
    else if (ullongMax - 10) / 10 < p.contentLength then bad .contentLengthNum
    else
      ({ p with contentLength := (p.contentLength * 10 + digit ch) % 2 ^ 64 },
        .contentLengthNum, none)
  -- the end of one of the connection tokens
  let done (f : Flags) : HttpParser × HeaderState × Option Errno :=
    if ch = chr ',' then
      ({ p with flags := f, index := 0 }, .matchingConnectionTokenStart, none)
    else if ch ≠ chr ' ' then (p, .matchingConnectionToken, none)
    else (p, hs, none)
  match hs with
  | .general | .connection | .transferEncoding => (p, hs, none)
  | .contentLength => if ch = chr ' ' then (p, hs, none) else num
  | .contentLengthNum => num
  | .contentLengthWs => if ch = chr ' ' then (p, hs, none) else bad hs
  | .matchingTransferEncodingTokenStart =>
    if c = chr 'c' then (p, .matchingTransferEncodingChunked, none)
    else if token c ≠ 0 then (p, .matchingTransferEncodingToken, none)
    else if c = chr ' ' ∨ c = chr '\t' then (p, hs, none)
    else (p, .general, none)
  | .matchingTransferEncodingChunked =>
    word "chunked" .matchingTransferEncodingToken .transferEncodingChunked
  | .matchingTransferEncodingToken => comma .matchingTransferEncodingTokenStart
  | .matchingConnectionTokenStart =>
    if c = chr 'k' then (p, .matchingConnectionKeepAlive, none)
    else if c = chr 'c' then (p, .matchingConnectionClose, none)
    else if c = chr 'u' then (p, .matchingConnectionUpgrade, none)
    else if token c ≠ 0 then (p, .matchingConnectionToken, none)
    else if c = chr ' ' ∨ c = chr '\t' then (p, hs, none)
    else (p, .general, none)
  | .matchingConnectionKeepAlive =>
    word "keep-alive" .matchingConnectionToken .connectionKeepAlive
  | .matchingConnectionClose => word "close" .matchingConnectionToken .connectionClose
  | .matchingConnectionUpgrade => word "upgrade" .matchingConnectionToken .connectionUpgrade
  | .matchingConnectionToken => comma .matchingConnectionTokenStart
  | .transferEncodingChunked =>
    if ch ≠ chr ' ' then (p, .matchingTransferEncodingToken, none) else (p, hs, none)
  | .connectionKeepAlive => done { p.flags with connectionKeepAlive := true }
  | .connectionClose => done { p.flags with connectionClose := true }
  | .connectionUpgrade => done { p.flags with connectionUpgrade := true }
  | _ => (p, .general, none)

/-- How the loop of `s_header_value` left. -/
inductive ValueStop where
  | ran
  | cr
  | lf
  | bad (e : Errno)
  deriving DecidableEq, Repr

/-- What the loop of `s_header_value` does at a byte: it goes on, or it leaves. -/
inductive ValueStep where
  | go (p : HttpParser) (hs : HeaderState) (run : Option Nat)
  | stop (p : HttpParser) (hs : HeaderState) (stop : ValueStop)

/-- One turn of the loop of `s_header_value`.  `run` is for the inner loop of `h_general`:
it has as many bytes yet to look at, and at `pe` the increment of the outer loop passes
over one byte. -/
def valueByte (p : HttpParser) (hs : HeaderState) (run : Option Nat) (ch : UInt8) : ValueStep :=
  if run = some 0 then .go p hs none
  else if ch = CR then .stop p hs .cr
  else if ch = LF then .stop p hs .lf
  else if ¬ p.lenientHttpHeaders ∧ ¬ isHeaderChar ch then .stop p hs (.bad .invalidHeaderToken)
  else
    match run with
    | some n => .go p hs (some (n - 1))
    | none =>
      if hs = .general then .go p hs (some (maxHeaderSize - 1))
      else
        match p.valueChar hs ch with
        | (p, hs, some e) => .stop p hs (.bad e)
        | (p, hs, none) => .go p hs none

/-- The loop of `s_header_value`: the bytes of the value that the buffer still holds, in
number, and how they end. -/
def valueLoop (p : HttpParser) (hs : HeaderState) (run : Option Nat) :
    Bytes → HttpParser × HeaderState × Nat × ValueStop
  | [] => (p, hs, 0, .ran)
  | ch :: rest =>
    match p.valueByte hs run ch with
    | .stop p hs stop => (p, hs, 0, stop)
    | .go p hs run =>
      let (q, hs, n, stop) := p.valueLoop hs run rest
      (q, hs, n + 1, stop)

end HttpParser

/-! ## A call -/

/-- The bytes since each mark that is set. -/
abbrev Marks := Mark → Option Bytes

/-- The callbacks: the state of the user after the call, and the value returned.  They are
handed the parser as it stands. -/
structure Settings (σ : Type) where
  onData : Mark → HttpParser → Bytes → σ → σ × Int
  onNotify : Notice → HttpParser → σ → σ × Int

/-- The variables of a call: the parser with its state and `nread`, what `parser->data`
points to, and the marks. -/
structure Ctx (σ : Type) where
  parser : HttpParser
  user : σ
  marks : Marks

/-- How the code of a state leaves the byte at `p`: with `break`, so that `p` advances;
with an error, which counts the byte at `p` as parsed or not; or with a `return` behind
the last byte of a message, as the rest is in another protocol. -/
inductive Flow (σ : Type) where
  | next (c : Ctx σ)
  | fail (c : Ctx σ) (e : Errno) (past : Bool)
  | exit (c : Ctx σ)

section Call
variable {σ : Type} (s : Settings σ)

namespace Ctx

/-- `UPDATE_STATE` -/
def goto (c : Ctx σ) (st : State) : Ctx σ := { c with parser := { c.parser with state := st } }

def setHeaderState (c : Ctx σ) (hs : HeaderState) : Ctx σ :=
  { c with parser := { c.parser with headerState := hs } }

def setFlags (c : Ctx σ) (f : Flags) : Ctx σ := { c with parser := { c.parser with flags := f } }

/-- `MARK(FOR)` -/
def mark (c : Ctx σ) (m : Mark) : Ctx σ :=
  { c with marks := Function.update c.marks m (some ((c.marks m).getD [])) }

/-- `p` moves behind these bytes. -/
def advance (c : Ctx σ) (seen : Bytes) : Ctx σ :=
  { c with marks := fun m => (c.marks m).map (· ++ seen) }

/-- `COUNT_HEADER_SIZE(V)` -/
def count (c : Ctx σ) (v : Nat) (k : Ctx σ → Flow σ) : Flow σ :=
  let c := { c with parser := { c.parser with nread := (c.parser.nread + v) % 2 ^ 32 } }
  if maxHeaderSize < c.parser.nread then .fail c .headerOverflow false else k c

/-- `CALLBACK_NOTIFY_(FOR, ER)` -/
def notify (c : Ctx σ) (n : Notice) (past : Bool) (k : Ctx σ → Flow σ) : Flow σ :=
  let r := s.onNotify n c.parser c.user
  if r.2 = 0 then k { c with user := r.1 }
  else .fail { c with user := r.1 } (.cbNotify n) past

/-- `CALLBACK_DATA_(FOR, LEN, ER)`, where the span ends `more` bytes behind `p`. -/
def callback (c : Ctx σ) (m : Mark) (more : Bytes) (past : Bool) (k : Ctx σ → Flow σ) : Flow σ :=
  match c.marks m with
  | none => k c
  | some span =>
    let r := s.onData m c.parser (span ++ more) c.user
    if r.2 = 0 then k { c with user := r.1, marks := Function.update c.marks m none }
    else .fail { c with user := r.1 } (.cbData m) past

/-- What `s_start_req`, `s_start_res` and `s_start_req_or_res` reset. -/
def fresh (c : Ctx σ) : Ctx σ :=
  { c with
    parser := { c.parser with
      flags := {}
      usesTransferEncoding := false
      contentLength := ullongMax } }

/-- A state that takes one kind of character. -/
def expect (c : Ctx σ) (ok : Bool) (e : Errno) (st : State) : Flow σ :=
  if ok then .next (c.goto st) else .fail c e false

end Ctx

/-! ### States that hand a byte on -/

/-- `s_message_done` -/
def onMessageDone (c : Ctx σ) : Flow σ :=
  (c.goto c.parser.newMessage).notify s .messageComplete true fun c =>
    if c.parser.upgrade then .exit c else .next c

/-- The message is complete at the byte at `p`. -/
def completeMessage (c : Ctx σ) : Flow σ :=
  (c.goto c.parser.newMessage).notify s .messageComplete true .next

/-- `s_headers_done` -/
def onHeadersDone (c : Ctx σ) (ch : UInt8) : Flow σ :=
  if ch ≠ LF then .fail c .strict false
  else
    let c := { c with parser := { c.parser with nread := 0 } }
    let p := c.parser
    let hasBody := p.flags.chunked || (0 < p.contentLength && p.contentLength ≠ ullongMax)
    if p.upgrade ∧ (p.method = .connect ∨ p.flags.skipbody ∨ ¬ hasBody) then
      (c.goto p.newMessage).notify s .messageComplete true .exit
    else if p.flags.skipbody then completeMessage s c
    else if p.flags.chunked then .next (c.goto .chunkSizeStart)
    else if p.usesTransferEncoding then
      if p.type = .request ∧ ¬ p.lenientHttpHeaders then .fail c .invalidTransferEncoding false
      else .next (c.goto .bodyIdentityEof)
    else if p.contentLength = 0 then completeMessage s c
    else if p.contentLength ≠ ullongMax then .next (c.goto .bodyIdentity)
    else if ¬ p.messageNeedsEof then completeMessage s c
    else .next (c.goto .bodyIdentityEof)

/-- What the value of `on_headers_complete` does to the parser, `none` for an error. -/
def headersCompleted (p : HttpParser) (ret : Int) : Option HttpParser :=
  if ret = 0 then some p
  else if ret = 2 then some { p with upgrade := true, flags := { p.flags with skipbody := true } }
  else if ret = 1 then some { p with flags := { p.flags with skipbody := true } }
  else none

/-- A `content-length` next to a `transfer-encoding` is refused, as RFC 7230 has it. -/
def refusesLength (p : HttpParser) : Bool :=
  p.usesTransferEncoding && p.flags.contentlength &&
    (if p.flags.chunked then !p.allowChunkedLength else !p.lenientHttpHeaders)

/-- What `upgrade` is set to before `on_headers_complete`. -/
def asksUpgrade (p : HttpParser) : Bool :=
  if p.flags.upgrade ∧ p.flags.connectionUpgrade then
    p.type == .request || p.statusCode == 101
  else p.method == .connect

/-- `s_headers_almost_done` -/
def onHeadersAlmostDone (c : Ctx σ) (ch : UInt8) : Flow σ :=
  if ch ≠ LF then .fail c .strict false
  else if c.parser.flags.trailing then
    -- end of a chunked request
    (c.goto .messageDone).notify s .chunkComplete false (onMessageDone s)
  else
    let p := c.parser
    if refusesLength p then .fail c .unexpectedContentLength false
    else
      let c := { c with parser := { p with state := .headersDone, upgrade := asksUpgrade p } }
      let r := s.onNotify .headersComplete c.parser c.user
      match headersCompleted c.parser r.2 with
      | none => .fail { c with user := r.1 } (.cbNotify .headersComplete) false
      | some p => onHeadersDone s { c with parser := p, user := r.1 } ch

/-- `s_header_field_start` -/
def onHeaderFieldStart (c : Ctx σ) (ch : UInt8) : Flow σ :=
  if ch = CR then .next (c.goto .headersAlmostDone)
  else if ch = LF then onHeadersAlmostDone s (c.goto .headersAlmostDone) ch
  else if token ch = 0 then .fail c .invalidHeaderToken false
  else
    let hs : HeaderState :=
      if token ch = chr 'c' then .C
      else if token ch = chr 'p' then .matchingProxyConnection
      else if token ch = chr 't' then .matchingTransferEncoding
      else if token ch = chr 'u' then .matchingUpgrade
      else .general
    let c := (c.mark .headerField).goto .headerField
    .next { c with parser := { c.parser with index := 0, headerState := hs } }

/-- The flags that a header whose value is over leaves behind. -/
def headerDoneFlags (p : HttpParser) : Flags :=
  match p.headerState with
  | .connectionKeepAlive => { p.flags with connectionKeepAlive := true }
  | .connectionClose => { p.flags with connectionClose := true }
  | .transferEncodingChunked => { p.flags with chunked := true }
  | .connectionUpgrade => { p.flags with connectionUpgrade := true }
  | _ => p.flags

/-- `s_header_value_start` -/
def onHeaderValueStart (c : Ctx σ) (ch : UInt8) : Flow σ :=
  let c := (c.mark .headerValue).goto .headerValue
  let c := { c with parser := { c.parser with index := 0 } }
  let p := c.parser
  match p.headerState with
  | .upgrade =>
    .next ((c.setFlags { p.flags with upgrade := true }).setHeaderState .general)
  | .transferEncoding =>
    .next (c.setHeaderState
      (if lower ch = chr 'c' then .matchingTransferEncodingChunked
        else .matchingTransferEncodingToken))
  | .matchingTransferEncodingTokenStart => .next c
  | .contentLength =>
    if ¬ isNum ch then .fail c .invalidContentLength false
    else if p.flags.contentlength then .fail c .unexpectedContentLength false
    else
      .next { c with
        parser := { p with
          flags := { p.flags with contentlength := true }
          contentLength := digit ch
          headerState := .contentLengthNum } }
  | .contentLengthWs => .next c
  | .connection =>
    .next (c.setHeaderState
      (if lower ch = chr 'k' then .matchingConnectionKeepAlive
        else if lower ch = chr 'c' then .matchingConnectionClose
        else if lower ch = chr 'u' then .matchingConnectionUpgrade
        else .matchingConnectionToken))
  | .matchingConnectionTokenStart => .next c
  | _ => .next (c.setHeaderState .general)

/-- `s_header_value_lws` -/
def onHeaderValueLws (c : Ctx σ) (ch : UInt8) : Flow σ :=
  if ch = chr ' ' ∨ ch = chr '\t' then
    -- obsolete line folding is a space
    let c := if c.parser.headerState = .contentLengthNum then c.setHeaderState .contentLengthWs
      else c
    onHeaderValueStart (c.goto .headerValueStart) ch
  else
    onHeaderFieldStart s ((c.setFlags (headerDoneFlags c.parser)).goto .headerFieldStart) ch

/-- `s_header_almost_done` -/
def onHeaderAlmostDone (c : Ctx σ) (ch : UInt8) : Flow σ :=
  c.expect (ch == LF) .lfExpected .headerValueLws

/-- `s_header_value_discard_lws` -/
def onHeaderValueDiscardLws (c : Ctx σ) (ch : UInt8) : Flow σ :=
  if ch = chr ' ' ∨ ch = chr '\t' then .next (c.goto .headerValueDiscardWs)
  else if c.parser.headerState = .contentLength then .fail c .invalidContentLength false
  else
    -- header value was empty
    let c := ((c.setFlags (headerDoneFlags c.parser)).mark .headerValue).goto .headerFieldStart
    c.callback s .headerValue [] false fun c => onHeaderFieldStart s c ch

/-- `s_res_status` -/
def onResStatus (c : Ctx σ) (ch : UInt8) : Flow σ :=
  if ch = CR then (c.goto .resLineAlmostDone).callback s .status [] true .next
  else if ch = LF then (c.goto .headerFieldStart).callback s .status [] true .next
  else .next c

/-- `s_res_status_start` -/
def onResStatusStart (c : Ctx σ) (ch : UInt8) : Flow σ :=
  let c := (c.mark .status).goto .resStatus
  let c := { c with parser := { c.parser with index := 0 } }
  if ch = CR ∨ ch = LF then onResStatus s c ch else .next c

/-- `s_start_req` -/
def onStartReq (c : Ctx σ) (ch : UInt8) : Flow σ :=
  if ch = CR ∨ ch = LF then .next c
  else
    let c := c.fresh
    if ¬ isAlpha ch then .fail c .invalidMethod false
    else
      let c := { c with parser := { c.parser with method := .delete, index := 1 } }
      match methodOfInitial ch with
      | none => .fail c .invalidMethod false
      | some method =>
        let c := { c with parser := { c.parser with method } }
        (c.goto .reqMethod).notify s .messageBegin true .next

/-! ### One byte -/

/-- `s_req_method` -/
def onReqMethod (c : Ctx σ) (ch : UInt8) : Flow σ :=
  let p := c.parser
  let matcher := p.method.string.getD p.index 0
  let index := (p.index + 1) % 2 ^ 5
  if ch = 0 then .fail c .invalidMethod false
  else if ch = chr ' ' ∧ matcher = 0 then
    .next { c with parser := { p with state := .reqSpacesBeforeUrl, index } }
  else if ch = matcher then .next { c with parser := { p with index } }
  else if (chr 'A' ≤ ch ∧ ch ≤ chr 'Z') ∨ ch = chr '-' then
    match methodAt p.method p.index ch with
    | none => .fail c .invalidMethod false
    | some method => .next { c with parser := { p with method, index } }
  else .fail c .invalidMethod false

/-- A character of a URL: `parse_url_char` moves on. -/
def onUrlChar (c : Ctx σ) (ch : UInt8) : Flow σ :=
  let c := c.goto (parseUrlChar c.parser.state ch)
  if c.parser.state = .dead then .fail c .invalidUrl false else .next c

/-- The end of a URL, or a character of it. -/
def onUrl (c : Ctx σ) (ch : UInt8) : Flow σ :=
  if ch = chr ' ' then (c.goto .reqHttpStart).callback s .url [] true .next
  else if ch = CR ∨ ch = LF then
    let c := { c with parser := { c.parser with httpMajor := 0, httpMinor := 9 } }
    (c.goto (if ch = CR then .reqLineAlmostDone else .headerFieldStart)).callback s .url [] true
      .next
  else onUrlChar c ch

/-- `s_chunk_size` -/
def onChunkSize (c : Ctx σ) (ch : UInt8) : Flow σ :=
  if ch = CR then .next (c.goto .chunkSizeAlmostDone)
  else
    match unhex ch with
    | none =>
      if ch = chr ';' ∨ ch = chr ' ' then .next (c.goto .chunkParameters)
      else .fail c .invalidChunkSize false
    | some v =>
      if (ullongMax - 16) / 16 < c.parser.contentLength then .fail c .invalidContentLength false
      else
        .next { c with
          parser := { c.parser with
            contentLength := (c.parser.contentLength * 16 + v) % 2 ^ 64 } }

/-- `s_chunk_size_almost_done` -/
def onChunkSizeAlmostDone (c : Ctx σ) (ch : UInt8) : Flow σ :=
  if ch ≠ LF then .fail c .strict false
  else
    let c := { c with parser := { c.parser with nread := 0 } }
    let c :=
      if c.parser.contentLength = 0 then
        (c.setFlags { c.parser.flags with trailing := true }).goto .headerFieldStart
      else c.goto .chunkData
    c.notify s .chunkHeader true .next

/-- The digit of a version. -/
def onVersionDigit (c : Ctx σ) (ch : UInt8) (c' : Ctx σ) : Flow σ :=
  if isNum ch then .next c' else .fail c .invalidVersion false

/-- The code of the states that read the byte at `p` only. -/
def byteStep (c : Ctx σ) (ch : UInt8) : Flow σ :=
  let p := c.parser
  match p.state with
  | .dead => if ch = CR ∨ ch = LF then .next c else .fail c .closedConnection false
  | .startReqOrRes =>
    if ch = CR ∨ ch = LF then .next c
    else
      let c := c.fresh
      if ch = chr 'H' then (c.goto .resOrRespH).notify s .messageBegin true .next
      else
        let c := { c with parser := { c.parser with type := .request } }
        onStartReq s (c.goto .startReq) ch
  | .resOrRespH =>
    if ch = chr 'T' then .next { c with parser := { p with type := .response, state := .resHT } }
    else if ch ≠ chr 'E' then .fail c .invalidConstant false
    else
      .next { c with
        parser := { p with type := .request, method := .head, index := 2, state := .reqMethod } }
  | .startRes =>
    if ch = CR ∨ ch = LF then .next c
    else
      let c := c.fresh
      if ch = chr 'H' then (c.goto .resH).notify s .messageBegin true .next
      else .fail c .invalidConstant false
  | .resH => c.expect (ch == chr 'T') .strict .resHT
  | .resHT => c.expect (ch == chr 'T') .strict .resHTT
  | .resHTT => c.expect (ch == chr 'P') .strict .resHTTP
  | .resHTTP => c.expect (ch == chr '/') .strict .resHttpMajor
  | .resHttpMajor =>
    onVersionDigit c ch { c with parser := { p with httpMajor := digit ch, state := .resHttpDot } }
  | .resHttpDot => c.expect (ch == chr '.') .invalidVersion .resHttpMinor
  | .resHttpMinor =>
    onVersionDigit c ch { c with parser := { p with httpMinor := digit ch, state := .resHttpEnd } }
  | .resHttpEnd => c.expect (ch == chr ' ') .invalidVersion .resFirstStatusCode
  | .resFirstStatusCode =>
    if isNum ch then
      .next { c with parser := { p with statusCode := digit ch, state := .resStatusCode } }
    else if ch = chr ' ' then .next c
    else .fail c .invalidStatus false
  | .resStatusCode =>
    if isNum ch then
      let c := { c with parser := { p with statusCode := p.statusCode * 10 + digit ch } }
      if 999 < c.parser.statusCode then .fail c .invalidStatus false else .next c
    else if ch = chr ' ' then .next (c.goto .resStatusStart)
    else if ch = CR ∨ ch = LF then onResStatusStart s (c.goto .resStatusStart) ch
    else .fail c .invalidStatus false
  | .resStatusStart => onResStatusStart s c ch
  | .resStatus => onResStatus s c ch
  | .resLineAlmostDone => c.expect (ch == LF) .strict .headerFieldStart
  | .startReq => onStartReq s c ch
  | .reqMethod => onReqMethod c ch
  | .reqSpacesBeforeUrl =>
    if ch = chr ' ' then .next c
    else
      let c := c.mark .url
      onUrlChar (if p.method = .connect then c.goto .reqServerStart else c) ch
  | .reqSchema | .reqSchemaSlash | .reqSchemaSlashSlash | .reqServerStart =>
    if ch = chr ' ' ∨ ch = CR ∨ ch = LF then .fail c .invalidUrl false else onUrlChar c ch
  | .reqServer | .reqServerWithAt | .reqPath | .reqQueryStringStart | .reqQueryString
  | .reqFragmentStart | .reqFragment => onUrl s c ch
  | .reqHttpStart =>
    if ch = chr ' ' then .next c
    else if ch = chr 'H' then .next (c.goto .reqHttpH)
    else if ch = chr 'I' ∧ p.method = .source then .next (c.goto .reqHttpI)
    else .fail c .invalidConstant false
  | .reqHttpH => c.expect (ch == chr 'T') .strict .reqHttpHT
  | .reqHttpHT => c.expect (ch == chr 'T') .strict .reqHttpHTT
  | .reqHttpHTT => c.expect (ch == chr 'P') .strict .reqHttpHTTP
  | .reqHttpI => c.expect (ch == chr 'C') .strict .reqHttpIC
  | .reqHttpIC => c.expect (ch == chr 'E') .strict .reqHttpHTTP
  | .reqHttpHTTP => c.expect (ch == chr '/') .strict .reqHttpMajor
  | .reqHttpMajor =>
    onVersionDigit c ch { c with parser := { p with httpMajor := digit ch, state := .reqHttpDot } }
  | .reqHttpDot => c.expect (ch == chr '.') .invalidVersion .reqHttpMinor
  | .reqHttpMinor =>
    onVersionDigit c ch { c with parser := { p with httpMinor := digit ch, state := .reqHttpEnd } }
  | .reqHttpEnd =>
    if ch = CR then .next (c.goto .reqLineAlmostDone)
    else if ch = LF then .next (c.goto .headerFieldStart)
    else .fail c .invalidVersion false
  | .reqLineAlmostDone => c.expect (ch == LF) .lfExpected .headerFieldStart
  | .headerFieldStart => onHeaderFieldStart s c ch
  | .headerValueDiscardWs =>
    if ch = chr ' ' ∨ ch = chr '\t' then .next c
    else if ch = CR then .next (c.goto .headerValueDiscardWsAlmostDone)
    else if ch = LF then .next (c.goto .headerValueDiscardLws)
    else onHeaderValueStart c ch
  | .headerValueStart => onHeaderValueStart c ch
  | .headerAlmostDone => onHeaderAlmostDone c ch
  | .headerValueLws => onHeaderValueLws s c ch
  | .headerValueDiscardWsAlmostDone => c.expect (ch == LF) .strict .headerValueDiscardLws
  | .headerValueDiscardLws => onHeaderValueDiscardLws s c ch
  | .headersAlmostDone => onHeadersAlmostDone s c ch
  | .headersDone => onHeadersDone s c ch
  | .messageDone => onMessageDone s c
  | .chunkSizeStart =>
    match unhex ch with
    | none => .fail c .invalidChunkSize false
    | some v => .next { c with parser := { p with contentLength := v, state := .chunkSize } }
  | .chunkSize => onChunkSize c ch
  | .chunkParameters => if ch = CR then .next (c.goto .chunkSizeAlmostDone) else .next c
  | .chunkSizeAlmostDone => onChunkSizeAlmostDone s c ch
  | .chunkDataAlmostDone =>
    if ch ≠ CR then .fail c .strict false
    else (c.goto .chunkDataDone).callback s .body [] true .next
  | .chunkDataDone =>
    if ch ≠ LF then .fail c .strict false
    else
      let c := { c with parser := { p with nread := 0, state := .chunkSizeStart } }
      c.notify s .chunkComplete true .next
  | _ => .fail c .invalidInternalState false

/-! ### States that run ahead

`buf` is the buffer from `p` on.  The first component of the result is how far `p` moved
in it. -/

/-- `s_header_field` -/
def headerFieldRun (c : Ctx σ) (buf : Bytes) : Nat × Flow σ :=
  let (p, n, stop) := c.parser.fieldLoop buf
  let c := { c with parser := p }
  match stop with
  | none => (n - 1, c.count (n - 1) .next)
  | some ch =>
    (n, c.count n fun c =>
      if ch = chr ':' then
        (c.goto .headerValueDiscardWs).callback s .headerField (buf.take n) true .next
      else .fail c .invalidHeaderToken false)

/-- `s_header_value` -/
def headerValueRun (c : Ctx σ) (buf : Bytes) : Nat × Flow σ :=
  let (p, hs, n, stop) := c.parser.valueLoop c.parser.headerState none buf
  let c := { c with parser := p }
  match stop with
  | .ran => (n - 1, (c.setHeaderState hs).count (n - 1) .next)
  | .cr =>
    (n, ((c.goto .headerAlmostDone).setHeaderState hs).callback s .headerValue (buf.take n) true
      fun c => c.count n .next)
  | .lf =>
    (n, (c.goto .headerAlmostDone).count n fun c =>
      (c.setHeaderState hs).callback s .headerValue (buf.take n) false fun c =>
        onHeaderAlmostDone c LF)
  | .bad e => (n, .fail c e false)

/-- `s_body_identity` -/
def bodyIdentityRun (c : Ctx σ) (buf : Bytes) : Nat × Flow σ :=
  let toRead := min c.parser.contentLength buf.length
  let left := c.parser.contentLength - toRead
  let c := c.mark .body
  let c := { c with parser := { c.parser with contentLength := left } }
  (toRead - 1,
    if left = 0 then
      (c.goto .messageDone).callback s .body (buf.take toRead) false (onMessageDone s)
    else .next c)

/-- `s_body_identity_eof` -/
def bodyIdentityEofRun (c : Ctx σ) (buf : Bytes) : Nat × Flow σ :=
  (buf.length - 1, .next (c.mark .body))

/-- `s_chunk_data` -/
def chunkDataRun (c : Ctx σ) (buf : Bytes) : Nat × Flow σ :=
  let toRead := min c.parser.contentLength buf.length
  let left := c.parser.contentLength - toRead
  let c := c.mark .body
  let c := { c with parser := { c.parser with contentLength := left } }
  (toRead - 1,
    .next (if left = 0 then c.goto .chunkDataAlmostDone else c))

/-- The switch over the state, with the buffer from `p` on. -/
def step (c : Ctx σ) (ch : UInt8) (tail : Bytes) : Nat × Flow σ :=
  match c.parser.state with
  | .headerField => headerFieldRun s c (ch :: tail)
  | .headerValue => headerValueRun s c (ch :: tail)
  | .bodyIdentity => bodyIdentityRun s c (ch :: tail)
  | .bodyIdentityEof => bodyIdentityEofRun c (ch :: tail)
  | .chunkData => chunkDataRun c (ch :: tail)
  | _ => (0, byteStep s c ch)

/-! ### The loop -/

/-- How the loop over the buffer ends: behind its last byte, or with a return and so many
bytes that are not counted as parsed. -/
inductive Outcome (σ : Type) where
  | ran (c : Ctx σ)
  | left (c : Ctx σ) (unparsed : Nat)

/-- The body of the loop: the byte is counted while the headers are read, and handed to
the state. -/
def iteration (c : Ctx σ) (ch : UInt8) (tail : Bytes) : Nat × Flow σ :=
  if c.parser.state.parsingHeader then
    let c1 := { c with parser := { c.parser with nread := (c.parser.nread + 1) % 2 ^ 32 } }
    if maxHeaderSize < c1.parser.nread then (0, .fail c1 .headerOverflow false)
    else step s c1 ch tail
  else step s c ch tail

/-- The loop, `skip` bytes ahead of the buffer's front. -/
def loop : Nat → Ctx σ → Bytes → Outcome σ
  | _, c, [] => .ran c
  | skip + 1, c, _ :: tail => loop skip c tail
  | 0, c, ch :: tail =>
    match iteration s c ch tail with
    | (k, .next c) => loop k (c.advance ((ch :: tail).take (k + 1))) tail
    | (k, .fail c e past) =>
      .left { c with parser := { c.parser with httpErrno := some e } }
        (tail.length + 1 - k - past.toNat)
    | (k, .exit c) => .left c (tail.length - k)

/-- The marks that are set when a buffer begins. -/
def openMarks (st : State) : Marks
  | .headerField => if st = .headerField then some [] else none
  | .headerValue => if st = .headerValue then some [] else none
  | .url => if st.inUrl then some [] else none
  | .status => if st = .resStatus then some [] else none
  | .body => none

/-- The callbacks for the marks that are left over when the buffer ends. -/
def flush (c : Ctx σ) : Flow σ :=
  c.callback s .headerField [] false fun c =>
    c.callback s .headerValue [] false fun c =>
      c.callback s .url [] false fun c =>
        c.callback s .body [] false fun c =>
          c.callback s .status [] false .next

/-- A parser with what its `data` points to. -/
abbrev Session (σ : Type) := HttpParser × σ

/-- What a call returns once the loop has ended. -/
def Outcome.close (o : Outcome σ) (len : Nat) : Session σ × Nat :=
  match o with
  | .left c unparsed => ((c.parser, c.user), len - unparsed)
  | .ran c =>
    match flush s c with
    | .next c => ((c.parser, c.user), len)
    | .fail c e _ => (({ c.parser with httpErrno := some e }, c.user), len)
    | .exit c => ((c.parser, c.user), len)

/-- `http_parser_execute` with `len == 0` -/
def executeEof (st : Session σ) : Session σ × Nat :=
  let (p, u) := st
  match p.state with
  | .bodyIdentityEof =>
    let r := s.onNotify .messageComplete p u
    if r.2 = 0 then ((p, r.1), 0)
    else (({ p with httpErrno := some (.cbNotify .messageComplete) }, r.1), 0)
  | .dead | .startReqOrRes | .startRes | .startReq => (st, 0)
  | _ => (({ p with httpErrno := some .invalidEofState }, u), 1)

/-- `http_parser_execute`: the parser and the number of bytes parsed. -/
def execute (st : Session σ) (data : Bytes) : Session σ × Nat :=
  let (p, u) := st
  if p.httpErrno ≠ none then (st, 0)
  else if data = [] then executeEof s st
  else
    let c : Ctx σ := { parser := p, user := u, marks := openMarks p.state }
    (loop s 0 c data).close s data.length

end Call

end Sylar.Http
