import Sylar.HttpWire

/-! # A request that was written is read

`HttpRequest::dump` writes a request, and `HttpRequestParser` reads one.

**`feed_dump`**: what is read of a request that was written is the request, but for the blanks in
front of the values of its headers, and for `m_close`, which is not read from the wire. -/
namespace Sylar.Http
open HttpParser (connectionValue connectionFlags)

namespace HttpRequest
variable {M : Type} [StdMap M] (r : HttpRequest M)

/-- The headers that `dump` goes over. -/
def stored : List (Bytes × Bytes) :=
  (StdMap.entries r.headers).filter fun e => !strcasecmpEq e.1 (bytes "connection")

/-- What `dump` writes in front of the body. -/
def head : Bytes :=
  r.requestLine ++ crlf ++ ((headerLines r.close r.stored r.body).flatMap HeaderLine.text ++ crlf)

theorem dump_head : r.dump = r.head ++ r.body := by
  have hstored : (r.stored.map entryLine).flatMap HeaderLine.text =
      r.stored.flatMap fun e => e.1 ++ bytes ":" ++ e.2 ++ crlf := by
    rw [List.flatMap_map]
    exact List.flatMap_congr fun e _ => entryLine_text e
  unfold dump head headerLines
  rw [List.flatMap_cons, List.flatMap_append, hstored, connectionLine_text]
  by_cases hempty : r.body = []
  · rw [if_pos hempty, if_neg (not_not.mpr hempty), hempty]
    simp only [List.flatMap_nil, List.append_nil, List.append_assoc, stored]
  · rw [if_neg hempty, if_pos hempty, List.flatMap_singleton, lengthLine_text]
    simp only [List.append_assoc, stored]

/-- A request that is read as it was written: it has a method of the table, its target and its
headers are made of the characters that such parts have, none of the headers that `dump` goes over
has a name that messages are framed with (`Readable`), and the parser has room for its head and its
length. -/
structure Sendable : Prop extends r.Addressed where
  method : httpMethodToString r.method = r.method.string
  version : r.version < 2 ^ 8
  major : r.version >>> 4 ≤ 9
  minor : r.version &&& 0x0F ≤ 9
  headers : ∀ e ∈ r.stored, Readable e
  head : r.head.length ≤ maxHeaderSize
  body : r.body.length + 10 ≤ ullongMax

/-- The headers of the message, as names and values. -/
def written : List (Bytes × Bytes) :=
  (bytes "connection", connectionValue r.close) ::
    (r.stored.map (fun e => (e.1, e.2.dropWhile isBlank)) ++
      if r.body = [] then [] else [(bytes "content-length", decimal r.body.length)])

/-- The request as it is read: every header of the message is set, in turn. -/
def received : HttpRequest M :=
  { r with
    close := true
    headers := r.written.foldl (fun m e => HeaderMap.assign m e.1 e.2) HeaderMap.empty }

omit [StdMap M] in
theorem requestLine_tail :
    r.requestLine = httpMethodToString r.method ++ bytes " " ++ r.tail.text ++ bytes " " ++
      versionText r.version := by
  have hquery : queryText r.tail.query = (if r.query = [] then [] else bytes "?") ++ r.query :=
    delimited_present ..
  have hfragment : fragmentText r.tail.fragment =
      (if r.fragment = [] then [] else bytes "#") ++ r.fragment := delimited_present ..
  rw [UrlTail.text, hquery, hfragment]
  simp only [requestLine, tail, List.append_assoc]

variable {r}

theorem Sendable.line (h : r.Sendable) :
    ∃ text, r.tail.text = chr '/' :: text ∧ (r.line text).Valid ∧
      (r.line text).text = r.requestLine ++ crlf := by
  obtain ⟨text, htext, hlives⟩ := target_lives h.valid h.path_ne
  obtain ⟨hmajor, hmajorNum, -⟩ := decimal_digit h.major
  obtain ⟨hminor, hminorNum, -⟩ := decimal_digit h.minor
  refine ⟨text, htext, ⟨?_, hlives, hmajorNum, hminorNum⟩, ?_⟩
  · -- CONNECT is not in the table
    have hmethod := h.method
    intro hconnect
    rw [show r.method = .connect from hconnect] at hmethod
    revert hmethod
    decide
  · have hblank : bytes " " = [chr ' '] := by decide
    have hdot : bytes "." = [chr '.'] := by decide
    have hhttp : bytes "HTTP/" = [chr 'H', chr 'T', chr 'T', chr 'P', chr '/'] := by decide
    have hcrlf : crlf = [CR, LF] := by decide
    rw [requestLine_tail, versionText, hmajor, hminor, h.method, htext, hblank, hdot, hhttp, hcrlf,
      Line.text]
    simp only [HttpRequest.line, List.append_assoc]

/-- The callbacks set the headers of the lines. -/
theorem foldl_line (lines : List HeaderLine) (u : Parse (HttpRequest M)) :
    ∃ x, lines.foldl (requestCalm M).line u =
      { u with
        field := x
        data := { u.data with
          headers := (lines.map fun l => (l.name, l.value)).foldl
            (fun m e => HeaderMap.assign m e.1 e.2) u.data.headers } } := by
  induction lines generalizing u with
  | nil => exact ⟨u.field, rfl⟩
  | cons l lines ih => exact ih ((requestCalm M).line u l)

theorem headerLines_written :
    (headerLines r.close r.stored r.body).map (fun l => (l.name, l.value)) = r.written := by
  rw [headerLines, written, List.map_cons, List.map_append, List.map_map]
  split <;> rfl

/-- Behind the line of a request. -/
def behindLine (r : HttpRequest M) (i : Nat) : HttpParser :=
  { (HttpParser.init .request).freshened with
    method := r.method
    index := i
    httpMajor := digit (digitByte (r.version >>> 4))
    httpMinor := digit (digitByte (r.version &&& 0x0F)) }

theorem Sendable.unread (h : r.Sendable) (i : Nat) : (r.behindLine i).Unread where
  flags := rfl
  uses := rfl
  length := rfl
  noError := rfl
  noConnect := by
    obtain ⟨text, -, hvalid, -⟩ := h.line
    exact hvalid.method

/-- What the lines of the headers leave as it is, and what they say of the connection. -/
theorem framed_eq (p : HttpParser) (close : Bool) (body : Bytes) :
    ∃ f n, p.framed close body = { p with flags := f, contentLength := n } ∧
      f.connectionClose = (p.flags.connectionClose || close) ∧
      f.connectionKeepAlive = (p.flags.connectionKeepAlive || !close) := by
  unfold HttpParser.framed
  split
  · refine ⟨connectionFlags p.flags close, p.contentLength, rfl, ?_⟩
    cases close <;> simp [connectionFlags]
  · refine ⟨{ connectionFlags p.flags close with contentlength := true }, body.length, rfl, ?_⟩
    cases close <;> simp [connectionFlags]

/-- The parser of requests goes on behind a message that asks to keep the connection. -/
theorem newMessage_request {p : HttpParser} {close : Bool} (htype : p.type = .request)
    (hclose : p.flags.connectionClose = close) (hkeep : p.flags.connectionKeepAlive = !close) :
    p.newMessage = if close then .dead else .startReq := by
  have heof : p.messageNeedsEof = false := if_pos htype
  have hagain : p.shouldKeepAlive = !close := by
    rw [HttpParser.shouldKeepAlive, hclose, hkeep, heof]
    cases close <;> simp
  rw [HttpParser.newMessage, hagain, HttpParser.startState, if_pos htype]
  cases close <;> rfl

/-- The user of a parser that has read nothing. -/
def blank (M : Type) [StdMap M] : Parse (HttpRequest M) where
  data := { headers := HeaderMap.empty }

/-- The line of a request. -/
theorem Sendable.runsLine (h : r.Sendable) :
    ∃ i n, n + ((headerLines r.close r.stored r.body).flatMap HeaderLine.text).length + 2 ≤
        maxHeaderSize ∧
      Runs (requestCalm M) (Ctx.bare (HttpParser.init .request) (blank M)) (r.requestLine ++ crlf)
        (Ctx.bare ((r.behindLine i).atState .headerFieldStart n)
          { blank M with data := r.addressedBy (blank M).data }) := by
  obtain ⟨text, htext, hvalid, hline⟩ := h.line
  have hcrlf : crlf = [CR, LF] := by decide
  have hroom : (r.line text).text.length +
      ((headerLines r.close r.stored r.body).flatMap HeaderLine.text).length + 2 ≤
        maxHeaderSize := by
    have hhead := h.head
    have hlines : ∀ x : Bytes, (x ++ [CR, LF]).length = x.length + 2 := fun x => by simp
    rw [HttpRequest.head, ← hline, hcrlf, List.length_append, hlines, ← Nat.add_assoc] at hhead
    exact hhead
  have hstart : (Ctx.bare (HttpParser.init .request) (blank M)).Inside (requestCalm M) := ⟨rfl, rfl⟩
  have hurl : ∀ q, (requestSettings M).onData .url q (chr '/' :: (r.line text).target) (blank M) =
      ({ blank M with data := r.addressedBy (blank M).data }, 0) := by
    intro q
    have hcb := h.onUrl (u := blank M) rfl rfl
    rw [htext] at hcb
    exact hcb
  obtain ⟨i, hfirst⟩ := Runs.requestLine (n := 0) hstart hvalid hurl rfl (by omega)
  rw [Nat.zero_add, hline] at hfirst
  exact ⟨i, _, by rw [← hline]; exact hroom, hfirst⟩

/-- **The parser over a request that was written.** -/
theorem Sendable.runs (h : r.Sendable) :
    ∃ q v, Runs (requestCalm M) (Ctx.bare (HttpParser.init .request) (blank M)) r.dump
        (Ctx.bare q v) ∧
      q.state = (if r.close then .dead else .startReq) ∧ q.httpErrno = none ∧ q.upgrade = false ∧
      v.data = r.received ∧ v.finished = true := by
  obtain ⟨i, n, hroom, hfirst⟩ := h.runsLine
  have hin : (Ctx.bare (r.behindLine i) { blank M with
      data := r.addressedBy (blank M).data }).Inside (requestCalm M) := ⟨rfl, rfl⟩
  have heof : r.body = [] → ((r.behindLine i).framed r.close r.body).messageNeedsEof = false := by
    intro hempty
    unfold HttpParser.framed
    rw [if_pos hempty]
    rfl
  obtain ⟨q, q', k, hq, hq', hrest⟩ :=
    Runs.framed (h.unread i) hin h.headers h.body hroom heof
  obtain ⟨x, hfold⟩ := foldl_line (headerLines r.close r.stored r.body)
    { blank M with data := r.addressedBy (blank M).data }
  rw [hfold, headerLines_written] at hrest
  have hcrlf : crlf = [CR, LF] := by decide
  have hdump : r.dump = r.requestLine ++ crlf ++
      ((headerLines r.close r.stored r.body).flatMap HeaderLine.text ++ ([CR, LF] ++ r.body)) := by
    rw [dump_head, HttpRequest.head, ← hcrlf]
    simp only [List.append_assoc]
  obtain ⟨f, m, hframed, hclose, hkeep⟩ := framed_eq (r.behindLine i) r.close r.body
  rw [hframed] at hq hq'
  have hpack : packVersion q = r.version := by
    have hcore := congrArg packVersion hq
    have hkept : packVersion q = packVersion (r.behindLine i) := hcore
    have hunpack := version_unpack ⟨r.version, h.version⟩
    rw [hkept, packVersion, behindLine, (decimal_digit h.major).2.2, (decimal_digit h.minor).2.2]
    exact hunpack
  have hmethod : q.method = r.method := congrArg HttpParser.method hq
  rw [hdump]
  refine ⟨_, _, hfirst.trans hrest, ?_, ?_, ?_, ?_, rfl⟩
  · have htype : q'.type = .request := congrArg HttpParser.type hq'
    have hflags : q'.flags = f := congrArg HttpParser.flags hq'
    exact newMessage_request htype (by rw [hflags, hclose]; rfl) (by rw [hflags, hkeep]; rfl)
  · exact congrArg HttpParser.httpErrno hq'
  · exact congrArg HttpParser.upgrade hq'
  · have hheaders : ∀ (u : Parse (HttpRequest M)) (body : Bytes),
        (requestCalm M).given body u = { u with data := u.data.appendBody body } := by
      intro u body
      unfold Settings.Calm.given
      split
      case isTrue hempty => rw [hempty, HttpRequest.appendBody, List.append_nil]
      case isFalse => rfl
    rw [hheaders]
    have hread : ∀ h : M, ({ r.addressedBy { headers := h } with
        version := packVersion q, method := q.method, body := [] ++ r.body } : HttpRequest M) =
        { r with close := true, headers := h } := by
      intro h
      rw [hpack, hmethod]
      rfl
    exact hread _

variable (r) in
theorem dump_ne : r.dump ≠ [] := by
  have hcrlf : crlf = [CR, LF] := by decide
  rw [dump_head, head, hcrlf]
  simp

/-- The parser behind a request that was written. -/
theorem Sendable.fed (h : r.Sendable) :
    (HttpRequestParser.feed (.init M) r.dump).parser.httpErrno = none ∧
      (HttpRequestParser.feed (.init M) r.dump).parser.upgrade = false ∧
      (HttpRequestParser.feed (.init M) r.dump).parser.state =
        (if r.close then .dead else .startReq) ∧
      (HttpRequestParser.feed (.init M) r.dump).finished = true ∧
      (HttpRequestParser.feed (.init M) r.dump).data = r.received := by
  obtain ⟨q, v, hrun, hstate, herr, hup, hdata, hfinished⟩ := h.runs
  have hsession := HttpRequestParser.feed_session (.init M) r.dump
  rw [show Http.execute (requestSettings M) (HttpRequestParser.init M).session r.dump =
    ((q, v), r.dump.length) from hrun.execute rfl rfl r.dump_ne] at hsession
  have hparser : (HttpRequestParser.feed (.init M) r.dump).parser = q := congrArg Prod.fst hsession
  have huser : (HttpRequestParser.feed (.init M) r.dump).session.2 = v :=
    congrArg Prod.snd hsession
  rw [hparser, HttpRequestParser.finished, HttpRequestParser.data, huser]
  exact ⟨herr, hup, hstate, hfinished, hdata⟩

/-- **What is read of a request that was written**: all bytes are parsed, without an error, and the
request is finished; a parser behind it reads another if the connection is kept. -/
theorem feed_dump (h : r.Sendable) :
    (HttpRequestParser.execute (.init M) r.dump).2.2 = r.dump.length ∧
      (HttpRequestParser.feed (.init M) r.dump).error = 0 ∧
      (HttpRequestParser.feed (.init M) r.dump).finished = true ∧
      (HttpRequestParser.feed (.init M) r.dump).data = r.received ∧
      (HttpRequestParser.feed (.init M) r.dump).parser.state =
        if r.close then .dead else .startReq := by
  obtain ⟨herr, hup, hstate, hfinished, hdata⟩ := h.fed
  obtain ⟨hparsed, herror⟩ := HttpRequestParser.execute_quiet (HttpRequestParser.ready M) r.dump_ne
    herr hup
  exact ⟨hparsed, herror, hfinished, hdata, hstate⟩

section Examples

/-- A request with a query, a header and a body. -/
def posted : HttpRequest EntryList where
  method := .post
  close := false
  path := bytes "/a"
  query := bytes "x=1"
  body := bytes "hi"
  headers := HeaderMap.assign HeaderMap.empty (bytes "host") (bytes "b")

theorem posted_sendable : posted.Sendable where
  path := ⟨bytes "a", by decide, forall_of_all (by decide)⟩
  query := forall_of_all (by decide)
  fragment := List.forall_mem_nil _
  noHash := by decide
  short := by decide
  method := by decide
  version := by decide
  major := by decide
  minor := by decide
  headers := by
    have hstored : posted.stored = [(bytes "host", bytes "b")] := by decide +kernel
    rw [hstored, List.forall_mem_singleton]
    exact ⟨⟨by decide, forall_of_all (by decide), by decide, by decide⟩,
      forall_of_all (by decide)⟩
  head := by decide +kernel
  body := by decide

theorem feed_dump_posted :
    (HttpRequestParser.execute (.init EntryList) posted.dump).2.2 =
        posted.dump.length ∧
      (HttpRequestParser.feed (.init EntryList) posted.dump).error = 0 ∧
      (HttpRequestParser.feed (.init EntryList) posted.dump).finished = true ∧
      (HttpRequestParser.feed (.init EntryList) posted.dump).data = posted.received ∧
      (HttpRequestParser.feed (.init EntryList) posted.dump).parser.state = .startReq :=
  feed_dump posted_sendable

end Examples

/-! ## One after the other -/

omit [StdMap M] in
/-- No data callback finishes a request, so a buffer that ends does not. -/
theorem flush_finished [HeaderMap M] {c : Ctx (Parse (HttpRequest M))}
    (h : c.user.finished = false) : (flush (requestSettings M) c).user.finished = false := by
  -- the notices have no part in it
  have hkeeps : ({ requestSettings M with onNotify := fun _ _ u => (u, 0) } :
      Settings (Parse (HttpRequest M))).Keeps fun u => u.finished = false := by
    refine ⟨fun m p buf u hu => ?_, fun _ _ _ hu => hu⟩
    cases m
    case url =>
      show (onRequestUrlCb buf u).1.finished = false
      unfold onRequestUrlCb
      split <;> exact hu
    all_goals exact hu
  exact hkeeps.flush h

theorem session_user {σ : Type} (s : Settings σ) (c : Ctx σ) :
    ((Outcome.ran c).session s).2 = (flush s c).user := by
  unfold Outcome.session Outcome.close
  dsimp only
  split <;> rename_i heq <;> rw [heq] <;> rfl

/-- What a call leaves behind where its loop has run to the end. -/
theorem feed_ran {x : Bytes} (hx : x ≠ []) {e : Ctx (Parse (HttpRequest M))}
    (hran : loop (requestSettings M) 0 (Ctx.bare (.init .request) (blank M)) x = .ran e) :
    ∃ err, (HttpRequestParser.feed (.init M) x).parser = { e.parser with httpErrno := err } ∧
      (HttpRequestParser.feed (.init M) x).session.2 = (flush (requestSettings M) e).user := by
  have hcall := execute_eq (s := requestSettings M) (p := .init .request) (blank M) rfl hx
  rw [enter_between rfl, hran, close_ran] at hcall
  have hsession := HttpRequestParser.feed_session (.init M) x
  rw [show Http.execute (requestSettings M) (HttpRequestParser.init M).session x = _ from hcall]
    at hsession
  obtain ⟨err, hparser, -⟩ := session_ran (s := requestSettings M) e
  exact ⟨err, (congrArg Prod.fst hsession).trans hparser,
    (congrArg Prod.snd hsession).trans (session_user ..)⟩

/-- A part of a request that was written is no request. -/
theorem Sendable.part (h : r.Sendable) {x y : Bytes} (heq : r.dump = x ++ y) (hx : x ≠ [])
    (hy : y ≠ []) :
    (HttpRequestParser.feed (.init M) x).parser.upgrade = false ∧
      (HttpRequestParser.feed (.init M) x).finished = false := by
  obtain ⟨q, v, hrun, -⟩ := h.runs
  obtain ⟨e, hran, hinside⟩ := hrun.inside x y heq hy
  obtain ⟨err, hparser, huser⟩ := feed_ran hx hran
  constructor
  · rw [hparser]
    exact hinside.noUpgrade
  · rw [HttpRequestParser.finished, huser]
    exact flush_finished hinside.unfinished

/-- A call that ends behind the head of a request that was written, and within its body. -/
theorem Sendable.behindHead (h : r.Sendable) {x y : Bytes} (heq : r.body = x ++ y) (hy : y ≠ []) :
    (HttpRequestParser.feed (.init M) (r.head ++ x)).parser.state = .bodyIdentity := by
  obtain ⟨i, n, hroom, hfirst⟩ := h.runsLine
  have hin : (Ctx.bare (r.behindLine i) { blank M with
      data := r.addressedBy (blank M).data }).Inside (requestCalm M) := ⟨rfl, rfl⟩
  have hne : r.body ≠ [] := by
    rw [heq]
    exact List.append_ne_nil_of_right_ne_nil x hy
  obtain ⟨q, v, hlen, hrest⟩ := Runs.announced (h.unread i) hin h.headers h.body hroom hne
  have hcrlf : crlf = [CR, LF] := by decide
  have hhead : r.head = r.requestLine ++ crlf ++
      ((headerLines r.close r.stored r.body).flatMap HeaderLine.text ++ [CR, LF]) := by
    rw [HttpRequest.head, hcrlf]
  have hrun := hfirst.trans hrest
  rw [← hhead] at hrun
  have hhead_ne : r.head ++ x ≠ [] := by
    rw [hhead, hcrlf]
    simp
  have hgoes := hrun.goes x
  rcases eq_or_ne x [] with rfl | hx
  · obtain ⟨err, hparser, -⟩ := feed_ran hhead_ne (hgoes.trans rfl)
    rw [hparser]
    rfl
  · have hshort : x.length < q.contentLength := by
      have hpos := List.length_pos_of_ne_nil hy
      rw [hlen, heq, List.length_append]
      omega
    rw [loop_bodyIdentity_short rfl hx hshort] at hgoes
    obtain ⟨err, hparser, -⟩ := feed_ran hhead_ne hgoes
    rw [hparser]
    rfl

/-- A request that was written to keep the connection is one of those that may follow each other. -/
theorem Sendable.keepAlive (h : r.Sendable) (hclose : r.close = false) :
    KeepAliveRequest M r.dump := by
  obtain ⟨herr, hup, hstate, hfinished, -⟩ := h.fed
  rw [if_neg (by rw [hclose]; decide)] at hstate
  constructor
  case finished => exact hfinished
  case noError => exact herr
  case keepAlive => exact hstate
  case noUpgrade =>
    intro x y heq hx
    rcases eq_or_ne y [] with rfl | hy
    · rw [List.append_nil] at heq
      rw [← heq, hup]
    · exact (h.part heq hx hy).1
  case first => exact fun x y heq hx hy => (h.part heq hx hy).2

/-- The reads bring this request, the first of them at least its head. -/
structure Delivered (bufSize : Nat) (reads : List Bytes) (r : HttpRequest M) : Prop where
  flatten : reads.flatten = r.dump
  fits : ∀ x ∈ reads, x ≠ [] ∧ x.length ≤ bufSize
  head : ∀ x ∈ reads.head?, r.head.length ≤ x.length

theorem Delivered.readAs {bufSize : Nat} {reads : List Bytes} (h : r.Sendable)
    (hreads : Delivered bufSize reads r) : ReadAs M bufSize reads r.dump where
  flatten := hreads.flatten
  fits := hreads.fits
  cuts xs ys heq hxs hys := by
    obtain ⟨x, zs, rfl⟩ := List.exists_cons_of_ne_nil hxs
    obtain ⟨y, ws, rfl⟩ := List.exists_cons_of_ne_nil hys
    -- what has been read is the head and some of the body
    have hlen : r.head.length ≤ x.length := hreads.head x (by rw [heq]; rfl)
    have hflat : r.head ++ r.body = (x :: zs).flatten ++ (y :: ws).flatten := by
      rw [← dump_head, ← hreads.flatten, heq, List.flatten_append]
    have hy : y ≠ [] := (hreads.fits y (by rw [heq]; simp)).1
    have hmore : (y :: ws).flatten ≠ [] := List.append_ne_nil_of_left_ne_nil hy _
    obtain ⟨w, hw, hbody⟩ : ∃ w, (x :: zs).flatten = r.head ++ w ∧
        r.body = w ++ (y :: ws).flatten := by
      rcases List.append_eq_append_iff.mp hflat with ⟨w, hw, hbody⟩ | ⟨w, hw, hbody⟩
      · exact ⟨w, hw, hbody⟩
      · have hnil : w = [] := by
          have hle := congrArg List.length hw
          rw [List.length_append, List.flatten_cons, List.length_append] at hle
          exact List.length_eq_zero_iff.mp (by omega)
        subst hnil
        exact ⟨[], by rw [hw]; simp, by rw [hbody]; rfl⟩
    rw [hw, h.behindHead hbody hmore]
    exact ⟨rfl, by decide⟩

/-- **Requests that were written to keep the connection are returned one after the other**, as long
as a read brings bytes of one request only, and the first for a request all of its head. -/
theorem recvRequests_dumps {bufSize : Nat} {requests : List (HttpRequest M)}
    {reads : List (List Bytes)} (h : ∀ r ∈ requests, r.Sendable ∧ r.close = false)
    (hreads : List.Forall₂ (Delivered bufSize) reads requests) (later : List Bytes) :
    recvRequests M bufSize requests.length (reads.flatten ++ later) =
      (requests.map fun r => some r.received.init, later) := by
  have hkeep : ∀ x ∈ requests.map dump, KeepAliveRequest M x := by
    rw [List.forall_mem_map]
    exact fun r hr => (h r hr).1.keepAlive (h r hr).2
  have hread : List.Forall₂ (ReadAs M bufSize) reads (requests.map dump) := by
    refine List.forall₂_map_right_iff.mpr ?_
    clear hkeep
    induction hreads with
    | nil => exact .nil
    | cons hfirst _ ih =>
      rw [List.forall_mem_cons] at h
      exact .cons (hfirst.readAs h.1.1) (ih h.2)
  have hall := recvRequests_eq hkeep hread later
  rw [List.length_map, List.map_map] at hall
  rw [hall]
  refine congrArg (·, later) (List.map_congr_left fun r hr => ?_)
  rw [Function.comp_apply, (h r hr).1.fed.2.2.2.2]

theorem recvRequests_dumps_two :
    recvRequests EntryList 4096 2
        [posted.head ++ bytes "h", bytes "i", posted.head, bytes "hi"] =
      ([some posted.received.init, some posted.received.init], []) := by
  have hfirst : Delivered 4096 [posted.head ++ bytes "h", bytes "i"] posted :=
    ⟨by decide +kernel, by decide +kernel, by decide +kernel⟩
  have hsecond : Delivered 4096 [posted.head, bytes "hi"] posted :=
    ⟨by decide +kernel, by decide +kernel, by decide +kernel⟩
  have hboth : ∀ r ∈ [posted, posted], r.Sendable ∧ r.close = false := by
    rintro r hr
    simp only [List.mem_cons, List.not_mem_nil, or_false, or_self] at hr
    rw [hr]
    exact ⟨posted_sendable, rfl⟩
  exact recvRequests_dumps hboth (.cons hfirst (.cons hsecond .nil)) []

end HttpRequest

end Sylar.Http
