import Sylar.HttpConnection
import Sylar.HttpWire

/-! # Responses in chunks

A status line, headers behind which the parser looks for chunks, the chunks, and trailers.

**`feed_chunked`**: whatever the lines are that announce the chunks (`HttpParser.Announces`),
whatever the pieces are in which the body comes, whatever is said about them in front of them and
whatever trailers are behind them, the body that is read is what they are pieces of.
`announces_chunkedLines` has the lines of any headers that do not frame a message, with
`transfer-encoding: chunked`. -/
namespace Sylar.Http

/-! ## The status line -/

/-- What a status line is written from. -/
structure StatusLine where
  major : UInt8
  minor : UInt8
  code : Bytes
  reason : Bytes
  deriving DecidableEq

namespace StatusLine

def text (l : StatusLine) : Bytes :=
  [chr 'H'] ++ ([chr 'T', chr 'T', chr 'P', chr '/'] ++ ([l.major] ++ ([chr '.'] ++ ([l.minor] ++
    ([chr ' '] ++ (l.code ++ ([chr ' '] ++ (l.reason ++ [CR, LF]))))))))

structure Valid (l : StatusLine) : Prop where
  major : isNum l.major = true
  minor : isNum l.minor = true
  code_ne : l.code ≠ []
  code : ∀ ch ∈ l.code, isNum ch = true
  small : natOfDigits 0 l.code ≤ 999
  reason : ∀ ch ∈ l.reason, ch ≠ CR ∧ ch ≠ LF

end StatusLine

section StatusLine
variable {σ : Type} {s : Settings σ} {F : s.Calm} {p : HttpParser} {u : σ} {n : Nat}

theorem byteStep_startRes {c : Ctx σ} (hst : c.parser.state = .startRes) :
    byteStep s c (chr 'H') = (c.fresh.goto .resH).notify s .messageBegin true .next := by
  unfold byteStep
  dsimp only
  rw [hst]
  exact (if_neg (by decide : ¬ (chr 'H' = CR ∨ chr 'H' = LF))).trans (if_pos rfl)

theorem Runs.startRes (hin : (Ctx.bare p u).Inside F) (hn : n + 1 ≤ maxHeaderSize) :
    Runs F (Ctx.bare (p.atState .startRes n) u) [chr 'H']
      (Ctx.bare (p.freshened.atState .resH (n + 1)) u) := by
  have hin' : (Ctx.bare (p.atState .startRes n) u).Inside F := ⟨hin.unfinished, hin.noUpgrade⟩
  have hbyte : byteStep s ((Ctx.bare (p.atState .startRes n) u).counted 1) (chr 'H') =
      .next (Ctx.bare (p.freshened.atState .resH (n + 1)) u) := by
    rw [byteStep_startRes rfl]
    refine (notify_calm F).trans ?_
    rw [F.messageBegin]
    rfl
  exact Runs.oneByte hin' rfl hn hbyte

theorem spells_resHttp : Spells s .resH [(chr 'T', .resHT), (chr 'T', .resHTT),
    (chr 'P', .resHTTP), (chr '/', .resHttpMajor)] := by
  refine ⟨rfl, fun c hc => ?_, rfl, fun c hc => ?_, rfl, fun c hc => ?_, rfl, fun c hc => ?_,
    trivial⟩
  all_goals
    unfold byteStep
    dsimp only
    rw [hc]
    rfl

theorem spells_resDot : Spells s .resHttpDot [(chr '.', .resHttpMinor)] := by
  refine ⟨rfl, fun c hc => ?_, trivial⟩
  unfold byteStep
  dsimp only
  rw [hc]
  rfl

theorem spells_resBlank : Spells s .resHttpEnd [(chr ' ', .resFirstStatusCode)] := by
  refine ⟨rfl, fun c hc => ?_, trivial⟩
  unfold byteStep
  dsimp only
  rw [hc]
  rfl

theorem spells_codeEnd : Spells s .resStatusCode [(chr ' ', .resStatusStart)] := by
  refine ⟨rfl, fun c hc => ?_, trivial⟩
  unfold byteStep
  dsimp only
  rw [hc]
  exact (if_neg (by decide : ¬ isNum (chr ' ') = true)).trans (if_pos rfl)

theorem spells_resLineEnd : Spells s .resLineAlmostDone [(LF, .headerFieldStart)] := by
  refine ⟨rfl, fun c hc => ?_, trivial⟩
  unfold byteStep
  dsimp only
  rw [hc]
  rfl

/-- The rest of a status code. -/
theorem Runs.codeDigits {digits : Bytes} (hin : (Ctx.bare p u).Inside F)
    (h : ∀ ch ∈ digits, isNum ch = true) (hsmall : natOfDigits p.statusCode digits ≤ 999)
    (hn : n + digits.length ≤ maxHeaderSize) :
    Runs F (Ctx.bare (p.atState .resStatusCode n) u) digits
      (Ctx.bare ({ p with statusCode := natOfDigits p.statusCode digits }.atState .resStatusCode
        (n + digits.length)) u) := by
  induction digits generalizing p n with
  | nil => exact .refl _
  | cons ch digits ih =>
    rw [List.forall_mem_cons] at h
    rw [List.length_cons] at hn ⊢
    rw [natOfDigits_cons] at hsmall ⊢
    have hle := le_natOfDigits (p.statusCode * 10 + digit ch) digits
    have hbyte : byteStep s ((Ctx.bare (p.atState .resStatusCode n) u).counted 1) ch =
        .next (Ctx.bare ({ p with statusCode := p.statusCode * 10 + digit ch }.atState
          .resStatusCode (n + 1)) u) :=
      (if_pos h.1).trans (if_neg (by show ¬ 999 < p.statusCode * 10 + digit ch; omega))
    have hin' : (Ctx.bare (p.atState .resStatusCode n) u).Inside F :=
      ⟨hin.unfinished, hin.noUpgrade⟩
    have hfirst := Runs.oneByte hin' rfl (by show n + 1 ≤ _; omega) hbyte
    have hrest := ih (p := { p with statusCode := p.statusCode * 10 + digit ch }) (n := n + 1)
      ⟨hin.unfinished, hin.noUpgrade⟩ h.2 hsmall (by omega)
    rw [show n + 1 + digits.length = n + (digits.length + 1) by omega] at hrest
    exact hfirst.trans hrest

/-- The rest of a reason phrase. -/
theorem Runs.reasonChars {reason x : Bytes} (hin : (Ctx.bare p u).Inside F)
    (h : ∀ ch ∈ reason, ch ≠ CR ∧ ch ≠ LF) (hn : n + reason.length ≤ maxHeaderSize) :
    Runs F (Ctx.spanning .status x (p.atState .resStatus n) u) reason
      (Ctx.spanning .status (x ++ reason) (p.atState .resStatus (n + reason.length)) u) := by
  induction reason generalizing x n with
  | nil =>
    rw [List.append_nil]
    exact .refl _
  | cons ch reason ih =>
    rw [List.forall_mem_cons] at h
    rw [List.length_cons] at hn ⊢
    have hbyte : byteStep s ((Ctx.spanning .status x (p.atState .resStatus n) u).counted 1) ch =
        .next (Ctx.spanning .status x (p.atState .resStatus (n + 1)) u) :=
      (if_neg h.1.1).trans (if_neg h.1.2)
    have hin' : (Ctx.spanning .status x (p.atState .resStatus n) u).Inside F :=
      ⟨hin.unfinished, hin.noUpgrade⟩
    have hfirst := Runs.oneByte hin' rfl (by show n + 1 ≤ _; omega) hbyte
    rw [Ctx.advance_spanning] at hfirst
    have hrest := ih (n := n + 1) (x := x ++ [ch]) h.2 (by omega)
    rw [List.append_assoc, List.singleton_append,
      show n + 1 + reason.length = n + (reason.length + 1) by omega] at hrest
    exact hfirst.trans hrest

theorem onResStatus_cr {span : Bytes} :
    onResStatus s (Ctx.spanning .status span (p.atState .resStatus n) u) CR =
      .next (Ctx.bare (p.atState .resLineAlmostDone n) (F.status p.statusCode u)) := by
  refine (if_pos rfl).trans ?_
  have hspan : (Ctx.spanning .status span (p.atState .resStatus n) u).goto .resLineAlmostDone =
      Ctx.spanning .status span (p.atState .resLineAlmostDone n) u := rfl
  rw [hspan]
  exact callback_spanning (F.onStatus ..)

theorem byteStep_statusStart (ch : UInt8) :
    byteStep s (Ctx.bare (p.atState .resStatusStart n) u) ch =
      if ch = CR ∨ ch = LF then
        onResStatus s (Ctx.spanning .status [] ({ p with index := 0 }.atState .resStatus n) u) ch
      else .next (Ctx.spanning .status [] ({ p with index := 0 }.atState .resStatus n) u) :=
  rfl

/-- A reason phrase, empty or not, with the end of its line. -/
theorem Runs.reason {reason : Bytes} (hin : (Ctx.bare p u).Inside F)
    (h : ∀ ch ∈ reason, ch ≠ CR ∧ ch ≠ LF) (hn : n + (reason.length + 1) ≤ maxHeaderSize) :
    Runs F (Ctx.bare (p.atState .resStatusStart n) u) (reason ++ [CR])
      (Ctx.bare ({ p with index := 0 }.atState .resLineAlmostDone (n + (reason.length + 1)))
        (F.status p.statusCode u)) := by
  have hin' : (Ctx.bare (p.atState .resStatusStart n) u).Inside F :=
    ⟨hin.unfinished, hin.noUpgrade⟩
  cases reason with
  | nil =>
    have hbyte : byteStep s ((Ctx.bare (p.atState .resStatusStart n) u).counted 1) CR =
        .next (Ctx.bare ({ p with index := 0 }.atState .resLineAlmostDone (n + 1))
          (F.status p.statusCode u)) := by
      refine (byteStep_statusStart (p := p) (n := n + 1) CR).trans ?_
      rw [if_pos (.inl rfl)]
      exact onResStatus_cr (p := { p with index := 0 })
    exact Runs.oneByte hin' rfl hn hbyte
  | cons ch reason =>
    rw [List.forall_mem_cons] at h
    rw [List.length_cons] at hn ⊢
    have hline : ¬ (ch = CR ∨ ch = LF) := not_or.mpr h.1
    have hbyte : byteStep s ((Ctx.bare (p.atState .resStatusStart n) u).counted 1) ch =
        .next (Ctx.spanning .status [] ({ p with index := 0 }.atState .resStatus (n + 1)) u) :=
      (byteStep_statusStart (p := p) (n := n + 1) ch).trans (if_neg hline)
    have hfirst := Runs.oneByte hin' rfl (by show n + 1 ≤ _; omega) hbyte
    rw [Ctx.advance_spanning] at hfirst
    have hmore := Runs.reasonChars (F := F) (u := u) (p := { p with index := 0 }) (n := n + 1)
      (x := [ch]) ⟨hin.unfinished, hin.noUpgrade⟩ h.2 (by omega)
    have hin'' : (Ctx.spanning .status ([ch] ++ reason) ({ p with index := 0 }.atState .resStatus
        (n + 1 + reason.length)) u).Inside F := ⟨hin.unfinished, hin.noUpgrade⟩
    have hcr : byteStep s ((Ctx.spanning .status ([ch] ++ reason) ({ p with index := 0 }.atState
        .resStatus (n + 1 + reason.length)) u).counted 1) CR =
        .next (Ctx.bare ({ p with index := 0 }.atState .resLineAlmostDone
          (n + 1 + reason.length + 1)) (F.status p.statusCode u)) :=
      onResStatus_cr (p := { p with index := 0 })
    have hlast := Runs.oneByte hin'' rfl (by show n + 1 + reason.length + 1 ≤ _; omega) hcr
    rw [show n + 1 + reason.length + 1 = n + (reason.length + 1 + 1) by omega] at hlast
    exact hfirst.trans (hmore.trans hlast)

/-- **A status line.** -/
theorem Runs.statusLine {l : StatusLine} (hin : (Ctx.bare p u).Inside F) (hl : l.Valid)
    (hn : n + l.text.length ≤ maxHeaderSize) :
    Runs F (Ctx.bare (p.atState .startRes n) u) l.text
      (Ctx.bare ({ p.freshened with
        httpMajor := digit l.major, httpMinor := digit l.minor, index := 0
        statusCode := natOfDigits 0 l.code }.atState .headerFieldStart (n + l.text.length))
        (F.status (natOfDigits 0 l.code) u)) := by
  obtain ⟨c, digits, hcode⟩ := List.exists_cons_of_ne_nil hl.code_ne
  have hdigits := hl.code
  have hsmall := hl.small
  rw [hcode, List.forall_mem_cons] at hdigits
  rw [hcode, natOfDigits_cons, Nat.zero_mul, Nat.zero_add] at hsmall
  have hnumber : natOfDigits 0 l.code = natOfDigits (digit c) digits := by
    rw [hcode, natOfDigits_cons, Nat.zero_mul, Nat.zero_add]
  have hlen : l.text.length = 11 + digits.length + (l.reason.length + 1) + 1 := by
    simp only [StatusLine.text, hcode, List.length_append, List.length_cons, List.length_nil]
    omega
  rw [hlen] at hn ⊢
  have hfirst := Runs.startRes (n := n) hin (by omega)
  have hhttp := Runs.spells (F := F) (u := u) (p := p.freshened) (n := n + 1) spells_resHttp
    ⟨hin.unfinished, hin.noUpgrade⟩ (by simp only [List.length_cons, List.length_nil]; omega)
  have hin1 : (Ctx.bare (p.freshened.atState .resHttpMajor (n + 5)) u).Inside F :=
    ⟨hin.unfinished, hin.noUpgrade⟩
  have hbyte1 : byteStep s ((Ctx.bare (p.freshened.atState .resHttpMajor (n + 5)) u).counted 1)
      l.major = .next (Ctx.bare
        ({ p.freshened with httpMajor := digit l.major }.atState .resHttpDot (n + 6)) u) :=
    if_pos hl.major
  have hmajor := Runs.oneByte hin1 rfl (by show n + 5 + 1 ≤ _; omega) hbyte1
  have hdot := Runs.spells (F := F) (u := u) (n := n + 6)
    (p := { p.freshened with httpMajor := digit l.major }) spells_resDot
    ⟨hin.unfinished, hin.noUpgrade⟩ (by simp only [List.length_cons, List.length_nil]; omega)
  have hin2 : (Ctx.bare ({ p.freshened with httpMajor := digit l.major }.atState .resHttpMinor
      (n + 7)) u).Inside F := ⟨hin.unfinished, hin.noUpgrade⟩
  have hbyte2 : byteStep s ((Ctx.bare ({ p.freshened with
      httpMajor := digit l.major }.atState .resHttpMinor (n + 7)) u).counted 1) l.minor =
      .next (Ctx.bare ({ p.freshened with
        httpMajor := digit l.major, httpMinor := digit l.minor }.atState .resHttpEnd (n + 8)) u) :=
    if_pos hl.minor
  have hminor := Runs.oneByte hin2 rfl (by show n + 7 + 1 ≤ _; omega) hbyte2
  have hblank := Runs.spells (F := F) (u := u) (n := n + 8)
    (p := { p.freshened with httpMajor := digit l.major, httpMinor := digit l.minor })
    spells_resBlank ⟨hin.unfinished, hin.noUpgrade⟩
    (by simp only [List.length_cons, List.length_nil]; omega)
  have hin3 : (Ctx.bare ({ p.freshened with
      httpMajor := digit l.major, httpMinor := digit l.minor }.atState .resFirstStatusCode
        (n + 9)) u).Inside F := ⟨hin.unfinished, hin.noUpgrade⟩
  have hbyte3 : byteStep s ((Ctx.bare ({ p.freshened with
      httpMajor := digit l.major, httpMinor := digit l.minor }.atState .resFirstStatusCode
        (n + 9)) u).counted 1) c =
      .next (Ctx.bare ({ p.freshened with
        httpMajor := digit l.major, httpMinor := digit l.minor
        statusCode := digit c }.atState .resStatusCode (n + 10)) u) :=
    if_pos hdigits.1
  have hcodeFirst := Runs.oneByte hin3 rfl (by show n + 9 + 1 ≤ _; omega) hbyte3
  have hcodeRest := Runs.codeDigits (F := F) (u := u) (n := n + 10)
    (p := { p.freshened with
      httpMajor := digit l.major, httpMinor := digit l.minor, statusCode := digit c })
    ⟨hin.unfinished, hin.noUpgrade⟩ hdigits.2 hsmall (by omega)
  rw [← hnumber] at hcodeRest
  have hcodeEnd := Runs.spells (F := F) (u := u) (n := n + 10 + digits.length)
    (p := { p.freshened with
      httpMajor := digit l.major, httpMinor := digit l.minor
      statusCode := natOfDigits 0 l.code })
    spells_codeEnd ⟨hin.unfinished, hin.noUpgrade⟩
    (by simp only [List.length_cons, List.length_nil]; omega)
  have hreason := Runs.reason (F := F) (u := u) (n := n + 10 + digits.length + 1)
    (p := { p.freshened with
      httpMajor := digit l.major, httpMinor := digit l.minor
      statusCode := natOfDigits 0 l.code })
    ⟨hin.unfinished, hin.noUpgrade⟩ hl.reason (by omega)
  have hend := Runs.spells (F := F) (u := F.status (natOfDigits 0 l.code) u)
    (n := n + 10 + digits.length + 1 + (l.reason.length + 1))
    (p := { p.freshened with
      httpMajor := digit l.major, httpMinor := digit l.minor, index := 0
      statusCode := natOfDigits 0 l.code })
    spells_resLineEnd ⟨(F.finished_status ..).trans hin.unfinished, hin.noUpgrade⟩
    (by simp only [List.length_cons, List.length_nil]; omega)
  have hcount : n + (11 + digits.length + (l.reason.length + 1) + 1) =
      n + 10 + digits.length + 1 + (l.reason.length + 1) + 1 := by omega
  have htext : l.text = [chr 'H'] ++ ([chr 'T', chr 'T', chr 'P', chr '/'] ++ ([l.major] ++
      ([chr '.'] ++ ([l.minor] ++ ([chr ' '] ++ ([c] ++ (digits ++ ([chr ' '] ++
        ((l.reason ++ [CR]) ++ [LF]))))))))) := by
    rw [StatusLine.text, hcode]
    simp
  rw [hcount, htext]
  exact hfirst.trans (hhttp.trans (hmajor.trans (hdot.trans (hminor.trans (hblank.trans
    (hcodeFirst.trans (hcodeRest.trans (hcodeEnd.trans (hreason.trans hend)))))))))

end StatusLine

/-! ## Chunks behind headers -/

/-- The parser reads these lines, and behind them a body in chunks and nothing else. -/
structure HttpParser.Announces (p : HttpParser) (lines : List HeaderLine) (q : HttpParser) :
    Prop where
  valid : ∀ l ∈ lines, l.Valid
  read : p.headers lines = some q
  chunked : q.flags.chunked = true
  settled : q.Settled

section Chunked
variable {σ : Type} {s : Settings σ} {F : s.Calm} {p : HttpParser} {u : σ} {n : Nat}
  {lines trailers : List HeaderLine} {chunks : List Chunk} {last : Chunk}

/-- What is behind a first line: headers, the chunks, and trailers. -/
def chunkedRest (lines : List HeaderLine) (chunks : List Chunk) (last : Chunk)
    (trailers : List HeaderLine) : Bytes :=
  lines.flatMap HeaderLine.text ++ ([CR, LF] ++ chunkedText chunks last trailers)

/-- The parts are as they are written, behind a first line that led to `p`. -/
structure ChunkedRest (p : HttpParser) (lines : List HeaderLine) (chunks : List Chunk)
    (last : Chunk) (trailers : List HeaderLine) : Prop where
  /-- The lines announce chunks, and the parser reads the trailers. -/
  announced : ∃ q t, p.Announces lines q ∧ q.inTrailers.headers trailers = some t
  pieces : ∀ c ∈ chunks, c.Valid ∧ c.data ≠ []
  lastValid : last.Valid
  lastEmpty : last.data = []
  trailersValid : ∀ l ∈ trailers, l.Valid
  trailersFit : (trailers.flatMap HeaderLine.text).length + 2 ≤ maxHeaderSize

theorem Runs.chunkedRest (h : ChunkedRest p lines chunks last trailers)
    (herr : p.httpErrno = none) (hin : (Ctx.bare p u).Inside F)
    (hn : n + (lines.flatMap HeaderLine.text).length + 2 ≤ maxHeaderSize) :
    ∃ q q' : HttpParser, ∃ m : Nat, p.SameMessage q ∧ q'.httpErrno = none ∧
      Runs F (Ctx.bare (p.atState .headerFieldStart n) u)
        (Http.chunkedRest lines chunks last trailers)
        (Ctx.bare (q'.atState q'.newMessage m) (F.notice .messageComplete
          (q'.atState q'.newMessage m) (trailers.foldl F.line
            (chunks.foldl F.chunk (F.headed q (lines.foldl F.line u)))))) := by
  obtain ⟨q, t, hq, ht⟩ := h.announced
  have hsame := HttpParser.headers_message hq.read
  obtain ⟨d, hlines, hd⟩ := Runs.lines (Ctx.AtLine.first hin n) hq.valid hq.read (by omega)
  have hempty := Runs.toChunks hd
    ⟨hq.settled.trailing, hq.settled.skipbody, hq.settled.noUpgrade, hq.settled.oneLength⟩ hn
    hq.chunked
  have hin' : (Ctx.bare (q.atState .headerFieldStart
      (n + (lines.flatMap HeaderLine.text).length)) (F.headed (q.atState .headerFieldStart
        (n + (lines.flatMap HeaderLine.text).length)) (lines.foldl F.line u))).Inside F :=
    ⟨(F.finished_notice _ _ _ (by decide)).trans hd.inside'.unfinished, hd.inside'.noUpgrade⟩
  -- the trailers are read where the lines ended
  have htrailers := q.inTrailers.headers_at (n + (lines.flatMap HeaderLine.text).length) trailers
  rw [ht] at htrailers
  have hkept := HttpParser.headers_message ht
  have hqerr : q.httpErrno = none := hsame.httpErrno.trans herr
  have hbody := Runs.chunks hin' hqerr h.pieces h.lastValid h.lastEmpty h.trailersValid htrailers
    hkept.trailing h.trailersFit
  refine ⟨_, _, _, ?_, ?_, hlines.trans (hempty.trans hbody)⟩
  · exact ⟨hsame.httpMajor, hsame.httpMinor, hsame.statusCode, hsame.httpErrno, hsame.trailing⟩
  · exact hkept.httpErrno.trans hqerr

end Chunked

/-! ### Headers that do not frame a message -/

/-- The line that announces chunks. -/
def chunkedLine : HeaderLine where
  name := bytes "transfer-encoding"
  blanks := [chr ' ']
  value := bytes "chunked"

/-- The lines of some headers, and of that one. -/
def chunkedLines (stored : List (Bytes × Bytes)) : List HeaderLine :=
  stored.map entryLine ++ [chunkedLine]

theorem chunkedLines_valid {stored : List (Bytes × Bytes)} (h : ∀ e ∈ stored, Readable e) :
    ∀ l ∈ chunkedLines stored, l.Valid := by
  rw [chunkedLines, List.forall_mem_append, List.forall_mem_map, List.forall_mem_singleton]
  refine ⟨fun e he => (h e he).valid, by decide, forall_of_all (by decide),
    List.forall_mem_singleton.mpr (by decide), ?_⟩
  rintro ch ⟨⟩
  decide

/-- The parser behind headers that announce chunks. -/
def HttpParser.toldChunks (p : HttpParser) : HttpParser :=
  { p with flags := { p.flags with chunked := true }, usesTransferEncoding := true }

theorem headers_toldChunks (p : HttpParser) {stored : List (Bytes × Bytes)}
    (h : ∀ e ∈ stored, Readable e)
    (hshort : ((chunkedLines stored).flatMap HeaderLine.text).length ≤ maxHeaderSize) :
    ∃ q, p.headers (chunkedLines stored) = some q ∧ q.core = p.toldChunks.core := by
  rw [chunkedLines, List.flatMap_append, List.length_append] at hshort
  obtain ⟨r, hr, hrcore⟩ := p.headers_ordinary (entryLines_ordinary h (by omega))
  obtain ⟨q, hq, hqcore⟩ := r.header_chunked
  refine ⟨q, ?_, hqcore.trans (congrArg HttpParser.toldChunks hrcore)⟩
  rw [chunkedLines, HttpParser.headers_append, hr, Option.bind_some, HttpParser.headers,
    show r.header chunkedLine.name chunkedLine.value = some q from hq]
  rfl

theorem HttpParser.Unread.toldChunks {p q : HttpParser} (hp : p.Unread)
    (hq : q.core = p.toldChunks.core) : q.Settled ∧ q.flags.chunked = true := by
  have hkeptFlags := congrArg HttpParser.flags hq
  have hkeptMethod := congrArg HttpParser.method hq
  have hflags : q.flags = { p.flags with chunked := true } := hkeptFlags
  have hmethod : q.method = p.method := hkeptMethod
  rw [hp.flags] at hflags
  refine ⟨⟨by rw [hflags], by rw [hflags], ?_, ?_⟩, by rw [hflags]⟩
  · have hconnect : (q.method == .connect) = false := by
      rw [hmethod]
      exact beq_eq_false_iff_ne.mpr hp.noConnect
    unfold asksUpgrade
    rw [hflags, if_neg fun h => Bool.false_ne_true h.1, hconnect]
  · unfold refusesLength
    rw [hflags, Bool.and_false, Bool.false_and]

/-- The lines of headers that do not frame a message, with the one that announces chunks,
announce chunks. -/
theorem announces_chunkedLines {p : HttpParser} {stored : List (Bytes × Bytes)} (hp : p.Unread)
    (h : ∀ e ∈ stored, Readable e)
    (hshort : ((chunkedLines stored).flatMap HeaderLine.text).length ≤ maxHeaderSize) :
    ∃ q, p.Announces (chunkedLines stored) q := by
  obtain ⟨q, hq, hcore⟩ := headers_toldChunks p h hshort
  obtain ⟨hsettled, hchunked⟩ := hp.toldChunks hcore
  exact ⟨q, chunkedLines_valid h, hq, hchunked, hsettled⟩

/-! ## The response -/

/-- The callbacks for a response are calm. -/
def responseCalm (M : Type) [HeaderMap M] : (responseSettings M).Calm where
  toFragments := responseFragments M
  field x u := { u with field := x }
  value x u := { u with data := u.data.setHeader u.field x }
  notice n p u := ((responseSettings M).onNotify n p u).1
  finished u := u.finished
  onField _ _ _ := rfl
  onValue _ _ _ := rfl
  onNotice n _ _ := by cases n <;> rfl
  finished_body _ _ := rfl
  finished_status _ _ := rfl
  finished_field _ _ := rfl
  finished_value _ _ := rfl
  finished_notice n _ _ h := by
    cases n
    case messageComplete => exact absurd rfl h
    all_goals rfl
  messageBegin _ _ := rfl
  chunkHeader _ _ := rfl
  chunkComplete _ _ := rfl

namespace HttpResponse
variable {M : Type} [HeaderMap M]

/-- The callbacks set the headers of the lines. -/
theorem foldl_line (lines : List HeaderLine) (u : Parse (HttpResponse M)) :
    ∃ x, lines.foldl (responseCalm M).line u =
      { u with
        field := x
        data := { u.data with
          headers := lines.foldl (fun m line => HeaderMap.assign m line.name line.value)
            u.data.headers } } := by
  induction lines generalizing u with
  | nil => exact ⟨u.field, rfl⟩
  | cons l lines ih => exact ih ((responseCalm M).line u l)

/-- The callbacks gather the chunks. -/
theorem foldl_chunk (chunks : List Chunk) (u : Parse (HttpResponse M)) :
    chunks.foldl (responseCalm M).chunk u =
      { u with data := { u.data with body := u.data.body ++ chunks.flatMap Chunk.data } } := by
  induction chunks generalizing u with
  | nil => rw [List.flatMap_nil, List.append_nil]; rfl
  | cons c chunks ih =>
    rw [List.foldl_cons, ih, List.flatMap_cons, ← List.append_assoc]
    rfl

/-- The response that is read. -/
def ofChunks (M : Type) [HeaderMap M] (l : StatusLine) (lines : List HeaderLine)
    (chunks : List Chunk) (trailers : List HeaderLine) : HttpResponse M where
  status := natOfDigits 0 l.code
  version := (digit l.major <<< 4 ||| digit l.minor) % 2 ^ 8
  body := chunks.flatMap Chunk.data
  headers := (lines ++ trailers).foldl (fun m line => HeaderMap.assign m line.name line.value)
    HeaderMap.empty

variable {l : StatusLine} {lines trailers : List HeaderLine} {chunks : List Chunk} {last : Chunk}

/-- Behind the status line of a response. -/
def behindLine (l : StatusLine) : HttpParser :=
  { (HttpParser.init .response).freshened with
    httpMajor := digit l.major
    httpMinor := digit l.minor
    index := 0
    statusCode := natOfDigits 0 l.code }

theorem behindLine_unread (l : StatusLine) : (behindLine l).Unread :=
  ⟨rfl, rfl, rfl, rfl, by show Method.delete ≠ .connect; decide⟩

/-- The parser over such a response. -/
theorem runs_chunked (hl : l.Valid) (h : ChunkedRest (behindLine l) lines chunks last trailers)
    (hn : l.text.length + (lines.flatMap HeaderLine.text).length + 2 ≤ maxHeaderSize) :
    ∃ q v, Runs (responseCalm M) (Ctx.bare (HttpParser.init .response)
        { data := { headers := HeaderMap.empty } })
        (l.text ++ chunkedRest lines chunks last trailers) (Ctx.bare q v) ∧
      q.httpErrno = none ∧ v.finished = true ∧ v.data = ofChunks M l lines chunks trailers := by
  have hstart : (Ctx.bare (HttpParser.init .response)
      ({ data := { headers := HeaderMap.empty } } : Parse (HttpResponse M))).Inside
        (responseCalm M) := ⟨rfl, rfl⟩
  have hfirst := Runs.statusLine (n := 0) hstart hl (by omega)
  rw [Nat.zero_add] at hfirst
  have hin : (Ctx.bare (behindLine l) ((responseCalm M).status (natOfDigits 0 l.code)
      { data := { headers := HeaderMap.empty } })).Inside (responseCalm M) := ⟨rfl, rfl⟩
  obtain ⟨q, q', m, hq, herr, hrest⟩ := Runs.chunkedRest h rfl hin hn
  have hpack : packVersion q = (digit l.major <<< 4 ||| digit l.minor) % 2 ^ 8 := by
    rw [packVersion, hq.httpMajor, hq.httpMinor]
    rfl
  have hstatus : q.statusCode = natOfDigits 0 l.code := hq.statusCode
  obtain ⟨x, hfold⟩ := foldl_line lines ((responseCalm M).status
    (natOfDigits 0 l.code) { data := { headers := HeaderMap.empty } })
  obtain ⟨y, htrail⟩ := foldl_line (M := M) trailers (chunks.foldl
    (responseCalm M).chunk ((responseCalm M).headed q (lines.foldl
      (responseCalm M).line ((responseCalm M).status (natOfDigits 0 l.code)
        { data := { headers := HeaderMap.empty } }))))
  rw [foldl_chunk, hfold] at htrail
  refine ⟨_, _, hfirst.trans hrest, herr, rfl, ?_⟩
  rw [foldl_chunk, hfold, htrail]
  have hread : ∀ m : M, ({
      status := q.statusCode, version := packVersion q, body := [] ++ chunks.flatMap Chunk.data
      headers := m } : HttpResponse M) =
      { ofChunks M l lines chunks trailers with headers := m } := by
    intro m
    rw [hpack, hstatus]
    rfl
  rw [ofChunks, List.foldl_append]
  exact hread _

/-- **What is read of a response in chunks**: all bytes are parsed, without an error, and the
response is finished; its body is what the chunks are pieces of. -/
theorem feed_chunked (hl : l.Valid) (h : ChunkedRest (behindLine l) lines chunks last trailers)
    (hn : l.text.length + (lines.flatMap HeaderLine.text).length + 2 ≤ maxHeaderSize) :
    (HttpResponseParser.execute (.init M)
        (l.text ++ chunkedRest lines chunks last trailers)).2.2 =
        (l.text ++ chunkedRest lines chunks last trailers).length ∧
      (HttpResponseParser.feed (.init M)
        (l.text ++ chunkedRest lines chunks last trailers)).error = 0 ∧
      (HttpResponseParser.feed (.init M)
        (l.text ++ chunkedRest lines chunks last trailers)).isFinished = true ∧
      (HttpResponseParser.feed (.init M)
        (l.text ++ chunkedRest lines chunks last trailers)).getData =
          ofChunks M l lines chunks trailers := by
  obtain ⟨q, v, hrun, herr, hfinished, hdata⟩ := runs_chunked (M := M) hl h hn
  have hne : l.text ++ chunkedRest lines chunks last trailers ≠ [] :=
    List.append_ne_nil_of_left_ne_nil (by simp [StatusLine.text]) _
  have hcall : Http.execute (responseSettings M) (HttpResponseParser.init M).session
      (l.text ++ chunkedRest lines chunks last trailers) =
      ((q, v), (l.text ++ chunkedRest lines chunks last trailers).length) :=
    hrun.execute rfl rfl hne
  have hquiet : HttpResponseParser.settle ⟨(q, v), 0⟩ = ⟨(q, v), 0⟩ :=
    HttpResponseParser.settle_quiet _ herr
  have hfeed : HttpResponseParser.feed (.init M)
      (l.text ++ chunkedRest lines chunks last trailers) =
      HttpResponseParser.settle ⟨(Http.execute (responseSettings M)
        (HttpResponseParser.init M).session
          (l.text ++ chunkedRest lines chunks last trailers)).1, 0⟩ := rfl
  rw [hcall, hquiet] at hfeed
  rw [hfeed]
  exact ⟨congrArg Prod.snd hcall, rfl, hfinished, hdata⟩

end HttpResponse

section Examples

/-- The lines of a response whose last header asks for the connection to be kept. -/
def helloLines : List HeaderLine :=
  [⟨bytes "Server", [chr ' '], bytes "s"⟩, ⟨bytes "Transfer-Encoding", [chr ' '], bytes "chunked"⟩,
    ⟨bytes "Connection", [chr ' '], bytes "keep-alive"⟩]

theorem helloLines_announced :
    ∃ q t, (HttpResponse.behindLine ⟨chr '1', chr '1', bytes "200", bytes "OK"⟩).Announces
      helloLines q ∧ q.inTrailers.headers [⟨bytes "Age", [], bytes "1"⟩] = some t := by
  have hread : ((HttpResponse.behindLine ⟨chr '1', chr '1', bytes "200", bytes "OK"⟩).headers
      helloLines).any (fun q => q.flags.chunked && !q.flags.trailing && !q.flags.skipbody &&
        !asksUpgrade q && !refusesLength q &&
        (q.inTrailers.headers [⟨bytes "Age", [], bytes "1"⟩]).isSome) = true := by decide +kernel
  obtain ⟨q, hq, hflags⟩ := (Option.any_eq_true _ _).mp hread
  simp only [Bool.and_eq_true, Bool.not_eq_true'] at hflags
  obtain ⟨⟨⟨⟨⟨hchunked, htrailing⟩, hskip⟩, hup⟩, hlen⟩, htrailers⟩ := hflags
  obtain ⟨t, ht⟩ := Option.isSome_iff_exists.mp htrailers
  refine ⟨q, t, ⟨?_, hq, hchunked, ⟨htrailing, hskip, hup, hlen⟩⟩, ht⟩
  rw [helloLines, List.forall_mem_cons, List.forall_mem_cons, List.forall_mem_singleton]
  refine ⟨⟨by decide, forall_of_all (by decide), List.forall_mem_singleton.mpr (by decide), ?_⟩,
    ⟨by decide, forall_of_all (by decide), List.forall_mem_singleton.mpr (by decide), ?_⟩,
    ⟨by decide, forall_of_all (by decide), List.forall_mem_singleton.mpr (by decide), ?_⟩⟩
  all_goals
    rintro ch ⟨⟩
    decide

/-- A body of five bytes in two chunks, with a parameter and a trailer. -/
theorem feed_chunked_hello :
    (HttpResponseParser.feed (.init (List (Bytes × Bytes)))
      (StatusLine.text ⟨chr '1', chr '1', bytes "200", bytes "OK"⟩ ++
        chunkedRest helloLines
          [⟨bytes "3", [chr ';', chr 'x'], bytes "hel"⟩, ⟨bytes "02", [], bytes "lo"⟩]
          ⟨bytes "0", [], []⟩ [⟨bytes "Age", [], bytes "1"⟩])).getData.body = bytes "hello" := by
  have hpieces : ∀ c ∈ [(⟨bytes "3", [chr ';', chr 'x'], bytes "hel"⟩ : Chunk),
      ⟨bytes "02", [], bytes "lo"⟩], c.Valid ∧ c.data ≠ [] := by
    rw [List.forall_mem_cons, List.forall_mem_singleton]
    refine ⟨⟨⟨by decide, forall_of_all (by decide), by decide, by decide, ?_, by decide, by decide⟩,
      by decide⟩, ⟨by decide, forall_of_all (by decide), by decide, by decide, ?_, by decide,
        by decide⟩, by decide⟩
    · rintro ch ⟨⟩
      exact .inl rfl
    · rintro ch ⟨⟩
  have hlast : Chunk.Valid ⟨bytes "0", [], []⟩ := by
    refine ⟨by decide, forall_of_all (by decide), by decide, by decide, ?_, by decide, by decide⟩
    rintro ch ⟨⟩
  have htrailers : ∀ l ∈ [(⟨bytes "Age", [], bytes "1"⟩ : HeaderLine)], l.Valid := by
    refine List.forall_mem_singleton.mpr ⟨by decide, forall_of_all (by decide), nofun, ?_⟩
    rintro ch ⟨⟩
    decide
  have hline : StatusLine.Valid ⟨chr '1', chr '1', bytes "200", bytes "OK"⟩ :=
    ⟨by decide, by decide, by decide, forall_of_all (by decide), by decide,
      forall_of_all (by decide)⟩
  have hread := (HttpResponse.feed_chunked (M := List (Bytes × Bytes)) hline
    ⟨helloLines_announced, hpieces, hlast, rfl, htrailers, by decide⟩ (by decide)).2.2.2
  rw [hread]
  decide

end Examples

end Sylar.Http
