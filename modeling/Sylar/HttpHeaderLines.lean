import Sylar.HttpRuns

/-! # Header lines on the wire

A line of the headers hands its name and its value to the callbacks, and it changes the parser
(`HttpParser.header`).  Where a line begins the parser may be in one of three states, as the
line before is closed by the byte that follows it (`Ctx.AtLine`).

**`Runs.lines`**: over the lines of the headers the parser goes from the beginning of one to
the beginning of the next, and the callbacks get the names and the values in order. -/
namespace Sylar.Http

/-! ## What a line makes of the parser -/

namespace HttpParser

/-- The parser behind the first byte of a name. -/
def nameStart (p : HttpParser) (ch : UInt8) : HttpParser :=
  { p with
    index := 0
    headerState :=
      if token ch = chr 'c' then .C
      else if token ch = chr 'p' then .matchingProxyConnection
      else if token ch = chr 't' then .matchingTransferEncoding
      else if token ch = chr 'u' then .matchingUpgrade
      else .general }

/-- The parser behind a name. -/
def readName (p : HttpParser) : Bytes → HttpParser
  | [] => p
  | ch :: name => name.foldl fieldChar (p.nameStart ch)

/-- The parser behind the first byte of a value. -/
def valueStart (p : HttpParser) (ch : UInt8) : Option HttpParser :=
  match onHeaderValueStart ({ parser := p, user := (), marks := fun _ => none } : Ctx Unit) ch with
  | .next c => some c.parser
  | .fail .. | .exit .. => none

/-- The parser behind a value and the end of its line; `none` for an error, and for a value that
ends earlier. -/
def readValue (p : HttpParser) : Bytes → Option HttpParser
  | [] => if p.headerState = .contentLength then none else some p
  | ch :: value =>
    match p.valueStart ch with
    | none => none
    | some p =>
      match p.valueLoop p.headerState none (value ++ [CR]) with
      | (q, hs, n, .cr) => if n = value.length then some { q with headerState := hs } else none
      | _ => none

/-- The parser behind a line of the headers, without its count. -/
def header (p : HttpParser) (name value : Bytes) : Option HttpParser :=
  ((p.readName name).readValue value).map fun q =>
    { q with flags := headerDoneFlags q }.atState .headerFieldStart p.nread

theorem readName_at (p : HttpParser) (st : State) (n : Nat) (name : Bytes) :
    (p.atState st n).readName name = (p.readName name).atState st n := by
  cases name with
  | nil => rfl
  | cons ch name => exact foldl_fieldChar_at (p.nameStart ch) st n name

theorem readName_upgrade (p : HttpParser) (name : Bytes) :
    (p.readName name).upgrade = p.upgrade := by
  cases name with
  | nil => rfl
  | cons ch name => exact (foldl_fieldChar_same (p.nameStart ch) name).upgrade

theorem valueStart_at (p : HttpParser) (st : State) (n : Nat) (ch : UInt8) :
    (p.atState st n).valueStart ch = (p.valueStart ch).map (·.atState .headerValue n) := by
  obtain ⟨type, flags, state, headerState⟩ := p
  unfold valueStart onHeaderValueStart
  cases headerState
  all_goals try rfl
  case contentLength =>
    dsimp only [atState, Ctx.goto, Ctx.mark]
    split_ifs <;> rfl

theorem valueStart_upgrade {p q : HttpParser} {ch : UInt8} (h : p.valueStart ch = some q) :
    q.upgrade = p.upgrade := by
  obtain ⟨type, flags, state, headerState⟩ := p
  unfold valueStart onHeaderValueStart at h
  cases headerState
  all_goals try (cases h; rfl)
  case contentLength =>
    dsimp only [Ctx.goto, Ctx.mark] at h
    split_ifs at h
    obtain rfl := Option.some.inj h
    rfl

/-- The first byte of a value, which sets the mark. -/
theorem onHeaderValueStart_bare {σ : Type} {p q : HttpParser} (u : σ) {ch : UInt8}
    (h : p.valueStart ch = some q) :
    onHeaderValueStart (Ctx.bare p u) ch = .next (Ctx.spanning .headerValue [] q u) := by
  have hmark : (Ctx.bare p u).mark .headerValue = Ctx.spanning .headerValue [] p u := by
    refine Ctx.ext_marks rfl rfl fun m => ?_
    rfl
  obtain ⟨type, flags, state, headerState⟩ := p
  unfold valueStart onHeaderValueStart at h
  unfold onHeaderValueStart
  rw [hmark]
  cases headerState
  all_goals try (cases h; rfl)
  case contentLength =>
    dsimp only [Ctx.goto, Ctx.mark] at h
    by_cases hnum : isNum ch = true
    · by_cases hlen : flags.contentlength = true
      · rw [if_neg (not_not.mpr hnum), if_pos hlen] at h
        cases h
      · rw [if_neg (not_not.mpr hnum), if_neg hlen] at h
        obtain rfl := Option.some.inj h
        exact (if_neg (not_not.mpr hnum)).trans (if_neg hlen)
    · rw [if_pos hnum] at h
      cases h

/-- What it takes for the value to end where its line does. -/
theorem readValue_cons {p q : HttpParser} {ch : UInt8} {value : Bytes}
    (h : p.readValue (ch :: value) = some q) :
    ∃ r q' hs, p.valueStart ch = some r ∧ q = { q' with headerState := hs } ∧
      ∀ rest, r.valueLoop r.headerState none (value ++ CR :: rest) =
        (q', hs, value.length, .cr) := by
  cases hstart : p.valueStart ch with
  | none => simp [readValue, hstart] at h
  | some r =>
    rcases hloop : r.valueLoop r.headerState none (value ++ [CR]) with ⟨q', hs, k, stop⟩
    simp only [readValue, hstart, hloop] at h
    cases stop with
    | ran | lf | bad e => cases h
    | cr =>
      dsimp only at h
      by_cases hk : k = value.length
      · rw [if_pos hk] at h
        subst hk
        refine ⟨r, q', hs, rfl, (Option.some.inj h).symm, fun rest => ?_⟩
        have happend := (valueLoop_append hloop (by decide) rest).2
        rwa [List.append_assoc] at happend
      · rw [if_neg hk] at h
        cases h

theorem header_at (p : HttpParser) (st : State) (n : Nat) (name value : Bytes) :
    (p.atState st n).header name value =
      (p.header name value).map (·.atState .headerFieldStart n) := by
  rw [header, header, readName_at]
  cases value with
  | nil =>
    rw [readValue, readValue]
    have hsame : ((p.readName name).atState st n).headerState = (p.readName name).headerState := rfl
    rw [hsame]
    split <;> rfl
  | cons ch value =>
    rw [readValue, readValue, valueStart_at]
    cases (p.readName name).valueStart ch with
    | none => rfl
    | some r =>
      have hsame : (r.atState .headerValue n).headerState = r.headerState := rfl
      rw [Option.map_some]
      dsimp only
      rw [hsame, valueLoop_at]
      rcases r.valueLoop r.headerState none (value ++ [CR]) with ⟨q, hs, k, stop⟩
      cases stop with
      | ran | lf | bad e => rfl
      | cr =>
        dsimp only
        split <;> rfl

theorem readName_message (p : HttpParser) (name : Bytes) : p.SameMessage (p.readName name) := by
  cases name with
  | nil => exact .refl p
  | cons ch name =>
    have h := foldl_fieldChar_same (p.nameStart ch) name
    exact ⟨h.httpMajor, h.httpMinor, h.statusCode, h.httpErrno, h.trailing⟩

theorem valueStart_message {p q : HttpParser} {ch : UInt8} (h : p.valueStart ch = some q) :
    p.SameMessage q := by
  obtain ⟨type, flags, state, headerState⟩ := p
  unfold valueStart onHeaderValueStart at h
  cases headerState
  all_goals try (cases h; exact ⟨rfl, rfl, rfl, rfl, rfl⟩)
  case contentLength =>
    dsimp only [Ctx.goto, Ctx.mark] at h
    split_ifs at h
    obtain rfl := Option.some.inj h
    exact ⟨rfl, rfl, rfl, rfl, rfl⟩

theorem readValue_message {p q : HttpParser} {value : Bytes} (h : p.readValue value = some q) :
    p.SameMessage q := by
  cases value with
  | nil =>
    rw [readValue] at h
    split at h
    · cases h
    · obtain rfl := Option.some.inj h
      exact .refl p
  | cons ch value =>
    obtain ⟨r, q', hs, hstart, rfl, hloop⟩ := readValue_cons h
    have hsame := r.valueLoop_same r.headerState none (value ++ [CR])
    rw [hloop []] at hsame
    have hrest : r.SameMessage { q' with headerState := hs } :=
      ⟨hsame.httpMajor, hsame.httpMinor, hsame.statusCode, hsame.httpErrno, hsame.trailing⟩
    exact (valueStart_message hstart).trans hrest

theorem headerDoneFlags_trailing (p : HttpParser) :
    (headerDoneFlags p).trailing = p.flags.trailing := by
  unfold headerDoneFlags
  split <;> rfl

/-- A line leaves the message as it is. -/
theorem header_message {p q : HttpParser} {name value : Bytes}
    (h : p.header name value = some q) : p.SameMessage q := by
  obtain ⟨r, hr, rfl⟩ := Option.map_eq_some_iff.mp h
  have hread := (p.readName_message name).trans (readValue_message hr)
  exact ⟨hread.httpMajor, hread.httpMinor, hread.statusCode, hread.httpErrno,
    r.headerDoneFlags_trailing.trans hread.trailing⟩

end HttpParser

/-! ## Where a line begins -/

section Lines
variable {σ : Type} {s : Settings σ} {F : s.Calm}

variable (F) in
/-- The next byte, which is no blank, begins a line of the headers or ends them; the parser is
then `p`, and the user `u`. -/
structure Ctx.AtLine (c : Ctx σ) (p : HttpParser) (u : σ) : Prop where
  oneByte : c.parser.state.oneByte = true
  nread : c.parser.nread = p.nread
  inside : c.Inside F
  inside' : (Ctx.bare p u).Inside F
  next : ∀ ch, ch ≠ chr ' ' → ch ≠ chr '\t' → byteStep s (c.counted 1) ch =
    onHeaderFieldStart s (Ctx.bare (p.atState .headerFieldStart (p.nread + 1)) u) ch

/-- Behind the first line of a message. -/
theorem Ctx.AtLine.first {p : HttpParser} {u : σ} (hin : (Ctx.bare p u).Inside F) (n : Nat) :
    (Ctx.bare (p.atState .headerFieldStart n) u).AtLine F (p.atState .headerFieldStart n) u where
  oneByte := rfl
  nread := rfl
  inside := ⟨hin.unfinished, hin.noUpgrade⟩
  inside' := ⟨hin.unfinished, hin.noUpgrade⟩
  next _ _ _ := rfl

/-- Behind a value. -/
theorem Ctx.AtLine.behind {p : HttpParser} {u : σ} (hin : (Ctx.bare p u).Inside F) (n : Nat) :
    (Ctx.bare (p.atState .headerValueLws n) u).AtLine F
      ({ p with flags := headerDoneFlags p }.atState .headerFieldStart n) u where
  oneByte := rfl
  nread := rfl
  inside := ⟨hin.unfinished, hin.noUpgrade⟩
  inside' := ⟨hin.unfinished, hin.noUpgrade⟩
  next _ hspace htab := if_neg (not_or.mpr ⟨hspace, htab⟩)

/-- Behind an empty value, which is handed over with the next byte. -/
theorem Ctx.AtLine.behindEmpty {p : HttpParser} {u : σ} (hin : (Ctx.bare p u).Inside F)
    (h : p.headerState ≠ .contentLength) (n : Nat) :
    (Ctx.bare (p.atState .headerValueDiscardLws n) u).AtLine F
      ({ p with flags := headerDoneFlags p }.atState .headerFieldStart n) (F.value [] u) where
  oneByte := rfl
  nread := rfl
  inside := ⟨hin.unfinished, hin.noUpgrade⟩
  inside' := ⟨(F.finished_value [] u).trans hin.unfinished, hin.noUpgrade⟩
  next ch hspace htab := by
    refine (if_neg (not_or.mpr ⟨hspace, htab⟩)).trans ((if_neg h).trans ?_)
    exact callback_spanning (F.onValue ..)

/-- The first byte of a name. -/
theorem Runs.nameStart {c : Ctx σ} {p : HttpParser} {u : σ} (hc : c.AtLine F p u)
    (hn : p.nread + 1 ≤ maxHeaderSize) {ch : UInt8} (hch : token ch ≠ 0) :
    Runs F c [ch] (Ctx.spanning .headerField [ch]
      ((p.nameStart ch).atState .headerField (p.nread + 1)) u) := by
  have hne : ∀ x : UInt8, token x = 0 → ch ≠ x := by
    rintro x hx rfl
    exact hch hx
  have hbyte : byteStep s (c.counted 1) ch = .next (Ctx.spanning .headerField []
      ((p.nameStart ch).atState .headerField (p.nread + 1)) u) := by
    rw [hc.next ch (hne _ (by decide)) (hne _ (by decide)), onHeaderFieldStart,
      if_neg (hne _ (by decide)), if_neg (hne _ (by decide)), if_neg hch]
    rfl
  have hrun := Runs.oneByte hc.inside hc.oneByte (by rw [hc.nread]; exact hn) hbyte
  rwa [Ctx.advance_spanning] at hrun

/-- A blank in front of a value. -/
def isBlank (ch : UInt8) : Bool := ch == chr ' ' || ch == chr '\t'

theorem spells_blanks {blanks : Bytes} (h : ∀ ch ∈ blanks, isBlank ch = true) :
    Spells s .headerValueDiscardWs (blanks.map fun ch => (ch, .headerValueDiscardWs)) := by
  induction blanks with
  | nil => trivial
  | cons ch blanks ih =>
    rw [List.forall_mem_cons] at h
    refine ⟨rfl, fun c hc => ?_, ih h.2⟩
    have hblank : ch = chr ' ' ∨ ch = chr '\t' := by simpa [isBlank] using h.1
    simp only [byteStep, hc]
    rw [if_pos hblank]
    exact congrArg Flow.next (Ctx.ext_marks (by rw [Ctx.goto, ← hc]) rfl fun _ => rfl)

theorem landing_blanks (blanks : Bytes) :
    landing .headerValueDiscardWs (blanks.map fun ch => (ch, .headerValueDiscardWs)) =
      .headerValueDiscardWs := by
  rcases List.eq_nil_or_concat blanks with rfl | ⟨bs, b, rfl⟩
  · rfl
  · simp [landing]

/-- A name with the colon and the blanks behind it. -/
theorem Runs.nameOf {c : Ctx σ} {p : HttpParser} {u : σ} (hc : c.AtLine F p u)
    {name blanks : Bytes} (hne : name ≠ []) (hname : ∀ ch ∈ name, token ch ≠ 0)
    (hblanks : ∀ ch ∈ blanks, isBlank ch = true)
    (hn : p.nread + (name.length + 1 + blanks.length) ≤ maxHeaderSize) :
    Runs F c (name ++ [chr ':'] ++ blanks)
      (Ctx.bare ((p.readName name).atState .headerValueDiscardWs
        (p.nread + (name.length + 1 + blanks.length))) (F.field name u)) := by
  obtain ⟨ch, name, rfl⟩ := List.exists_cons_of_ne_nil hne
  rw [List.forall_mem_cons] at hname
  rw [List.length_cons] at hn ⊢
  have hin : (Ctx.bare (p.readName (ch :: name)) (F.field (ch :: name) u)).Inside F :=
    ⟨(F.finished_field ..).trans hc.inside'.unfinished,
      (p.readName_upgrade (ch :: name)).trans hc.inside'.noUpgrade⟩
  have hfirst := Runs.nameStart hc (by omega) hname.1
  have hrest : Runs F (Ctx.spanning .headerField [ch]
      ((p.nameStart ch).atState .headerField (p.nread + 1)) u) (name ++ [chr ':'])
      (Ctx.bare ((p.readName (ch :: name)).atState .headerValueDiscardWs
        (p.nread + 1 + (name.length + 1))) (F.field (ch :: name) u)) :=
    Runs.name (p := p.nameStart ch) (n := p.nread + 1) hname.2
      ⟨hc.inside'.unfinished, hc.inside'.noUpgrade⟩
      (by omega)
  have hws := Runs.spells (p := p.readName (ch :: name)) (n := p.nread + 1 + (name.length + 1))
    (spells_blanks hblanks) hin (by rw [List.length_map]; omega)
  have hmap : (blanks.map fun ch => (ch, State.headerValueDiscardWs)).map Prod.fst = blanks := by
    simp [Function.comp_def]
  have hsum : p.nread + 1 + (name.length + 1) + blanks.length =
      p.nread + (name.length + 1 + 1 + blanks.length) := by omega
  rw [landing_blanks, List.length_map, hmap, hsum] at hws
  exact (hfirst.trans hrest).trans hws

theorem spells_emptyValue : Spells s .headerValueDiscardWs
    [(CR, .headerValueDiscardWsAlmostDone), (LF, .headerValueDiscardLws)] := by
  refine ⟨rfl, fun c hc => ?_, rfl, fun c hc => ?_, trivial⟩
  · simp [byteStep, hc, CR, chr]
  · simp [byteStep, hc, Ctx.expect]

theorem spells_valueEnd : Spells s .headerAlmostDone [(LF, .headerValueLws)] := by
  refine ⟨rfl, fun c hc => ?_, trivial⟩
  simp [byteStep, hc, onHeaderAlmostDone, Ctx.expect]

/-- A value with the end of its line. -/
theorem Runs.valueOf {p q : HttpParser} {u : σ} {n : Nat} {value : Bytes}
    (hin : (Ctx.bare p u).Inside F)
    (hfirst : ∀ ch ∈ value.head?, isBlank ch = false ∧ ch ≠ CR ∧ ch ≠ LF)
    (hq : p.readValue value = some q) (hn : n + (value.length + 2) ≤ maxHeaderSize) :
    ∃ d, Runs F (Ctx.bare (p.atState .headerValueDiscardWs n) u) (value ++ [CR, LF]) d ∧
      d.AtLine F ({ q with flags := headerDoneFlags q }.atState .headerFieldStart
        (n + (value.length + 2))) (F.value value u) := by
  cases value with
  | nil =>
    by_cases hlen : p.headerState = .contentLength
    · rw [HttpParser.readValue, if_pos hlen] at hq
      cases hq
    · rw [HttpParser.readValue, if_neg hlen] at hq
      obtain rfl := Option.some.inj hq
      exact ⟨_, Runs.spells spells_emptyValue hin hn, Ctx.AtLine.behindEmpty hin hlen _⟩
  | cons ch value =>
    obtain ⟨hblank, hcr, hlf⟩ := hfirst ch rfl
    rw [List.length_cons] at hn ⊢
    obtain ⟨r, q', hs, hstart, rfl, hloop⟩ := HttpParser.readValue_cons hq
    have hup : r.upgrade = false := (HttpParser.valueStart_upgrade hstart).trans hin.noUpgrade
    have hbyte : byteStep s ((Ctx.bare (p.atState .headerValueDiscardWs n) u).counted 1) ch =
        .next (Ctx.spanning .headerValue [] (r.atState .headerValue (n + 1)) u) := by
      have hnot : ¬ (ch = chr ' ' ∨ ch = chr '\t') := by simpa [isBlank] using hblank
      refine (if_neg hnot).trans ((if_neg hcr).trans ((if_neg hlf).trans ?_))
      exact HttpParser.onHeaderValueStart_bare u
        ((p.valueStart_at .headerValueDiscardWs (n + 1) ch).trans (by rw [hstart]; rfl))
    have hin' : (Ctx.bare (p.atState .headerValueDiscardWs n) u).Inside F :=
      ⟨hin.unfinished, hin.noUpgrade⟩
    have hopen := Runs.oneByte hin' rfl (by show n + 1 ≤ _; omega) hbyte
    rw [Ctx.advance_spanning] at hopen
    have hrest : Runs F (Ctx.spanning .headerValue [ch] (r.atState .headerValue (n + 1)) u)
        (value ++ [CR]) _ := Runs.value hloop ⟨hin.unfinished, hup⟩ (by omega)
    have hin'' : (Ctx.bare { q' with headerState := hs } (F.value (ch :: value) u)).Inside F := by
      have hsame := r.valueLoop_same r.headerState none (value ++ [CR])
      rw [hloop []] at hsame
      exact ⟨(F.finished_value ..).trans hin.unfinished, hsame.upgrade.trans hup⟩
    have hend := Runs.spells (n := n + 1 + (value.length + 1)) spells_valueEnd hin''
      (by rw [List.length_singleton]; omega)
    have hsum : n + 1 + (value.length + 1) + 1 = n + (value.length + 1 + 2) := by omega
    rw [List.length_singleton, hsum] at hend
    have htext : ch :: value ++ [CR, LF] = [ch] ++ (value ++ [CR]) ++ [LF] := by simp
    rw [htext]
    exact ⟨_, (hopen.trans hrest).trans hend, Ctx.AtLine.behind hin'' _⟩

/-- A line of the headers. -/
structure HeaderLine where
  name : Bytes
  blanks : Bytes := []
  value : Bytes
  deriving DecidableEq

namespace HeaderLine

def text (l : HeaderLine) : Bytes := l.name ++ [chr ':'] ++ l.blanks ++ (l.value ++ [CR, LF])

/-- The line is read as it was meant: the name is a token, and the value begins where the blanks
end. -/
structure Valid (l : HeaderLine) : Prop where
  name_ne : l.name ≠ []
  name : ∀ ch ∈ l.name, token ch ≠ 0
  blanks : ∀ ch ∈ l.blanks, isBlank ch = true
  value : ∀ ch ∈ l.value.head?, isBlank ch = false ∧ ch ≠ CR ∧ ch ≠ LF

end HeaderLine

/-- The user behind a line. -/
def Settings.Calm.line (F : s.Calm) (u : σ) (l : HeaderLine) : σ :=
  F.value l.value (F.field l.name u)

/-- The parser behind lines. -/
def HttpParser.headers (p : HttpParser) : List HeaderLine → Option HttpParser
  | [] => some p
  | l :: lines => (p.header l.name l.value).bind (·.headers lines)

theorem HttpParser.headers_at (p : HttpParser) (n : Nat) (lines : List HeaderLine) :
    (p.atState .headerFieldStart n).headers lines =
      (p.headers lines).map (·.atState .headerFieldStart n) := by
  induction lines generalizing p with
  | nil => rfl
  | cons l lines ih =>
    rw [headers, headers, header_at]
    cases p.header l.name l.value with
    | none => rfl
    | some q => exact ih q

/-- Lines leave the message as it is. -/
theorem HttpParser.headers_message {p q : HttpParser} {lines : List HeaderLine}
    (h : p.headers lines = some q) : p.SameMessage q := by
  induction lines generalizing p with
  | nil =>
    obtain rfl := Option.some.inj h
    exact .refl p
  | cons l lines ih =>
    obtain ⟨r, hr, hrest⟩ := Option.bind_eq_some_iff.mp h
    exact (header_message hr).trans (ih hrest)

theorem Runs.line {c : Ctx σ} {p q : HttpParser} {u : σ} {l : HeaderLine} (hc : c.AtLine F p u)
    (hl : l.Valid) (hq : p.header l.name l.value = some q)
    (hn : p.nread + l.text.length ≤ maxHeaderSize) :
    ∃ d, Runs F c l.text d ∧
      d.AtLine F (q.atState .headerFieldStart (p.nread + l.text.length)) (F.line u l) := by
  have hlen : l.text.length = l.name.length + 1 + l.blanks.length + (l.value.length + 2) := by
    simp only [HeaderLine.text, List.length_append, List.length_cons, List.length_nil]
  rw [hlen, ← Nat.add_assoc] at hn ⊢
  obtain ⟨r, hr, rfl⟩ := Option.map_eq_some_iff.mp hq
  have hname := Runs.nameOf hc hl.name_ne hl.name hl.blanks (by omega)
  obtain ⟨d, hvalue, hd⟩ := Runs.valueOf (F := F) (u := F.field l.name u)
    ⟨(F.finished_field ..).trans hc.inside'.unfinished,
      (p.readName_upgrade l.name).trans hc.inside'.noUpgrade⟩ hl.value hr hn
  exact ⟨d, hname.trans hvalue, hd⟩

/-- **Over the lines of the headers** the callbacks get their names and their values. -/
theorem Runs.lines {c : Ctx σ} {p q : HttpParser} {u : σ} {n : Nat} {lines : List HeaderLine}
    (hc : c.AtLine F (p.atState .headerFieldStart n) u) (hl : ∀ l ∈ lines, l.Valid)
    (hq : p.headers lines = some q)
    (hn : n + (lines.flatMap HeaderLine.text).length ≤ maxHeaderSize) :
    ∃ d, Runs F c (lines.flatMap HeaderLine.text) d ∧
      d.AtLine F (q.atState .headerFieldStart (n + (lines.flatMap HeaderLine.text).length))
        (lines.foldl F.line u) := by
  induction lines generalizing c p u n with
  | nil =>
    obtain rfl := Option.some.inj hq
    exact ⟨c, .refl c, hc⟩
  | cons l lines ih =>
    rw [List.forall_mem_cons] at hl
    rw [List.flatMap_cons, List.length_append, ← Nat.add_assoc] at hn ⊢
    obtain ⟨r, hr, hrest⟩ := Option.bind_eq_some_iff.mp hq
    obtain ⟨e, hfirst, he⟩ := Runs.line hc hl.1
      ((p.header_at .headerFieldStart n l.name l.value).trans (by rw [hr]; rfl))
      (by show n + l.text.length ≤ _; omega)
    obtain ⟨d, hlines, hd⟩ := ih (p := r) he hl.2 hrest hn
    exact ⟨d, hfirst.trans hlines, hd⟩

end Lines

end Sylar.Http
