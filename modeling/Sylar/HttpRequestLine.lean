import Sylar.HttpBodies
import Sylar.UrlText

/-! # The request line

A method of the table, a target that begins with a slash, and a version: over such a line the
parser of requests goes to where the headers begin (`Runs.requestLine`), and what it has handed
over is the path, the query and the fragment of the target. -/
namespace Sylar.Http

/-! ## Methods -/

/-- What `s_req_method` makes of a letter: the method it takes it for, and the next index. -/
def methodNext (r : Method × Nat) (ch : UInt8) : Option (Method × Nat) :=
  if ch = r.1.string.getD r.2 0 then some (r.1, (r.2 + 1) % 2 ^ 5)
  else (methodAt r.1 r.2 ch).map fun m => (m, (r.2 + 1) % 2 ^ 5)

/-- The letters of methods. -/
def isMethodChar (ch : UInt8) : Bool := (chr 'A' ≤ ch && ch ≤ chr 'Z') || ch == chr '-'

/-- The first letter of a method leads to one that the other letters lead on from. -/
theorem method_letters (m : Method) : m.string ≠ [] ∧ isAlpha (m.string.headD 0) = true ∧
    m.string.tail.all isMethodChar = true ∧
    ((methodOfInitial (m.string.headD 0)).bind fun g => m.string.tail.foldlM methodNext (g, 1)) =
      some (m, m.string.length) := by
  cases m <;> decide

section RequestLine
variable {σ : Type} {s : Settings σ} {F : s.Calm}

theorem Runs.methodLetters {p : HttpParser} {u : σ} {n : Nat} {letters : Bytes} {m : Method}
    {i : Nat} (hin : (Ctx.bare p u).Inside F) (h : ∀ ch ∈ letters, isMethodChar ch = true)
    (hfold : letters.foldlM methodNext (p.method, p.index) = some (m, i))
    (hn : n + letters.length ≤ maxHeaderSize) :
    Runs F (Ctx.bare (p.atState .reqMethod n) u) letters
      (Ctx.bare ({ p with method := m, index := i }.atState .reqMethod (n + letters.length))
        u) := by
  induction letters generalizing p n with
  | nil =>
    rw [List.foldlM_nil, Option.pure_def, Option.some.injEq, Prod.mk.injEq] at hfold
    obtain ⟨rfl, rfl⟩ := hfold
    exact .refl _
  | cons ch letters ih =>
    rw [List.forall_mem_cons] at h
    rw [List.length_cons] at hn ⊢
    rw [List.foldlM_cons] at hfold
    obtain ⟨⟨m', i'⟩, hnext, hrest⟩ := Option.bind_eq_some_iff.mp hfold
    have hbyte : byteStep s ((Ctx.bare (p.atState .reqMethod n) u).counted 1) ch =
        .next (Ctx.bare ({ p with method := m', index := i' }.atState .reqMethod (n + 1)) u) := by
      have hzero : ch ≠ 0 := by
        rintro rfl
        exact absurd h.1 (by decide)
      have hspace : ch ≠ chr ' ' := by
        rintro rfl
        exact absurd h.1 (by decide)
      have hletter : (chr 'A' ≤ ch ∧ ch ≤ chr 'Z') ∨ ch = chr '-' := by
        simpa [isMethodChar] using h.1
      show onReqMethod _ ch = _
      rw [methodNext] at hnext
      by_cases hmatch : ch = p.method.string.getD p.index 0
      · rw [if_pos hmatch] at hnext
        cases hnext
        exact (if_neg hzero).trans ((if_neg fun heq => hspace heq.1).trans (if_pos hmatch))
      · rw [if_neg hmatch] at hnext
        obtain ⟨m'', hat, heq⟩ := Option.map_eq_some_iff.mp hnext
        cases heq
        refine (if_neg hzero).trans ((if_neg fun heq => hspace heq.1).trans
          ((if_neg hmatch).trans ((if_pos hletter).trans ?_)))
        rw [show methodAt ((Ctx.bare (p.atState .reqMethod n) u).counted 1).parser.method
          ((Ctx.bare (p.atState .reqMethod n) u).counted 1).parser.index ch = some m' from hat]
        rfl
    have hin' : (Ctx.bare (p.atState .reqMethod n) u).Inside F := ⟨hin.unfinished, hin.noUpgrade⟩
    have hfirst := Runs.oneByte hin' rfl (by show n + 1 ≤ _; omega) hbyte
    have hmore := ih (p := { p with method := m', index := i' }) (n := n + 1)
      ⟨hin.unfinished, hin.noUpgrade⟩ h.2 hrest (by omega)
    rw [show n + 1 + letters.length = n + (letters.length + 1) by omega] at hmore
    exact hfirst.trans hmore

/-- What the parser is reset to where a message begins. -/
def HttpParser.freshened (p : HttpParser) : HttpParser :=
  { p with flags := {}, usesTransferEncoding := false, contentLength := ullongMax }

theorem onReqMethod_blank (c : Ctx σ) (h : c.parser.method.string.getD c.parser.index 0 = 0) :
    onReqMethod c (chr ' ') = .next { c with parser := { c.parser with
      state := .reqSpacesBeforeUrl, index := (c.parser.index + 1) % 2 ^ 5 } } := by
  have hzero : chr ' ' ≠ 0 := by decide
  unfold onReqMethod
  dsimp only
  rw [if_neg hzero, if_pos ⟨rfl, h⟩]

/-- The blank behind a method. -/
theorem Runs.methodEnd {p : HttpParser} {u : σ} {n : Nat} (hin : (Ctx.bare p u).Inside F)
    (hend : p.method.string.getD p.index 0 = 0) (hn : n + 1 ≤ maxHeaderSize) :
    Runs F (Ctx.bare (p.atState .reqMethod n) u) [chr ' ']
      (Ctx.bare ({ p with index := (p.index + 1) % 2 ^ 5 }.atState .reqSpacesBeforeUrl (n + 1))
        u) := by
  have hbyte : byteStep s ((Ctx.bare (p.atState .reqMethod n) u).counted 1) (chr ' ') =
      .next (Ctx.bare
        ({ p with index := (p.index + 1) % 2 ^ 5 }.atState .reqSpacesBeforeUrl (n + 1)) u) := by
    exact onReqMethod_blank ((Ctx.bare (p.atState .reqMethod n) u).counted 1) hend
  have hin' : (Ctx.bare (p.atState .reqMethod n) u).Inside F := ⟨hin.unfinished, hin.noUpgrade⟩
  exact Runs.oneByte hin' rfl hn hbyte

/-- The method, with the blank behind it. -/
theorem Runs.method {p : HttpParser} {u : σ} {n : Nat} (hin : (Ctx.bare p u).Inside F) (m : Method)
    (hn : n + (m.string.length + 1) ≤ maxHeaderSize) :
    ∃ i, Runs F (Ctx.bare (p.atState .startReq n) u) (m.string ++ [chr ' '])
      (Ctx.bare ({ p.freshened with method := m, index := i }.atState .reqSpacesBeforeUrl
        (n + (m.string.length + 1))) u) := by
  obtain ⟨hne, halpha, hletters, hfold⟩ := method_letters m
  obtain ⟨c, letters, hm⟩ := List.exists_cons_of_ne_nil hne
  have hhead : m.string.headD 0 = c := by rw [hm]; rfl
  have htail : m.string.tail = letters := by rw [hm]; rfl
  have hlen : m.string.length = letters.length + 1 := by rw [hm, List.length_cons]
  rw [hhead, htail] at hfold
  rw [hhead] at halpha
  rw [htail, List.all_eq_true] at hletters
  obtain ⟨g, hg, hrest⟩ := Option.bind_eq_some_iff.mp hfold
  have hin' : (Ctx.bare (p.atState .startReq n) u).Inside F := ⟨hin.unfinished, hin.noUpgrade⟩
  have hbyte : byteStep s ((Ctx.bare (p.atState .startReq n) u).counted 1) c =
      .next (Ctx.bare ({ p.freshened with method := g, index := 1 }.atState .reqMethod (n + 1))
        u) := by
    have hline : ¬ (c = CR ∨ c = LF) := by
      rintro (rfl | rfl) <;> exact absurd halpha (by decide)
    show onStartReq s _ c = _
    rw [onStartReq, if_neg hline]
    refine (if_neg (not_not.mpr halpha)).trans ?_
    rw [hg]
    refine (notify_calm F).trans ?_
    rw [F.messageBegin]
    rfl
  have hfirst := Runs.oneByte hin' rfl (by show n + 1 ≤ _; omega) hbyte
  have hmore := Runs.methodLetters (F := F) (u := u) (n := n + 1)
    (p := { p.freshened with method := g, index := 1 }) ⟨hin.unfinished, hin.noUpgrade⟩ hletters
    hrest (by omega)
  have hlast := Runs.methodEnd (F := F) (u := u) (n := n + 1 + letters.length)
    (p := { p.freshened with method := m, index := m.string.length })
    ⟨hin.unfinished, hin.noUpgrade⟩ (by simp) (by omega)
  have hcount : n + (m.string.length + 1) = n + 1 + letters.length + 1 := by omega
  refine ⟨(m.string.length + 1) % 2 ^ 5, ?_⟩
  rw [hcount, hm, ← List.singleton_append, List.append_assoc]
  rw [hm] at hmore hlast
  exact hfirst.trans (hmore.trans hlast)

/-! ## Targets -/

/-- The states of a target behind its first slash. -/
def State.inTarget : State → Bool
  | .reqPath | .reqQueryStringStart | .reqQueryString | .reqFragmentStart | .reqFragment => true
  | _ => false

theorem parseUrlChar_inTarget {st : State} (h : st.inTarget = true) (ch : UInt8) :
    parseUrlChar st ch = .dead ∨ (parseUrlChar st ch).inTarget = true := by
  cases st
  case reqPath =>
    rw [reqPath_char]
    split_ifs <;> simp [State.inTarget]
  case reqQueryStringStart =>
    rw [reqQueryStringStart_char, reqQueryString_char]
    split_ifs <;> simp [State.inTarget]
  case reqQueryString =>
    rw [reqQueryString_char]
    split_ifs <;> simp [State.inTarget]
  case reqFragmentStart =>
    rw [reqFragmentStart_char]
    split_ifs <;> simp [State.inTarget]
  case reqFragment =>
    rw [reqFragment_char]
    split_ifs <;> simp [State.inTarget]
  all_goals cases h

theorem inTarget_oneByte {st : State} (h : st.inTarget = true) : st.oneByte = true := by
  cases st
  case reqPath | reqQueryStringStart | reqQueryString | reqFragmentStart | reqFragment => rfl
  all_goals cases h

theorem byteStep_inTarget {c : Ctx σ} (h : c.parser.state.inTarget = true) (ch : UInt8) :
    byteStep s c ch = onUrl s c ch := by
  unfold byteStep
  dsimp only
  cases hst : c.parser.state
  all_goals first
    | rfl
    | (rw [hst] at h; cases h)

theorem parseUrlChar_blank (st : State) {ch : UInt8} (h : ch = chr ' ' ∨ ch = CR ∨ ch = LF) :
    parseUrlChar st ch = .dead := by
  rcases h with rfl | rfl | rfl <;> exact if_pos (by decide)

/-- Some bytes of a target. -/
theorem Runs.target {p : HttpParser} {u : σ} {n : Nat} {st : State} {x text : Bytes}
    (hst : st.inTarget = true) (hin : (Ctx.bare p u).Inside F) (h : Lives st text)
    (hn : n + text.length ≤ maxHeaderSize) :
    Runs F (Ctx.spanning .url x (p.atState st n) u) text
        (Ctx.spanning .url (x ++ text)
          (p.atState (text.foldl parseUrlChar st) (n + text.length)) u) ∧
      (text.foldl parseUrlChar st).inTarget = true := by
  induction text generalizing st x n with
  | nil =>
    rw [List.append_nil]
    exact ⟨.refl _, hst⟩
  | cons ch text ih =>
    rw [List.length_cons] at hn ⊢
    have hlive : parseUrlChar st ch ≠ .dead := by
      intro hdead
      rw [Lives, List.foldl_cons, hdead] at h
      exact not_lives_dead text h
    have hst' := (parseUrlChar_inTarget hst ch).resolve_left hlive
    have hblank : ¬ (ch = chr ' ' ∨ ch = CR ∨ ch = LF) := fun h => hlive (parseUrlChar_blank st h)
    have hbyte : byteStep s ((Ctx.spanning .url x (p.atState st n) u).counted 1) ch =
        .next (Ctx.spanning .url x (p.atState (parseUrlChar st ch) (n + 1)) u) := by
      rw [byteStep_inTarget (show (p.atState st n).state.inTarget = true from hst), onUrl,
        if_neg fun heq => hblank (.inl heq), if_neg fun heq => hblank (.inr heq)]
      exact if_neg hlive
    have hin' : (Ctx.spanning .url x (p.atState st n) u).Inside F :=
      ⟨hin.unfinished, hin.noUpgrade⟩
    have hfirst := Runs.oneByte hin' (inTarget_oneByte hst) (by show n + 1 ≤ _; omega) hbyte
    rw [Ctx.advance_spanning] at hfirst
    obtain ⟨hrest, hend⟩ := ih (n := n + 1) (x := x ++ [ch]) hst' h (by omega)
    rw [List.append_assoc, List.singleton_append,
      show n + 1 + text.length = n + (text.length + 1) by omega] at hrest
    exact ⟨hfirst.trans hrest, hend⟩

theorem byteStep_slash {c : Ctx σ} (hst : c.parser.state = .reqSpacesBeforeUrl)
    (hmethod : c.parser.method ≠ .connect) :
    byteStep s c (chr '/') = .next ((c.mark .url).goto .reqPath) := by
  have hpath : parseUrlChar .reqSpacesBeforeUrl (chr '/') = .reqPath := by decide
  have hstate : (c.mark .url).parser.state = .reqSpacesBeforeUrl := hst
  unfold byteStep
  dsimp only
  rw [hst]
  dsimp only
  rw [if_neg (by decide), if_neg hmethod, onUrlChar, hstate, hpath]
  exact if_neg (by show State.reqPath ≠ .dead; decide)

/-- A target that begins with a slash, with the blank behind it. -/
theorem Runs.url {p : HttpParser} {u v : σ} {n : Nat} {text : Bytes}
    (hmethod : p.method ≠ .connect) (hin : (Ctx.bare p u).Inside F) (h : Lives .reqPath text)
    (hurl : ∀ q, s.onData .url q (chr '/' :: text) u = (v, 0))
    (hn : n + (text.length + 2) ≤ maxHeaderSize) :
    Runs F (Ctx.bare (p.atState .reqSpacesBeforeUrl n) u) (chr '/' :: text ++ [chr ' '])
      (Ctx.bare (p.atState .reqHttpStart (n + (text.length + 2))) v) := by
  have hslash : byteStep s ((Ctx.bare (p.atState .reqSpacesBeforeUrl n) u).counted 1) (chr '/') =
      .next (Ctx.spanning .url [] (p.atState .reqPath (n + 1)) u) :=
    byteStep_slash rfl hmethod
  have hin' : (Ctx.bare (p.atState .reqSpacesBeforeUrl n) u).Inside F :=
    ⟨hin.unfinished, hin.noUpgrade⟩
  have hfirst := Runs.oneByte hin' rfl (by show n + 1 ≤ _; omega) hslash
  rw [Ctx.advance_spanning] at hfirst
  obtain ⟨hrest, hend⟩ := Runs.target (F := F) (p := p) (n := n + 1) (x := [chr '/']) rfl hin h
    (by omega)
  have hstep : byteStep s ((Ctx.spanning .url ([chr '/'] ++ text)
      (p.atState (text.foldl parseUrlChar .reqPath) (n + 1 + text.length)) u).counted 1) (chr ' ') =
      .next (Ctx.bare (p.atState .reqHttpStart (n + 1 + text.length + 1)) v) := by
    rw [byteStep_inTarget hend, onUrl, if_pos rfl]
    refine callback_spanning ?_
    rw [List.append_nil]
    exact hurl _
  have hin'' : (Ctx.spanning .url ([chr '/'] ++ text)
      (p.atState (text.foldl parseUrlChar .reqPath) (n + 1 + text.length)) u).Inside F :=
    ⟨hin.unfinished, hin.noUpgrade⟩
  have hlast := Runs.oneByte hin'' (inTarget_oneByte hend)
    (by show n + 1 + text.length + 1 ≤ _; omega) hstep
  rw [show n + 1 + text.length + 1 = n + (text.length + 2) by omega] at hlast
  exact hfirst.trans (hrest.trans hlast)

/-! ## The version -/

theorem spells_http : Spells s .reqHttpStart [(chr 'H', .reqHttpH), (chr 'T', .reqHttpHT),
    (chr 'T', .reqHttpHTT), (chr 'P', .reqHttpHTTP), (chr '/', .reqHttpMajor)] := by
  refine ⟨rfl, fun c hc => ?_, rfl, fun c hc => ?_, rfl, fun c hc => ?_, rfl, fun c hc => ?_, rfl,
    fun c hc => ?_, trivial⟩
  · unfold byteStep
    dsimp only
    rw [hc]
    exact (if_neg (by decide)).trans (if_pos rfl)
  all_goals
    unfold byteStep
    dsimp only
    rw [hc]
    rfl

theorem spells_dot : Spells s .reqHttpDot [(chr '.', .reqHttpMinor)] := by
  refine ⟨rfl, fun c hc => ?_, trivial⟩
  unfold byteStep
  dsimp only
  rw [hc]
  rfl

theorem spells_lineEnd :
    Spells s .reqHttpEnd [(CR, .reqLineAlmostDone), (LF, .headerFieldStart)] := by
  refine ⟨rfl, fun c hc => ?_, rfl, fun c hc => ?_, trivial⟩
  · unfold byteStep
    dsimp only
    rw [hc]
    exact if_pos rfl
  · unfold byteStep
    dsimp only
    rw [hc]
    rfl

/-- The rest of the line. -/
theorem Runs.version {p : HttpParser} {u : σ} {n : Nat} {major minor : UInt8}
    (hin : (Ctx.bare p u).Inside F) (hmajor : isNum major = true) (hminor : isNum minor = true)
    (hn : n + 10 ≤ maxHeaderSize) :
    Runs F (Ctx.bare (p.atState .reqHttpStart n) u)
      ([chr 'H', chr 'T', chr 'T', chr 'P', chr '/'] ++ ([major] ++ ([chr '.'] ++ ([minor] ++
        [CR, LF]))))
      (Ctx.bare ({ p with httpMajor := digit major, httpMinor := digit minor }.atState
        .headerFieldStart (n + 10)) u) := by
  have hhttp := Runs.spells (F := F) (u := u) (p := p) (n := n) spells_http hin
    (by simp only [List.length_cons, List.length_nil]; omega)
  have hin1 : (Ctx.bare (p.atState .reqHttpMajor (n + 5)) u).Inside F :=
    ⟨hin.unfinished, hin.noUpgrade⟩
  have hbyte1 : byteStep s ((Ctx.bare (p.atState .reqHttpMajor (n + 5)) u).counted 1) major =
      .next (Ctx.bare ({ p with httpMajor := digit major }.atState .reqHttpDot (n + 6)) u) :=
    if_pos hmajor
  have hdigit1 := Runs.oneByte hin1 rfl (by show n + 5 + 1 ≤ _; omega) hbyte1
  have hdot := Runs.spells (F := F) (u := u) (p := { p with httpMajor := digit major })
    (n := n + 6) spells_dot ⟨hin.unfinished, hin.noUpgrade⟩
    (by simp only [List.length_cons, List.length_nil]; omega)
  have hin2 : (Ctx.bare ({ p with httpMajor := digit major }.atState .reqHttpMinor (n + 7))
      u).Inside F := ⟨hin.unfinished, hin.noUpgrade⟩
  have hbyte2 : byteStep s ((Ctx.bare ({ p with httpMajor := digit major }.atState .reqHttpMinor
      (n + 7)) u).counted 1) minor = .next (Ctx.bare ({ p with
        httpMajor := digit major, httpMinor := digit minor }.atState .reqHttpEnd (n + 8)) u) :=
    if_pos hminor
  have hdigit2 := Runs.oneByte hin2 rfl (by show n + 7 + 1 ≤ _; omega) hbyte2
  have hend := Runs.spells (F := F) (u := u)
    (p := { p with httpMajor := digit major, httpMinor := digit minor }) (n := n + 8)
    spells_lineEnd ⟨hin.unfinished, hin.noUpgrade⟩
    (by simp only [List.length_cons, List.length_nil]; omega)
  exact hhttp.trans (hdigit1.trans (hdot.trans (hdigit2.trans hend)))

/-! ## The line -/

/-- What a request line is written from. -/
structure Line where
  method : Method
  target : Bytes
  major : UInt8
  minor : UInt8

namespace Line

def text (l : Line) : Bytes :=
  l.method.string ++ [chr ' '] ++ (chr '/' :: l.target ++ [chr ' ']) ++
    ([chr 'H', chr 'T', chr 'T', chr 'P', chr '/'] ++ ([l.major] ++ ([chr '.'] ++ ([l.minor] ++
      [CR, LF]))))

/-- The parser takes the line for one of a request. -/
structure Valid (l : Line) : Prop where
  method : l.method ≠ .connect
  target : Lives .reqPath l.target
  major : isNum l.major = true
  minor : isNum l.minor = true

end Line

/-- **A request line.** -/
theorem Runs.requestLine {p : HttpParser} {u v : σ} {n : Nat} {l : Line}
    (hin : (Ctx.bare p u).Inside F) (hl : l.Valid)
    (hurl : ∀ q, s.onData .url q (chr '/' :: l.target) u = (v, 0))
    (hfinished : F.finished v = false) (hn : n + l.text.length ≤ maxHeaderSize) :
    ∃ i, Runs F (Ctx.bare (p.atState .startReq n) u) l.text
      (Ctx.bare ({ p.freshened with
        method := l.method, index := i, httpMajor := digit l.major, httpMinor := digit l.minor
        }.atState .headerFieldStart (n + l.text.length)) v) := by
  have hlen : l.text.length = (l.method.string.length + 1) + (l.target.length + 2) + 10 := by
    simp only [Line.text, List.length_append, List.length_cons, List.length_nil]
  rw [hlen] at hn ⊢
  obtain ⟨i, hmethod⟩ := Runs.method hin l.method (n := n) (by omega)
  have htarget := Runs.url (F := F) (u := u) (n := n + (l.method.string.length + 1))
    (p := { p.freshened with method := l.method, index := i }) hl.method
    ⟨hin.unfinished, hin.noUpgrade⟩ hl.target hurl (by omega)
  have hversion := Runs.version (F := F) (u := v)
    (n := n + (l.method.string.length + 1) + (l.target.length + 2))
    (p := { p.freshened with method := l.method, index := i })
    ⟨hfinished, hin.noUpgrade⟩ hl.major hl.minor (by omega)
  refine ⟨i, ?_⟩
  rw [← Nat.add_assoc, ← Nat.add_assoc]
  exact (hmethod.trans htarget).trans hversion

end RequestLine

end Sylar.Http
