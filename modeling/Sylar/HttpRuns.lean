import Sylar.HttpSeams

/-! # Runs of the parser over a text

What `http_parser_execute` does with a message is said piece by piece: over a piece of text
the loop goes from one context to another, whatever stands behind it (`Runs`), and such runs
are put together (`Runs.trans`).

A buffer that ends inside such a piece leaves a message that is not finished, and no upgrade;
this is carried along, as a reader who calls once more for each segment depends on it. -/
namespace Sylar.Http

/-- A property of all bytes of a text, as it is evaluated. -/
theorem forall_of_all {P : UInt8 → Prop} [DecidablePred P] {l : Bytes}
    (h : l.all (fun ch => decide (P ch)) = true) : ∀ ch ∈ l, P ch := fun ch hch =>
  of_decide_eq_true (List.all_eq_true.mp h ch hch)

/-! ## Callbacks that return 0 -/

/-- The callbacks for the headers and the notices return 0, a message is finished by
`on_message_complete` alone, and nothing is done where a message or a chunk begins or where a
chunk ends. -/
structure Settings.Calm {σ : Type} (s : Settings σ) extends s.Fragments where
  field : Bytes → σ → σ
  value : Bytes → σ → σ
  notice : Notice → HttpParser → σ → σ
  finished : σ → Bool
  onField : ∀ p x u, s.onData .headerField p x u = (field x u, 0)
  onValue : ∀ p x u, s.onData .headerValue p x u = (value x u, 0)
  onNotice : ∀ n p u, s.onNotify n p u = (notice n p u, 0)
  finished_body : ∀ x u, finished (body x u) = finished u
  finished_status : ∀ n u, finished (status n u) = finished u
  finished_field : ∀ x u, finished (field x u) = finished u
  finished_value : ∀ x u, finished (value x u) = finished u
  finished_notice : ∀ n p u, n ≠ .messageComplete → finished (notice n p u) = finished u
  messageBegin : ∀ p u, notice .messageBegin p u = u
  chunkHeader : ∀ p u, notice .chunkHeader p u = u
  chunkComplete : ∀ p u, notice .chunkComplete p u = u

/-- The parser in another state, and with another count of bytes. -/
def HttpParser.atState (p : HttpParser) (st : State) (n : Nat) : HttpParser :=
  { p with state := st, nread := n }

section Runs
variable {σ : Type} {s : Settings σ} (F : s.Calm)

/-- Inside a message: it is not finished, and there is no upgrade. -/
structure Ctx.Inside (c : Ctx σ) : Prop where
  unfinished : F.finished c.user = false
  noUpgrade : c.parser.upgrade = false

/-- Over these bytes the loop goes from `c` to `d`, whatever is behind them; and a buffer that
ends among them ends inside the message. -/
structure Runs (c : Ctx σ) (text : Bytes) (d : Ctx σ) : Prop where
  goes : ∀ rest, loop s 0 c (text ++ rest) = loop s 0 d rest
  inside : ∀ x y, text = x ++ y → y ≠ [] → ∃ e, loop s 0 c x = .ran e ∧ e.Inside F

variable {F} {c d : Ctx σ}

theorem Runs.refl (c : Ctx σ) : Runs F c [] c where
  goes _ := rfl
  inside _ _ h hy := absurd (List.append_eq_nil_iff.mp h.symm).2 hy

theorem Runs.trans {e : Ctx σ} {a b : Bytes} (hab : Runs F c a d) (hbc : Runs F d b e) :
    Runs F c (a ++ b) e where
  goes rest := by rw [List.append_assoc, hab.goes, hbc.goes]
  inside x y h hy := by
    rcases List.append_eq_append_iff.mp h with ⟨w, rfl, rfl⟩ | ⟨w, rfl, rfl⟩
    · -- the buffer ends in the second piece
      rw [hab.goes]
      exact hbc.inside w y rfl hy
    · rcases eq_or_ne w [] with rfl | hw
      · rw [List.append_nil] at hab
        have hend := hab.goes []
        rw [List.append_nil] at hend
        rw [hend]
        exact hbc.inside [] b rfl hy
      · exact hab.inside x w rfl hw

/-- The loop over a text, and no more, ends where the run does. -/
theorem Runs.ran {text : Bytes} (h : Runs F c text d) : loop s 0 c text = .ran d := by
  have hend := h.goes []
  rwa [List.append_nil] at hend

/-- A state that reads one byte. -/
theorem Runs.byte {ch : UInt8} (hc : c.Inside F)
    (h : ∀ tail, iteration s c ch tail = (0, .next d)) : Runs F c [ch] (d.advance [ch]) where
  goes rest := loop_cons (h rest) (Nat.zero_le _)
  inside x y heq hy := by
    rcases List.cons_eq_append_iff.mp heq with ⟨rfl, -⟩ | ⟨x, rfl, hx⟩
    · exact ⟨c, rfl, hc⟩
    · exact absurd (List.append_eq_nil_iff.mp hx.symm).2 hy

/-! ## The headers, byte by byte -/

/-- So many bytes of the headers have been counted. -/
def Ctx.counted (c : Ctx σ) (n : Nat) : Ctx σ :=
  { c with parser := { c.parser with nread := c.parser.nread + n } }

/-- The states of the headers that read one byte. -/
def State.oneByte (st : State) : Bool := st.parsingHeader && !st.inLoop

/-- A byte of the headers is counted, as long as there are not too many. -/
theorem iteration_header (hst : c.parser.state.parsingHeader = true)
    (hn : c.parser.nread + 1 ≤ maxHeaderSize) (ch : UInt8) (tail : Bytes) :
    iteration s c ch tail = step s (c.counted 1) ch tail := by
  have hmod : (c.parser.nread + 1) % 2 ^ 32 = c.parser.nread + 1 :=
    Nat.mod_eq_of_lt (Nat.lt_of_le_of_lt hn (by decide))
  unfold iteration
  rw [if_pos hst, hmod]
  exact if_neg (Nat.not_lt.mpr hn)

theorem iteration_oneByte (hst : c.parser.state.oneByte = true)
    (hn : c.parser.nread + 1 ≤ maxHeaderSize) (ch : UInt8) (tail : Bytes) :
    iteration s c ch tail = (0, byteStep s (c.counted 1) ch) := by
  rw [iteration_header (Bool.and_eq_true_iff.mp hst).1 hn, step]
  have hsame : (c.counted 1).parser.state = c.parser.state := rfl
  split
  all_goals first
    | rfl
    | (rename_i heq; rw [← hsame, heq] at hst; cases hst)

theorem Runs.oneByte {ch : UInt8} (hc : c.Inside F) (hst : c.parser.state.oneByte = true)
    (hn : c.parser.nread + 1 ≤ maxHeaderSize) (h : byteStep s (c.counted 1) ch = .next d) :
    Runs F c [ch] (d.advance [ch]) :=
  Runs.byte hc fun tail => (iteration_oneByte hst hn ch tail).trans (by rw [h])

/-- A context without marks. -/
def Ctx.bare (p : HttpParser) (u : σ) : Ctx σ where
  parser := p
  user := u
  marks _ := none

@[simp] theorem Ctx.advance_bare (p : HttpParser) (u : σ) (seen : Bytes) :
    (Ctx.bare p u).advance seen = Ctx.bare p u := rfl

/-- The bytes of a path of states, each of which is left for the next by its byte alone. -/
def Spells (s : Settings σ) : State → List (UInt8 × State) → Prop
  | _, [] => True
  | st, (ch, st') :: path =>
    st.oneByte = true ∧ (∀ c : Ctx σ, c.parser.state = st → byteStep s c ch = .next (c.goto st')) ∧
      Spells s st' path

/-- Where a path of states ends. -/
def landing (st : State) (path : List (UInt8 × State)) : State :=
  (path.getLast?.map Prod.snd).getD st

theorem Runs.spells {path : List (UInt8 × State)} {p : HttpParser} {st : State} {n : Nat} {u : σ}
    (hpath : Spells s st path) (hin : (Ctx.bare p u).Inside F)
    (hn : n + path.length ≤ maxHeaderSize) :
    Runs F (Ctx.bare (p.atState st n) u) (path.map Prod.fst)
      (Ctx.bare (p.atState (landing st path) (n + path.length)) u) := by
  induction path generalizing st n with
  | nil => exact .refl _
  | cons e path ih =>
    obtain ⟨ch, st'⟩ := e
    obtain ⟨hone, hbyte, hrest⟩ := hpath
    rw [List.length_cons] at hn
    have hin' : (Ctx.bare (p.atState st n) u).Inside F := ⟨hin.unfinished, hin.noUpgrade⟩
    have hfirst : Runs F (Ctx.bare (p.atState st n) u) [ch] (Ctx.bare (p.atState st' (n + 1)) u) :=
      Runs.oneByte hin' hone (by show n + 1 ≤ _; omega)
        (hbyte ((Ctx.bare (p.atState st n) u).counted 1) rfl)
    have hnext := ih (n := n + 1) hrest (by omega)
    have hland : landing st ((ch, st') :: path) = landing st' path := by
      cases path with
      | nil => rfl
      | cons e path => simp [landing, List.getLast?_cons]
    have hcount : n + 1 + path.length = n + (path.length + 1) := by omega
    rw [hland, List.length_cons, ← hcount]
    exact hfirst.trans hnext

end Runs

/-! ## The loops over a name and a value

They neither read nor write the state and the count. -/

namespace HttpParser

theorem matchWord_at (p : HttpParser) (st : State) (n : Nat) (word : String) (c : UInt8)
    (hs missed hit : HeaderState) :
    (p.atState st n).matchWord word c hs missed hit =
      ((p.matchWord word c hs missed hit).1.atState st n,
        (p.matchWord word c hs missed hit).2) := by
  unfold matchWord
  dsimp only [atState]
  split_ifs <;> rfl

theorem fieldChar_at (p : HttpParser) (st : State) (n : Nat) (ch : UInt8) :
    (p.atState st n).fieldChar ch = (p.fieldChar ch).atState st n := by
  have hst : (p.atState st n).headerState = p.headerState := rfl
  unfold fieldChar
  simp only [matchWord_at, hst]
  cases p.headerState with
  | matchingTransferEncoding =>
    dsimp only
    split_ifs <;> rfl
  | connection | contentLength | transferEncoding | upgrade =>
    dsimp only
    split_ifs <;> rfl
  | _ => rfl

theorem valueChar_at (p : HttpParser) (st : State) (n : Nat) (hs : HeaderState) (ch : UInt8) :
    (p.atState st n).valueChar hs ch =
      ((p.valueChar hs ch).1.atState st n, (p.valueChar hs ch).2) := by
  have hlen : (p.atState st n).contentLength = p.contentLength := rfl
  unfold valueChar
  simp only [matchWord_at, hlen]
  cases hs <;> dsimp only
  all_goals
    first
    | rfl
    | split_ifs <;> rfl


theorem foldl_fieldChar_at (p : HttpParser) (st : State) (n : Nat) (name : Bytes) :
    name.foldl fieldChar (p.atState st n) = (name.foldl fieldChar p).atState st n := by
  induction name generalizing p with
  | nil => rfl
  | cons ch name ih => rw [List.foldl_cons, List.foldl_cons, fieldChar_at, ih]

theorem foldl_fieldChar_same (p : HttpParser) (name : Bytes) :
    p.SameCall (name.foldl fieldChar p) := by
  induction name generalizing p with
  | nil => exact .refl p
  | cons ch name ih => exact (p.fieldChar_same ch).trans (ih _)

/-- The step of a parser that is in another state. -/
def ValueStep.atState (st : State) (n : Nat) : ValueStep → ValueStep
  | .go p hs run => .go (p.atState st n) hs run
  | .stop p hs e => .stop (p.atState st n) hs e

theorem valueLoop_at (p : HttpParser) (st : State) (n : Nat) (hs : HeaderState)
    (run : Option Nat) (buf : Bytes) :
    (p.atState st n).valueLoop hs run buf =
      ((p.valueLoop hs run buf).1.atState st n, (p.valueLoop hs run buf).2) := by
  induction buf generalizing p hs run with
  | nil => rfl
  | cons ch rest ih =>
    have hlenient : (p.atState st n).lenientHttpHeaders = p.lenientHttpHeaders := rfl
    have hbyte : (p.atState st n).valueByte hs run ch =
        ValueStep.atState st n (p.valueByte hs run ch) := by
      unfold valueByte
      rw [hlenient, valueChar_at]
      split_ifs
      all_goals try rfl
      all_goals
        cases run with
        | some k => rfl
        | none =>
          first
          | rfl
          | (rcases p.valueChar hs ch with ⟨q, hs', e⟩; cases e <;> rfl)
    rw [valueLoop, valueLoop, hbyte]
    cases p.valueByte hs run ch with
    | go q hs' run' =>
      dsimp only [ValueStep.atState]
      rw [ih]
    | stop q hs' stop => rfl

/-- The loop over a name that is not over in the buffer, and over one that is. -/
theorem fieldLoop_tokens (p : HttpParser) {name : Bytes} (h : ∀ ch ∈ name, token ch ≠ 0)
    (rest : Bytes) :
    p.fieldLoop (name ++ rest) =
      ((((name.foldl fieldChar p).fieldLoop rest).1,
        name.length + ((name.foldl fieldChar p).fieldLoop rest).2.1,
        ((name.foldl fieldChar p).fieldLoop rest).2.2)) := by
  induction name generalizing p with
  | nil => simp
  | cons ch name ih =>
    rw [List.forall_mem_cons] at h
    rw [List.cons_append, fieldLoop, if_neg h.1]
    dsimp only
    rw [ih _ h.2, List.foldl_cons, List.length_cons]
    refine Prod.ext rfl (Prod.ext ?_ rfl)
    dsimp only
    omega

/-- A value that the loop has run over is not over in a shorter buffer. -/
theorem valueLoop_prefix {p q : HttpParser} {hs hs' : HeaderState} {run : Option Nat}
    {a b : Bytes} {n : Nat} {stop : ValueStop}
    (h : p.valueLoop hs run (a ++ b) = (q, hs', n, stop)) (hn : a.length ≤ n) :
    ∃ r hs'', p.valueLoop hs run a = (r, hs'', a.length, .ran) := by
  induction a generalizing p hs run n with
  | nil => exact ⟨p, hs, rfl⟩
  | cons ch a ih =>
    rw [List.cons_append, valueLoop] at h
    rw [valueLoop]
    cases hbyte : p.valueByte hs run ch with
    | stop p₁ hs₁ stop₁ =>
      rw [hbyte] at h
      cases h
      exact absurd hn (by simp)
    | go p₁ hs₁ run₁ =>
      rw [hbyte] at h
      dsimp only at h ⊢
      rcases hr : p₁.valueLoop hs₁ run₁ (a ++ b) with ⟨q', hs', n', stop'⟩
      rw [hr] at h
      cases h
      obtain ⟨r, hs'', heq⟩ := ih hr (Nat.le_of_succ_le_succ hn)
      exact ⟨r, hs'', by rw [heq, List.length_cons]⟩

end HttpParser

section Runs
variable {σ : Type} {s : Settings σ} {F : s.Calm}

theorem count_eq {c : Ctx σ} {v : Nat} (hn : c.parser.nread + v ≤ maxHeaderSize)
    (k : Ctx σ → Flow σ) : c.count v k = k (c.counted v) := by
  have hmod : (c.parser.nread + v) % 2 ^ 32 = c.parser.nread + v :=
    Nat.mod_eq_of_lt (Nat.lt_of_le_of_lt hn (by decide))
  unfold Ctx.count
  rw [hmod]
  exact if_neg (Nat.not_lt.mpr hn)

/-- A context with one mark. -/
def Ctx.spanning (m : Mark) (span : Bytes) (p : HttpParser) (u : σ) : Ctx σ where
  parser := p
  user := u
  marks := Function.update (fun _ => none) m (some span)

@[simp] theorem Ctx.advance_spanning (m : Mark) (span : Bytes) (p : HttpParser) (u : σ)
    (seen : Bytes) :
    (Ctx.spanning m span p u).advance seen = Ctx.spanning m (span ++ seen) p u := by
  refine Ctx.ext_marks rfl rfl fun m' => ?_
  rcases eq_or_ne m' m with rfl | hm
  · simp [Ctx.advance, Ctx.spanning]
  · simp [Ctx.advance, Ctx.spanning, hm]

theorem Ctx.spanning_self (m : Mark) (span : Bytes) (p : HttpParser) (u : σ) :
    (Ctx.spanning m span p u).marks m = some span := by
  simp [Ctx.spanning]

theorem Ctx.spanning_of_ne {m m' : Mark} (h : m' ≠ m) (span : Bytes) (p : HttpParser) (u : σ) :
    (Ctx.spanning m span p u).marks m' = none := by
  simp [Ctx.spanning, h]

/-- The callback for the mark of a context with one. -/
theorem callback_spanning {m : Mark} {span more : Bytes} {p : HttpParser} {u v : σ} {past : Bool}
    {k : Ctx σ → Flow σ} (h : s.onData m p (span ++ more) u = (v, 0)) :
    (Ctx.spanning m span p u).callback s m more past k = k (Ctx.bare p v) :=
  callback_only (Ctx.spanning_self ..) (fun _ hm => Ctx.spanning_of_ne hm ..) h

/-- A buffer that ends in front of the last byte. -/
theorem prefix_of_concat {text x y : Bytes} {last : UInt8} (h : text ++ [last] = x ++ y)
    (hy : y ≠ []) : ∃ w, text = x ++ w := by
  rcases List.append_eq_append_iff.mp h with ⟨w, rfl, hw⟩ | ⟨w, rfl, -⟩
  · rcases List.cons_eq_append_iff.mp hw with ⟨rfl, -⟩ | ⟨w, rfl, hw'⟩
    · exact ⟨[], by simp⟩
    · exact absurd (List.append_eq_nil_iff.mp hw'.symm).2 hy
  · exact ⟨w, rfl⟩

theorem iteration_headerField {c : Ctx σ} (hst : c.parser.state = .headerField)
    (hn : c.parser.nread + 1 ≤ maxHeaderSize) (ch : UInt8) (tail : Bytes) :
    iteration s c ch tail = headerFieldRun s (c.counted 1) (ch :: tail) := by
  have hsame : (c.counted 1).parser.state = .headerField := hst
  rw [iteration_header (by rw [hst]; rfl) hn, step, hsame]

theorem iteration_headerValue {c : Ctx σ} (hst : c.parser.state = .headerValue)
    (hn : c.parser.nread + 1 ≤ maxHeaderSize) (ch : UInt8) (tail : Bytes) :
    iteration s c ch tail = headerValueRun s (c.counted 1) (ch :: tail) := by
  have hsame : (c.counted 1).parser.state = .headerValue := hst
  rw [iteration_header (by rw [hst]; rfl) hn, step, hsame]

/-- The rest of a name, with the colon behind it. -/
theorem Runs.name {p : HttpParser} {n : Nat} {u : σ} {span name : Bytes}
    (hname : ∀ ch ∈ name, token ch ≠ 0) (hin : (Ctx.bare p u).Inside F)
    (hn : n + (name.length + 1) ≤ maxHeaderSize) :
    Runs F (Ctx.spanning .headerField span (p.atState .headerField n) u) (name ++ [chr ':'])
      (Ctx.bare ((name.foldl HttpParser.fieldChar p).atState .headerValueDiscardWs
        (n + (name.length + 1))) (F.field (span ++ name) u)) := by
  have hcounted : ((Ctx.spanning .headerField span (p.atState .headerField n) u).counted 1).parser =
      p.atState .headerField (n + 1) := rfl
  have hone : n + 1 ≤ maxHeaderSize := by omega
  constructor
  case goes =>
    intro rest
    have hloop : (p.atState .headerField (n + 1)).fieldLoop (name ++ chr ':' :: rest) =
        ((name.foldl HttpParser.fieldChar p).atState .headerField (n + 1), name.length,
          some (chr ':')) := by
      rw [HttpParser.fieldLoop_tokens _ hname, HttpParser.foldl_fieldChar_at]
      rfl
    have hrun : headerFieldRun s
        ((Ctx.spanning .headerField span (p.atState .headerField n) u).counted 1)
        (name ++ chr ':' :: rest) = (name.length, .next (Ctx.bare
          ((name.foldl HttpParser.fieldChar p).atState .headerValueDiscardWs
            (n + (name.length + 1))) (F.field (span ++ name) u))) := by
      have hsum : n + 1 + name.length = n + (name.length + 1) := by omega
      unfold headerFieldRun
      rw [hcounted, hloop]
      dsimp only
      rw [count_eq (by show n + 1 + name.length ≤ _; omega), if_pos rfl, List.take_left, ← hsum]
      exact congrArg (Prod.mk _) (callback_spanning (F.onField ..))
    have hlen : name.length < (name ++ chr ':' :: rest).length := by simp
    rw [List.append_assoc, List.singleton_append,
      loop_run (iteration_headerField rfl hone) (by simp) hrun hlen, Flow.resume, Ctx.advance_bare]
    refine congrArg _ ?_
    simp
  case inside =>
    intro x y heq hy
    obtain ⟨w, rfl⟩ := prefix_of_concat heq hy
    rcases eq_or_ne x [] with rfl | hx
    · exact ⟨_, rfl, hin.unfinished, hin.noUpgrade⟩
    · have htokens : ∀ ch ∈ x, token ch ≠ 0 := fun ch hch => hname ch (List.mem_append_left w hch)
      have hloop : (p.atState .headerField (n + 1)).fieldLoop x =
          ((x.foldl HttpParser.fieldChar p).atState .headerField (n + 1), x.length, none) := by
        have h := HttpParser.fieldLoop_tokens (p.atState .headerField (n + 1)) htokens []
        rw [List.append_nil, HttpParser.foldl_fieldChar_at] at h
        exact h
      have hlen : x.length ≤ (x ++ w).length := by simp
      have hrun : headerFieldRun s
          ((Ctx.spanning .headerField span (p.atState .headerField n) u).counted 1) x =
          (x.length - 1, .next (Ctx.spanning .headerField span
            ((x.foldl HttpParser.fieldChar p).atState .headerField (n + 1 + (x.length - 1)))
            u)) := by
        unfold headerFieldRun
        rw [hcounted, hloop]
        dsimp only
        rw [count_eq (by show n + 1 + (x.length - 1) ≤ _; omega)]
        rfl
      exact ⟨_, loop_to_end (iteration_headerField rfl hone) hx hrun, hin.unfinished,
        (HttpParser.foldl_fieldChar_same p x).upgrade.trans hin.noUpgrade⟩

/-- The rest of a value, with the end of its line behind it. -/
theorem Runs.value {p q : HttpParser} {n : Nat} {hs : HeaderState} {u : σ} {span value : Bytes}
    (hloop : ∀ rest, p.valueLoop p.headerState none (value ++ CR :: rest) =
      (q, hs, value.length, .cr)) (hin : (Ctx.bare p u).Inside F)
    (hn : n + (value.length + 1) ≤ maxHeaderSize) :
    Runs F (Ctx.spanning .headerValue span (p.atState .headerValue n) u) (value ++ [CR])
      (Ctx.bare ({ q with headerState := hs }.atState .headerAlmostDone
        (n + (value.length + 1))) (F.value (span ++ value) u)) := by
  have hcounted : ((Ctx.spanning .headerValue span (p.atState .headerValue n) u).counted 1).parser =
      p.atState .headerValue (n + 1) := rfl
  have hheader : (p.atState .headerValue (n + 1)).headerState = p.headerState := rfl
  have hone : n + 1 ≤ maxHeaderSize := by omega
  constructor
  case goes =>
    intro rest
    have hrun : headerValueRun s
        ((Ctx.spanning .headerValue span (p.atState .headerValue n) u).counted 1)
        (value ++ CR :: rest) = (value.length, .next (Ctx.bare
          ({ q with headerState := hs }.atState .headerAlmostDone
            (n + (value.length + 1))) (F.value (span ++ value) u))) := by
      have hsum : n + 1 + value.length = n + (value.length + 1) := by omega
      unfold headerValueRun
      rw [hcounted, hheader, HttpParser.valueLoop_at, hloop]
      dsimp only
      rw [List.take_left]
      refine congrArg (Prod.mk _) ((callback_spanning (F.onValue ..)).trans ?_)
      rw [count_eq (by show n + 1 + value.length ≤ _; omega), ← hsum]
      rfl
    have hlen : value.length < (value ++ CR :: rest).length := by simp
    rw [List.append_assoc, List.singleton_append,
      loop_run (iteration_headerValue rfl hone) (by simp) hrun hlen, Flow.resume, Ctx.advance_bare]
    refine congrArg _ ?_
    simp
  case inside =>
    intro x y heq hy
    obtain ⟨w, rfl⟩ := prefix_of_concat heq hy
    rcases eq_or_ne x [] with rfl | hx
    · exact ⟨_, rfl, hin.unfinished, hin.noUpgrade⟩
    · have hlen : x.length ≤ (x ++ w).length := by simp
      have hwhole := hloop []
      rw [List.append_assoc] at hwhole
      obtain ⟨r, hs', hran⟩ := HttpParser.valueLoop_prefix hwhole hlen
      have hrun : headerValueRun s
          ((Ctx.spanning .headerValue span (p.atState .headerValue n) u).counted 1) x =
          (x.length - 1, .next (Ctx.spanning .headerValue span
            ({ r with headerState := hs' }.atState .headerValue (n + 1 + (x.length - 1)))
            u)) := by
        unfold headerValueRun
        rw [hcounted, hheader, HttpParser.valueLoop_at, hran]
        dsimp only
        rw [count_eq (by show n + 1 + (x.length - 1) ≤ _; omega)]
        rfl
      have hsame := p.valueLoop_same p.headerState none x
      rw [hran] at hsame
      exact ⟨_, loop_to_end (iteration_headerValue rfl hone) hx hrun, hin.unfinished,
        hsame.upgrade.trans hin.noUpgrade⟩

end Runs

end Sylar.Http
