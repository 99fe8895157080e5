import Sylar.HttpMarks
import Sylar.Segments

/-! # Where a message may be cut

`http_parser_execute` hands a span that the end of a buffer interrupts to its callback in
fragments.  Where the callbacks only gather bodies and only read the status code
(`Settings.Fragments`), a call that ends inside a body or a reason phrase is resumed by the
next one as if nothing had happened.  `Seam` says which states and streams that is true
of: not of a URL, a header name or a header value.  Up to the end of the first buffer
that is a statement about the loop (`loop_append`). -/
namespace Sylar.Http

/-- The callbacks for a body and a reason phrase take fragments for the whole. -/
structure Settings.Fragments {σ : Type} (s : Settings σ) where
  body : Bytes → σ → σ
  status : Nat → σ → σ
  onBody : ∀ p x u, s.onData .body p x u = (body x u, 0)
  onStatus : ∀ p x u, s.onData .status p x u = (status p.statusCode u, 0)
  body_append : ∀ x y u, body y (body x u) = body (x ++ y) u
  status_status : ∀ n u, status n (status n u) = status n u

/-- The states that run ahead in a loop of their own over a name or a value. -/
def State.inLoop (st : State) : Bool := st == .headerField || st == .headerValue

/-- Inside a URL, a header name or a header value. -/
def State.torn (st : State) : Bool := st.inUrl || st.inLoop

/-- What is left of a reason phrase. -/
def phrase (rest : Bytes) : Bytes := rest.takeWhile fun c => c != CR && c != LF

/-- The reason phrase or the data of a chunk that a buffer ended in is over where it should
be: the phrase before there are too many bytes of headers, the data with a `CR`. -/
def spanCloses (p : HttpParser) (rest : Bytes) : Bool :=
  match p.state with
  | .resStatus => p.nread + min ((phrase rest).length + 1) rest.length ≤ maxHeaderSize
  | .chunkData => rest[p.contentLength]?.all (· == CR)
  | .chunkDataAlmostDone => rest.head?.all (· == CR)
  | _ => true

/-- The errors that the loop over a name or a value, or a data callback, may raise. -/
def Errno.ofSpan : Errno → Bool
  | .headerOverflow | .cbData _ => true
  | _ => false

/-- The stream may be cut where a call left the parser in the state `p`, with `rest` still
to come. -/
def Seam (p : HttpParser) (rest : Bytes) : Prop :=
  if p.httpErrno = none then
    p.state.torn = false ∧ spanCloses p rest = true ∧
      ¬ (p.upgrade = true ∧ p.state.betweenMessages = true)
  else ¬ (p.state.torn = true ∧ p.httpErrno.any Errno.ofSpan = true)

instance (p : HttpParser) (rest : Bytes) : Decidable (Seam p rest) := by
  unfold Seam
  infer_instance

theorem Seam.open {p : HttpParser} {rest : Bytes} (h : Seam p rest) (herr : p.httpErrno = none) :
    p.state.torn = false ∧ spanCloses p rest = true ∧
      ¬ (p.upgrade = true ∧ p.state.betweenMessages = true) := by
  unfold Seam at h
  rwa [if_pos herr] at h

theorem Seam.failed {p : HttpParser} {rest : Bytes} {e : Errno} (h : Seam p rest)
    (herr : p.httpErrno = some e) : ¬ (p.state.torn = true ∧ e.ofSpan = true) := by
  unfold Seam at h
  rw [if_neg (by rw [herr]; exact Option.some_ne_none e), herr] at h
  exact h

theorem length_phrase_left (x y : Bytes) : (phrase x).length ≤ (phrase (x ++ y)).length := by
  induction x with
  | nil => exact Nat.zero_le _
  | cons c x ih =>
    unfold phrase at ih ⊢
    rw [List.cons_append, List.takeWhile_cons, List.takeWhile_cons]
    split
    · exact Nat.succ_le_succ ih
    · exact Nat.le_refl _

theorem spanCloses_left {p : HttpParser} {x y : Bytes} (h : spanCloses p (x ++ y) = true) :
    spanCloses p x = true := by
  unfold spanCloses at h ⊢
  split at h
  · have hphrase := length_phrase_left x y
    rw [decide_eq_true_eq, List.length_append] at h
    rw [decide_eq_true_eq]
    omega
  · rcases Nat.lt_or_ge p.contentLength x.length with hlt | hge
    · rwa [List.getElem?_append_left hlt] at h
    · rw [List.getElem?_eq_none hge]
      rfl
  · cases x with
    | nil => rfl
    | cons c x => exact h
  · rfl

/-- A seam is one in a shorter stream. -/
theorem Seam.left {p : HttpParser} {x y : Bytes} (h : Seam p (x ++ y)) : Seam p x := by
  by_cases herr : p.httpErrno = none
  · obtain ⟨htorn, hcloses, hup⟩ := h.open herr
    unfold Seam
    rw [if_pos herr]
    exact ⟨htorn, spanCloses_left hcloses, hup⟩
  · unfold Seam at h ⊢
    rw [if_neg herr] at h ⊢
    exact h

/-! ## The loops over a name and a value -/

namespace HttpParser

theorem fieldLoop_append {p q : HttpParser} {a : Bytes} {n : Nat} {ch : UInt8}
    (h : p.fieldLoop a = (q, n, some ch)) (b : Bytes) :
    n < a.length ∧ p.fieldLoop (a ++ b) = (q, n, some ch) := by
  induction a generalizing p n with
  | nil => cases h
  | cons x a ih =>
    rw [List.cons_append]
    unfold fieldLoop at h ⊢
    split
    · rename_i hx
      rw [if_pos hx] at h
      cases h
      exact ⟨Nat.succ_pos _, rfl⟩
    · rename_i hx
      rw [if_neg hx] at h
      generalize hr : (p.fieldChar x).fieldLoop a = r at h
      obtain ⟨q', n', stop⟩ := r
      cases h
      obtain ⟨hlt, heq⟩ := ih hr
      rw [heq]
      exact ⟨Nat.succ_lt_succ hlt, rfl⟩

theorem fieldLoop_ran {p q : HttpParser} {a : Bytes} {n : Nat} (h : p.fieldLoop a = (q, n, none)) :
    n = a.length := by
  induction a generalizing p n with
  | nil =>
    cases h
    rfl
  | cons x a ih =>
    unfold fieldLoop at h
    split at h
    · cases h
    · generalize hr : (p.fieldChar x).fieldLoop a = r at h
      obtain ⟨q', n', stop⟩ := r
      cases h
      rw [ih hr, List.length_cons]

theorem valueLoop_append {p q : HttpParser} {hs hs' : HeaderState} {run : Option Nat} {a : Bytes}
    {n : Nat} {stop : ValueStop} (h : p.valueLoop hs run a = (q, hs', n, stop))
    (hstop : stop ≠ .ran) (b : Bytes) :
    n < a.length ∧ p.valueLoop hs run (a ++ b) = (q, hs', n, stop) := by
  induction a generalizing p hs run n with
  | nil =>
    cases h
    exact absurd rfl hstop
  | cons x a ih =>
    rw [List.cons_append]
    rw [valueLoop] at h ⊢
    split
    · rename_i heq
      rw [heq] at h
      cases h
      exact ⟨Nat.succ_pos _, rfl⟩
    · rename_i p₁ hs₁ run₁ heq
      rw [heq] at h
      rcases hr : p₁.valueLoop hs₁ run₁ a with ⟨q', hs'', n', stop'⟩
      simp only [hr] at h
      cases h
      obtain ⟨hlt, heq⟩ := ih hr
      rw [heq]
      exact ⟨Nat.succ_lt_succ hlt, rfl⟩

theorem valueLoop_ran {p q : HttpParser} {hs hs' : HeaderState} {run : Option Nat} {a : Bytes}
    {n : Nat} (h : p.valueLoop hs run a = (q, hs', n, .ran)) : n = a.length := by
  induction a generalizing p hs run n with
  | nil =>
    cases h
    rfl
  | cons x a ih =>
    rw [valueLoop] at h
    split at h
    · rename_i hstop
      cases h
      unfold valueByte at hstop
      grind
    · rename_i p₁ hs₁ run₁ _
      rcases hr : p₁.valueLoop hs₁ run₁ a with ⟨q', hs'', n', stop'⟩
      simp only [hr] at h
      cases h
      rw [ih hr, List.length_cons]

end HttpParser

/-! ## The loop over a longer buffer -/

section Longer
variable {σ : Type} {s : Settings σ}

/-- The loop goes on as a state's code has left it: `seen` is what it has read, `rest` what is
left of the buffer behind it. -/
def Flow.resume (s : Settings σ) (f : Flow σ) (seen rest : Bytes) : Outcome σ :=
  match f with
  | .next c => loop s 0 (c.advance seen) rest
  | .fail c e past =>
    .left { c with parser := { c.parser with httpErrno := some e } }
      (rest.length + 1 - past.toNat)
  | .exit c => .left c rest.length

theorem loop_drop (k : Nat) (c : Ctx σ) (buf : Bytes) :
    loop s k c buf = loop s 0 c (buf.drop k) := by
  induction buf generalizing k with
  | nil => cases k <;> rfl
  | cons ch tail ih =>
    cases k with
    | zero => rfl
    | succ k => exact ih k

theorem loop_cons {c : Ctx σ} {ch : UInt8} {tail : Bytes} {k : Nat} {f : Flow σ}
    (h : iteration s c ch tail = (k, f)) (hk : k ≤ tail.length) :
    loop s 0 c (ch :: tail) =
      f.resume s ((ch :: tail).take (k + 1)) ((ch :: tail).drop (k + 1)) := by
  have hlen : (tail.drop k).length = tail.length - k := List.length_drop
  rw [loop, h, List.drop_succ_cons]
  cases f with
  | next d => exact loop_drop ..
  | fail d e past =>
    have hleft : tail.length + 1 - k - past.toNat = tail.length - k + 1 - past.toNat := by omega
    simp only [Flow.resume, hlen, hleft]
  | exit d => rw [Flow.resume, hlen]

theorem loop_run {c : Ctx σ} {buf : Bytes} {run : Bytes → Nat × Flow σ}
    (hrun : ∀ ch tail, iteration s c ch tail = run (ch :: tail)) (hne : buf ≠ []) {k : Nat}
    {f : Flow σ} (h : run buf = (k, f)) (hk : k < buf.length) :
    loop s 0 c buf = f.resume s (buf.take (k + 1)) (buf.drop (k + 1)) := by
  obtain ⟨ch, tail, rfl⟩ := List.exists_cons_of_ne_nil hne
  exact loop_cons ((hrun ch tail).trans h) (Nat.le_of_lt_succ hk)

/-- Two contexts that differ in no component. -/
theorem Ctx.ext_marks {c d : Ctx σ} (hp : c.parser = d.parser) (hu : c.user = d.user)
    (hm : ∀ m, c.marks m = d.marks m) : c = d := by
  obtain ⟨p, u, ms⟩ := c
  obtain ⟨q, v, ns⟩ := d
  obtain rfl : p = q := hp
  obtain rfl : u = v := hu
  obtain rfl : ms = ns := funext hm
  rfl

/-- What a state's code makes of a buffer says what it makes of a longer one: the same; or it
has run to the end inside a name or a value; or, there, into the limit of the headers. -/
def Extends (f : UInt8 → Bytes → Nat × Flow σ) (ch : UInt8) (tail b : Bytes) : Prop :=
  (f ch (tail ++ b) = f ch tail ∧ (f ch tail).1 ≤ tail.length) ∨
  (∃ d, f ch tail = (tail.length, .next d) ∧ d.parser.state.inLoop = true) ∨
  ∃ k d, f ch tail = (k, .fail d .headerOverflow false) ∧ d.parser.state.inLoop = true

theorem headerFieldRun_extends {c : Ctx σ} (hst : c.parser.state = .headerField) (ch : UInt8)
    (tail b : Bytes) : Extends (fun ch tail => headerFieldRun s c (ch :: tail)) ch tail b := by
  rcases hr : c.parser.fieldLoop (ch :: tail) with ⟨p, n, stop⟩
  have hloop : p.state.inLoop = true := by
    have h := (c.parser.fieldLoop_same (ch :: tail)).state
    rw [hr] at h
    exact (congrArg _ (h.trans hst)).trans rfl
  unfold Extends headerFieldRun
  cases stop with
  | some x =>
    obtain ⟨hlt, hab⟩ := HttpParser.fieldLoop_append hr b
    rw [List.cons_append] at hab
    dsimp only
    rw [hr, hab]
    dsimp only
    rw [← List.cons_append, List.take_append_of_le_length (Nat.le_of_lt hlt)]
    exact .inl ⟨rfl, Nat.le_of_lt_succ hlt⟩
  | none =>
    obtain rfl := HttpParser.fieldLoop_ran hr
    refine .inr ?_
    dsimp only
    rw [hr]
    unfold Ctx.count
    dsimp only
    split
    · exact .inr ⟨_, _, rfl, hloop⟩
    · exact .inl ⟨_, rfl, hloop⟩

theorem headerValueRun_extends {c : Ctx σ} (hst : c.parser.state = .headerValue) (ch : UInt8)
    (tail b : Bytes) : Extends (fun ch tail => headerValueRun s c (ch :: tail)) ch tail b := by
  rcases hr : c.parser.valueLoop c.parser.headerState none (ch :: tail) with ⟨p, hs, n, stop⟩
  have hloop : p.state.inLoop = true := by
    have h := (c.parser.valueLoop_same c.parser.headerState none (ch :: tail)).state
    rw [hr] at h
    exact (congrArg _ (h.trans hst)).trans rfl
  unfold Extends headerValueRun
  rcases eq_or_ne stop .ran with rfl | hstop
  · obtain rfl := HttpParser.valueLoop_ran hr
    refine .inr ?_
    dsimp only
    rw [hr]
    unfold Ctx.count
    dsimp only
    split
    · exact .inr ⟨_, _, rfl, hloop⟩
    · exact .inl ⟨_, rfl, hloop⟩
  · obtain ⟨hlt, hab⟩ := HttpParser.valueLoop_append hr hstop b
    rw [List.cons_append] at hab
    refine .inl ?_
    dsimp only
    rw [hr, hab]
    dsimp only
    rw [← List.cons_append, List.take_append_of_le_length (Nat.le_of_lt hlt)]
    refine ⟨rfl, ?_⟩
    cases stop with
    | ran => exact absurd rfl hstop
    | cr | lf | bad e => exact Nat.le_of_lt_succ hlt

/-! ### Bodies -/

/-- The context of a body, so many bytes on. -/
def Ctx.inBody (c : Ctx σ) (n : Nat) : Ctx σ :=
  { c.mark .body with
    parser := { c.parser with contentLength := c.parser.contentLength - n } }

section Bodies
variable (F : s.Fragments)

omit F in
theorem callback_none {c : Ctx σ} {m : Mark} {more : Bytes} {past : Bool} {k : Ctx σ → Flow σ}
    (h : c.marks m = none) : c.callback s m more past k = k c := by
  unfold Ctx.callback
  rw [h]

omit F in
/-- The callback for the only mark that is set. -/
theorem callback_only {c : Ctx σ} {m : Mark} {span more : Bytes} {past : Bool}
    {k : Ctx σ → Flow σ} {u : σ} (h : c.marks m = some span)
    (hothers : ∀ m', m' ≠ m → c.marks m' = none)
    (hret : s.onData m c.parser (span ++ more) c.user = (u, 0)) :
    c.callback s m more past k = k { c with user := u, marks := fun _ => none } := by
  have hnone : Function.update c.marks m none = fun _ => none := by
    funext m'
    rcases eq_or_ne m' m with rfl | hm
    · exact Function.update_self ..
    · exact (Function.update_of_ne hm ..).trans (hothers m' hm)
  unfold Ctx.callback
  rw [h]
  dsimp only
  rw [hret, hnone]
  rfl

/-- The context behind a body that ends with these bytes. -/
def Ctx.bodyDone (c : Ctx σ) (data : Bytes) : Ctx σ where
  parser := { c.parser with contentLength := 0, state := .messageDone }
  user := F.body ((c.marks .body).getD [] ++ data) c.user
  marks _ := none

/-- The body is over in the buffer. -/
theorem bodyIdentityRun_full {c : Ctx σ} (h : c.Marked) (hst : c.parser.state = .bodyIdentity)
    {buf : Bytes} (hfull : c.parser.contentLength ≤ buf.length) :
    bodyIdentityRun s c buf = (c.parser.contentLength - 1,
      onMessageDone s (c.bodyDone F (buf.take c.parser.contentLength))) := by
  have hmin : min c.parser.contentLength buf.length = c.parser.contentLength := by omega
  have hbody : Mark.body.holds c.parser.state = true := by rw [hst]; rfl
  unfold bodyIdentityRun
  dsimp only [Ctx.parser_mark]
  rw [hmin, if_pos (Nat.sub_self _), Nat.sub_self]
  have hspan : (c.mark .body).marks .body = some ((c.marks .body).getD []) := c.mark_self .body
  exact congrArg (Prod.mk _) (callback_only hspan
    (fun m hm => (c.mark_of_ne hm).trans (h.only hbody hm)) (F.onBody ..))

omit F in
/-- The body is not over in the buffer. -/
theorem bodyIdentityRun_short {c : Ctx σ} {buf : Bytes}
    (h : buf.length < c.parser.contentLength) :
    bodyIdentityRun s c buf = (buf.length - 1, .next (c.inBody buf.length)) := by
  have hmin : min c.parser.contentLength buf.length = buf.length := by omega
  have hne : c.parser.contentLength - buf.length ≠ 0 := by omega
  unfold bodyIdentityRun
  dsimp only [Ctx.parser_mark]
  rw [hmin, if_neg hne]
  rfl

omit F in
theorem iteration_bodyIdentity {c : Ctx σ} (hst : c.parser.state = .bodyIdentity) (ch : UInt8)
    (tail : Bytes) : iteration s c ch tail = bodyIdentityRun s c (ch :: tail) := by
  simp [iteration, step, hst, State.parsingHeader]

omit F in
theorem iteration_bodyIdentityEof {c : Ctx σ} (hst : c.parser.state = .bodyIdentityEof)
    (ch : UInt8) (tail : Bytes) :
    iteration s c ch tail = bodyIdentityEofRun c (ch :: tail) := by
  simp [iteration, step, hst, State.parsingHeader]

omit F in
theorem iteration_chunkData {c : Ctx σ} (hst : c.parser.state = .chunkData) (ch : UInt8)
    (tail : Bytes) : iteration s c ch tail = chunkDataRun c (ch :: tail) := by
  simp [iteration, step, hst, State.parsingHeader]

omit F in
/-- A context without marks is the same behind any bytes. -/
theorem Ctx.Clean.advance {c : Ctx σ} (h : c.Clean) (seen : Bytes) : c.advance seen = c :=
  Ctx.ext_marks rfl rfl fun m => by simp [Ctx.advance, h.marks m]

theorem Flow.resume_of_sound {f : Flow σ} (h : f.Sound)
    (hst : ∀ d, f = .next d → ∀ m : Mark, m.holds d.parser.state = false) (x y rest : Bytes) :
    f.resume s x rest = f.resume s y rest := by
  cases f with
  | next d =>
    have hd : d.Clean := Ctx.Marked.clean h (hst d rfl)
    rw [Flow.resume, Flow.resume, hd.advance, hd.advance]
  | fail d e past => rfl
  | exit d => rfl

omit F in
theorem onMessageDone_unheld {c d : Ctx σ} (h : onMessageDone s c = .next d) (m : Mark) :
    m.holds d.parser.state = false := by
  have hst : d.parser.state.betweenMessages = true := by
    unfold onMessageDone Ctx.notify at h
    dsimp only at h
    split at h
    · split at h
      · cases h
      · cases h
        exact newMessage_between _
    · cases h
  revert hst
  cases d.parser.state <;> cases m <;> first | (intro; rfl) | rintro ⟨⟩

omit F in
/-- Bytes that are read in two parts or at once leave the same context. -/
theorem Ctx.Marked.inBody_inBody {c : Ctx σ} (h : c.Marked)
    (hst : Mark.body.holds c.parser.state = true) (x y : Bytes) :
    (((c.inBody x.length).advance x).inBody y.length).advance y =
      (c.inBody (x ++ y).length).advance (x ++ y) := by
  refine Ctx.ext_marks ?_ rfl fun m => ?_
  · simp [Ctx.advance, Ctx.inBody, Nat.sub_sub]
  · rcases eq_or_ne m .body with rfl | hm
    · simp [Ctx.advance, Ctx.inBody, Ctx.mark]
    · simp [Ctx.advance, Ctx.inBody, Ctx.mark, hm, h.only hst hm]

omit F in
/-- A state that runs ahead to the end of the buffer. -/
theorem loop_to_end {c d : Ctx σ} {buf : Bytes} {run : Bytes → Nat × Flow σ}
    (hrun : ∀ ch tail, iteration s c ch tail = run (ch :: tail)) (hne : buf ≠ [])
    (h : run buf = (buf.length - 1, .next d)) : loop s 0 c buf = .ran (d.advance buf) := by
  have hpos : 0 < buf.length := List.length_pos_of_ne_nil hne
  have hk : buf.length - 1 + 1 = buf.length := Nat.sub_add_cancel hpos
  rw [loop_run hrun hne h (by omega), hk, List.take_length, List.drop_length, Flow.resume, loop]

omit F in
theorem loop_bodyIdentity_short {c : Ctx σ} (hst : c.parser.state = .bodyIdentity) {buf : Bytes}
    (hne : buf ≠ []) (h : buf.length < c.parser.contentLength) :
    loop s 0 c buf = .ran ((c.inBody buf.length).advance buf) :=
  loop_to_end (iteration_bodyIdentity hst) hne (bodyIdentityRun_short h)

theorem loop_bodyIdentity_full {c : Ctx σ} (h : c.Marked) (hst : c.parser.state = .bodyIdentity)
    {buf : Bytes} (hfull : c.parser.contentLength ≤ buf.length) :
    loop s 0 c buf =
      (onMessageDone s (c.bodyDone F (buf.take c.parser.contentLength))).resume s []
        (buf.drop c.parser.contentLength) := by
  have hpos := h.data (.inl hst)
  have hne : buf ≠ [] := List.ne_nil_of_length_pos (Nat.lt_of_lt_of_le hpos hfull)
  have hk : c.parser.contentLength - 1 + 1 = c.parser.contentLength := Nat.sub_add_cancel hpos
  have hclean : (c.bodyDone F (buf.take c.parser.contentLength)).Clean :=
    ⟨fun _ => rfl, h.noError⟩
  rw [loop_run (iteration_bodyIdentity hst) hne (bodyIdentityRun_full F h hst hfull) (by omega), hk]
  exact Flow.resume_of_sound (onMessageDone_sound hclean)
    (fun e he m => onMessageDone_unheld he m) _ _ _

omit F in
/-- A body with a length that goes on behind a buffer.  In the state `st` the loop over a buffer
that ends inside the body runs to the end (`hshort`); over any other it goes on as `finish`
says, by the body's bytes and the rest (`hfull`), and for that it does not matter which of
the bytes were read before (`hfinish`). -/
theorem body_spans {st : State} (hst : Mark.body.holds st = true)
    (finish : Ctx σ → Bytes → Bytes → Outcome σ)
    (hshort : ∀ {c : Ctx σ} {buf : Bytes}, c.parser.state = st → buf ≠ [] →
      buf.length < c.parser.contentLength →
      loop s 0 c buf = .ran ((c.inBody buf.length).advance buf))
    (hfull : ∀ {c : Ctx σ} {buf : Bytes}, c.Marked → c.parser.state = st →
      c.parser.contentLength ≤ buf.length →
      loop s 0 c buf =
        finish c (buf.take c.parser.contentLength) (buf.drop c.parser.contentLength))
    (hfinish : ∀ {c : Ctx σ} (x y rest : Bytes), c.Marked → c.parser.state = st →
      finish c (x ++ y) rest = finish ((c.inBody x.length).advance x) y rest)
    {c : Ctx σ} (h : c.Marked) (hc : c.parser.state = st) {a : Bytes} (ha : a ≠ [])
    (hlt : a.length < c.parser.contentLength) (b : Bytes) :
    loop s 0 c (a ++ b) = loop s 0 ((c.inBody a.length).advance a) b := by
  have hbody : Mark.body.holds c.parser.state = true := by rw [hc]; exact hst
  have hdc : ((c.inBody a.length).advance a).parser.state = st := hc
  have hdlen : ((c.inBody a.length).advance a).parser.contentLength =
      c.parser.contentLength - a.length := rfl
  have hmarked : ((c.inBody a.length).advance a).Marked := by
    refine Ctx.Marked.advance (h.markBody hbody ?_ ?_ ?_ fun _ => Nat.sub_pos_of_lt hlt) a
    · rfl
    · rfl
    · exact hbody
  rcases Nat.lt_or_ge (a ++ b).length c.parser.contentLength with hin | hge
  · rw [hshort hc (by simp [ha]) hin]
    rcases eq_or_ne b [] with rfl | hb
    · rw [List.append_nil]
      rfl
    · rw [List.length_append] at hin
      rw [hshort hdc hb (by omega), ← h.inBody_inBody hbody]
  · rw [List.length_append] at hge
    have htake : (a ++ b).take c.parser.contentLength =
        a ++ b.take (c.parser.contentLength - a.length) := by
      rw [List.take_append, List.take_of_length_le (Nat.le_of_lt hlt)]
    have hdrop : (a ++ b).drop c.parser.contentLength =
        b.drop (c.parser.contentLength - a.length) := by
      rw [List.drop_append, List.drop_eq_nil_of_le (Nat.le_of_lt hlt), List.nil_append]
    rw [hfull h hc (by rwa [List.length_append]), htake, hdrop, hfinish a _ _ h hc,
      hfull hmarked hdc (by omega), hdlen]

include F in
/-- A body that goes on behind a buffer. -/
theorem bodyIdentity_spans {c : Ctx σ} (h : c.Marked) (hst : c.parser.state = .bodyIdentity)
    {a : Bytes} (ha : a ≠ []) (hshort : a.length < c.parser.contentLength) (b : Bytes) :
    loop s 0 c (a ++ b) = loop s 0 ((c.inBody a.length).advance a) b := by
  refine body_spans rfl
    (fun c data rest => (onMessageDone s (c.bodyDone F data)).resume s [] rest)
    (fun hc hne hlt => loop_bodyIdentity_short hc hne hlt)
    (fun hc hcst => loop_bodyIdentity_full F hc hcst)
    (fun {c} x y rest _ _ => ?_) h hst ha hshort b
  have hctx : c.bodyDone F (x ++ y) = ((c.inBody x.length).advance x).bodyDone F y := by
    refine Ctx.ext_marks rfl ?_ fun _ => rfl
    simp [Ctx.bodyDone, Ctx.advance, Ctx.inBody]
  rw [hctx]

omit F in
/-- The context behind the data of a chunk that ends with these bytes. -/
def Ctx.chunkDone (c : Ctx σ) (data : Bytes) : Ctx σ :=
  { c with
    parser := { c.parser with contentLength := 0, state := .chunkDataAlmostDone }
    marks := Function.update c.marks .body (some ((c.marks .body).getD [] ++ data)) }

omit F in
theorem loop_chunkData_short {c : Ctx σ} (hst : c.parser.state = .chunkData) {buf : Bytes}
    (hne : buf ≠ []) (h : buf.length < c.parser.contentLength) :
    loop s 0 c buf = .ran ((c.inBody buf.length).advance buf) := by
  have hmin : min c.parser.contentLength buf.length = buf.length := by omega
  have hleft : c.parser.contentLength - buf.length ≠ 0 := by omega
  refine loop_to_end (iteration_chunkData hst) hne ?_
  unfold chunkDataRun
  dsimp only [Ctx.parser_mark]
  rw [hmin, if_neg hleft]
  rfl

omit F in
theorem loop_chunkData_full {c : Ctx σ} (h : c.Marked) (hst : c.parser.state = .chunkData)
    {buf : Bytes} (hfull : c.parser.contentLength ≤ buf.length) :
    loop s 0 c buf =
      loop s 0 (c.chunkDone (buf.take c.parser.contentLength))
        (buf.drop c.parser.contentLength) := by
  have hpos := h.data (.inr hst)
  have hbody : Mark.body.holds c.parser.state = true := by rw [hst]; rfl
  have hne : buf ≠ [] := List.ne_nil_of_length_pos (Nat.lt_of_lt_of_le hpos hfull)
  have hk : c.parser.contentLength - 1 + 1 = c.parser.contentLength := Nat.sub_add_cancel hpos
  have hmin : min c.parser.contentLength buf.length = c.parser.contentLength := by omega
  have hrun : chunkDataRun c buf = (c.parser.contentLength - 1,
      .next ((c.inBody c.parser.contentLength).goto .chunkDataAlmostDone)) := by
    unfold chunkDataRun
    dsimp only [Ctx.parser_mark]
    rw [hmin, if_pos (Nat.sub_self _)]
    rfl
  rw [loop_run (iteration_chunkData hst) hne hrun (by omega), hk, Flow.resume]
  congr 1
  refine Ctx.ext_marks ?_ rfl fun m => ?_
  · simp [Ctx.advance, Ctx.goto, Ctx.inBody, Ctx.chunkDone]
  · rcases eq_or_ne m .body with rfl | hm
    · simp [Ctx.advance, Ctx.goto, Ctx.inBody, Ctx.chunkDone]
    · simp [Ctx.advance, Ctx.goto, Ctx.inBody, Ctx.chunkDone, Ctx.mark, hm, h.only hbody hm]

omit F in
/-- The data of a chunk that goes on behind a buffer. -/
theorem chunkData_spans {c : Ctx σ} (h : c.Marked) (hst : c.parser.state = .chunkData)
    {a : Bytes} (ha : a ≠ []) (hshort : a.length < c.parser.contentLength) (b : Bytes) :
    loop s 0 c (a ++ b) = loop s 0 ((c.inBody a.length).advance a) b := by
  refine body_spans rfl (fun c data rest => loop s 0 (c.chunkDone data) rest)
    (fun hc hne hlt => loop_chunkData_short hc hne hlt) (fun hc hcst => loop_chunkData_full hc hcst)
    (fun {c} x y rest hc hcst => ?_) h hst ha hshort b
  have hctx : c.chunkDone (x ++ y) = ((c.inBody x.length).advance x).chunkDone y := by
    refine Ctx.ext_marks rfl rfl fun m => ?_
    rcases eq_or_ne m .body with rfl | hm
    · simp [Ctx.chunkDone, Ctx.advance, Ctx.inBody]
    · have hnone := hc.only (m := .body) (by rw [hcst]; rfl) hm
      simp [Ctx.chunkDone, Ctx.advance, Ctx.inBody, Ctx.mark, hm, hnone]
  rw [hctx]

omit F in
theorem loop_bodyIdentityEof {c : Ctx σ} (hst : c.parser.state = .bodyIdentityEof) {buf : Bytes}
    (hne : buf ≠ []) : loop s 0 c buf = .ran ((c.mark .body).advance buf) :=
  loop_to_end (iteration_bodyIdentityEof hst) hne rfl

omit F in
theorem bodyIdentityEof_spans {c : Ctx σ} (h : c.Marked)
    (hst : c.parser.state = .bodyIdentityEof) {a : Bytes} (ha : a ≠ []) (b : Bytes) :
    loop s 0 c (a ++ b) = loop s 0 ((c.mark .body).advance a) b := by
  have hbody : Mark.body.holds c.parser.state = true := by rw [hst]; rfl
  have hdst : ((c.mark .body).advance a).parser.state = .bodyIdentityEof := hst
  rw [loop_bodyIdentityEof hst (by simp [ha])]
  rcases eq_or_ne b [] with rfl | hb
  · rw [List.append_nil]
    rfl
  · rw [loop_bodyIdentityEof hdst hb]
    refine congrArg _ (Ctx.ext_marks rfl rfl fun m => ?_)
    rcases eq_or_ne m .body with rfl | hm
    · simp [Ctx.advance]
    · simp [Ctx.advance, Ctx.mark, hm, h.only hbody hm]

omit F in
theorem bodyIdentityRun_append {c : Ctx σ} {a : Bytes} (h : c.parser.contentLength ≤ a.length)
    (b : Bytes) : bodyIdentityRun s c (a ++ b) = bodyIdentityRun s c a := by
  have hmin : min c.parser.contentLength a.length = c.parser.contentLength := by omega
  have hmin' : min c.parser.contentLength (a ++ b).length = c.parser.contentLength := by
    rw [List.length_append]
    omega
  unfold bodyIdentityRun
  dsimp only [Ctx.parser_mark]
  rw [hmin, hmin', List.take_append_of_le_length h]

omit F in
theorem chunkDataRun_append {c : Ctx σ} {a : Bytes} (h : c.parser.contentLength ≤ a.length)
    (b : Bytes) : chunkDataRun c (a ++ b) = chunkDataRun c a := by
  have hmin : min c.parser.contentLength a.length = c.parser.contentLength := by omega
  have hmin' : min c.parser.contentLength (a ++ b).length = c.parser.contentLength := by
    rw [List.length_append]
    omega
  unfold chunkDataRun
  rw [hmin, hmin']

/-- A step, unless it is that of a body that goes on behind the buffer. -/
theorem step_extends (c : Ctx σ) (ch : UInt8) (tail b : Bytes)
    (heof : c.parser.state ≠ .bodyIdentityEof)
    (hfull : c.parser.state = .bodyIdentity ∨ c.parser.state = .chunkData →
      c.parser.contentLength ≤ (ch :: tail).length) : Extends (step s c) ch tail b := by
  cases hst : c.parser.state
  case headerField =>
    have hstep : step s c = fun ch tail => headerFieldRun s c (ch :: tail) := by
      funext ch tail
      simp only [step, hst]
    rw [hstep]
    exact headerFieldRun_extends hst ch tail b
  case headerValue =>
    have hstep : step s c = fun ch tail => headerValueRun s c (ch :: tail) := by
      funext ch tail
      simp only [step, hst]
    rw [hstep]
    exact headerValueRun_extends hst ch tail b
  case bodyIdentity =>
    have hlen := hfull (.inl hst)
    refine .inl ?_
    simp only [step, hst]
    refine ⟨bodyIdentityRun_append hlen b, ?_⟩
    have hmin : min c.parser.contentLength (ch :: tail).length - 1 ≤ tail.length :=
      Nat.sub_le_of_le_add (Nat.min_le_right ..)
    exact hmin
  case bodyIdentityEof => exact absurd hst heof
  case chunkData =>
    have hlen := hfull (.inr hst)
    refine .inl ?_
    simp only [step, hst]
    refine ⟨chunkDataRun_append hlen b, ?_⟩
    have hmin : min c.parser.contentLength (ch :: tail).length - 1 ≤ tail.length :=
      Nat.sub_le_of_le_add (Nat.min_le_right ..)
    exact hmin
  all_goals
    refine .inl ?_
    simp only [step, hst]
    exact ⟨trivial, Nat.zero_le _⟩

theorem iteration_extends (c : Ctx σ) (ch : UInt8) (tail b : Bytes)
    (heof : c.parser.state ≠ .bodyIdentityEof)
    (hfull : c.parser.state = .bodyIdentity ∨ c.parser.state = .chunkData →
      c.parser.contentLength ≤ (ch :: tail).length) : Extends (iteration s c) ch tail b := by
  unfold Extends iteration
  dsimp only
  split
  · split
    · exact .inl ⟨rfl, Nat.zero_le _⟩
    · refine step_extends _ ch tail b ?_ ?_
      · exact heof
      · exact hfull
  · exact step_extends c ch tail b heof hfull

include F in
/-- **The loop over a longer buffer.**  Where the loop over `a` has left, so does the loop over
`a ++ b`; where it has run to the end, the latter goes on from there with `b`.  Only the
loops over a name and a value may notice. -/
theorem loop_append {c : Ctx σ} (h : c.Marked) (a b : Bytes) :
    (∀ d u, loop s 0 c a = .left d u →
      (d.parser.state.inLoop = true → d.parser.httpErrno ≠ some .headerOverflow) →
      ∃ u', loop s 0 c (a ++ b) = .left d u') ∧
    ∀ d, loop s 0 c a = .ran d → d.parser.state.inLoop = false →
      loop s 0 c (a ++ b) = loop s 0 d b := by
  induction hn : a.length using Nat.strongRecOn generalizing a c with
  | ind n ih =>
  subst hn
  cases a with
  | nil =>
    refine ⟨fun d u hl => ?_, fun d hl _ => ?_⟩
    · cases hl
    · cases hl
      rfl
  | cons ch tail =>
    have hne : ch :: tail ≠ [] := List.cons_ne_nil ch tail
    -- a body that goes on behind `a`
    have spans : ∀ d, (∀ b, loop s 0 c (ch :: tail ++ b) = loop s 0 d b) →
        (∀ e u, loop s 0 c (ch :: tail) = .left e u →
          (e.parser.state.inLoop = true → e.parser.httpErrno ≠ some .headerOverflow) →
          ∃ u', loop s 0 c (ch :: tail ++ b) = .left e u') ∧
        ∀ e, loop s 0 c (ch :: tail) = .ran e → e.parser.state.inLoop = false →
          loop s 0 c (ch :: tail ++ b) = loop s 0 e b := by
      intro d hd
      have hnil : loop s 0 c (ch :: tail) = .ran d := by
        have h := hd []
        rwa [List.append_nil] at h
      rw [hnil]
      refine ⟨fun e u he => ?_, fun e he _ => ?_⟩
      · cases he
      · cases he
        exact hd b
    by_cases heof : c.parser.state = .bodyIdentityEof
    · exact spans _ (bodyIdentityEof_spans h heof hne)
    by_cases hshort : (c.parser.state = .bodyIdentity ∨ c.parser.state = .chunkData) ∧
        (ch :: tail).length < c.parser.contentLength
    · rcases hshort with ⟨hst | hst, hlt⟩
      · exact spans _ (bodyIdentity_spans F h hst hne hlt)
      · exact spans _ (chunkData_spans h hst hne hlt)
    have hfull : c.parser.state = .bodyIdentity ∨ c.parser.state = .chunkData →
        c.parser.contentLength ≤ (ch :: tail).length :=
      fun hst => Nat.le_of_not_lt fun hlt => hshort ⟨hst, hlt⟩
    rcases hiter : iteration s c ch tail with ⟨k, f⟩
    have hsound := iteration_sound (s := s) h ch tail
    rw [hiter] at hsound
    rcases iteration_extends (s := s) c ch tail b heof hfull with
      ⟨heq, hk⟩ | ⟨d, heq, hst⟩ | ⟨j, d, heq, hst⟩
    · rw [hiter] at heq hk
      have hk' : k ≤ (tail ++ b).length := by
        rw [List.length_append]
        exact Nat.le_add_right_of_le hk
      have hk1 : k + 1 ≤ (ch :: tail).length := Nat.succ_le_succ hk
      rw [loop_cons hiter hk, List.cons_append, loop_cons heq hk', ← List.cons_append,
        List.take_append_of_le_length hk1, List.drop_append_of_le_length hk1]
      cases f with
      | next e =>
        refine ih _ ?_ (Ctx.Marked.advance hsound _) _ rfl
        rw [List.length_drop, List.length_cons]
        omega
      | fail e err past =>
        refine ⟨fun d u hl _ => ?_, fun d hl => ?_⟩
        · cases hl
          exact ⟨_, rfl⟩
        · cases hl
      | exit e =>
        refine ⟨fun d u hl _ => ?_, fun d hl => ?_⟩
        · cases hl
          exact ⟨_, rfl⟩
        · cases hl
    · have hran := loop_cons heq (Nat.le_refl _)
      have hdrop : (ch :: tail).drop (tail.length + 1) = [] := List.drop_length
      rw [Flow.resume, hdrop, loop] at hran
      rw [hran]
      refine ⟨fun e u he => ?_, fun e he hnot => ?_⟩
      · cases he
      · cases he
        exact absurd (hst.symm.trans hnot) (by decide)
    · rw [loop, heq]
      refine ⟨fun e u he hover => ?_, fun e he => ?_⟩
      · cases he
        exact absurd rfl (hover hst)
      · cases he

end Bodies

end Longer

end Sylar.Http
