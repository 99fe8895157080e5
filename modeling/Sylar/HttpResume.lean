import Sylar.HttpSeams

/-! # Calls that resume each other

The other half of a cut at a seam: what a call leaves behind once its loop has ended, and
how the next call takes it up.  A reason phrase and a body were handed over with the mark
that was left; the next call begins with a new mark, or with none
(`status_resumes`, `body_resumes`).  With `loop_append` that is `execute_append`: a call with
`a ++ b` does what a call with `a` and one with `b` do, if `a` ends at a seam.  In a stream
without an error only the state decides whether that is so (`seam_of_no_error`). -/
namespace Sylar.Http

section Resumption
variable {σ : Type} {s : Settings σ} (F : s.Fragments)

/-- What a call leaves behind once the loop has ended. -/
def Outcome.session (s : Settings σ) (o : Outcome σ) : Session σ := (o.close s 0).1

omit F in
theorem close_session (o : Outcome σ) (len : Nat) : (o.close s len).1 = o.session s := by
  cases o with
  | left c u => rfl
  | ran c =>
    unfold Outcome.session Outcome.close
    dsimp only
    split <;> rfl

/-- The user, once the body up to here has been handed over. -/
def Ctx.settled (c : Ctx σ) : σ :=
  match c.marks .body with
  | none => c.user
  | some span => F.body span c.user

theorem settled_more (c : Ctx σ) (more : Bytes) :
    F.body ((c.marks .body).getD [] ++ more) c.user = F.body more (c.settled F) := by
  unfold Ctx.settled
  cases c.marks .body with
  | none => rfl
  | some span => exact (F.body_append span more c.user).symm

/-- At most the mark of a body is left over. -/
theorem session_settled {c : Ctx σ} (hothers : ∀ m, m ≠ .body → c.marks m = none) :
    (Outcome.ran c).session s = (c.parser, c.settled F) := by
  have hflush : flush s c =
      .next { c with user := c.settled F, marks := fun _ => none } := by
    rw [flush, callback_none (hothers .headerField (by decide)),
      callback_none (hothers .headerValue (by decide)), callback_none (hothers .url (by decide))]
    unfold Ctx.settled
    cases h : c.marks .body with
    | none =>
      rw [callback_none h, callback_none (hothers .status (by decide))]
      refine congrArg _ (Ctx.ext_marks rfl rfl fun m => ?_)
      rcases eq_or_ne m .body with rfl | hm
      · exact h
      · exact hothers m hm
    | some span =>
      have hret : s.onData .body c.parser (span ++ []) c.user = (F.body span c.user, 0) := by
        rw [List.append_nil, F.onBody]
      rw [callback_only h hothers hret, callback_none rfl]
  simp only [Outcome.session, Outcome.close, hflush]

/-- The mark of a reason phrase is left over. -/
theorem session_status {c : Ctx σ} {span : Bytes} (h : c.marks .status = some span)
    (hothers : ∀ m, m ≠ .status → c.marks m = none) :
    (Outcome.ran c).session s = (c.parser, F.status c.parser.statusCode c.user) := by
  have hret := F.onStatus c.parser (span ++ []) c.user
  have hflush : flush s c =
      .next { c with user := F.status c.parser.statusCode c.user, marks := fun _ => none } := by
    rw [flush, callback_none (hothers .headerField (by decide)),
      callback_none (hothers .headerValue (by decide)), callback_none (hothers .url (by decide)),
      callback_none (hothers .body (by decide)), callback_only h hothers hret]
  simp only [Outcome.session, Outcome.close, hflush]

omit F in
theorem iteration_resStatus {c : Ctx σ} (hst : c.parser.state = .resStatus)
    (hn : c.parser.nread + 1 ≤ maxHeaderSize) (ch : UInt8) (tail : Bytes) :
    iteration s c ch tail = (0, onResStatus s
      { c with parser := { c.parser with nread := c.parser.nread + 1 } } ch) := by
  have hmod : (c.parser.nread + 1) % 2 ^ 32 = c.parser.nread + 1 :=
    Nat.mod_eq_of_lt (Nat.lt_of_le_of_lt hn (by decide))
  have hheader : c.parser.state.parsingHeader = true := by rw [hst]; rfl
  unfold iteration
  rw [if_pos hheader, hmod]
  dsimp only
  rw [if_neg (Nat.not_lt.mpr hn)]
  simp only [step, byteStep, hst]

/-- The end of a reason phrase. -/
theorem onResStatus_end {c : Ctx σ} {ch : UInt8} (hch : ch = CR ∨ ch = LF) {span : Bytes}
    (h : c.marks .status = some span) (hothers : ∀ m, m ≠ .status → c.marks m = none) :
    onResStatus s c ch = .next
      { parser := { c.parser with
          state := if ch = CR then .resLineAlmostDone else .headerFieldStart }
        user := F.status c.parser.statusCode c.user
        marks := fun _ => none } := by
  unfold onResStatus
  split
  · exact callback_only (s := s) (c := c.goto .resLineAlmostDone) h hothers (F.onStatus ..)
  · rw [if_pos (hch.resolve_left ‹_›)]
    exact callback_only (s := s) (c := c.goto .headerFieldStart) h hothers (F.onStatus ..)

omit F in
theorem onResStatus_more {c : Ctx σ} {ch : UInt8} (hch : ¬ (ch = CR ∨ ch = LF)) :
    onResStatus s c ch = .next c := by
  rw [not_or] at hch
  rw [onResStatus, if_neg hch.1, if_neg hch.2]

/-- A reason phrase whose first part was handed over, `c` with its mark since there and `d`
with a mark of this buffer. -/
structure StatusBehind (c d : Ctx σ) : Prop where
  state : c.parser.state = .resStatus
  parser : d.parser = c.parser
  user : d.user = F.status c.parser.statusCode c.user
  mark : c.marks .status ≠ none
  mark' : d.marks .status ≠ none
  others : ∀ m, m ≠ .status → c.marks m = none ∧ d.marks m = none

/-- **A reason phrase is resumed.** -/
theorem status_resumes {c d : Ctx σ} (h : StatusBehind F c d) (b : Bytes)
    (hcloses : c.parser.nread + min ((phrase b).length + 1) b.length ≤ maxHeaderSize) :
    (loop s 0 c b).session s = (loop s 0 d b).session s := by
  induction b generalizing c d with
  | nil =>
    obtain ⟨x, hx⟩ := Option.ne_none_iff_exists'.mp h.mark
    obtain ⟨y, hy⟩ := Option.ne_none_iff_exists'.mp h.mark'
    rw [loop, loop, session_status F hx fun m hm => (h.others m hm).1,
      session_status F hy fun m hm => (h.others m hm).2, h.user, h.parser, F.status_status]
  | cons ch tail ih =>
    have hlen : (ch :: tail).length = tail.length + 1 := rfl
    have hn : c.parser.nread + 1 ≤ maxHeaderSize := by
      rw [hlen] at hcloses
      omega
    have hstd : d.parser.state = .resStatus := by rw [h.parser, h.state]
    have hnd : d.parser.nread + 1 ≤ maxHeaderSize := by rw [h.parser]; exact hn
    have hc := iteration_resStatus (s := s) h.state hn ch tail
    have hd := iteration_resStatus (s := s) hstd hnd ch tail
    obtain ⟨x, hx⟩ := Option.ne_none_iff_exists'.mp h.mark
    obtain ⟨y, hy⟩ := Option.ne_none_iff_exists'.mp h.mark'
    by_cases hend : ch = CR ∨ ch = LF
    · -- the phrase is over, and both callbacks have read the same status
      have hcend := onResStatus_end F
        (c := { c with parser := { c.parser with nread := c.parser.nread + 1 } }) hend hx
        fun m hm => (h.others m hm).1
      have hdend := onResStatus_end F
        (c := { d with parser := { d.parser with nread := d.parser.nread + 1 } }) hend hy
        fun m hm => (h.others m hm).2
      rw [loop_cons (hc.trans (congrArg _ hcend)) (Nat.zero_le _),
        loop_cons (hd.trans (congrArg _ hdend)) (Nat.zero_le _), h.parser, h.user,
        F.status_status]
    · rw [onResStatus_more hend] at hc hd
      rw [loop_cons hc (Nat.zero_le _), loop_cons hd (Nat.zero_le _)]
      refine ih ⟨h.state, ?_, h.user, ?_, ?_, fun m hm => ?_⟩ ?_
      · show { d.parser with nread := d.parser.nread + 1 } = _
        rw [h.parser]
        rfl
      · simp [Ctx.advance, hx]
      · simp [Ctx.advance, hy]
      · simp [Ctx.advance, h.others m hm]
      · have hphrase : (phrase (ch :: tail)).length = (phrase tail).length + 1 := by
          rw [not_or] at hend
          simp [phrase, hend.1, hend.2]
        rw [hphrase, hlen] at hcloses
        show c.parser.nread + 1 + min ((phrase tail).length + 1) tail.length ≤ maxHeaderSize
        omega

/-! ### Bodies -/

/-- Two contexts inside a body whose part up to here was handed over, or is to be, with one
outcome. -/
structure BodyBehind (c d : Ctx σ) : Prop where
  marked : c.Marked
  body : Mark.body.holds c.parser.state = true
  parser : d.parser = c.parser
  settled : d.settled F = c.settled F
  others : ∀ m, m ≠ .body → d.marks m = none

variable {F}

theorem BodyBehind.marked' {c d : Ctx σ} (h : BodyBehind F c d) : d.Marked where
  marks m hm := by
    refine h.others m ?_
    rintro rfl
    rw [h.parser, h.body] at hm
    cases hm
  status hst := by
    have hbody := h.body
    rw [h.parser] at hst
    rw [hst] at hbody
    cases hbody
  data hst := by
    rw [h.parser] at hst ⊢
    exact h.marked.data hst
  noError := by
    rw [h.parser]
    exact h.marked.noError

theorem BodyBehind.more {c d : Ctx σ} (h : BodyBehind F c d) (more : Bytes) :
    F.body ((c.marks .body).getD [] ++ more) c.user =
      F.body ((d.marks .body).getD [] ++ more) d.user := by
  rw [settled_more, settled_more, h.settled]

theorem BodyBehind.session {c d : Ctx σ} (h : BodyBehind F c d) :
    (Outcome.ran c).session s = (Outcome.ran d).session s := by
  rw [session_settled F fun m hm => h.marked.only h.body hm, session_settled F h.others,
    h.parser, h.settled]

/-- Both bodies go on, by the same bytes. -/
theorem BodyBehind.grow {c d c' d' : Ctx σ} (h : BodyBehind F c d) {y : Bytes}
    (hc : c'.Marked) (hst : Mark.body.holds c'.parser.state = true) (hp : d'.parser = c'.parser)
    (hcu : c'.user = c.user) (hdu : d'.user = d.user)
    (hcm : c'.marks .body = some ((c.marks .body).getD [] ++ y))
    (hdm : d'.marks .body = some ((d.marks .body).getD [] ++ y))
    (hothers : ∀ m, m ≠ .body → d'.marks m = d.marks m) : BodyBehind F c' d' where
  marked := hc
  body := hst
  parser := hp
  settled := by
    unfold Ctx.settled
    rw [hcm, hdm, hcu, hdu]
    exact (h.more y).symm
  others m hm := (hothers m hm).trans (h.others m hm)

/-- The body is not over behind these bytes. -/
theorem BodyBehind.inBody {c d : Ctx σ} (h : BodyBehind F c d) (n : Nat) (y : Bytes)
    (hdata : c.parser.state = .bodyIdentity ∨ c.parser.state = .chunkData →
      n < c.parser.contentLength) :
    BodyBehind F ((c.inBody n).advance y) ((d.inBody n).advance y) := by
  have hc : (c.inBody n).Marked := by
    refine h.marked.markBody h.body ?_ ?_ ?_ fun hst => Nat.sub_pos_of_lt (hdata hst)
    · rfl
    · rfl
    · exact h.body
  refine h.grow (y := y) (hc.advance y) h.body ?_ rfl rfl ?_ ?_ fun m hm => ?_
  · show { d.parser with contentLength := d.parser.contentLength - n } = _
    rw [h.parser]
    rfl
  · simp [Ctx.advance, Ctx.inBody]
  · simp [Ctx.advance, Ctx.inBody]
  · simp [Ctx.advance, Ctx.inBody, Ctx.mark, hm, h.others m hm]

/-- The data of the chunk is over behind these bytes. -/
theorem BodyBehind.chunkDone {c d : Ctx σ} (h : BodyBehind F c d) (y : Bytes) :
    BodyBehind F (c.chunkDone y) (d.chunkDone y) := by
  have hspan : ∀ e : Ctx σ, (e.chunkDone y).marks .body = some ((e.marks .body).getD [] ++ y) :=
    fun e => Function.update_self Mark.body _ e.marks
  have hothers : ∀ e : Ctx σ, ∀ m, m ≠ .body → (e.chunkDone y).marks m = e.marks m :=
    fun e m hm => Function.update_of_ne hm _ e.marks
  have hc : (c.chunkDone y).Marked := by
    refine ⟨fun m hm => ?_, fun hst => ?_, fun hst => ?_, h.marked.noError⟩
    · have hne : m ≠ .body := by
        rintro rfl
        cases hm
      rw [hothers c m hne, h.marked.only h.body hne]
    · cases hst
    · rcases hst with hst | hst <;> cases hst
  refine h.grow (y := y) hc rfl ?_ rfl rfl (hspan c) (hspan d) (hothers d)
  show { d.parser with contentLength := 0, state := .chunkDataAlmostDone } = _
  rw [h.parser]
  rfl

/-- The last byte of the data of a chunk was read: the next is its `CR`. -/
theorem chunkEnd_resumes {c d : Ctx σ} (h : BodyBehind F c d)
    (hst : c.parser.state = .chunkDataAlmostDone) (b : Bytes)
    (hcloses : b.head?.all (· == CR) = true) :
    (loop s 0 c b).session s = (loop s 0 d b).session s := by
  cases b with
  | nil => exact h.session
  | cons ch tail =>
    obtain rfl : ch = CR := beq_iff_eq.mp hcloses
    have hiter : ∀ e : Ctx σ, e.parser.state = .chunkDataAlmostDone →
        (∀ m, m ≠ .body → e.marks m = none) →
        iteration s e CR tail = (0, .next
          { parser := { e.parser with state := .chunkDataDone }
            user := e.settled F
            marks := fun _ => none }) := by
      intro e he hothers
      have hbyte : iteration s e CR tail =
          (0, (e.goto .chunkDataDone).callback s .body [] true .next) := by
        simp [iteration, step, byteStep, he, State.parsingHeader]
      rw [hbyte]
      refine congrArg (Prod.mk 0) ?_
      unfold Ctx.settled
      cases hm : e.marks .body with
      | none =>
        have hnone : ∀ m, e.marks m = none := by
          intro m
          rcases eq_or_ne m .body with rfl | hne
          · exact hm
          · exact hothers m hne
        rw [callback_none (c := e.goto .chunkDataDone) hm]
        exact congrArg _ (Ctx.ext_marks rfl rfl hnone)
      | some span =>
        have hret : s.onData .body (e.goto .chunkDataDone).parser (span ++ []) e.user =
            (F.body span e.user, 0) := by
          rw [List.append_nil, F.onBody]
        exact callback_only (c := e.goto .chunkDataDone) hm hothers hret
    have hc := hiter c hst fun m hm => h.marked.only h.body hm
    have hd := hiter d (by rw [h.parser, hst]) h.others
    rw [loop_cons hc (Nat.zero_le _), loop_cons hd (Nat.zero_le _), h.parser, h.settled]

/-- **A body is resumed.** -/
theorem body_resumes {c d : Ctx σ} (h : BodyBehind F c d) {b : Bytes} (hb : b ≠ [])
    (hcloses : spanCloses c.parser b = true) :
    (loop s 0 c b).session s = (loop s 0 d b).session s := by
  have hbody := h.body
  have hdm := h.marked'
  have hothers : ∀ m, m ≠ .body → c.marks m = none := fun m hm => h.marked.only hbody hm
  have hlen : d.parser.contentLength = c.parser.contentLength := by rw [h.parser]
  cases hst : c.parser.state
  case bodyIdentity =>
    have hstd : d.parser.state = .bodyIdentity := by rw [h.parser, hst]
    rcases Nat.lt_or_ge b.length c.parser.contentLength with hlt | hge
    · rw [loop_bodyIdentity_short hst hb hlt, loop_bodyIdentity_short hstd hb (hlen ▸ hlt)]
      exact (h.inBody b.length b fun _ => hlt).session
    · have hctx : c.bodyDone F (b.take c.parser.contentLength) =
          d.bodyDone F (b.take c.parser.contentLength) := by
        refine Ctx.ext_marks ?_ (h.more _) fun _ => rfl
        simp only [Ctx.bodyDone, h.parser]
      rw [loop_bodyIdentity_full F h.marked hst hge,
        loop_bodyIdentity_full F hdm hstd (hlen ▸ hge), hlen, hctx]
  case bodyIdentityEof =>
    have hstd : d.parser.state = .bodyIdentityEof := by rw [h.parser, hst]
    rw [loop_bodyIdentityEof hst hb, loop_bodyIdentityEof hstd hb]
    refine (h.inBody 0 b fun hdata => ?_).session
    exact h.marked.data hdata
  case chunkData =>
    have hstd : d.parser.state = .chunkData := by rw [h.parser, hst]
    rcases Nat.lt_or_ge b.length c.parser.contentLength with hlt | hge
    · rw [loop_chunkData_short hst hb hlt, loop_chunkData_short hstd hb (hlen ▸ hlt)]
      exact (h.inBody b.length b fun _ => hlt).session
    · rw [loop_chunkData_full h.marked hst hge, loop_chunkData_full hdm hstd (hlen ▸ hge), hlen]
      refine chunkEnd_resumes (h.chunkDone _) rfl _ ?_
      unfold spanCloses at hcloses
      rw [hst] at hcloses
      rw [List.head?_drop]
      exact hcloses
  case chunkDataAlmostDone =>
    refine chunkEnd_resumes h hst b ?_
    unfold spanCloses at hcloses
    rw [hst] at hcloses
    exact hcloses
  all_goals
    rw [hst] at hbody
    cases hbody

/-! ## Calls -/

/-- The parsers that calls with bytes lead to: a body with a length is not at its end. -/
def Ready (p : HttpParser) : Prop :=
  p.httpErrno = none → p.state = .bodyIdentity ∨ p.state = .chunkData → 0 < p.contentLength

theorem ready_init (t : ParserType) : Ready (HttpParser.init t) := by
  intro _ hst
  cases t <;> rcases hst with hst | hst <;> cases hst

/-- The variables at the beginning of a call. -/
def Ctx.enter (p : HttpParser) (u : σ) : Ctx σ where
  parser := p
  user := u
  marks := openMarks p.state

theorem execute_eq {p : HttpParser} (u : σ) {data : Bytes} (herr : p.httpErrno = none)
    (hne : data ≠ []) :
    execute s (p, u) data = (loop s 0 (Ctx.enter p u) data).close s data.length := by
  unfold execute
  simp only [herr, ne_eq, not_true_eq_false, if_false, hne]
  rfl

theorem execute_failed {p : HttpParser} (u : σ) (data : Bytes) (herr : p.httpErrno ≠ none) :
    execute s (p, u) data = ((p, u), 0) := by
  unfold execute
  simp only [if_pos herr]

theorem openMarks_none {m : Mark} {st : State} (h : m.holds st = false) :
    openMarks st m = none := by
  cases m with
  | body => rfl
  | headerField | headerValue | status =>
    simp only [Mark.holds, beq_eq_false_iff_ne] at h
    exact if_neg h
  | url =>
    refine if_neg ?_
    rw [show st.inUrl = false from h]
    decide

theorem openMarks_other {m m' : Mark} {st : State} (h : m.holds st = true) (hm : m' ≠ m) :
    openMarks st m' = none :=
  openMarks_none (Bool.of_not_eq_true fun h' => hm (Mark.holds_unique h h'))

theorem Ready.marked {p : HttpParser} (h : Ready p) (herr : p.httpErrno = none) (u : σ) :
    (Ctx.enter p u).Marked where
  marks m hm := openMarks_none hm
  status hst := by
    have hopen : (Ctx.enter p u).marks .status = some [] := if_pos hst
    rw [hopen]
    exact Option.some_ne_none _
  data := h herr
  noError := herr

/-- What the callbacks for the marks that are left over do to the parser. -/
def Flow.Flushed (p : HttpParser) : Flow σ → Prop
  | .next c => c.parser = p
  | .fail c e _ => c.parser = p ∧ ∃ m, e = .cbData m
  | .exit _ => False

theorem callback_flushed {p : HttpParser} {c : Ctx σ} {m : Mark} {past : Bool}
    {k : Ctx σ → Flow σ} (hc : c.parser = p)
    (hk : ∀ d : Ctx σ, d.parser = p → (k d).Flushed p) :
    (c.callback s m [] past k).Flushed p := by
  unfold Ctx.callback
  split
  · exact hk c hc
  · dsimp only
    split
    · exact hk _ hc
    · exact ⟨hc, m, rfl⟩

theorem flush_flushed (c : Ctx σ) : (flush s c).Flushed c.parser := by
  unfold flush
  refine callback_flushed rfl fun c hc => ?_
  refine callback_flushed hc fun c hc => ?_
  refine callback_flushed hc fun c hc => ?_
  refine callback_flushed hc fun c hc => ?_
  exact callback_flushed hc fun c hc => hc

/-- A loop that has run to the end leaves the parser to the next call, or a data callback
has failed. -/
theorem session_ran (c : Ctx σ) :
    ∃ e, ((Outcome.ran c).session s).1 = { c.parser with httpErrno := e } ∧
      (e = c.parser.httpErrno ∨ ∃ m, e = some (.cbData m)) := by
  have hflushed := flush_flushed (s := s) c
  unfold Outcome.session
  cases hf : flush s c with
  | next d =>
    rw [hf] at hflushed
    refine ⟨c.parser.httpErrno, ?_, .inl rfl⟩
    simp only [Outcome.close, hf]
    exact hflushed
  | fail d e past =>
    rw [hf] at hflushed
    obtain ⟨hp, m, rfl⟩ := hflushed
    refine ⟨some (.cbData m), ?_, .inr ⟨m, rfl⟩⟩
    simp only [Outcome.close, hf, hp]
  | exit d =>
    rw [hf] at hflushed
    exact hflushed.elim

theorem close_ran (c : Ctx σ) (len : Nat) :
    (Outcome.ran c).close s len = ((Outcome.ran c).session s, len) := by
  refine Prod.ext (close_session ..) ?_
  unfold Outcome.close
  dsimp only
  split <;> rfl

/-- What a call with bytes does where no error was found before: its loop leaves with an error
or behind a message that switches protocols, or it runs to the end. -/
theorem execute_cases {p : HttpParser} (h : Ready p) (herr : p.httpErrno = none) (u : σ)
    {data : Bytes} (hne : data ≠ []) :
    (∃ d n, loop s 0 (Ctx.enter p u) data = .left d n ∧
      (execute s (p, u) data).1 = (d.parser, d.user) ∧
      (d.parser.httpErrno ≠ none ∨
        (d.parser.upgrade = true ∧ d.parser.state.betweenMessages = true))) ∨
    ∃ d, loop s 0 (Ctx.enter p u) data = .ran d ∧
      execute s (p, u) data = ((Outcome.ran d).session s, data.length) ∧ d.Marked := by
  have hsound := loop_sound (s := s) (h.marked herr u) 0 data
  rw [execute_eq u herr hne]
  cases hl : loop s 0 (Ctx.enter p u) data with
  | left d n =>
    rw [hl] at hsound
    exact .inl ⟨d, n, rfl, rfl, hsound⟩
  | ran d =>
    rw [hl] at hsound
    exact .inr ⟨d, rfl, close_ran d data.length, hsound⟩

/-- **A call with bytes leaves a parser that the next call can take up.** -/
theorem execute_ready {st : Session σ} (h : Ready st.1) {data : Bytes} (hne : data ≠ []) :
    Ready (execute s st data).1.1 := by
  obtain ⟨p, u⟩ := st
  by_cases herr : p.httpErrno = none
  · rcases execute_cases (s := s) h herr u hne with ⟨d, n, -, hcall, hleft⟩ | ⟨d, -, hcall, hd⟩
    · rw [hcall]
      intro hnone hst
      have hbetween := (hleft.resolve_left (not_not.mpr hnone)).2
      rcases hst with hst | hst <;> rw [hst] at hbetween <;> cases hbetween
    · obtain ⟨e, heq, -⟩ := session_ran (s := s) d
      rw [hcall, heq]
      intro _
      exact hd.data
  · rw [execute_failed u data herr]
    exact h

/-- Errors stay. -/
theorem no_error_before {st : Session σ} {data : Bytes}
    (herr : (execute s st data).1.1.httpErrno = none) : st.1.httpErrno = none := by
  by_contra hsome
  rw [show execute s st data = (st, 0) from execute_failed st.2 data hsome] at herr
  exact hsome herr

/-- A call that found no error, and no end of the protocol, has parsed all bytes. -/
theorem execute_parsed {st : Session σ} (h : Ready st.1) {data : Bytes} (hne : data ≠ [])
    (herr : (execute s st data).1.1.httpErrno = none)
    (hup : ¬ ((execute s st data).1.1.upgrade = true ∧
      (execute s st data).1.1.state.betweenMessages = true)) :
    (execute s st data).2 = data.length := by
  have hp := no_error_before herr
  rcases execute_cases (s := s) h hp st.2 hne with ⟨d, n, -, hcall, hleft⟩ | ⟨d, -, hcall, -⟩
  · rw [show (execute s st data).1 = (d.parser, d.user) from hcall] at herr hup
    exact absurd (hleft.resolve_left (not_not.mpr herr)) hup
  · exact congrArg Prod.snd hcall

omit F in
/-- A cut at a seam, behind a loop that has run to the end, is in no URL, name or value: a
callback that fails there is that of one of these. -/
theorem Seam.not_torn {d : Ctx σ} (h : d.Marked) {b : Bytes}
    (hseam : Seam ((Outcome.ran d).session s).1 b) : d.parser.state.torn = false := by
  obtain ⟨e, hp, he⟩ := session_ran (s := s) d
  rw [hp] at hseam
  rcases he with rfl | ⟨m, rfl⟩
  · exact (hseam.open h.noError).1
  · by_contra htorn
    exact hseam.failed rfl ⟨Bool.of_not_eq_false htorn, rfl⟩

omit F in
theorem torn_of_inLoop {st : State} (h : st.inLoop = true) : st.torn = true := by
  rw [State.torn, h, Bool.or_true]

omit F in
theorem not_inLoop_of_not_torn {st : State} (h : st.torn = false) : st.inLoop = false := by
  unfold State.torn at h
  exact (Bool.or_eq_false_iff.mp h).2

omit F in
theorem holds_of_not_torn {st : State} (htorn : st.torn = false) (hstatus : st ≠ .resStatus)
    (hbody : Mark.body.holds st = false) (m : Mark) : m.holds st = false := by
  cases m with
  | body => exact hbody
  | status => exact beq_eq_false_iff_ne.mpr hstatus
  | headerField | headerValue | url =>
    unfold State.torn State.inLoop at htorn
    simp only [Bool.or_eq_false_iff] at htorn
    first | exact htorn.1 | exact htorn.2.1 | exact htorn.2.2

variable (F)

include F in
/-- The next call takes up what a loop that has run to the end leaves behind, at a seam. -/
theorem ran_resumes {d : Ctx σ} (h : d.Marked) {b : Bytes} (hb : b ≠ [])
    (hseam : Seam ((Outcome.ran d).session s).1 b) (htorn : d.parser.state.torn = false) :
    (loop s 0 d b).session s = (execute s ((Outcome.ran d).session s) b).1 := by
  have closes : Seam d.parser b → spanCloses d.parser b = true :=
    fun hd => (hd.open h.noError).2.1
  by_cases hst : d.parser.state = .resStatus
  · obtain ⟨x, hx⟩ := Option.ne_none_iff_exists'.mp (h.status hst)
    have hstatus : Mark.status.holds d.parser.state = true := by rw [hst]; rfl
    have hothers : ∀ m, m ≠ .status → d.marks m = none := fun m hm => h.only hstatus hm
    rw [session_status F hx hothers] at hseam ⊢
    have hcloses := closes hseam
    unfold spanCloses at hcloses
    rw [hst] at hcloses
    rw [execute_eq _ h.noError hb, close_session]
    have hbehind : StatusBehind F d
        (Ctx.enter d.parser (F.status d.parser.statusCode d.user)) := by
      refine ⟨hst, rfl, rfl, h.status hst, ?_, fun m hm => ⟨hothers m hm, ?_⟩⟩
      · have hopen : openMarks d.parser.state .status = some [] := if_pos hst
        exact fun hnone => Option.some_ne_none _ (hopen.symm.trans hnone)
      · exact openMarks_other hstatus hm
    exact status_resumes F hbehind b (of_decide_eq_true hcloses)
  by_cases hbody : Mark.body.holds d.parser.state = true
  · have hothers : ∀ m, m ≠ .body → d.marks m = none := fun m hm => h.only hbody hm
    rw [session_settled F hothers] at hseam ⊢
    rw [execute_eq _ h.noError hb, close_session]
    have hbehind : BodyBehind F d (Ctx.enter d.parser (d.settled F)) := by
      exact ⟨h, hbody, rfl, rfl, fun m hm => openMarks_other hbody hm⟩
    exact body_resumes hbehind hb (closes hseam)
  · have hnone : ∀ m : Mark, m.holds d.parser.state = false :=
      holds_of_not_torn htorn hst (Bool.of_not_eq_true hbody)
    rw [session_settled F fun m _ => h.marks m (hnone m), execute_eq _ h.noError hb, close_session]
    have hd : d = Ctx.enter d.parser (d.settled F) := by
      refine Ctx.ext_marks rfl ?_ fun m => ?_
      · unfold Ctx.settled
        rw [h.marks .body (hnone .body)]
        rfl
      · rw [h.marks m (hnone m)]
        exact (openMarks_none (hnone m)).symm
    exact congrArg (fun c => (loop s 0 c b).session s) hd

include F in
/-- **A call that ends at a seam is resumed by the next.** -/
theorem execute_append {st : Session σ} (h : Ready st.1) {a b : Bytes} (ha : a ≠ [])
    (hb : b ≠ []) (hseam : Seam (execute s st a).1.1 b) :
    (execute s st (a ++ b)).1 = (execute s (execute s st a).1 b).1 := by
  obtain ⟨p, u⟩ := st
  by_cases herr : p.httpErrno = none
  · have hab : a ++ b ≠ [] := List.append_ne_nil_of_left_ne_nil ha b
    obtain ⟨hlong, hlong'⟩ := loop_append F (h.marked herr u) a b
    rw [execute_eq u herr hab, close_session]
    rcases execute_cases (s := s) h herr u ha with
      ⟨d, n, hl, hcall, hleft⟩ | ⟨d, hl, hcall, hd⟩
    · rw [hcall] at hseam ⊢
      cases he : d.parser.httpErrno with
      | none => exact absurd (hleft.resolve_left (not_not.mpr he)) (hseam.open he).2.2
      | some e =>
        -- no call behind an error does anything
        obtain ⟨n', hl'⟩ := hlong d n hl fun hloop heq => by
          obtain rfl : e = .headerOverflow := Option.some.inj (he.symm.trans heq)
          exact hseam.failed he ⟨torn_of_inLoop hloop, rfl⟩
        have hfailed : d.parser.httpErrno ≠ none := by
          rw [he]
          exact Option.some_ne_none e
        rw [hl', execute_failed d.user b hfailed]
        rfl
    · rw [hcall] at hseam ⊢
      have htorn := Seam.not_torn hd hseam
      rw [hlong' d hl (not_inLoop_of_not_torn htorn)]
      exact ran_resumes F hd hb hseam htorn
  · rw [execute_failed u _ herr, execute_failed u _ herr, execute_failed u _ herr]

/-! ## Streams without an error -/

omit F in
theorem chunkEnd_closes {c : Ctx σ} (hst : c.parser.state = .chunkDataAlmostDone) {b : Bytes}
    (h : ((loop s 0 c b).session s).1.httpErrno = none) : b.head?.all (· == CR) = true := by
  cases b with
  | nil => rfl
  | cons ch tail =>
    by_contra hch
    have hne : ch ≠ CR := fun heq => hch (beq_iff_eq.mpr heq)
    have hiter : iteration s c ch tail = (0, .fail c .strict false) := by
      simp [iteration, step, byteStep, hst, State.parsingHeader, hne]
    rw [loop_cons hiter (Nat.zero_le _)] at h
    exact Option.some_ne_none _ h

omit F in
/-- The data of a chunk that a loop has run behind is over where it should be. -/
theorem loop_closes {c : Ctx σ} (h : c.Marked) (hst : c.parser.state ≠ .resStatus) {b : Bytes}
    (herr : ((loop s 0 c b).session s).1.httpErrno = none) : spanCloses c.parser b = true := by
  unfold spanCloses
  split
  · exact absurd ‹_› hst
  · rename_i hdata
    rcases Nat.lt_or_ge c.parser.contentLength b.length with hlt | hge
    · rw [loop_chunkData_full h hdata (Nat.le_of_lt hlt)] at herr
      have hcloses := chunkEnd_closes rfl herr
      rwa [List.head?_drop] at hcloses
    · rw [List.getElem?_eq_none hge]
      rfl
  · exact chunkEnd_closes ‹_› herr
  · rfl

include F in
/-- Outside a URL, a name and a value, the callback for the mark that is left does not fail. -/
theorem parser_ran {d : Ctx σ} (h : d.Marked) (htorn : d.parser.state.torn = false) :
    ((Outcome.ran d).session s).1 = d.parser := by
  by_cases hst : d.parser.state = .resStatus
  · obtain ⟨x, hx⟩ := Option.ne_none_iff_exists'.mp (h.status hst)
    rw [session_status F hx fun m hm => h.only (by rw [hst]; rfl) hm]
  · have hothers : ∀ m, m ≠ .body → d.marks m = none := by
      intro m hm
      by_cases hbody : Mark.body.holds d.parser.state = true
      · exact h.only hbody hm
      · exact h.marks m (holds_of_not_torn htorn hst (Bool.of_not_eq_true hbody) m)
    rw [session_settled F hothers]

include F in
/-- An error that a call finds outside a URL, a name and a value is found in the longer stream,
too. -/
theorem no_error_left {st : Session σ} (h : Ready st.1) {a b : Bytes} (ha : a ≠ [])
    (hab : (execute s st (a ++ b)).1.1.httpErrno = none)
    (htorn : (execute s st a).1.1.state.torn = false) :
    (execute s st a).1.1.httpErrno = none := by
  have hp := no_error_before hab
  obtain ⟨p, u⟩ := st
  have hne : a ++ b ≠ [] := List.append_ne_nil_of_left_ne_nil ha b
  rcases execute_cases (s := s) h hp u ha with ⟨d, n, hl, hcall, -⟩ | ⟨d, -, hcall, hd⟩
  · rw [hcall] at htorn ⊢
    obtain ⟨n', hl'⟩ := (loop_append F (h.marked hp u) a b).1 d n hl fun hloop =>
      absurd ((torn_of_inLoop hloop).symm.trans htorn) (by decide)
    rw [execute_eq u hp hne, hl'] at hab
    exact hab
  · obtain ⟨e, heq, -⟩ := session_ran (s := s) d
    rw [hcall] at htorn ⊢
    rw [heq] at htorn
    rw [parser_ran F hd htorn]
    exact hd.noError

include F in
/-- **In a stream without an error every cut is at a seam**, but for one inside a URL, a name
or a value, inside a reason phrase, or behind an upgrade. -/
theorem seam_of_no_error {st : Session σ} (h : Ready st.1) {a b : Bytes} (ha : a ≠ [])
    (hab : (execute s st (a ++ b)).1.1.httpErrno = none)
    (htorn : (execute s st a).1.1.state.torn = false)
    (hstatus : (execute s st a).1.1.state ≠ .resStatus)
    (hup : (execute s st a).1.1.upgrade = false) : Seam (execute s st a).1.1 b := by
  have herr := no_error_left F h ha hab htorn
  have hp := no_error_before hab
  have hcloses : spanCloses (execute s st a).1.1 b = true := by
    obtain ⟨p, u⟩ := st
    have hne : a ++ b ≠ [] := List.append_ne_nil_of_left_ne_nil ha b
    rcases execute_cases (s := s) h hp u ha with ⟨d, n, -, hcall, hleft⟩ | ⟨d, hl, hcall, hd⟩
    · rw [hcall] at herr ⊢
      have hbetween := (hleft.resolve_left (not_not.mpr herr)).2
      unfold spanCloses
      split
      all_goals first
        | rfl
        | (rename_i hst; rw [hst] at hbetween; cases hbetween)
    · obtain ⟨e, heq, -⟩ := session_ran (s := s) d
      rw [hcall] at htorn hstatus ⊢
      rw [heq] at htorn hstatus ⊢
      have hlong := (loop_append F (h.marked hp u) a b).2 d hl (not_inLoop_of_not_torn htorn)
      rw [execute_eq u hp hne, close_session, hlong] at hab
      exact loop_closes hd hstatus hab
  unfold Seam
  rw [if_pos herr]
  refine ⟨htorn, hcloses, fun hexit => ?_⟩
  rw [hup] at hexit
  cases hexit.1

end Resumption

end Sylar.Http
