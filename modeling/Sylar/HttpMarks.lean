import Sylar.HttpParser

/-! # The marks of a call

At most one mark is set, as the assertion behind the loop of `http_parser_execute` has it:
the mark of the span that the state is in (`Ctx.Marked`).  Every state's code keeps that
(`byteStep_sound`, `iteration_sound`), so the loop does (`loop_sound`). -/
namespace Sylar.Http

/-- The states whose span a mark is for. -/
def Mark.holds : Mark → State → Bool
  | .headerField, st => st == .headerField
  | .headerValue, st => st == .headerValue
  | .url, st => st.inUrl
  | .status, st => st == .resStatus
  | .body, st =>
    st == .bodyIdentity || st == .bodyIdentityEof || st == .chunkData || st == .chunkDataAlmostDone

/-- A state is in one span at most. -/
theorem Mark.holds_unique {m m' : Mark} {st : State} (h : m.holds st = true)
    (h' : m'.holds st = true) : m' = m := by
  cases st <;> cases m <;> first
    | (cases h; done)
    | (cases m' <;> first | rfl | cases h')

/-- The states that are entered without a mark and without a length. -/
def State.plain (st : State) : Bool :=
  st != .resStatus && st != .bodyIdentity && st != .chunkData

/-- The states behind a message: `NEW_MESSAGE()`. -/
def State.betweenMessages : State → Bool
  | .startReq | .startRes | .dead => true
  | _ => false

section Invariant
variable {σ : Type} (s : Settings σ)

/-- No mark is set, and there was no error. -/
structure Ctx.Clean (c : Ctx σ) : Prop where
  marks : ∀ m, c.marks m = none
  noError : c.parser.httpErrno = none

/-- Only the mark of the span that the state is in can be set; that of a reason phrase
is; and a body that has a length is not at its end. -/
structure Ctx.Marked (c : Ctx σ) : Prop where
  marks : ∀ m, m.holds c.parser.state = false → c.marks m = none
  status : c.parser.state = .resStatus → c.marks .status ≠ none
  data : c.parser.state = .bodyIdentity ∨ c.parser.state = .chunkData → 0 < c.parser.contentLength
  noError : c.parser.httpErrno = none

/-- What every state's code leaves behind: the marks of the next state, an error, or the end
of a message that switches protocols. -/
def Flow.Sound : Flow σ → Prop
  | .next c => c.Marked
  | .fail .. => True
  | .exit c => c.parser.upgrade = true ∧ c.parser.state.betweenMessages = true

variable {s} {c : Ctx σ}

theorem Ctx.Clean.marked (h : c.Clean) (hst : c.parser.state.plain = true) : c.Marked := by
  refine ⟨fun m _ => h.marks m, fun heq => ?_, fun heq => ?_, h.noError⟩
  · rw [heq] at hst
    cases hst
  · rcases heq with heq | heq <;> rw [heq] at hst <;> cases hst

theorem Ctx.Clean.sized (h : c.Clean) (hst : c.parser.state ≠ .resStatus)
    (hlen : 0 < c.parser.contentLength) : c.Marked :=
  ⟨fun m _ => h.marks m, fun heq => absurd heq hst, fun _ => hlen, h.noError⟩

/-- Only the mark of the span that the state is in can be set. -/
theorem Ctx.Marked.only (h : c.Marked) {m m' : Mark} (hst : m.holds c.parser.state = true)
    (hm : m' ≠ m) : c.marks m' = none := by
  refine h.marks m' (Bool.of_not_eq_true fun hst' => ?_)
  exact hm (Mark.holds_unique hst hst')

theorem Ctx.Marked.clean (h : c.Marked) (hst : ∀ m : Mark, m.holds c.parser.state = false) :
    c.Clean :=
  ⟨fun m => h.marks m (hst m), h.noError⟩

@[simp] theorem Ctx.parser_mark (c : Ctx σ) (m : Mark) : (c.mark m).parser = c.parser := rfl

@[simp] theorem Ctx.user_mark (c : Ctx σ) (m : Mark) : (c.mark m).user = c.user := rfl

@[simp] theorem Ctx.mark_self (c : Ctx σ) (m : Mark) :
    (c.mark m).marks m = some ((c.marks m).getD []) := by
  simp [Ctx.mark]

theorem Ctx.mark_of_ne (c : Ctx σ) {m m' : Mark} (h : m' ≠ m) :
    (c.mark m).marks m' = c.marks m' := by
  simp [Ctx.mark, h]

/-- A mark that is set where the state that holds it begins. -/
theorem Ctx.Clean.mark (h : c.Clean) {d : Ctx σ} {m : Mark} (hd : d.marks = (c.mark m).marks)
    (herr : d.parser.httpErrno = c.parser.httpErrno) (hst : m.holds d.parser.state = true)
    (hm : m ≠ .body) : d.Marked where
  marks m' hm' := by
    have hne : m' ≠ m := by
      rintro rfl
      rw [hst] at hm'
      cases hm'
    rw [hd, c.mark_of_ne hne]
    exact h.marks m'
  status heq := by
    rw [heq] at hst
    cases m with
    | status =>
      rw [hd, c.mark_self]
      exact Option.some_ne_none _
    | headerField | headerValue | url | body => cases hst
  data heq := by
    rcases heq with heq | heq <;> rw [heq] at hst
    all_goals
      cases m with
      | body => exact absurd rfl hm
      | headerField | headerValue | url | status => cases hst
  noError := herr.trans h.noError

theorem sound_notify {n : Notice} {past : Bool} {k : Ctx σ → Flow σ} (h : c.Clean)
    (hk : ∀ d : Ctx σ, d.Clean → d.parser = c.parser → (k d).Sound) :
    (c.notify s n past k).Sound := by
  unfold Ctx.notify
  dsimp only
  split
  · exact hk _ ⟨h.marks, h.noError⟩ rfl
  · exact trivial

/-- A callback behind its span, which was the only one. -/
theorem sound_callback {m : Mark} {more : Bytes} {past : Bool} {k : Ctx σ → Flow σ}
    (herr : c.parser.httpErrno = none) (hothers : ∀ m', m' ≠ m → c.marks m' = none)
    (hk : ∀ d : Ctx σ, d.Clean → d.parser = c.parser → (k d).Sound) :
    (c.callback s m more past k).Sound := by
  unfold Ctx.callback
  split
  · rename_i hnone
    refine hk c ⟨fun m' => ?_, herr⟩ rfl
    rcases eq_or_ne m' m with rfl | hne
    · exact hnone
    · exact hothers m' hne
  · dsimp only
    split
    · refine hk _ ⟨fun m' => ?_, herr⟩ rfl
      rcases eq_or_ne m' m with rfl | hne
      · exact Function.update_self ..
      · exact (Function.update_of_ne hne ..).trans (hothers m' hne)
    · exact trivial

theorem sound_count {v : Nat} {k : Ctx σ → Flow σ}
    (hk : ∀ n, (k { c with parser := { c.parser with nread := n } }).Sound) :
    (c.count v k).Sound := by
  unfold Ctx.count
  dsimp only
  split
  · exact trivial
  · exact hk _

theorem newMessage_between (p : HttpParser) : p.newMessage.betweenMessages = true := by
  unfold HttpParser.newMessage HttpParser.startState
  split
  · split <;> rfl
  · rfl

theorem parseUrlChar_inUrl (st : State) (ch : UInt8) :
    parseUrlChar st ch = .dead ∨ (parseUrlChar st ch).inUrl = true := by
  unfold parseUrlChar
  grind [State.inUrl]

theorem plain_of_between {st : State} (h : st.betweenMessages = true) : st.plain = true := by
  cases st <;> first | rfl | cases h

theorem Ctx.Clean.same (h : c.Clean) {d : Ctx σ} (hd : d.marks = c.marks)
    (herr : d.parser.httpErrno = c.parser.httpErrno) : d.Clean :=
  ⟨fun m => (congrFun hd m).trans (h.marks m), herr.trans h.noError⟩

theorem Ctx.Clean.goto (h : c.Clean) (st : State) : (c.goto st).Clean := h.same rfl rfl

theorem Ctx.Clean.expect (h : c.Clean) {ok : Bool} {e : Errno} {st : State}
    (hst : st.plain = true) : (c.expect ok e st).Sound := by
  unfold Ctx.expect
  split
  · exact (h.goto st).marked hst
  · exact trivial

theorem onMessageDone_sound (h : c.Clean) : (onMessageDone s c).Sound := by
  refine sound_notify (h.goto _) fun d hd hp => ?_
  have hst : d.parser.state.betweenMessages = true := by
    rw [hp]
    exact newMessage_between _
  split
  · rename_i hup
    exact ⟨hup, hst⟩
  · exact hd.marked (plain_of_between hst)

theorem completeMessage_sound (h : c.Clean) : (completeMessage s c).Sound := by
  refine sound_notify (h.goto _) fun d hd hp => hd.marked (plain_of_between ?_)
  rw [hp]
  exact newMessage_between _

theorem onHeadersDone_sound (h : c.Clean) (ch : UInt8) : (onHeadersDone s c ch).Sound := by
  have hzero : Ctx.Clean { c with parser := { c.parser with nread := 0 } } := h.same rfl rfl
  unfold onHeadersDone
  split
  · exact trivial
  dsimp only
  split
  · rename_i hup
    refine sound_notify (hzero.goto _) fun d hd hp => ?_
    refine ⟨?_, ?_⟩ <;> rw [hp]
    · exact hup.1
    · exact newMessage_between _
  repeat' split
  all_goals first
    | exact completeMessage_sound hzero
    | exact trivial
    | exact (hzero.goto _).marked rfl
    | exact (hzero.goto _).sized (by rintro ⟨⟩) (Nat.pos_of_ne_zero ‹_›)

theorem headersCompleted_errno {p q : HttpParser} {ret : Int}
    (h : headersCompleted p ret = some q) :
    q.httpErrno = p.httpErrno := by
  unfold headersCompleted at h
  grind

theorem onHeadersAlmostDone_sound (h : c.Clean) (ch : UInt8) :
    (onHeadersAlmostDone s c ch).Sound := by
  unfold onHeadersAlmostDone
  split
  · exact trivial
  split
  · exact sound_notify (h.goto _) fun d hd _ => onMessageDone_sound hd
  dsimp only
  split
  · exact trivial
  split
  · exact trivial
  · rename_i p hp
    have herr := headersCompleted_errno hp
    refine onHeadersDone_sound (h.same ?_ ?_) ch
    · rfl
    · exact herr

theorem onHeaderFieldStart_sound (h : c.Clean) (ch : UInt8) :
    (onHeaderFieldStart s c ch).Sound := by
  unfold onHeaderFieldStart
  split
  · exact (h.goto _).marked rfl
  split
  · exact onHeadersAlmostDone_sound (h.goto _) ch
  split
  · exact trivial
  · exact h.mark rfl rfl rfl (by rintro ⟨⟩)

theorem onHeaderValueStart_sound (h : c.Clean) (ch : UInt8) : (onHeaderValueStart c ch).Sound := by
  unfold onHeaderValueStart
  dsimp only
  repeat' split
  all_goals first
    | exact trivial
    | exact h.mark rfl rfl rfl (by rintro ⟨⟩)

theorem onHeaderValueLws_sound (h : c.Clean) (ch : UInt8) : (onHeaderValueLws s c ch).Sound := by
  unfold onHeaderValueLws
  split
  · dsimp only
    split <;> refine onHeaderValueStart_sound (h.same ?_ ?_) ch <;> rfl
  · refine onHeaderFieldStart_sound (h.same ?_ ?_) ch <;> rfl

theorem onHeaderAlmostDone_sound (h : c.Clean) (ch : UInt8) : (onHeaderAlmostDone c ch).Sound :=
  h.expect rfl

theorem onHeaderValueDiscardLws_sound (h : c.Clean) (ch : UInt8) :
    (onHeaderValueDiscardLws s c ch).Sound := by
  unfold onHeaderValueDiscardLws
  split
  · exact (h.goto _).marked rfl
  split
  · exact trivial
  · refine sound_callback h.noError (fun m' hm' => ?_)
      fun d hd _ => onHeaderFieldStart_sound hd ch
    exact (Ctx.mark_of_ne _ hm').trans (h.marks m')

/-- The end of a reason phrase, or a byte of it. -/
theorem onResStatus_sound (h : c.Marked) (hst : c.parser.state = .resStatus) (ch : UInt8) :
    (onResStatus s c ch).Sound := by
  have hothers : ∀ m, m ≠ .status → c.marks m = none := fun m hm =>
    h.only (by rw [hst]; rfl) hm
  unfold onResStatus
  repeat' split
  · exact sound_callback h.noError hothers fun d hd hp => hd.marked (by rw [hp]; rfl)
  · exact sound_callback h.noError hothers fun d hd hp => hd.marked (by rw [hp]; rfl)
  · exact h

theorem onResStatusStart_sound (h : c.Clean) (ch : UInt8) : (onResStatusStart s c ch).Sound := by
  have hmark : Ctx.Marked { (c.mark .status).goto .resStatus with
      parser := { ((c.mark .status).goto .resStatus).parser with index := 0 } } :=
    h.mark rfl rfl rfl (by rintro ⟨⟩)
  unfold onResStatusStart
  dsimp only
  split
  · exact onResStatus_sound hmark rfl ch
  · exact hmark

theorem onStartReq_sound (h : c.Clean) (hst : c.parser.state.plain = true) (ch : UInt8) :
    (onStartReq s c ch).Sound := by
  unfold onStartReq
  split
  · exact h.marked hst
  dsimp only
  split
  · exact trivial
  split
  · exact trivial
  · exact sound_notify (h.same rfl rfl) fun d hd hp => hd.marked (by rw [hp]; rfl)

theorem onUrlChar_sound (h : ∀ m, m ≠ .url → c.marks m = none)
    (herr : c.parser.httpErrno = none) (ch : UInt8) : (onUrlChar c ch).Sound := by
  unfold onUrlChar
  dsimp only
  split
  · exact trivial
  · rename_i hdead
    have hurl : (parseUrlChar c.parser.state ch).inUrl = true :=
      (parseUrlChar_inUrl _ ch).resolve_left hdead
    have hne : ∀ st, st.inUrl = false →
        (c.goto (parseUrlChar c.parser.state ch)).parser.state ≠ st := by
      intro st hfalse heq
      have htrue : st.inUrl = true := (congrArg State.inUrl heq).symm.trans hurl
      rw [hfalse] at htrue
      cases htrue
    refine ⟨fun m hm => h m ?_, fun hst => absurd hst (hne _ rfl),
      fun hst => absurd hst (not_or.mpr ⟨hne _ rfl, hne _ rfl⟩), herr⟩
    rintro rfl
    exact absurd (hm.symm.trans hurl) (by decide)

theorem onUrl_sound (h : ∀ m, m ≠ .url → c.marks m = none) (herr : c.parser.httpErrno = none)
    (ch : UInt8) : (onUrl s c ch).Sound := by
  unfold onUrl
  split
  · exact sound_callback herr h fun d hd hp => hd.marked (by rw [hp]; rfl)
  split
  · dsimp only
    split <;> exact sound_callback herr h fun d hd hp => hd.marked (by rw [hp]; rfl)
  · exact onUrlChar_sound h herr ch

theorem onReqMethod_sound (h : c.Clean) (hst : c.parser.state = .reqMethod) (ch : UInt8) :
    (onReqMethod c ch).Sound := by
  have hne : c.parser.state.plain = true := by rw [hst]; rfl
  unfold onReqMethod
  dsimp only
  repeat' split
  all_goals first
    | exact trivial
    | exact Ctx.Clean.marked (h.same rfl rfl) (by first | exact hne | rfl)

theorem onChunkSize_sound (h : c.Clean) (hst : c.parser.state = .chunkSize) (ch : UInt8) :
    (onChunkSize c ch).Sound := by
  have hne : c.parser.state.plain = true := by rw [hst]; rfl
  unfold onChunkSize
  repeat' split
  all_goals first
    | exact trivial
    | exact (h.goto _).marked rfl
    | exact Ctx.Clean.marked (h.same rfl rfl) hne

theorem onChunkSizeAlmostDone_sound (h : c.Clean) (ch : UInt8) :
    (onChunkSizeAlmostDone s c ch).Sound := by
  unfold onChunkSizeAlmostDone
  split
  · exact trivial
  dsimp only
  split
  · exact sound_notify (h.same rfl rfl) fun d hd hp => hd.marked (by rw [hp]; rfl)
  · rename_i hne
    refine sound_notify (h.same rfl rfl) fun d hd hp => hd.sized ?_ ?_ <;> rw [hp]
    · rintro ⟨⟩
    · exact Nat.pos_of_ne_zero hne

theorem onVersionDigit_sound {d : Ctx σ} (h : d.Clean) (hst : d.parser.state.plain = true)
    (ch : UInt8) : (onVersionDigit c ch d).Sound := by
  unfold onVersionDigit
  split
  · exact h.marked hst
  · exact trivial

/-- **A byte leaves the marks of the next state.** -/
theorem byteStep_sound (h : c.Marked) (ch : UInt8) : (byteStep s c ch).Sound := by
  have hurl : c.parser.state.inUrl = true → ∀ m, m ≠ .url → c.marks m = none :=
    fun hst _ hm => h.only (m := .url) hst hm
  cases hst : c.parser.state <;> simp only [byteStep, hst]
  case resStatus => exact onResStatus_sound h hst ch
  case reqServer | reqServerWithAt | reqPath | reqQueryStringStart | reqQueryString
      | reqFragmentStart | reqFragment =>
    exact onUrl_sound (hurl (by rw [hst]; rfl)) h.noError ch
  case reqSchema | reqSchemaSlash | reqSchemaSlashSlash | reqServerStart =>
    split
    · exact trivial
    · exact onUrlChar_sound (hurl (by rw [hst]; rfl)) h.noError ch
  case headerField | headerValue | bodyIdentity | bodyIdentityEof | chunkData =>
    exact trivial
  case chunkDataAlmostDone =>
    split
    · exact trivial
    · exact sound_callback h.noError (fun m hm => h.only (by rw [hst]; rfl) hm)
        fun d hd hp => hd.marked (by rw [hp]; rfl)
  all_goals
    have hc : c.Clean := h.clean (by rw [hst]; intro m; cases m <;> rfl)
    have hne : c.parser.state.plain = true := by rw [hst]; rfl
  case startReqOrRes =>
    split
    · exact hc.marked hne
    split
    · exact sound_notify (hc.same rfl rfl) fun d hd hp => hd.marked (by rw [hp]; rfl)
    · refine onStartReq_sound (hc.same ?_ ?_) rfl ch <;> rfl
  case startRes =>
    split
    · exact hc.marked hne
    split
    · exact sound_notify (hc.same rfl rfl) fun d hd hp => hd.marked (by rw [hp]; rfl)
    · exact trivial
  case reqSpacesBeforeUrl =>
    split
    · exact hc.marked hne
    refine onUrlChar_sound (fun m hm => ?_) (by split <;> exact hc.noError) ch
    split <;> exact (c.mark_of_ne hm).trans (hc.marks m)
  case resStatusCode =>
    repeat' split
    · exact trivial
    · exact Ctx.Clean.marked (hc.same rfl rfl) rfl
    · exact (hc.goto _).marked rfl
    · exact onResStatusStart_sound (hc.goto _) ch
    · exact trivial
  case resHttpMajor | resHttpMinor | reqHttpMajor | reqHttpMinor =>
    refine onVersionDigit_sound (hc.same ?_ ?_) ?_ ch <;> rfl
  case chunkDataDone =>
    split
    · exact trivial
    · exact sound_notify (hc.same rfl rfl) fun d hd hp => hd.marked (by rw [hp]; rfl)
  case resStatusStart => exact onResStatusStart_sound hc ch
  case startReq => exact onStartReq_sound hc hne ch
  case reqMethod => exact onReqMethod_sound hc hst ch
  case headerFieldStart => exact onHeaderFieldStart_sound hc ch
  case headerValueStart => exact onHeaderValueStart_sound hc ch
  case headerValueLws => exact onHeaderValueLws_sound hc ch
  case headerAlmostDone => exact onHeaderAlmostDone_sound hc ch
  case headerValueDiscardLws => exact onHeaderValueDiscardLws_sound hc ch
  case headersAlmostDone => exact onHeadersAlmostDone_sound hc ch
  case headersDone => exact onHeadersDone_sound hc ch
  case messageDone => exact onMessageDone_sound hc
  case chunkSize => exact onChunkSize_sound hc hst ch
  case chunkSizeAlmostDone => exact onChunkSizeAlmostDone_sound hc ch
  case headerValueDiscardWs =>
    repeat' split
    · exact hc.marked hne
    · exact (hc.goto _).marked rfl
    · exact (hc.goto _).marked rfl
    · exact onHeaderValueStart_sound hc ch
  case dead | resOrRespH | resFirstStatusCode | reqHttpStart | reqHttpEnd | chunkSizeStart
      | chunkParameters =>
    repeat' split
    all_goals first
      | exact trivial
      | exact hc.marked hne
      | exact Ctx.Clean.marked (hc.same rfl rfl) rfl
  -- the others take one kind of character
  all_goals exact hc.expect rfl

end Invariant

/-! ## Names, values and bodies -/

namespace HttpParser

/-- The parser `q` is `p` but for what headers may write. -/
structure SameMessage (p q : HttpParser) : Prop where
  httpMajor : q.httpMajor = p.httpMajor
  httpMinor : q.httpMinor = p.httpMinor
  statusCode : q.statusCode = p.statusCode
  httpErrno : q.httpErrno = p.httpErrno
  trailing : q.flags.trailing = p.flags.trailing

theorem SameMessage.refl (p : HttpParser) : p.SameMessage p := ⟨rfl, rfl, rfl, rfl, rfl⟩

theorem SameMessage.trans {p q r : HttpParser} (h : p.SameMessage q) (h' : q.SameMessage r) :
    p.SameMessage r :=
  ⟨h'.httpMajor.trans h.httpMajor, h'.httpMinor.trans h.httpMinor,
    h'.statusCode.trans h.statusCode, h'.httpErrno.trans h.httpErrno,
    h'.trailing.trans h.trailing⟩

/-- The parser `q` is `p` but for what the loops over a name or a value may write. -/
structure SameCall (p q : HttpParser) : Prop extends SameMessage p q where
  type : q.type = p.type
  state : q.state = p.state
  nread : q.nread = p.nread
  upgrade : q.upgrade = p.upgrade

theorem SameCall.refl (p : HttpParser) : p.SameCall p := ⟨.refl p, rfl, rfl, rfl, rfl⟩

theorem SameCall.trans {p q r : HttpParser} (h : p.SameCall q) (h' : q.SameCall r) :
    p.SameCall r :=
  ⟨h.toSameMessage.trans h'.toSameMessage, h'.type.trans h.type, h'.state.trans h.state,
    h'.nread.trans h.nread, h'.upgrade.trans h.upgrade⟩

theorem matchWord_same (p : HttpParser) (word : String) (c : UInt8)
    (hs missed hit : HeaderState) : p.SameCall (p.matchWord word c hs missed hit).1 := by
  unfold matchWord
  dsimp only
  repeat' split
  all_goals exact ⟨⟨rfl, rfl, rfl, rfl, rfl⟩, rfl, rfl, rfl, rfl⟩

theorem fieldChar_same (p : HttpParser) (ch : UInt8) : p.SameCall (p.fieldChar ch) := by
  have hword (word : String) (hit hs : HeaderState) (uses : Bool) : p.SameCall
      { (p.matchWord word (token ch) p.headerState .general hit).1 with
        headerState := hs, usesTransferEncoding := uses } := by
    have h := p.matchWord_same word (token ch) p.headerState .general hit
    exact ⟨⟨h.httpMajor, h.httpMinor, h.statusCode, h.httpErrno, h.trailing⟩, h.type, h.state,
      h.nread, h.upgrade⟩
  unfold fieldChar
  dsimp only
  split
  case h_7 =>
    split
    · exact hword "transfer-encoding" .transferEncoding _ _
    · exact hword "transfer-encoding" .transferEncoding _ _
  all_goals first
    | exact ⟨⟨rfl, rfl, rfl, rfl, rfl⟩, rfl, rfl, rfl, rfl⟩
    | exact hword _ _ _ _
    | split <;> exact ⟨⟨rfl, rfl, rfl, rfl, rfl⟩, rfl, rfl, rfl, rfl⟩

theorem fieldLoop_same (p : HttpParser) (buf : Bytes) : p.SameCall (p.fieldLoop buf).1 := by
  induction buf generalizing p with
  | nil => exact .refl p
  | cons ch rest ih =>
    rw [fieldLoop]
    split
    · exact .refl p
    · exact (p.fieldChar_same ch).trans (ih _)

theorem valueChar_same (p : HttpParser) (hs : HeaderState) (ch : UInt8) :
    p.SameCall (p.valueChar hs ch).1 := by
  have hword : ∀ word c hs missed hit, p.SameCall (p.matchWord word c hs missed hit).1 :=
    p.matchWord_same
  unfold valueChar
  dsimp only
  split
  all_goals first
    | exact hword ..
    | (repeat' split) <;> exact ⟨⟨rfl, rfl, rfl, rfl, rfl⟩, rfl, rfl, rfl, rfl⟩

/-- The parser behind a turn of the loop over a value. -/
def ValueStep.parser : ValueStep → HttpParser
  | .go p _ _ => p
  | .stop p _ _ => p

theorem valueByte_same (p : HttpParser) (hs : HeaderState) (run : Option Nat) (ch : UInt8) :
    p.SameCall (p.valueByte hs run ch).parser := by
  have hchar := p.valueChar_same hs ch
  unfold valueByte
  repeat' split
  all_goals first
    | exact .refl p
    | skip
  all_goals
    rename_i heq
    rw [heq] at hchar
    exact hchar

theorem valueLoop_same (p : HttpParser) (hs : HeaderState) (run : Option Nat) (buf : Bytes) :
    p.SameCall (p.valueLoop hs run buf).1 := by
  induction buf generalizing p hs run with
  | nil => exact .refl p
  | cons ch rest ih =>
    have hbyte := p.valueByte_same hs run ch
    rw [valueLoop]
    split
    all_goals
      rename_i heq
      rw [heq] at hbyte
    · exact hbyte
    · exact hbyte.trans (ih ..)

end HttpParser

section Runs
variable {σ : Type} {s : Settings σ} {c : Ctx σ}

theorem Ctx.Marked.same (h : c.Marked) {d : Ctx σ} (hd : d.marks = c.marks)
    (hst : d.parser.state = c.parser.state) (herr : d.parser.httpErrno = c.parser.httpErrno)
    (hlen : d.parser.state = .bodyIdentity ∨ d.parser.state = .chunkData →
      d.parser.contentLength = c.parser.contentLength) : d.Marked := by
  refine ⟨fun m hm => ?_, fun hstatus => ?_, fun hdata => ?_, herr.trans h.noError⟩
  · rw [hd]
    exact h.marks m (hst ▸ hm)
  · rw [hd]
    exact h.status (hst ▸ hstatus)
  · rw [hlen hdata]
    exact h.data (hst ▸ hdata)

theorem Ctx.Marked.advance (h : c.Marked) (seen : Bytes) : (c.advance seen).Marked := by
  refine ⟨fun m hm => ?_, fun hst => ?_, h.data, h.noError⟩
  · simp [Ctx.advance, h.marks m hm]
  · simpa [Ctx.advance] using h.status hst

theorem headerFieldRun_sound (h : c.Marked) (hst : c.parser.state = .headerField) (buf : Bytes) :
    (headerFieldRun s c buf).2.Sound := by
  have hsame := c.parser.fieldLoop_same buf
  have hothers : ∀ m, m ≠ .headerField → c.marks m = none := fun m hm =>
    h.only (by rw [hst]; rfl) hm
  unfold headerFieldRun
  dsimp only
  split
  · refine sound_count fun n => h.same rfl hsame.state hsame.httpErrno fun hdata => ?_
    rcases hdata with hdata | hdata <;>
      exact absurd ((hsame.state.trans hst).symm.trans hdata) (by rintro ⟨⟩)
  · dsimp only
    refine sound_count fun n => ?_
    split
    · refine sound_callback ?_ hothers fun d hd hp => hd.marked (by rw [hp]; rfl)
      exact hsame.httpErrno.trans h.noError
    · exact trivial

theorem headerValueRun_sound (h : c.Marked) (hst : c.parser.state = .headerValue) (buf : Bytes) :
    (headerValueRun s c buf).2.Sound := by
  have hsame := c.parser.valueLoop_same c.parser.headerState none buf
  have hothers : ∀ m, m ≠ .headerValue → c.marks m = none := fun m hm =>
    h.only (by rw [hst]; rfl) hm
  have herr := hsame.httpErrno.trans h.noError
  unfold headerValueRun
  dsimp only
  split
  · refine sound_count fun n => h.same rfl hsame.state hsame.httpErrno fun hdata => ?_
    rcases hdata with hdata | hdata <;>
      exact absurd ((hsame.state.trans hst).symm.trans hdata) (by rintro ⟨⟩)
  · dsimp only
    refine sound_callback ?_ hothers fun d hd hp => sound_count fun n => ?_
    · exact herr
    · refine Ctx.Clean.marked (hd.same rfl rfl) ?_
      show d.parser.state.plain = true
      rw [hp]
      rfl
  · dsimp only
    refine sound_count fun n => ?_
    refine sound_callback ?_ hothers fun d hd _ => onHeaderAlmostDone_sound hd LF
    exact herr
  · exact trivial

/-- A body goes on. -/
theorem Ctx.Marked.markBody (h : c.Marked) (hst : Mark.body.holds c.parser.state = true)
    {d : Ctx σ} (hd : d.marks = (c.mark .body).marks)
    (herr : d.parser.httpErrno = c.parser.httpErrno)
    (hd' : Mark.body.holds d.parser.state = true)
    (hdata : d.parser.state = .bodyIdentity ∨ d.parser.state = .chunkData →
      0 < d.parser.contentLength) : d.Marked := by
  refine ⟨fun m hm => ?_, fun hstatus => ?_, hdata, herr.trans h.noError⟩
  · have hne : m ≠ .body := by
      rintro rfl
      exact absurd (hm.symm.trans hd') (by decide)
    rw [hd, c.mark_of_ne hne]
    exact h.only hst hne
  · rw [hstatus] at hd'
    cases hd'

theorem bodyIdentityRun_sound (h : c.Marked) (hst : c.parser.state = .bodyIdentity)
    (buf : Bytes) : (bodyIdentityRun s c buf).2.Sound := by
  have hbody : Mark.body.holds c.parser.state = true := by rw [hst]; rfl
  unfold bodyIdentityRun
  dsimp only
  split
  · exact sound_callback h.noError (fun m hm => (c.mark_of_ne hm).trans (h.only hbody hm))
      fun d hd _ => onMessageDone_sound hd
  · rename_i hleft
    exact h.markBody hbody rfl rfl hbody fun _ => Nat.pos_of_ne_zero hleft

theorem chunkDataRun_sound (h : c.Marked) (hst : c.parser.state = .chunkData) (buf : Bytes) :
    (chunkDataRun c buf).2.Sound := by
  have hbody : Mark.body.holds c.parser.state = true := by rw [hst]; rfl
  unfold chunkDataRun
  dsimp only
  split
  · exact h.markBody hbody rfl rfl rfl (by rintro (⟨⟨⟩⟩ | ⟨⟨⟩⟩))
  · rename_i hleft
    exact h.markBody hbody rfl rfl hbody fun _ => Nat.pos_of_ne_zero hleft

theorem step_sound (h : c.Marked) (ch : UInt8) (tail : Bytes) : (step s c ch tail).2.Sound := by
  unfold step
  split
  · exact headerFieldRun_sound h ‹_› _
  · exact headerValueRun_sound h ‹_› _
  · exact bodyIdentityRun_sound h ‹_› _
  · rename_i hst
    have hbody : Mark.body.holds c.parser.state = true := by rw [hst]; rfl
    exact h.markBody hbody rfl rfl hbody h.data
  · exact chunkDataRun_sound h ‹_› _
  · exact byteStep_sound h ch

theorem iteration_sound (h : c.Marked) (ch : UInt8) (tail : Bytes) :
    (iteration s c ch tail).2.Sound := by
  unfold iteration
  dsimp only
  repeat' split
  · exact trivial
  · refine step_sound (h.same ?_ ?_ ?_ ?_) ch tail <;> first | rfl | exact fun _ => rfl
  · exact step_sound h ch tail

/-- How a call may leave the loop: with the marks of its state, with an error, or behind a
message that switches protocols. -/
def Outcome.Sound : Outcome σ → Prop
  | .ran c => c.Marked
  | .left c _ =>
    c.parser.httpErrno ≠ none ∨ (c.parser.upgrade = true ∧ c.parser.state.betweenMessages = true)

theorem loop_sound (h : c.Marked) (skip : Nat) (buf : Bytes) : (loop s skip c buf).Sound := by
  induction buf generalizing skip c with
  | nil => cases skip <;> exact h
  | cons ch tail ih =>
    cases skip with
    | succ skip => exact ih h skip
    | zero =>
      have hsound := iteration_sound (s := s) h ch tail
      unfold loop
      split
      · rename_i heq
        rw [heq] at hsound
        exact ih (Ctx.Marked.advance hsound _) _
      · exact .inl (Option.some_ne_none _)
      · rename_i heq
        rw [heq] at hsound
        exact .inr hsound

end Runs

end Sylar.Http
