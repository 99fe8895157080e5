import Sylar.HttpParser

/-! # What the callbacks keep

The code of `http_parser_execute` reaches what `parser->data` points to by the callbacks only.
So what every callback keeps, the call keeps: `Settings.Keeps.execute`. -/
namespace Sylar.Http
variable {σ : Type} {s : Settings σ} {P : σ → Prop} {c : Ctx σ}

/-- Every callback keeps this. -/
structure Settings.Keeps (s : Settings σ) (P : σ → Prop) : Prop where
  onData : ∀ m p buf {u}, P u → P (s.onData m p buf u).1
  onNotify : ∀ n p {u}, P u → P (s.onNotify n p u).1

/-- What `parser->data` points to where the code of a state is left. -/
def Flow.user : Flow σ → σ
  | .next c | .fail c _ _ | .exit c => c.user

/-- What `parser->data` points to where the loop ends. -/
def Outcome.user : Outcome σ → σ
  | .ran c | .left c _ => c.user

namespace Settings.Keeps
variable (hs : s.Keeps P)
include hs

/-! ## The macros -/

theorem notify (h : P c.user) {n : Notice} {past : Bool} {k : Ctx σ → Flow σ}
    (hk : ∀ d : Ctx σ, P d.user → P (k d).user) : P (c.notify s n past k).user := by
  have hcall : P (s.onNotify n c.parser c.user).1 := hs.onNotify n c.parser h
  unfold Ctx.notify
  dsimp only
  split
  · exact hk _ hcall
  · exact hcall

theorem callback (h : P c.user) {m : Mark} {more : Bytes} {past : Bool} {k : Ctx σ → Flow σ}
    (hk : ∀ d : Ctx σ, P d.user → P (k d).user) : P (c.callback s m more past k).user := by
  unfold Ctx.callback
  split
  · exact hk c h
  · rename_i span _
    have hcall : P (s.onData m c.parser (span ++ more) c.user).1 := hs.onData m c.parser _ h
    dsimp only
    split
    · exact hk _ hcall
    · exact hcall

omit hs in
theorem count (h : P c.user) {v : Nat} {k : Ctx σ → Flow σ}
    (hk : ∀ d : Ctx σ, P d.user → P (k d).user) : P (c.count v k).user := by
  unfold Ctx.count
  dsimp only
  split
  · exact h
  · exact hk _ h

omit hs in
theorem expect (h : P c.user) (ok : Bool) (e : Errno) (st : State) :
    P (c.expect ok e st).user := by
  unfold Ctx.expect
  split <;> exact h

/-! ## States that hand a byte on -/

theorem onMessageDone (h : P c.user) : P (onMessageDone s c).user := by
  refine hs.notify (by exact h) fun d hd => ?_
  split <;> exact hd

theorem completeMessage (h : P c.user) : P (completeMessage s c).user :=
  hs.notify (by exact h) fun _ hd => hd

theorem onHeadersDone (h : P c.user) (ch : UInt8) : P (onHeadersDone s c ch).user := by
  unfold Http.onHeadersDone
  split
  · exact h
  dsimp only
  repeat' split
  all_goals first
    | exact hs.completeMessage h
    | exact hs.notify (by exact h) fun _ hd => hd
    | exact h

theorem onHeadersAlmostDone (h : P c.user) (ch : UInt8) :
    P (onHeadersAlmostDone s c ch).user := by
  unfold Http.onHeadersAlmostDone
  split
  · exact h
  split
  · exact hs.notify (by exact h) fun _ hd => hs.onMessageDone (by exact hd)
  dsimp only
  split
  · exact h
  split
  · exact hs.onNotify _ _ h
  · exact hs.onHeadersDone (hs.onNotify _ _ h) ch

theorem onHeaderFieldStart (h : P c.user) (ch : UInt8) : P (onHeaderFieldStart s c ch).user := by
  unfold Http.onHeaderFieldStart
  split
  · exact h
  split
  · exact hs.onHeadersAlmostDone (by exact h) ch
  split <;> exact h

omit hs in
theorem onHeaderValueStart (h : P c.user) (ch : UInt8) : P (onHeaderValueStart c ch).user := by
  unfold Http.onHeaderValueStart
  dsimp only
  repeat' split
  all_goals exact h

theorem onHeaderValueLws (h : P c.user) (ch : UInt8) : P (onHeaderValueLws s c ch).user := by
  unfold Http.onHeaderValueLws
  dsimp only
  split
  · split <;> exact onHeaderValueStart (by exact h) ch
  · exact hs.onHeaderFieldStart (by exact h) ch

theorem onHeaderValueDiscardLws (h : P c.user) (ch : UInt8) :
    P (onHeaderValueDiscardLws s c ch).user := by
  unfold Http.onHeaderValueDiscardLws
  split
  · exact h
  split
  · exact h
  · exact hs.callback (by exact h) fun _ hd => hs.onHeaderFieldStart (by exact hd) ch

theorem onResStatus (h : P c.user) (ch : UInt8) : P (onResStatus s c ch).user := by
  unfold Http.onResStatus
  repeat' split
  · exact hs.callback (by exact h) fun _ hd => hd
  · exact hs.callback (by exact h) fun _ hd => hd
  · exact h

theorem onResStatusStart (h : P c.user) (ch : UInt8) : P (onResStatusStart s c ch).user := by
  unfold Http.onResStatusStart
  dsimp only
  split
  · exact hs.onResStatus (by exact h) ch
  · exact h

theorem onStartReq (h : P c.user) (ch : UInt8) : P (onStartReq s c ch).user := by
  unfold Http.onStartReq
  dsimp only
  repeat' split
  all_goals first
    | exact hs.notify (by exact h) fun _ hd => hd
    | exact h

omit hs in
theorem onReqMethod (h : P c.user) (ch : UInt8) : P (onReqMethod c ch).user := by
  unfold Http.onReqMethod
  dsimp only
  repeat' split
  all_goals exact h

omit hs in
theorem onUrlChar (h : P c.user) (ch : UInt8) : P (onUrlChar c ch).user := by
  unfold Http.onUrlChar
  dsimp only
  split <;> exact h

theorem onUrl (h : P c.user) (ch : UInt8) : P (onUrl s c ch).user := by
  unfold Http.onUrl
  dsimp only
  split
  · exact hs.callback (by exact h) fun _ hd => hd
  split
  · exact hs.callback (by exact h) fun _ hd => hd
  · exact onUrlChar h ch

omit hs in
theorem onChunkSize (h : P c.user) (ch : UInt8) : P (onChunkSize c ch).user := by
  unfold Http.onChunkSize
  repeat' split
  all_goals exact h

theorem onChunkSizeAlmostDone (h : P c.user) (ch : UInt8) :
    P (onChunkSizeAlmostDone s c ch).user := by
  unfold Http.onChunkSizeAlmostDone
  dsimp only
  split
  · exact h
  split <;> exact hs.notify (by exact h) fun _ hd => hd

omit hs in
theorem onVersionDigit {d : Ctx σ} (h : P c.user) (hd : P d.user) (ch : UInt8) :
    P (onVersionDigit c ch d).user := by
  unfold Http.onVersionDigit
  split
  · exact hd
  · exact h

/-! ## A call -/

/-- One byte. -/
theorem byteStep (h : P c.user) (ch : UInt8) : P (byteStep s c ch).user := by
  cases hst : c.parser.state <;> simp only [Http.byteStep, hst]
  case resStatus => exact hs.onResStatus h ch
  case reqServer | reqServerWithAt | reqPath | reqQueryStringStart | reqQueryString
      | reqFragmentStart | reqFragment =>
    exact hs.onUrl h ch
  case reqSchema | reqSchemaSlash | reqSchemaSlashSlash | reqServerStart =>
    split
    · exact h
    · exact onUrlChar h ch
  case chunkDataAlmostDone =>
    split
    · exact h
    · exact hs.callback (by exact h) fun _ hd => hd
  case startReqOrRes =>
    split
    · exact h
    split
    · exact hs.notify (by exact h) fun _ hd => hd
    · exact hs.onStartReq (by exact h) ch
  case startRes =>
    split
    · exact h
    split
    · exact hs.notify (by exact h) fun _ hd => hd
    · exact h
  case reqSpacesBeforeUrl =>
    split
    · exact h
    · split <;> exact onUrlChar (by exact h) ch
  case resStatusCode =>
    repeat' split
    all_goals first
      | exact hs.onResStatusStart h ch
      | exact h
  case resHttpMajor | resHttpMinor | reqHttpMajor | reqHttpMinor =>
    exact onVersionDigit h (by exact h) ch
  case chunkDataDone =>
    split
    · exact h
    · exact hs.notify (by exact h) fun _ hd => hd
  case resStatusStart => exact hs.onResStatusStart h ch
  case startReq => exact hs.onStartReq h ch
  case reqMethod => exact onReqMethod h ch
  case headerFieldStart => exact hs.onHeaderFieldStart h ch
  case headerValueStart => exact onHeaderValueStart h ch
  case headerValueLws => exact hs.onHeaderValueLws h ch
  case headerAlmostDone => exact expect h ..
  case headerValueDiscardLws => exact hs.onHeaderValueDiscardLws h ch
  case headersAlmostDone => exact hs.onHeadersAlmostDone h ch
  case headersDone => exact hs.onHeadersDone h ch
  case messageDone => exact hs.onMessageDone h
  case chunkSize => exact onChunkSize h ch
  case chunkSizeAlmostDone => exact hs.onChunkSizeAlmostDone h ch
  case headerValueDiscardWs =>
    repeat' split
    all_goals first
      | exact onHeaderValueStart h ch
      | exact h
  case dead | resOrRespH | resFirstStatusCode | reqHttpStart | reqHttpEnd | chunkSizeStart
      | chunkParameters =>
    repeat' split
    all_goals exact h
  case headerField | headerValue | bodyIdentity | bodyIdentityEof | chunkData => exact h
  -- the others take one kind of character
  all_goals exact expect h ..

theorem headerFieldRun (h : P c.user) (buf : Bytes) : P (headerFieldRun s c buf).2.user := by
  unfold Http.headerFieldRun
  dsimp only
  split
  · exact count (by exact h) fun _ hd => hd
  · dsimp only
    refine count (by exact h) fun d hd => ?_
    split
    · exact hs.callback (by exact hd) fun _ he => he
    · exact hd

theorem headerValueRun (h : P c.user) (buf : Bytes) : P (headerValueRun s c buf).2.user := by
  unfold Http.headerValueRun
  dsimp only
  split
  · exact count (by exact h) fun _ hd => hd
  · dsimp only
    exact hs.callback (by exact h) fun _ hd => count hd fun _ he => by exact he
  · dsimp only
    exact count (by exact h) fun _ hd => hs.callback (by exact hd) fun _ he => expect he ..
  · exact h

theorem bodyIdentityRun (h : P c.user) (buf : Bytes) : P (bodyIdentityRun s c buf).2.user := by
  unfold Http.bodyIdentityRun
  dsimp only
  split
  · exact hs.callback (by exact h) fun _ hd => hs.onMessageDone (by exact hd)
  · exact h

theorem step (h : P c.user) (ch : UInt8) (tail : Bytes) : P (step s c ch tail).2.user := by
  unfold Http.step
  split
  · exact hs.headerFieldRun h _
  · exact hs.headerValueRun h _
  · exact hs.bodyIdentityRun h _
  · exact h
  · show P (ite _ _ _ : Ctx σ).user
    split <;> exact h
  · exact hs.byteStep h ch

theorem iteration (h : P c.user) (ch : UInt8) (tail : Bytes) :
    P (iteration s c ch tail).2.user := by
  unfold Http.iteration
  dsimp only
  split
  · split
    · exact h
    · exact hs.step (by exact h) ch tail
  · exact hs.step h ch tail

theorem loop (h : P c.user) (skip : Nat) (buf : Bytes) : P (loop s skip c buf).user := by
  induction buf generalizing skip c with
  | nil =>
    rw [Http.loop]
    exact h
  | cons ch tail ih =>
    cases skip with
    | succ skip => exact ih h skip
    | zero =>
      have hiter := hs.iteration h ch tail
      rw [Http.loop]
      split
      all_goals
        rename_i heq
        rw [heq] at hiter
      · exact ih (by exact hiter) _
      · exact hiter
      · exact hiter

theorem flush (h : P c.user) : P (flush s c).user :=
  hs.callback h fun _ h => hs.callback h fun _ h => hs.callback h fun _ h =>
    hs.callback h fun _ h => hs.callback h fun _ h => h

/-- **A call keeps what its callbacks keep.** -/
theorem execute {st : Session σ} (h : P st.2) (data : Bytes) : P (execute s st data).1.2 := by
  unfold Http.execute
  dsimp only
  split
  · exact h
  split
  · unfold Http.executeEof
    dsimp only
    split
    · split <;> exact hs.onNotify _ _ h
    · exact h
    · exact h
    · exact h
    · exact h
    · exact h
  · have hloop := hs.loop (c := ⟨st.1, st.2, openMarks st.1.state⟩) h 0 data
    unfold Outcome.close
    split
    · rename_i heq
      rw [heq] at hloop
      exact hloop
    · rename_i d heq
      rw [heq] at hloop
      have hflush := hs.flush (c := d) hloop
      split
      all_goals
        rename_i heq
        rw [heq] at hflush
        exact hflush

end Settings.Keeps

end Sylar.Http
