import Sylar.Interleaving
import Sylar.Timer

/-! # Hooked calls with a timeout

`do_io` and `connect_with_timeout` share a scheme.  When the socket is not ready the
fiber arms a condition timer, registers itself for the event of the fd, and suspends.
Who resumes it is the event or the timeout callback, which sets `tinfo->cancelled` and
calls `cancelEvent`.  After it was resumed the fiber cancels the timer, tests
`tinfo->cancelled`, and, in `do_io`, tries again with the same `timer_info`.

`hookMachine` is one fiber that makes such calls on one event of one fd, with the timers
it arms, the callbacks that other workers have taken from them, and the deliveries of
the event.  A callback is named by its `timer_info`; it locks it, tests `cancelled`, sets
it, and calls `cancelEvent`, and each of these is a step.

**`timeout_kept`**: a fiber that is parked always has a live timer or a callback on its
way, in a run in which every registration is made before the timeout callback has gone
by. -/
namespace Sylar
open Interleaving

def ETIMEDOUT : Nat := 110

/-- A call of `do_io`, or of `connect_with_timeout`, which does not try again. -/
structure IoCall where
  retries : Bool
  timeout : Nat
  deriving DecidableEq, Repr

/-- `to != (uint64_t)-1`. -/
def IoCall.timed (c : IoCall) : Bool := c.timeout != uint64Max

/-- The next step of the fiber; `timer` is the timer it has armed in this round. -/
inductive IoPhase
  | outside
  /-- It calls the function of the system. -/
  | trying
  /-- Before `addConditionTimer`. -/
  | arming
  /-- Before `addEvent`. -/
  | registering (timer : Option TimerId)
  /-- `addEvent` has failed. -/
  | failed (timer : Option TimerId)
  /-- Before `YieldToHold`. -/
  | suspending (timer : Option TimerId)
  | parked (timer : Option TimerId)
  /-- Back from `YieldToHold`, before `timer->cancel()`. -/
  | resumed (timer : Option TimerId)
  /-- Before the test of `tinfo->cancelled`. -/
  | testing
  deriving DecidableEq, Repr

namespace IoPhase

/-- Between the registration and the return from `YieldToHold`. -/
def waits : IoPhase → Bool
  | suspending _ => true
  | parked _ => true
  | _ => false

def registers : IoPhase → Bool
  | registering _ => true
  | _ => false

end IoPhase

/-- The next step of a timeout callback that has been collected. -/
inductive CallbackPhase
  /-- It locks `weak_cond`. -/
  | scheduled
  /-- It tests `t->cancelled`. -/
  | locked
  /-- It sets it. -/
  | passed
  /-- It calls `cancelEvent`. -/
  | cancelling
  deriving DecidableEq, Repr

/-- The callback is past its test, and will call `cancelEvent`. -/
def CallbackPhase.acts : CallbackPhase → Bool
  | passed => true
  | cancelling => true
  | _ => false

structure HookIo where
  manager : TimerManager
  clock : Nat
  /-- The fiber is registered for the event. -/
  registered : Bool
  /-- The fiber is scheduled. -/
  queued : Bool
  phase : IoPhase
  call : IoCall
  /-- The `timer_info` of the call. -/
  tinfo : Nat
  /-- The field `cancelled` of each `timer_info`. -/
  cancelled : Nat → Nat
  callbacks : List (Nat × CallbackPhase)

inductive HookAction
  | call (c : IoCall)
  /-- The function of the system returns; `again` if it would block. -/
  | attempt (again : Bool)
  /-- `addConditionTimer`, with the timer made at the time `now`. -/
  | arm (id : TimerId) (now : Nat)
  /-- `addEvent`; `ok` if `epoll_ctl` succeeds. -/
  | addEvent (ok : Bool)
  | yieldToHold
  | resume
  /-- `timer->cancel()`. -/
  | cancelTimer
  /-- The test of `tinfo->cancelled`. -/
  | test
  | tick (d : Nat)
  /-- A worker collects what has expired at the time `now`. -/
  | listExpired (now : Nat) (addr : TimerId)
  /-- The next step of a callback; `ok` if `epoll_ctl` succeeds. -/
  | callback (k : Nat) (ok : Bool)
  /-- The event is triggered by its delivery or by `cancelAll`. -/
  | trigger

namespace HookIo

/-- `weak_cond.lock()`: the call or a callback holds the `timer_info`. -/
def held (s : HookIo) (info : Nat) : Bool :=
  (info == s.tinfo && s.phase != .outside) ||
    s.callbacks.any fun c => c.1 == info && c.2 != .scheduled

/-- `if ( timer ) timer->cancel()`. -/
def cancelTimer (s : HookIo) : Option TimerId → Option TimerManager
  | none => some s.manager
  | some id => (s.manager.cancel id).map Prod.fst

/-- `triggerEvent`: the fiber is scheduled. -/
def triggered (s : HookIo) : HookIo := { s with registered := false, queued := true }

/-- `addConditionTimer`, if there is a timeout. -/
def arm (s : HookIo) (id : TimerId) (now : Nat) : Option HookIo :=
  if s.call.timed then
    if s.manager.allocated id ∨ s.clock < now then none
    else
      let timer := Timer.new now s.call.timeout (some s.tinfo) false
      some { s with
        manager := ((s.manager.newTimer id timer).addTimerLocked id).1
        phase := .registering (some id) }
  else some { s with phase := .registering none }

/-- A step of the `k`-th callback. -/
def runCallback (s : HookIo) (k : Nat) (ok : Bool) : Option HookIo :=
  match s.callbacks[k]? with
  | none => none
  | some (info, .scheduled) =>
    some { s with
      callbacks :=
        if s.held info then s.callbacks.set k (info, .locked) else s.callbacks.eraseIdx k }
  | some (info, .locked) =>
    some { s with
      callbacks :=
        if s.cancelled info = 0 then s.callbacks.set k (info, .passed)
        else s.callbacks.eraseIdx k }
  | some (info, .passed) =>
    some { s with
      cancelled := Function.update s.cancelled info ETIMEDOUT
      callbacks := s.callbacks.set k (info, .cancelling) }
  | some (_, .cancelling) =>
    let s := { s with callbacks := s.callbacks.eraseIdx k }
    some (if s.registered && ok then s.triggered else s)

def step (s : HookIo) : HookAction → Option HookIo
  | .call c =>
    match s.phase with
    | .outside =>
      some { s with
        phase := .trying
        call := c
        tinfo := s.tinfo + 1
        cancelled := Function.update s.cancelled (s.tinfo + 1) 0 }
    | _ => none
  | .attempt again =>
    match s.phase with
    | .trying => some { s with phase := if again then .arming else .outside }
    | _ => none
  | .arm id now =>
    match s.phase with
    | .arming => s.arm id now
    | _ => none
  | .addEvent ok =>
    match s.phase with
    | .registering timer =>
      -- the assertion that the event is not registered
      if s.registered then none
      else if ok then some { s with registered := true, phase := .suspending timer }
      else some { s with phase := .failed timer }
    | _ => none
  | .yieldToHold =>
    match s.phase with
    | .suspending timer => some { s with phase := .parked timer }
    | _ => none
  | .resume =>
    match s.phase with
    | .parked timer =>
      if s.queued then some { s with queued := false, phase := .resumed timer } else none
    | _ => none
  | .cancelTimer =>
    match s.phase with
    | .resumed timer =>
      (s.cancelTimer timer).map fun manager => { s with manager, phase := .testing }
    | .failed timer =>
      (s.cancelTimer timer).map fun manager => { s with manager, phase := .outside }
    | _ => none
  | .test =>
    match s.phase with
    | .testing =>
      some { s with
        phase := if s.cancelled s.tinfo ≠ 0 then .outside
          else if s.call.retries then .trying else .outside }
    | _ => none
  | .tick d => some { s with clock := s.clock + d }
  | .listExpired now addr =>
    if s.clock < now then none
    else
      (s.manager.listExpiredLocked now addr).map fun r =>
        { s with
          manager := r.1
          callbacks := s.callbacks ++ (r.2.filterMap id).map fun info => (info, .scheduled) }
  | .callback k ok => s.runCallback k ok
  | .trigger => if s.registered then some s.triggered else none

/-- Before the first call, at the time `now`. -/
def initial (now : Nat) : HookIo :=
  { manager := .new now
    clock := now
    registered := false
    queued := false
    phase := .outside
    call := { retries := false, timeout := 0 }
    tinfo := 0
    cancelled := fun _ => 0
    callbacks := [] }

/-! ## The timeout of a parked fiber -/

/-- A timer of the call is in the set, or its callback has yet to test `cancelled`. -/
def HasTimer (s : HookIo) : Prop :=
  (∃ id ∈ s.manager.timers, (s.manager.timer id).cb = some s.tinfo) ∨
    ∃ c ∈ s.callbacks, c.1 = s.tinfo ∧ c.2.acts = false

/-- A callback is going to call `cancelEvent`. -/
def Acting (s : HookIo) : Prop := ∃ c ∈ s.callbacks, c.2.acts = true

/-- The timeout is still to come: a timer that will find `cancelled` unset, or a callback
that has. -/
def Watched (s : HookIo) : Prop := (s.cancelled s.tinfo = 0 ∧ s.HasTimer) ∨ s.Acting

/-- **A lost timeout**: the fiber is parked on the event, its timeout callback has run,
no timer of it is left, and nothing is going to resume it. -/
structure LostTimeout (s : HookIo) : Prop where
  parked : ∃ timer, s.phase = .parked timer
  timed : s.call.timed = true
  registered : s.registered = true
  unscheduled : s.queued = false
  cancelled : s.cancelled s.tinfo ≠ 0
  noTimer : ∀ id ∈ s.manager.timers, (s.manager.timer id).cb ≠ some s.tinfo
  noCallback : ∀ c ∈ s.callbacks, c.1 ≠ s.tinfo ∧ c.2.acts = false

/-- In a call with a timeout a registration is made before the timeout callback has gone
by, or while one has yet to call `cancelEvent`; and the `cancelEvent` of a callback does
not fail in `epoll_ctl` on the registered event. -/
def KeepsTimeout (s : HookIo) : HookAction → Prop
  | .addEvent ok =>
    ok = true → s.call.timed = true →
      s.cancelled s.tinfo = 0 ∨ (s.callbacks.any fun c => c.2.acts) = true
  | .callback k ok =>
    s.registered = true → (s.callbacks[k]?.map Prod.snd) = some .cancelling → ok = true
  | _ => True

instance (s : HookIo) : (a : HookAction) → Decidable (s.KeepsTimeout a)
  | .addEvent ok => inferInstanceAs (Decidable (ok = true → _ = true → _ ∨ _ = true))
  | .callback _ ok => inferInstanceAs (Decidable (_ = true → _ = _ → ok = true))
  | .call _ | .attempt _ | .arm _ _ | .yieldToHold | .resume | .cancelTimer | .test | .tick _
  | .listExpired _ _ | .trigger => .isTrue trivial

/-- The timer that a fiber has armed has not gone by, while it registers. -/
def Armed (s : HookIo) : Prop :=
  s.cancelled s.tinfo ≠ 0 ∨ s.HasTimer ∨ (s.tinfo, .passed) ∈ s.callbacks

/-- **The invariant.** -/
structure Inv (s : HookIo) : Prop where
  valid : s.manager.Valid
  waits : s.registered = true → s.phase.waits = true
  queued : s.queued = true → s.registered = false ∧ s.phase.waits = true
  armed : s.phase.registers = true → s.call.timed = true → s.Armed
  watched : s.registered = true → s.call.timed = true → s.Watched

end HookIo

/-- A fiber that makes hooked calls on one event. -/
def hookMachine : Machine HookIo HookAction where
  init s := ∃ now, s = HookIo.initial now
  step := HookIo.step

namespace HookIo
variable {s t : HookIo}

theorem Watched.not_lost (h : s.Watched) : ¬ s.LostTimeout := by
  intro hlost
  rcases h with ⟨hzero, -⟩ | ⟨c, hc, hacts⟩
  · exact hlost.cancelled hzero
  · rw [(hlost.noCallback c hc).2] at hacts
    cases hacts

/-! ## The steps -/

/-- The registration finds the timer of this round, or a callback that will act. -/
theorem Armed.watched (h : s.Armed)
    (hok : s.cancelled s.tinfo = 0 ∨ (s.callbacks.any fun c => c.2.acts) = true) : s.Watched := by
  rcases hok with hzero | hacts
  · rcases h with hne | htimer | hpassed
    · exact absurd hzero hne
    · exact Or.inl ⟨hzero, htimer⟩
    · exact Or.inr ⟨_, hpassed, rfl⟩
  · obtain ⟨c, hc, hc'⟩ := List.any_eq_true.mp hacts
    exact Or.inr ⟨c, hc, hc'⟩

/-- A fiber that is neither registered nor scheduled, and does not register. -/
theorem Inv.of_idle (hvalid : s.manager.Valid) (hregistered : s.registered = false)
    (hqueued : s.queued = false) (hphase : s.phase.registers = false) : s.Inv where
  valid := hvalid
  waits hr := by
    rw [hregistered] at hr
    cases hr
  queued hq := by
    rw [hqueued] at hq
    cases hq
  armed hp := by
    rw [hphase] at hp
    cases hp
  watched hr := by
    rw [hregistered] at hr
    cases hr

/-- Outside of its wait the fiber is neither registered nor scheduled. -/
theorem Inv.idle (h : s.Inv) (hphase : s.phase.waits = false) :
    s.registered = false ∧ s.queued = false := by
  constructor
  · by_contra hr
    have := h.waits (by simpa using hr)
    rw [hphase] at this
    cases this
  · by_contra hq
    have := (h.queued (by simpa using hq)).2
    rw [hphase] at this
    cases this

/-- A fiber that waits does not register. -/
theorem not_registers {p : IoPhase} (h : p.waits = true) : p.registers = false := by
  cases p with
  | registering timer => cases h
  | _ => rfl

theorem Inv.triggered (h : s.Inv) (hr : s.registered = true) : s.triggered.Inv where
  valid := h.valid
  waits := nofun
  queued _ := ⟨rfl, h.waits hr⟩
  armed hp := by
    have hp : s.phase.registers = true := hp
    rw [not_registers (h.waits hr)] at hp
    cases hp
  watched := nofun

/-- The fiber arms the timer of its call. -/
theorem Inv.arm (h : s.Inv) {id : TimerId} {now : Nat} (hphase : s.phase = .arming)
    (hstep : s.arm id now = some t) : t.Inv := by
  obtain ⟨hr, hq⟩ := h.idle (by rw [hphase]; rfl)
  rw [HookIo.arm] at hstep
  split_ifs at hstep with htimed hfree
  · obtain rfl := Option.some.inj hstep
    have hfree : s.manager.allocated id = false := by simpa using (not_or.mp hfree).1
    refine ⟨(h.valid.newTimer hfree _).addTimerLocked (Function.update_self ..), ?_, ?_, ?_, ?_⟩
    · intro hr'
      exact absurd (hr.symm.trans hr') nofun
    · intro hq'
      exact absurd (hq.symm.trans hq') nofun
    · intro _ _
      refine Or.inr (Or.inl (Or.inl ⟨id, TimerManager.mem_addTimerLocked .., ?_⟩))
      dsimp only
      rw [TimerManager.timer_addTimerLocked]
      exact congrArg Timer.cb (Function.update_self (f := s.manager.timer) ..)
    · intro hr'
      exact absurd (hr.symm.trans hr') nofun
  · obtain rfl := Option.some.inj hstep
    refine ⟨h.valid, ?_, ?_, ?_, ?_⟩
    · intro hr'
      exact absurd (hr.symm.trans hr') nofun
    · intro hq'
      exact absurd (hq.symm.trans hq') nofun
    · exact fun _ htimed' => absurd htimed' htimed
    · intro hr'
      exact absurd (hr.symm.trans hr') nofun

/-- A timer that is collected leaves a callback behind. -/
theorem HasTimer.listExpired (h : s.HasTimer) (hvalid : s.manager.Valid) {now : Nat}
    {addr : TimerId} {m : TimerManager} {cbs : List (Option CallbackId)}
    (hl : s.manager.listExpiredLocked now addr = some (m, cbs)) :
    HasTimer { s with
      manager := m
      callbacks := s.callbacks ++ (cbs.filterMap id).map fun info => (info, .scheduled) } := by
  rcases h with ⟨id, hid, hcb⟩ | ⟨c, hc, hinfo⟩
  · rcases TimerManager.listExpiredLocked_spec hvalid hl hid with ⟨hin, heq⟩ | htaken
    · exact Or.inl ⟨id, hin, by rw [heq]; exact hcb⟩
    · refine Or.inr ⟨(s.tinfo, .scheduled), List.mem_append_right _ ?_, rfl, rfl⟩
      refine List.mem_map.mpr ⟨s.tinfo, List.mem_filterMap.mpr ⟨_, htaken, hcb⟩, rfl⟩
  · exact Or.inr ⟨c, List.mem_append_left _ hc, hinfo⟩

theorem Inv.listExpired (h : s.Inv) {now : Nat} {addr : TimerId} {m : TimerManager}
    {cbs : List (Option CallbackId)}
    (hl : s.manager.listExpiredLocked now addr = some (m, cbs)) :
    Inv { s with
      manager := m
      callbacks := s.callbacks ++ (cbs.filterMap id).map fun info => (info, .scheduled) } where
  valid := h.valid.listExpiredLocked hl
  waits := h.waits
  queued := h.queued
  armed hp ht := by
    rcases h.armed hp ht with hne | htimer | hpassed
    · exact Or.inl hne
    · exact Or.inr (Or.inl (htimer.listExpired h.valid hl))
    · exact Or.inr (Or.inr (List.mem_append_left _ hpassed))
  watched hr ht := by
    rcases h.watched hr ht with ⟨hzero, htimer⟩ | ⟨c, hc, hacts⟩
    · exact Or.inl ⟨hzero, htimer.listExpired h.valid hl⟩
    · exact Or.inr ⟨c, List.mem_append_left _ hc, hacts⟩

/-- The callbacks other than the `k`-th are there after it was replaced or removed. -/
theorem mem_of_ne {l : List (Nat × CallbackPhase)} {k : Nat} {c₀ c : Nat × CallbackPhase}
    (hk : l[k]? = some c₀) (hc : c ∈ l) (hne : c ≠ c₀) (v : Nat × CallbackPhase) :
    c ∈ l.set k v ∧ c ∈ l.eraseIdx k := by
  obtain ⟨i, hi⟩ := List.mem_iff_getElem?.mp hc
  have hik : i ≠ k := by
    rintro rfl
    rw [hk] at hi
    exact hne (Option.some.inj hi).symm
  constructor
  · refine List.mem_iff_getElem?.mpr ⟨i, ?_⟩
    rw [List.getElem?_set_ne (Ne.symm hik), hi]
  · exact List.mem_eraseIdx_iff_getElem?.mpr ⟨i, hik, hi⟩

theorem mem_set_self {l : List (Nat × CallbackPhase)} {k : Nat} {c₀ : Nat × CallbackPhase}
    (hk : l[k]? = some c₀) (v : Nat × CallbackPhase) : v ∈ l.set k v := by
  obtain ⟨hlt, -⟩ := List.getElem?_eq_some_iff.mp hk
  exact List.mem_set hlt v

/-- Only the callbacks and `cancelled` change. -/
theorem Inv.callbacks (h : s.Inv) {cancelled : Nat → Nat} {callbacks : List (Nat × CallbackPhase)}
    (harmed : s.phase.registers = true → s.Armed → Armed { s with cancelled, callbacks })
    (hwatched : s.phase.waits = true → s.Watched → Watched { s with cancelled, callbacks }) :
    Inv { s with cancelled, callbacks } where
  valid := h.valid
  waits := h.waits
  queued := h.queued
  armed hp ht := harmed hp (h.armed hp ht)
  watched hr ht := hwatched (h.waits hr) (h.watched hr ht)

section Callback
variable {k info : Nat}

/-- A callback has locked its `timer_info`, or found it gone: that of a call in progress
is not. -/
theorem Inv.lock (h : s.Inv) (hk : s.callbacks[k]? = some (info, .scheduled)) :
    Inv { s with
      callbacks :=
        if s.held info then s.callbacks.set k (info, .locked) else s.callbacks.eraseIdx k } := by
  have hkeep := fun c hc hne => mem_of_ne hk (c := c) hc hne (info, .locked)
  have hstays : ∀ c ∈ s.callbacks, c ≠ (info, .scheduled) →
      c ∈ if s.held info then s.callbacks.set k (info, .locked) else s.callbacks.eraseIdx k := by
    intro c hc hne
    split_ifs
    · exact (hkeep c hc hne).1
    · exact (hkeep c hc hne).2
  have htimer : s.phase ≠ .outside → s.HasTimer → HasTimer { s with
      callbacks :=
        if s.held info then s.callbacks.set k (info, .locked) else s.callbacks.eraseIdx k } := by
    rintro hin (hset | ⟨c, hc, hinfo, hacts⟩)
    · exact Or.inl hset
    · by_cases hc₀ : c = (info, .scheduled)
      · subst hc₀
        have hheld : s.held info = true := by
          have hinfo : info = s.tinfo := hinfo
          rw [held]
          rw [hinfo, beq_self_eq_true, bne_iff_ne.mpr hin]
          rfl
        refine Or.inr ⟨(info, .locked), ?_, hinfo, rfl⟩
        show _ ∈ if s.held info then _ else _
        rw [if_pos hheld]
        exact mem_set_self hk _
      · exact Or.inr ⟨c, hstays c hc hc₀, hinfo, hacts⟩
  refine h.callbacks ?_ ?_
  · rintro hp (hne | ht | hpassed)
    · exact Or.inl hne
    · refine Or.inr (Or.inl (htimer ?_ ht))
      rintro hout
      rw [hout] at hp
      cases hp
    · exact Or.inr (Or.inr (hstays (s.tinfo, .passed) hpassed nofun))
  · rintro hw (⟨hzero, ht⟩ | ⟨c, hc, hacts⟩)
    · refine Or.inl ⟨hzero, htimer ?_ ht⟩
      rintro hout
      rw [hout] at hw
      cases hw
    · refine Or.inr ⟨c, hstays c hc ?_, hacts⟩
      rintro rfl
      cases hacts

/-- A callback tests `cancelled`. -/
theorem Inv.testCancelled (h : s.Inv) (hk : s.callbacks[k]? = some (info, .locked)) :
    Inv { s with
      callbacks :=
        if s.cancelled info = 0 then s.callbacks.set k (info, .passed)
        else s.callbacks.eraseIdx k } := by
  have hkeep := fun c hc hne => mem_of_ne hk (c := c) hc hne (info, .passed)
  split_ifs with hzero
  · -- it was a timer that had yet to test, and now it acts
    have htimer : s.HasTimer → HasTimer { s with callbacks := s.callbacks.set k (info, .passed) } ∨
        info = s.tinfo := by
      rintro (hset | ⟨c, hc, hinfo, hacts⟩)
      · exact Or.inl (Or.inl hset)
      · by_cases hc₀ : c = (info, .locked)
        · subst hc₀
          exact Or.inr hinfo
        · exact Or.inl (Or.inr ⟨c, (hkeep c hc hc₀).1, hinfo, hacts⟩)
    refine h.callbacks ?_ ?_
    · rintro - (hne | ht | hpassed)
      · exact Or.inl hne
      · rcases htimer ht with ht | rfl
        · exact Or.inr (Or.inl ht)
        · exact Or.inr (Or.inr (mem_set_self hk _))
      · exact Or.inr (Or.inr (hkeep _ hpassed nofun).1)
    · rintro - -
      exact Or.inr ⟨_, mem_set_self hk _, rfl⟩
  · -- it returns, but it was no timer of a call whose `cancelled` is unset
    have htimer : s.cancelled s.tinfo = 0 → s.HasTimer →
        HasTimer { s with callbacks := s.callbacks.eraseIdx k } := by
      rintro hunset (hset | ⟨c, hc, hinfo, hacts⟩)
      · exact Or.inl hset
      · refine Or.inr ⟨c, (hkeep c hc ?_).2, hinfo, hacts⟩
        rintro rfl
        have hinfo : info = s.tinfo := hinfo
        exact hzero (hinfo ▸ hunset)
    refine h.callbacks ?_ ?_
    · intro _ harmed
      by_cases hunset : s.cancelled s.tinfo = 0
      · rcases harmed with hne | ht | hpassed
        · exact Or.inl hne
        · exact Or.inr (Or.inl (htimer hunset ht))
        · exact Or.inr (Or.inr (hkeep _ hpassed nofun).2)
      · exact Or.inl hunset
    · rintro - (⟨hunset, ht⟩ | ⟨c, hc, hacts⟩)
      · exact Or.inl ⟨hunset, htimer hunset ht⟩
      · refine Or.inr ⟨c, (hkeep c hc ?_).2, hacts⟩
        rintro rfl
        cases hacts

/-- A callback sets `cancelled`. -/
theorem Inv.setCancelled (h : s.Inv) (hk : s.callbacks[k]? = some (info, .passed)) :
    Inv { s with
      cancelled := Function.update s.cancelled info ETIMEDOUT
      callbacks := s.callbacks.set k (info, .cancelling) } := by
  refine h.callbacks ?_ ?_
  · intro _ harmed
    by_cases hinfo : s.tinfo = info
    · left
      show Function.update s.cancelled info ETIMEDOUT s.tinfo ≠ 0
      rw [hinfo, Function.update_self]
      decide
    · have hkeep := fun c hc hne => (mem_of_ne hk (c := c) hc hne (info, .cancelling)).1
      rcases harmed with hne | (hset | ⟨c, hc, hmine, hacts⟩) | hpassed
      · left
        show Function.update s.cancelled info ETIMEDOUT s.tinfo ≠ 0
        rw [Function.update_of_ne hinfo]
        exact hne
      · exact Or.inr (Or.inl (Or.inl hset))
      · refine Or.inr (Or.inl (Or.inr ⟨c, hkeep c hc ?_, hmine, hacts⟩))
        rintro rfl
        exact hinfo hmine.symm
      · refine Or.inr (Or.inr (hkeep _ hpassed fun heq => ?_))
        exact hinfo (Prod.mk.inj heq).1
  · rintro - -
    exact Or.inr ⟨_, mem_set_self hk _, rfl⟩

/-- A callback calls `cancelEvent`: it resumes the fiber if that is registered. -/
theorem Inv.cancelEvent (h : s.Inv) (hk : s.callbacks[k]? = some (info, .cancelling))
    {ok : Bool} (hok : s.registered = true → ok = true) :
    Inv (if s.registered && ok then
      HookIo.triggered { s with callbacks := s.callbacks.eraseIdx k }
      else { s with callbacks := s.callbacks.eraseIdx k }) := by
  have hkeep := fun c hc hne => (mem_of_ne hk (c := c) hc hne (info, .cancelling)).2
  have harmed : s.Armed → Armed { s with callbacks := s.callbacks.eraseIdx k } := by
    rintro (hne | (hset | ⟨c, hc, hinfo, hacts⟩) | hpassed)
    · exact Or.inl hne
    · exact Or.inr (Or.inl (Or.inl hset))
    · refine Or.inr (Or.inl (Or.inr ⟨c, hkeep c hc ?_, hinfo, hacts⟩))
      rintro rfl
      cases hacts
    · exact Or.inr (Or.inr (hkeep _ hpassed nofun))
  by_cases hr : s.registered = true
  · rw [if_pos (by rw [hr, hok hr]; rfl)]
    have hwaits := h.waits hr
    refine ⟨h.valid, nofun, fun _ => ⟨rfl, hwaits⟩, fun hp => ?_, nofun⟩
    exact absurd ((not_registers hwaits).symm.trans hp) nofun
  · rw [if_neg (by simp [hr])]
    exact ⟨h.valid, h.waits, h.queued, fun hp ht => harmed (h.armed hp ht),
      fun hr' => absurd hr' hr⟩

end Callback

theorem Inv.cancelTimer (h : s.Inv) {timer : Option TimerId} {m : TimerManager}
    (hm : s.cancelTimer timer = some m) : m.Valid := by
  cases timer with
  | none =>
    obtain rfl := Option.some.inj hm
    exact h.valid
  | some id =>
    obtain ⟨⟨m', res⟩, hcancel, rfl⟩ := Option.map_eq_some_iff.mp hm
    exact h.valid.cancel hcancel

section Action

theorem Inv.of_call (h : s.Inv) {c : IoCall} (hstep : s.step (.call c) = some t) : t.Inv := by
  unfold HookIo.step at hstep
  dsimp only at hstep
  split at hstep
  · rename_i hp
    obtain rfl := Option.some.inj hstep
    obtain ⟨hr, hq⟩ := h.idle (by rw [hp]; rfl)
    exact .of_idle h.valid hr hq rfl
  · cases hstep

theorem Inv.of_attempt (h : s.Inv) {again : Bool} (hstep : s.step (.attempt again) = some t) :
    t.Inv := by
  unfold HookIo.step at hstep
  dsimp only at hstep
  split at hstep
  · rename_i hp
    obtain rfl := Option.some.inj hstep
    obtain ⟨hr, hq⟩ := h.idle (by rw [hp]; rfl)
    exact .of_idle h.valid hr hq (by cases again <;> rfl)
  · cases hstep

theorem Inv.of_arm (h : s.Inv) {id : TimerId} {now : Nat}
    (hstep : s.step (.arm id now) = some t) : t.Inv := by
  unfold HookIo.step at hstep
  dsimp only at hstep
  split at hstep
  · rename_i hp
    exact h.arm hp hstep
  · cases hstep

theorem Inv.of_addEvent (h : s.Inv) {ok : Bool} (hok : s.KeepsTimeout (.addEvent ok))
    (hstep : s.step (.addEvent ok) = some t) : t.Inv := by
  unfold HookIo.step at hstep
  dsimp only at hstep
  split at hstep
  · rename_i timer hp
    obtain ⟨hr, hq⟩ := h.idle (by rw [hp]; rfl)
    split_ifs at hstep with hreg hsucc
    · obtain rfl := Option.some.inj hstep
      refine ⟨h.valid, fun _ => rfl, fun hq' => ?_, nofun, fun _ ht => ?_⟩
      · exact absurd (hq.symm.trans hq') nofun
      · exact (h.armed (by rw [hp]; rfl) ht).watched (hok hsucc ht)
    · obtain rfl := Option.some.inj hstep
      exact .of_idle h.valid hr hq rfl
  · cases hstep

theorem Inv.of_yieldToHold (h : s.Inv) (hstep : s.step .yieldToHold = some t) : t.Inv := by
  unfold HookIo.step at hstep
  dsimp only at hstep
  split at hstep
  · rename_i timer hp
    obtain rfl := Option.some.inj hstep
    exact ⟨h.valid, fun _ => rfl, fun hq => ⟨(h.queued hq).1, rfl⟩, nofun, h.watched⟩
  · cases hstep

theorem Inv.of_resume (h : s.Inv) (hstep : s.step .resume = some t) : t.Inv := by
  unfold HookIo.step at hstep
  dsimp only at hstep
  split at hstep
  · split at hstep
    · rename_i timer hp hq
      obtain rfl := Option.some.inj hstep
      exact .of_idle h.valid (h.queued hq).1 rfl rfl
    · cases hstep
  · cases hstep

/-- After the wake-up, and after a failed `addEvent`. -/
theorem Inv.of_cancelTimer (h : s.Inv) (hstep : s.step .cancelTimer = some t) : t.Inv := by
  unfold HookIo.step at hstep
  dsimp only at hstep
  split at hstep
  · rename_i timer hp
    obtain ⟨hr, hq⟩ := h.idle (by rw [hp]; rfl)
    obtain ⟨m, hc, rfl⟩ := Option.map_eq_some_iff.mp hstep
    exact .of_idle (h.cancelTimer hc) hr hq rfl
  · rename_i timer hp
    obtain ⟨hr, hq⟩ := h.idle (by rw [hp]; rfl)
    obtain ⟨m, hc, rfl⟩ := Option.map_eq_some_iff.mp hstep
    exact .of_idle (h.cancelTimer hc) hr hq rfl
  · cases hstep

theorem Inv.of_test (h : s.Inv) (hstep : s.step .test = some t) : t.Inv := by
  unfold HookIo.step at hstep
  dsimp only at hstep
  split at hstep
  · rename_i hp
    obtain rfl := Option.some.inj hstep
    obtain ⟨hr, hq⟩ := h.idle (by rw [hp]; rfl)
    exact .of_idle h.valid hr hq (by dsimp only; split_ifs <;> rfl)
  · cases hstep

theorem Inv.of_tick (h : s.Inv) {d : Nat} (hstep : s.step (.tick d) = some t) : t.Inv := by
  obtain rfl := Option.some.inj hstep
  exact ⟨h.valid, h.waits, h.queued, h.armed, h.watched⟩

theorem Inv.of_listExpired (h : s.Inv) {now : Nat} {addr : TimerId}
    (hstep : s.step (.listExpired now addr) = some t) : t.Inv := by
  unfold HookIo.step at hstep
  dsimp only at hstep
  split at hstep
  · cases hstep
  · obtain ⟨⟨m, cbs⟩, hl, rfl⟩ := Option.map_eq_some_iff.mp hstep
    exact h.listExpired hl

theorem Inv.of_callback (h : s.Inv) {k : Nat} {ok : Bool} (hok : s.KeepsTimeout (.callback k ok))
    (hstep : s.step (.callback k ok) = some t) : t.Inv := by
  unfold HookIo.step runCallback at hstep
  dsimp only at hstep
  split at hstep
  · cases hstep
  · rename_i info hk
    obtain rfl := Option.some.inj hstep
    exact h.lock hk
  · rename_i info hk
    obtain rfl := Option.some.inj hstep
    exact h.testCancelled hk
  · rename_i info hk
    obtain rfl := Option.some.inj hstep
    exact h.setCancelled hk
  · rename_i info hk
    obtain rfl := Option.some.inj hstep
    exact h.cancelEvent hk fun hr => hok hr (by rw [hk]; rfl)

theorem Inv.of_trigger (h : s.Inv) (hstep : s.step .trigger = some t) : t.Inv := by
  unfold HookIo.step at hstep
  dsimp only at hstep
  split at hstep
  · rename_i hr
    obtain rfl := Option.some.inj hstep
    exact h.triggered hr
  · cases hstep

/-- **Every step that keeps the timeout keeps the invariant.** -/
theorem Inv.step (h : s.Inv) {a : HookAction} (hok : s.KeepsTimeout a)
    (hstep : s.step a = some t) : t.Inv := by
  cases a with
  | call => exact h.of_call hstep
  | attempt => exact h.of_attempt hstep
  | arm => exact h.of_arm hstep
  | addEvent => exact h.of_addEvent hok hstep
  | yieldToHold => exact h.of_yieldToHold hstep
  | resume => exact h.of_resume hstep
  | cancelTimer => exact h.of_cancelTimer hstep
  | test => exact h.of_test hstep
  | tick => exact h.of_tick hstep
  | listExpired => exact h.of_listExpired hstep
  | callback => exact h.of_callback hok hstep
  | trigger => exact h.of_trigger hstep

end Action

theorem Inv.init (now : Nat) : (initial now).Inv :=
  .of_idle (TimerManager.Valid.new now) rfl rfl rfl

end HookIo

/-- **A timeout is not lost.**  In a run that keeps the timeouts, a fiber that is parked
on its event, in a call with a timeout, always has a live timer or a callback that is
going to resume it; and no state of the run is one in which its timeout is lost. -/
theorem timeout_kept {tr : List (HookIo × HookAction)} {s : HookIo}
    (hrun : hookMachine.Run tr s) (hok : ∀ p ∈ tr, p.1.KeepsTimeout p.2) :
    ∀ u ∈ Machine.visits tr s, ¬ u.LostTimeout ∧
      (u.registered = true → u.call.timed = true → u.Watched) := by
  have hinit : ∀ s, hookMachine.init s → s.Inv := by
    rintro _ ⟨now, rfl⟩
    exact .init now
  have hstep : ∀ s a t, HookIo.Inv s → s.KeepsTimeout a → hookMachine.step s a = some t →
      t.Inv := fun _ _ _ hs ha ht => hs.step ha ht
  intro u hu
  have hu := hrun.invariant_visits _ hinit hstep hok u hu
  exact ⟨fun hlost => (hu.watched hlost.registered hlost.timed).not_lost hlost, hu.watched⟩

/-- A fiber that reads with a timeout of one second, parks, and is resumed by its timeout
callback; the call returns. -/
theorem timeout_kept_expired :
    ∃ tr s, hookMachine.Run tr s ∧ s.phase = .outside ∧ s.cancelled s.tinfo = ETIMEDOUT ∧
      (∀ p ∈ tr, p.1.KeepsTimeout p.2) ∧
      ∀ u ∈ Machine.visits tr s, ¬ u.LostTimeout ∧
        (u.registered = true → u.call.timed = true → u.Watched) := by
  obtain ⟨s, hrun, hs⟩ := Machine.Run.of_exec_any (M := hookMachine) ⟨5000, rfl⟩
    [.call ⟨true, 1000⟩, .attempt true, .arm 5 5000, .addEvent true, .yieldToHold, .tick 1000,
      .listExpired 6000 6, .callback 0 true, .callback 0 true, .callback 0 true, .callback 0 true,
      .resume, .cancelTimer, .test]
    (fun s => s.phase == .outside && s.cancelled s.tinfo == ETIMEDOUT) (by decide +kernel)
  simp only [Bool.and_eq_true, beq_iff_eq] at hs
  exact ⟨_, s, hrun, hs.1, hs.2, by decide +kernel, timeout_kept hrun (by decide +kernel)⟩

/-- The steps of a call whose timer expires between `addConditionTimer` and `addEvent`. -/
def expiredBeforeAddEvent (retries : Bool) : List HookAction :=
  [.call ⟨retries, 1000⟩, .attempt true, .arm 5 5000, .tick 1000, .listExpired 6000 6,
    .callback 0 true, .callback 0 true, .callback 0 true, .callback 0 true, .addEvent true,
    .yieldToHold]

theorem lost_of_expiredBeforeAddEvent (retries : Bool) :
    ∃ tr s, hookMachine.Run tr s ∧ s.call = ⟨retries, 1000⟩ ∧ s.LostTimeout := by
  obtain ⟨s, hrun, hs⟩ := Machine.Run.of_exec_any (M := hookMachine) (s := .initial 5000)
    ⟨5000, rfl⟩ (expiredBeforeAddEvent retries)
    (fun s => s.phase == .parked (some 5) && s.call == ⟨retries, 1000⟩ && s.registered &&
      !s.queued && s.cancelled s.tinfo == ETIMEDOUT && s.manager.timers.isEmpty &&
      s.callbacks.isEmpty) (by cases retries <;> decide +kernel)
  simp only [Bool.and_eq_true, beq_iff_eq, Bool.not_eq_true', List.isEmpty_iff] at hs
  obtain ⟨⟨⟨⟨⟨⟨hphase, hcall⟩, hregistered⟩, hqueued⟩, hcancelled⟩, htimers⟩, hcallbacks⟩ := hs
  refine ⟨_, s, hrun, hcall, ⟨_, hphase⟩, ?_, hregistered, hqueued, ?_, ?_, ?_⟩
  · rw [hcall]
    rfl
  · rw [hcancelled]
    decide
  · rw [htimers]
    nofun
  · rw [hcallbacks]
    nofun

/-- The timer expires between `addConditionTimer` and `addEvent`, in `do_io` and in
`connect_with_timeout`: the callback sets `cancelled`, its `cancelEvent` finds nothing,
and the fiber parks with no timer left. -/
theorem timeout_lost_before_addEvent :
    (∃ tr s, hookMachine.Run tr s ∧ s.call = ⟨true, 1000⟩ ∧ s.LostTimeout) ∧
      ∃ tr s, hookMachine.Run tr s ∧ s.call = ⟨false, 1000⟩ ∧ s.LostTimeout :=
  ⟨lost_of_expiredBeforeAddEvent true, lost_of_expiredBeforeAddEvent false⟩

end Sylar
