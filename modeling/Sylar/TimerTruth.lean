import Sylar.TimerCallbacks

/-! # What `cancel`, `refresh` and `reset` report

A caller takes the result of these calls for whether the timer was pending, so that its callback
could still have been called.  The three look for the callback of the timer, which by
`exact_of_reachable` a timer has as long as it is in the set; but `reset` returns early, and true,
when the period is not to change, and does not look.

**`truthful_iff`**: in every reachable state this is the only call that does not tell the truth. -/
namespace Sylar
open Interleaving

/-- A call on a timer; `now` is the clock that it reads. -/
inductive TimerCall
  | cancel
  | refresh (now : Nat)
  | reset (now ms : Nat) (fromNow : Bool)
  deriving DecidableEq, Repr

namespace TimerManager
variable {m m' : TimerManager} {id x : TimerId} {now : Nat}

/-- The timer behind a call that returns true. -/
def Done (m m' : TimerManager) (id : TimerId) : TimerCall → Prop
  | .cancel =>
    -- no matter what is called behind it, but for a new timer at the address
    ∀ as s, (∀ now ms cb recurring, .addTimer id now ms cb recurring ∉ as) →
      timerMachine.exec m' as = some s → id ∉ s.timers ∧
        ∀ now addr r, s.listExpiredCb now addr = some r →
          ∃ due : List TimerId, id ∉ due ∧ r.2 = due.map fun x => (s.timer x).cb
  | .refresh now => (m'.timer id).next = add64 now (m.timer id).ms
  | .reset now ms fromNow =>
    (m'.timer id).ms = ms ∧
      (m'.timer id).next =
        add64 (if fromNow then now else sub64 (m.timer id).next (m.timer id).ms) ms

/-- The call, and what it returns. -/
def call (m : TimerManager) (id : TimerId) : TimerCall → Option (TimerManager × Bool)
  | .cancel => m.cancel id
  | .refresh now => some (m.refresh id now)
  | .reset now ms fromNow => some (m.reset id now ms fromNow)

/-- The call returns whether the timer was pending, and does what it says, or nothing. -/
def Truthful (m : TimerManager) (id : TimerId) (c : TimerCall) : Prop :=
  ∃ m' res, m.call id c = some (m', res) ∧ (res = true ↔ id ∈ m.timers) ∧
    (res = true → m.Done m' id c) ∧ (res = false → m' = m)

/-- The period is not to change. -/
def SamePeriod (m : TimerManager) (id : TimerId) : TimerCall → Prop
  | .reset _ ms fromNow => (m.timer id).ms = ms ∧ fromNow = false
  | .cancel | .refresh _ => False

/-! ## Timers that are gone -/

theorem add64_lt (a b : Nat) : add64 a b < UInt64.size := Nat.mod_lt _ (by decide)

/-- What a call on `id` does: the other timers stay as they are, and the deadline of `id` stays or
is computed anew. -/
structure Frame (id : TimerId) (m m' : TimerManager) : Prop where
  mem : ∀ x, x ≠ id → (x ∈ m'.timers ↔ x ∈ m.timers)
  timer : ∀ x, x ≠ id → m'.timer x = m.timer x
  next : (m'.timer id).next = (m.timer id).next ∨ (m'.timer id).next < UInt64.size

theorem Frame.refl : Frame id m m where
  mem _ _ := Iff.rfl
  timer _ _ := rfl
  next := .inl rfl

theorem Frame.of_update {v : Timer}
    (hmem : ∀ x, x ≠ id → (x ∈ m'.timers ↔ x ∈ m.timers))
    (htimer : m'.timer = Function.update m.timer id v)
    (hnext : v.next = (m.timer id).next ∨ v.next < UInt64.size) : Frame id m m' where
  mem := hmem
  timer x hx := by rw [htimer, Function.update_of_ne hx]
  next := by rwa [htimer, Function.update_self]

theorem frame_addTimer (now ms : Nat) (cb : CallbackId) (recurring : Bool) :
    Frame id m (m.addTimer id now ms cb recurring) :=
  .of_update (fun _ hx => mem_addTimerLocked_iff.trans (or_iff_right hx))
    (timer_addTimerLocked ..) (.inr (add64_lt now ms))

theorem frame_cancel {res : Bool} (h : m.cancel id = some (m', res)) : Frame id m m' := by
  rw [cancel] at h
  split at h
  · obtain ⟨m₁, he, heq⟩ := Option.map_eq_some_iff.mp h
    cases heq
    obtain ⟨-, rfl⟩ := erase_eq_some he
    exact .of_update (v := { m.timer id with cb := none })
      (fun _ hx => List.mem_erase_of_ne hx) rfl (.inl rfl)
  · cases h
    exact .refl

theorem frame_refresh (now : Nat) : Frame id m (m.refresh id now).1 := by
  rw [refresh]
  split
  · exact .refl
  · split
    · exact .refl
    · rename_i m₁ he
      obtain ⟨-, rfl⟩ := erase_eq_some he
      exact .of_update (fun x hx => (mem_insert.trans (or_iff_right hx)).trans
        (List.mem_erase_of_ne hx)) rfl (.inr (add64_lt now (m.timer id).ms))

theorem frame_reset (now ms : Nat) (fromNow : Bool) :
    Frame id m (m.reset id now ms fromNow).1 := by
  rw [reset]
  split
  · exact .refl
  · rw [resetLocked]
    split
    · exact .refl
    · split
      · exact .refl
      · rename_i m₁ he
        obtain ⟨-, rfl⟩ := erase_eq_some he
        exact .of_update (fun x hx => (mem_addTimerLocked_iff.trans (or_iff_right hx)).trans
          (List.mem_erase_of_ne hx)) (timer_addTimerLocked ..) (.inr (add64_lt _ ms))

/-- The timer is not in the set, and nothing but a new timer at its address would be. -/
structure Gone (m : TimerManager) (id : TimerId) : Prop where
  exact : m.Exact
  out : id ∉ m.timers
  cb : (m.timer id).cb = none

theorem Gone.frame (h : m.Gone id) (hne : id ≠ x) (hexact : m'.Exact) (hframe : Frame x m m') :
    m'.Gone id where
  exact := hexact
  out hmem := h.out ((hframe.mem id hne).mp hmem)
  cb := by rw [hframe.timer id hne, h.cb]

/-- Without a callback the calls do nothing. -/
theorem cancel_none (h : (m.timer id).cb = none) : m.cancel id = some (m, false) := by
  rw [cancel, h]
  rfl

theorem refresh_none (h : (m.timer id).cb = none) (now : Nat) :
    m.refresh id now = (m, false) := by
  rw [refresh, h]
  rfl

theorem resetLocked_none (h : (m.timer id).cb = none) (now ms : Nat) (fromNow : Bool) :
    m.resetLocked id now ms fromNow = (m, false, false) := by
  rw [resetLocked, h]
  rfl

theorem reset_none (h : (m.timer id).cb = none) (now ms : Nat) (fromNow : Bool) :
    (m.reset id now ms fromNow).1 = m := by
  rw [reset, resetLocked_none h]
  split <;> rfl

theorem Gone.listExpiredCb (h : m.Gone id) (now : Nat) (addr : TimerId)
    {r : TimerManager × List (Option CallbackId)} (hr : m.listExpiredCb now addr = some r) :
    r.1.Gone id ∧
      ∃ due : List TimerId, id ∉ due ∧ r.2 = due.map fun x => (m.timer x).cb := by
  obtain ⟨res, hres, hexact⟩ := h.exact.listExpiredCb now addr
  obtain rfl := Option.some.inj (hr.symm.trans hres)
  by_cases hne : m.timers = []
  · have hhas : m.hasTimer = false := by
      rw [hasTimer, hne]
      rfl
    rw [TimerManager.listExpiredCb, hhas] at hr
    obtain rfl := Option.some.inj hr
    exact ⟨h, [], List.not_mem_nil, rfl⟩
  · obtain ⟨m', cbs, due, hlist, -, hdue, -, hcbs, -, hrest⟩ :=
      listExpiredCb_exact h.exact.toValid hne now addr
    obtain rfl := Option.some.inj (hr.symm.trans hlist)
    have hout : id ∉ due := fun hid => h.out ((hdue id).mp hid).1
    obtain ⟨hmem, htimer⟩ := hrest id hout
    refine ⟨⟨hexact, fun hid => h.out (hmem.mp hid), ?_⟩, due, hout, hcbs⟩
    rw [htimer, h.cb]

theorem Gone.step (h : m.Gone id) {a : TimerAction}
    (ha : ∀ now ms cb recurring, a ≠ .addTimer id now ms cb recurring)
    (hst : m.step a = some m') : m'.Gone id := by
  have hexact := h.exact.step hst
  cases a with
  | addTimer x now ms cb recurring =>
    obtain ⟨-, rfl⟩ := step_cases hst
    have hne : id ≠ x := by
      rintro rfl
      exact ha now ms cb recurring rfl
    exact h.frame hne hexact (frame_addTimer now ms cb recurring)
  | cancel x =>
    obtain ⟨-, res, hres⟩ := step_cases hst
    by_cases hne : id = x
    · subst hne
      rw [cancel_none h.cb] at hres
      cases hres
      exact h
    · exact h.frame hne hexact (frame_cancel hres)
  | refresh x now =>
    obtain ⟨-, rfl⟩ := step_cases hst
    by_cases hne : id = x
    · subst hne
      rw [refresh_none h.cb]
      exact h
    · exact h.frame hne hexact (frame_refresh now)
  | reset x now ms fromNow =>
    obtain ⟨-, rfl⟩ := step_cases hst
    by_cases hne : id = x
    · subst hne
      rw [reset_none h.cb]
      exact h
    · exact h.frame hne hexact (frame_reset now ms fromNow)
  | listExpiredCb now addr =>
    obtain ⟨cbs, hcbs⟩ := step_cases hst
    exact (h.listExpiredCb now addr hcbs).1
  | free x =>
    obtain ⟨-, rfl⟩ := step_cases hst
    exact ⟨hexact, h.out, h.cb⟩

/-- **A timer that is gone stays away**, whatever is called. -/
theorem Gone.exec (h : m.Gone id) {as : List TimerAction}
    (has : ∀ now ms cb recurring, .addTimer id now ms cb recurring ∉ as)
    (hexec : timerMachine.exec m as = some m') : m'.Gone id := by
  induction as generalizing m with
  | nil =>
    obtain rfl := Option.some.inj hexec
    exact h
  | cons a as ih =>
    obtain ⟨m₁, hst, hrest⟩ := Option.bind_eq_some_iff.mp hexec
    refine ih (h.step ?_ hst) ?_ hrest
    · intro now ms cb recurring heq
      exact has now ms cb recurring (heq ▸ List.mem_cons_self ..)
    · intro now ms cb recurring hmem
      exact has now ms cb recurring (List.mem_cons_of_mem _ hmem)

/-! ## Deadlines of 64 bits -/

/-- Every `m_next` is a `uint64_t`. -/
def Bounded (m : TimerManager) : Prop := ∀ id, (m.timer id).next < UInt64.size

theorem Bounded.frame (h : m.Bounded) (hframe : Frame id m m') : m'.Bounded := by
  intro x
  by_cases hx : x = id
  · subst hx
    rcases hframe.next with hsame | hnew
    · rw [hsame]
      exact h x
    · exact hnew
  · rw [hframe.timer x hx]
    exact h x

theorem Bounded.listExpiredCb (h : m.Bounded) (hexact : m.Exact) {now : Nat} {addr : TimerId}
    {r : TimerManager × List (Option CallbackId)} (hr : m.listExpiredCb now addr = some r) :
    r.1.Bounded := by
  by_cases hne : m.timers = []
  · have hhas : m.hasTimer = false := by
      rw [hasTimer, hne]
      rfl
    rw [TimerManager.listExpiredCb, hhas] at hr
    obtain rfl := Option.some.inj hr
    exact h
  · obtain ⟨m', cbs, due, hlist, -, -, -, -, hdue, hrest⟩ :=
      listExpiredCb_exact hexact.toValid hne now addr
    obtain rfl := Option.some.inj (hr.symm.trans hlist)
    intro x
    by_cases hx : x ∈ due
    · have hturn := hdue x hx
      split at hturn
      · rw [hturn.2]
        exact add64_lt now (m.timer x).ms
      · rw [hturn.2]
        exact h x
    · rw [(hrest x hx).2]
      exact h x

theorem Bounded.step (h : m.Bounded) (hexact : m.Exact) {a : TimerAction}
    (hst : m.step a = some m') : m'.Bounded := by
  cases a with
  | addTimer x now ms cb recurring =>
    obtain ⟨-, rfl⟩ := step_cases hst
    exact h.frame (frame_addTimer now ms cb recurring)
  | cancel x =>
    obtain ⟨-, res, hres⟩ := step_cases hst
    exact h.frame (frame_cancel hres)
  | refresh x now =>
    obtain ⟨-, rfl⟩ := step_cases hst
    exact h.frame (frame_refresh now)
  | reset x now ms fromNow =>
    obtain ⟨-, rfl⟩ := step_cases hst
    exact h.frame (frame_reset now ms fromNow)
  | listExpiredCb now addr =>
    obtain ⟨cbs, hcbs⟩ := step_cases hst
    exact h.listExpiredCb hexact hcbs
  | free x =>
    obtain ⟨-, rfl⟩ := step_cases hst
    exact h

theorem bounded_of_reachable (h : timerMachine.Reachable m) : m.Bounded := by
  have hboth : m.Exact ∧ m.Bounded := by
    refine h.invariant (I := fun m => m.Exact ∧ m.Bounded) ?_ ?_
    · rintro _ ⟨now, rfl⟩
      exact ⟨.new now, fun _ => by show 0 < UInt64.size; decide⟩
    · intro m a m' hm hst
      exact ⟨hm.1.step hst, hm.2.step hm.1 hst⟩
  exact hboth.2

/-- What is subtracted is added again. -/
theorem add64_sub64 {a : Nat} (ha : a < UInt64.size) (b : Nat) : add64 (sub64 a b) b = a := by
  have hb := Nat.mod_lt b (show 0 < UInt64.size by decide)
  rw [add64, sub64, Nat.mod_add_mod]
  have hsum : (a + (UInt64.size - b % UInt64.size) + b) % UInt64.size = a % UInt64.size := by
    rw [Nat.add_mod, Nat.add_mod a]
    simp only [UInt64.size] at *
    omega
  rw [hsum, Nat.mod_eq_of_lt ha]

/-! ## The calls -/

section Calls
variable (h : m.Exact) (hid : m.allocated id = true)
include h hid

/-- A timer that is not pending has no callback. -/
theorem cb_eq_none (hout : id ∉ m.timers) : (m.timer id).cb = none := by
  rw [h.member id hid, Option.not_isSome_iff_eq_none] at hout
  exact hout

theorem cb_isSome (hmem : id ∈ m.timers) : (m.timer id).cb.isSome = true :=
  (h.member id hid).mp hmem

theorem truthful_cancel : m.Truthful id .cancel := by
  by_cases hmem : id ∈ m.timers
  · obtain ⟨⟨m', res⟩, hres, hexact⟩ := h.cancel hid
    have hcancel : m.cancel id = some
        ({ m.setTimer id { m.timer id with cb := none } with timers := m.timers.erase id },
          true) := by
      rw [cancel, if_pos (cb_isSome h hid hmem),
        erase_of_mem (m := m.setTimer id { m.timer id with cb := none }) hmem]
      rfl
    obtain ⟨rfl, rfl⟩ := Prod.mk.inj (Option.some.inj (hcancel.symm.trans hres))
    have hgone : Gone { m.setTimer id { m.timer id with cb := none } with
        timers := m.timers.erase id } id := by
      refine ⟨hexact, fun hin => (h.mem_erase.mp hin).1 rfl, ?_⟩
      show (Function.update m.timer id { m.timer id with cb := none } id).cb = none
      rw [Function.update_self]
    refine ⟨_, true, hcancel, iff_of_true rfl hmem, fun _ => ?_, fun h => by cases h⟩
    intro as s has hexec
    have hlater := hgone.exec has hexec
    exact ⟨hlater.out, fun now addr r hr => (hlater.listExpiredCb now addr hr).2⟩
  · refine ⟨m, false, cancel_none (cb_eq_none h hid hmem), ?_, ?_, fun _ => rfl⟩
    · exact iff_of_false Bool.false_ne_true hmem
    · exact fun h => absurd h Bool.false_ne_true

theorem cb_not_isNone (hmem : id ∈ m.timers) : ¬ (m.timer id).cb.isNone = true := by
  rw [← Option.not_isSome, cb_isSome h hid hmem]
  exact Bool.false_ne_true

theorem truthful_refresh (now : Nat) : m.Truthful id (.refresh now) := by
  by_cases hmem : id ∈ m.timers
  · have hrefresh : m.refresh id now =
        (({ m with timers := m.timers.erase id }.setTimer id
          { m.timer id with next := add64 now (m.timer id).ms }).insert id, true) := by
      rw [refresh, if_neg (cb_not_isNone h hid hmem), erase_of_mem hmem]
    refine ⟨_, true, congrArg some hrefresh, iff_of_true rfl hmem, fun _ => ?_,
      fun h => by cases h⟩
    show (Function.update m.timer id _ id).next = _
    rw [Function.update_self]
  · refine ⟨m, false, congrArg some (refresh_none (cb_eq_none h hid hmem) now), ?_, ?_,
      fun _ => rfl⟩
    · exact iff_of_false Bool.false_ne_true hmem
    · exact fun h => absurd h Bool.false_ne_true

omit h hid in
/-- The early return. -/
theorem truthful_same_iff (hbounded : m.Bounded) {now ms : Nat} {fromNow : Bool}
    (hsame : m.SamePeriod id (.reset now ms fromNow)) :
    m.Truthful id (.reset now ms fromNow) ↔ id ∈ m.timers := by
  have hreset : m.reset id now ms fromNow = (m, true) := if_pos hsame
  constructor
  · rintro ⟨m', res, hcall, hres, -⟩
    have hcall : some (m.reset id now ms fromNow) = some (m', res) := hcall
    rw [hreset] at hcall
    cases hcall
    exact hres.mp rfl
  · intro hmem
    obtain ⟨rfl, rfl⟩ := hsame
    refine ⟨m, true, congrArg some hreset, iff_of_true rfl hmem, fun _ => ⟨rfl, ?_⟩,
      fun h => by cases h⟩
    -- the start is computed from the deadline, and the deadline from the start again
    exact (add64_sub64 (hbounded id) (m.timer id).ms).symm

/-- The section of `reset`. -/
theorem truthful_reset (now ms : Nat) (fromNow : Bool)
    (hsame : ¬ m.SamePeriod id (.reset now ms fromNow)) :
    m.Truthful id (.reset now ms fromNow) := by
  have hreset : m.reset id now ms fromNow =
      ((m.resetLocked id now ms fromNow).1, (m.resetLocked id now ms fromNow).2.1) := if_neg hsame
  by_cases hmem : id ∈ m.timers
  · obtain ⟨m', front, hlocked, htimer⟩ : ∃ m' front,
        m.resetLocked id now ms fromNow = (m', true, front) ∧
          m'.timer id = { m.timer id with
            ms
            next :=
              add64 (if fromNow then now else sub64 (m.timer id).next (m.timer id).ms) ms } := by
      rw [resetLocked, if_neg (cb_not_isNone h hid hmem), erase_of_mem hmem]
      refine ⟨_, _, rfl, ?_⟩
      rw [timer_addTimerLocked]
      exact Function.update_self ..
    rw [hlocked] at hreset
    refine ⟨m', true, congrArg some hreset, iff_of_true rfl hmem, fun _ => ?_,
      fun h => by cases h⟩
    exact ⟨congrArg Timer.ms htimer, congrArg Timer.next htimer⟩
  · rw [resetLocked_none (cb_eq_none h hid hmem)] at hreset
    refine ⟨m, false, congrArg some hreset, ?_, ?_, fun _ => rfl⟩
    · exact iff_of_false Bool.false_ne_true hmem
    · exact fun h => absurd h Bool.false_ne_true

theorem truthful_reset_iff (hbounded : m.Bounded) (now ms : Nat) (fromNow : Bool) :
    m.Truthful id (.reset now ms fromNow) ↔
      (m.SamePeriod id (.reset now ms fromNow) → id ∈ m.timers) := by
  by_cases hsame : m.SamePeriod id (.reset now ms fromNow)
  · rw [truthful_same_iff hbounded hsame]
    exact ⟨fun hmem _ => hmem, fun h => h hsame⟩
  · exact iff_of_true (truthful_reset h hid now ms fromNow hsame) (fun h => absurd h hsame)

end Calls

/-- **When a call tells the truth**, in every reachable state, for every timer: unless it is a
`reset` that is not to change the period, on a timer that is not pending. -/
theorem truthful_iff (hm : timerMachine.Reachable m) (hid : m.allocated id = true)
    (c : TimerCall) : m.Truthful id c ↔ (m.SamePeriod id c → id ∈ m.timers) := by
  have hexact := exact_of_reachable hm
  cases c with
  | cancel => exact iff_of_true (truthful_cancel hexact hid) (fun h => h.elim)
  | refresh now => exact iff_of_true (truthful_refresh hexact hid now) (fun h => h.elim)
  | reset now ms fromNow =>
    exact truthful_reset_iff hexact hid (bounded_of_reachable hm) now ms fromNow

/-- A call on a timer that is pending. -/
theorem truthful_pending :
    ∃ m, timerMachine.Reachable m ∧ m.allocated 4 = true ∧
      (m.Truthful 4 (.reset 1010 50 false) ↔
        (m.SamePeriod 4 (.reset 1010 50 false) → 4 ∈ m.timers)) := by
  obtain ⟨m, hrun, hid⟩ := Machine.Run.of_exec_any (M := timerMachine) ⟨1000, rfl⟩
    [.addTimer 4 1000 50 7 false] (fun m => m.allocated 4) (by decide +kernel)
  exact ⟨m, ⟨_, hrun⟩, hid, truthful_iff ⟨_, hrun⟩ hid _⟩

/-- A timer with a period of 50 ms is started, and it is cancelled. -/
def cancelledTimer : List TimerAction :=
  [.addTimer 4 1000 50 7 false, .cancel 4]

/-- The call to set its period to 50 ms without restarting it returns true. -/
theorem reset_of_cancelled :
    ∃ m, timerMachine.Reachable m ∧ m.allocated 4 = true ∧ 4 ∉ m.timers ∧
      m.call 4 (.reset 1010 50 false) = some (m, true) ∧
      ¬ m.Truthful 4 (.reset 1010 50 false) := by
  obtain ⟨m, hrun, hm⟩ := Machine.Run.of_exec_any (M := timerMachine) ⟨1000, rfl⟩ cancelledTimer
    (fun m => m.allocated 4 && m.timers == [] && (m.timer 4).ms == 50) (by decide +kernel)
  simp only [Bool.and_eq_true, beq_iff_eq] at hm
  obtain ⟨⟨hid, hnil⟩, hms⟩ := hm
  have hout : 4 ∉ m.timers := by
    rw [hnil]
    exact List.not_mem_nil
  have hcall : m.call 4 (.reset 1010 50 false) = some (m, true) :=
    congrArg some (if_pos ⟨hms, rfl⟩)
  refine ⟨m, ⟨_, hrun⟩, hid, hout, hcall, ?_⟩
  rintro ⟨m', res, hcall', hres, -⟩
  cases hcall.symm.trans hcall'
  exact hout (hres.mp rfl)

end TimerManager
end Sylar
