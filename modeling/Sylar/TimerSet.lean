import Sylar.Interleaving
import Sylar.Timer

/-! # Which timers are in the set

A timer's `m_next` is what the set is ordered by, and its `m_cb` tells whether it is in
the set: `cancel` takes a timer off only if it has a callback, and does not look at what
`find` returned.  Both fields change, so each operation has to change them while the
timer is out of the set.

`timerMachine` has the operations of the manager, each under its lock, in any order and
with any readings of the clock.  A timer may be freed when it is not in the set, and its
address used again.

**`timers_exact`**: the set is in the order of the present `m_next`, its timers are those
that have a callback, and no operation erases `end()`. -/
namespace Sylar
open Interleaving

/-- A call under the lock of the manager; `now` is the clock that it reads. -/
inductive TimerAction
  /-- `addTimer( ms, cb, recurring )`; the timer gets the address `id`. -/
  | addTimer (id : TimerId) (now ms : Nat) (cb : CallbackId) (recurring : Bool)
  | cancel (id : TimerId)
  | refresh (id : TimerId) (now : Nat)
  | reset (id : TimerId) (now ms : Nat) (fromNow : Bool)
  /-- `now_timer` gets the address `addr`. -/
  | listExpiredCb (now : Nat) (addr : TimerId)
  /-- The last pointer to a timer that is not in the set goes away. -/
  | free (id : TimerId)
  deriving DecidableEq, Repr

namespace TimerManager

/-- `addTimer( ms, cb, recurring )`. -/
def addTimer (m : TimerManager) (id : TimerId) (now ms : Nat) (cb : CallbackId)
    (recurring : Bool) : TimerManager :=
  ((m.newTimer id (.new now ms (some cb) recurring)).addTimerLocked id).1

/-- `reset( ms, from_now )`. -/
def reset (m : TimerManager) (id : TimerId) (now ms : Nat) (fromNow : Bool) : TimerManager × Bool :=
  if (m.timer id).ms = ms ∧ fromNow = false then (m, true)
  else ((m.resetLocked id now ms fromNow).1, (m.resetLocked id now ms fromNow).2.1)

/-- `listExpiredCb( cbs )`. -/
def listExpiredCb (m : TimerManager) (now : Nat) (addr : TimerId) :
    Option (TimerManager × List (Option CallbackId)) :=
  if m.hasTimer then m.listExpiredLocked now addr else some (m, [])

/-- `delete`, by the last `shared_ptr`. -/
def free (m : TimerManager) (id : TimerId) : TimerManager :=
  { m with allocated := Function.update m.allocated id false }

def step (m : TimerManager) : TimerAction → Option TimerManager
  | .addTimer id now ms cb recurring =>
    if m.allocated id then none else some (m.addTimer id now ms cb recurring)
  | .cancel id => if m.allocated id then (m.cancel id).map Prod.fst else none
  | .refresh id now => if m.allocated id then some (m.refresh id now).1 else none
  | .reset id now ms fromNow =>
    if m.allocated id then some (m.reset id now ms fromNow).1 else none
  | .listExpiredCb now addr =>
    if m.allocated addr then none else (m.listExpiredCb now addr).map Prod.fst
  | .free id => if m.allocated id && !m.timers.contains id then some (m.free id) else none

end TimerManager

/-- The timers of one manager. -/
def timerMachine : Machine TimerManager TimerAction where
  init m := ∃ now, m = TimerManager.new now
  step := TimerManager.step

namespace TimerManager
variable {m m' : TimerManager} {id x : TimerId} {now : Nat}

/-! ## Members -/

theorem mem_insert : x ∈ (m.insert id).timers ↔ x = id ∨ x ∈ m.timers :=
  OrderedSet.mem_insert_iff before_iff m.key_injective

theorem mem_addTimerLocked_iff : x ∈ (m.addTimerLocked id).1.timers ↔ x = id ∨ x ∈ m.timers := by
  rw [addTimerLocked]
  dsimp only
  split <;> exact mem_insert

theorem allocated_addTimerLocked : (m.addTimerLocked id).1.allocated = m.allocated := by
  rw [addTimerLocked]
  dsimp only
  split <;> rfl

/-- A timer of the set is erased. -/
theorem erase_of_mem (h : id ∈ m.timers) :
    m.erase id = some { m with timers := m.timers.erase id } := by
  rw [erase, OrderedSet.find_of_mem before_iff m.key_injective h]
  rfl

theorem Valid.mem_erase (h : m.Valid) : x ∈ m.timers.erase id ↔ x ≠ id ∧ x ∈ m.timers :=
  h.ordered.nodup.mem_erase_iff

/-- **A timer is in the set exactly if it exists and has a callback.** -/
structure Exact (m : TimerManager) : Prop extends m.Valid where
  member : ∀ id, m.allocated id = true → (id ∈ m.timers ↔ (m.timer id).cb.isSome = true)

namespace Exact

theorem new (now : Nat) : (TimerManager.new now).Exact where
  toValid := .new now
  member _ h := by cases h

theorem addTimer (h : m.Exact) (hid : m.allocated id = false) (now ms : Nat) (cb : CallbackId)
    (recurring : Bool) : (m.addTimer id now ms cb recurring).Exact := by
  have halloc : (m.newTimer id (.new now ms (some cb) recurring)).allocated id = true :=
    Function.update_self ..
  refine ⟨(h.toValid.newTimer hid _).addTimerLocked halloc, fun x hx => ?_⟩
  rw [TimerManager.addTimer, mem_addTimerLocked_iff, timer_addTimerLocked]
  rw [TimerManager.addTimer, allocated_addTimerLocked] at hx
  show x = id ∨ x ∈ m.timers ↔ (Function.update m.timer id _ x).cb.isSome = true
  by_cases hne : x = id
  · subst hne
    rw [Function.update_self]
    exact iff_of_true (Or.inl rfl) rfl
  · have hx : Function.update m.allocated id true x = true := hx
    rw [Function.update_of_ne hne] at hx ⊢
    rw [← h.member x hx]
    exact or_iff_right hne

/-- The callback goes, and the timer with it. -/
theorem cancel (h : m.Exact) (hid : m.allocated id = true) :
    ∃ res, m.cancel id = some res ∧ res.1.Exact := by
  rw [TimerManager.cancel]
  cases hcb : (m.timer id).cb.isSome with
  | false => exact ⟨_, rfl, h⟩
  | true =>
    have hmem : id ∈ m.timers := (h.member id hid).mpr hcb
    have herase := erase_of_mem (m := m.setTimer id { m.timer id with cb := none }) hmem
    have hset := h.toValid.setTimer_next (v := { m.timer id with cb := none }) rfl
    refine ⟨_, by rw [if_pos rfl, herase]; rfl, (hset.erase herase).1, fun x hx => ?_⟩
    show x ∈ m.timers.erase id ↔ (Function.update m.timer id _ x).cb.isSome = true
    rw [h.mem_erase]
    by_cases hne : x = id
    · subst hne
      rw [Function.update_self]
      exact iff_of_false (fun h => h.1 rfl) Bool.false_ne_true
    · rw [Function.update_of_ne hne, ← h.member x hx]
      exact and_iff_right hne

/-- A timer of the set gets other values, but for its callback, while it is out of it. -/
theorem reinsert (h : m.Exact) (hmem : id ∈ m.timers) {v : Timer}
    (hv : v.cb.isSome = (m.timer id).cb.isSome) (hvalid : m'.Valid)
    (htimers : ∀ x, x ∈ m'.timers ↔ x = id ∨ x ∈ m.timers.erase id)
    (htimer : m'.timer = Function.update m.timer id v) (halloc : m'.allocated = m.allocated) :
    m'.Exact := by
  refine ⟨hvalid, fun x hx => ?_⟩
  rw [halloc] at hx
  rw [htimers, htimer, h.mem_erase]
  by_cases hne : x = id
  · subst hne
    rw [Function.update_self, hv, ← h.member x hx]
    exact iff_of_true (Or.inl rfl) hmem
  · rw [Function.update_of_ne hne, ← h.member x hx]
    exact (or_iff_right hne).trans (and_iff_right hne)

theorem refresh (h : m.Exact) (hid : m.allocated id = true) (now : Nat) :
    (m.refresh id now).1.Exact := by
  have hvalid : (m.refresh id now).1.Valid := h.toValid.refresh now
  rw [TimerManager.refresh] at hvalid ⊢
  split
  · exact h
  · rename_i hcb
    have hsome := Option.isNone_eq_false_iff.mp (Bool.eq_false_iff.mpr hcb)
    have hmem : id ∈ m.timers := (h.member id hid).mpr hsome
    rw [if_neg hcb, erase_of_mem hmem] at hvalid
    rw [erase_of_mem hmem]
    exact h.reinsert hmem (v := { m.timer id with next := add64 now (m.timer id).ms }) rfl hvalid
      (fun x => mem_insert) rfl rfl

theorem resetLocked (h : m.Exact) (hid : m.allocated id = true) (now ms : Nat) (fromNow : Bool) :
    (m.resetLocked id now ms fromNow).1.Exact := by
  have hvalid : (m.resetLocked id now ms fromNow).1.Valid := h.toValid.resetLocked now ms fromNow
  rw [TimerManager.resetLocked] at hvalid ⊢
  split
  · exact h
  · rename_i hcb
    have hsome := Option.isNone_eq_false_iff.mp (Bool.eq_false_iff.mpr hcb)
    have hmem : id ∈ m.timers := (h.member id hid).mpr hsome
    rw [if_neg hcb, erase_of_mem hmem] at hvalid
    rw [erase_of_mem hmem]
    dsimp only at hvalid ⊢
    generalize hstart : (if fromNow then now else sub64 (m.timer id).next (m.timer id).ms) = start
    rw [hstart] at hvalid
    exact h.reinsert hmem (v := { m.timer id with ms, next := add64 start ms }) rfl hvalid
      (fun x => mem_addTimerLocked_iff) (timer_addTimerLocked ..) allocated_addTimerLocked

theorem reset (h : m.Exact) (hid : m.allocated id = true) (now ms : Nat) (fromNow : Bool) :
    (m.reset id now ms fromNow).1.Exact := by
  rw [TimerManager.reset]
  split
  · exact h
  · exact h.resetLocked hid now ms fromNow

theorem free (h : m.Exact) (hid : id ∉ m.timers) : (m.free id).Exact := by
  have hother : ∀ x, x ≠ id → (m.free id).allocated x = m.allocated x :=
    fun x hx => Function.update_of_ne hx ..
  refine ⟨⟨h.ordered, fun x hx => ?_⟩, fun x hx => ?_⟩
  · rw [hother x fun heq => hid (heq ▸ hx)]
    exact h.allocated x hx
  · have hne : x ≠ id := by
      rintro rfl
      have hx : Function.update m.allocated x false x = true := hx
      rw [Function.update_self] at hx
      cases hx
    rw [hother x hne] at hx
    exact h.member x hx

end Exact

/-! ## The expired timers -/

/-- While the loop runs, the timers that it has still to look at are out of the set, and
have their callbacks. -/
structure Expiring (m : TimerManager) (l : List TimerId) : Prop where
  out : ∀ id ∈ l, id ∉ m.timers ∧ (m.timer id).cb.isSome = true
  member : ∀ id, m.allocated id = true → id ∉ l →
    (id ∈ m.timers ↔ (m.timer id).cb.isSome = true)

theorem Expiring.expire {l : List TimerId} (h : m.Expiring l) (hnodup : l.Nodup) :
    (TimerManager.expire now m l).1.Expiring [] := by
  induction l generalizing m with
  | nil => exact h
  | cons e l ih =>
    obtain ⟨he, hl⟩ := List.nodup_cons.mp hnodup
    obtain ⟨heout, hecb⟩ := h.out e (List.mem_cons_self ..)
    rw [TimerManager.expire]
    dsimp only
    refine ih ?_ hl
    -- the others are as they were, and `e` is in the set if it has kept its callback
    have hstep : ∀ (v : Timer) (timers : List TimerId),
        (∀ x, x ∈ timers ↔ (v.cb.isSome = true ∧ x = e) ∨ x ∈ m.timers) →
        ({ m with timer := Function.update m.timer e v, timers } : TimerManager).Expiring l := by
      intro v timers htimers
      constructor
      · intro x hx
        have hne : x ≠ e := fun heq => he (heq ▸ hx)
        obtain ⟨hout, hcb⟩ := h.out x (List.mem_cons_of_mem e hx)
        refine ⟨fun hin => ?_, ?_⟩
        · rcases (htimers x).mp hin with ⟨-, heq⟩ | hin
          · exact hne heq
          · exact hout hin
        · show (Function.update m.timer e v x).cb.isSome = true
          rw [Function.update_of_ne hne]
          exact hcb
      · intro x hx hxl
        show x ∈ timers ↔ (Function.update m.timer e v x).cb.isSome = true
        rw [htimers]
        by_cases hne : x = e
        · subst hne
          rw [Function.update_self]
          exact ⟨fun h => (h.resolve_right heout).1, fun h => Or.inl ⟨h, rfl⟩⟩
        · rw [Function.update_of_ne hne, ← h.member x hx (by simp [hne, hxl])]
          exact or_iff_right fun h => hne h.2
    split
    · refine hstep { m.timer e with next := add64 now (m.timer e).ms } _ fun x => ?_
      rw [and_iff_right hecb]
      exact mem_insert (m := m.setTimer e _)
    · exact hstep { m.timer e with cb := none } m.timers fun x => by simp

/-- The section of `listExpiredCb`, where it does not do without the set. -/
theorem Exact.listExpiredLocked (h : m.Exact) {addr : TimerId} {cbs : List (Option CallbackId)}
    (hl : m.listExpiredLocked now addr = some (m', cbs)) : m'.Exact := by
  have hvalid := h.toValid.listExpiredLocked hl
  generalize hm : (m.detectClockRollover now).1 = m₁
  have hmember : ∀ id, m₁.allocated id = true →
      (id ∈ m₁.timers ↔ (m₁.timer id).cb.isSome = true) := by
    rw [← hm]
    exact h.member
  have hvalid₁ : m₁.Valid := by
    rw [← hm]
    exact ⟨h.ordered, h.allocated⟩
  have hdone : ∀ rollover,
      some (expire now { m₁ with timers := (m₁.splitExpired now addr rollover).2 }
        (m₁.splitExpired now addr rollover).1) = some (m', cbs) → m'.Exact := by
    intro rollover heq
    have happ := splitExpired_append m₁ now addr rollover
    generalize m₁.splitExpired now addr rollover = split at heq happ
    have hnodup : (split.1 ++ split.2).Nodup := by
      rw [happ]
      exact hvalid₁.ordered.nodup
    obtain ⟨hexpired, -, hdisjoint⟩ := List.nodup_append.mp hnodup
    have hstart : ({ m₁ with timers := split.2 } : TimerManager).Expiring split.1 := by
      constructor
      · intro x hx
        have hin : x ∈ m₁.timers := by
          rw [← happ]
          exact List.mem_append_left _ hx
        exact ⟨fun hrest => hdisjoint x hx x hrest rfl,
          (hmember x (hvalid₁.allocated x hin)).mp hin⟩
      · intro x hx hout
        show x ∈ split.2 ↔ (m₁.timer x).cb.isSome = true
        rw [← hmember x hx, ← happ, List.mem_append]
        exact (or_iff_right hout).symm
    have hend : (expire now _ split.1).1.Expiring [] := hstart.expire hexpired
    rw [Option.some.inj heq] at hend
    exact ⟨hvalid, fun x hx => hend.member x hx List.not_mem_nil⟩
  rw [TimerManager.listExpiredLocked, hm] at hl
  split at hl
  · rename_i hr
    rw [hr] at hl
    exact hdone true hl
  · rename_i hr
    rw [Bool.eq_false_iff.mpr hr] at hl
    split at hl
    · cases hl
    · split at hl
      · cases hl
        exact ⟨hvalid, hmember⟩
      · exact hdone false hl

/-- The set is not empty, so the section is defined. -/
theorem listExpiredLocked_isSome (h : m.hasTimer = true) (now : Nat) (addr : TimerId) :
    (m.listExpiredLocked now addr).isSome = true := by
  rw [listExpiredLocked]
  split
  · rfl
  · split
    · rename_i hnil
      have hnil : m.timers = [] := hnil
      rw [hasTimer, hnil] at h
      cases h
    · rfl

theorem Exact.listExpiredCb (h : m.Exact) (now : Nat) (addr : TimerId) :
    ∃ res, m.listExpiredCb now addr = some res ∧ res.1.Exact := by
  rw [TimerManager.listExpiredCb]
  split
  · rename_i hhas
    obtain ⟨res, hres⟩ := Option.isSome_iff_exists.mp (listExpiredLocked_isSome hhas now addr)
    exact ⟨res, hres, h.listExpiredLocked hres⟩
  · exact ⟨_, rfl, h⟩

/-! ## Runs -/

/-- What a step is, with the test that it passes. -/
theorem step_cases {a : TimerAction} (hst : m.step a = some m') :
    match a with
    | .addTimer id now ms cb recurring =>
      m.allocated id = false ∧ m' = m.addTimer id now ms cb recurring
    | .cancel id => m.allocated id = true ∧ ∃ res, m.cancel id = some (m', res)
    | .refresh id now => m.allocated id = true ∧ m' = (m.refresh id now).1
    | .reset id now ms fromNow => m.allocated id = true ∧ m' = (m.reset id now ms fromNow).1
    | .listExpiredCb now addr => ∃ cbs, m.listExpiredCb now addr = some (m', cbs)
    | .free id => id ∉ m.timers ∧ m' = m.free id := by
  cases a with
  | addTimer id now ms cb recurring =>
    rw [TimerManager.step] at hst
    split at hst
    · cases hst
    · rename_i hid
      exact ⟨eq_false_of_ne_true hid, (Option.some.inj hst).symm⟩
  | cancel id =>
    rw [TimerManager.step] at hst
    split at hst
    · rename_i hid
      obtain ⟨⟨m₁, res⟩, hres, rfl⟩ := Option.map_eq_some_iff.mp hst
      exact ⟨hid, res, hres⟩
    · cases hst
  | refresh id now =>
    rw [TimerManager.step] at hst
    split at hst
    · rename_i hid
      exact ⟨hid, (Option.some.inj hst).symm⟩
    · cases hst
  | reset id now ms fromNow =>
    rw [TimerManager.step] at hst
    split at hst
    · rename_i hid
      exact ⟨hid, (Option.some.inj hst).symm⟩
    · cases hst
  | listExpiredCb now addr =>
    rw [TimerManager.step] at hst
    split at hst
    · cases hst
    · obtain ⟨⟨m₁, cbs⟩, hcbs, rfl⟩ := Option.map_eq_some_iff.mp hst
      exact ⟨cbs, hcbs⟩
  | free id =>
    rw [TimerManager.step] at hst
    split at hst
    · rename_i hid
      exact ⟨by simpa using (Bool.and_eq_true_iff.mp hid).2, (Option.some.inj hst).symm⟩
    · cases hst

theorem Exact.step (h : m.Exact) {a : TimerAction} (hst : m.step a = some m') : m'.Exact := by
  cases a with
  | addTimer id now ms cb recurring =>
    obtain ⟨hid, rfl⟩ := step_cases hst
    exact h.addTimer hid now ms cb recurring
  | cancel id =>
    obtain ⟨hid, res, hres⟩ := step_cases hst
    obtain ⟨r, hr, hexact⟩ := h.cancel hid
    cases hres.symm.trans hr
    exact hexact
  | refresh id now =>
    obtain ⟨hid, rfl⟩ := step_cases hst
    exact h.refresh hid now
  | reset id now ms fromNow =>
    obtain ⟨hid, rfl⟩ := step_cases hst
    exact h.reset hid now ms fromNow
  | listExpiredCb now addr =>
    obtain ⟨cbs, hcbs⟩ := step_cases hst
    obtain ⟨r, hr, hexact⟩ := h.listExpiredCb now addr
    cases hcbs.symm.trans hr
    exact hexact
  | free id =>
    obtain ⟨hid, rfl⟩ := step_cases hst
    exact h.free hid

theorem exact_of_reachable (h : timerMachine.Reachable m) : m.Exact := by
  refine h.invariant ?_ fun m a m' hm hst => hm.step hst
  rintro _ ⟨now, rfl⟩
  exact .new now

/-- **The timers of every reachable state.**  The set is in the order of the comparator
on the timers as they are, without a timer twice; a timer is in it exactly if it exists
and has a callback; and `cancel` finds what it erases. -/
theorem timers_exact (h : timerMachine.Reachable m) :
    m.timers.Pairwise (fun a b => m.before a b = true) ∧ m.timers.Nodup ∧
      (∀ id, id ∈ m.timers ↔ m.allocated id = true ∧ (m.timer id).cb.isSome = true) ∧
      ∀ id, m.allocated id = true → ((m.timer id).cb.isSome = true →
        OrderedSet.find m.before id m.timers = some id) ∧ (m.cancel id).isSome = true := by
  have hexact := exact_of_reachable h
  refine ⟨?_, hexact.ordered.nodup, fun id => ?_, fun id hid => ⟨fun hcb => ?_, ?_⟩⟩
  · exact hexact.ordered.imp fun hlt => (before_iff _ _).mpr hlt
  · constructor
    · intro hmem
      have hid := hexact.allocated id hmem
      exact ⟨hid, (hexact.member id hid).mp hmem⟩
    · rintro ⟨hid, hcb⟩
      exact (hexact.member id hid).mpr hcb
  · exact OrderedSet.find_of_mem before_iff m.key_injective ((hexact.member id hid).mpr hcb)
  · obtain ⟨res, hres, -⟩ := hexact.cancel hid
    rw [hres]
    rfl

/-- Two timers expire together, the one that recurs is reset, and its address outlives
its cancellation. -/
theorem timers_exact_expired :
    ∃ m, timerMachine.Reachable m ∧ m.allocated 4 = true ∧ m.timers = [] ∧
      m.timers.Pairwise (fun a b => m.before a b = true) ∧ m.timers.Nodup ∧
      (∀ id, id ∈ m.timers ↔ m.allocated id = true ∧ (m.timer id).cb.isSome = true) ∧
      ∀ id, m.allocated id = true → ((m.timer id).cb.isSome = true →
        OrderedSet.find m.before id m.timers = some id) ∧ (m.cancel id).isSome = true := by
  obtain ⟨m, hrun, hm⟩ := Machine.Run.of_exec_any (M := timerMachine) ⟨1000, rfl⟩
    [.addTimer 4 1000 50 7 true, .addTimer 3 1000 50 8 false, .listExpiredCb 1050 9,
      .reset 4 900 20 true, .free 3, .refresh 4 10, .cancel 4]
    (fun m => m.allocated 4 && m.timers == []) (by decide +kernel)
  simp only [Bool.and_eq_true, beq_iff_eq] at hm
  exact ⟨m, ⟨_, hrun⟩, hm.1, hm.2, timers_exact ⟨_, hrun⟩⟩

end TimerManager
end Sylar
