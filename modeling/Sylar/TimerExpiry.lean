import Sylar.TimerSet

/-! # The two sections of `listExpiredCb`

`listExpiredCb` looks whether there are timers under the read lock, releases it, and
takes the write lock to look at the first one.  In between other workers may call it too,
and any thread may cancel a timer, so the set may be empty by then; `*m_timers.begin()`
is then not defined.

`expiryMachine` has any number of workers in `listExpiredCb`, and other threads that work
on the timers.  A worker that has found timers is waiting for the write lock, with the
clock that it has read.

**`sections_defined_iff`**: in every state of a run each waiting worker can enter its
section exactly when no step of the run takes the last timer off the set while another
worker waits.  The one exception is a worker that has read a clock that was set back by
more than an hour: it takes all timers, and does not look at the first. -/
namespace Sylar
open Interleaving

structure Expiry (W : Type) where
  manager : TimerManager
  /-- A worker has found timers, at the time that it has read. -/
  waiting : W → Option Nat

inductive ExpiryAction (W : Type)
  /-- A call of another thread. -/
  | other (a : TimerAction)
  /-- A worker reads the clock, and looks for timers. -/
  | test (w : W) (now : Nat)
  /-- The section under the write lock; `now_timer` gets the address `addr`. -/
  | collect (w : W) (addr : TimerId)

namespace Expiry
variable {W : Type} [DecidableEq W]

def step (s : Expiry W) : ExpiryAction W → Option (Expiry W)
  -- `listExpiredCb` is not one step here
  | .other (.listExpiredCb _ _) => none
  | .other a => (s.manager.step a).map fun manager => { s with manager }
  | .test w now =>
    match s.waiting w with
    | some _ => none
    | none =>
      some { s with
        waiting := Function.update s.waiting w (if s.manager.hasTimer then some now else none) }
  | .collect w addr =>
    match s.waiting w with
    | some now =>
      if s.manager.allocated addr then none
      else
        (s.manager.listExpiredLocked now addr).map fun r =>
          { manager := r.1, waiting := Function.update s.waiting w none }
    | none => none

end Expiry

/-- The workers `W` in `listExpiredCb`. -/
def expiryMachine (W : Type) [DecidableEq W] : Machine (Expiry W) (ExpiryAction W) where
  init s := ∃ now, s = { manager := .new now, waiting := fun _ => none }
  step := Expiry.step

namespace TimerManager
variable {m m' : TimerManager} {id x : TimerId} {now : Nat} {addr : TimerId}

/-! ## What a section takes off -/

/-- The clock was set back. -/
def RolledBack (previouseTime now : Nat) : Prop :=
  now < previouseTime ∧ now < sub64 previouseTime (60 * 60 * 1000)

instance (previouseTime now : Nat) : Decidable (RolledBack previouseTime now) :=
  inferInstanceAs (Decidable (_ ∧ _))

/-- A timer expires at the time `now`. -/
def Due (m : TimerManager) (now : Nat) (id : TimerId) : Prop :=
  RolledBack m.previouseTime now ∨ (m.timer id).next ≤ now

instance (m : TimerManager) (now : Nat) (id : TimerId) : Decidable (m.Due now id) :=
  inferInstanceAs (Decidable (_ ∨ _))

/-- What expires is taken off, whatever the address of `now_timer` is. -/
theorem Valid.mem_splitExpired (h : m.Valid) (addr : TimerId) (rollover : Bool) :
    (x ∈ (m.splitExpired now addr rollover).1 ↔
      x ∈ m.timers ∧ (rollover = true ∨ (m.timer x).next ≤ now)) ∧
    (x ∈ (m.splitExpired now addr rollover).2 ↔
      x ∈ m.timers ∧ ¬ (rollover = true ∨ (m.timer x).next ≤ now)) := by
  cases rollover with
  | true => exact ⟨(and_iff_left (Or.inl rfl)).symm, by simp [TimerManager.splitExpired]⟩
  | false =>
    rw [TimerManager.splitExpired, if_neg Bool.false_ne_true]
    dsimp only
    generalize hlower : (fun id => comparator (m.ptr id) (some ⟨addr, .at now⟩)) = isLower
    have hiff : ∀ id, isLower id = true ↔ m.key id < toLex (now, addr) := by
      rw [← hlower]
      exact fun id => comparator_iff ⟨id, m.timer id⟩ ⟨addr, .at now⟩
    have hle : ∀ id, isLower id = true → (m.timer id).next ≤ now := by
      intro id hid
      rcases Prod.Lex.toLex_lt_toLex.mp ((hiff id).mp hid) with hlt | ⟨heq, -⟩
      · exact Nat.le_of_lt hlt
      · exact Nat.le_of_eq heq
    have hge : ∀ id, isLower id = false → now ≤ (m.timer id).next := by
      intro id hid
      have hnot : ¬ m.key id < toLex (now, addr) := by
        rw [← hiff id, hid]
        exact Bool.false_ne_true
      rcases Prod.Lex.toLex_le_toLex.mp (not_lt.mp hnot) with hlt | ⟨heq, -⟩
      · exact Nat.le_of_lt hlt
      · exact Nat.le_of_eq heq
    have hinit : OrderedSet.Initial m.key m.timers isLower := by
      intro x _ y _ hxy hy
      exact (hiff x).mpr (lt_trans hxy ((hiff y).mp hy))
    rw [h.ordered.takeWhile_eq_filter hinit, h.ordered.dropWhile_eq_filter hinit]
    -- behind the lower bound, the timers that are due now are in front
    have hrest := h.ordered.sublist (List.filter_sublist (p := fun x => !isLower x) (l := m.timers))
    have hnow : OrderedSet.Initial m.key (m.timers.filter fun x => !isLower x)
        fun id => (m.timer id).next == now := by
      intro x hx y _ hxy hy
      have hx := hge x (by simpa using (List.mem_filter.mp hx).2)
      have hy : (m.timer y).next = now := by simpa using hy
      have hxy := next_le_of_key_le (le_of_lt hxy)
      simp only [beq_iff_eq]
      omega
    rw [hrest.takeWhile_eq_filter hnow, hrest.dropWhile_eq_filter hnow]
    simp only [List.mem_append, List.mem_filter, Bool.not_eq_true', beq_eq_false_iff_ne,
      beq_iff_eq, Bool.false_eq_true, false_or, not_le]
    cases hx : isLower x with
    | true =>
      have := hle x hx
      simp only [and_true, Bool.true_eq_false, and_false, false_and, or_false]
      exact ⟨⟨fun h => ⟨h, this⟩, And.left⟩, ⟨False.elim, fun h => by omega⟩⟩
    | false =>
      have := hge x hx
      simp only [and_true, Bool.false_eq_true, and_false, false_or]
      constructor
      · exact and_congr_right fun _ => by omega
      · exact and_congr_right fun _ => by omega

/-- The loop puts the timers that recur back. -/
theorem mem_expire (l : List TimerId) :
    (x ∈ (expire now m l).1.timers ↔
      x ∈ m.timers ∨ (x ∈ l ∧ (m.timer x).recurring = true)) ∧
      (expire now m l).1.previouseTime = m.previouseTime := by
  induction l generalizing m with
  | nil => exact ⟨by simp [expire], rfl⟩
  | cons e l ih =>
    rw [expire]
    dsimp only
    -- whether a timer recurs does not change
    have hrec : ∀ v : Timer, v.recurring = (m.timer e).recurring →
        (Function.update m.timer e v x).recurring = (m.timer x).recurring := by
      intro v hv
      by_cases hx : x = e
      · subst hx
        rw [Function.update_self, hv]
      · rw [Function.update_of_ne hx]
    split
    · rename_i he
      refine ⟨(ih.1).trans ?_, ih.2⟩
      rw [mem_insert]
      show (x = e ∨ x ∈ m.timers) ∨ (x ∈ l ∧ (Function.update m.timer e _ x).recurring = true) ↔ _
      rw [hrec { m.timer e with next := add64 now (m.timer e).ms } rfl, List.mem_cons]
      constructor
      · rintro ((rfl | h) | ⟨h, hr⟩)
        · exact Or.inr ⟨Or.inl rfl, he⟩
        · exact Or.inl h
        · exact Or.inr ⟨Or.inr h, hr⟩
      · rintro (h | ⟨rfl | h, hr⟩)
        · exact Or.inl (Or.inr h)
        · exact Or.inl (Or.inl rfl)
        · exact Or.inr ⟨h, hr⟩
    · rename_i he
      refine ⟨(ih.1).trans ?_, ih.2⟩
      show x ∈ m.timers ∨ (x ∈ l ∧ (Function.update m.timer e _ x).recurring = true) ↔ _
      rw [hrec { m.timer e with cb := none } rfl, List.mem_cons]
      refine or_congr_right (and_congr_left fun hr => ?_)
      refine (or_iff_right ?_).symm
      rintro rfl
      exact he hr

/-- What is taken off is what is due, in the order of the set. -/
theorem Valid.splitExpired_eq (h : m.Valid) (addr : TimerId) {rollover : Bool}
    (hroll : rollover = true ↔ RolledBack m.previouseTime now) (m₁ : TimerManager)
    (htimers : m₁.timers = m.timers) (htimer : m₁.timer = m.timer) :
    m₁.splitExpired now addr rollover =
      (m.timers.filter fun x => decide (m.Due now x),
        m.timers.filter fun x => !decide (m.Due now x)) := by
  have hsame : m₁.splitExpired now addr rollover = m.splitExpired now addr rollover := by
    simp only [TimerManager.splitExpired, ptr, htimers, htimer]
  have happ := splitExpired_append m now addr rollover
  rw [hsame]
  have hmem := fun x => @Valid.mem_splitExpired m x now h addr rollover
  generalize m.splitExpired now addr rollover = split at happ hmem
  have hdue : ∀ x ∈ split.1, m.Due now x := fun x hx =>
    (((hmem x).1.mp hx).2).imp_left hroll.mp
  have hlate : ∀ x ∈ split.2, ¬ m.Due now x := fun x hx hdue =>
    ((hmem x).2.mp hx).2 (hdue.imp_left hroll.mpr)
  have hfirst : (split.1.filter fun x => decide (m.Due now x)) = split.1 :=
    List.filter_eq_self.mpr fun x hx => decide_eq_true (hdue x hx)
  have hnone : (split.2.filter fun x => decide (m.Due now x)) = [] :=
    List.filter_eq_nil_iff.mpr fun x hx => by simpa using hlate x hx
  have hnone' : (split.1.filter fun x => !decide (m.Due now x)) = [] :=
    List.filter_eq_nil_iff.mpr fun x hx => by simpa using hdue x hx
  have hsecond : (split.2.filter fun x => !decide (m.Due now x)) = split.2 :=
    List.filter_eq_self.mpr fun x hx => by simpa using hlate x hx
  rw [← happ, List.filter_append, List.filter_append, hfirst, hnone, hnone', hsecond,
    List.append_nil, List.nil_append]

/-- **The section**: the loop over what is due, with the rest in the set. -/
theorem Valid.listExpiredLocked_eq (h : m.Valid)
    {r : TimerManager × List (Option CallbackId)} (hl : m.listExpiredLocked now addr = some r) :
    r = TimerManager.expire now
      { m with
        previouseTime := now
        timers := m.timers.filter fun x => !decide (m.Due now x) }
      (m.timers.filter fun x => decide (m.Due now x)) := by
  have hroll : (m.detectClockRollover now).2 = true ↔ RolledBack m.previouseTime now :=
    decide_eq_true_iff
  have hsplit := fun rollover (hr : rollover = true ↔ RolledBack m.previouseTime now) =>
    h.splitExpired_eq addr hr (m.detectClockRollover now).1 rfl rfl
  rw [TimerManager.listExpiredLocked] at hl
  split at hl
  · rename_i hr
    rw [hr] at hroll hl
    rw [hsplit _ hroll] at hl
    exact (Option.some.inj hl).symm
  · rename_i hr
    rw [Bool.eq_false_iff.mpr hr] at hroll hl
    rw [hsplit _ hroll] at hl
    split at hl
    · cases hl
    · rename_i front rest hfront
      have hfront : m.timers = front :: rest := hfront
      split at hl
      · rename_i hlate
        have hlate : now < (m.timer front).next := hlate
        -- the first timer is not due, so none is
        have hnone : ∀ x ∈ m.timers, ¬ m.Due now x := by
          intro x hx hdue
          have hord := h.ordered
          rw [hfront] at hx hord
          have hle := next_le_of_key_le (hord.head_le x hx)
          rcases hdue with hdue | hdue
          · exact absurd (hroll.mpr hdue) Bool.false_ne_true
          · omega
        have hdue : (m.timers.filter fun x => decide (m.Due now x)) = [] :=
          List.filter_eq_nil_iff.mpr fun x hx => by simpa using hnone x hx
        have hrest : (m.timers.filter fun x => !decide (m.Due now x)) = m.timers :=
          List.filter_eq_self.mpr fun x hx => by simpa using hnone x hx
        rw [hdue, hrest]
        exact (Option.some.inj hl).symm
      · exact (Option.some.inj hl).symm

/-- **What `listExpiredCb` leaves in the set**: what is not due, and what recurs. -/
theorem Valid.mem_listExpiredLocked (h : m.Valid) {cbs : List (Option CallbackId)}
    (hl : m.listExpiredLocked now addr = some (m', cbs)) :
    (x ∈ m'.timers ↔ x ∈ m.timers ∧ (m.Due now x → (m.timer x).recurring = true)) ∧
      m'.previouseTime = now := by
  have hspec := @mem_expire
    { m with
      previouseTime := now
      timers := m.timers.filter fun x => !decide (m.Due now x) } x now
    (m.timers.filter fun x => decide (m.Due now x))
  rw [← h.listExpiredLocked_eq hl] at hspec
  refine ⟨hspec.1.trans ?_, hspec.2⟩
  rw [List.mem_filter, List.mem_filter]
  by_cases hdue : m.Due now x
  · simp [hdue]
  · simp [hdue]

/-- **When the section looks at the first timer of an empty set.** -/
theorem listExpiredLocked_eq_none_iff :
    m.listExpiredLocked now addr = none ↔ m.timers = [] ∧ ¬ RolledBack m.previouseTime now := by
  have hroll : (m.detectClockRollover now).2 = true ↔ RolledBack m.previouseTime now :=
    decide_eq_true_iff
  rw [listExpiredLocked]
  split
  · rename_i hr
    exact iff_of_false (Option.some_ne_none _) fun h => h.2 (hroll.mp hr)
  · rename_i hr
    rw [hroll] at hr
    split
    · rename_i hnil
      exact iff_of_true rfl ⟨hnil, hr⟩
    · rename_i front rest hcons
      have hcons : m.timers = front :: rest := hcons
      rw [hcons]
      exact iff_of_false (Option.some_ne_none _) fun h => by cases h.1

/-- `refresh` and `reset` leave the set as it is, or put a timer into it. -/
theorem refresh_timers (m : TimerManager) (id : TimerId) (now : Nat) :
    (m.refresh id now).1.previouseTime = m.previouseTime ∧
      ((m.refresh id now).1.timers = m.timers ∨ id ∈ (m.refresh id now).1.timers) := by
  rw [refresh]
  split
  · exact ⟨rfl, Or.inl rfl⟩
  · split
    · exact ⟨rfl, Or.inl rfl⟩
    · rename_i m₁ he
      obtain ⟨-, rfl⟩ := erase_eq_some he
      exact ⟨rfl, Or.inr (mem_insert.mpr (Or.inl rfl))⟩

theorem addTimerLocked_previouseTime (m : TimerManager) (id : TimerId) :
    (m.addTimerLocked id).1.previouseTime = m.previouseTime := by
  rw [addTimerLocked]
  dsimp only
  split <;> rfl

theorem reset_timers (m : TimerManager) (id : TimerId) (now ms : Nat) (fromNow : Bool) :
    (m.reset id now ms fromNow).1.previouseTime = m.previouseTime ∧
      ((m.reset id now ms fromNow).1.timers = m.timers ∨
        id ∈ (m.reset id now ms fromNow).1.timers) := by
  rw [reset]
  split
  · exact ⟨rfl, Or.inl rfl⟩
  · rw [resetLocked]
    split
    · exact ⟨rfl, Or.inl rfl⟩
    · split
      · exact ⟨rfl, Or.inl rfl⟩
      · rename_i m₁ he
        obtain ⟨-, rfl⟩ := erase_eq_some he
        exact ⟨addTimerLocked_previouseTime .., Or.inr (mem_addTimerLocked ..)⟩

end TimerManager

namespace TimerManager

/-- No operation but `cancel` and `listExpiredCb` empties the set. -/
theorem step_fills {m m' : TimerManager} {a : TimerAction} (hst : m.step a = some m')
    (hcancel : ∀ id, a ≠ .cancel id) (hlist : ∀ now addr, a ≠ .listExpiredCb now addr) :
    m'.previouseTime = m.previouseTime ∧ (m'.timers = [] → m.timers = []) := by
  have hfills : ∀ {n : TimerManager} {id : TimerId}, n.timers = m.timers ∨ id ∈ n.timers →
      n.timers = [] → m.timers = [] := by
    intro n id h hnil
    rcases h with heq | hmem
    · exact heq.symm.trans hnil
    · rw [hnil] at hmem
      cases hmem
  cases a with
  | cancel id => exact absurd rfl (hcancel id)
  | listExpiredCb now addr => exact absurd rfl (hlist now addr)
  | addTimer id now ms cb recurring =>
    obtain ⟨-, rfl⟩ := step_cases hst
    exact ⟨addTimerLocked_previouseTime .., hfills (.inr (mem_addTimerLocked ..))⟩
  | refresh id now =>
    obtain ⟨-, rfl⟩ := step_cases hst
    obtain ⟨htime, htimers⟩ := refresh_timers m id now
    exact ⟨htime, hfills htimers⟩
  | reset id now ms fromNow =>
    obtain ⟨-, rfl⟩ := step_cases hst
    obtain ⟨htime, htimers⟩ := reset_timers m id now ms fromNow
    exact ⟨htime, hfills htimers⟩
  | free id =>
    obtain ⟨-, rfl⟩ := step_cases hst
    exact ⟨rfl, fun hnil => hnil⟩

end TimerManager

/-! ## Waiting workers -/

namespace Expiry
variable {W : Type} {s t : Expiry W}

/-- Every worker that waits for the write lock finds a timer, or does not look for one. -/
def SectionsDefined (s : Expiry W) : Prop :=
  ∀ w now, s.waiting w = some now → ∀ addr, s.manager.listExpiredLocked now addr ≠ none

/-- **The step does not take the last timer off while another worker waits**, unless that
worker has read a clock that was set back. -/
def Spares (s : Expiry W) : ExpiryAction W → Prop
  | .other (.cancel id) =>
    (∀ x ∈ s.manager.timers, x = id) →
      ∀ v now, s.waiting v = some now → TimerManager.RolledBack s.manager.previouseTime now
  | .collect w _ =>
    ∀ clock, s.waiting w = some clock →
      (∀ x ∈ s.manager.timers, s.manager.Due clock x ∧ (s.manager.timer x).recurring = false) →
        ∀ v, v ≠ w → ∀ now, s.waiting v = some now → TimerManager.RolledBack clock now
  | _ => True

instance [Fintype W] [DecidableEq W] (s : Expiry W) (a : ExpiryAction W) : Decidable (s.Spares a) :=
  match a with
  | .other (.cancel id) =>
    inferInstanceAs (Decidable ((∀ x ∈ s.manager.timers, x = id) → ∀ _ _, _ → _))
  | .collect _ _ => inferInstanceAs (Decidable (∀ _, _ → (_ → _)))
  | .other (.addTimer ..) => isTrue trivial
  | .other (.refresh ..) => isTrue trivial
  | .other (.reset ..) => isTrue trivial
  | .other (.listExpiredCb ..) => isTrue trivial
  | .other (.free ..) => isTrue trivial
  | .test .. => isTrue trivial

theorem sectionsDefined_iff :
    s.SectionsDefined ↔ ∀ w now, s.waiting w = some now →
      s.manager.timers = [] → TimerManager.RolledBack s.manager.previouseTime now := by
  refine forall₃_congr fun w now _ => ?_
  simp only [ne_eq, TimerManager.listExpiredLocked_eq_none_iff, not_and, not_not, forall_const]

/-- A step that changes neither who waits nor the clock, and empties no set. -/
theorem SectionsDefined.frame (h : s.SectionsDefined) (hwaiting : t.waiting = s.waiting)
    (htime : t.manager.previouseTime = s.manager.previouseTime)
    (htimers : t.manager.timers = [] → s.manager.timers = []) : t.SectionsDefined := by
  rw [sectionsDefined_iff] at h ⊢
  intro w now hw hnil
  rw [hwaiting] at hw
  rw [htime]
  exact h w now hw (htimers hnil)

variable [DecidableEq W]

theorem sectionsDefined_cancel (hexact : s.manager.Exact) {id : TimerId}
    (hst : s.step (.other (.cancel id)) = some t) :
    t.SectionsDefined ↔ s.Spares (.other (.cancel id)) := by
  obtain ⟨m, hm, rfl⟩ := Option.map_eq_some_iff.mp hst
  obtain ⟨hid, res, hm⟩ := TimerManager.step_cases hm
  rw [TimerManager.cancel] at hm
  have htime : m.previouseTime = s.manager.previouseTime ∧
      (m.timers = [] ↔ ∀ x ∈ s.manager.timers, x = id) := by
    split at hm
    · rename_i hcb
      have hmem := (hexact.member id hid).mpr hcb
      rw [TimerManager.erase_of_mem (m := s.manager.setTimer id _) hmem] at hm
      obtain ⟨rfl, -⟩ := Prod.mk.inj (Option.some.inj hm)
      refine ⟨rfl, ?_⟩
      show s.manager.timers.erase id = [] ↔ _
      rw [List.eq_nil_iff_forall_not_mem]
      refine forall_congr' fun x => ?_
      rw [hexact.mem_erase]
      exact ⟨fun h hx => not_not.mp fun hne => h ⟨hne, hx⟩, fun h hx => hx.1 (h hx.2)⟩
    · rename_i hcb
      obtain ⟨rfl, -⟩ := Prod.mk.inj (Option.some.inj hm)
      refine ⟨rfl, fun hnil => ?_, fun hall => ?_⟩
      · rw [show s.manager.timers = [] from hnil]
        exact List.forall_mem_nil _
      · refine List.eq_nil_iff_forall_not_mem.mpr fun x hx => hcb ?_
        rw [← hexact.member id hid, ← hall x hx]
        exact hx
  rw [sectionsDefined_iff]
  show (∀ w now, s.waiting w = some now → m.timers = [] →
    TimerManager.RolledBack m.previouseTime now) ↔ (_ → _)
  rw [htime.1, htime.2]
  exact ⟨fun h hall v now hv => h v now hv hall, fun h v now hv hall => h hall v now hv⟩

theorem sectionsDefined_collect (hexact : s.manager.Exact) {w : W} {addr : TimerId}
    (hst : s.step (.collect w addr) = some t) :
    t.SectionsDefined ↔ s.Spares (.collect w addr) := by
  rw [step] at hst
  split at hst
  · rename_i clock hclock
    split at hst
    · cases hst
    · obtain ⟨⟨m, cbs⟩, hl, rfl⟩ := Option.map_eq_some_iff.mp hst
      have hmem := fun x => (hexact.toValid.mem_listExpiredLocked (x := x) hl).1
      have htime := (hexact.toValid.mem_listExpiredLocked (x := 0) hl).2
      have hnil : m.timers = [] ↔ ∀ x ∈ s.manager.timers,
          s.manager.Due clock x ∧ (s.manager.timer x).recurring = false := by
        rw [List.eq_nil_iff_forall_not_mem]
        refine forall_congr' fun x => ?_
        rw [hmem x, ← Bool.not_eq_true, ← Classical.not_imp, not_and]
      rw [sectionsDefined_iff]
      show (∀ v now, Function.update s.waiting w none v = some now → m.timers = [] →
        TimerManager.RolledBack m.previouseTime now) ↔ _
      rw [htime, hnil]
      constructor
      · intro h clock' hclock' hall v hv now hnow
        obtain rfl := Option.some.inj (hclock.symm.trans hclock')
        exact h v now (by rw [Function.update_of_ne hv, hnow]) hall
      · intro h v now hv hall
        have hne : v ≠ w := by
          rintro rfl
          rw [Function.update_self] at hv
          cases hv
        rw [Function.update_of_ne hne] at hv
        exact h clock hclock hall v hne now hv
  · cases hst

/-- **What a step does to the waiting workers.** -/
theorem sectionsDefined_step_iff (hexact : s.manager.Exact) (h : s.SectionsDefined)
    {a : ExpiryAction W} (hst : s.step a = some t) : t.SectionsDefined ↔ s.Spares a := by
  cases a with
  | collect w addr => exact sectionsDefined_collect hexact hst
  | test w now =>
    refine iff_of_true ?_ trivial
    rw [step] at hst
    split at hst
    · cases hst
    · obtain rfl := Option.some.inj hst
      rw [sectionsDefined_iff] at h ⊢
      intro v clock hv hnil
      by_cases hvw : v = w
      · subst hvw
        have hnone : s.manager.hasTimer = false := by
          rw [TimerManager.hasTimer, show s.manager.timers = [] from hnil]
          rfl
        have hv : Function.update s.waiting v _ v = some clock := hv
        rw [Function.update_self, hnone] at hv
        cases hv
      · have hv : Function.update s.waiting w _ v = some clock := hv
        rw [Function.update_of_ne hvw] at hv
        exact h v clock hv hnil
  | other a =>
    cases a with
    | cancel id => exact sectionsDefined_cancel hexact hst
    | listExpiredCb now addr => cases hst
    | addTimer | refresh | reset | free =>
      refine iff_of_true ?_ trivial
      obtain ⟨m, hm, rfl⟩ := Option.map_eq_some_iff.mp hst
      obtain ⟨htime, hnil⟩ := TimerManager.step_fills hm (by rintro _ ⟨⟩) (by rintro _ _ ⟨⟩)
      exact h.frame rfl htime hnil

theorem exact_step (h : s.manager.Exact) {a : ExpiryAction W} (hst : s.step a = some t) :
    t.manager.Exact := by
  cases a with
  | test w now =>
    rw [step] at hst
    split at hst
    · cases hst
    · obtain rfl := Option.some.inj hst
      exact h
  | collect w addr =>
    rw [step] at hst
    split at hst
    · split at hst
      · cases hst
      · obtain ⟨⟨m, cbs⟩, hl, rfl⟩ := Option.map_eq_some_iff.mp hst
        exact h.listExpiredLocked hl
    · cases hst
  | other a =>
    have hother : ∀ a, (s.manager.step a).map (fun manager => { s with manager }) = some t →
        t.manager.Exact := by
      intro a hst
      obtain ⟨m, hm, rfl⟩ := Option.map_eq_some_iff.mp hst
      exact h.step hm
    cases a with
    | listExpiredCb now addr => cases hst
    | _ => exact hother _ hst

/-- **When no worker looks at the first timer of an empty set.**  In every state of a run
the section of each worker that waits for the write lock is defined, exactly when every
step of the run spares the waiting workers. -/
theorem sections_defined_iff {tr : List (Expiry W × ExpiryAction W)}
    (hrun : (expiryMachine W).Run tr s) :
    (∀ u ∈ Machine.visits tr s, u.SectionsDefined) ↔ ∀ p ∈ tr, p.1.Spares p.2 := by
  have hexact : ∀ u ∈ Machine.visits tr s, u.manager.Exact := by
    refine hrun.invariant_visits (fun _ _ => True) ?_ ?_ fun _ _ => trivial
    · rintro _ ⟨now, rfl⟩
      exact .new now
    · exact fun s a t h _ hst => exact_step h hst
  rw [← hrun.invariant_iff (I := fun u => u.manager.Exact ∧ u.SectionsDefined) Spares]
  · exact forall₂_congr fun u hu => (and_iff_right (hexact u hu)).symm
  · rintro _ ⟨now, rfl⟩
    exact ⟨.new now, nofun⟩
  · rintro s a t ⟨hs, hdef⟩ hst
    rw [← sectionsDefined_step_iff hs hdef hst]
    exact and_iff_right (exact_step hs hst)

/-- Two workers find timers; one of them takes the timer that is due, and leaves another. -/
theorem sections_defined_iff_left :
    ∃ tr s, (expiryMachine (Fin 2)).Run tr s ∧ s.waiting 1 = some 1050 ∧ s.manager.timers = [5] ∧
      ((∀ u ∈ Machine.visits tr s, u.SectionsDefined) ↔ ∀ p ∈ tr, p.1.Spares p.2) ∧
      ∀ p ∈ tr, p.1.Spares p.2 := by
  obtain ⟨s, hrun, hs⟩ := Machine.Run.of_exec_any (M := expiryMachine (Fin 2)) ⟨1000, rfl⟩
    [.other (.addTimer 4 1000 50 7 false), .other (.addTimer 5 1000 90 8 false), .test 0 1050,
      .test 1 1050, .collect 0 9]
    (fun s => s.waiting 1 == some 1050 && s.manager.timers == [5]) (by decide +kernel)
  simp only [Bool.and_eq_true, beq_iff_eq] at hs
  exact ⟨_, s, hrun, hs.1, hs.2, sections_defined_iff hrun, by decide +kernel⟩

/-- Two workers find the one timer that there is; one of them takes it. -/
theorem begin_of_empty_set :
    ∃ tr s, (expiryMachine (Fin 2)).Run tr s ∧
      ∃ now addr, s.waiting 1 = some now ∧ s.manager.listExpiredLocked now addr = none := by
  obtain ⟨s, hrun, hs⟩ := Machine.Run.of_exec_any (M := expiryMachine (Fin 2)) ⟨1000, rfl⟩
    [.other (.addTimer 4 1000 50 7 false), .test 0 1050, .test 1 1050, .collect 0 9]
    (fun s => s.waiting 1 == some 1050 && (s.manager.listExpiredLocked 1050 9).isNone)
    (by decide +kernel)
  simp only [Bool.and_eq_true, beq_iff_eq, Option.isNone_iff_eq_none] at hs
  exact ⟨_, s, hrun, 1050, 9, hs.1, hs.2⟩

end Expiry
end Sylar
