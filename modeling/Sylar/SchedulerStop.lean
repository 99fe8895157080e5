import Sylar.Scheduler

/-! # When workers stop

`stopping()` says that the scheduler may end: both flags are set, the list is empty
and `m_activeThreadCount` is zero.  The counter is exact (`Counted`): it is the number
of workers between the removal of an entry and the matching decrement.  A fiber that
yielded `READY` is put back into the list after the decrement, so between the two
steps it is in no place that `stopping()` looks at.

`Unfinished` says that a task is in the scheduler's hands, there or elsewhere.  A
decrement `exposes` such a fiber if no other worker is counted then, the list is empty,
and the flags are set.

**`stopping_sees_iff`**: in a run `stopping()` is never true over an unfinished task
exactly when no step exposes one; and if, besides, nothing is scheduled while a worker
is on its way out, no worker leaves while a task is unfinished. -/
namespace Sylar
open Interleaving

namespace Pc

/-- Between the removal of an entry and the decrement. -/
def active : Pc → Bool
  | dispatch _ isActive => isActive
  | swapIn _ => true
  | running _ => true
  | switching _ _ => true
  | returned _ _ => true
  | skip => true
  | _ => false

end Pc

/-- Counted by `m_activeThreadCount`. -/
def Worker.active (x : Worker) : Bool := x.pc.active

namespace Scheduler
variable {n : Nat} {tid : Fin n → Int} {s t : Scheduler n} {a : SchedAction n}

/-- The worker has counted itself out, and has still to put its fiber back, which came
back `READY`. -/
def inGap (s : Scheduler n) (w : Fin n) : Bool :=
  match (s.worker w).pc with
  | .settle job _ => (s.heap job.fiber).state == .READY
  | .requeue _ => true
  | _ => false

/-- Some fiber is about to be put back. -/
def Gap (s : Scheduler n) : Prop := ∃ w, s.inGap w = true

/-- Some worker is counted. -/
def Busy (s : Scheduler n) : Prop := ∃ w, (s.worker w).pc.active = true

/-- A task is in the list, in the hands of a worker, or about to be put back. -/
def Unfinished (s : Scheduler n) : Prop := s.fibers ≠ [] ∨ s.Busy ∨ s.Gap

instance (s : Scheduler n) : Decidable s.Gap := inferInstanceAs (Decidable (∃ _, _))

instance (s : Scheduler n) : Decidable s.Busy := inferInstanceAs (Decidable (∃ _, _))

instance (s : Scheduler n) : Decidable s.Unfinished := inferInstanceAs (Decidable (_ ∨ _ ∨ _))

/-- **The invariant**: the counter is exact, and a worker without an entry has none in
hand. -/
structure Counted (s : Scheduler n) : Prop where
  active : s.activeThreadCount = countOf Worker.active s.worker
  inactive : ∀ w ft, (s.worker w).pc = .dispatch ft false → ft = .none

namespace Counted

theorem init : Counted (initial n) := by
  refine ⟨?_, fun w ft h => by cases h⟩
  symm
  exact countOf_eq_zero.mpr fun w => rfl

/-- One worker moves, and the counter by what that worker counts. -/
theorem move (h : Counted s) {w : Fin n} {x : Worker}
    (hworker : t.worker = Function.update s.worker w x)
    (hactive : t.activeThreadCount + (s.worker w).active.toNat =
      s.activeThreadCount + x.active.toNat)
    (hx : ∀ ft, x.pc = .dispatch ft false → ft = .none) : Counted t := by
  constructor
  · have hcount := countOf_update Worker.active s.worker w x
    rw [hworker]
    have := h.active
    omega
  · intro v ft hv
    rw [hworker] at hv
    by_cases hvw : v = w
    · subst hvw
      rw [Function.update_self] at hv
      exact hx ft hv
    · rw [Function.update_of_ne hvw] at hv
      exact h.inactive v ft hv

/-- A worker that is counted makes the counter positive. -/
theorem pos (h : Counted s) {w : Fin n} (hw : (s.worker w).active = true) :
    0 < s.activeThreadCount := by
  rw [h.active]
  exact countOf_pos hw

/-- A worker with something in hand has taken an entry. -/
theorem isActive (h : Counted s) {w : Fin n} {ft : FiberAndThread} {isActive : Bool}
    (hpc : (s.worker w).pc = .dispatch ft isActive) (hne : ft.fiber ≠ none ∨ ft.cb ≠ none) :
    isActive = true := by
  by_contra hfalse
  rw [Bool.not_eq_true] at hfalse
  subst hfalse
  have hnone := h.inactive w ft hpc
  subst hnone
  rcases hne with hne | hne
  · exact hne rfl
  · exact hne rfl

theorem work (h : Counted s) {w : Fin n} (hst : Work (tid w) s w t) : Counted t := by
  cases hst with
  | nothing hpc =>
    refine h.move rfl ?_ fun ft heq => by cases heq; rfl
    simp [Worker.active, Pc.active, hpc]
  -- a worker with a task has dequeued an entry
  | resume hpc hf =>
    obtain rfl := h.isActive hpc (Or.inl (by simp [hf]))
    refine h.move rfl ?_ fun ft heq => by cases heq
    simp [Worker.active, Pc.active, hpc]
  | rearm hpc _ hcb | make hpc _ hcb =>
    obtain rfl := h.isActive hpc (Or.inr (by simp [hcb]))
    refine h.move rfl ?_ fun ft heq => by cases heq
    simp [Worker.active, Pc.active, hpc]
  | decrement hpc | skip hpc =>
    have hpos := h.pos (w := w) (by simp [Worker.active, Pc.active, hpc])
    refine h.move rfl ?_ fun ft heq => by cases heq
    simp [Worker.active, Pc.active, hpc]
    omega
  -- the counter stays, or goes up as the worker begins to be counted
  | take hpc | drop hpc | noTask hpc | switchIn hpc | switchOut hpc | ready hpc | ended hpc
  | endedOwn hpc | held hpc | requeue hpc | park hpc | idleEnd hpc | idleAgain hpc
  | idleEnter hpc | idleLeave hpc =>
    refine h.move rfl ?_ fun ft heq => by cases heq
    simp [Worker.active, Pc.active, hpc]

/-- A step that moves no worker and leaves the counter alone. -/
theorem frame (h : Counted s) (hworker : t.worker = s.worker)
    (hactive : t.activeThreadCount = s.activeThreadCount) : Counted t := by
  refine ⟨?_, ?_⟩
  · rw [hworker, hactive]
    exact h.active
  · rw [hworker]
    exact h.inactive

theorem step (h : Counted s) (hst : s.step tid a = .ok t) : Counted t := by
  cases a with
  | newFiber cb => cases hst; exact h.frame rfl rfl
  | schedule fc thread =>
    obtain rfl := Except.ok.inj hst
    exact h.frame (worker_scheduleNoLock fc thread) (active_scheduleNoLock fc thread)
  | scheduleRange fcs =>
    obtain rfl := Except.ok.inj hst
    exact h.frame (worker_scheduleRange fcs) (active_scheduleRange fcs)
  | setAutoStop => cases hst; exact h.frame rfl rfl
  | setStopping value => cases hst; exact h.frame rfl rfl
  | stopCheck => cases hst; exact h
  | work w => exact h.work (work_of_ok hst)
  | yield w how =>
    obtain ⟨job, hpc, rfl⟩ := yield_of_ok hst
    refine h.move rfl ?_ fun ft heq => by cases heq
    simp [Worker.active, Pc.active, hpc]
  | idleCheck w derived =>
    obtain ⟨hpc, rfl⟩ := idleCheck_of_ok hst
    refine h.move rfl ?_ fun ft heq => by cases heq
    simp [Worker.active, Pc.active, hpc]

end Counted

theorem counted_of_run {tr : List (Scheduler n × SchedAction n)}
    (hrun : (schedMachine tid).Run tr s) : Counted s := by
  refine hrun.invariant (fun _ _ => True) ?_ ?_ fun _ _ => trivial
  · rintro s rfl
    exact Counted.init
  · intro s a t h _ hst
    exact h.step (Machine.ofExcept_step.mp hst)

/-! ## Fibers that nothing counts -/

/-- Both flags are set, the list is empty, and no worker but `w` is counted. -/
def alone (s : Scheduler n) (w : Option (Fin n)) : Bool :=
  s.autoStop && s.stopping && s.fibers.isEmpty &&
    decide (∀ v, some v ≠ w → (s.worker v).pc.active = false)

/-- The step leaves a fiber that came back `READY` to no count: a worker counts itself out
with it, or beside it, and was the only one that counted; or the last flag is set. -/
def exposes (s : Scheduler n) : SchedAction n → Bool
  | .work w =>
    match (s.worker w).pc with
    | .returned job _ => ((s.heap job.fiber).state == .READY || decide s.Gap) && s.alone (some w)
    | .skip => decide s.Gap && s.alone (some w)
    | _ => false
  | .setAutoStop => decide s.Gap && { s with autoStop := true }.alone none
  | .setStopping value => decide s.Gap && { s with stopping := value }.alone none
  | _ => false

/-- A fiber that is about to be put back is not all there is, or the flags are not set. -/
def Covered (s : Scheduler n) : Prop := s.Gap → s.alone none = false

theorem alone_eq_false_iff {w : Option (Fin n)} :
    s.alone w = false ↔ s.autoStop = false ∨ s.stopping = false ∨ s.fibers ≠ [] ∨
      ∃ v, some v ≠ w ∧ (s.worker v).pc.active = true := by
  simp only [alone, Bool.and_eq_false_iff, List.isEmpty_eq_false_iff, decide_eq_false_iff_not,
    not_forall, Bool.not_eq_false, or_assoc, exists_prop]

theorem alone_none_iff :
    s.alone none = false ↔ s.autoStop = false ∨ s.stopping = false ∨ s.fibers ≠ [] ∨ s.Busy := by
  rw [alone_eq_false_iff]
  simp only [ne_eq, reduceCtorEq, not_false_eq_true, true_and]
  rfl

/-- **What a test of `stopping()` sees**, where the counter is exact. -/
theorem Counted.sees_iff (h : Counted s) :
    (s.isStopping = true → ¬ s.Unfinished) ↔ s.Covered := by
  have hzero : s.activeThreadCount = 0 ↔ ¬ s.Busy := by
    rw [h.active]
    refine countOf_eq_zero.trans ⟨?_, ?_⟩
    · rintro hidle ⟨w, hw⟩
      exact Bool.false_ne_true ((hidle w).symm.trans hw)
    · intro hbusy w
      exact Bool.eq_false_of_not_eq_true fun hw => hbusy ⟨w, hw⟩
  have hstop : s.isStopping = true ↔
      s.autoStop = true ∧ s.stopping = true ∧ s.fibers = [] ∧ ¬ s.Busy := by
    rw [isStopping, ← hzero]
    simp only [Bool.and_eq_true, List.isEmpty_iff, beq_iff_eq, and_assoc]
  rw [hstop, Covered, alone_none_iff, Unfinished]
  constructor
  · intro hsees hgap
    by_contra hnot
    simp only [not_or, Bool.not_eq_false, ne_eq, not_not] at hnot
    exact hsees hnot (Or.inr (Or.inr hgap))
  · rintro hcov ⟨hauto, hstop, hempty, hbusy⟩ (hne | hb | hgap)
    · exact hne hempty
    · exact hbusy hb
    · rcases hcov hgap with h0 | h0 | h0 | h0
      · exact Bool.false_ne_true (h0.symm.trans hauto)
      · exact Bool.false_ne_true (h0.symm.trans hstop)
      · exact h0 hempty
      · exact hbusy h0

/-! ### What a step does to them -/

section Move
variable {w : Fin n} {x : Worker}

/-- A step of one worker lets no other fiber come back `READY`. -/
theorem gap_of_move (hworker : t.worker = Function.update s.worker w x)
    (hheap : ∀ f, (t.heap f).state = .READY → (s.heap f).state = .READY)
    (hx : t.inGap w = true → s.Gap) (hgap : t.Gap) : s.Gap := by
  obtain ⟨v, hv⟩ := hgap
  by_cases hvw : v = w
  · subst hvw
    exact hx hv
  · have hsame : t.worker v = s.worker v := by rw [hworker, Function.update_of_ne hvw]
    refine ⟨v, ?_⟩
    unfold inGap at hv ⊢
    rw [hsame] at hv
    split at hv
    · exact beq_iff_eq.mpr (hheap _ (beq_iff_eq.mp hv))
    · rfl
    · cases hv

/-- Nor is a fiber put back that is not the worker's. -/
theorem gap_keep (hworker : t.worker = Function.update s.worker w x) (hheap : t.heap = s.heap)
    (hw : s.inGap w = false) (hgap : s.Gap) : t.Gap := by
  obtain ⟨v, hv⟩ := hgap
  have hvw : v ≠ w := by
    rintro rfl
    exact Bool.false_ne_true (hw.symm.trans hv)
  refine ⟨v, ?_⟩
  unfold inGap at hv ⊢
  rwa [hworker, Function.update_of_ne hvw, hheap]

/-- The workers that are counted after a step of one. -/
theorem busy_move (hworker : t.worker = Function.update s.worker w x) :
    t.Busy ↔ x.pc.active = true ∨ ∃ v, some v ≠ some w ∧ (s.worker v).pc.active = true := by
  rw [Busy, hworker]
  constructor
  · rintro ⟨v, hv⟩
    by_cases hvw : v = w
    · rw [hvw, Function.update_self] at hv
      exact Or.inl hv
    · rw [Function.update_of_ne hvw] at hv
      exact Or.inr ⟨v, fun h => hvw (Option.some.inj h), hv⟩
  · rintro (hx | ⟨v, hvw, hv⟩)
    · exact ⟨w, by rwa [Function.update_self]⟩
    · refine ⟨v, ?_⟩
      rwa [Function.update_of_ne fun h => hvw (congrArg some h)]

/-- A worker that is counted covers whatever the others do. -/
theorem Covered.of_active (hworker : t.worker = Function.update s.worker w x)
    (hx : x.pc.active = true) : t.Covered :=
  fun _ => alone_none_iff.mpr (Or.inr (Or.inr (Or.inr ((busy_move hworker).mpr (Or.inl hx)))))

/-- A step that takes nothing out of a count. -/
theorem Covered.keep (h : s.Covered) (hauto : t.autoStop = s.autoStop)
    (hstop : t.stopping = s.stopping) (hgap : t.Gap → s.Gap)
    (hfibers : s.fibers ≠ [] → t.fibers ≠ [] ∨ t.Busy) (hbusy : s.Busy → t.Busy) : t.Covered := by
  intro hg
  rw [alone_none_iff, hauto, hstop]
  rcases alone_none_iff.mp (h (hgap hg)) with h0 | h0 | h0 | h0
  · exact Or.inl h0
  · exact Or.inr (Or.inl h0)
  · exact Or.inr (Or.inr (hfibers h0))
  · exact Or.inr (Or.inr (Or.inr (hbusy h0)))

/-- A step of one worker that is counted neither before nor after. -/
theorem Covered.rest (h : s.Covered) (hworker : t.worker = Function.update s.worker w x)
    (hauto : t.autoStop = s.autoStop) (hstop : t.stopping = s.stopping)
    (hfibers : s.fibers ≠ [] → t.fibers ≠ []) (hactive : (s.worker w).pc.active = false)
    (hheap : ∀ f, (t.heap f).state = .READY → (s.heap f).state = .READY)
    (hx : t.inGap w = true → s.Gap) : t.Covered := by
  refine h.keep hauto hstop (gap_of_move hworker hheap hx) (fun hne => Or.inl (hfibers hne)) ?_
  rintro ⟨v, hv⟩
  have hvw : v ≠ w := by
    rintro rfl
    exact Bool.false_ne_true (hactive.symm.trans hv)
  exact (busy_move hworker).mpr (Or.inr ⟨v, fun h => hvw (Option.some.inj h), hv⟩)

/-- A worker counts itself out. -/
theorem covered_decrement (hworker : t.worker = Function.update s.worker w x)
    (hauto : t.autoStop = s.autoStop) (hstop : t.stopping = s.stopping)
    (hfibers : t.fibers = s.fibers) (hx : x.pc.active = false) {g : Bool}
    (hgap : t.Gap ↔ g = true) : t.Covered ↔ (g && s.alone (some w)) = false := by
  have halone : t.alone none = false ↔ s.alone (some w) = false := by
    rw [alone_none_iff, alone_eq_false_iff, hauto, hstop, hfibers, busy_move hworker, hx]
    simp only [Bool.false_eq_true, false_or]
  rw [Covered, hgap, halone]
  cases g <;> simp

end Move

theorem inGap_setPc (w : Fin n) (pc : Pc) :
    (s.setPc w pc).inGap w = match pc with
      | .settle job _ => (s.heap job.fiber).state == .READY
      | .requeue _ => true
      | _ => false := by
  unfold inGap
  rw [worker_setPc_self]
  rfl

/-- A fiber that is written is `READY` only if the one before was. -/
theorem ready_update {heap : FiberId → Fiber} {g : FiberId} {fiber : Fiber}
    (h : fiber.state = .READY → (heap g).state = .READY) (f : FiberId)
    (hf : (Function.update heap g fiber f).state = .READY) : (heap f).state = .READY := by
  rcases eq_or_ne f g with rfl | hne
  · rw [Function.update_self] at hf
    exact h hf
  · rwa [Function.update_of_ne hne] at hf

theorem covered_work (h : s.Covered) {w : Fin n} (hst : Work (tid w) s w t) :
    t.Covered ↔ s.exposes (.work w) = false := by
  cases hst with
  | take hpc | switchIn hpc | switchOut hpc | drop hpc | make hpc | rearm hpc | resume hpc =>
    exact iff_of_true (Covered.of_active rfl rfl) (by rw [exposes, hpc])
  | nothing hpc | noTask hpc | ended hpc | held hpc | idleEnd hpc | idleAgain hpc =>
    refine iff_of_true (h.rest rfl rfl rfl id (by rw [hpc]; rfl) (fun _ => id) ?_)
      (by rw [exposes, hpc])
    rw [inGap_setPc]
    exact fun h => by cases h
  | @ready job how hpc hstate =>
    refine iff_of_true (h.rest rfl rfl rfl id (by rw [hpc]; rfl) (fun _ => id) fun _ => ⟨w, ?_⟩)
      (by rw [exposes, hpc])
    rw [inGap, hpc]
    exact beq_iff_eq.mpr hstate
  | endedOwn hpc _ _ hreset =>
    refine iff_of_true (h.rest rfl rfl rfl id (by rw [hpc]; rfl) (ready_update ?_) ?_)
      (by rw [exposes, hpc])
    · rw [(Fiber.reset_fresh hreset).2]
      exact fun h => by cases h
    · rw [inGap_setPc]
      exact fun h => by cases h
  | idleEnter hpc | idleLeave hpc =>
    refine iff_of_true (h.rest rfl rfl rfl id (by rw [hpc]; rfl) (fun _ => id) ?_)
      (by rw [exposes, hpc])
    unfold inGap
    rw [worker_setWorker_self]
    exact fun h => by cases h
  | park hpc =>
    refine iff_of_true (h.rest rfl rfl rfl id (by rw [hpc]; rfl) (ready_update ?_) ?_)
      (by rw [exposes, hpc])
    · exact fun h => by cases h
    · unfold inGap leave
      rw [worker_setWorker_self]
      exact fun h => by cases h
  | requeue hpc =>
    refine iff_of_true ?_ (by rw [exposes, hpc])
    exact fun _ => alone_none_iff.mpr (Or.inr (Or.inr (Or.inl (List.append_ne_nil_of_right_ne_nil
      _ (List.cons_ne_nil _ _)))))
  | @decrement job how hpc =>
    rw [exposes, hpc]
    refine covered_decrement (by rfl) (by rfl) (by rfl) (by rfl) (by rfl) ?_
    rw [Bool.or_eq_true, decide_eq_true_eq, beq_iff_eq]
    constructor
    · intro hgap
      by_cases hstate : (s.heap job.fiber).state = .READY
      · exact Or.inl hstate
      · refine Or.inr (gap_of_move (by rfl) (by exact fun _ => id) (fun hw => ?_) hgap)
        rw [inGap_setPc] at hw
        exact absurd (beq_iff_eq.mp hw) hstate
    · rintro (hstate | hgap)
      · exact ⟨w, by rw [inGap_setPc]; exact beq_iff_eq.mpr hstate⟩
      · exact gap_keep rfl rfl (by rw [inGap, hpc]) hgap
  | skip hpc =>
    rw [exposes, hpc]
    refine covered_decrement (by rfl) (by rfl) (by rfl) (by rfl) (by rfl) ?_
    rw [decide_eq_true_eq]
    refine ⟨gap_of_move rfl (fun _ => id) fun hw => ?_, gap_keep rfl rfl (by rw [inGap, hpc])⟩
    rw [inGap_setPc] at hw
    cases hw

/-- Nothing comes back `READY` where no worker moves. -/
theorem gap_of_still (hworker : t.worker = s.worker)
    (hheap : ∀ f, (t.heap f).state = .READY → (s.heap f).state = .READY) (hgap : t.Gap) :
    s.Gap := by
  obtain ⟨v, hv⟩ := hgap
  refine ⟨v, ?_⟩
  unfold inGap at hv ⊢
  rw [hworker] at hv
  split at hv
  · exact beq_iff_eq.mpr (hheap _ (beq_iff_eq.mp hv))
  · rfl
  · cases hv

/-- A step that moves no worker and sets no flag. -/
theorem Covered.frame (h : s.Covered) (hworker : t.worker = s.worker)
    (hauto : t.autoStop = s.autoStop) (hstop : t.stopping = s.stopping)
    (hheap : ∀ f, (t.heap f).state = .READY → (s.heap f).state = .READY)
    (hfibers : s.fibers ≠ [] → t.fibers ≠ []) : t.Covered := by
  refine h.keep hauto hstop (gap_of_still hworker hheap) (fun hne => Or.inl (hfibers hne)) ?_
  rw [Busy, Busy, hworker]
  exact id

theorem scheduleNoLock_ne_nil (fc : Option Task) (thread : Int) (h : s.fibers ≠ []) :
    (s.scheduleNoLock fc thread).fibers ≠ [] := by
  rcases fc with _ | _ | _
  · exact h
  · exact List.append_ne_nil_of_left_ne_nil h _
  · exact List.append_ne_nil_of_left_ne_nil h _

theorem Covered.schedule (h : s.Covered) (fc : Option Task) (thread : Int) :
    (s.scheduleNoLock fc thread).Covered := by
  refine h.frame (worker_scheduleNoLock fc thread) ?_ ?_ ?_ (scheduleNoLock_ne_nil fc thread)
  · rcases fc with _ | _ | _ <;> rfl
  · rcases fc with _ | _ | _ <;> rfl
  · rw [heap_scheduleNoLock]
    exact fun _ => id

theorem Covered.scheduleRange (h : s.Covered) (fcs : List (Option Task)) :
    (s.scheduleRange fcs).Covered := by
  induction fcs generalizing s with
  | nil => exact h
  | cons fc fcs ih =>
    rw [scheduleRange_cons]
    exact ih (h.schedule fc (-1))

/-- A range of empty pointers puts nothing into the list. -/
theorem scheduleRange_none {fcs : List (Option Task)} (h : fcs.any Option.isSome = false) :
    s.scheduleRange fcs = s := by
  induction fcs generalizing s with
  | nil => rfl
  | cons fc fcs ih =>
    rw [List.any_cons, Bool.or_eq_false_iff] at h
    obtain rfl := Option.isNone_iff_eq_none.mp (Option.isSome_eq_false_iff.mp h.1)
    rw [scheduleRange_cons]
    exact ih h.2

/-- A flag is set, or not. -/
theorem covered_flag (hworker : t.worker = s.worker) (hheap : t.heap = s.heap) :
    t.Covered ↔ (decide s.Gap && t.alone none) = false := by
  have hgap : t.Gap ↔ s.Gap := by
    unfold Gap inGap
    rw [hworker, hheap]
  rw [Covered, hgap, Bool.and_eq_false_iff, decide_eq_false_iff_not, ← imp_iff_not_or]

/-- **The step lemma**: a step leaves no fiber uncovered exactly if it exposes none. -/
theorem covered_step (h : s.Covered) (hst : s.step tid a = .ok t) :
    t.Covered ↔ s.exposes a = false := by
  cases a with
  | newFiber cb =>
    obtain rfl := Except.ok.inj hst
    refine iff_of_true (h.frame rfl rfl rfl (ready_update fun h => ?_) id) rfl
    cases h
  | schedule fc thread =>
    obtain rfl := Except.ok.inj hst
    exact iff_of_true (h.schedule fc thread) rfl
  | scheduleRange fcs =>
    obtain rfl := Except.ok.inj hst
    exact iff_of_true (h.scheduleRange fcs) rfl
  | setAutoStop =>
    obtain rfl := Except.ok.inj hst
    exact covered_flag rfl rfl
  | setStopping value =>
    obtain rfl := Except.ok.inj hst
    exact covered_flag rfl rfl
  | stopCheck =>
    obtain rfl := Except.ok.inj hst
    exact iff_of_true h rfl
  | work w => exact covered_work h (work_of_ok hst)
  | yield w how =>
    obtain ⟨job, -, rfl⟩ := yield_of_ok hst
    exact iff_of_true (Covered.of_active rfl rfl) rfl
  | idleCheck w derived =>
    obtain ⟨hpc, rfl⟩ := idleCheck_of_ok hst
    refine iff_of_true (h.rest rfl rfl rfl id (by rw [hpc]; rfl) (fun _ => id) ?_) rfl
    unfold inGap
    rw [worker_setWorker_self]
    exact fun h => by cases h

/-- The run lemma. -/
theorem covered_iff {tr : List (Scheduler n × SchedAction n)} (hrun : (schedMachine tid).Run tr s) :
    (∀ u ∈ Machine.visits tr s, u.Covered) ↔ ∀ p ∈ tr, p.1.exposes p.2 = false := by
  refine hrun.invariant_iff (fun s a => s.exposes a = false) ?_ ?_
  · rintro _ rfl ⟨w, hw⟩
    cases hw
  · exact fun s a t h hst => covered_step h (Machine.ofExcept_step.mp hst)

/-! ## Workers that leave -/

/-- The idle fiber of a worker has ended, and the worker has not left `run()` yet. -/
def Out (s : Scheduler n) : Prop :=
  ∃ w, (s.worker w).idle = .TERM ∧ (s.worker w).pc ≠ .exited

instance (s : Scheduler n) : Decidable s.Out := inferInstanceAs (Decidable (∃ _, _ ∧ _))

/-- A fiber or a function that is not empty is scheduled from outside `run()`. -/
def schedules : SchedAction n → Bool
  | .schedule fc _ => fc.isSome
  | .scheduleRange fcs => fcs.any Option.isSome
  | _ => false

/-- Something is scheduled while a worker is on its way out. -/
def late (s : Scheduler n) (a : SchedAction n) : Bool := schedules a && decide s.Out

/-- The idle fiber of the worker ends with the step, or the worker leaves `run()`. -/
def Leaves (tid : Fin n → Int) (s : Scheduler n) (a : SchedAction n) (w : Fin n) : Prop :=
  ∃ t, s.step tid a = .ok t ∧
    ((s.worker w).idle ≠ .TERM ∧ (t.worker w).idle = .TERM ∨
      (s.worker w).pc ≠ .exited ∧ (t.worker w).pc = .exited)

/-- A step of `run()` moves its own worker; it does not end the idle fiber, and leaves
only after that has ended. -/
theorem Work.worker {tid : Int} {w : Fin n} (h : Work tid s w t) :
    ∃ x, t.worker = Function.update s.worker w x ∧
      (x.idle = .TERM → (s.worker w).idle = .TERM) ∧ (x.pc = .exited → x.idle = .TERM) := by
  cases h with
  | idleEnd _ hterm => exact ⟨_, rfl, id, fun _ => hterm⟩
  | idleEnter _ _ => exact ⟨_, rfl, nofun, nofun⟩
  | idleLeave _ =>
    refine ⟨_, rfl, ?_, fun h => by cases h⟩
    intro h
    unfold idleBack at h
    split at h
    · assumption
    · cases h
    · cases h
  | _ => exact ⟨_, rfl, id, fun h => by cases h⟩

/-- **Who gets out**: a worker whose idle fiber has ended, by a test of `stopping()` that came out
true. -/
theorem step_out (hst : s.step tid a = .ok t) (w : Fin n) :
    ((t.worker w).idle = .TERM → (s.worker w).idle = .TERM ∨
      (a = .idleCheck w true ∧ s.isStopping = true)) ∧
    ((t.worker w).pc = .exited → (s.worker w).pc = .exited ∨ (t.worker w).idle = .TERM) := by
  have hsame : t.worker = s.worker →
      ((t.worker w).idle = .TERM → (s.worker w).idle = .TERM ∨
        (a = .idleCheck w true ∧ s.isStopping = true)) ∧
      ((t.worker w).pc = .exited → (s.worker w).pc = .exited ∨ (t.worker w).idle = .TERM) := by
    intro h
    rw [h]
    exact ⟨Or.inl, Or.inl⟩
  cases a with
  | newFiber cb => cases hst; exact hsame rfl
  | schedule fc thread => cases hst; exact hsame (worker_scheduleNoLock fc thread)
  | scheduleRange fcs => cases hst; exact hsame (worker_scheduleRange fcs)
  | setAutoStop => cases hst; exact hsame rfl
  | setStopping value => cases hst; exact hsame rfl
  | stopCheck => cases hst; exact hsame rfl
  | work v =>
    obtain ⟨x, hworker, hidle, hexit⟩ := (work_of_ok hst).worker
    by_cases hwv : w = v
    · subst hwv
      rw [hworker, Function.update_self]
      exact ⟨fun h => Or.inl (hidle h), fun h => Or.inr (hexit h)⟩
    · rw [hworker, Function.update_of_ne hwv]
      exact ⟨Or.inl, Or.inl⟩
  | yield v how =>
    obtain ⟨job, -, rfl⟩ := yield_of_ok hst
    by_cases hwv : w = v
    · subst hwv
      rw [worker_setPc_self]
      exact ⟨Or.inl, fun h => by cases h⟩
    · rw [worker_setPc_of_ne hwv]
      exact ⟨Or.inl, Or.inl⟩
  | idleCheck v derived =>
    obtain ⟨-, rfl⟩ := idleCheck_of_ok hst
    by_cases hwv : w = v
    · subst hwv
      rw [worker_setWorker_self]
      refine ⟨fun h => Or.inr ?_, fun h => by cases h⟩
      -- the idle fiber ends only when both tests came out true
      by_cases hcheck : (s.isStopping && derived) = true
      · obtain ⟨hstop, rfl⟩ := Bool.and_eq_true_iff.mp hcheck
        exact ⟨rfl, hstop⟩
      · simp only [hcheck] at h
        cases h
    · rw [worker_setWorker_of_ne hwv]
      exact ⟨Or.inl, Or.inl⟩

/-- A worker ends its idle fiber on a test that comes out true, and leaves behind one. -/
theorem Leaves.cases {w : Fin n} (h : Leaves tid s a w) :
    s.Out ∨ (schedules a = false ∧ s.isStopping = true) := by
  obtain ⟨t, hst, ⟨hnot, hterm⟩ | ⟨hnot, hexit⟩⟩ := h
  · obtain ⟨rfl, hstop⟩ := ((step_out hst w).1 hterm).resolve_left hnot
    exact Or.inr ⟨rfl, hstop⟩
  · have hterm := ((step_out hst w).2 hexit).resolve_left hnot
    rcases (step_out hst w).1 hterm with hprev | ⟨rfl, hstop⟩
    · exact Or.inl ⟨w, hprev, hnot⟩
    · exact Or.inr ⟨rfl, hstop⟩

/-- A worker that has left does nothing more. -/
theorem exited_stays (hst : s.step tid a = .ok t) {w : Fin n} (hexit : (s.worker w).pc = .exited) :
    (t.worker w).pc = .exited := by
  cases a with
  | newFiber | setAutoStop | setStopping | stopCheck =>
    cases hst
    exact hexit
  | schedule fc thread =>
    cases hst
    rwa [worker_scheduleNoLock]
  | scheduleRange fcs =>
    cases hst
    rwa [worker_scheduleRange]
  | work v =>
    have hwv : w ≠ v := by
      rintro rfl
      rw [step, work, hexit] at hst
      cases hst
    obtain ⟨x, hworker, -⟩ := (work_of_ok hst).worker
    rwa [hworker, Function.update_of_ne hwv]
  | yield v how =>
    obtain ⟨job, hpc, rfl⟩ := yield_of_ok hst
    rwa [worker_setPc_of_ne]
    rintro rfl
    rw [hexit] at hpc
    cases hpc
  | idleCheck v derived =>
    obtain ⟨hpc, rfl⟩ := idleCheck_of_ok hst
    rwa [worker_setWorker_of_ne]
    rintro rfl
    rw [hexit] at hpc
    cases hpc

/-- Who is on the way out was, or has just tested `stopping()`. -/
theorem out_step (hst : s.step tid a = .ok t) (hout : t.Out) :
    s.Out ∨ (schedules a = false ∧ s.isStopping = true) := by
  obtain ⟨w, hterm, hpc⟩ := hout
  rcases (step_out hst w).1 hterm with hprev | ⟨rfl, hstop⟩
  · exact Or.inl ⟨w, hprev, fun hexit => hpc (exited_stays hst hexit)⟩
  · exact Or.inr ⟨rfl, hstop⟩

/-! ### Nothing comes from nothing -/

section Finished
variable {w : Fin n} {x : Worker}

theorem not_unfinished_iff : ¬ s.Unfinished ↔ s.fibers = [] ∧ ¬ s.Busy ∧ ¬ s.Gap := by
  rw [Unfinished, not_or, not_or, ne_eq, not_not]

/-- A step of a worker that is not counted, and has nothing to put back. -/
theorem finished_move (h : ¬ s.Unfinished) (hworker : t.worker = Function.update s.worker w x)
    (hfibers : t.fibers = s.fibers) (hx : x.pc.active = false)
    (hheap : ∀ f, (t.heap f).state = .READY → (s.heap f).state = .READY)
    (hgap : t.inGap w = true → s.Gap) : ¬ t.Unfinished := by
  obtain ⟨hnil, hbusy, hnone⟩ := not_unfinished_iff.mp h
  refine not_unfinished_iff.mpr ⟨hfibers.trans hnil, ?_, ?_⟩
  · rw [busy_move hworker, hx]
    rintro (h | ⟨v, -, hv⟩)
    · exact Bool.false_ne_true h
    · exact hbusy ⟨v, hv⟩
  · exact fun hg => hnone (gap_of_move hworker hheap hgap hg)

theorem finished_work (hc : s.Counted) (h : ¬ s.Unfinished) (hst : Work (tid w) s w t) :
    ¬ t.Unfinished := by
  obtain ⟨hnil, hbusy, hgap⟩ := not_unfinished_iff.mp h
  cases hst with
  | take _ _ hfibers =>
    rw [hnil] at hfibers
    exact absurd hfibers.symm (by simp)
  | resume hpc hf =>
    obtain rfl := hc.isActive hpc (Or.inl (by simp [hf]))
    exact absurd ⟨w, by rw [hpc]; rfl⟩ hbusy
  | rearm hpc _ hcb | make hpc _ hcb =>
    obtain rfl := hc.isActive hpc (Or.inr (by simp [hcb]))
    exact absurd ⟨w, by rw [hpc]; rfl⟩ hbusy
  | drop hpc | switchIn hpc | switchOut hpc | decrement hpc | skip hpc =>
    exact absurd ⟨w, by rw [hpc]; rfl⟩ hbusy
  | ready hpc hstate =>
    exact absurd ⟨w, by rw [inGap, hpc]; exact beq_iff_eq.mpr hstate⟩ hgap
  | requeue hpc => exact absurd ⟨w, by rw [inGap, hpc]⟩ hgap
  | nothing | noTask | ended | held | idleEnd | idleAgain =>
    refine finished_move h rfl rfl rfl (fun _ => id) ?_
    rw [inGap_setPc]
    exact fun h => by cases h
  | endedOwn _ _ _ hreset =>
    refine finished_move h rfl rfl rfl (ready_update ?_) ?_
    · rw [(Fiber.reset_fresh hreset).2]
      exact fun h => by cases h
    · rw [inGap_setPc]
      exact fun h => by cases h
  | idleEnter | idleLeave =>
    refine finished_move h rfl rfl rfl (fun _ => id) ?_
    unfold inGap
    rw [worker_setWorker_self]
    exact fun h => by cases h
  | park =>
    refine finished_move h rfl rfl rfl (ready_update ?_) ?_
    · exact fun h => by cases h
    · unfold inGap leave
      rw [worker_setWorker_self]
      exact fun h => by cases h

/-- **The step lemma**: what is finished stays so until something is scheduled. -/
theorem finished_step (hc : s.Counted) (h : ¬ s.Unfinished) (ha : schedules a = false)
    (hst : s.step tid a = .ok t) : ¬ t.Unfinished := by
  have hbusy := (not_unfinished_iff.mp h).2.1
  -- a step that moves no worker, and puts nothing into the list
  have hstill : ∀ {t : Scheduler n}, t.worker = s.worker → t.fibers = s.fibers →
      (∀ f, (t.heap f).state = .READY → (s.heap f).state = .READY) → ¬ t.Unfinished := by
    intro t hworker hfibers hheap
    obtain ⟨hnil, -, hgap⟩ := not_unfinished_iff.mp h
    refine not_unfinished_iff.mpr ⟨hfibers.trans hnil, by rwa [Busy, hworker], ?_⟩
    exact fun hg => hgap (gap_of_still hworker hheap hg)
  cases a with
  | newFiber cb =>
    obtain rfl := Except.ok.inj hst
    exact hstill rfl rfl (ready_update fun h => by cases h)
  | schedule fc thread =>
    obtain rfl := Except.ok.inj hst
    cases fc with
    | none => exact h
    | some fc => cases ha
  | scheduleRange fcs =>
    obtain rfl := Except.ok.inj hst
    rw [scheduleRange_none ha]
    exact h
  | setAutoStop | setStopping | stopCheck =>
    obtain rfl := Except.ok.inj hst
    exact hstill rfl rfl fun _ => id
  | work w => exact finished_work hc h (work_of_ok hst)
  | yield w how =>
    obtain ⟨job, hpc, -⟩ := yield_of_ok hst
    exact absurd ⟨w, by rw [hpc]; rfl⟩ hbusy
  | idleCheck w derived =>
    obtain ⟨hpc, rfl⟩ := idleCheck_of_ok hst
    refine finished_move h rfl rfl rfl (fun _ => id) ?_
    unfold inGap
    rw [worker_setWorker_self]
    exact fun h => by cases h

end Finished

/-- **The invariant of the runs that leave no task behind.** -/
structure Tidy (s : Scheduler n) : Prop where
  counted : s.Counted
  covered : s.Covered
  out : s.Out → ¬ s.Unfinished

/-- What is finished where a worker is on its way out, or finds `stopping()` true. -/
theorem Tidy.finished (h : s.Tidy)
    (hout : s.Out ∨ (schedules a = false ∧ s.isStopping = true)) : ¬ s.Unfinished :=
  hout.elim h.out fun hstop => h.counted.sees_iff.mpr h.covered hstop.2

theorem Tidy.step (h : s.Tidy) (hexposes : s.exposes a = false) (hlate : s.late a = false)
    (hst : s.step tid a = .ok t) : t.Tidy := by
  refine ⟨h.counted.step hst, (covered_step h.covered hst).mpr hexposes, fun hout => ?_⟩
  have hbefore := out_step hst hout
  refine finished_step h.counted (h.finished hbefore) ?_ hst
  rcases hbefore with hout | ⟨hquiet, -⟩
  · simpa [late, hout] using hlate
  · exact hquiet

/-- **When workers stop only over finished work.**  In a run `stopping()` is never true
while a task is unfinished, exactly when no step exposes one.  If so, and if nothing is
scheduled while a worker is on its way out, no step ends the idle fiber of a worker, or
takes a worker out of `run()`, while a task is unfinished. -/
theorem stopping_sees_iff {tr : List (Scheduler n × SchedAction n)}
    (hrun : (schedMachine tid).Run tr s) :
    ((∀ u ∈ Machine.visits tr s, u.isStopping = true → ¬ u.Unfinished) ↔
        ∀ p ∈ tr, p.1.exposes p.2 = false) ∧
      ((∀ p ∈ tr, p.1.exposes p.2 = false ∧ p.1.late p.2 = false) →
        ∀ p ∈ tr, ∀ w, Leaves tid p.1 p.2 w → ¬ p.1.Unfinished) := by
  constructor
  · have hcounted := hrun.invariant_visits (I := Counted) (fun _ _ => True)
      (by rintro _ rfl; exact Counted.init)
      (fun s a t h _ hst => h.step (Machine.ofExcept_step.mp hst)) fun _ _ => trivial
    rw [← covered_iff hrun]
    exact forall₂_congr fun u hu => (hcounted u hu).sees_iff
  · intro hok p hp w hleaves
    have htidy := hrun.invariant_mem (I := Tidy)
      (fun s a => s.exposes a = false ∧ s.late a = false) ?_ ?_ hok hp
    · exact htidy.finished hleaves.cases
    · rintro _ rfl
      exact ⟨Counted.init, fun ⟨_, hw⟩ => Bool.noConfusion hw, fun ⟨_, hw, _⟩ => by cases hw⟩
    · exact fun s a t h ha hst => h.step ha.1 ha.2 (Machine.ofExcept_step.mp hst)

/-- Worker `w` on thread `w`. -/
def threadIds (n : Nat) : Fin n → Int := fun w => w.val

theorem schedMachine_init (n : Nat) : (schedMachine (threadIds n)).init (initial n) := rfl

/-- A fiber yields `READY`, is put back and ends; then the scheduler is stopped, and worker 1
finds nothing to do and leaves. -/
theorem stopping_sees_iff_idle :
    ∃ tr s, (schedMachine (threadIds 2)).Run tr s ∧ (s.worker 1).pc = .exited ∧
      (∀ u ∈ Machine.visits tr s, u.isStopping = true → ¬ u.Unfinished) ∧
      ∀ p ∈ tr, ∀ w, Leaves (threadIds 2) p.1 p.2 w → ¬ p.1.Unfinished := by
  obtain ⟨s, hrun, hs⟩ := Machine.Run.of_exec_any (schedMachine_init 2)
    [.newFiber 7, .schedule (some (.fiber 0)) (-1), .work 0, .work 0, .work 0, .yield 0 .ready,
      .work 0, .work 0, .work 0, .work 0, .work 0, .work 0, .work 0, .yield 0 .finish, .work 0,
      .work 0, .work 0, .setAutoStop, .setStopping true, .work 1, .work 1, .work 1, .work 1,
      .idleCheck 1 true, .work 1, .work 1, .work 1, .work 1]
    (fun s => (s.worker 1).pc == .exited) (by decide +kernel)
  obtain ⟨hsees, hleaves⟩ := stopping_sees_iff hrun
  exact ⟨_, s, hrun, by simpa using hs, hsees.mpr (by decide +kernel), hleaves (by decide +kernel)⟩

/-- A fiber yields `READY` on worker 0, which has counted itself out and not yet put the
fiber back when worker 1 tests `stopping()` and leaves. -/
theorem ready_fiber_unseen :
    ∃ tr s, (schedMachine (threadIds 2)).Run tr s ∧ (s.worker 1).pc = .exited ∧ s.Unfinished ∧
      ∃ p ∈ tr, p.2 = .idleCheck 1 true ∧ p.1.isStopping = true ∧ p.1.Unfinished := by
  obtain ⟨s, hrun, hs⟩ := Machine.Run.of_exec_any (schedMachine_init 2)
    [.newFiber 7, .schedule (some (.fiber 0)) (-1), .setAutoStop, .setStopping true,
      .work 0, .work 0, .work 0, .yield 0 .ready, .work 0, .work 0,
      .work 1, .work 1, .work 1, .work 1, .idleCheck 1 true, .work 1, .work 1, .work 1, .work 1]
    (fun s => (s.worker 1).pc == .exited && decide s.Unfinished) (by decide +kernel)
  obtain ⟨hpc, hunf⟩ := Bool.and_eq_true_iff.mp hs
  exact ⟨_, s, hrun, by simpa using hpc, of_decide_eq_true hunf, by decide +kernel⟩

end Scheduler
end Sylar
