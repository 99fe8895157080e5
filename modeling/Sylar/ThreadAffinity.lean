import Sylar.SchedulerLedger

/-! # Thread affinity

A task may be scheduled for one thread.  The scheduler keeps that in the entry of the
list, and the entry is gone once a worker has taken it: when the fiber yields `READY`,
`run()` calls `schedule( fiber )`, and the new entry is for any thread.

`Pinned` carries next to the scheduler the thread that each ticket's task was scheduled
for; a ticket that `run()` itself gives out has the thread of the round it comes from.

**`affinity_kept`**: as long as `run()` puts back no task that was scheduled for a
thread, every task is executed by the worker that it was scheduled for. -/
namespace Sylar
open Interleaving Scheduler

/-- The scheduler, and the thread that each ticket's task was scheduled for; -1 is any. -/
structure Pinned (n : Nat) where
  sched : Scheduler n
  pin : Nat → Int

namespace Pinned
variable {n : Nat} {tid : Fin n → Int} {s t : Pinned n} {a : SchedAction n} {w : Fin n}

/-- The threads of the tickets after a step. -/
def repin (s : Pinned n) : SchedAction n → Nat → Int
  | .schedule _ thread => Function.update s.pin s.sched.nextTicket thread
  | .scheduleRange _ => fun x => if x < s.sched.nextTicket then s.pin x else -1
  | .work w =>
    match (s.sched.worker w).pc with
    | .requeue job => Function.update s.pin s.sched.nextTicket (s.pin job.ticket)
    | _ => s.pin
  | _ => s.pin

def step (tid : Fin n → Int) (s : Pinned n) (a : SchedAction n) : Except Halt (Pinned n) :=
  (s.sched.step tid a).map fun sched => { sched, pin := s.repin a }

def initial (n : Nat) : Pinned n := { sched := .initial n, pin := fun _ => -1 }

/-- `run()` puts back a task that was scheduled for a thread. -/
def unpins (s : Pinned n) : SchedAction n → Bool
  | .work w =>
    match (s.sched.worker w).pc with
    | .requeue job => s.pin job.ticket != -1
    | _ => false
  | _ => false

/-- The worker may execute the tasks of the ticket. -/
def Admits (tid : Fin n → Int) (s : Pinned n) (w : Fin n) (x : Nat) : Prop :=
  s.pin x = -1 ∨ s.pin x = tid w

end Pinned

def affinityMachine {n : Nat} (tid : Fin n → Int) : Machine (Pinned n) (SchedAction n) :=
  Machine.ofExcept (fun s => s = Pinned.initial n) (Pinned.step tid)

namespace Pinned
variable {n : Nat} {tid : Fin n → Int} {s t : Pinned n} {a : SchedAction n} {w : Fin n}

/-- **The invariant**: each entry still has the thread of its task, and each worker what
it may have. -/
structure Kept (tid : Fin n → Int) (s : Pinned n) : Prop where
  counted : s.sched.Counted
  listed : ∀ ft ∈ s.sched.fibers, ft.ticket < s.sched.nextTicket ∧ ft.thread = s.pin ft.ticket
  held : ∀ w x, (s.sched.worker w).pc.ticket = some x →
    x < s.sched.nextTicket ∧ s.Admits tid w x

namespace Kept

/-- What a step has to show: the tickets it knew keep their threads, what it puts into the
list has its thread, and what a worker gets it may have. -/
theorem of_step (h : Kept tid s) (hcounted : t.sched.Counted)
    (hnext : s.sched.nextTicket ≤ t.sched.nextTicket)
    (hpin : ∀ x, x < s.sched.nextTicket → t.pin x = s.pin x)
    (hlisted : ∀ ft ∈ t.sched.fibers, ft ∈ s.sched.fibers ∨
      ft.ticket < t.sched.nextTicket ∧ ft.thread = t.pin ft.ticket)
    (hheld : ∀ w x, (t.sched.worker w).pc.ticket = some x →
      (s.sched.worker w).pc.ticket = some x ∨ x < s.sched.nextTicket ∧ s.Admits tid w x) :
    Kept tid t := by
  refine ⟨hcounted, fun ft hft => ?_, fun w x hx => ?_⟩
  · rcases hlisted ft hft with hold | hnew
    · obtain ⟨hlt, hthread⟩ := h.listed ft hold
      exact ⟨Nat.lt_of_lt_of_le hlt hnext, by rw [hpin _ hlt]; exact hthread⟩
    · exact hnew
  · obtain ⟨hlt, hadmits⟩ := (hheld w x hx).elim (h.held w x) id
    refine ⟨Nat.lt_of_lt_of_le hlt hnext, ?_⟩
    rw [Admits, hpin x hlt]
    exact hadmits

/-- A worker moves and gets no ticket that it did not have, or one that it may have. -/
theorem held_move {sched : Scheduler n} {v : Worker}
    (hworker : sched.worker = Function.update s.sched.worker w v)
    (hv : ∀ x, v.pc.ticket = some x →
      (s.sched.worker w).pc.ticket = some x ∨ x < s.sched.nextTicket ∧ s.Admits tid w x)
    (u : Fin n) (x : Nat) (hx : (sched.worker u).pc.ticket = some x) :
    (s.sched.worker u).pc.ticket = some x ∨ x < s.sched.nextTicket ∧ s.Admits tid u x := by
  rw [hworker] at hx
  by_cases huw : u = w
  · subst huw
    rw [Function.update_self] at hx
    exact hv x hx
  · rw [Function.update_of_ne huw] at hx
    exact Or.inl hx

/-- The next ticket goes to an entry with its thread. -/
theorem listed_snoc (ft : FiberAndThread) (hft : ft.ticket = s.sched.nextTicket) :
    ∀ ft' ∈ s.sched.fibers ++ [ft], ft' ∈ s.sched.fibers ∨
      ft'.ticket < s.sched.nextTicket + 1 ∧
        ft'.thread = Function.update s.pin s.sched.nextTicket ft.thread ft'.ticket := by
  intro ft' hmem
  refine (List.mem_append.mp hmem).imp_right fun hmem => ?_
  rw [List.mem_singleton.mp hmem, hft, Function.update_self]
  exact ⟨Nat.lt_succ_self _, rfl⟩

/-- A step of one worker that puts nothing into the list. -/
theorem move (h : Kept tid s) {sched : Scheduler n} {v : Worker} (hcounted : sched.Counted)
    (hworker : sched.worker = Function.update s.sched.worker w v)
    (hfibers : sched.fibers = s.sched.fibers) (hnext : sched.nextTicket = s.sched.nextTicket)
    (hv : ∀ x, v.pc.ticket = some x → (s.sched.worker w).pc.ticket = some x) :
    Kept tid { sched, pin := s.pin } := by
  refine h.of_step hcounted (Nat.le_of_eq hnext.symm) (fun _ _ => rfl) ?_
    (held_move hworker fun x hx => Or.inl (hv x hx))
  intro ft hft
  rw [hfibers] at hft
  exact Or.inl hft

theorem work (h : Kept tid s) (ha : s.unpins (.work w) = false) {sched : Scheduler n}
    (hcounted : sched.Counted) (hst : s.sched.Work (tid w) w sched) :
    Kept tid { sched, pin := s.repin (.work w) } := by
  -- only a fiber that is put back gives a ticket its thread
  have hpin : (∀ job, (s.sched.worker w).pc ≠ .requeue job) → s.repin (.work w) = s.pin := by
    intro hne
    rw [repin]
    split
    · rename_i job hpc
      exact absurd hpc (hne job)
    · rfl
  cases hst with
  | @take ft pre post _ hpc _ hfibers hthread _ _ =>
    rw [hpin (by rw [hpc]; rintro _ ⟨⟩)]
    have hmem : ft ∈ s.sched.fibers := by simp [hfibers]
    obtain ⟨hlt, hft⟩ := h.listed ft hmem
    refine h.of_step hcounted (Nat.le_refl _) (fun _ _ => rfl) ?_ (held_move rfl ?_)
    · intro ft' hft'
      have : ft' ∈ pre ++ post := hft'
      rw [hfibers]
      simp only [List.mem_append, List.mem_cons] at this ⊢
      tauto
    · intro x hx
      obtain rfl : ft.ticket = x := Option.some.inj hx
      refine Or.inr ⟨hlt, ?_⟩
      rw [Admits, ← hft]
      exact hthread
  | @requeue job hpc =>
    have hjob : s.pin job.ticket = -1 := by simpa [unpins, hpc] using ha
    have hrepin : s.repin (.work w) = Function.update s.pin s.sched.nextTicket (-1) := by
      simp only [repin, hpc, hjob]
    rw [hrepin]
    refine h.of_step hcounted (Nat.le_succ _) ?_ ?_ (held_move rfl (by rintro _ ⟨⟩))
    · exact fun x hx => Function.update_of_ne (Nat.ne_of_lt hx) ..
    · exact listed_snoc ⟨some job.fiber, none, -1, s.sched.nextTicket⟩ rfl
  | resume hpc hf =>
    obtain rfl := h.counted.isActive hpc (Or.inl (by simp [hf]))
    rw [hpin (by rw [hpc]; rintro _ ⟨⟩)]
    exact h.move hcounted rfl rfl rfl (by simp [hpc, Pc.ticket])
  | rearm hpc _ hcb | make hpc _ hcb =>
    obtain rfl := h.counted.isActive hpc (Or.inr (by simp [hcb]))
    rw [hpin (by rw [hpc]; rintro _ ⟨⟩)]
    exact h.move hcounted rfl rfl rfl (by simp [hpc, Pc.ticket])
  | nothing hpc | drop hpc | noTask hpc | switchIn hpc | switchOut hpc | decrement hpc
  | ready hpc | ended hpc | endedOwn hpc | held hpc | park hpc | skip hpc | idleEnd hpc
  | idleAgain hpc | idleEnter hpc | idleLeave hpc =>
    rw [hpin (by rw [hpc]; rintro _ ⟨⟩)]
    exact h.move hcounted rfl rfl rfl (by simp [hpc, Pc.ticket])

theorem mem_scheduleRange (sched : Scheduler n) (fcs : List (Option Task)) :
    sched.nextTicket ≤ (sched.scheduleRange fcs).nextTicket ∧
      ∀ ft ∈ (sched.scheduleRange fcs).fibers, ft ∈ sched.fibers ∨
        sched.nextTicket ≤ ft.ticket ∧ ft.ticket < (sched.scheduleRange fcs).nextTicket ∧
          ft.thread = -1 := by
  induction fcs generalizing sched with
  | nil => exact ⟨Nat.le_refl _, fun _ => Or.inl⟩
  | cons fc fcs ih =>
    rw [scheduleRange_cons]
    obtain ⟨hnext, hmem⟩ := ih (sched.scheduleNoLock fc (-1))
    have hone : sched.nextTicket ≤ (sched.scheduleNoLock fc (-1)).nextTicket := by
      rcases fc with _ | _ | _
      · exact Nat.le_refl _
      · exact Nat.le_succ _
      · exact Nat.le_succ _
    refine ⟨Nat.le_trans hone hnext, fun ft hft => ?_⟩
    rcases hmem ft hft with hold | ⟨hle, hlt, hthread⟩
    · rcases fc with _ | _ | _
      · exact Or.inl hold
      all_goals
        refine (List.mem_append.mp hold).imp_right fun hnew => ?_
        rw [List.mem_singleton.mp hnew]
        exact ⟨Nat.le_refl _, hnext, rfl⟩
    · exact Or.inr ⟨Nat.le_trans hone hle, hlt, hthread⟩

theorem step (h : Kept tid s) (ha : s.unpins a = false) (hst : s.step tid a = .ok t) :
    Kept tid t := by
  obtain ⟨sched, hsched, rfl⟩ := map_ok hst
  have hcounted := h.counted.step hsched
  cases a with
  | newFiber | setAutoStop | setStopping | stopCheck =>
    cases hsched
    exact h.of_step hcounted (Nat.le_refl _) (fun _ _ => rfl) (fun _ => Or.inl) fun _ _ => Or.inl
  | schedule fc thread =>
    cases hsched
    have hnew : ∀ x, x < s.sched.nextTicket →
        Function.update s.pin s.sched.nextTicket thread x = s.pin x :=
      fun x hx => Function.update_of_ne (Nat.ne_of_lt hx) ..
    rcases fc with _ | f | cb
    · exact h.of_step hcounted (Nat.le_refl _) hnew (fun _ => Or.inl) fun _ _ => Or.inl
    · exact h.of_step hcounted (Nat.le_succ _) hnew
        (listed_snoc ⟨some f, none, thread, s.sched.nextTicket⟩ rfl) fun _ _ => Or.inl
    · exact h.of_step hcounted (Nat.le_succ _) hnew
        (listed_snoc ⟨none, some cb, thread, s.sched.nextTicket⟩ rfl) fun _ _ => Or.inl
  | scheduleRange fcs =>
    cases hsched
    obtain ⟨hnext, hmem⟩ := mem_scheduleRange s.sched fcs
    refine h.of_step hcounted hnext (fun x hx => if_pos hx) ?_ ?_
    · intro ft hft
      refine (hmem ft hft).imp_right fun ⟨hle, hlt, hthread⟩ => ⟨hlt, ?_⟩
      rw [hthread]
      exact (if_neg (Nat.not_lt.mpr hle)).symm
    · rw [worker_scheduleRange]
      exact fun _ _ => Or.inl
  | work w => exact h.work ha hcounted (work_of_ok hsched)
  | yield w how =>
    obtain ⟨job, hpc, rfl⟩ := yield_of_ok hsched
    exact h.move hcounted rfl rfl rfl (by simp [hpc, Pc.ticket])
  | idleCheck w derived =>
    obtain ⟨hpc, rfl⟩ := idleCheck_of_ok hsched
    exact h.move hcounted rfl rfl rfl (by simp [hpc, Pc.ticket])

theorem init : Kept tid (initial n) := ⟨Counted.init, nofun, nofun⟩

end Kept

/-- **When threads are kept.**  In a run in which `run()` puts back no task that was
scheduled for a thread, whenever a worker executes a task, that task was scheduled for
its thread or for any. -/
theorem affinity_kept {tr : List (Pinned n × SchedAction n)}
    (hrun : (affinityMachine tid).Run tr s) (hok : ∀ p ∈ tr, p.1.unpins p.2 = false) :
    ∀ u ∈ Machine.visits tr s, ∀ w job, (u.sched.worker w).pc = .running job →
      u.Admits tid w job.ticket := by
  have hkept := hrun.invariant_visits (I := Kept tid) (fun s a => s.unpins a = false) ?_ ?_ hok
  · intro u hu w job hpc
    exact ((hkept u hu).held w job.ticket (by rw [hpc]; rfl)).2
  · rintro _ rfl
    exact .init
  · exact fun s a t h ha hst => h.step ha (Machine.ofExcept_step.mp hst)

theorem affinityMachine_init (n : Nat) : (affinityMachine (threadIds n)).init (initial n) := rfl

/-- A callback for thread 1 waits for its worker while the other one looks. -/
theorem affinity_kept_first :
    ∃ tr s, (affinityMachine (threadIds 2)).Run tr s ∧ s.pin 0 = 1 ∧
      (s.sched.worker 1).pc = .running ⟨0, true, 0⟩ ∧
      ∀ u ∈ Machine.visits tr s, ∀ w job, (u.sched.worker w).pc = .running job →
        u.Admits (threadIds 2) w job.ticket := by
  obtain ⟨s, hrun, hs⟩ := Machine.Run.of_exec_any (affinityMachine_init 2)
    [.schedule (some (.callback 7)) 1, .work 0, .work 1, .work 1, .work 1]
    (fun s => s.pin 0 == 1 && (s.sched.worker 1).pc == .running ⟨0, true, 0⟩) (by decide +kernel)
  obtain ⟨hpin, hpc⟩ := Bool.and_eq_true_iff.mp hs
  exact ⟨_, s, hrun, by simpa using hpin, by simpa using hpc,
    affinity_kept hrun (by decide +kernel)⟩

/-- A callback for thread 0 yields `READY` there, and worker 1 takes the entry that
`run()` made for it. -/
theorem affinity_lost :
    ∃ tr s, (affinityMachine (threadIds 2)).Run tr s ∧
      ∃ w job, (s.sched.worker w).pc = .running job ∧ s.pin job.ticket ≠ -1 ∧
        s.pin job.ticket ≠ threadIds 2 w := by
  obtain ⟨s, hrun, hs⟩ := Machine.Run.of_exec_any (affinityMachine_init 2)
    [.schedule (some (.callback 7)) 0, .work 0, .work 0, .work 0, .yield 0 .ready, .work 0, .work 0,
      .work 0, .work 0, .work 1, .work 1, .work 1]
    (fun s => s.pin 1 == 0 && (s.sched.worker 1).pc == .running ⟨0, false, 1⟩) (by decide +kernel)
  obtain ⟨hpin, hpc⟩ := Bool.and_eq_true_iff.mp hs
  rw [beq_iff_eq] at hpin hpc
  exact ⟨_, s, hrun, 1, _, hpc, by rw [hpin]; decide, by rw [hpin]; decide⟩

end Pinned
end Sylar
