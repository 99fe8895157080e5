import Sylar.SchedulerStop

/-! # The accounts of the scheduler

Every entry that is scheduled gets a ticket.  The **ledger** of a run says where each
ticket is: in the list, in the hands of a worker, or finished with.  `ledger_of_run`
proves that it is in exactly one of these places, for every interleaving: a step moves
a ticket from one place to another, or gives out the next one.

A ticket stands for a call of `schedule()`: `submitted` is what the calls of a run were
given, and `Faithful` says that the entries, and what the workers make of them, are what
was submitted under their tickets.

With the two counters that the scheduler keeps of its workers, `Counted` for the active
ones and `IdleCounted` for those in their idle fiber, this is **`scheduler_accounts`**. -/
namespace Sylar
open Interleaving

namespace Pc

/-- The ticket of the entry in the worker's hands: from its removal from the list to the
end of the round of `run()` that it is for. -/
def ticket : Pc → Option Nat
  | dispatch ft isActive => if isActive then some ft.ticket else none
  | swapIn job => some job.ticket
  | running job => some job.ticket
  | switching job _ => some job.ticket
  | returned job _ => some job.ticket
  | settle job _ => some job.ticket
  | requeue job => some job.ticket
  | park job => some job.ticket
  | _ => none

/-- The task that the worker has taken up. -/
def job : Pc → Option Job
  | swapIn job => some job
  | running job => some job
  | switching job _ => some job
  | returned job _ => some job
  | settle job _ => some job
  | requeue job => some job
  | park job => some job
  | _ => none

/-- Between `++m_idleThreadCount` and `--m_idleThreadCount`. -/
def idles : Pc → Bool
  | idling => true
  | idleLeave => true
  | _ => false

end Pc

/-- What a worker makes of a task: it resumes the fiber, or runs the callback on its
`cb_fiber`. -/
def Job.IsFor (job : Job) : Task → Prop
  | .fiber f => job.fiber = f ∧ job.own = false
  | .callback _ => job.own = true

/-- The worker has the entry with ticket `x`. -/
def Worker.holds (x : Nat) (v : Worker) : Bool := v.pc.ticket == some x

/-- Counted by `m_idleThreadCount`. -/
def Worker.idles (v : Worker) : Bool := v.pc.idles

namespace Scheduler
variable {n : Nat} {tid : Fin n → Int} {s t : Scheduler n} {a : SchedAction n} {w : Fin n} {x : Nat}

/-! ## The places of a ticket -/

instance (s : Scheduler n) (ft : FiberAndThread) : Decidable (s.Ended ft) :=
  inferInstanceAs (Decidable (∀ f, ft.fiber = some f → _ ∨ _))

/-- How often the ticket is in `m_fibers`. -/
def listed (s : Scheduler n) (x : Nat) : Nat := s.fibers.countP fun ft => ft.ticket == x

/-- How many workers have it. -/
def holders (s : Scheduler n) (x : Nat) : Nat := countOf (Worker.holds x) s.worker

/-- The round of `run()` for the ticket ends: its fiber is dead, or came back, and has
been put back or parked where the scheduler does that. -/
def finishes (s : Scheduler n) (x : Nat) : SchedAction n → Bool
  | .work w =>
    match (s.worker w).pc with
    | .dispatch ft true => decide (s.Ended ft) && ft.cb.isNone && ft.ticket == x
    | .settle job _ =>
      decide ((s.heap job.fiber).state = .TERM ∨ (s.heap job.fiber).state = .EXCEPT) &&
        job.ticket == x
    | .requeue job => job.ticket == x
    | .park job => job.ticket == x
    | _ => false
  | _ => false

/-- How many entries a step puts into the list: one for each fiber or function that is
not empty. -/
def adds (s : Scheduler n) : SchedAction n → Nat
  | .schedule fc _ => fc.isSome.toNat
  | .scheduleRange fcs => fcs.countP Option.isSome
  | .work w =>
    match (s.worker w).pc with
    | .requeue _ => 1
    | _ => 0
  | _ => 0

/-! ## What a step does to the ledger -/

theorem holds_of {pc : Pc} (hpc : (s.worker w).pc = pc) :
    (s.worker w).holds x = (pc.ticket == some x) := by
  rw [Worker.holds, hpc]

/-- One worker moves: it may give up a ticket, and take another. -/
theorem holders_move {v : Worker} (hworker : t.worker = Function.update s.worker w v) :
    t.holders x + ((s.worker w).holds x).toNat = s.holders x + (v.holds x).toNat := by
  rw [holders, holders, hworker]
  exact countOf_update (Worker.holds x) s.worker w v

theorem scheduleNoLock_fibers (fc : Option Task) (thread : Int) :
    (s.scheduleNoLock fc thread).nextTicket = s.nextTicket + fc.isSome.toNat ∧
      (s.scheduleNoLock fc thread).listed x =
        s.listed x + if s.nextTicket ≤ x ∧ x < s.nextTicket + fc.isSome.toNat then 1 else 0 := by
  have hsnoc : ∀ ft : FiberAndThread, ft.ticket = s.nextTicket →
      (s.fibers ++ [ft]).countP (fun ft => ft.ticket == x) =
        s.listed x + if s.nextTicket ≤ x ∧ x < s.nextTicket + 1 then 1 else 0 := by
    intro ft hft
    rw [List.countP_append, List.countP_singleton, hft, listed]
    congr 1
    refine if_congr ?_ rfl rfl
    rw [beq_iff_eq]
    omega
  rcases fc with _ | _ | _
  · exact ⟨rfl, by simp [scheduleNoLock]⟩
  · exact ⟨rfl, hsnoc _ rfl⟩
  · exact ⟨rfl, hsnoc _ rfl⟩

/-- The books of a step balance: the tickets that it gives out are new, and each ticket
leaves its place for another. -/
structure Balanced (s : Scheduler n) (a : SchedAction n) (t : Scheduler n) (x : Nat) : Prop where
  issued : t.nextTicket = s.nextTicket + s.adds a
  moved : t.listed x + t.holders x + (s.finishes x a).toNat =
    s.listed x + s.holders x +
      if s.nextTicket ≤ x ∧ x < s.nextTicket + s.adds a then 1 else 0

/-- A step of one worker: only the list and what that worker holds count. -/
theorem Balanced.of_move {v : Worker} (hworker : t.worker = Function.update s.worker w v)
    (hissued : t.nextTicket = s.nextTicket + s.adds a)
    (hmoved : t.listed x + (v.holds x).toNat + (s.finishes x a).toNat =
      s.listed x + ((s.worker w).holds x).toNat +
        if s.nextTicket ≤ x ∧ x < s.nextTicket + s.adds a then 1 else 0) :
    s.Balanced a t x := by
  refine ⟨hissued, ?_⟩
  have hmove := holders_move (x := x) hworker
  omega

/-- A step of one worker that leaves the list alone. -/
theorem Balanced.of_worker {v : Worker} (hworker : t.worker = Function.update s.worker w v)
    (hfibers : t.fibers = s.fibers) (hnext : t.nextTicket = s.nextTicket) (hadds : s.adds a = 0)
    (hholds : (v.holds x).toNat + (s.finishes x a).toNat = ((s.worker w).holds x).toNat) :
    s.Balanced a t x := by
  refine .of_move hworker (by omega) ?_
  have hlisted : t.listed x = s.listed x := by rw [listed, hfibers, listed]
  rw [hlisted, if_neg (by omega)]
  omega

theorem Work.balanced (h : Counted s) (hst : Work (tid w) s w t) :
    s.Balanced (.work w) t x := by
  cases hst with
  | @take ft pre post _ hpc _ hfibers _ _ _ =>
    -- the ticket of the entry goes from the list to the worker
    have hlisted : s.listed x = (pre ++ post).countP (fun ft => ft.ticket == x) +
        (ft.ticket == x).toNat := by
      rw [listed, hfibers]
      cases hx : ft.ticket == x <;> simp [hx, Nat.add_assoc]
    refine .of_move rfl (by simp [adds, hpc, setPc, setWorker]) ?_
    rw [holds_of hpc, hlisted]
    simp [listed, Worker.holds, Pc.ticket, finishes, adds, hpc, setPc, setWorker]
  | nothing hpc | noTask hpc | switchIn hpc | switchOut hpc | decrement hpc | park hpc | skip hpc
  | idleEnd hpc | idleAgain hpc | idleEnter hpc | idleLeave hpc =>
    refine .of_worker rfl rfl rfl (by simp [adds, hpc]) ?_
    simp [Worker.holds, Pc.ticket, finishes, hpc]
  | @resume ft _ f hpc hf hterm hexcept =>
    obtain rfl := h.isActive hpc (Or.inl (by simp [hf]))
    have hlive : ¬ s.Ended ft := fun hended => (hended f hf).elim hterm hexcept
    refine .of_worker rfl rfl rfl (by simp [adds, hpc]) ?_
    simp [Worker.holds, Pc.ticket, finishes, hpc, hlive]
  | rearm hpc _ hcb | make hpc _ hcb =>
    obtain rfl := h.isActive hpc (Or.inr (by simp [hcb]))
    refine .of_worker rfl rfl rfl (by simp [adds, hpc]) ?_
    simp [Worker.holds, Pc.ticket, finishes, hpc, hcb]
  | drop hpc hended hcb =>
    refine .of_worker rfl rfl rfl (by simp [adds, hpc]) ?_
    simp [Worker.holds, Pc.ticket, finishes, hpc, hended, hcb]
  | ready hpc hstate | ended hpc hstate | endedOwn hpc hstate =>
    refine .of_worker rfl rfl rfl (by simp [adds, hpc]) ?_
    simp [Worker.holds, Pc.ticket, finishes, hpc, hstate]
  | held hpc _ hterm hexcept =>
    refine .of_worker rfl rfl rfl (by simp [adds, hpc]) ?_
    simp [Worker.holds, Pc.ticket, finishes, hpc, hterm, hexcept]
  | @requeue job hpc =>
    -- the round ends, and the fiber gets the next ticket
    obtain ⟨hnext, hlisted⟩ :=
      scheduleNoLock_fibers (s := s) (x := x) (some (.fiber job.fiber)) (-1)
    refine .of_move rfl (by simpa [adds, hpc, leave, setWorker] using hnext) ?_
    have hleave : ((s.scheduleNoLock (some (.fiber job.fiber)) (-1)).leave w job).listed x =
        (s.scheduleNoLock (some (.fiber job.fiber)) (-1)).listed x := rfl
    rw [hleave, hlisted, holds_of hpc]
    simp [Worker.holds, Pc.ticket, finishes, adds, hpc]
    omega

/-- A step that moves no worker. -/
theorem Balanced.of_frame (hworker : t.worker = s.worker)
    (hissued : t.nextTicket = s.nextTicket + s.adds a) (hfinishes : s.finishes x a = false)
    (hlisted : t.listed x =
      s.listed x + if s.nextTicket ≤ x ∧ x < s.nextTicket + s.adds a then 1 else 0) :
    s.Balanced a t x := by
  refine ⟨hissued, ?_⟩
  have hholders : t.holders x = s.holders x := by rw [holders, hworker, holders]
  rw [hfinishes, Bool.toNat_false, hholders, hlisted]
  omega

/-- A step that changes neither the workers nor the list. -/
theorem Balanced.of_still (hworker : t.worker = s.worker) (hfibers : t.fibers = s.fibers)
    (hnext : t.nextTicket = s.nextTicket) (hadds : s.adds a = 0)
    (hfinishes : s.finishes x a = false) : s.Balanced a t x := by
  refine .of_frame hworker (by omega) hfinishes ?_
  rw [listed, hfibers, if_neg (by omega)]
  rfl

/-- The entries of a range get their tickets one after the other. -/
theorem scheduleRange_fibers (fcs : List (Option Task)) :
    (s.scheduleRange fcs).nextTicket = s.nextTicket + fcs.countP Option.isSome ∧
      (s.scheduleRange fcs).listed x = s.listed x +
        if s.nextTicket ≤ x ∧ x < s.nextTicket + fcs.countP Option.isSome then 1 else 0 := by
  induction fcs generalizing s with
  | nil => exact ⟨rfl, by simp [scheduleRange]⟩
  | cons fc fcs ih =>
    obtain ⟨hnext, hlisted⟩ := scheduleNoLock_fibers (s := s) (x := x) fc (-1)
    obtain ⟨hnexts, hlisteds⟩ := ih (s := s.scheduleNoLock fc (-1))
    have hcount : (fc :: fcs).countP Option.isSome =
        fc.isSome.toNat + fcs.countP Option.isSome := by
      cases fc <;> simp [Nat.add_comm]
    rw [scheduleRange_cons, hnexts, hlisteds, hlisted, hcount, hnext]
    refine ⟨by omega, ?_⟩
    split_ifs <;> omega

theorem Balanced.step (h : Counted s) (hst : s.step tid a = .ok t) : s.Balanced a t x := by
  cases a with
  | newFiber | setAutoStop | setStopping | stopCheck =>
    cases hst
    exact .of_still rfl rfl rfl rfl rfl
  | schedule fc thread =>
    obtain rfl := Except.ok.inj hst
    obtain ⟨hnext, hlisted⟩ := scheduleNoLock_fibers (s := s) (x := x) fc thread
    exact .of_frame (worker_scheduleNoLock fc thread) hnext rfl hlisted
  | scheduleRange fcs =>
    obtain rfl := Except.ok.inj hst
    obtain ⟨hnext, hlisted⟩ := scheduleRange_fibers (s := s) (x := x) fcs
    exact .of_frame (worker_scheduleRange fcs) hnext rfl hlisted
  | work w => exact Work.balanced h (work_of_ok hst)
  | yield w how =>
    obtain ⟨job, hpc, rfl⟩ := yield_of_ok hst
    refine .of_worker rfl rfl rfl rfl ?_
    simp [Worker.holds, Pc.ticket, finishes, hpc]
  | idleCheck w derived =>
    obtain ⟨hpc, rfl⟩ := idleCheck_of_ok hst
    refine .of_worker rfl rfl rfl rfl ?_
    simp [Worker.holds, Pc.ticket, finishes, hpc]

/-- **The ledger of a run.**  Each ticket that was given out is in the list once, or in the
hands of one worker, or was finished with once. -/
theorem ledger_of_run {tr : List (Scheduler n × SchedAction n)}
    (hrun : (schedMachine tid).Run tr s) (x : Nat) :
    s.listed x + s.holders x + Machine.tally (fun s a => (s.finishes x a).toNat) tr =
      if x < s.nextTicket then 1 else 0 := by
  have hbalanced : ∀ tr s a t, (schedMachine tid).Run tr s →
      (schedMachine tid).step s a = some t → s.Balanced a t x :=
    fun tr s a t hrun hst => Balanced.step (counted_of_run hrun) (Machine.ofExcept_step.mp hst)
  -- what the steps give out is the ticket itself, when its turn comes
  have hissued := hrun.balance (fun s => if x < s.nextTicket then 1 else 0)
    (fun s a => if s.nextTicket ≤ x ∧ x < s.nextTicket + s.adds a then 1 else 0)
    (fun _ _ => 0) (fun _ _ => True) (by rintro s rfl; rfl)
    (fun tr s a t hr _ _ hst => by
      rw [(hbalanced tr s a t hr hst).issued]
      split_ifs <;> omega) fun _ _ => trivial
  have hplaces := hrun.balance (fun s => s.listed x + s.holders x)
    (fun s a => if s.nextTicket ≤ x ∧ x < s.nextTicket + s.adds a then 1 else 0)
    (fun s a => (s.finishes x a).toNat) (fun _ _ => True)
    (by rintro s rfl; simp [initial, listed, holders, countOf, Worker.holds, Pc.ticket])
    (fun tr s a t hr _ _ hst => (hbalanced tr s a t hr hst).moved) fun _ _ => trivial
  have hzero : Machine.tally (fun (_ : Scheduler n) (_ : SchedAction n) => 0) tr = 0 := by
    simp [Machine.tally]
  rw [hzero, Nat.add_zero] at hissued
  rw [hplaces, hissued]

/-! ## What was scheduled -/

/-- The tasks that the `schedule()` calls of a step put into the list, and their threads. -/
def submits (s : Scheduler n) : SchedAction n → List (Task × Int)
  | .schedule fc thread => fc.toList.map fun task => (task, thread)
  | .scheduleRange fcs => (fcs.filterMap id).map fun task => (task, -1)
  | .work w =>
    match (s.worker w).pc with
    | .requeue job => [(.fiber job.fiber, -1)]
    | _ => []
  | _ => []

/-- What was scheduled in a run; the ticket of a task is its place. -/
def submitted (tr : List (Scheduler n × SchedAction n)) : List (Task × Int) :=
  tr.flatMap fun p => p.1.submits p.2

/-- The entry for a task. -/
def entryOf (e : Task × Int) (ticket : Nat) : FiberAndThread :=
  match e.1 with
  | .fiber f => { fiber := some f, cb := none, thread := e.2, ticket }
  | .callback cb => { fiber := none, cb := some cb, thread := e.2, ticket }

/-- The entry is the one for the task with its ticket. -/
def Stands (log : List (Task × Int)) (ft : FiberAndThread) : Prop :=
  ∃ e, log[ft.ticket]? = some e ∧ ft = entryOf e ft.ticket

/-- **Entries and jobs are what was submitted** under their tickets. -/
structure Faithful (log : List (Task × Int)) (s : Scheduler n) : Prop where
  issued : s.nextTicket = log.length
  listed : ∀ ft ∈ s.fibers, Stands log ft
  taken : ∀ w ft, (s.worker w).pc = .dispatch ft true → Stands log ft
  jobs : ∀ w job, (s.worker w).pc.job = some job →
    ∃ e, log[job.ticket]? = some e ∧ job.IsFor e.1

section Faithful
variable {log new : List (Task × Int)} {ft : FiberAndThread}

theorem getElem?_append_some {e : Task × Int} (h : log[x]? = some e) :
    (log ++ new)[x]? = some e := by
  rw [List.getElem?_append_left (List.getElem?_eq_some_iff.mp h).1, h]

theorem Stands.append (h : Stands log ft) : Stands (log ++ new) ft := by
  obtain ⟨e, he, hft⟩ := h
  exact ⟨e, getElem?_append_some he, hft⟩

/-- The next ticket is for the next task. -/
theorem stands_snoc (e : Task × Int) : Stands (log ++ [e]) (entryOf e log.length) := by
  rcases e with ⟨_ | _, thread⟩ <;> exact ⟨_, List.getElem?_concat_length .., rfl⟩

/-- An entry with a fiber stands for that fiber. -/
theorem Stands.fiber (h : Stands log ft) {f : FiberId} (hf : ft.fiber = some f) :
    ∃ thread, log[ft.ticket]? = some (.fiber f, thread) := by
  obtain ⟨⟨_ | _, thread⟩, he, hft⟩ := h
  · rw [hft] at hf
    obtain rfl := Option.some.inj hf
    exact ⟨thread, he⟩
  · rw [hft] at hf
    cases hf

theorem Stands.callback (h : Stands log ft) {cb : CallbackId} (hcb : ft.cb = some cb) :
    (∃ thread, log[ft.ticket]? = some (.callback cb, thread)) ∧ ft.fiber = none := by
  obtain ⟨⟨_ | _, thread⟩, he, hft⟩ := h
  · rw [hft] at hcb
    cases hcb
  · rw [hft] at hcb ⊢
    obtain rfl := Option.some.inj hcb
    exact ⟨⟨thread, he⟩, rfl⟩

namespace Faithful

/-- What a step has to show, that submits nothing: what it leaves in the list was there, and
what its worker gets was in the list or is what was submitted. -/
theorem move (h : Faithful log s) {v : Worker} (hworker : t.worker = Function.update s.worker w v)
    (hnext : t.nextTicket = s.nextTicket) (hfibers : ∀ ft ∈ t.fibers, ft ∈ s.fibers)
    (htaken : ∀ ft, v.pc = .dispatch ft true → ft ∈ s.fibers)
    (hjobs : ∀ job, v.pc.job = some job → (s.worker w).pc.job = some job ∨
      ∃ e, log[job.ticket]? = some e ∧ job.IsFor e.1) : Faithful log t := by
  refine ⟨hnext.trans h.issued, fun ft hft => h.listed ft (hfibers ft hft), fun u ft hu => ?_,
    fun u job hu => ?_⟩
  · rw [hworker] at hu
    by_cases huw : u = w
    · rw [huw, Function.update_self] at hu
      exact h.listed ft (htaken ft hu)
    · rw [Function.update_of_ne huw] at hu
      exact h.taken u ft hu
  · rw [hworker] at hu
    by_cases huw : u = w
    · rw [huw, Function.update_self] at hu
      exact (hjobs job hu).elim (h.jobs w job) id
    · rw [Function.update_of_ne huw] at hu
      exact h.jobs u job hu

/-- `schedule()` puts an entry for the task into the list. -/
theorem schedule (h : Faithful log s) (fc : Option Task) (thread : Int) :
    Faithful (log ++ fc.toList.map fun task => (task, thread)) (s.scheduleNoLock fc thread) := by
  cases fc with
  | none =>
    rw [Option.toList_none, List.map_nil, List.append_nil]
    exact h
  | some task =>
    have hfibers : (s.scheduleNoLock (some task) thread).fibers =
        s.fibers ++ [entryOf (task, thread) s.nextTicket] := by
      cases task <;> rfl
    have hnext : (s.scheduleNoLock (some task) thread).nextTicket = s.nextTicket + 1 := by
      cases task <;> rfl
    refine ⟨?_, fun ft hft => ?_, fun u ft hu => ?_, fun u job hu => ?_⟩
    · rw [hnext, h.issued]
      simp
    · rw [hfibers] at hft
      rcases List.mem_append.mp hft with hft | hft
      · exact (h.listed ft hft).append
      · rw [List.mem_singleton.mp hft, h.issued]
        exact stands_snoc (task, thread)
    · rw [worker_scheduleNoLock] at hu
      exact (h.taken u ft hu).append
    · rw [worker_scheduleNoLock] at hu
      obtain ⟨e, he, hjob⟩ := h.jobs u job hu
      exact ⟨e, getElem?_append_some he, hjob⟩

theorem scheduleRange (h : Faithful log s) (fcs : List (Option Task)) :
    Faithful (log ++ (fcs.filterMap id).map fun task => (task, -1)) (s.scheduleRange fcs) := by
  induction fcs generalizing s log with
  | nil =>
    rw [List.filterMap_nil, List.map_nil, List.append_nil]
    exact h
  | cons fc fcs ih =>
    have hrest := ih (h.schedule fc (-1))
    rw [scheduleRange_cons]
    rw [List.append_assoc, ← List.map_append] at hrest
    cases fc <;> exact hrest

theorem work (h : Faithful log s) (hc : Counted s) (hst : Work (tid w) s w t) :
    Faithful (log ++ s.submits (.work w)) t := by
  -- only a fiber that is put back is submitted
  have hnone : (∀ job, (s.worker w).pc ≠ .requeue job) →
      log ++ s.submits (.work w) = log := by
    intro hne
    rw [submits]
    split
    · rename_i job hpc
      exact absurd hpc (hne job)
    · exact List.append_nil log
  cases hst with
  | @take ft pre post _ hpc _ hfibers _ _ _ =>
    rw [hnone (by rw [hpc]; rintro _ ⟨⟩)]
    refine h.move rfl rfl (fun ft' hft' => ?_) ?_ (by rintro _ ⟨⟩)
    · have hmem : ft' ∈ pre ++ post := hft'
      rw [hfibers]
      simp only [List.mem_append, List.mem_cons] at hmem ⊢
      tauto
    · rintro _ ⟨⟩
      rw [hfibers]
      exact List.mem_append_right _ (List.mem_cons_self ..)
  | @resume ft _ f hpc hf =>
    obtain rfl := hc.isActive hpc (Or.inl (by simp [hf]))
    rw [hnone (by rw [hpc]; rintro _ ⟨⟩)]
    obtain ⟨thread, he⟩ := (h.taken w ft hpc).fiber hf
    refine h.move rfl rfl (fun _ => id) (by rintro _ ⟨⟩) ?_
    rintro _ ⟨⟩
    exact Or.inr ⟨_, he, rfl, rfl⟩
  | @rearm ft _ cb _ _ hpc _ hcb | @make ft _ cb hpc _ hcb =>
    obtain rfl := hc.isActive hpc (Or.inr (by simp [hcb]))
    rw [hnone (by rw [hpc]; rintro _ ⟨⟩)]
    obtain ⟨⟨thread, he⟩, -⟩ := (h.taken w ft hpc).callback hcb
    refine h.move rfl rfl (fun _ => id) (by rintro _ ⟨⟩) ?_
    rintro _ ⟨⟩
    exact Or.inr ⟨_, he, rfl⟩
  | @requeue job hpc =>
    have hsubmits : s.submits (.work w) = [(.fiber job.fiber, -1)] := by rw [submits, hpc]
    have hput := h.schedule (some (.fiber job.fiber)) (-1)
    rw [hsubmits]
    refine hput.move rfl rfl (fun _ => id) (by rintro _ ⟨⟩) (by rintro _ ⟨⟩)
  | nothing hpc | drop hpc | noTask hpc | skip hpc | idleEnd hpc | idleAgain hpc | idleEnter hpc
  | idleLeave hpc | ended hpc | endedOwn hpc | park hpc =>
    rw [hnone (by rw [hpc]; rintro _ ⟨⟩)]
    exact h.move rfl rfl (fun _ => id) (by rintro _ ⟨⟩) (by rintro _ ⟨⟩)
  | switchIn hpc | switchOut hpc | decrement hpc | ready hpc | held hpc =>
    rw [hnone (by rw [hpc]; rintro _ ⟨⟩)]
    refine h.move rfl rfl (fun _ => id) (by rintro _ ⟨⟩) fun job hjob => Or.inl ?_
    rw [hpc]
    exact hjob

theorem step (h : Faithful log s) (hc : Counted s) (hst : s.step tid a = .ok t) :
    Faithful (log ++ s.submits a) t := by
  have hnil : log ++ [] = log := List.append_nil log
  cases a with
  | newFiber | setAutoStop | setStopping | stopCheck =>
    cases hst
    show Faithful (log ++ []) _
    rw [hnil]
    exact ⟨h.issued, h.listed, h.taken, h.jobs⟩
  | schedule fc thread =>
    obtain rfl := Except.ok.inj hst
    exact h.schedule fc thread
  | scheduleRange fcs =>
    obtain rfl := Except.ok.inj hst
    exact h.scheduleRange fcs
  | work w => exact h.work hc (work_of_ok hst)
  | yield w how =>
    obtain ⟨job, hpc, rfl⟩ := yield_of_ok hst
    show Faithful (log ++ []) _
    rw [hnil]
    refine h.move rfl rfl (fun _ => id) (by rintro _ ⟨⟩) ?_
    rintro _ ⟨⟩
    rw [hpc]
    exact Or.inl rfl
  | idleCheck w derived =>
    obtain ⟨-, rfl⟩ := idleCheck_of_ok hst
    show Faithful (log ++ []) _
    rw [hnil]
    exact h.move rfl rfl (fun _ => id) (by rintro _ ⟨⟩) (by rintro _ ⟨⟩)

end Faithful

theorem faithful_of_run {tr : List (Scheduler n × SchedAction n)}
    (hrun : (schedMachine tid).Run tr s) : Faithful (submitted tr) s := by
  induction hrun with
  | @init s h =>
    obtain rfl : s = initial n := h
    exact ⟨rfl, nofun, nofun, nofun⟩
  | @step tr s t a hrun hst ih =>
    have hlog : submitted (tr ++ [(s, a)]) = submitted tr ++ s.submits a := by simp [submitted]
    rw [hlog]
    exact ih.step (counted_of_run hrun) (Machine.ofExcept_step.mp hst)

/-- The fiber that a callback is to run on is given that callback. -/
theorem callback_of_dispatch (h : Faithful log s) {job : Job} {cb : CallbackId}
    (hpc : (s.worker w).pc = .dispatch ft true) (hcb : ft.cb = some cb)
    (hst : s.step tid (.work w) = .ok t) (hjob : (t.worker w).pc = .swapIn job) :
    (t.heap job.fiber).cb = some cb := by
  have hnone := ((h.taken w ft hpc).callback hcb).2
  have hft : ∀ {ft' b}, (s.worker w).pc = .dispatch ft' b → ft' = ft := by
    intro ft' b h
    rw [hpc] at h
    cases h
    rfl
  cases work_of_ok hst with
  | resume hpc' hf =>
    rw [hft hpc', hnone] at hf
    cases hf
  | rearm hpc' _ hcb' _ hreset =>
    rw [worker_setPc_self] at hjob
    cases hjob
    rw [hft hpc', hcb] at hcb'
    obtain rfl := Option.some.inj hcb'
    show (Function.update s.heap _ _ _).cb = _
    rw [Function.update_self]
    exact Fiber.reset_cb hreset
  | make hpc' _ hcb' =>
    rw [worker_setWorker_self] at hjob
    cases hjob
    rw [hft hpc', hcb] at hcb'
    obtain rfl := Option.some.inj hcb'
    show (Function.update s.heap _ _ _).cb = _
    rw [Function.update_self]
    rfl
  | drop _ | noTask _ =>
    rw [worker_setPc_self] at hjob
    cases hjob
  | take h | nothing h | switchIn h | switchOut h | decrement h | ready h | ended h | endedOwn h
  | held h | requeue h | park h | skip h | idleEnd h | idleAgain h | idleEnter h | idleLeave h =>
    rw [hpc] at h
    cases h

end Faithful

/-! ## The counters -/

/-- `m_idleThreadCount` is exact. -/
def IdleCounted (s : Scheduler n) : Prop := s.idleThreadCount = countOf Worker.idles s.worker

@[simp]
theorem idle_scheduleNoLock (fc : Option Task) (thread : Int) :
    (s.scheduleNoLock fc thread).idleThreadCount = s.idleThreadCount := by
  rcases fc with _ | _ | _ <;> rfl

theorem idle_scheduleRange (fcs : List (Option Task)) :
    (s.scheduleRange fcs).idleThreadCount = s.idleThreadCount := by
  induction fcs generalizing s with
  | nil => rfl
  | cons fc fcs ih => rw [scheduleRange_cons, ih, idle_scheduleNoLock]

namespace IdleCounted

theorem move (h : IdleCounted s) {v : Worker} (hworker : t.worker = Function.update s.worker w v)
    (hidle : t.idleThreadCount + (s.worker w).idles.toNat = s.idleThreadCount + v.idles.toNat) :
    IdleCounted t := by
  have hcount := countOf_update Worker.idles s.worker w v
  rw [IdleCounted] at h ⊢
  rw [hworker]
  omega

/-- A worker in its idle fiber makes the counter positive. -/
theorem pos (h : IdleCounted s) (hw : (s.worker w).idles = true) : 0 < s.idleThreadCount := by
  rw [IdleCounted] at h
  rw [h]
  exact countOf_pos hw

theorem work (h : IdleCounted s) (hst : Work (tid w) s w t) : IdleCounted t := by
  cases hst with
  | idleLeave hpc =>
    have hpos := h.pos (w := w) (by simp [Worker.idles, Pc.idles, hpc])
    refine h.move rfl ?_
    simp [Worker.idles, Pc.idles, hpc, setWorker]
    omega
  | take hpc | nothing hpc | resume hpc | rearm hpc | make hpc | drop hpc | noTask hpc
  | switchIn hpc | switchOut hpc | decrement hpc | ready hpc | ended hpc | endedOwn hpc
  | held hpc | requeue hpc | park hpc | skip hpc | idleEnd hpc | idleAgain hpc | idleEnter hpc =>
    refine h.move rfl ?_
    simp [Worker.idles, Pc.idles, hpc, setPc, setWorker, setFiber, newFiber, leave,
      scheduleNoLock]

theorem frame (h : IdleCounted s) (hworker : t.worker = s.worker)
    (hidle : t.idleThreadCount = s.idleThreadCount) : IdleCounted t := by
  rw [IdleCounted, hworker, hidle]
  exact h

theorem step (h : IdleCounted s) (hst : s.step tid a = .ok t) : IdleCounted t := by
  cases a with
  | newFiber | setAutoStop | setStopping | stopCheck =>
    cases hst
    exact h.frame rfl rfl
  | schedule fc thread =>
    obtain rfl := Except.ok.inj hst
    exact h.frame (worker_scheduleNoLock fc thread) (idle_scheduleNoLock fc thread)
  | scheduleRange fcs =>
    obtain rfl := Except.ok.inj hst
    exact h.frame (worker_scheduleRange fcs) (idle_scheduleRange fcs)
  | work w => exact h.work (work_of_ok hst)
  | yield w how =>
    obtain ⟨job, hpc, rfl⟩ := yield_of_ok hst
    refine h.move rfl ?_
    simp [Worker.idles, Pc.idles, hpc, setPc, setWorker, setFiber]
  | idleCheck w derived =>
    obtain ⟨hpc, rfl⟩ := idleCheck_of_ok hst
    refine h.move rfl ?_
    simp [Worker.idles, Pc.idles, hpc, setWorker]

end IdleCounted

theorem idleCounted_of_reachable (hs : (schedMachine tid).Reachable s) : IdleCounted s := by
  refine hs.invariant ?_ fun s a t h hst => h.step (Machine.ofExcept_step.mp hst)
  rintro s rfl
  exact (countOf_eq_zero.mpr fun w => rfl).symm

/-! ## The accounts -/

/-- The step takes the entry out of the list. -/
def Takes (tid : Fin n → Int) (s : Scheduler n) (a : SchedAction n) (w : Fin n)
    (ft : FiberAndThread) : Prop :=
  a = .work w ∧ (s.worker w).pc = .scan ∧
    ∃ t, s.step tid a = .ok t ∧ (t.worker w).pc = .dispatch ft true

/-- A taken entry was in the list and not empty, is pinned to no other thread, and its
fiber is not executing. -/
theorem taken_eligible {ft : FiberAndThread} (h : Takes tid s a w ft) :
    ft ∈ s.fibers ∧ (ft.fiber ≠ none ∨ ft.cb ≠ none) ∧ (ft.thread = -1 ∨ ft.thread = tid w) ∧
      ∀ f, ft.fiber = some f → (s.heap f).state ≠ .EXEC := by
  obtain ⟨rfl, hscan, t, hst, hpc⟩ := h
  have hwork : s.work tid w = .ok t := hst
  rw [work, hscan] at hwork
  obtain ⟨⟨tickleMe, found⟩, hloop, hres⟩ := bind_ok hwork
  cases found with
  | none =>
    obtain rfl := Except.ok.inj hres
    simp at hpc
  | some p =>
    obtain ⟨ft', rest⟩ := p
    obtain rfl := Except.ok.inj hres
    obtain rfl : ft' = ft := by simpa using hpc
    obtain ⟨⟨pre, post, hl, -⟩, hthread, hne, hexec⟩ := scanLoop_found hloop
    exact ⟨by simp [hl], hne, hthread, hexec⟩

/-- The step decrements `m_activeThreadCount`. -/
def Decrements (s : Scheduler n) (a : SchedAction n) : Prop :=
  ∃ w, a = .work w ∧ ((s.worker w).pc = .skip ∨ ∃ job how, (s.worker w).pc = .returned job how)

/-- The step decrements `m_idleThreadCount`. -/
def DecrementsIdle (s : Scheduler n) (a : SchedAction n) : Prop :=
  ∃ w, a = .work w ∧ (s.worker w).pc = .idleLeave

/-- What a worker takes is an entry that was submitted, for its thread or for any, and does not
run a fiber that is executing. -/
theorem taken_submitted {tr : List (Scheduler n × SchedAction n)}
    (hrun : (schedMachine tid).Run tr s) {p : Scheduler n × SchedAction n} (hp : p ∈ tr)
    {ft : FiberAndThread} (h : Takes tid p.1 p.2 w ft) :
    ∃ e, (submitted tr)[ft.ticket]? = some e ∧ ft = entryOf e ft.ticket ∧
      (e.2 = -1 ∨ e.2 = tid w) ∧ ∀ f, e.1 = .fiber f → (p.1.heap f).state ≠ .EXEC := by
  obtain ⟨tr₁, tr₂, rfl, hrun₁, -⟩ := hrun.split hp
  obtain ⟨hmem, -, hthread, hexec⟩ := taken_eligible h
  obtain ⟨e, he, hft⟩ := (faithful_of_run hrun₁).listed ft hmem
  have hlog : submitted (tr₁ ++ p :: tr₂) = submitted tr₁ ++ submitted (p :: tr₂) :=
    List.flatMap_append
  refine ⟨e, by rw [hlog]; exact getElem?_append_some he, hft, ?_, ?_⟩
  · rw [hft] at hthread
    rcases e with ⟨_ | _, _⟩ <;> exact hthread
  · rintro f hf
    refine hexec f ?_
    rw [hft, entryOf, hf]

/-- **The accounts of the scheduler**, in every run.  Both counters are exact, and are
decremented only while positive.  There is a ticket for each task ever scheduled; it is in
the list, with one worker, or finished with, and in one of these only, and there it stands
for the fiber or the callback, and the thread, that `schedule()` was given.  A worker takes
an entry that it may run, and whose fiber is not executing; a callback is what its fiber
gets to run. -/
theorem scheduler_accounts {tr : List (Scheduler n × SchedAction n)}
    (hrun : (schedMachine tid).Run tr s) :
    s.activeThreadCount = countOf Worker.active s.worker ∧
      s.idleThreadCount = countOf Worker.idles s.worker ∧
      (∀ p ∈ tr, (Decrements p.1 p.2 → 0 < p.1.activeThreadCount) ∧
        (DecrementsIdle p.1 p.2 → 0 < p.1.idleThreadCount)) ∧
      (∀ x, s.listed x + s.holders x +
        Machine.tally (fun s a => (s.finishes x a).toNat) tr =
          if x < (submitted tr).length then 1 else 0) ∧
      Faithful (submitted tr) s ∧
      (∀ p ∈ tr, ∀ w ft, Takes tid p.1 p.2 w ft →
        ∃ e, (submitted tr)[ft.ticket]? = some e ∧ ft = entryOf e ft.ticket ∧
          (e.2 = -1 ∨ e.2 = tid w) ∧ ∀ f, e.1 = .fiber f → (p.1.heap f).state ≠ .EXEC) ∧
      ∀ w ft cb job t, (s.worker w).pc = .dispatch ft true → ft.cb = some cb →
        s.step tid (.work w) = .ok t → (t.worker w).pc = .swapIn job →
        (t.heap job.fiber).cb = some cb := by
  have hfaithful := faithful_of_run hrun
  refine ⟨(counted_of_run hrun).active, idleCounted_of_reachable ⟨tr, hrun⟩, ?_, fun x => ?_,
    hfaithful, fun p hp w ft => taken_submitted hrun hp,
    fun w ft cb job t hpc hcb => callback_of_dispatch hfaithful hpc hcb⟩
  · intro p hp
    obtain ⟨tr₁, hrun₁, -, -⟩ := hrun.mem_trace hp
    constructor
    · rintro ⟨w, -, hpc⟩
      refine (counted_of_run hrun₁).pos (w := w) ?_
      rcases hpc with hpc | ⟨job, how, hpc⟩ <;> rw [Worker.active, hpc] <;> rfl
    · rintro ⟨w, -, hpc⟩
      refine (idleCounted_of_reachable ⟨tr₁, hrun₁⟩).pos (w := w) ?_
      rw [Worker.idles, hpc]
      rfl
  · rw [← hfaithful.issued]
    exact ledger_of_run hrun x

/-- A fiber yields `READY` and is put back; a callback pinned to thread 1 waits for its
worker, which is in its idle fiber. -/
theorem scheduler_accounts_requeued :
    ∃ tr s, (schedMachine (threadIds 2)).Run tr s ∧
      submitted tr = [(.fiber 0, -1), (.callback 8, 1), (.fiber 0, -1)] ∧
      s.activeThreadCount = countOf Worker.active s.worker ∧
      s.idleThreadCount = countOf Worker.idles s.worker ∧ s.idleThreadCount = 1 ∧
      (∀ x, s.listed x + s.holders x +
        Machine.tally (fun s a => (s.finishes x a).toNat) tr = if x < 3 then 1 else 0) ∧
      s.fibers.length = 2 ∧ ∀ ft ∈ s.fibers, Stands (submitted tr) ft := by
  obtain ⟨s, hrun, hs⟩ := Machine.Run.of_exec_any (schedMachine_init 2)
    [.work 1, .work 1, .work 1, .work 1, .newFiber 7,
      .scheduleRange [some (.fiber 0), none], .schedule (some (.callback 8)) 1,
      .work 0, .work 0, .work 0, .yield 0 .ready, .work 0, .work 0, .work 0, .work 0]
    (fun s => s.fibers.length == 2 && s.idleThreadCount == 1) (by decide +kernel)
  have hlog : submitted ((schedMachine (threadIds 2)).traceOf (initial 2)
      [.work 1, .work 1, .work 1, .work 1, .newFiber 7,
        .scheduleRange [some (.fiber 0), none], .schedule (some (.callback 8)) 1,
        .work 0, .work 0, .work 0, .yield 0 .ready, .work 0, .work 0, .work 0, .work 0]) =
      [(.fiber 0, -1), (.callback 8, 1), (.fiber 0, -1)] := by decide +kernel
  obtain ⟨hactive, hidle, -, hledger, hfaithful, -⟩ := scheduler_accounts hrun
  obtain ⟨hlen, hone⟩ := Bool.and_eq_true_iff.mp hs
  rw [beq_iff_eq] at hlen hone
  rw [hlog] at hledger
  exact ⟨_, s, hrun, hlog, hactive, hidle, hone, hledger, hlen, hfaithful.listed⟩

end Scheduler
end Sylar
