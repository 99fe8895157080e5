import Sylar.SchedulerStop

/-! # The life of a fiber in `run()`

A worker resumes fibers and callbacks; each resumption finishes, throws, or yields.
What the loop then does depends on the state it finds: the fiber is put back, parked, or
let go, and the fiber that callbacks run on, `cb_fiber`, is kept for the next callback or
given away with its suspended task.

The runs here are those in which every fiber is resumed by one worker only, its `home`
(`lawful`).  The invariant is local: `Tended` says of a worker what its steps may rely
on, and speaks of no fiber of another home, so a step keeps it for the other workers.

**`fiber_lifecycle`**: no assertion of the loop fails; a fiber is started anew only by a
reset after its task ended; and `m_fibers` gets one entry of a fiber, and from `run()` no
other, for each of its yields to `READY`. -/
namespace Sylar
open Interleaving

/-- How far a worker is with the entry it took. -/
inductive Stage
  /-- It has nothing to resume. -/
  | rest
  | taken (job : Job)
  | running (job : Job)
  /-- The fiber gave the worker back. -/
  | back (job : Job) (how : Yield)
  deriving DecidableEq, Repr

namespace Stage

def job : Stage → Option Job
  | rest => none
  | taken job => some job
  | running job => some job
  | back job _ => some job

end Stage

/-- The stage of a worker. -/
def Pc.stage : Pc → Stage
  | .swapIn job => .taken job
  | .running job => .running job
  | .switching job how => .back job how
  | .returned job how => .back job how
  | .settle job how => .back job how
  | .requeue job => .back job .ready
  | .park job => .back job .hold
  | _ => .rest

theorem Yield.state_injective : Function.Injective Yield.state := by
  intro a b h
  cases a <;> cases b <;> first | rfl | cases h

/-- The yields that end the task. -/
def Yield.Ends (how : Yield) : Prop := how = .finish ∨ how = .throw

theorem Yield.ends_of_state {how : Yield} (h : how.state = .TERM ∨ how.state = .EXCEPT) :
    how.Ends :=
  h.imp (fun h => state_injective (h : _ = Yield.finish.state))
    fun h => state_injective (h : _ = Yield.throw.state)

namespace Scheduler
variable {n : Nat} {tid : Fin n → Int} {home : FiberId → Fin n} {s t : Scheduler n}
  {a : SchedAction n} {w : Fin n}

/-! ## Runs with homes -/

/-- The fiber exists, if it is one. -/
def known (next : FiberId) : Option Task → Bool
  | some (.fiber f) => decide (f < next)
  | _ => true

/-- A step as the environment may make it: what is scheduled exists, a fiber is resumed
by its home only, and an empty function throws. -/
def lawful (home : FiberId → Fin n) (s : Scheduler n) : SchedAction n → Bool
  | .schedule fc _ => known s.nextFiber fc
  | .scheduleRange fcs => fcs.all (known s.nextFiber)
  | .work w =>
    match (s.worker w).pc with
    | .swapIn job => home job.fiber == w
    | _ => true
  | .yield w how =>
    match (s.worker w).pc with
    | .running job => (s.heap job.fiber).cb.isSome || how == .throw
    | _ => true
  | _ => true

theorem home_of_lawful {job : Job} (h : lawful home s (.work w) = true)
    (hpc : (s.worker w).pc = .swapIn job) : home job.fiber = w := by
  simpa [lawful, hpc] using h

theorem throws_of_lawful {job : Job} {how : Yield} (h : lawful home s (.yield w how) = true)
    (hpc : (s.worker w).pc = .running job) (hcb : (s.heap job.fiber).cb = none) :
    how = .throw := by
  simpa [lawful, hpc, hcb] using h

/-- The fiber whose code takes the step, and how it yields. -/
def yielded (s : Scheduler n) : SchedAction n → Option (FiberId × Yield)
  | .yield w how =>
    match (s.worker w).pc with
    | .running job => some (job.fiber, how)
    | _ => none
  | _ => none

/-- How the fiber last yielded in the run. -/
def lastYield : List (Scheduler n × SchedAction n) → FiberId → Option Yield
  | [], _ => none
  | (s, a) :: tr, f =>
    (lastYield tr f).or ((s.yielded a).bind fun (g, how) => if g = f then some how else none)

theorem lastYield_snoc (tr : List (Scheduler n × SchedAction n)) (f : FiberId) :
    lastYield (tr ++ [(s, a)]) f =
      ((s.yielded a).bind fun (g, how) => if g = f then some how else none).or
        (lastYield tr f) := by
  induction tr with
  | nil => simp [lastYield]
  | cons p tr ih => rw [List.cons_append, lastYield, ih, lastYield, Option.or_assoc]

/-! ## The invariant -/

/-- The fiber kept in `cb_fiber` between two callbacks. -/
structure Spare (home : FiberId → Fin n) (heap : FiberId → Fiber)
    (last : FiberId → Option Yield) (w : Fin n) (f : FiberId) : Prop where
  home : home f = w
  empty : (heap f).cb = none
  state : (heap f).state = .INIT ∨ (heap f).state = .EXEC ∨ (heap f).state = .EXCEPT
  last : ∃ how : Yield, how.Ends ∧ last f = some how

/-- What a worker has in hand. -/
structure Tended (home : FiberId → Fin n) (heap : FiberId → Fiber) (next : FiberId)
    (last : FiberId → Option Yield) (w : Fin n) (x : Worker) : Prop where
  /-- Of the fibers at home here, the one that it runs is executing, and no other. -/
  exec : ∀ f, home f = w → ((heap f).state = .EXEC ↔
    ∃ job, x.pc.stage = .running job ∧ job.fiber = f)
  running : ∀ job, x.pc.stage = .running job → home job.fiber = w
  back : ∀ job how, x.pc.stage = .back job how →
    home job.fiber = w ∧ (heap job.fiber).state = how.state ∧ last job.fiber = some how
  exists_job : ∀ job, x.pc.stage.job = some job → job.fiber < next
  exists_entry : ∀ ft b f, x.pc = .dispatch ft b → ft.fiber = some f → f < next
  exists_cbFiber : ∀ f, x.cbFiber = some f → f < next
  own : ∀ job, x.pc.stage.job = some job → job.own = true → x.cbFiber = some job.fiber
  spare : ∀ f, x.cbFiber = some f →
    (∀ job, x.pc.stage.job = some job → job.own = false) → Spare home heap last w f
  idle : x.idle = .EXEC → x.pc = .idling

/-- The entries of the list are not empty, and their fibers exist. -/
def Stocked (s : Scheduler n) : Prop :=
  ∀ ft ∈ s.fibers, (ft.fiber ≠ none ∨ ft.cb ≠ none) ∧ ∀ f, ft.fiber = some f → f < s.nextFiber

/-- **The invariant of the runs with homes.** -/
structure Lifecycle (home : FiberId → Fin n) (tr : List (Scheduler n × SchedAction n))
    (s : Scheduler n) : Prop where
  listed : s.Stocked
  tended : ∀ w, Tended home s.heap s.nextFiber (lastYield tr) w (s.worker w)

namespace Tended
variable {heap heap' : FiberId → Fiber} {next next' : FiberId} {last last' : FiberId → Option Yield}
  {x x' : Worker} {job : Job}

theorem not_exec (h : Tended home heap next last w x) (hstage : ∀ job, x.pc.stage ≠ .running job)
    (f : FiberId) (hf : home f = w) : (heap f).state ≠ .EXEC := by
  intro hexec
  obtain ⟨job, hjob, -⟩ := (h.exec f hf).mp hexec
  exact hstage job hjob

/-- Fibers that do not exist yet do not run. -/
theorem fresh (h : Tended home heap next last w x) (f : FiberId) (hf : home f = w)
    (hnext : next ≤ f) : (heap f).state ≠ .EXEC := by
  intro hexec
  obtain ⟨job, hjob, rfl⟩ := (h.exec f hf).mp hexec
  exact Nat.not_lt.mpr hnext (h.exists_job job (by rw [hjob]; rfl))

theorem idle_ne (h : Tended home heap next last w x) (hpc : x.pc ≠ .idling) : x.idle ≠ .EXEC :=
  fun hidle => hpc (h.idle hidle)

/-- What is kept when a worker stays in its stage, and the fibers at home in theirs. -/
theorem congr (h : Tended home heap next last w x) (hstage : x'.pc.stage = x.pc.stage)
    (hcb : x'.cbFiber = x.cbFiber)
    (hentry : ∀ ft b f, x'.pc = .dispatch ft b → ft.fiber = some f → f < next')
    (hidle : x'.idle = .EXEC → x'.pc = .idling) (hnext : next ≤ next')
    (hsame : ∀ f, home f = w → f < next →
      (heap' f).state = (heap f).state ∧ (heap' f).cb = (heap f).cb ∧ last' f = last f)
    (hfresh : ∀ f, home f = w → next ≤ f → (heap' f).state ≠ .EXEC) :
    Tended home heap' next' last' w x' := by
  constructor
  · intro f hf
    rw [hstage]
    by_cases hlt : f < next
    · rw [(hsame f hf hlt).1]
      exact h.exec f hf
    · refine ⟨fun hexec => absurd hexec (hfresh f hf (Nat.le_of_not_lt hlt)), ?_⟩
      rintro ⟨job, hjob, rfl⟩
      exact absurd (h.exists_job job (by rw [hjob]; rfl)) hlt
  · rw [hstage]
    exact h.running
  · intro job how hjob
    rw [hstage] at hjob
    obtain ⟨hhome, hstate, hlast⟩ := h.back job how hjob
    obtain ⟨hs, -, hl⟩ := hsame _ hhome (h.exists_job job (by rw [hjob]; rfl))
    exact ⟨hhome, hs.trans hstate, hl.trans hlast⟩
  · intro job hjob
    rw [hstage] at hjob
    exact Nat.lt_of_lt_of_le (h.exists_job job hjob) hnext
  · exact hentry
  · intro f hf
    exact Nat.lt_of_lt_of_le (h.exists_cbFiber f (hcb ▸ hf)) hnext
  · rw [hstage, hcb]
    exact h.own
  · intro f hf hjob
    rw [hcb] at hf
    rw [hstage] at hjob
    have hspare := h.spare f hf hjob
    obtain ⟨hs, hc, hl⟩ := hsame f hspare.home (h.exists_cbFiber f hf)
    exact ⟨hspare.home, hc.trans hspare.empty, by rw [hs]; exact hspare.state,
      by rw [hl]; exact hspare.last⟩
  · exact hidle

/-- A worker takes up a fiber, or a callback on its `cb_fiber`. -/
theorem take (job : Job) (hstage : x'.pc.stage = .taken job) (hjob : job.fiber < next')
    (hexec : ∀ f, home f = w → (heap' f).state ≠ .EXEC)
    (hcb : ∀ f, x'.cbFiber = some f → f < next')
    (hown : job.own = true → x'.cbFiber = some job.fiber)
    (hspare : job.own = false → ∀ f, x'.cbFiber = some f → Spare home heap' last' w f)
    (hidle : x'.idle ≠ .EXEC) : Tended home heap' next' last' w x' := by
  have hsome : ∀ job', x'.pc.stage.job = some job' → job' = job := by
    intro job' h
    rw [hstage] at h
    exact (Option.some.inj h).symm
  refine ⟨fun f hf => ?_, ?_, ?_, ?_, ?_, hcb, ?_, ?_, fun h => absurd h hidle⟩
  · refine ⟨fun h => absurd h (hexec f hf), ?_⟩
    rintro ⟨job', hrun, -⟩
    rw [hstage] at hrun
    cases hrun
  · intro job' hrun
    rw [hstage] at hrun
    cases hrun
  · intro job' how hback
    rw [hstage] at hback
    cases hback
  · intro job' h
    rw [hsome job' h]
    exact hjob
  · intro ft b f hpc
    rw [hpc] at hstage
    cases hstage
  · intro job' h
    rw [hsome job' h]
    exact hown
  · intro f hf hjob
    exact hspare (hjob job (by rw [hstage]; rfl)) f hf

/-- A worker switches to the fiber it took. -/
theorem switchIn (h : Tended home heap next last w x) {fiber : Fiber}
    (hstage : x.pc.stage = .taken job) (hhome : home job.fiber = w)
    (hin : (heap job.fiber).swapIn = some fiber) (hpc : x'.pc = .running job)
    (hcb : x'.cbFiber = x.cbFiber) (hidle : x'.idle ≠ .EXEC) :
    Tended home (Function.update heap job.fiber fiber) next last w x' := by
  have hstage' : x'.pc.stage = .running job := by rw [hpc]; rfl
  have hjob : x'.pc.stage.job = x.pc.stage.job := by rw [hstage, hstage']; rfl
  refine ⟨fun f hf => ?_, ?_, ?_, ?_, ?_, ?_, ?_, ?_, fun he => absurd he hidle⟩
  · rw [hstage']
    rcases eq_or_ne f job.fiber with rfl | hne
    · rw [Function.update_self, Fiber.swapIn_state hin]
      exact ⟨fun _ => ⟨job, rfl, rfl⟩, fun _ => rfl⟩
    · rw [Function.update_of_ne hne]
      refine ⟨fun he => absurd he (h.not_exec (by rw [hstage]; nofun) f hf), ?_⟩
      rintro ⟨job', hrun, rfl⟩
      cases hrun
      exact absurd rfl hne
  · intro job' hrun
    rw [hstage'] at hrun
    cases hrun
    exact hhome
  · intro job' how hback
    rw [hstage'] at hback
    cases hback
  · rw [hjob]
    exact h.exists_job
  · intro ft b f hd
    rw [hpc] at hd
    cases hd
  · rw [hcb]
    exact h.exists_cbFiber
  · rw [hjob, hcb]
    exact h.own
  · rw [hjob, hcb]
    intro f hf hown
    have hspare := h.spare f hf hown
    rcases eq_or_ne f job.fiber with rfl | hne
    · refine ⟨hspare.home, ?_, ?_, hspare.last⟩
      · rw [Function.update_self, Fiber.swapIn_cb hin]
        exact hspare.empty
      · rw [Function.update_self, Fiber.swapIn_state hin]
        exact Or.inr (Or.inl rfl)
    · refine ⟨hspare.home, ?_, ?_, hspare.last⟩
      · rw [Function.update_of_ne hne]
        exact hspare.empty
      · rw [Function.update_of_ne hne]
        exact hspare.state

/-- A worker is back at the head of its loop. -/
theorem restart (hpc : x'.pc = .scan) (hexec : ∀ f, home f = w → (heap' f).state ≠ .EXEC)
    (hcb : ∀ f, x'.cbFiber = some f → f < next')
    (hspare : ∀ f, x'.cbFiber = some f → Spare home heap' last' w f)
    (hidle : x'.idle ≠ .EXEC) : Tended home heap' next' last' w x' := by
  have hstage : x'.pc.stage = .rest := by rw [hpc]; rfl
  have hnone : x'.pc.stage.job = none := by rw [hstage]; rfl
  refine ⟨fun f hf => ?_, ?_, ?_, ?_, ?_, hcb, ?_, ?_, fun h => absurd h hidle⟩
  · refine ⟨fun h => absurd h (hexec f hf), ?_⟩
    rintro ⟨job', hrun, -⟩
    rw [hstage] at hrun
    cases hrun
  · intro job' hrun
    rw [hstage] at hrun
    cases hrun
  · intro job' how hback
    rw [hstage] at hback
    cases hback
  · intro job' h
    rw [hnone] at h
    cases h
  · intro ft b f h
    rw [hpc] at h
    cases h
  · intro job' h
    rw [hnone] at h
    cases h
  · exact fun f hf _ => hspare f hf

/-- A worker puts its fiber back, or parks it, and gives `cb_fiber` away with it. -/
theorem leave (h : Tended home heap next last w x) {how : Yield}
    (hstage : x.pc.stage = .back job how) (hheap : ∀ f, f ≠ job.fiber → heap' f = heap f)
    (hjob : (heap' job.fiber).state ≠ .EXEC) (hhow : how ≠ .throw) (hidle : x.idle ≠ .EXEC) :
    Tended home heap' next last w
      { x with pc := .scan, cbFiber := if job.own then none else x.cbFiber } := by
  have hcb : ∀ f, (if job.own then none else x.cbFiber) = some f →
      job.own = false ∧ x.cbFiber = some f := by
    intro f hf
    cases hown : job.own with
    | true => simp [hown] at hf
    | false => exact ⟨rfl, by simpa [hown] using hf⟩
  refine .restart rfl ?_ (fun f hf => h.exists_cbFiber f (hcb f hf).2) ?_ hidle
  · intro f hf
    rcases eq_or_ne f job.fiber with rfl | hne
    · exact hjob
    · rw [hheap f hne]
      exact h.not_exec (by rw [hstage]; nofun) f hf
  · intro f hf
    obtain ⟨hown, hf⟩ := hcb f hf
    have hspare : Spare home heap last w f := by
      refine h.spare f hf fun job' hjob' => ?_
      rw [hstage] at hjob'
      cases hjob'
      exact hown
    -- the fiber that came back is suspended, and the spare one is not
    have hne : f ≠ job.fiber := by
      rintro rfl
      have hstate := hspare.state
      rw [(h.back job how hstage).2.1] at hstate
      cases how with
      | throw => exact hhow rfl
      | ready | hold | finish => rcases hstate with h | h | h <;> cases h
    refine ⟨hspare.home, ?_, ?_, hspare.last⟩
    · rw [hheap f hne]
      exact hspare.empty
    · rw [hheap f hne]
      exact hspare.state

/-- The fiber that a worker runs gives the worker back. -/
theorem yield (h : Tended home heap next last w x) {how : Yield}
    (hstage : x.pc.stage = .running job) (hpc : x'.pc = .switching job how)
    (hcb : x'.cbFiber = x.cbFiber) (hidle : x'.idle ≠ .EXEC)
    (hempty : (heap job.fiber).cb = none → how = .throw)
    (hlast : ∀ f, last' f = if job.fiber = f then some how else last f) :
    Tended home (Function.update heap job.fiber ((heap job.fiber).yield how)) next last' w x' := by
  have hstage' : x'.pc.stage = .back job how := by rw [hpc]; rfl
  have hjob : x'.pc.stage.job = x.pc.stage.job := by rw [hstage, hstage']; rfl
  refine ⟨fun f hf => ?_, ?_, ?_, ?_, ?_, ?_, ?_, ?_, fun he => absurd he hidle⟩
  · rw [hstage']
    constructor
    · intro hexec
      rcases eq_or_ne f job.fiber with rfl | hne
      · rw [Function.update_self, Fiber.yield_state] at hexec
        cases how <;> cases hexec
      · rw [Function.update_of_ne hne] at hexec
        obtain ⟨job', hrun, rfl⟩ := (h.exec f hf).mp hexec
        rw [hstage] at hrun
        cases hrun
        exact absurd rfl hne
    · rintro ⟨job', hrun, -⟩
      cases hrun
  · intro job' hrun
    rw [hstage'] at hrun
    cases hrun
  · intro job' how' hback
    rw [hstage'] at hback
    cases hback
    refine ⟨h.running job hstage, ?_, ?_⟩
    · rw [Function.update_self, Fiber.yield_state]
    · rw [hlast, if_pos rfl]
  · rw [hjob]
    exact h.exists_job
  · intro ft b f hd
    rw [hpc] at hd
    cases hd
  · rw [hcb]
    exact h.exists_cbFiber
  · rw [hjob, hcb]
    exact h.own
  · rw [hjob, hcb]
    intro f hf hown
    have hspare := h.spare f hf hown
    rcases eq_or_ne f job.fiber with rfl | hne
    · -- the spare fiber was run: its function is empty
      obtain rfl := hempty hspare.empty
      refine ⟨hspare.home, ?_, ?_, .throw, Or.inr rfl, ?_⟩
      · rw [Function.update_self]
        exact hspare.empty
      · rw [Function.update_self]
        exact Or.inr (Or.inr rfl)
      · rw [hlast, if_pos rfl]
    · refine ⟨hspare.home, ?_, ?_, ?_⟩
      · rw [Function.update_of_ne hne]
        exact hspare.empty
      · rw [Function.update_of_ne hne]
        exact hspare.state
      · rw [hlast, if_neg hne.symm]
        exact hspare.last

end Tended

/-! ## What a step keeps -/

theorem lastYield_quiet (tr : List (Scheduler n × SchedAction n)) (h : s.yielded a = none) :
    lastYield (tr ++ [(s, a)]) = lastYield tr := by
  funext f
  rw [lastYield_snoc, h]
  rfl

theorem Stocked.schedule (h : s.Stocked) {fc : Option Task} (thread : Int)
    (hfc : known s.nextFiber fc = true) : (s.scheduleNoLock fc thread).Stocked := by
  rcases fc with _ | f | cb
  · exact h
  · intro ft hft
    rcases List.mem_append.mp hft with hft | hft
    · exact h ft hft
    · rw [List.mem_singleton.mp hft]
      exact ⟨Or.inl nofun, fun g hg => Option.some.inj hg ▸ of_decide_eq_true hfc⟩
  · intro ft hft
    rcases List.mem_append.mp hft with hft | hft
    · exact h ft hft
    · rw [List.mem_singleton.mp hft]
      exact ⟨Or.inr nofun, nofun⟩

theorem Stocked.scheduleRange (h : s.Stocked) {fcs : List (Option Task)}
    (hfcs : fcs.all (known s.nextFiber) = true) : (s.scheduleRange fcs).Stocked := by
  induction fcs generalizing s with
  | nil => exact h
  | cons fc fcs ih =>
    rw [scheduleRange_cons]
    obtain ⟨hfc, hfcs⟩ := Bool.and_eq_true_iff.mp hfcs
    refine ih (h.schedule (-1) hfc) ?_
    rw [nextFiber_scheduleNoLock]
    exact hfcs

theorem heap_newFiber_of_ne (cb : CallbackId) {f : FiberId} (hf : f ≠ s.nextFiber) :
    (s.newFiber cb).heap f = s.heap f :=
  Function.update_of_ne hf ..

/-- A new fiber does not run. -/
theorem newFiber_not_exec (cb : CallbackId) {f : FiberId} (hf : (s.heap f).state ≠ .EXEC) :
    ((s.newFiber cb).heap f).state ≠ .EXEC := by
  rcases eq_or_ne f s.nextFiber with rfl | hne
  · have hnew : (s.newFiber cb).heap s.nextFiber = Fiber.new cb := Function.update_self ..
    rw [hnew]
    nofun
  · rw [heap_newFiber_of_ne cb hne]
    exact hf

/-- Nor does a fiber that is reset. -/
theorem reset_not_exec {heap : FiberId → Fiber} {f g : FiberId} {cb : Option CallbackId}
    {fiber : Fiber} (hreset : (heap f).reset cb = some fiber) (hg : (heap g).state ≠ .EXEC) :
    (Function.update heap f fiber g).state ≠ .EXEC := by
  rcases eq_or_ne g f with rfl | hne
  · rw [Function.update_self, (Fiber.reset_fresh hreset).2]
    nofun
  · rw [Function.update_of_ne hne]
    exact hg

/-- A switch saves the context and changes nothing else. -/
theorem swapOut_same (heap : FiberId → Fiber) (g f : FiberId) :
    (Function.update heap g (heap g).swapOut f).state = (heap f).state ∧
      (Function.update heap g (heap g).swapOut f).cb = (heap f).cb := by
  rcases eq_or_ne f g with rfl | hne
  · rw [Function.update_self]
    exact ⟨rfl, rfl⟩
  · rw [Function.update_of_ne hne]
    exact ⟨rfl, rfl⟩

namespace Lifecycle
variable {tr tr' : List (Scheduler n × SchedAction n)}

theorem init : Lifecycle home [] (initial n) := by
  refine ⟨nofun, fun w => ?_⟩
  constructor
  · exact fun f _ => ⟨nofun, fun ⟨_, h, _⟩ => nomatch h⟩
  all_goals nofun

/-- A fiber that is not made yet does not run. -/
theorem fresh (h : Lifecycle home tr s) (f : FiberId) (hf : s.nextFiber ≤ f) :
    (s.heap f).state ≠ .EXEC :=
  (h.tended (home f)).fresh f rfl hf

/-- A step of one worker changes fibers of its own home only. -/
theorem move (h : Lifecycle home tr s) {x : Worker}
    (hworker : t.worker = Function.update s.worker w x)
    (hlisted : t.Stocked)
    (hnext : s.nextFiber ≤ t.nextFiber)
    (hheap : ∀ f, home f ≠ w → f < s.nextFiber → t.heap f = s.heap f)
    (hfresh : ∀ f, s.nextFiber ≤ f → (t.heap f).state ≠ .EXEC)
    (hlast : ∀ f, home f ≠ w → lastYield tr' f = lastYield tr f)
    (hx : Tended home t.heap t.nextFiber (lastYield tr') w x) : Lifecycle home tr' t := by
  refine ⟨hlisted, fun v => ?_⟩
  rw [hworker]
  by_cases hvw : v = w
  · subst hvw
    rw [Function.update_self]
    exact hx
  · rw [Function.update_of_ne hvw]
    have hne : ∀ f, home f = v → home f ≠ w := fun f hf hw => hvw (hf.symm.trans hw)
    refine (h.tended v).congr rfl rfl ?_ (h.tended v).idle hnext ?_ ?_
    · intro ft b f hpc hf
      exact Nat.lt_of_lt_of_le ((h.tended v).exists_entry ft b f hpc hf) hnext
    · intro f hf hlt
      rw [hheap f (hne f hf) hlt, hlast f (hne f hf)]
      exact ⟨rfl, rfl, rfl⟩
    · exact fun f _ => hfresh f

/-- A step of one worker that leaves the heap alone. -/
theorem still (h : Lifecycle home tr s) {x : Worker} (ha : s.yielded a = none)
    (hworker : t.worker = Function.update s.worker w x)
    (hlisted : t.Stocked)
    (hnext : t.nextFiber = s.nextFiber) (hheap : t.heap = s.heap)
    (hx : Tended home s.heap s.nextFiber (lastYield tr) w x) :
    Lifecycle home (tr ++ [(s, a)]) t := by
  have hlast := lastYield_quiet tr ha
  refine h.move hworker hlisted (Nat.le_of_eq hnext.symm) (fun f _ _ => by rw [hheap]) ?_
    (fun f _ => by rw [hlast]) (by rw [hlast, hheap, hnext]; exact hx)
  intro f hf
  rw [hheap]
  exact h.fresh f hf

/-- A step of one worker that changes one fiber of its home. -/
theorem write (h : Lifecycle home tr s) {x : Worker} {g : FiberId} {fiber : Fiber}
    (hg : home g = w) (hlt : g < s.nextFiber)
    (hworker : t.worker = Function.update s.worker w x) (hfibers : t.fibers = s.fibers)
    (hnext : t.nextFiber = s.nextFiber) (hheap : t.heap = Function.update s.heap g fiber)
    (hlast : ∀ f, home f ≠ w → lastYield tr' f = lastYield tr f)
    (hx : Tended home (Function.update s.heap g fiber) s.nextFiber (lastYield tr') w x) :
    Lifecycle home tr' t := by
  refine h.move hworker ?_ (Nat.le_of_eq hnext.symm) ?_ ?_ hlast (by rw [hheap, hnext]; exact hx)
  · rw [Stocked, hfibers, hnext]
    exact h.listed
  · intro f hf _
    rw [hheap, Function.update_of_ne]
    rintro rfl
    exact hf hg
  · intro f hf
    rw [hheap, Function.update_of_ne]
    · exact h.fresh f hf
    · rintro rfl
      exact Nat.not_lt.mpr hf hlt

/-- The same, where no fiber yields. -/
theorem rewrite (h : Lifecycle home tr s) {x : Worker} {g : FiberId} {fiber : Fiber}
    (ha : s.yielded a = none) (hg : home g = w) (hlt : g < s.nextFiber)
    (hworker : t.worker = Function.update s.worker w x) (hfibers : t.fibers = s.fibers)
    (hnext : t.nextFiber = s.nextFiber) (hheap : t.heap = Function.update s.heap g fiber)
    (hx : Tended home (Function.update s.heap g fiber) s.nextFiber (lastYield tr) w x) :
    Lifecycle home (tr ++ [(s, a)]) t := by
  have hlast := lastYield_quiet tr ha
  refine h.write hg hlt hworker hfibers hnext hheap (fun f _ => by rw [hlast]) ?_
  rw [hlast]
  exact hx

/-- A step of one worker that stays in its stage and leaves the heap alone. -/
theorem pass (h : Lifecycle home tr s) {x : Worker} (ha : s.yielded a = none)
    (hworker : t.worker = Function.update s.worker w x)
    (hlisted : ∀ ft ∈ t.fibers, ft ∈ s.fibers) (hnext : t.nextFiber = s.nextFiber)
    (hheap : t.heap = s.heap) (hstage : x.pc.stage = (s.worker w).pc.stage)
    (hcb : x.cbFiber = (s.worker w).cbFiber)
    (hentry : ∀ ft b f, x.pc = .dispatch ft b → ft.fiber = some f → f < s.nextFiber)
    (hidle : x.idle = .EXEC → x.pc = .idling) : Lifecycle home (tr ++ [(s, a)]) t := by
  refine h.still ha hworker ?_ hnext hheap
    ((h.tended w).congr hstage hcb hentry hidle (Nat.le_refl _)
      (fun f _ _ => ⟨rfl, rfl, rfl⟩) (h.tended w).fresh)
  intro ft hft
  rw [hnext]
  exact h.listed ft (hlisted ft hft)

/-! ### The steps of `run()` -/

section Steps
variable (h : Lifecycle home tr s)
include h

/-- A worker outside its idle fiber stays outside it. -/
theorem idle_pass {pc x : Pc} (hpc : (s.worker w).pc = x) (hne : x ≠ .idling) :
    (s.worker w).idle = .EXEC → pc = .idling :=
  fun he => absurd he ((h.tended w).idle_ne (by rw [hpc]; exact hne))

/-- A step to another `Pc` of the same stage. -/
theorem onward {pc x : Pc} (hpc : (s.worker w).pc = x) (hne : x ≠ .idling)
    (hworker : t.worker = Function.update s.worker w { s.worker w with pc })
    (hstage : pc.stage = x.stage)
    (hentry : ∀ ft b f, pc = .dispatch ft b → ft.fiber = some f → f < s.nextFiber)
    (hlisted : ∀ ft ∈ t.fibers, ft ∈ s.fibers) (hnext : t.nextFiber = s.nextFiber)
    (hheap : t.heap = s.heap) : Lifecycle home (tr ++ [(s, .work w)]) t :=
  h.pass rfl hworker hlisted hnext hheap (by rw [hpc]; exact hstage) rfl hentry
    (h.idle_pass hpc hne)

theorem take {ft : FiberAndThread} {pre post : List FiberAndThread}
    (hpc : (s.worker w).pc = .scan) (hfibers : s.fibers = pre ++ ft :: post) :
    Lifecycle home (tr ++ [(s, .work w)]) ({ s with
      fibers := pre ++ post, activeThreadCount := s.activeThreadCount + 1 }.setPc w
        (.dispatch ft true)) := by
  refine h.onward hpc nofun rfl rfl ?_ ?_ rfl rfl
  · rintro ft' b f heq hf
    cases heq
    exact (h.listed ft (by rw [hfibers]; simp)).2 f hf
  · intro ft' hft'
    rw [hfibers]
    have : ft' ∈ pre ++ post := hft'
    simp only [List.mem_append, List.mem_cons] at this ⊢
    tauto

theorem resume {ft : FiberAndThread} {b : Bool} {f : FiberId}
    (hpc : (s.worker w).pc = .dispatch ft b) (hf : ft.fiber = some f) :
    Lifecycle home (tr ++ [(s, .work w)]) (s.setPc w (.swapIn ⟨f, false, ft.ticket⟩)) := by
  have hw := h.tended w
  have hstage : (s.worker w).pc.stage = .rest := by rw [hpc]; rfl
  refine h.still rfl rfl h.listed rfl rfl ?_
  refine .take (⟨f, false, ft.ticket⟩) rfl (hw.exists_entry _ _ f hpc hf) ?_ ?_ nofun ?_ ?_
  · exact hw.not_exec (by rw [hstage]; nofun)
  · exact hw.exists_cbFiber
  · exact fun _ f hf => hw.spare f hf (by rw [hstage]; nofun)
  · exact hw.idle_ne (by rw [hpc]; nofun)

/-- The spare fiber is reset for a callback. -/
theorem rearm {ft : FiberAndThread} {b : Bool} {cb : CallbackId} {f : FiberId} {fiber : Fiber}
    (hpc : (s.worker w).pc = .dispatch ft b) (hcb : (s.worker w).cbFiber = some f)
    (hreset : (s.heap f).reset (some cb) = some fiber) :
    Lifecycle home (tr ++ [(s, .work w)])
      ((s.setFiber f fiber).setPc w (.swapIn ⟨f, true, ft.ticket⟩)) := by
  have hw := h.tended w
  have hstage : (s.worker w).pc.stage = .rest := by rw [hpc]; rfl
  have hspare := hw.spare f hcb (by rw [hstage]; nofun)
  have hlt := hw.exists_cbFiber f hcb
  refine h.rewrite rfl hspare.home hlt rfl rfl rfl rfl ?_
  refine .take (⟨f, true, ft.ticket⟩) rfl hlt ?_ hw.exists_cbFiber (fun _ => hcb) nofun ?_
  · exact fun g hg => reset_not_exec hreset (hw.not_exec (by rw [hstage]; nofun) g hg)
  · exact hw.idle_ne (by rw [hpc]; nofun)

/-- A fiber is made for a callback. -/
theorem make {ft : FiberAndThread} {b : Bool} (cb : CallbackId)
    (hpc : (s.worker w).pc = .dispatch ft b) :
    Lifecycle home (tr ++ [(s, .work w)]) ((s.newFiber cb).setWorker w { s.worker w with
      cbFiber := some s.nextFiber, pc := .swapIn ⟨s.nextFiber, true, ft.ticket⟩ }) := by
  have hw := h.tended w
  have hstage : (s.worker w).pc.stage = .rest := by rw [hpc]; rfl
  have hlast := lastYield_quiet (s := s) (a := .work w) tr rfl
  refine h.move rfl ?_ (Nat.le_succ _) ?_ ?_ (fun f _ => by rw [hlast]) ?_
  · exact fun ft hft => ⟨(h.listed ft hft).1, fun f hf =>
      Nat.lt_succ_of_lt ((h.listed ft hft).2 f hf)⟩
  · exact fun f _ hlt => heap_newFiber_of_ne cb (Nat.ne_of_lt hlt)
  · exact fun f hf => newFiber_not_exec cb (h.fresh f hf)
  · refine .take (⟨s.nextFiber, true, ft.ticket⟩) rfl (Nat.lt_succ_self _) ?_ ?_
      (fun _ => rfl) nofun ?_
    · exact fun f hf => newFiber_not_exec cb (hw.not_exec (by rw [hstage]; nofun) f hf)
    · intro f hf
      cases hf
      exact Nat.lt_succ_self _
    · exact hw.idle_ne (by rw [hpc]; nofun)

theorem switchIn {job : Job} {fiber : Fiber} (hlawful : lawful home s (.work w) = true)
    (hpc : (s.worker w).pc = .swapIn job) (hin : (s.heap job.fiber).swapIn = some fiber) :
    Lifecycle home (tr ++ [(s, .work w)])
      ((s.setFiber job.fiber fiber).setPc w (.running job)) := by
  have hw := h.tended w
  have hstage : (s.worker w).pc.stage = .taken job := by rw [hpc]; rfl
  have hhome := home_of_lawful hlawful hpc
  have hlt := hw.exists_job job (by rw [hstage]; rfl)
  refine h.rewrite rfl hhome hlt rfl rfl rfl rfl ?_
  exact hw.switchIn hstage hhome hin rfl rfl (hw.idle_ne (by rw [hpc]; nofun))

theorem switchOut {job : Job} {how : Yield} (hpc : (s.worker w).pc = .switching job how) :
    Lifecycle home (tr ++ [(s, .work w)])
      ((s.setFiber job.fiber (s.heap job.fiber).swapOut).setPc w (.returned job how)) := by
  have hw := h.tended w
  obtain ⟨hhome, -, -⟩ := hw.back job how (by rw [hpc]; rfl)
  have hlt := hw.exists_job job (by rw [hpc]; rfl)
  refine h.rewrite rfl hhome hlt rfl rfl rfl rfl ?_
  have hfiber := swapOut_same s.heap job.fiber
  refine hw.congr (by simp [hpc, Pc.stage]) rfl nofun (h.idle_pass hpc nofun) (Nat.le_refl _) ?_ ?_
  · exact fun f _ _ => ⟨(hfiber f).1, (hfiber f).2, rfl⟩
  · intro f hf hnext
    rw [(hfiber f).1]
    exact hw.fresh f hf hnext

/-- What the branch on the state of a fiber finds is how the fiber yielded. -/
theorem settles {job : Job} {how : Yield} (found : Yield) (hpc : (s.worker w).pc = .settle job how)
    (hstate : (s.heap job.fiber).state = found.state) : how = found := by
  obtain ⟨-, hback, -⟩ := (h.tended w).back job how (by rw [hpc]; rfl)
  exact Yield.state_injective (hback.symm.trans hstate)

theorem held {job : Job} {how : Yield} (hpc : (s.worker w).pc = .settle job how)
    (hready : (s.heap job.fiber).state ≠ .READY) (hterm : (s.heap job.fiber).state ≠ .TERM)
    (hexcept : (s.heap job.fiber).state ≠ .EXCEPT) :
    Lifecycle home (tr ++ [(s, .work w)]) (s.setPc w (.park job)) := by
  obtain ⟨-, hback, -⟩ := (h.tended w).back job how (by rw [hpc]; rfl)
  rw [hback] at hready hterm hexcept
  obtain rfl : how = .hold := by
    cases how with
    | hold => rfl
    | ready => exact absurd rfl hready
    | finish => exact absurd rfl hterm
    | throw => exact absurd rfl hexcept
  exact h.onward hpc nofun rfl rfl nofun (fun _ => id) rfl rfl

theorem ended {job : Job} {how : Yield} (hpc : (s.worker w).pc = .settle job how)
    (hown : job.own = false) : Lifecycle home (tr ++ [(s, .work w)]) (s.setPc w .scan) := by
  have hw := h.tended w
  have hstage : (s.worker w).pc.stage = .back job how := by rw [hpc]; rfl
  refine h.still rfl rfl h.listed rfl rfl ?_
  refine .restart rfl (hw.not_exec (by rw [hstage]; nofun)) hw.exists_cbFiber ?_ ?_
  · intro f hf
    refine hw.spare f hf fun job' hjob => ?_
    rw [hstage] at hjob
    cases hjob
    exact hown
  · exact hw.idle_ne (by rw [hpc]; nofun)

/-- The fiber of a callback that has ended becomes the spare one. -/
theorem endedOwn {job : Job} {how : Yield} {fiber : Fiber}
    (hpc : (s.worker w).pc = .settle job how)
    (hstate : (s.heap job.fiber).state = .TERM ∨ (s.heap job.fiber).state = .EXCEPT)
    (hown : job.own = true) (hreset : (s.heap job.fiber).reset none = some fiber) :
    Lifecycle home (tr ++ [(s, .work w)]) ((s.setFiber job.fiber fiber).setPc w .scan) := by
  have hw := h.tended w
  have hstage : (s.worker w).pc.stage = .back job how := by rw [hpc]; rfl
  obtain ⟨hhome, hback, hlastjob⟩ := hw.back job how hstage
  have hlt := hw.exists_job job (by rw [hstage]; rfl)
  refine h.rewrite rfl hhome hlt rfl rfl rfl rfl ?_
  have hcb := hw.own job (by rw [hstage]; rfl) hown
  refine .restart rfl ?_ hw.exists_cbFiber ?_ ?_
  · exact fun g hg => reset_not_exec hreset (hw.not_exec (by rw [hstage]; nofun) g hg)
  · intro f hf
    obtain rfl : job.fiber = f := Option.some.inj (hcb.symm.trans hf)
    refine ⟨hhome, ?_, ?_, how, Yield.ends_of_state (hback ▸ hstate), hlastjob⟩
    · rw [Function.update_self]
      exact Fiber.reset_cb hreset
    · rw [Function.update_self]
      exact Or.inl (Fiber.reset_fresh hreset).2
  · exact hw.idle_ne (by rw [hpc]; nofun)

theorem requeue {job : Job} (hpc : (s.worker w).pc = .requeue job) :
    Lifecycle home (tr ++ [(s, .work w)])
      ((s.scheduleNoLock (some (.fiber job.fiber)) (-1)).leave w job) := by
  have hw := h.tended w
  have hstage : (s.worker w).pc.stage = .back job .ready := by rw [hpc]; rfl
  obtain ⟨-, hback, -⟩ := hw.back job .ready hstage
  have hlt := hw.exists_job job (by rw [hstage]; rfl)
  refine h.still rfl rfl ?_ rfl rfl (hw.leave hstage (fun f _ => rfl) (by rw [hback]; nofun) nofun
    (hw.idle_ne (by rw [hpc]; nofun)))
  exact h.listed.schedule (-1) (decide_eq_true hlt)

theorem park {job : Job} (hpc : (s.worker w).pc = .park job) :
    Lifecycle home (tr ++ [(s, .work w)])
      ((s.setFiber job.fiber { s.heap job.fiber with state := .HOLD }).leave w job) := by
  have hw := h.tended w
  have hstage : (s.worker w).pc.stage = .back job .hold := by rw [hpc]; rfl
  obtain ⟨hhome, -, -⟩ := hw.back job .hold hstage
  have hlt := hw.exists_job job (by rw [hstage]; rfl)
  refine h.rewrite rfl hhome hlt rfl rfl rfl rfl ?_
  refine hw.leave hstage (fun f hf => Function.update_of_ne hf ..) ?_ nofun
    (hw.idle_ne (by rw [hpc]; nofun))
  rw [Function.update_self]
  nofun

/-- A step of `run()`, one case for each way through it. -/
theorem work (hlawful : lawful home s (.work w) = true) (hst : Work (tid w) s w t) :
    Lifecycle home (tr ++ [(s, .work w)]) t := by
  cases hst with
  | take hpc _ hfibers => exact h.take hpc hfibers
  | nothing hpc =>
    refine h.onward hpc nofun rfl rfl ?_ (fun _ => id) rfl rfl
    rintro ft' b f heq hf
    cases heq
    cases hf
  | drop hpc | noTask hpc | decrement hpc | skip hpc | idleEnd hpc | idleAgain hpc =>
    exact h.onward hpc nofun rfl rfl nofun (fun _ => id) rfl rfl
  | ready hpc hstate =>
    obtain rfl := h.settles .ready hpc hstate
    exact h.onward hpc nofun rfl rfl nofun (fun _ => id) rfl rfl
  | held hpc hready hterm hexcept => exact h.held hpc hready hterm hexcept
  | idleEnter hpc =>
    exact h.pass rfl rfl (fun _ => id) rfl rfl (by simp [hpc, Pc.stage]) rfl nofun fun _ => rfl
  | idleLeave hpc =>
    refine h.pass rfl rfl (fun _ => id) rfl rfl (by simp [hpc, Pc.stage]) rfl nofun fun he => ?_
    unfold idleBack at he
    split at he <;> cases he
  | switchIn hpc hin => exact h.switchIn hlawful hpc hin
  | switchOut hpc => exact h.switchOut hpc
  | resume hpc hf => exact h.resume hpc hf
  | rearm hpc _ _ hcb hreset => exact h.rearm hpc hcb hreset
  | make hpc => exact h.make _ hpc
  | ended hpc _ hown => exact h.ended hpc hown
  | endedOwn hpc hstate hown hreset => exact h.endedOwn hpc hstate hown hreset
  | requeue hpc => exact h.requeue hpc
  | park hpc => exact h.park hpc

end Steps

/-- A step that moves no worker and runs no fiber. -/
theorem quiet (h : Lifecycle home tr s) (hworker : t.worker = s.worker)
    (hlisted : t.Stocked)
    (hnext : s.nextFiber ≤ t.nextFiber) (hheap : ∀ f, f < s.nextFiber → t.heap f = s.heap f)
    (hfresh : ∀ f, s.nextFiber ≤ f → (t.heap f).state ≠ .EXEC) (ha : s.yielded a = none) :
    Lifecycle home (tr ++ [(s, a)]) t := by
  refine ⟨hlisted, fun w => ?_⟩
  rw [hworker, lastYield_quiet tr ha]
  have hw := h.tended w
  refine hw.congr rfl rfl ?_ hw.idle hnext ?_ fun f _ => hfresh f
  · exact fun ft b f hpc hf => Nat.lt_of_lt_of_le (hw.exists_entry ft b f hpc hf) hnext
  · intro f _ hlt
    rw [hheap f hlt]
    exact ⟨rfl, rfl, rfl⟩

theorem step (h : Lifecycle home tr s) (hlawful : lawful home s a = true)
    (hst : s.step tid a = .ok t) : Lifecycle home (tr ++ [(s, a)]) t := by
  cases a with
  | newFiber cb =>
    obtain rfl := Except.ok.inj hst
    refine h.quiet rfl ?_ (Nat.le_succ _) ?_ ?_ rfl
    · exact fun ft hft => ⟨(h.listed ft hft).1, fun f hf =>
        Nat.lt_succ_of_lt ((h.listed ft hft).2 f hf)⟩
    · exact fun f hf => heap_newFiber_of_ne cb (Nat.ne_of_lt hf)
    · exact fun f hf => newFiber_not_exec cb (h.fresh f hf)
  | schedule fc thread =>
    obtain rfl := Except.ok.inj hst
    refine h.quiet (worker_scheduleNoLock fc thread) (h.listed.schedule thread hlawful)
      (Nat.le_of_eq (nextFiber_scheduleNoLock fc thread).symm)
      (fun f _ => by rw [heap_scheduleNoLock]) ?_ rfl
    rw [heap_scheduleNoLock]
    exact h.fresh
  | scheduleRange fcs =>
    obtain rfl := Except.ok.inj hst
    refine h.quiet (worker_scheduleRange fcs) (h.listed.scheduleRange hlawful)
      (Nat.le_of_eq (nextFiber_scheduleRange fcs).symm)
      (fun f _ => by rw [heap_scheduleRange]) ?_ rfl
    rw [heap_scheduleRange]
    exact h.fresh
  | setAutoStop | setStopping | stopCheck =>
    obtain rfl := Except.ok.inj hst
    exact h.quiet rfl h.listed (Nat.le_refl _) (fun _ _ => rfl) h.fresh rfl
  | work w => exact h.work hlawful (work_of_ok hst)
  | yield w how =>
    obtain ⟨job, hpc, rfl⟩ := yield_of_ok hst
    have hw := h.tended w
    have hstage : (s.worker w).pc.stage = .running job := by rw [hpc]; rfl
    have hlast : ∀ f, lastYield (tr ++ [(s, .yield w how)]) f =
        if job.fiber = f then some how else lastYield tr f := by
      intro f
      rw [lastYield_snoc, yielded, hpc, Option.bind_some]
      by_cases hf : job.fiber = f <;> simp [hf]
    have hhome := hw.running job hstage
    refine h.write hhome (hw.exists_job job (by rw [hstage]; rfl)) rfl rfl rfl rfl ?_ ?_
    · intro f hf
      rw [hlast, if_neg]
      rintro rfl
      exact hf hhome
    · exact hw.yield hstage rfl rfl (hw.idle_ne (by rw [hpc]; nofun))
        (throws_of_lawful hlawful hpc) hlast
  | idleCheck w derived =>
    obtain ⟨hpc, rfl⟩ := idleCheck_of_ok hst
    refine h.pass rfl rfl (fun _ => id) rfl rfl (by simp [hpc, Pc.stage]) rfl nofun fun he => ?_
    simp only at he
    split at he <;> cases he

end Lifecycle

theorem lifecycle_of_run {tr : List (Scheduler n × SchedAction n)}
    (hrun : (schedMachine tid).Run tr s) (hlawful : ∀ p ∈ tr, lawful home p.1 p.2 = true) :
    Lifecycle home tr s := by
  induction hrun with
  | init h =>
    cases h
    exact .init
  | @step tr s t a _ hst ih =>
    have hprev := ih fun p hp => hlawful p (List.mem_append_left _ hp)
    exact hprev.step (hlawful (s, a) (by simp)) (Machine.ofExcept_step.mp hst)

/-! ## What the loop may rely on -/

/-- The loop over `m_fibers` completes when no entry is empty. -/
theorem scanLoop_completes (id : Int) (heap : FiberId → Fiber) {l : List FiberAndThread}
    (h : ∀ ft ∈ l, ft.fiber ≠ none ∨ ft.cb ≠ none) : ∃ r, scanLoop id heap l = .ok r := by
  induction l with
  | nil => exact ⟨_, rfl⟩
  | cons it l ih =>
    obtain ⟨r, hr⟩ := ih fun ft hft => h ft (List.mem_cons_of_mem _ hft)
    rw [scanLoop, hr]
    split
    · exact ⟨_, rfl⟩
    · rw [if_neg]
      · split <;> exact ⟨_, rfl⟩
      · rintro ⟨hf, hc⟩
        exact (h it (List.mem_cons_self ..)).elim (fun h => h hf) fun h => h hc

theorem reset_of_state {f : Fiber} (cb : Option CallbackId)
    (h : f.state = .TERM ∨ f.state = .EXCEPT ∨ f.state = .INIT) : ∃ g, f.reset cb = some g :=
  ⟨_, if_pos h⟩

theorem swapIn_of_state {f : Fiber} (h : f.state ≠ .EXEC) : ∃ g, f.swapIn = some g :=
  ⟨_, if_pos h⟩

namespace Lifecycle
variable {tr : List (Scheduler n × SchedAction n)}

/-- The spare fiber of a worker that has nothing in hand can be reset. -/
theorem spare_state (h : Lifecycle home tr s) (hstage : (s.worker w).pc.stage = .rest)
    {f : FiberId} (hf : (s.worker w).cbFiber = some f) :
    (s.heap f).state = .INIT ∨ (s.heap f).state = .EXCEPT := by
  have hspare := (h.tended w).spare f hf (by rw [hstage]; nofun)
  have hexec := (h.tended w).not_exec (by rw [hstage]; nofun) f hspare.home
  exact hspare.state.imp_right fun hs => hs.resolve_left hexec

/-- **No assertion of the loop fails.** -/
theorem no_assertion (h : Lifecycle home tr s) (hlawful : lawful home s (.work w) = true) :
    s.work tid w ≠ .error .assertion := by
  have hw := h.tended w
  have hdispatch : ∀ cb ticket, (s.worker w).pc.stage = .rest →
      s.dispatchCb w cb ticket ≠ .error .assertion := by
    intro cb ticket hstage
    rw [dispatchCb]
    split
    · rename_i f hf
      obtain ⟨g, hg⟩ := reset_of_state (some cb)
        ((h.spare_state hstage hf).elim (fun h => Or.inr (Or.inr h)) fun h => Or.inr (Or.inl h))
      rw [hg]
      rintro ⟨⟩
    · rintro ⟨⟩
  have hrest : ∀ ft b, (s.worker w).pc.stage = .rest →
      s.dispatchRest w ft b ≠ .error .assertion := by
    intro ft b hstage
    rw [dispatchRest]
    split
    · exact hdispatch _ _ hstage
    · rintro ⟨⟩
  rw [Scheduler.work]
  split
  · obtain ⟨⟨b, found⟩, hscan⟩ := scanLoop_completes (tid w) s.heap
      fun ft hft => (h.listed ft hft).1
    rw [scan, hscan]
    cases found <;> rintro ⟨⟩
  · rename_i ft b hpc
    have hstage : (s.worker w).pc.stage = .rest := by rw [hpc]; rfl
    rw [dispatch]
    split
    · split
      · exact hrest ft b hstage
      · rintro ⟨⟩
    · exact hrest ft b hstage
  · rename_i job hpc
    have hstage : (s.worker w).pc.stage = .taken job := by rw [hpc]; rfl
    obtain ⟨g, hg⟩ := swapIn_of_state
      (hw.not_exec (by rw [hstage]; rintro _ ⟨⟩) job.fiber (home_of_lawful hlawful hpc))
    rw [hg]
    rintro ⟨⟩
  · rintro ⟨⟩
  · rintro ⟨⟩
  · rintro ⟨⟩
  · rename_i job how hpc
    -- a fiber that has ended can be reset
    have hend : (s.heap job.fiber).state = .TERM ∨ (s.heap job.fiber).state = .EXCEPT →
        ∃ g, (s.heap job.fiber).reset none = some g :=
      fun hs => reset_of_state none (hs.imp_right Or.inl)
    rw [settle]
    split
    · rintro ⟨⟩
    · rename_i hstate
      obtain ⟨g, hg⟩ := hend (Or.inl hstate)
      rw [hg]
      split <;> rintro ⟨⟩
    · rename_i hstate
      obtain ⟨g, hg⟩ := hend (Or.inr hstate)
      rw [hg]
      split <;> rintro ⟨⟩
    · rintro ⟨⟩
  · rintro ⟨⟩
  · rintro ⟨⟩
  · rintro ⟨⟩
  · rintro ⟨⟩
  · rename_i hpc
    rw [if_pos (hw.idle_ne (by rw [hpc]; rintro ⟨⟩))]
    rintro ⟨⟩
  · rintro ⟨⟩
  · rintro ⟨⟩
  · rintro ⟨⟩

theorem step_completes (h : Lifecycle home tr s) (hlawful : lawful home s a = true) :
    s.step tid a ≠ .error .assertion := by
  cases a with
  | work w => exact h.no_assertion hlawful
  | yield w how =>
    rw [Scheduler.step, Scheduler.yield]
    split <;> rintro ⟨⟩
  | idleCheck w derived =>
    rw [Scheduler.step, idleCheck]
    split <;> rintro ⟨⟩
  | _ => rintro ⟨⟩

end Lifecycle

/-- The step calls `reset()` on the fiber. -/
def Resets (s : Scheduler n) (a : SchedAction n) (f : FiberId) : Prop :=
  ∃ w, a = .work w ∧
    ((∃ ft b cb, (s.worker w).pc = .dispatch ft b ∧ s.Ended ft ∧ ft.cb = some cb ∧
        (s.worker w).cbFiber = some f) ∨
      ∃ job how, (s.worker w).pc = .settle job how ∧ job.own = true ∧ job.fiber = f ∧
        ((s.heap f).state = .TERM ∨ (s.heap f).state = .EXCEPT))

/-- A fiber is reset only after the task that it ran has ended. -/
theorem Lifecycle.resets {tr : List (Scheduler n × SchedAction n)} (h : Lifecycle home tr s)
    {f : FiberId} (hreset : Resets s a f) :
    ((s.heap f).state = .TERM ∨ (s.heap f).state = .EXCEPT ∨ (s.heap f).state = .INIT) ∧
      ∃ how : Yield, how.Ends ∧ lastYield tr f = some how := by
  obtain ⟨w, -, ⟨ft, b, cb, hpc, -, -, hcb⟩ | ⟨job, how, hpc, -, rfl, hstate⟩⟩ := hreset
  · have hstage : (s.worker w).pc.stage = .rest := by rw [hpc]; rfl
    have hspare := (h.tended w).spare f hcb (by rw [hstage]; nofun)
    refine ⟨?_, hspare.last⟩
    exact (h.spare_state hstage hcb).elim (fun h => Or.inr (Or.inr h)) fun h => Or.inr (Or.inl h)
  · obtain ⟨-, hback, hlast⟩ := (h.tended w).back job how (by rw [hpc]; rfl)
    exact ⟨hstate.imp_right Or.inl, how, Yield.ends_of_state (hback ▸ hstate), hlast⟩

/-- The fiber is started anew: it is back in `INIT`, or has a function it did not have. -/
def Restarts (s t : Scheduler n) (f : FiberId) : Prop :=
  ((t.heap f).state = .INIT ∧ (s.heap f).state ≠ .INIT) ∨
    ∃ cb, (t.heap f).cb = some cb ∧ (s.heap f).cb ≠ some cb

theorem not_restarts {f : FiberId}
    (hstate : (t.heap f).state ≠ .INIT ∨ (t.heap f).state = (s.heap f).state)
    (hcb : (t.heap f).cb = none ∨ (t.heap f).cb = (s.heap f).cb) : ¬ Restarts s t f := by
  rintro (⟨hinit, hne⟩ | ⟨cb, hsome, hne⟩)
  · rcases hstate with h | h
    · exact h hinit
    · exact hne (h ▸ hinit)
  · rcases hcb with h | h
    · rw [h] at hsome
      cases hsome
    · exact hne (h ▸ hsome)

theorem not_restarts_of_heap {f : FiberId} (h : t.heap f = s.heap f) : ¬ Restarts s t f :=
  not_restarts (Or.inr (by rw [h])) (Or.inr (by rw [h]))

/-- The same, where one fiber is written. -/
theorem not_restarts_setFiber {f g : FiberId} {fiber : Fiber}
    (hheap : t.heap = Function.update s.heap g fiber)
    (hstate : fiber.state ≠ .INIT ∨ fiber.state = (s.heap g).state)
    (hcb : fiber.cb = none ∨ fiber.cb = (s.heap g).cb) : ¬ Restarts s t f := by
  rcases eq_or_ne f g with rfl | hne
  · exact not_restarts (by rwa [hheap, Function.update_self]) (by rwa [hheap, Function.update_self])
  · exact not_restarts_of_heap (by rw [hheap, Function.update_of_ne hne])

/-- A step of `run()` starts a fiber anew by `reset()` only. -/
theorem Work.restarts (hst : Work (tid w) s w t) {f : FiberId} (hlt : f < s.nextFiber)
    (h : Restarts s t f) : Resets s (.work w) f := by
  cases hst with
  | take | nothing | resume | drop | noTask | decrement | ready | ended | held | requeue | skip
  | idleEnd | idleAgain | idleEnter | idleLeave => exact absurd h (not_restarts_of_heap rfl)
  | make => exact absurd h (not_restarts_of_heap (heap_newFiber_of_ne _ (Nat.ne_of_lt hlt)))
  | switchIn _ hin =>
    refine absurd h (not_restarts_setFiber rfl (Or.inl ?_) (Or.inr (Fiber.swapIn_cb hin)))
    rw [Fiber.swapIn_state hin]
    nofun
  | switchOut => exact absurd h (not_restarts_setFiber rfl (Or.inr rfl) (Or.inr rfl))
  | park => exact absurd h (not_restarts_setFiber rfl (Or.inl nofun) (Or.inr rfl))
  | @rearm ft b cb g fiber hpc hended hcb hcbFiber hreset =>
    rcases eq_or_ne f g with rfl | hne
    · exact ⟨w, rfl, Or.inl ⟨ft, b, cb, hpc, hended, hcb, hcbFiber⟩⟩
    · exact absurd h (not_restarts_of_heap (Function.update_of_ne hne ..))
  | @endedOwn job how fiber hpc hstate hown =>
    rcases eq_or_ne f job.fiber with rfl | hne
    · exact ⟨w, rfl, Or.inr ⟨job, how, hpc, hown, rfl, hstate⟩⟩
    · exact absurd h (not_restarts_of_heap (Function.update_of_ne hne ..))

/-- Nothing else starts a fiber anew. -/
theorem resets_of_restarts (hst : s.step tid a = .ok t) {f : FiberId} (hlt : f < s.nextFiber)
    (h : Restarts s t f) : Resets s a f := by
  cases a with
  | newFiber cb =>
    obtain rfl := Except.ok.inj hst
    exact absurd h (not_restarts_of_heap (heap_newFiber_of_ne cb (Nat.ne_of_lt hlt)))
  | schedule fc thread =>
    obtain rfl := Except.ok.inj hst
    exact absurd h (not_restarts_of_heap (by rw [heap_scheduleNoLock]))
  | scheduleRange fcs =>
    obtain rfl := Except.ok.inj hst
    exact absurd h (not_restarts_of_heap (by rw [heap_scheduleRange]))
  | setAutoStop | setStopping | stopCheck =>
    obtain rfl := Except.ok.inj hst
    exact absurd h (not_restarts_of_heap rfl)
  | work w => exact Work.restarts (work_of_ok hst) hlt h
  | yield w how =>
    obtain ⟨job, -, rfl⟩ := yield_of_ok hst
    refine absurd h (not_restarts_setFiber rfl (Or.inl ?_) ?_)
    · rw [Fiber.yield_state]
      cases how <;> nofun
    · cases how with
      | finish => exact Or.inl rfl
      | ready | hold | throw => exact Or.inr rfl
  | idleCheck w derived =>
    obtain ⟨-, rfl⟩ := idleCheck_of_ok hst
    exact absurd h (not_restarts_of_heap rfl)

/-! ## Yields and entries -/

/-- The step is a yield of the fiber to `READY`. -/
def readies (f : FiberId) (s : Scheduler n) (a : SchedAction n) : Nat :=
  if s.yielded a = some (f, .ready) then 1 else 0

/-- The entries that a step of `run()` appends to `m_fibers`. -/
def requeued (tid : Fin n → Int) (s : Scheduler n) : SchedAction n → List FiberAndThread
  | .work w =>
    match s.work tid w with
    | .ok t => t.fibers.drop s.fibers.length
    | .error _ => []
  | _ => []

/-- How many of them are of the fiber. -/
def requeues (tid : Fin n → Int) (f : FiberId) (s : Scheduler n) (a : SchedAction n) : Nat :=
  (s.requeued tid a).countP fun ft => ft.fiber == some f

/-- What `schedule( fiber )` appends for the fiber that a worker puts back. -/
def Pc.entries (ticket : Nat) : Pc → List FiberAndThread
  | .requeue job => [⟨some job.fiber, none, -1, ticket⟩]
  | _ => []

/-- A step of `run()` appends the entry of the fiber that it puts back, and no other. -/
theorem requeued_work (hst : s.work tid w = .ok t) :
    s.requeued tid (.work w) = Pc.entries s.nextTicket (s.worker w).pc := by
  rw [requeued, hst]
  cases work_of_ok hst with
  | take hpc _ hfibers =>
    rw [hpc]
    refine List.drop_eq_nil_of_le ?_
    simp [hfibers, setPc, setWorker]
  | requeue hpc =>
    rw [hpc]
    exact List.drop_left
  | nothing hpc | resume hpc | rearm hpc | make hpc | drop hpc | noTask hpc | switchIn hpc
  | switchOut hpc | decrement hpc | ready hpc | ended hpc | endedOwn hpc | held hpc | park hpc
  | skip hpc | idleEnd hpc | idleAgain hpc | idleEnter hpc | idleLeave hpc =>
    rw [hpc]
    exact List.drop_length

/-- What a step puts back is the fiber of a worker that is about to do so. -/
theorem requeue_of_mem {ft : FiberAndThread} (h : ft ∈ s.requeued tid a) :
    ∃ w job, (s.worker w).pc = .requeue job ∧ ft = ⟨some job.fiber, none, -1, s.nextTicket⟩ := by
  cases a with
  | work w =>
    cases hst : s.work tid w with
    | error e =>
      rw [requeued, hst] at h
      cases h
    | ok t =>
      rw [requeued_work hst] at h
      cases hpc : (s.worker w).pc with
      | requeue job =>
        rw [hpc] at h
        exact ⟨w, job, hpc, List.mem_singleton.mp h⟩
      | _ =>
        rw [hpc] at h
        cases h
  | _ => cases h

/-- The worker has yet to put back the fiber, which yielded `READY`. -/
def awaits (f : FiberId) (x : Worker) : Nat :=
  match x.pc.stage with
  | .back job .ready => if job.fiber = f then 1 else 0
  | _ => 0

/-- A step of `run()` puts a fiber back exactly when the worker awaits that. -/
theorem Lifecycle.answers {tr : List (Scheduler n × SchedAction n)} (h : Lifecycle home tr s)
    (hst : s.work tid w = .ok t) (f : FiberId) :
    ∃ x, t.worker = Function.update s.worker w x ∧
      awaits f x + requeues tid f s (.work w) = awaits f (s.worker w) := by
  have hw := h.tended w
  rw [requeues, requeued_work hst]
  cases work_of_ok hst with
  | take hpc | nothing hpc | resume hpc | rearm hpc | make hpc | drop hpc | noTask hpc
  | switchIn hpc | switchOut hpc | decrement hpc | park hpc | skip hpc
  | idleEnd hpc | idleAgain hpc | idleEnter hpc | idleLeave hpc =>
    exact ⟨_, rfl, by simp [Scheduler.awaits, Pc.entries, hpc, Pc.stage]⟩
  | requeue hpc =>
    refine ⟨_, rfl, ?_⟩
    rw [hpc, Pc.entries, List.countP_singleton]
    simp [Scheduler.awaits, hpc, Pc.stage]
  | ready hpc hstate =>
    obtain rfl := h.settles .ready hpc hstate
    exact ⟨_, rfl, by simp [Scheduler.awaits, Pc.entries, hpc, Pc.stage]⟩
  | @ended job how hpc hstate | @endedOwn job how _ hpc hstate =>
    obtain ⟨-, hback, -⟩ := hw.back job how (by rw [hpc]; rfl)
    rw [hback] at hstate
    have hends := Yield.ends_of_state hstate
    refine ⟨_, rfl, ?_⟩
    rcases hends with rfl | rfl <;> simp [Scheduler.awaits, Pc.entries, hpc, Pc.stage]
  | @held job how hpc hready =>
    obtain ⟨-, hback, -⟩ := hw.back job how (by rw [hpc]; rfl)
    rw [hback] at hready
    refine ⟨_, rfl, ?_⟩
    cases how with
    | ready => exact absurd rfl hready
    | hold | finish | throw => simp [Scheduler.awaits, Pc.entries, hpc, Pc.stage]

/-- **The balance of a step**: a fiber is put back for each yield to `READY`. -/
theorem Lifecycle.balance {tr : List (Scheduler n × SchedAction n)} (h : Lifecycle home tr s)
    (hst : s.step tid a = .ok t) (f : FiberId) :
    awaits f (t.worker (home f)) + requeues tid f s a =
      awaits f (s.worker (home f)) + readies f s a := by
  cases a with
  | newFiber | setAutoStop | setStopping | stopCheck =>
    cases hst
    rfl
  | schedule fc thread =>
    obtain rfl := Except.ok.inj hst
    rw [worker_scheduleNoLock]
    rfl
  | scheduleRange fcs =>
    obtain rfl := Except.ok.inj hst
    rw [worker_scheduleRange]
    rfl
  | work w =>
    obtain ⟨x, hworker, hx⟩ := h.answers hst f
    rw [hworker]
    have hready : readies f s (.work w) = 0 := rfl
    by_cases hf : home f = w
    · rw [hf, Function.update_self]
      omega
    · rw [Function.update_of_ne hf]
      -- the fiber is not at home here, so it is not put back
      have hzero : awaits f (s.worker w) = 0 := by
        rw [awaits]
        split
        · rename_i job hstage
          rw [if_neg]
          rintro rfl
          exact hf ((h.tended w).back job .ready hstage).1
        · rfl
      omega
  | yield w how =>
    obtain ⟨job, hpc, rfl⟩ := yield_of_ok hst
    have hhome := (h.tended w).running job (by rw [hpc]; rfl)
    by_cases hf : home f = w
    · rw [hf, worker_setPc_self]
      cases how <;> simp [awaits, requeues, requeued, readies, yielded, hpc, Pc.stage]
    · rw [worker_setPc_of_ne hf]
      have hne : job.fiber ≠ f := by
        rintro rfl
        exact hf hhome
      simp [requeues, requeued, readies, yielded, hpc, hne, setFiber]
  | idleCheck w derived =>
    obtain ⟨hpc, rfl⟩ := idleCheck_of_ok hst
    by_cases hf : home f = w
    · rw [hf, worker_setWorker_self]
      simp [awaits, requeues, requeued, readies, yielded, hpc, Pc.stage]
    · rw [worker_setWorker_of_ne hf]
      rfl

/-- **The life of a fiber.**  In every run in which each fiber is resumed by its home
only: no step that a worker may take fails an assertion; a fiber is started anew by
`reset()` only, and reset only after its task has ended, by its end or by an exception;
`m_fibers` got from `run()` one entry of a fiber for each of its yields to `READY`, except
the one that its worker is about to act on; and `run()` appends no entry but that of a
fiber that has just yielded `READY`. -/
theorem fiber_lifecycle (home : FiberId → Fin n) {tr : List (Scheduler n × SchedAction n)}
    (hrun : (schedMachine tid).Run tr s) (hlawful : ∀ p ∈ tr, lawful home p.1 p.2 = true) :
    (∀ a, lawful home s a = true → s.step tid a ≠ .error .assertion) ∧
      (∀ a f, Resets s a f →
        ((s.heap f).state = .TERM ∨ (s.heap f).state = .EXCEPT ∨ (s.heap f).state = .INIT) ∧
          ∃ how : Yield, how.Ends ∧ lastYield tr f = some how) ∧
      (∀ a t f, s.step tid a = .ok t → f < s.nextFiber → Restarts s t f → Resets s a f) ∧
      (∀ f, awaits f (s.worker (home f)) + Machine.tally (requeues tid f) tr =
        Machine.tally (readies f) tr) ∧
      ∀ a, ∀ ft ∈ s.requeued tid a,
        ∃ f, ft = ⟨some f, none, -1, s.nextTicket⟩ ∧ lastYield tr f = some .ready := by
  have h := lifecycle_of_run hrun hlawful
  refine ⟨fun a ha => h.step_completes ha, fun a f => h.resets,
    fun a t f hst hlt => resets_of_restarts hst hlt, fun f => ?_, ?_⟩
  · refine hrun.balance (fun s => awaits f (s.worker (home f))) (readies f) (requeues tid f)
      (fun s a => lawful home s a = true) ?_ ?_ hlawful
    · rintro s rfl
      rfl
    · intro tr s a t hrun hok _ hst
      exact (lifecycle_of_run hrun hok).balance (Machine.ofExcept_step.mp hst) f
  · intro a ft hft
    obtain ⟨w, job, hpc, rfl⟩ := requeue_of_mem hft
    exact ⟨job.fiber, rfl, ((h.tended w).back job .ready (by rw [hpc]; rfl)).2.2⟩

/-- A callback yields `READY`, and its fiber is put back, once; the next finishes on a fiber
of its own, which the third one is about to reset. -/
theorem fiber_lifecycle_reused :
    ∃ tr s, (schedMachine (threadIds 1)).Run tr s ∧ Resets s (.work 0) 1 ∧
      s.step (threadIds 1) (.work 0) ≠ .error .assertion ∧
      (∃ how : Yield, how.Ends ∧ lastYield tr 1 = some how) ∧
      Machine.tally (requeues (threadIds 1) 0) tr = 1 ∧ ⟨some 0, none, -1, 3⟩ ∈ s.fibers := by
  obtain ⟨s, hrun, hs⟩ := Machine.Run.of_exec_any (schedMachine_init 1)
    [.schedule (some (.callback 7)) (-1), .schedule (some (.callback 8)) (-1),
      .schedule (some (.callback 9)) (-1),
      .work 0, .work 0, .work 0, .yield 0 .ready, .work 0, .work 0, .work 0, .work 0,
      .work 0, .work 0, .work 0, .yield 0 .finish, .work 0, .work 0, .work 0, .work 0]
    (fun s => (s.worker 0).pc == .dispatch ⟨none, some 9, -1, 2⟩ true &&
      (s.worker 0).cbFiber == some 1 && s.fibers.contains ⟨some 0, none, -1, 3⟩)
    (by decide +kernel)
  obtain ⟨hs, hlist⟩ := Bool.and_eq_true_iff.mp hs
  obtain ⟨hpc, hcb⟩ := Bool.and_eq_true_iff.mp hs
  rw [beq_iff_eq] at hpc hcb
  have hreset : Resets s (.work 0) 1 := ⟨0, rfl, Or.inl ⟨_, _, 9, hpc, nofun, rfl, hcb⟩⟩
  obtain ⟨hassert, hresets, -, hbalance, -⟩ :=
    fiber_lifecycle (fun _ => 0) hrun (by decide +kernel)
  refine ⟨_, s, hrun, hreset, hassert _ (by simp [lawful, hpc]), (hresets _ _ hreset).2, ?_,
    List.contains_iff_mem.mp hlist⟩
  have hone := hbalance 0
  have hidle : awaits 0 (s.worker 0) = 0 := by simp [awaits, hpc, Pc.stage]
  rw [hidle, Nat.zero_add] at hone
  exact hone.trans (by decide +kernel)

end Scheduler
end Sylar
