import Sylar.Fiber
import Sylar.Interleaving

/-! # The scheduler

`n` workers share a list of entries (`fibers`), each a fiber or a callback, perhaps
pinned to a thread.  The loop of `run()` is cut into steps at every access to what the
workers share: a section under `m_mutex`, an update of an atomic counter, a read or a
write of a fiber's state, a context switch.  `Pc` says at which of them a worker is.

A task in a worker's hands is a `Job`: the fiber that runs it, whether that fiber is
the worker's own `cb_fiber`, and the ticket of the entry it came from.  Tickets are not
in the source; they tell apart entries that are otherwise equal.

What the code of a fiber does is left to the environment: it yields in any way
(`yield`), and whatever it schedules is a step of its own (`schedule`).  So is the part
of `idle` that a derived class adds: it may schedule, and it may refuse to stop
(`derived`).  `tickle()` is virtual and only logs in this class, so it is no step. -/
namespace Sylar
open Interleaving

/-- An entry of `m_fibers`. -/
structure FiberAndThread where
  fiber : Option FiberId
  cb : Option CallbackId
  thread : Int
  ticket : Nat
  deriving DecidableEq, Repr

/-- The entry after `reset()`. -/
def FiberAndThread.none : FiberAndThread :=
  { fiber := .none, cb := .none, thread := -1, ticket := 0 }

/-- A task in a worker's hands. -/
structure Job where
  fiber : FiberId
  own : Bool
  ticket : Nat
  deriving DecidableEq, Repr

/-- The next step of a worker. -/
inductive Pc
  /-- The section under `m_mutex` that looks for an entry. -/
  | scan
  /-- The branch on the entry; `isActive` when one was taken. -/
  | dispatch (ft : FiberAndThread) (isActive : Bool)
  /-- `swapIn()`. -/
  | swapIn (job : Job)
  /-- The fiber runs. -/
  | running (job : Job)
  /-- Its state is written, its context not yet saved. -/
  | switching (job : Job) (how : Yield)
  /-- `--m_activeThreadCount`. -/
  | returned (job : Job) (how : Yield)
  /-- The branch on the state of the fiber. -/
  | settle (job : Job) (how : Yield)
  /-- `schedule( fiber )` after a yield to `READY`. -/
  | requeue (job : Job)
  /-- `m_state = HOLD`. -/
  | park (job : Job)
  /-- `--m_activeThreadCount` for an entry with nothing to run. -/
  | skip
  /-- The test whether the idle fiber has ended. -/
  | idleTest
  /-- `++m_idleThreadCount`, and the switch to the idle fiber. -/
  | idleEnter
  /-- The idle fiber is at its test of `stopping()`. -/
  | idling
  /-- `--m_idleThreadCount`. -/
  | idleLeave
  | exited
  deriving DecidableEq, Repr

/-- A worker: where it is, the state of its idle fiber, and `cb_fiber`. -/
structure Worker where
  pc : Pc
  idle : FiberState
  cbFiber : Option FiberId
  deriving DecidableEq, Repr

/-- The shared state, the fibers, and the workers. -/
structure Scheduler (n : Nat) where
  fibers : List FiberAndThread
  activeThreadCount : Nat
  idleThreadCount : Nat
  autoStop : Bool
  stopping : Bool
  heap : FiberId → Fiber
  nextFiber : FiberId
  nextTicket : Nat
  worker : Fin n → Worker

/-- Why a step is not made. -/
inductive Halt
  | notEnabled
  | assertion
  deriving DecidableEq, Repr

namespace Scheduler
variable {n : Nat}

def setWorker (s : Scheduler n) (w : Fin n) (v : Worker) : Scheduler n :=
  { s with worker := Function.update s.worker w v }

def setPc (s : Scheduler n) (w : Fin n) (pc : Pc) : Scheduler n :=
  s.setWorker w { s.worker w with pc }

def setFiber (s : Scheduler n) (f : FiberId) (v : Fiber) : Scheduler n :=
  { s with heap := Function.update s.heap f v }

/-- `new Fiber( cb )`. -/
def newFiber (s : Scheduler n) (cb : CallbackId) : Scheduler n :=
  { s.setFiber s.nextFiber (Fiber.new cb) with nextFiber := s.nextFiber + 1 }

/-- `scheduleNoLock( fc, thread )`; `none` is a null pointer or an empty function. -/
def scheduleNoLock (s : Scheduler n) (fc : Option Task) (thread : Int) : Scheduler n :=
  match fc with
  | none => s
  | some (.fiber f) =>
    { s with
      fibers := s.fibers ++ [{ fiber := some f, cb := none, thread, ticket := s.nextTicket }]
      nextTicket := s.nextTicket + 1 }
  | some (.callback cb) =>
    { s with
      fibers := s.fibers ++ [{ fiber := none, cb := some cb, thread, ticket := s.nextTicket }]
      nextTicket := s.nextTicket + 1 }

/-- The range form of `schedule`. -/
def scheduleRange (s : Scheduler n) (fcs : List (Option Task)) : Scheduler n :=
  fcs.foldl (fun s fc => s.scheduleNoLock fc (-1)) s

/-- `stopping()`. -/
def isStopping (s : Scheduler n) : Bool :=
  s.autoStop && s.stopping && s.fibers.isEmpty && s.activeThreadCount == 0

/-- The loop over `m_fibers` for a worker of thread `tid`: `tickle_me`, and the entry
that is taken with the list it leaves. -/
def scanLoop (tid : Int) (heap : FiberId → Fiber) :
    List FiberAndThread → Except Halt (Bool × Option (FiberAndThread × List FiberAndThread))
  | [] => .ok (false, none)
  | it :: rest =>
    if it.thread ≠ -1 ∧ it.thread ≠ tid then do
      let (_, found) ← scanLoop tid heap rest
      .ok (true, found.map fun (ft, l) => (ft, it :: l))
    else if it.fiber = none ∧ it.cb = none then .error .assertion
    else if it.fiber.map (fun f => (heap f).state) = some .EXEC then do
      let (tickleMe, found) ← scanLoop tid heap rest
      .ok (tickleMe, found.map fun (ft, l) => (ft, it :: l))
    else .ok (false, some (it, rest))

/-- The section of `run()` that takes an entry. -/
def scan (s : Scheduler n) (tid : Int) (w : Fin n) : Except Halt (Scheduler n) := do
  let (_, found) ← scanLoop tid s.heap s.fibers
  match found with
  | some (ft, rest) =>
    .ok ({ s with fibers := rest, activeThreadCount := s.activeThreadCount + 1 }.setPc w
      (.dispatch ft true))
  | none => .ok (s.setPc w (.dispatch .none false))

/-- The branch on a callback: `cb_fiber` is reset, or made. -/
def dispatchCb (s : Scheduler n) (w : Fin n) (cb : CallbackId) (ticket : Nat) :
    Except Halt (Scheduler n) :=
  match (s.worker w).cbFiber with
  | some f =>
    match (s.heap f).reset (some cb) with
    | some fiber => .ok ((s.setFiber f fiber).setPc w (.swapIn ⟨f, true, ticket⟩))
    | none => .error .assertion
  | none =>
    .ok ((s.newFiber cb).setWorker w
      { s.worker w with cbFiber := some s.nextFiber, pc := .swapIn ⟨s.nextFiber, true, ticket⟩ })

/-- The branch on a callback, or on nothing to run. -/
def dispatchRest (s : Scheduler n) (w : Fin n) (ft : FiberAndThread) (isActive : Bool) :
    Except Halt (Scheduler n) :=
  match ft.cb with
  | some cb => s.dispatchCb w cb ft.ticket
  | none => .ok (s.setPc w (if isActive then .skip else .idleTest))

/-- The branch on the entry. -/
def dispatch (s : Scheduler n) (w : Fin n) (ft : FiberAndThread) (isActive : Bool) :
    Except Halt (Scheduler n) :=
  match ft.fiber with
  | some f =>
    if (s.heap f).state = .TERM ∨ (s.heap f).state = .EXCEPT then s.dispatchRest w ft isActive
    else .ok (s.setPc w (.swapIn ⟨f, false, ft.ticket⟩))
  | none => s.dispatchRest w ft isActive

/-- `cb_fiber.reset()`, if the job is on it, and the next round. -/
def leave (s : Scheduler n) (w : Fin n) (job : Job) : Scheduler n :=
  s.setWorker w
    { s.worker w with
      pc := .scan
      cbFiber := if job.own then none else (s.worker w).cbFiber }

/-- The branch on the state of a fiber that came back. -/
def settle (s : Scheduler n) (w : Fin n) (job : Job) : Except Halt (Scheduler n) :=
  match (s.heap job.fiber).state with
  | .READY => .ok (s.setPc w (.requeue job))
  | .TERM | .EXCEPT =>
    if job.own then
      match (s.heap job.fiber).reset none with
      | some fiber => .ok ((s.setFiber job.fiber fiber).setPc w .scan)
      | none => .error .assertion
    else .ok (s.setPc w .scan)
  | _ => .ok (s.setPc w (.park job))

/-- The state of the idle fiber after it came back. -/
def idleBack : FiberState → FiberState
  | .TERM => .TERM
  | .EXCEPT => .EXCEPT
  | _ => .HOLD

/-- The next step of `run()`. -/
def work (tid : Fin n → Int) (s : Scheduler n) (w : Fin n) : Except Halt (Scheduler n) :=
  match (s.worker w).pc with
  | .scan => s.scan (tid w) w
  | .dispatch ft isActive => s.dispatch w ft isActive
  | .swapIn job =>
    match (s.heap job.fiber).swapIn with
    | some fiber => .ok ((s.setFiber job.fiber fiber).setPc w (.running job))
    | none => .error .assertion
  | .running _ => .error .notEnabled
  | .switching job how =>
    .ok ((s.setFiber job.fiber (s.heap job.fiber).swapOut).setPc w (.returned job how))
  | .returned job how =>
    .ok ({ s with activeThreadCount := s.activeThreadCount - 1 }.setPc w (.settle job how))
  | .settle job _ => s.settle w job
  | .requeue job => .ok ((s.scheduleNoLock (some (.fiber job.fiber)) (-1)).leave w job)
  | .park job =>
    .ok ((s.setFiber job.fiber { s.heap job.fiber with state := .HOLD }).leave w job)
  | .skip => .ok ({ s with activeThreadCount := s.activeThreadCount - 1 }.setPc w .scan)
  | .idleTest => .ok (s.setPc w (if (s.worker w).idle = .TERM then .exited else .idleEnter))
  | .idleEnter =>
    if (s.worker w).idle ≠ .EXEC then
      .ok ({ s with idleThreadCount := s.idleThreadCount + 1 }.setWorker w
        { s.worker w with idle := .EXEC, pc := .idling })
    else .error .assertion
  | .idling => .error .notEnabled
  | .idleLeave =>
    .ok ({ s with idleThreadCount := s.idleThreadCount - 1 }.setWorker w
      { s.worker w with pc := .scan, idle := idleBack (s.worker w).idle })
  | .exited => .error .notEnabled

/-- The code of the running fiber gives up the worker. -/
def yield (s : Scheduler n) (w : Fin n) (how : Yield) : Except Halt (Scheduler n) :=
  match (s.worker w).pc with
  | .running job =>
    .ok ((s.setFiber job.fiber ((s.heap job.fiber).yield how)).setPc w (.switching job how))
  | _ => .error .notEnabled

/-- The idle fiber tests `stopping()`, which a derived class may hold back: it ends, or
gives up the worker. -/
def idleCheck (s : Scheduler n) (w : Fin n) (derived : Bool) : Except Halt (Scheduler n) :=
  match (s.worker w).pc with
  | .idling =>
    .ok (s.setWorker w
      { s.worker w with
        idle := if s.isStopping && derived then .TERM else .HOLD
        pc := .idleLeave })
  | _ => .error .notEnabled

end Scheduler

/-- The steps of the workers, and of any thread that uses the scheduler. -/
inductive SchedAction (n : Nat)
  /-- A fiber is made. -/
  | newFiber (cb : CallbackId)
  | schedule (fc : Option Task) (thread : Int)
  | scheduleRange (fcs : List (Option Task))
  /-- `stop()` sets `m_autoStop`. -/
  | setAutoStop
  /-- `start()` and `stop()` set `m_stopping`. -/
  | setStopping (value : Bool)
  /-- `stop()` tests `stopping()`. -/
  | stopCheck
  | work (w : Fin n)
  | yield (w : Fin n) (how : Yield)
  | idleCheck (w : Fin n) (derived : Bool)
  deriving DecidableEq

namespace Scheduler
variable {n : Nat}

def step (tid : Fin n → Int) (s : Scheduler n) : SchedAction n → Except Halt (Scheduler n)
  | .newFiber cb => .ok (s.newFiber cb)
  | .schedule fc thread => .ok (s.scheduleNoLock fc thread)
  | .scheduleRange fcs => .ok (s.scheduleRange fcs)
  | .setAutoStop => .ok { s with autoStop := true }
  | .setStopping value => .ok { s with stopping := value }
  | .stopCheck => .ok s
  | .work w => s.work tid w
  | .yield w how => s.yield w how
  | .idleCheck w derived => s.idleCheck w derived

/-- The state before any worker has entered `run()`. -/
def initial (n : Nat) : Scheduler n :=
  { fibers := []
    activeThreadCount := 0
    idleThreadCount := 0
    autoStop := false
    stopping := true
    heap := fun _ => { state := .INIT, cb := none, saved := true }
    nextFiber := 0
    nextTicket := 0
    worker := fun _ => { pc := .scan, idle := .INIT, cbFiber := none } }

end Scheduler

/-- The scheduler with `n` workers, worker `w` on the thread with id `tid w`. -/
def schedMachine {n : Nat} (tid : Fin n → Int) : Machine (Scheduler n) (SchedAction n) :=
  Machine.ofExcept (fun s => s = Scheduler.initial n) (Scheduler.step tid)

/-! ## Updates -/

namespace Scheduler
variable {n : Nat} {s : Scheduler n} {w v : Fin n}

@[simp]
theorem worker_setWorker_self (x : Worker) : (s.setWorker w x).worker w = x :=
  Function.update_self ..

theorem worker_setWorker_of_ne (h : v ≠ w) (x : Worker) :
    (s.setWorker w x).worker v = s.worker v :=
  Function.update_of_ne h ..

@[simp]
theorem worker_setPc_self (pc : Pc) : (s.setPc w pc).worker w = { s.worker w with pc } :=
  Function.update_self ..

theorem worker_setPc_of_ne (h : v ≠ w) (pc : Pc) : (s.setPc w pc).worker v = s.worker v :=
  Function.update_of_ne h ..

@[simp]
theorem active_setWorker (x : Worker) :
    (s.setWorker w x).activeThreadCount = s.activeThreadCount := rfl

@[simp]
theorem active_setPc (pc : Pc) : (s.setPc w pc).activeThreadCount = s.activeThreadCount := rfl

@[simp]
theorem active_setFiber (f : FiberId) (x : Fiber) :
    (s.setFiber f x).activeThreadCount = s.activeThreadCount := rfl

@[simp]
theorem active_newFiber (cb : CallbackId) :
    (s.newFiber cb).activeThreadCount = s.activeThreadCount := rfl

@[simp]
theorem active_leave (job : Job) : (s.leave w job).activeThreadCount = s.activeThreadCount := rfl

@[simp]
theorem worker_scheduleNoLock (fc : Option Task) (thread : Int) :
    (s.scheduleNoLock fc thread).worker = s.worker := by
  rcases fc with _ | _ | _ <;> rfl

@[simp]
theorem active_scheduleNoLock (fc : Option Task) (thread : Int) :
    (s.scheduleNoLock fc thread).activeThreadCount = s.activeThreadCount := by
  rcases fc with _ | _ | _ <;> rfl

@[simp]
theorem heap_scheduleNoLock (fc : Option Task) (thread : Int) :
    (s.scheduleNoLock fc thread).heap = s.heap := by
  rcases fc with _ | _ | _ <;> rfl

@[simp]
theorem nextFiber_scheduleNoLock (fc : Option Task) (thread : Int) :
    (s.scheduleNoLock fc thread).nextFiber = s.nextFiber := by
  rcases fc with _ | _ | _ <;> rfl

theorem scheduleRange_cons (fc : Option Task) (fcs : List (Option Task)) :
    s.scheduleRange (fc :: fcs) = (s.scheduleNoLock fc (-1)).scheduleRange fcs := rfl

@[simp]
theorem worker_scheduleRange (fcs : List (Option Task)) :
    (s.scheduleRange fcs).worker = s.worker := by
  induction fcs generalizing s with
  | nil => rfl
  | cons fc fcs ih => rw [scheduleRange_cons, ih, worker_scheduleNoLock]

@[simp]
theorem active_scheduleRange (fcs : List (Option Task)) :
    (s.scheduleRange fcs).activeThreadCount = s.activeThreadCount := by
  induction fcs generalizing s with
  | nil => rfl
  | cons fc fcs ih => rw [scheduleRange_cons, ih, active_scheduleNoLock]

@[simp]
theorem heap_scheduleRange (fcs : List (Option Task)) :
    (s.scheduleRange fcs).heap = s.heap := by
  induction fcs generalizing s with
  | nil => rfl
  | cons fc fcs ih => rw [scheduleRange_cons, ih, heap_scheduleNoLock]

@[simp]
theorem nextFiber_scheduleRange (fcs : List (Option Task)) :
    (s.scheduleRange fcs).nextFiber = s.nextFiber := by
  induction fcs generalizing s with
  | nil => rfl
  | cons fc fcs ih => rw [scheduleRange_cons, ih, nextFiber_scheduleNoLock]

/-- **What a scan takes**: an entry of the list, which leaves the others in their order;
it may be taken by this worker, it is not empty, and its fiber is not executing. -/
theorem scanLoop_found {tid : Int} {heap : FiberId → Fiber} {l rest : List FiberAndThread}
    {tickleMe : Bool} {ft : FiberAndThread}
    (h : scanLoop tid heap l = .ok (tickleMe, some (ft, rest))) :
    (∃ pre post, l = pre ++ ft :: post ∧ rest = pre ++ post) ∧
      (ft.thread = -1 ∨ ft.thread = tid) ∧ (ft.fiber ≠ none ∨ ft.cb ≠ none) ∧
      ∀ f, ft.fiber = some f → (heap f).state ≠ .EXEC := by
  induction l generalizing rest tickleMe with
  | nil => cases h
  | cons it l ih =>
    -- an entry that is passed over stays in front of what the rest of the loop leaves
    have hpass : ∀ {found : Option (FiberAndThread × List FiberAndThread)} {b : Bool},
        scanLoop tid heap l = .ok (b, found) →
        (found.map fun (ft, l) => (ft, it :: l)) = some (ft, rest) →
        (∃ pre post, it :: l = pre ++ ft :: post ∧ rest = pre ++ post) ∧
          (ft.thread = -1 ∨ ft.thread = tid) ∧ (ft.fiber ≠ none ∨ ft.cb ≠ none) ∧
          ∀ f, ft.fiber = some f → (heap f).state ≠ .EXEC := by
      intro found b hrec hmap
      obtain ⟨⟨ft', rest'⟩, rfl, heq⟩ := Option.map_eq_some_iff.mp hmap
      cases heq
      obtain ⟨⟨pre, post, rfl, rfl⟩, hft⟩ := ih hrec
      exact ⟨⟨it :: pre, post, rfl, rfl⟩, hft⟩
    rw [scanLoop] at h
    split at h
    · obtain ⟨⟨b, found⟩, hrec, hres⟩ := bind_ok h
      have hres := Except.ok.inj hres
      exact hpass hrec (Prod.mk.inj hres).2
    · rename_i hthread
      split at h
      · cases h
      · rename_i hempty
        split at h
        · obtain ⟨⟨b, found⟩, hrec, hres⟩ := bind_ok h
          have hres := Except.ok.inj hres
          exact hpass hrec (Prod.mk.inj hres).2
        · rename_i hexec
          cases h
          refine ⟨⟨[], l, rfl, rfl⟩, ?_, ?_, ?_⟩
          · by_contra hne
            exact hthread (not_or.mp hne)
          · by_contra hne
            obtain ⟨hf, hc⟩ := not_or.mp hne
            exact hempty ⟨not_not.mp hf, not_not.mp hc⟩
          · intro f hf hstate
            exact hexec (by rw [hf, Option.map_some, hstate])

/-- Nothing in the entry can be resumed: it has no fiber, or one that has ended. -/
def Ended (s : Scheduler n) (ft : FiberAndThread) : Prop :=
  ∀ f, ft.fiber = some f → (s.heap f).state = .TERM ∨ (s.heap f).state = .EXCEPT

/-- **What a step of `run()` can be**, one constructor for each way through it. -/
inductive Work (tid : Int) (s : Scheduler n) (w : Fin n) : Scheduler n → Prop
  | take {ft : FiberAndThread} {pre post : List FiberAndThread} {tickleMe : Bool} :
      (s.worker w).pc = .scan →
      scanLoop tid s.heap s.fibers = .ok (tickleMe, some (ft, pre ++ post)) →
      s.fibers = pre ++ ft :: post →
      (ft.thread = -1 ∨ ft.thread = tid) → (ft.fiber ≠ none ∨ ft.cb ≠ none) →
      (∀ f, ft.fiber = some f → (s.heap f).state ≠ .EXEC) →
      Work tid s w ({ s with
        fibers := pre ++ post, activeThreadCount := s.activeThreadCount + 1 }.setPc w
          (.dispatch ft true))
  | nothing : (s.worker w).pc = .scan → Work tid s w (s.setPc w (.dispatch .none false))
  | resume {ft : FiberAndThread} {isActive : Bool} {f : FiberId} :
      (s.worker w).pc = .dispatch ft isActive → ft.fiber = some f →
      (s.heap f).state ≠ .TERM → (s.heap f).state ≠ .EXCEPT →
      Work tid s w (s.setPc w (.swapIn ⟨f, false, ft.ticket⟩))
  | rearm {ft : FiberAndThread} {isActive : Bool} {cb : CallbackId} {f : FiberId} {fiber : Fiber} :
      (s.worker w).pc = .dispatch ft isActive → s.Ended ft → ft.cb = some cb →
      (s.worker w).cbFiber = some f → (s.heap f).reset (some cb) = some fiber →
      Work tid s w ((s.setFiber f fiber).setPc w (.swapIn ⟨f, true, ft.ticket⟩))
  | make {ft : FiberAndThread} {isActive : Bool} {cb : CallbackId} :
      (s.worker w).pc = .dispatch ft isActive → s.Ended ft → ft.cb = some cb →
      (s.worker w).cbFiber = none →
      Work tid s w ((s.newFiber cb).setWorker w { s.worker w with
        cbFiber := some s.nextFiber, pc := .swapIn ⟨s.nextFiber, true, ft.ticket⟩ })
  | drop {ft : FiberAndThread} :
      (s.worker w).pc = .dispatch ft true → s.Ended ft → ft.cb = none →
      Work tid s w (s.setPc w .skip)
  | noTask {ft : FiberAndThread} :
      (s.worker w).pc = .dispatch ft false → s.Ended ft → ft.cb = none →
      Work tid s w (s.setPc w .idleTest)
  | switchIn {job : Job} {fiber : Fiber} :
      (s.worker w).pc = .swapIn job → (s.heap job.fiber).swapIn = some fiber →
      Work tid s w ((s.setFiber job.fiber fiber).setPc w (.running job))
  | switchOut {job : Job} {how : Yield} :
      (s.worker w).pc = .switching job how →
      Work tid s w ((s.setFiber job.fiber (s.heap job.fiber).swapOut).setPc w (.returned job how))
  | decrement {job : Job} {how : Yield} :
      (s.worker w).pc = .returned job how →
      Work tid s w ({ s with activeThreadCount := s.activeThreadCount - 1 }.setPc w
        (.settle job how))
  | ready {job : Job} {how : Yield} :
      (s.worker w).pc = .settle job how → (s.heap job.fiber).state = .READY →
      Work tid s w (s.setPc w (.requeue job))
  | ended {job : Job} {how : Yield} :
      (s.worker w).pc = .settle job how →
      ((s.heap job.fiber).state = .TERM ∨ (s.heap job.fiber).state = .EXCEPT) → job.own = false →
      Work tid s w (s.setPc w .scan)
  | endedOwn {job : Job} {how : Yield} {fiber : Fiber} :
      (s.worker w).pc = .settle job how →
      ((s.heap job.fiber).state = .TERM ∨ (s.heap job.fiber).state = .EXCEPT) → job.own = true →
      (s.heap job.fiber).reset none = some fiber →
      Work tid s w ((s.setFiber job.fiber fiber).setPc w .scan)
  | held {job : Job} {how : Yield} :
      (s.worker w).pc = .settle job how → (s.heap job.fiber).state ≠ .READY →
      (s.heap job.fiber).state ≠ .TERM → (s.heap job.fiber).state ≠ .EXCEPT →
      Work tid s w (s.setPc w (.park job))
  | requeue {job : Job} :
      (s.worker w).pc = .requeue job →
      Work tid s w ((s.scheduleNoLock (some (.fiber job.fiber)) (-1)).leave w job)
  | park {job : Job} :
      (s.worker w).pc = .park job →
      Work tid s w ((s.setFiber job.fiber { s.heap job.fiber with state := .HOLD }).leave w job)
  | skip : (s.worker w).pc = .skip →
      Work tid s w ({ s with activeThreadCount := s.activeThreadCount - 1 }.setPc w .scan)
  | idleEnd : (s.worker w).pc = .idleTest → (s.worker w).idle = .TERM →
      Work tid s w (s.setPc w .exited)
  | idleAgain : (s.worker w).pc = .idleTest → (s.worker w).idle ≠ .TERM →
      Work tid s w (s.setPc w .idleEnter)
  | idleEnter : (s.worker w).pc = .idleEnter → (s.worker w).idle ≠ .EXEC →
      Work tid s w ({ s with idleThreadCount := s.idleThreadCount + 1 }.setWorker w
        { s.worker w with idle := .EXEC, pc := .idling })
  | idleLeave : (s.worker w).pc = .idleLeave →
      Work tid s w ({ s with idleThreadCount := s.idleThreadCount - 1 }.setWorker w
        { s.worker w with pc := .scan, idle := idleBack (s.worker w).idle })

section Inversion
variable {tid : Fin n → Int} {t : Scheduler n}

theorem work_scan (hpc : (s.worker w).pc = .scan) (h : s.scan (tid w) w = .ok t) :
    Work (tid w) s w t := by
  obtain ⟨⟨tickleMe, found⟩, hloop, hres⟩ := bind_ok h
  cases found with
  | none =>
    obtain rfl := Except.ok.inj hres
    exact .nothing hpc
  | some p =>
    obtain ⟨ft, rest⟩ := p
    obtain rfl := Except.ok.inj hres
    obtain ⟨⟨pre, post, hl, rfl⟩, hthread, hne, hexec⟩ := scanLoop_found hloop
    exact .take hpc hloop hl hthread hne hexec

theorem work_dispatchRest {ft : FiberAndThread} {isActive : Bool}
    (hpc : (s.worker w).pc = .dispatch ft isActive) (hended : s.Ended ft)
    (h : s.dispatchRest w ft isActive = .ok t) : Work (tid w) s w t := by
  rw [dispatchRest] at h
  split at h
  · rename_i cb hcb
    rw [dispatchCb] at h
    split at h
    · rename_i f hf
      split at h
      · rename_i fiber hreset
        obtain rfl := Except.ok.inj h
        exact .rearm hpc hended hcb hf hreset
      · cases h
    · rename_i hnone
      obtain rfl := Except.ok.inj h
      exact .make hpc hended hcb hnone
  · rename_i hcb
    obtain rfl := Except.ok.inj h
    cases isActive with
    | false => exact .noTask hpc hended hcb
    | true => exact .drop hpc hended hcb

theorem work_dispatch {ft : FiberAndThread} {isActive : Bool}
    (hpc : (s.worker w).pc = .dispatch ft isActive) (h : s.dispatch w ft isActive = .ok t) :
    Work (tid w) s w t := by
  rw [dispatch] at h
  split at h
  · rename_i f hf
    split at h
    · rename_i hended
      refine work_dispatchRest hpc ?_ h
      intro f' hf'
      rw [hf] at hf'
      obtain rfl := Option.some.inj hf'
      exact hended
    · rename_i hlive
      obtain rfl := Except.ok.inj h
      exact .resume hpc hf (fun hs => hlive (Or.inl hs)) (fun hs => hlive (Or.inr hs))
  · rename_i hf
    refine work_dispatchRest hpc ?_ h
    intro f' hf'
    rw [hf] at hf'
    cases hf'

theorem work_settle {job : Job} {how : Yield} (hpc : (s.worker w).pc = .settle job how)
    (h : s.settle w job = .ok t) : Work (tid w) s w t := by
  -- the branch for a fiber that has ended, in either of its two states
  have hend : ((s.heap job.fiber).state = .TERM ∨ (s.heap job.fiber).state = .EXCEPT) →
      (if job.own then
        match (s.heap job.fiber).reset none with
        | some fiber => Except.ok ((s.setFiber job.fiber fiber).setPc w .scan)
        | none => Except.error Halt.assertion
      else Except.ok (s.setPc w .scan)) = Except.ok t → Work (tid w) s w t := by
    intro hstate h
    split at h
    · rename_i hown
      split at h
      · rename_i fiber hreset
        obtain rfl := Except.ok.inj h
        exact .endedOwn hpc hstate hown hreset
      · cases h
    · rename_i hown
      obtain rfl := Except.ok.inj h
      exact .ended hpc hstate (by simpa using hown)
  rw [settle] at h
  split at h
  · rename_i hstate
    obtain rfl := Except.ok.inj h
    exact .ready hpc hstate
  · rename_i hstate
    exact hend (Or.inl hstate) h
  · rename_i hstate
    exact hend (Or.inr hstate) h
  · rename_i hready hterm hexcept
    obtain rfl := Except.ok.inj h
    exact .held hpc hready hterm hexcept

/-- **The inversion of a step of `run()`.** -/
theorem work_of_ok (h : s.work tid w = .ok t) : Work (tid w) s w t := by
  rw [work] at h
  split at h
  · rename_i hpc
    exact work_scan hpc h
  · rename_i ft isActive hpc
    exact work_dispatch hpc h
  · rename_i job hpc
    split at h
    · rename_i fiber hin
      obtain rfl := Except.ok.inj h
      exact .switchIn hpc hin
    · cases h
  · cases h
  · rename_i job how hpc
    obtain rfl := Except.ok.inj h
    exact .switchOut hpc
  · rename_i job how hpc
    obtain rfl := Except.ok.inj h
    exact .decrement hpc
  · rename_i job how hpc
    exact work_settle hpc h
  · rename_i job hpc
    obtain rfl := Except.ok.inj h
    exact .requeue hpc
  · rename_i job hpc
    obtain rfl := Except.ok.inj h
    exact .park hpc
  · rename_i hpc
    obtain rfl := Except.ok.inj h
    exact .skip hpc
  · rename_i hpc
    obtain rfl := Except.ok.inj h
    split
    · rename_i hterm
      exact .idleEnd hpc hterm
    · rename_i hterm
      exact .idleAgain hpc hterm
  · rename_i hpc
    split at h
    · rename_i hexec
      obtain rfl := Except.ok.inj h
      exact .idleEnter hpc hexec
    · cases h
  · cases h
  · rename_i hpc
    obtain rfl := Except.ok.inj h
    exact .idleLeave hpc
  · cases h

theorem yield_of_ok {how : Yield} (h : s.yield w how = .ok t) :
    ∃ job, (s.worker w).pc = .running job ∧
      t = (s.setFiber job.fiber ((s.heap job.fiber).yield how)).setPc w (.switching job how) := by
  rw [yield] at h
  split at h
  · rename_i job hpc
    obtain rfl := Except.ok.inj h
    exact ⟨job, hpc, rfl⟩
  · cases h

theorem idleCheck_of_ok {derived : Bool} (h : s.idleCheck w derived = .ok t) :
    (s.worker w).pc = .idling ∧
      t = s.setWorker w { s.worker w with
        idle := if s.isStopping && derived then .TERM else .HOLD
        pc := .idleLeave } := by
  rw [idleCheck] at h
  split at h
  · rename_i hpc
    obtain rfl := Except.ok.inj h
    exact ⟨hpc, rfl⟩
  · cases h

end Inversion
end Scheduler
end Sylar
