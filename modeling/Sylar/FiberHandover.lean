import Sylar.SchedulerStop
import Sylar.IOManager

/-! # Handing a fiber over

A fiber that waits for an event registers itself (`addEvent` without a callback) and
yields `HOLD`.  The event may be triggered at any time from then on, which schedules
the fiber, and a worker may take it up while the one that ran it is still on its way
out: the state is written, the context not yet saved, and `run()` will still write
`HOLD` once more.

`handoverMachine` is the scheduler's machine with the fibers that wait in event slots.
Fibers enter it by being scheduled once when they are made (`launch`); one that has
registered suspends before it does anything else (`armed`).

`Life` is what a single fiber goes through: with which worker it is and in which
phase, whether it is scheduled or waits in a slot (`token`), and whether it is the
`cb_fiber` of a worker (`priv`).  `Life.Good` says what fits together, and the invariant
that every fiber shows a good life (`Inv`) is kept by every step that does not take up a
fiber which another worker is handing over.  **`swapIn_after_save`** is the result. -/
namespace Sylar
open Interleaving
open Scheduler (threadIds)

/-- An event of an fd. -/
abbrev EventSlot := Nat × IOEvent

/-- The scheduler, the fibers registered in event slots, and which fibers have
registered and not yet suspended. -/
structure Handover (n : Nat) where
  sched : Scheduler n
  waiting : List (EventSlot × FiberId)
  armed : FiberId → Bool

inductive HandoverAction (n : Nat)
  /-- A step of the scheduler that schedules no fiber. -/
  | base (a : SchedAction n)
  /-- A fiber is made and scheduled. -/
  | launch (cb : CallbackId) (thread : Int)
  /-- The fiber that runs on `w` calls `addEvent` without a callback. -/
  | addEvent (w : Fin n) (slot : EventSlot)
  /-- `triggerEvent` schedules what waits in a slot. -/
  | trigger (slot : EventSlot)

/-- The fiber in a slot, and the other slots. -/
def takeSlot (slot : EventSlot) :
    List (EventSlot × FiberId) → Option (FiberId × List (EventSlot × FiberId))
  | [] => none
  | p :: rest =>
    if p.1 = slot then some (p.2, rest)
    else (takeSlot slot rest).map fun (f, l) => (f, p :: l)

/-- Something to schedule that is a fiber. -/
def isFiber : Option Task → Bool
  | some (.fiber _) => true
  | _ => false

namespace Handover
variable {n : Nat}

/-- What the scheduler's steps may do here: no fiber is scheduled from outside, and a
fiber that has registered yields `HOLD`. -/
def allowed (s : Handover n) : SchedAction n → Bool
  | .newFiber _ => false
  | .schedule fc _ => !isFiber fc
  | .scheduleRange fcs => fcs.all fun fc => !isFiber fc
  | .yield w how =>
    match (s.sched.worker w).pc with
    | .running job => !s.armed job.fiber || how == .hold
    | _ => true
  | _ => true

/-- A fiber that yields has suspended. -/
def disarm (s : Handover n) : SchedAction n → FiberId → Bool
  | .yield w _ =>
    match (s.sched.worker w).pc with
    | .running job => Function.update s.armed job.fiber false
    | _ => s.armed
  | _ => s.armed

def step (tid : Fin n → Int) (s : Handover n) :
    HandoverAction n → Except Halt (Handover n)
  | .base a =>
    if s.allowed a then do
      let sched ← s.sched.step tid a
      .ok { s with sched, armed := s.disarm a }
    else .error .notEnabled
  | .launch cb thread =>
    .ok { s with
      sched := (s.sched.newFiber cb).scheduleNoLock (some (.fiber s.sched.nextFiber)) thread }
  | .addEvent w slot =>
    match (s.sched.worker w).pc with
    | .running job =>
      if (s.sched.heap job.fiber).state ≠ .EXEC then .error .assertion
      else if s.armed job.fiber || (s.waiting.map Prod.fst).contains slot then .error .notEnabled
      else
        .ok { s with
          waiting := (slot, job.fiber) :: s.waiting
          armed := Function.update s.armed job.fiber true }
    | _ => .error .notEnabled
  | .trigger slot =>
    match takeSlot slot s.waiting with
    | some (f, waiting) =>
      .ok { s with sched := s.sched.scheduleNoLock (some (.fiber f)) (-1), waiting }
    | none => .error .notEnabled

end Handover

/-- Fibers that register for events and suspend, on `n` workers. -/
def handoverMachine {n : Nat} (tid : Fin n → Int) : Machine (Handover n) (HandoverAction n) :=
  Machine.ofExcept
    (fun s => s = { sched := .initial n, waiting := [], armed := fun _ => false })
    (Handover.step tid)

theorem handoverMachine_init (n : Nat) :
    (handoverMachine (threadIds n)).init
      { sched := .initial n, waiting := [], armed := fun _ => false } := rfl

/-! ## The life of one fiber -/

/-- What a worker is doing with a fiber. -/
inductive Phase
  | idle
  /-- Taken up, before `swapIn()`. -/
  | held (own : Bool)
  | running (own : Bool)
  | switching (own : Bool) (how : Yield)
  /-- The context is saved; the worker is at the decrement or at the branch on the
  state. -/
  | back (own : Bool) (how : Yield)
  | requeue (own : Bool)
  | park (own : Bool)
  deriving DecidableEq, Repr

/-- What a worker at `pc` is doing with the fiber `f`. -/
def Pc.phase (f : FiberId) : Pc → Phase
  | .dispatch ft _ => if ft.fiber = some f then .held false else .idle
  | .swapIn job => if job.fiber = f then .held job.own else .idle
  | .running job => if job.fiber = f then .running job.own else .idle
  | .switching job how => if job.fiber = f then .switching job.own how else .idle
  | .returned job how => if job.fiber = f then .back job.own how else .idle
  | .settle job how => if job.fiber = f then .back job.own how else .idle
  | .requeue job => if job.fiber = f then .requeue job.own else .idle
  | .park job => if job.fiber = f then .park job.own else .idle
  | _ => .idle

/-- The fiber is being handed over: its state is written, and the worker that ran it
has not finished with it. -/
def Phase.handingOver : Phase → Bool
  | switching _ _ => true
  | back _ _ => true
  | park _ => true
  | _ => false

/-- One fiber: the worker that has it, whether it is scheduled or registered, whether it
has registered and still runs, its object, and the worker whose `cb_fiber` it is. -/
structure Life (n : Nat) where
  place : Option (Fin n × Phase)
  token : Bool
  armed : Bool
  fiber : Fiber
  priv : Option (Fin n)

namespace Life
variable {n : Nat}

/-- What worker `w` is doing with the fiber. -/
def phaseOf (l : Life n) (w : Fin n) : Phase :=
  match l.place with
  | some (v, p) => if v = w then p else .idle
  | none => .idle

/-- The worker whose `cb_fiber` it is, when `w` runs it. -/
def privOf (w : Fin n) (own : Bool) : Option (Fin n) := if own then some w else none

/-- **What fits together in the life of a fiber.** -/
def Good (l : Life n) : Prop :=
  match l.place with
  | none =>
    l.fiber.saved = true ∧ l.fiber.state ≠ .EXEC ∧ l.armed = false ∧
      (l.token = true → l.priv = none)
  | some (w, .held own) =>
    l.fiber.saved = true ∧ l.fiber.state ≠ .EXEC ∧ l.armed = false ∧ l.token = false ∧
      l.priv = privOf w own
  | some (w, .running own) =>
    l.fiber.state = .EXEC ∧ (l.token = true → l.armed = true) ∧ l.priv = privOf w own
  | some (w, .switching own how) =>
    l.fiber.state = how.state ∧ l.armed = false ∧ (l.token = true → how = .hold) ∧
      l.priv = privOf w own
  | some (w, .back own how) =>
    l.fiber.saved = true ∧ l.fiber.state = how.state ∧ l.armed = false ∧
      (l.token = true → how = .hold) ∧ l.priv = privOf w own
  | some (w, .requeue own) =>
    l.fiber.saved = true ∧ l.fiber.state ≠ .EXEC ∧ l.armed = false ∧ l.token = false ∧
      l.priv = privOf w own
  | some (w, .park own) => l.fiber.saved = true ∧ l.armed = false ∧ l.priv = privOf w own
  | some (_, .idle) => False

/-- Nothing has happened to the fiber yet. -/
def Fresh (l : Life n) : Prop := l.place = none ∧ l.token = false ∧ l.priv = none

/-- The worker that does something with the fiber is the one that has it. -/
theorem place_of_phase {l : Life n} {w : Fin n} {p : Phase} (h : l.phaseOf w = p)
    (hp : p ≠ .idle) : l.place = some (w, p) := by
  rw [phaseOf] at h
  split at h
  · rename_i v q hplace
    split at h
    · rename_i hv
      rw [hplace, hv, h]
    · exact absurd h.symm hp
  · exact absurd h.symm hp

/-- A fiber that came back and is scheduled already has yielded `HOLD`. -/
theorem unscheduled {token : Bool} {how : Yield} {state : FiberState}
    (htoken : token = true → how = .hold) (hstate : state = how.state) (hne : state ≠ .HOLD) :
    token = false := by
  by_contra h
  rw [htoken (by simpa using h)] at hstate
  exact hne hstate

/-- A fiber that a worker has is the `cb_fiber` of that worker or of none. -/
theorem Good.priv_of_place {l : Life n} (h : l.Good) {w : Fin n} {p : Phase}
    (hplace : l.place = some (w, p)) : p ≠ .idle ∧ ∃ own, l.priv = privOf w own := by
  rw [Good, hplace] at h
  cases p with
  | idle => exact h.elim
  | held own => exact ⟨nofun, own, h.2.2.2.2⟩
  | running own => exact ⟨nofun, own, h.2.2⟩
  | switching own how => exact ⟨nofun, own, h.2.2.2⟩
  | back own how => exact ⟨nofun, own, h.2.2.2.2⟩
  | requeue own => exact ⟨nofun, own, h.2.2.2.2⟩
  | park own => exact ⟨nofun, own, h.2.2⟩

end Life

namespace Handover
variable {n : Nat}

/-- The entries and the slots with the fiber `f`. -/
def queued (s : Handover n) (f : FiberId) : Nat :=
  s.sched.fibers.countP (fun ft => ft.fiber = some f) + s.waiting.countP (fun p => p.2 = f)

/-- The state shows the life `l` of the fiber `f`. -/
structure Shows (s : Handover n) (f : FiberId) (l : Life n) : Prop where
  phase : ∀ w, (s.sched.worker w).pc.phase f = l.phaseOf w
  queued : s.queued f = l.token.toNat
  armed : s.armed f = l.armed
  fiber : s.sched.heap f = l.fiber
  priv : ∀ w, (s.sched.worker w).cbFiber = some f ↔ l.priv = some w

/-- **The invariant**: every fiber shows a good life, a fresh one if it is yet to be
made. -/
def Inv (s : Handover n) : Prop :=
  ∀ f, ∃ l, s.Shows f l ∧ l.Good ∧ (s.sched.nextFiber ≤ f → l.Fresh)

/-- Worker `v` is handing the fiber `f` over. -/
def HandsOver (s : Handover n) (v : Fin n) (f : FiberId) : Prop :=
  ((s.sched.worker v).pc.phase f).handingOver = true

instance (s : Handover n) (v : Fin n) (f : FiberId) : Decidable (s.HandsOver v f) :=
  inferInstanceAs (Decidable (_ = true))

/-- The fiber whose entry a step takes up. -/
def takesUp (tid : Fin n → Int) (s : Handover n) : HandoverAction n → Option FiberId
  | .base (.work w) =>
    match (s.sched.worker w).pc with
    | .scan =>
      match Scheduler.scanLoop (tid w) s.sched.heap s.sched.fibers with
      | .ok (_, some (ft, _)) => ft.fiber
      | _ => none
    | _ => none
  | _ => none

/-- The step does not take up a fiber that a worker is still handing over. -/
def TakesSettled (tid : Fin n → Int) (s : Handover n) (a : HandoverAction n) : Prop :=
  ∀ f ∈ s.takesUp tid a, ∀ v, ¬ s.HandsOver v f

instance (tid : Fin n → Int) (s : Handover n) (a : HandoverAction n) :
    Decidable (s.TakesSettled tid a) :=
  inferInstanceAs (Decidable (∀ f ∈ s.takesUp tid a, ∀ v, ¬ s.HandsOver v f))

/-- The context of `f` is in use by `w`. -/
def Executes (s : Handover n) (w : Fin n) (f : FiberId) : Prop :=
  (∃ own, (s.sched.worker w).pc.phase f = .running own) ∨
    ∃ own how, (s.sched.worker w).pc.phase f = .switching own how

/-- No worker is about to switch to a fiber whose context is not saved, and no fiber is
executed by two workers. -/
structure Exclusive (s : Handover n) : Prop where
  saved : ∀ w job, (s.sched.worker w).pc = .swapIn job → (s.sched.heap job.fiber).saved = true
  single : ∀ v w f, s.Executes v f → s.Executes w f → v = w

/-! ## How a step changes a life -/

variable {s t : Handover n} {f f₀ : FiberId} {l : Life n} {w : Fin n} {x : Worker}

/-- The place of a fiber that worker `w` has in phase `p`. -/
def placeAt (w : Fin n) (p : Phase) : Option (Fin n × Phase) :=
  if p = .idle then none else some (w, p)

theorem phaseOf_placeAt (l : Life n) (w v : Fin n) (p : Phase) :
    { l with place := placeAt w p }.phaseOf v = if w = v then p else .idle := by
  rw [Life.phaseOf, placeAt]
  by_cases hp : p = .idle
  · subst hp
    simp
  · simp [hp]

/-- The life is what the state shows. -/
theorem Shows.eq_of_place (h : s.Shows f l) {place : Option (Fin n × Phase)}
    (hplace : l.place = place) :
    l = { place, token := l.token, armed := s.armed f, fiber := s.sched.heap f
          priv := l.priv } := by
  rw [h.armed, h.fiber, ← hplace]

/-- A step that is not about the fiber. -/
theorem Shows.frame (h : s.Shows f l)
    (hphase : ∀ v, (t.sched.worker v).pc.phase f = (s.sched.worker v).pc.phase f)
    (hpriv : ∀ v, (t.sched.worker v).cbFiber = some f ↔ (s.sched.worker v).cbFiber = some f)
    (hqueued : t.queued f = s.queued f) (harmed : t.armed f = s.armed f)
    (hfiber : t.sched.heap f = s.sched.heap f) : t.Shows f l where
  phase v := (hphase v).trans (h.phase v)
  queued := hqueued.trans h.queued
  armed := harmed.trans h.armed
  fiber := hfiber.trans h.fiber
  priv v := (hpriv v).trans (h.priv v)

/-- Worker `w`, which alone may have the fiber, goes into phase `x.pc.phase f` with it. -/
theorem Shows.move (h : s.Shows f l) (hworker : t.sched.worker = Function.update s.sched.worker w x)
    (hmine : ∀ v p, l.place = some (v, p) → v = w) (token : Bool) (priv : Option (Fin n))
    {armed : Bool} (hqueued : t.queued f = token.toNat) (harmed : t.armed f = armed)
    (hpriv : ∀ v, (t.sched.worker v).cbFiber = some f ↔ priv = some v) :
    t.Shows f
      { place := placeAt w (x.pc.phase f), token, armed, fiber := t.sched.heap f, priv } where
  phase v := by
    rw [phaseOf_placeAt { l with place := none, token, armed, fiber := t.sched.heap f, priv },
      hworker]
    by_cases hv : w = v
    · subst hv
      rw [Function.update_self, if_pos rfl]
    · rw [Function.update_of_ne (Ne.symm hv), if_neg hv, h.phase v]
      rw [Life.phaseOf]
      split
      · rename_i u p hplace
        obtain rfl := hmine u p hplace
        exact if_neg hv
      · rfl
  queued := hqueued
  armed := harmed
  fiber := rfl
  priv := hpriv

/-- `cb_fiber` of a worker that moves and keeps it. -/
theorem Shows.priv_kept (h : s.Shows f l)
    (hworker : t.sched.worker = Function.update s.sched.worker w x)
    (hcb : x.cbFiber = (s.sched.worker w).cbFiber) (v : Fin n) :
    (t.sched.worker v).cbFiber = some f ↔ l.priv = some v := by
  rw [← h.priv v, hworker]
  by_cases hv : v = w
  · subst hv
    rw [Function.update_self, hcb]
  · rw [Function.update_of_ne hv]

/-- `cb_fiber` of a worker that moves and, if the fiber is its own, lets it go. -/
theorem Shows.priv_left (h : s.Shows f l)
    (hworker : t.sched.worker = Function.update s.sched.worker w x) {own : Bool}
    (hpriv : l.priv = Life.privOf w own)
    (hcb : x.cbFiber = if own then none else (s.sched.worker w).cbFiber) (v : Fin n) :
    (t.sched.worker v).cbFiber = some f ↔ (none : Option (Fin n)) = some v := by
  refine iff_of_false ?_ nofun
  rw [hworker]
  intro heq
  by_cases hv : v = w
  · subst hv
    rw [Function.update_self, hcb] at heq
    cases own with
    | true => cases heq
    | false => exact absurd ((h.priv v).mp heq) (by rw [hpriv]; nofun)
  · rw [Function.update_of_ne hv, h.priv v, hpriv] at heq
    cases own with
    | true => exact hv (Option.some.inj heq).symm
    | false => cases heq

/-- **A step about one fiber.**  The others keep their lives, and it gets a good one. -/
theorem Inv.change (h : s.Inv) (f₀ : FiberId)
    (hframe : ∀ f, f ≠ f₀ → ∀ l, s.Shows f l → t.Shows f l)
    (hnext : s.sched.nextFiber ≤ t.sched.nextFiber)
    (hmain : ∀ l, s.Shows f₀ l → l.Good → (s.sched.nextFiber ≤ f₀ → l.Fresh) →
      ∃ l', t.Shows f₀ l' ∧ l'.Good ∧ (t.sched.nextFiber ≤ f₀ → l'.Fresh)) : t.Inv := by
  intro f
  obtain ⟨l, hl, hgood, hfresh⟩ := h f
  by_cases hf : f = f₀
  · subst hf
    exact hmain l hl hgood hfresh
  · exact ⟨l, hframe f hf l hl, hgood, fun hle => hfresh (Nat.le_trans hnext hle)⟩

/-- A step about no fiber. -/
theorem Inv.quiet (h : s.Inv) (hframe : ∀ f l, s.Shows f l → t.Shows f l)
    (hnext : t.sched.nextFiber = s.sched.nextFiber) : t.Inv := by
  intro f
  obtain ⟨l, hl, hgood, hfresh⟩ := h f
  exact ⟨l, hframe f l hl, hgood, fun hle => hfresh (hnext ▸ hle)⟩

/-- A worker that moves, seen from a fiber it does not have. -/
theorem Shows.frame_move (h : s.Shows f l)
    (hworker : t.sched.worker = Function.update s.sched.worker w x)
    (hphase : x.pc.phase f = (s.sched.worker w).pc.phase f)
    (hcb : x.cbFiber = some f ↔ (s.sched.worker w).cbFiber = some f)
    (hqueued : t.queued f = s.queued f) (harmed : t.armed f = s.armed f)
    (hfiber : t.sched.heap f = s.sched.heap f) : t.Shows f l := by
  refine h.frame ?_ ?_ hqueued harmed hfiber
  · intro v
    rw [hworker]
    by_cases hv : v = w
    · subst hv
      rw [Function.update_self]
      exact hphase
    · rw [Function.update_of_ne hv]
  · intro v
    rw [hworker]
    by_cases hv : v = w
    · subst hv
      rw [Function.update_self]
      exact hcb
    · rw [Function.update_of_ne hv]

theorem queued_congr (hfibers : t.sched.fibers = s.sched.fibers)
    (hwaiting : t.waiting = s.waiting) (f : FiberId) : t.queued f = s.queued f := by
  unfold queued
  rw [hfibers, hwaiting]

/-- A worker that goes on with the fiber it has. -/
theorem Inv.proceed (h : s.Inv) (f₀ : FiberId) (p q : Phase) {pc₀ pc : Pc}
    (hworker : t.sched.worker =
      Function.update s.sched.worker w { s.sched.worker w with pc := pc })
    (hpc : (s.sched.worker w).pc = pc₀) (hold : ∀ f, pc₀.phase f = if f₀ = f then p else .idle)
    (hp : p ≠ .idle) (hnew : ∀ f, pc.phase f = if f₀ = f then q else .idle)
    (hfibers : t.sched.fibers = s.sched.fibers) (hwaiting : t.waiting = s.waiting)
    (harmed : ∀ f, f ≠ f₀ → t.armed f = s.armed f)
    (hheap : ∀ f, f ≠ f₀ → t.sched.heap f = s.sched.heap f)
    (hnext : t.sched.nextFiber = s.sched.nextFiber)
    {armed : Bool} {fiber : Fiber} (harmed₀ : t.armed f₀ = armed)
    (hheap₀ : t.sched.heap f₀ = fiber)
    (hgood : ∀ token priv, Life.Good (n := n)
        { place := some (w, p), token, armed := s.armed f₀, fiber := s.sched.heap f₀, priv } →
      Life.Good (n := n) { place := placeAt w q, token, armed, fiber, priv }) : t.Inv := by
  have hqueued : ∀ f, t.queued f = s.queued f := queued_congr hfibers hwaiting
  refine h.change f₀ ?_ (Nat.le_of_eq hnext.symm) ?_
  · intro f hf l hl
    refine hl.frame_move hworker ?_ Iff.rfl (hqueued f) (harmed f hf) (hheap f hf)
    rw [hpc, hold f, hnew f, if_neg (Ne.symm hf), if_neg (Ne.symm hf)]
  · intro l hl hlg hfresh
    have hmine : l.phaseOf w = p := by rw [← hl.phase w, hpc, hold f₀, if_pos rfl]
    have hplace := Life.place_of_phase hmine hp
    have hmove := hl.move hworker (fun v r hr => ?_) l.token l.priv
      ((hqueued f₀).trans hl.queued) harmed₀ (hl.priv_kept hworker rfl)
    · refine ⟨_, hmove, ?_, ?_⟩
      · rw [hnew f₀, if_pos rfl, hheap₀]
        exact hgood l.token l.priv (hl.eq_of_place hplace ▸ hlg)
      · intro hle
        have hnone := (hfresh (hnext ▸ hle)).1
        rw [hplace] at hnone
        cases hnone
    · rw [hplace] at hr
      exact (Prod.mk.inj (Option.some.inj hr)).1.symm

/-- A worker that goes on without a fiber. -/
theorem Inv.idle (h : s.Inv) {pc₀ : Pc}
    (hworker : t.sched.worker = Function.update s.sched.worker w x)
    (hpc : (s.sched.worker w).pc = pc₀) (hold : ∀ f, pc₀.phase f = .idle)
    (hnew : ∀ f, x.pc.phase f = .idle) (hcb : x.cbFiber = (s.sched.worker w).cbFiber)
    (hfibers : t.sched.fibers = s.sched.fibers) (hwaiting : t.waiting = s.waiting)
    (harmed : t.armed = s.armed) (hheap : t.sched.heap = s.sched.heap)
    (hnext : t.sched.nextFiber = s.sched.nextFiber) : t.Inv := by
  refine h.quiet ?_ hnext
  intro f l hl
  refine hl.frame_move hworker ?_ (by rw [hcb]) ?_ (congrFun harmed f) (congrFun hheap f)
  · rw [hpc, hold f, hnew f]
  · unfold queued
    rw [hfibers, hwaiting]

/-! ## The steps of `run()` -/

/-- Taking an entry off the list. -/
theorem queued_take {ft : FiberAndThread} {pre post : List FiberAndThread}
    (hl : s.sched.fibers = pre ++ ft :: post) (hfibers : t.sched.fibers = pre ++ post)
    (hwaiting : t.waiting = s.waiting) (f : FiberId) :
    s.queued f = t.queued f + (decide (ft.fiber = some f)).toNat := by
  unfold queued
  rw [hl, hfibers, hwaiting, List.countP_append, List.countP_append, List.countP_cons]
  by_cases hf : ft.fiber = some f
  · simp only [hf, decide_true, if_true, Bool.toNat_true]
    omega
  · simp only [hf, decide_false, Bool.toNat_false, Bool.false_eq_true, if_false]
    omega

/-- Putting an entry on the list. -/
theorem queued_schedule {ft : FiberAndThread} (hfibers : t.sched.fibers = s.sched.fibers ++ [ft])
    (hwaiting : t.waiting = s.waiting) (f : FiberId) :
    t.queued f = s.queued f + (decide (ft.fiber = some f)).toNat :=
  queued_take hfibers (List.append_nil _).symm hwaiting.symm f

/-- A scheduled fiber that does not run and is not handed over is with no worker. -/
theorem Shows.place_none (h : s.Shows f l) (hgood : l.Good) (htoken : l.token = true)
    (hexec : (s.sched.heap f).state ≠ .EXEC) (hsettled : ∀ v, ¬ s.HandsOver v f) :
    l.place = none := by
  cases hplace : l.place with
  | none => rfl
  | some vp =>
    obtain ⟨v, p⟩ := vp
    have hphase : (s.sched.worker v).pc.phase f = p := by
      rw [h.phase v]
      rw [Life.phaseOf]
      rw [hplace]
      exact if_pos rfl
    have hnot := hsettled v
    rw [HandsOver] at hnot
    rw [hphase] at hnot
    rw [h.fiber] at hexec
    rw [Life.Good, hplace] at hgood
    cases p with
    | idle => exact hgood.elim
    | held own => exact absurd (htoken.symm.trans hgood.2.2.2.1) nofun
    | running own => exact absurd hgood.1 hexec
    | switching own how => exact absurd rfl hnot
    | back own how => exact absurd rfl hnot
    | requeue own => exact absurd (htoken.symm.trans hgood.2.2.2.1) nofun
    | park own => exact absurd rfl hnot

/-- A worker takes an entry whose fiber is not being handed over. -/
theorem Inv.take {ft : FiberAndThread} {pre post : List FiberAndThread} (h : s.Inv)
    (hworker : t.sched.worker = Function.update s.sched.worker w
      { s.sched.worker w with pc := .dispatch ft true })
    (hpc : (s.sched.worker w).pc = .scan) (hl : s.sched.fibers = pre ++ ft :: post)
    (hfibers : t.sched.fibers = pre ++ post) (hwaiting : t.waiting = s.waiting)
    (harmed : t.armed = s.armed) (hheap : t.sched.heap = s.sched.heap)
    (hnext : t.sched.nextFiber = s.sched.nextFiber)
    (hexec : ∀ f, ft.fiber = some f → (s.sched.heap f).state ≠ .EXEC)
    (hsettled : ∀ f, ft.fiber = some f → ∀ v, ¬ s.HandsOver v f) : t.Inv := by
  have hcount := queued_take hl hfibers hwaiting
  -- the entry is of no other fiber, and the worker had none
  have hframe : ∀ f, ft.fiber ≠ some f → ∀ l, s.Shows f l → t.Shows f l := by
    intro f hf l hl
    refine hl.frame_move hworker ?_ Iff.rfl ?_ (congrFun harmed f) (congrFun hheap f)
    · rw [hpc]
      exact if_neg hf
    · rw [hcount f, decide_eq_false hf]
      rfl
  cases hft : ft.fiber with
  | none => exact h.quiet (fun f l hl => hframe f (by rw [hft]; nofun) l hl) hnext
  | some f₀ =>
    refine h.change f₀ ?_ (Nat.le_of_eq hnext.symm) ?_
    · intro f hf l hl
      refine hframe f ?_ l hl
      rw [hft]
      exact fun heq => hf (Option.some.inj heq).symm
    · intro l hl hlg hfresh
      have hq := hcount f₀
      rw [hl.queued, decide_eq_true hft, Bool.toNat_true] at hq
      have htoken : l.token = true := by
        by_contra hno
        rw [Bool.eq_false_of_not_eq_true hno, Bool.toNat_false] at hq
        omega
      have hplace := hl.place_none hlg htoken (hexec f₀ hft) (hsettled f₀ hft)
      rw [Life.Good, hplace] at hlg
      obtain ⟨hsaved, hstate, hunarmed, hpriv⟩ := hlg
      have hnone : t.queued f₀ = 0 := by
        rw [htoken, Bool.toNat_true] at hq
        omega
      have hmove := hl.move hworker (by rw [hplace]; nofun) false l.priv hnone
        ((congrFun harmed f₀).trans hl.armed) (hl.priv_kept hworker rfl)
      refine ⟨_, hmove, ?_, ?_⟩
      · show Life.Good
          { place := placeAt w (if ft.fiber = some f₀ then .held false else .idle), .. }
        rw [if_pos hft, hheap, hl.fiber]
        exact ⟨hsaved, hstate, hunarmed, rfl, hpriv htoken⟩
      · intro hle
        have hfr := (hfresh (hnext ▸ hle)).2.1
        rw [htoken] at hfr
        cases hfr

/-- A worker lets go of an entry whose fiber has ended. -/
theorem Inv.release {ft : FiberAndThread} {isActive : Bool} {pc : Pc} (h : s.Inv)
    (hworker : t.sched.worker = Function.update s.sched.worker w
      { s.sched.worker w with pc := pc })
    (hidle : ∀ f, pc.phase f = .idle)
    (hpc : (s.sched.worker w).pc = .dispatch ft isActive)
    (hfibers : t.sched.fibers = s.sched.fibers) (hwaiting : t.waiting = s.waiting)
    (harmed : t.armed = s.armed) (hheap : t.sched.heap = s.sched.heap)
    (hnext : t.sched.nextFiber = s.sched.nextFiber) : t.Inv := by
  have hqueued : ∀ f, t.queued f = s.queued f := queued_congr hfibers hwaiting
  cases hft : ft.fiber with
  | none =>
    refine h.quiet ?_ hnext
    intro f l hl
    refine hl.frame_move hworker ?_ Iff.rfl (hqueued f) (congrFun harmed f) (congrFun hheap f)
    rw [hidle f, hpc]
    exact (if_neg (by rw [hft]; nofun)).symm
  | some f₀ =>
    refine h.proceed f₀ (.held false) .idle hworker hpc ?_ nofun ?_ hfibers
      hwaiting (fun f _ => congrFun harmed f) (fun f _ => congrFun hheap f) hnext
      (congrFun harmed f₀) (congrFun hheap f₀) ?_
    · intro f
      show (if ft.fiber = some f then _ else _) = _
      rw [hft]
      simp only [Option.some.injEq]
    · intro f
      rw [hidle f, ite_self]
    · rintro token priv ⟨hsaved, hstate, hunarmed, htoken, hpriv⟩
      exact ⟨hsaved, hstate, hunarmed, fun _ => hpriv⟩

/-- The fiber of a callback, reset or just made, is with no worker and not scheduled. -/
theorem Shows.own_free (h : s.Shows f l) (hgood : l.Good)
    (hfresh : s.sched.nextFiber ≤ f → l.Fresh) (hidle : (s.sched.worker w).pc.phase f = .idle)
    (hcb : (s.sched.worker w).cbFiber = some f ∨ f = s.sched.nextFiber) :
    l.place = none ∧ l.token = false ∧ l.armed = false ∧ ∀ v, v ≠ w → l.priv ≠ some v := by
  rcases hcb with hcb | rfl
  · have hpriv : l.priv = some w := (h.priv w).mp hcb
    have hplace : l.place = none := by
      cases hplace : l.place with
      | none => rfl
      | some vp =>
        obtain ⟨v, p⟩ := vp
        obtain ⟨hp, own, hown⟩ := hgood.priv_of_place hplace
        rw [hpriv] at hown
        cases own with
        | false => cases hown
        | true =>
          obtain rfl : w = v := Option.some.inj hown
          rw [h.phase w] at hidle
          rw [Life.phaseOf] at hidle
          rw [hplace] at hidle
          exact absurd ((if_pos rfl).symm.trans hidle) hp
    rw [Life.Good, hplace] at hgood
    refine ⟨hplace, ?_, hgood.2.2.1, ?_⟩
    · by_contra htoken
      have := hgood.2.2.2 (by simpa using htoken)
      rw [hpriv] at this
      cases this
    · intro v hv heq
      rw [hpriv] at heq
      exact hv (Option.some.inj heq).symm
  · obtain ⟨hplace, htoken, hpriv⟩ := hfresh (Nat.le_refl _)
    rw [Life.Good, hplace] at hgood
    refine ⟨hplace, htoken, hgood.2.2.1, ?_⟩
    intro v _ heq
    rw [hpriv] at heq
    cases heq

/-- A worker takes a callback on its `cb_fiber`, reset or just made. -/
theorem Inv.adopt (h : s.Inv) (f₀ : FiberId) {ticket : Nat}
    (hworker : t.sched.worker = Function.update s.sched.worker w
      { s.sched.worker w with pc := .swapIn ⟨f₀, true, ticket⟩, cbFiber := some f₀ })
    (hidle : ∀ f, (s.sched.worker w).pc.phase f = .idle)
    (hcb : (s.sched.worker w).cbFiber = some f₀ ∨
      (s.sched.worker w).cbFiber = none ∧ f₀ = s.sched.nextFiber ∧
        t.sched.nextFiber = s.sched.nextFiber + 1)
    (hfibers : t.sched.fibers = s.sched.fibers) (hwaiting : t.waiting = s.waiting)
    (harmed : t.armed = s.armed) (hheap : ∀ f, f ≠ f₀ → t.sched.heap f = s.sched.heap f)
    (hnext : s.sched.nextFiber ≤ t.sched.nextFiber)
    {fiber : Fiber} (hheap₀ : t.sched.heap f₀ = fiber) (hfiber : fiber.saved = true ∧
      fiber.state = .INIT) : t.Inv := by
  have hqueued : ∀ f, t.queued f = s.queued f := queued_congr hfibers hwaiting
  have hphase : ∀ f, Pc.phase f (.swapIn ⟨f₀, true, ticket⟩) =
      if f₀ = f then .held true else .idle := fun _ => rfl
  refine h.change f₀ ?_ hnext ?_
  · intro f hf l hl
    refine hl.frame_move hworker ?_ ?_ (hqueued f) (congrFun harmed f) (hheap f hf)
    · rw [hidle f, hphase, if_neg (Ne.symm hf)]
    · refine iff_of_false (fun heq => hf (Option.some.inj heq).symm) ?_
      rcases hcb with hcb | ⟨hcb, -⟩
      · rw [hcb]
        exact fun heq => hf (Option.some.inj heq).symm
      · rw [hcb]
        nofun
  · intro l hl hlg hfresh
    obtain ⟨hplace, htoken, hunarmed, hpriv⟩ :=
      hl.own_free hlg hfresh (hidle f₀) (hcb.imp_right fun h => h.2.1)
    have hmove := hl.move hworker (by rw [hplace]; nofun) l.token (some w)
      ((hqueued f₀).trans hl.queued) ((congrFun harmed f₀).trans hl.armed) (by
        intro v
        rw [hworker]
        by_cases hv : v = w
        · subst hv
          rw [Function.update_self]
          exact iff_of_true rfl rfl
        · rw [Function.update_of_ne hv, hl.priv v]
          exact iff_of_false (hpriv v hv) (fun heq => hv (Option.some.inj heq).symm))
    refine ⟨_, hmove, ?_, ?_⟩
    · rw [hphase, if_pos rfl]
      rw [hheap₀]
      exact ⟨hfiber.1, by rw [hfiber.2]; nofun, hunarmed, htoken, rfl⟩
    · intro hle
      rcases hcb with hcb | ⟨-, heq, hsucc⟩
      · have hnone := (hfresh (Nat.le_trans hnext hle)).2.2
        rw [(hl.priv w).mp hcb] at hnone
        cases hnone
      · rw [hsucc, heq] at hle
        exact absurd hle (Nat.not_succ_le_self _)

/-- A worker that has finished with a fiber, and lets `cb_fiber` go if it was that one. -/
theorem Inv.leave (h : s.Inv) (job : Job) (p : Phase)
    (hworker : t.sched.worker = Function.update s.sched.worker w
      { s.sched.worker w with
        pc := .scan, cbFiber := if job.own then none else (s.sched.worker w).cbFiber })
    (hold : ∀ f, (s.sched.worker w).pc.phase f = if job.fiber = f then p else .idle)
    (hp : p ≠ .idle) (hqueued : ∀ f, f ≠ job.fiber → t.queued f = s.queued f)
    (harmed : t.armed = s.armed) (hheap : ∀ f, f ≠ job.fiber → t.sched.heap f = s.sched.heap f)
    (hnext : t.sched.nextFiber = s.sched.nextFiber)
    {fiber : Fiber} (hheap₀ : t.sched.heap job.fiber = fiber)
    (hgood : ∀ token priv, Life.Good (n := n)
        { place := some (w, p), token, armed := s.armed job.fiber,
          fiber := s.sched.heap job.fiber, priv } →
      priv = Life.privOf w job.own ∧
      ∃ token' : Bool, t.queued job.fiber + token.toNat = s.queued job.fiber + token'.toNat ∧
        Life.Good (n := n)
          { place := none, token := token', armed := s.armed job.fiber, fiber, priv := none }) :
    t.Inv := by
  have hmine : (s.sched.worker w).pc.phase job.fiber = p := (hold job.fiber).trans (if_pos rfl)
  obtain ⟨lj, hlj, hlgj, -⟩ := h job.fiber
  have hplacej := Life.place_of_phase ((hlj.phase w).symm.trans hmine) hp
  refine h.change job.fiber ?_ (Nat.le_of_eq hnext.symm) ?_
  · intro f hf l hl
    refine hl.frame_move hworker ?_ ?_ (hqueued f hf) (congrFun harmed f) (hheap f hf)
    · rw [hold f, if_neg (Ne.symm hf)]
      rfl
    · cases hown : job.own with
      | false => rfl
      | true =>
        -- its `cb_fiber` was the fiber it had
        have hcb := (hlj.priv w).mpr ((hgood _ _ (hlj.eq_of_place hplacej ▸ hlgj)).1.trans
          (by rw [hown]; rfl))
        rw [hcb]
        exact iff_of_false nofun (fun heq => hf (Option.some.inj heq).symm)
  · intro l hl hlg hfresh
    have hplace := Life.place_of_phase ((hl.phase w).symm.trans hmine) hp
    obtain ⟨hpriv, token, htoken, hgood'⟩ := hgood _ _ (hl.eq_of_place hplace ▸ hlg)
    rw [hl.queued] at htoken
    refine ⟨_, hl.move hworker ?_ token none ?_
      (congrFun harmed job.fiber) (hl.priv_left hworker hpriv rfl), hheap₀ ▸ hgood', ?_⟩
    · intro v q hq
      rw [hplace] at hq
      exact (Prod.mk.inj (Option.some.inj hq)).1.symm
    · omega
    · intro hle
      have hnone := (hfresh (hnext ▸ hle)).1
      rw [hplace] at hnone
      cases hnone

/-- The two ways of taking a callback, after the entry was let go of. -/
theorem rearm_worker {ticket : Nat} {sched : Scheduler n}
    (hcb : (sched.worker w).cbFiber = some f) :
    Function.update sched.worker w
        { sched.worker w with pc := .swapIn ⟨f, true, ticket⟩ } =
      Function.update (sched.setPc w .skip).worker w
        { (sched.setPc w .skip).worker w with
          pc := .swapIn ⟨f, true, ticket⟩, cbFiber := some f } := by
  rw [Scheduler.worker_setPc_self, ← hcb]
  exact (Function.update_idem ..).symm

theorem make_worker {ticket : Nat} (sched : Scheduler n) :
    Function.update sched.worker w
        { sched.worker w with pc := .swapIn ⟨f, true, ticket⟩, cbFiber := some f } =
      Function.update (sched.setPc w .skip).worker w
        { (sched.setPc w .skip).worker w with
          pc := .swapIn ⟨f, true, ticket⟩, cbFiber := some f } := by
  rw [Scheduler.worker_setPc_self]
  exact (Function.update_idem ..).symm

section Run
variable {tid : Fin n → Int} {ft : FiberAndThread} {isActive : Bool} {cb : CallbackId}
  {job : Job} {how : Yield} {fiber : Fiber}

/-- The fiber of the entry, which has not ended, is about to be resumed. -/
theorem Inv.resume (h : s.Inv) (hpc : (s.sched.worker w).pc = .dispatch ft isActive)
    (hf : ft.fiber = some f) :
    Inv { s with sched := s.sched.setPc w (.swapIn ⟨f, false, ft.ticket⟩) } := by
  refine h.proceed f (.held false) (.held false) rfl hpc ?_ nofun
    (fun _ => rfl) rfl rfl (fun _ _ => rfl) (fun _ _ => rfl) rfl rfl rfl (fun _ _ hg => hg)
  intro f'
  show (if ft.fiber = some f' then _ else _) = _
  rw [hf]
  simp only [Option.some.injEq]

/-- `cb_fiber->reset( ft.cb )`. -/
theorem Inv.rearm (h : s.Inv) (hpc : (s.sched.worker w).pc = .dispatch ft isActive)
    (hown : (s.sched.worker w).cbFiber = some f)
    (hreset : (s.sched.heap f).reset (some cb) = some fiber) :
    Inv { s with
      sched := (s.sched.setFiber f fiber).setPc w (.swapIn ⟨f, true, ft.ticket⟩) } := by
  -- the entry is let go of first
  have hfree : Inv { s with sched := s.sched.setPc w .skip } :=
    h.release rfl (fun _ => rfl) hpc rfl rfl rfl rfl rfl
  refine hfree.adopt f (rearm_worker hown) ?_ (Or.inl ?_) rfl rfl rfl
    (fun f' hf => Function.update_of_ne hf ..) (Nat.le_refl _) (Function.update_self ..)
    (Fiber.reset_fresh hreset)
  · rw [Scheduler.worker_setPc_self]
    exact fun _ => rfl
  · rw [Scheduler.worker_setPc_self]
    exact hown

/-- `cb_fiber.reset( new Fiber( ft.cb ) )`. -/
theorem Inv.make (h : s.Inv) (hpc : (s.sched.worker w).pc = .dispatch ft isActive)
    (hown : (s.sched.worker w).cbFiber = none) :
    Inv { s with
      sched := (s.sched.newFiber cb).setWorker w { s.sched.worker w with
        cbFiber := some s.sched.nextFiber
        pc := .swapIn ⟨s.sched.nextFiber, true, ft.ticket⟩ } } := by
  have hfree : Inv { s with sched := s.sched.setPc w .skip } :=
    h.release rfl (fun _ => rfl) hpc rfl rfl rfl rfl rfl
  refine hfree.adopt s.sched.nextFiber (make_worker _) ?_ (Or.inr ⟨?_, rfl, rfl⟩) rfl rfl rfl
    (fun f' hf => Function.update_of_ne hf ..) (Nat.le_succ _) (Function.update_self ..)
    ⟨rfl, rfl⟩
  · rw [Scheduler.worker_setPc_self]
    exact fun _ => rfl
  · rw [Scheduler.worker_setPc_self]
    exact hown

/-- `swapIn()`. -/
theorem Inv.switchIn (h : s.Inv) (hpc : (s.sched.worker w).pc = .swapIn job)
    (hin : (s.sched.heap job.fiber).swapIn = some fiber) :
    Inv { s with sched := (s.sched.setFiber job.fiber fiber).setPc w (.running job) } := by
  refine h.proceed job.fiber (.held job.own) (.running job.own) rfl hpc
    (fun _ => rfl) nofun (fun _ => rfl) rfl rfl (fun _ _ => rfl)
    (fun f hf => Function.update_of_ne hf ..) rfl rfl (Function.update_self ..) ?_
  rintro token priv ⟨hsaved, hstate, hunarmed, htoken, hpriv⟩
  exact ⟨Fiber.swapIn_state hin, fun h => absurd (htoken.symm.trans h) nofun, hpriv⟩

/-- The switch back to `run()` saves the context of the fiber. -/
theorem Inv.switchOut (h : s.Inv) (hpc : (s.sched.worker w).pc = .switching job how) :
    Inv { s with
      sched := (s.sched.setFiber job.fiber (s.sched.heap job.fiber).swapOut).setPc w
        (.returned job how) } := by
  refine h.proceed job.fiber (.switching job.own how) (.back job.own how) rfl
    hpc (fun _ => rfl) nofun (fun _ => rfl) rfl rfl (fun _ _ => rfl)
    (fun f hf => Function.update_of_ne hf ..) rfl rfl (Function.update_self ..) ?_
  rintro token priv ⟨hstate, hunarmed, htoken, hpriv⟩
  exact ⟨rfl, hstate, hunarmed, htoken, hpriv⟩

/-- `--m_activeThreadCount` after the switch. -/
theorem Inv.decrement (h : s.Inv) (hpc : (s.sched.worker w).pc = .returned job how) :
    Inv { s with
      sched := { s.sched with activeThreadCount := s.sched.activeThreadCount - 1 }.setPc w
        (.settle job how) } :=
  h.proceed job.fiber (.back job.own how) (.back job.own how) rfl hpc
    (fun _ => rfl) nofun (fun _ => rfl) rfl rfl (fun _ _ => rfl) (fun _ _ => rfl) rfl rfl rfl
    (fun _ _ hg => hg)

/-- A fiber that came back `READY` was not scheduled meanwhile. -/
theorem Inv.ready (h : s.Inv) (hpc : (s.sched.worker w).pc = .settle job how)
    (hready : (s.sched.heap job.fiber).state = .READY) :
    Inv { s with sched := s.sched.setPc w (.requeue job) } := by
  refine h.proceed job.fiber (.back job.own how) (.requeue job.own) rfl hpc
    (fun _ => rfl) nofun (fun _ => rfl) rfl rfl (fun _ _ => rfl) (fun _ _ => rfl) rfl rfl rfl ?_
  rintro token priv ⟨hsaved, hstate, hunarmed, htoken, hpriv⟩
  have hheld : (s.sched.heap job.fiber).state ≠ .HOLD := by
    rw [hready]
    nofun
  refine ⟨hsaved, ?_, hunarmed, Life.unscheduled htoken hstate hheld, hpriv⟩
  show (s.sched.heap job.fiber).state ≠ _
  rw [hready]
  nofun

/-- The fiber of an entry has ended. -/
theorem Inv.ended (h : s.Inv) (hpc : (s.sched.worker w).pc = .settle job how)
    (hend : (s.sched.heap job.fiber).state = .TERM ∨ (s.sched.heap job.fiber).state = .EXCEPT)
    (hown : job.own = false) : Inv { s with sched := s.sched.setPc w .scan } := by
  refine h.proceed job.fiber (.back job.own how) .idle rfl hpc
    (fun _ => rfl) nofun (fun _ => (ite_self _).symm) rfl rfl (fun _ _ => rfl) (fun _ _ => rfl)
    rfl rfl rfl ?_
  rintro token priv ⟨hsaved, hstate, hunarmed, htoken, hpriv⟩
  refine ⟨hsaved, ?_, hunarmed, fun _ => hpriv.trans (by rw [hown]; rfl)⟩
  show (s.sched.heap job.fiber).state ≠ _
  rcases hend with h | h <;> rw [h] <;> nofun

/-- `cb_fiber` has ended, and is reset. -/
theorem Inv.endedOwn (h : s.Inv) (hpc : (s.sched.worker w).pc = .settle job how)
    (hend : (s.sched.heap job.fiber).state = .TERM ∨ (s.sched.heap job.fiber).state = .EXCEPT)
    (hreset : (s.sched.heap job.fiber).reset none = some fiber) :
    Inv { s with sched := (s.sched.setFiber job.fiber fiber).setPc w .scan } := by
  refine h.proceed job.fiber (.back job.own how) .idle rfl hpc
    (fun _ => rfl) nofun (fun _ => (ite_self _).symm) rfl rfl (fun _ _ => rfl)
    (fun f hf => Function.update_of_ne hf ..) rfl rfl (Function.update_self ..) ?_
  rintro token priv ⟨-, hstate, hunarmed, htoken, -⟩
  obtain ⟨hsaved, hinit⟩ := Fiber.reset_fresh hreset
  have hfree : token = false := Life.unscheduled htoken hstate (by
    show (s.sched.heap job.fiber).state ≠ _
    rcases hend with h | h <;> rw [h] <;> nofun)
  refine ⟨hsaved, ?_, hunarmed, fun h => absurd (hfree.symm.trans h) nofun⟩
  show fiber.state ≠ _
  rw [hinit]
  nofun

/-- A fiber that came back in any other state is about to be set to `HOLD`. -/
theorem Inv.held (h : s.Inv) (hpc : (s.sched.worker w).pc = .settle job how) :
    Inv { s with sched := s.sched.setPc w (.park job) } := by
  refine h.proceed job.fiber (.back job.own how) (.park job.own) rfl hpc
    (fun _ => rfl) nofun (fun _ => rfl) rfl rfl (fun _ _ => rfl) (fun _ _ => rfl) rfl rfl rfl ?_
  rintro token priv ⟨hsaved, -, hunarmed, -, hpriv⟩
  exact ⟨hsaved, hunarmed, hpriv⟩

/-- `schedule( ft.fiber )` and `schedule( cb_fiber )`. -/
theorem Inv.requeue (h : s.Inv) (hpc : (s.sched.worker w).pc = .requeue job) :
    Inv { s with
      sched := (s.sched.scheduleNoLock (some (.fiber job.fiber)) (-1)).leave w job } := by
  have hqueued := queued_schedule (s := s)
    (t := { s with sched := (s.sched.scheduleNoLock (some (.fiber job.fiber)) (-1)).leave w job })
    rfl rfl
  refine h.leave job (.requeue job.own) rfl ?_ nofun ?_ rfl (fun _ _ => rfl) rfl rfl ?_
  · rw [hpc]
    exact fun _ => rfl
  · intro f hf
    rw [hqueued f, decide_eq_false (fun heq => hf (Option.some.inj heq).symm)]
    rfl
  · rintro token priv ⟨hsaved, hstate, hunarmed, htoken, hpriv⟩
    have htoken : token = false := htoken
    refine ⟨hpriv, true, ?_, hsaved, hstate, hunarmed, fun _ => rfl⟩
    rw [hqueued job.fiber, decide_eq_true rfl, htoken]
    rfl

/-- `ft.fiber->m_state = Fiber::HOLD`. -/
theorem Inv.park (h : s.Inv) (hpc : (s.sched.worker w).pc = .park job) :
    Inv { s with
      sched := (s.sched.setFiber job.fiber
        { s.sched.heap job.fiber with state := .HOLD }).leave w job } := by
  refine h.leave job (.park job.own) rfl ?_ nofun
    (fun _ _ => rfl) rfl (fun f hf => Function.update_of_ne hf ..) rfl
    (Function.update_self ..) ?_
  · rw [hpc]
    exact fun _ => rfl
  · rintro token priv ⟨hsaved, hunarmed, hpriv⟩
    exact ⟨hpriv, token, rfl, hsaved, nofun, hunarmed, fun _ => rfl⟩

/-- **A step of `run()` that takes up no fiber which is being handed over.** -/
theorem Inv.work {sched : Scheduler n} (h : s.Inv)
    (hok : s.TakesSettled tid (.base (.work w)))
    (hw : Scheduler.Work (tid w) s.sched w sched) : Inv { s with sched } := by
  cases hw with
  | take hpc hloop hl _ _ hexec =>
    refine h.take rfl hpc hl rfl rfl rfl rfl rfl hexec ?_
    intro f hf
    exact hok f (by rw [takesUp, hpc, hloop]; exact hf)
  | resume hpc hf => exact h.resume hpc hf
  | rearm hpc _ _ hown hreset => exact h.rearm hpc hown hreset
  | make hpc _ _ hown => exact h.make hpc hown
  | drop hpc => exact h.release rfl (fun _ => rfl) hpc rfl rfl rfl rfl rfl
  | noTask hpc => exact h.release rfl (fun _ => rfl) hpc rfl rfl rfl rfl rfl
  | switchIn hpc hin => exact h.switchIn hpc hin
  | switchOut hpc => exact h.switchOut hpc
  | decrement hpc => exact h.decrement hpc
  | ready hpc hready => exact h.ready hpc hready
  | ended hpc hend hown => exact h.ended hpc hend hown
  | endedOwn hpc hend _ hreset => exact h.endedOwn hpc hend hreset
  | held hpc => exact h.held hpc
  | requeue hpc => exact h.requeue hpc
  | park hpc => exact h.park hpc
  -- no fiber of an entry is with the worker
  | nothing hpc | skip hpc | idleEnd hpc | idleAgain hpc | idleEnter hpc | idleLeave hpc =>
    exact h.idle rfl hpc (fun _ => rfl) (fun _ => rfl) rfl rfl rfl rfl rfl rfl

end Run

/-! ## The steps of the fibers and of other threads -/

theorem Inv.yield {job : Job} {how : Yield} (h : s.Inv)
    (hpc : (s.sched.worker w).pc = .running job)
    (hallowed : s.armed job.fiber = true → how = .hold) :
    Inv { s with
      sched := (s.sched.setFiber job.fiber ((s.sched.heap job.fiber).yield how)).setPc w
        (.switching job how)
      armed := Function.update s.armed job.fiber false } := by
  refine h.proceed job.fiber (.running job.own) (.switching job.own how) rfl hpc (fun _ => rfl)
    nofun (fun _ => rfl) rfl rfl (fun f hf => Function.update_of_ne hf ..)
    (fun f hf => Function.update_of_ne hf ..) rfl (Function.update_self ..)
    (Function.update_self ..) ?_
  rintro token priv ⟨hexec, htoken, hpriv⟩
  exact ⟨Fiber.yield_state .., rfl, fun h => hallowed (htoken h), hpriv⟩

theorem Inv.addEvent {job : Job} {slot : EventSlot} (h : s.Inv)
    (hpc : (s.sched.worker w).pc = .running job) (hunarmed : s.armed job.fiber = false) :
    Inv { s with
      waiting := (slot, job.fiber) :: s.waiting
      armed := Function.update s.armed job.fiber true } := by
  have hqueued : ∀ f, queued { s with
      waiting := (slot, job.fiber) :: s.waiting
      armed := Function.update s.armed job.fiber true } f =
        s.queued f + if job.fiber = f then 1 else 0 := by
    intro f
    unfold queued
    rw [List.countP_cons, Nat.add_assoc]
    simp only [decide_eq_true_eq]
  refine h.change job.fiber ?_ (Nat.le_refl _) ?_
  · intro f hf l hl
    refine hl.frame (fun _ => rfl) (fun _ => Iff.rfl) ?_ (Function.update_of_ne hf ..) rfl
    rw [hqueued f, if_neg (Ne.symm hf), Nat.add_zero]
  · intro l hl hlg hfresh
    have hmine : l.phaseOf w = .running job.own := by
      rw [← hl.phase w, hpc]
      exact if_pos rfl
    have hplace := Life.place_of_phase hmine nofun
    have hfree : l.token = false := by
      by_contra htoken
      rw [Life.Good, hplace] at hlg
      have := hlg.2.1 (by simpa using htoken)
      rw [← hl.armed, hunarmed] at this
      cases this
    refine ⟨{ l with token := true, armed := true },
      ⟨hl.phase, ?_, Function.update_self .., hl.fiber, hl.priv⟩, ?_, ?_⟩
    · rw [hqueued job.fiber, hl.queued, hfree, if_pos rfl]
      rfl
    · rw [Life.Good, hplace] at hlg ⊢
      exact ⟨hlg.1, fun _ => rfl, hlg.2.2⟩
    · intro hle
      have hnone := (hfresh hle).1
      rw [hplace] at hnone
      cases hnone

/-- Taking a fiber out of its slot. -/
theorem countP_takeSlot {slot : EventSlot} {waiting rest : List (EventSlot × FiberId)}
    {f₀ : FiberId} (h : takeSlot slot waiting = some (f₀, rest)) (f : FiberId) :
    waiting.countP (fun p => p.2 = f) =
      rest.countP (fun p => p.2 = f) + if f₀ = f then 1 else 0 := by
  induction waiting generalizing rest with
  | nil => cases h
  | cons p waiting ih =>
    rw [takeSlot] at h
    split at h
    · cases h
      rw [List.countP_cons]
      simp only [decide_eq_true_eq]
    · obtain ⟨⟨g, l⟩, hrec, heq⟩ := Option.map_eq_some_iff.mp h
      cases heq
      rw [List.countP_cons, List.countP_cons, ih hrec]
      omega

/-- A fiber that is triggered goes from its slot to the list. -/
theorem Inv.trigger {slot : EventSlot} {rest : List (EventSlot × FiberId)} (h : s.Inv)
    (hslot : takeSlot slot s.waiting = some (f, rest)) :
    Inv { s with
      sched := s.sched.scheduleNoLock (some (.fiber f)) (-1), waiting := rest } := by
  refine h.quiet ?_ rfl
  intro g l hl
  refine hl.frame (fun _ => rfl) (fun _ => Iff.rfl) ?_ rfl rfl
  have hsched := queued_schedule (s := { s with waiting := rest })
    (t := { s with sched := s.sched.scheduleNoLock (some (.fiber f)) (-1), waiting := rest })
    rfl rfl g
  rw [hsched]
  unfold queued
  rw [countP_takeSlot hslot g]
  by_cases hfg : f = g
  · simp only [hfg, decide_true, Bool.toNat_true, if_true]
    omega
  · simp only [Option.some.injEq, hfg, decide_false, Bool.toNat_false, if_false]
    omega

/-- A fiber is made and scheduled. -/
theorem Inv.launch (h : s.Inv) (cb : CallbackId) (thread : Int) :
    Inv { s with
      sched := (s.sched.newFiber cb).scheduleNoLock (some (.fiber s.sched.nextFiber))
        thread } := by
  have hqueued := queued_schedule (s := s)
    (t := { s with
      sched := (s.sched.newFiber cb).scheduleNoLock (some (.fiber s.sched.nextFiber)) thread })
    rfl rfl
  refine h.change s.sched.nextFiber ?_ (Nat.le_succ _) ?_
  · intro f hf l hl
    refine hl.frame (fun _ => rfl) (fun _ => Iff.rfl) ?_ rfl (Function.update_of_ne hf ..)
    rw [hqueued f, decide_eq_false (fun heq => hf (Option.some.inj heq).symm)]
    rfl
  · intro l hl hlg hfresh
    obtain ⟨hplace, htoken, hpriv⟩ := hfresh (Nat.le_refl _)
    rw [Life.Good, hplace] at hlg
    refine ⟨{ l with token := true, fiber := Fiber.new cb },
      ⟨hl.phase, ?_, hl.armed, Function.update_self .., hl.priv⟩, ?_, ?_⟩
    · rw [hqueued s.sched.nextFiber, hl.queued, htoken, decide_eq_true rfl]
      rfl
    · rw [Life.Good, hplace]
      exact ⟨rfl, nofun, hlg.2.2.1, fun _ => hpriv⟩
    · intro hle
      exact absurd hle (Nat.not_succ_le_self _)

/-- What is not a fiber is scheduled. -/
theorem Inv.schedule (h : s.Inv) {fc : Option Task} (hfc : isFiber fc = false) (thread : Int) :
    Inv { s with sched := s.sched.scheduleNoLock fc thread } := by
  rcases fc with _ | f | cb
  · exact h
  · cases hfc
  · refine h.quiet ?_ rfl
    intro f l hl
    refine hl.frame (fun _ => rfl) (fun _ => Iff.rfl) ?_ rfl rfl
    exact queued_schedule (s := s)
      (t := { s with sched := s.sched.scheduleNoLock (some (.callback cb)) thread }) rfl rfl f

theorem Inv.scheduleRange (h : s.Inv) {fcs : List (Option Task)}
    (hfcs : ∀ fc ∈ fcs, isFiber fc = false) :
    Inv { s with sched := s.sched.scheduleRange fcs } := by
  induction fcs generalizing s with
  | nil => exact h
  | cons fc fcs ih =>
    rw [Scheduler.scheduleRange_cons]
    exact ih (h.schedule (hfcs fc (List.mem_cons_self ..)) (-1))
      fun g hg => hfcs g (List.mem_cons_of_mem _ hg)

/-- A step of the scheduler that schedules no fiber. -/
theorem Inv.base {tid : Fin n → Int} {a : SchedAction n} {sched : Scheduler n} (h : s.Inv)
    (hallowed : s.allowed a = true) (hok : s.TakesSettled tid (.base a))
    (hstep : s.sched.step tid a = .ok sched) :
    Inv { s with sched, armed := s.disarm a } := by
  cases a with
  | newFiber cb => cases hallowed
  | schedule fc thread =>
    obtain rfl := Except.ok.inj hstep
    exact h.schedule (by simpa [allowed] using hallowed) thread
  | scheduleRange fcs =>
    obtain rfl := Except.ok.inj hstep
    exact h.scheduleRange (by simpa [allowed] using hallowed)
  | setAutoStop =>
    obtain rfl := Except.ok.inj hstep
    exact h.quiet (fun f l hl => hl.frame (fun _ => rfl) (fun _ => Iff.rfl) rfl rfl rfl) rfl
  | setStopping value =>
    obtain rfl := Except.ok.inj hstep
    exact h.quiet (fun f l hl => hl.frame (fun _ => rfl) (fun _ => Iff.rfl) rfl rfl rfl) rfl
  | stopCheck =>
    obtain rfl := Except.ok.inj hstep
    exact h
  | work w => exact h.work hok (Scheduler.work_of_ok hstep)
  | yield w how =>
    obtain ⟨job, hpc, rfl⟩ := Scheduler.yield_of_ok hstep
    have hdisarm : s.disarm (.yield w how) = Function.update s.armed job.fiber false := by
      rw [disarm, hpc]
    rw [hdisarm]
    refine h.yield hpc ?_
    intro harmed
    rw [allowed, hpc] at hallowed
    simpa [harmed] using hallowed
  | idleCheck w derived =>
    obtain ⟨hpc, rfl⟩ := Scheduler.idleCheck_of_ok hstep
    exact h.idle rfl hpc (fun _ => rfl) (fun _ => rfl) rfl rfl rfl rfl rfl rfl

/-- **Every step that takes up no fiber which is being handed over keeps the invariant.** -/
theorem Inv.step {tid : Fin n → Int} {a : HandoverAction n} (h : s.Inv)
    (hok : s.TakesSettled tid a) (hstep : s.step tid a = .ok t) : t.Inv := by
  cases a with
  | base a =>
    rw [Handover.step] at hstep
    split at hstep
    · rename_i hallowed
      obtain ⟨sched, hsched, hres⟩ := bind_ok hstep
      obtain rfl := Except.ok.inj hres
      exact h.base hallowed hok hsched
    · cases hstep
  | launch cb thread =>
    obtain rfl := Except.ok.inj hstep
    exact h.launch cb thread
  | addEvent w slot =>
    rw [Handover.step] at hstep
    split at hstep
    · rename_i job hpc
      split at hstep
      · cases hstep
      · split at hstep
        · cases hstep
        · rename_i hfree
          obtain rfl := Except.ok.inj hstep
          refine h.addEvent hpc ?_
          simp only [Bool.or_eq_true, not_or, Bool.not_eq_true] at hfree
          exact hfree.1
    · cases hstep
  | trigger slot =>
    rw [Handover.step] at hstep
    split at hstep
    · rename_i f rest hslot
      obtain rfl := Except.ok.inj hstep
      exact h.trigger hslot
    · cases hstep

theorem Inv.init : Inv ({ sched := .initial n, waiting := [], armed := fun _ => false }) := by
  intro f
  refine ⟨⟨none, false, false, { state := .INIT, cb := none, saved := true }, none⟩,
    ⟨fun _ => rfl, rfl, rfl, rfl, fun _ => ⟨nofun, nofun⟩⟩, ?_, fun _ => ⟨rfl, rfl, rfl⟩⟩
  exact ⟨rfl, nofun, rfl, fun _ => rfl⟩

/-! ## Exclusion -/

/-- A worker that executes the fiber is the one that has it. -/
theorem Shows.place_of_executes (h : s.Shows f l) (hex : s.Executes w f) :
    ∃ p, l.place = some (w, p) := by
  rcases hex with ⟨own, hphase⟩ | ⟨own, how, hphase⟩
  · exact ⟨_, Life.place_of_phase ((h.phase w).symm.trans hphase) nofun⟩
  · exact ⟨_, Life.place_of_phase ((h.phase w).symm.trans hphase) nofun⟩

theorem Inv.exclusive (h : s.Inv) : s.Exclusive where
  saved w job hpc := by
    obtain ⟨l, hl, hgood, -⟩ := h job.fiber
    have hmine : l.phaseOf w = .held job.own := by
      rw [← hl.phase w, hpc]
      exact if_pos rfl
    rw [Life.Good, Life.place_of_phase hmine nofun] at hgood
    rw [hl.fiber]
    exact hgood.1
  single v w f hv hw := by
    obtain ⟨l, hl, -, -⟩ := h f
    obtain ⟨p, hp⟩ := hl.place_of_executes hv
    obtain ⟨q, hq⟩ := hl.place_of_executes hw
    rw [hp] at hq
    exact (Prod.mk.inj (Option.some.inj hq)).1

end Handover

/-- **`swapIn()` after the context is saved.**  In a run in which no worker takes up an
entry of a fiber that another is still handing over, every fiber that a worker is about
to switch to has its context saved, and no fiber is executed by two workers. -/
theorem swapIn_after_save {n : Nat} (tid : Fin n → Int)
    {tr : List (Handover n × HandoverAction n)} {s : Handover n}
    (hrun : (handoverMachine tid).Run tr s)
    (hok : ∀ p ∈ tr, Handover.TakesSettled tid p.1 p.2) :
    ∀ u ∈ Machine.visits tr s, u.Exclusive := by
  have hinit : ∀ s, (handoverMachine tid).init s → s.Inv := by
    rintro _ rfl
    exact Handover.Inv.init
  have hstep : ∀ s a t, Handover.Inv s → Handover.TakesSettled tid s a →
      (handoverMachine tid).step s a = some t → Handover.Inv t :=
    fun s a t hs ha ht => hs.step ha (Machine.ofExcept_step.mp ht)
  exact fun u hu => (hrun.invariant_visits _ hinit hstep hok u hu).exclusive

/-- A fiber that registers for an event, suspends, and is triggered and resumed on the
other worker when the first has finished with it. -/
theorem swapIn_after_save_resumed :
    ∃ tr s, (handoverMachine (threadIds 2)).Run tr s ∧ s.Executes 1 0 ∧
      (∀ p ∈ tr, p.1.TakesSettled (threadIds 2) p.2) ∧
      ∀ u ∈ Machine.visits tr s, u.Exclusive := by
  obtain ⟨s, hrun, hs⟩ := Machine.Run.of_exec_any (handoverMachine_init 2)
    [.launch 7 (-1), .base (.work 0), .base (.work 0), .base (.work 0), .addEvent 0 (5, .READ),
      .base (.yield 0 .hold), .base (.work 0), .base (.work 0), .base (.work 0), .base (.work 0),
      .trigger (5, .READ), .base (.work 1), .base (.work 1), .base (.work 1)]
    (fun s => (s.sched.worker 1).pc.phase 0 == .running false) (by decide +kernel)
  exact ⟨_, s, hrun, Or.inl ⟨false, by simpa using hs⟩, by decide +kernel,
    swapIn_after_save _ hrun (by decide +kernel)⟩

/-- A fiber registers for an event on worker 0 and yields; the event is triggered, and
worker 1 is about to switch to it before worker 0 has saved its context.  After the next
step both execute it. -/
theorem swapIn_before_save :
    ∃ tr s, (handoverMachine (threadIds 2)).Run tr s ∧
      (s.sched.worker 1).pc = .swapIn ⟨0, false, 1⟩ ∧ (s.sched.heap 0).saved = false ∧
      ¬ s.Exclusive ∧
      ∃ t, (handoverMachine (threadIds 2)).step s (.base (.work 1)) = some t ∧
        t.Executes 0 0 ∧ t.Executes 1 0 := by
  obtain ⟨s, hrun, hs⟩ := Machine.Run.of_exec_any (handoverMachine_init 2)
    [.launch 7 (-1), .base (.work 0), .base (.work 0), .base (.work 0), .addEvent 0 (5, .READ),
      .base (.yield 0 .hold), .trigger (5, .READ), .base (.work 1), .base (.work 1)]
    (fun s => decide ((s.sched.worker 1).pc = .swapIn ⟨0, false, 1⟩) && !(s.sched.heap 0).saved &&
      ((handoverMachine (threadIds 2)).step s (.base (.work 1))).any fun t =>
        (t.sched.worker 0).pc.phase 0 == .switching false .hold &&
          (t.sched.worker 1).pc.phase 0 == .running false) (by decide +kernel)
  simp only [Bool.and_eq_true, decide_eq_true_eq, Bool.not_eq_true', beq_iff_eq,
    Option.any_eq_true] at hs
  obtain ⟨⟨hpc, hsaved⟩, t, hstep, h0, h1⟩ := hs
  refine ⟨_, s, hrun, hpc, hsaved, ?_, t, hstep, Or.inr ⟨false, .hold, h0⟩, Or.inl ⟨false, h1⟩⟩
  intro h
  have := h.saved 1 _ hpc
  rw [hsaved] at this
  cases this

end Sylar
