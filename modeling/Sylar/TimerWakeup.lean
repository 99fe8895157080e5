import Sylar.Interleaving
import Sylar.Timer

/-! # Waking up for a timer

A worker with nothing to run waits in `epoll_wait` until the earliest deadline, or for
three seconds.  A timer that is put in front of the others has to cut the wait short:
`addTimer` sets `m_tickled` and, out of the lock, calls `tickle()`, which writes a byte
to a pipe if some worker is idle.  While `m_tickled` is set, no other insertion does so.

`wakeupMachine` has the workers' idle loops, cut at every lock and every access to the
counter and the pipe, and any number of threads that insert timers.  Of the rest of
`run()` it keeps nothing, and other calls of `tickle()` and `stopping()` are steps that
may be made at any time.  So is the return from `epoll_wait`; the retry after `EINTR`
waits with the same timeout again and is no step.

`Inv` relates the flag, the bytes and the phases: as long as nobody is on the way to
look at the timers again (`Attended`), some worker that is going to stay waits no longer
than until the earliest deadline.  **`timer_wakeup_not_lost`** is the result. -/
namespace Sylar
open Interleaving

/-- `MAX_TIMEOUT`. -/
def maxTimeout : Nat := 3000

/-- The next step of a worker; `now` is the clock it has read. -/
inductive WorkerPhase
  /-- In `run()`, before `++m_idleThreadCount`. -/
  | working
  /-- At the test of `stopping( next_timeout )`. -/
  | entered
  /-- `getNextTimer()` has returned. -/
  | gotTimer (now timeout : Nat)
  /-- In `epoll_wait`. -/
  | polling (now timeout : Nat)
  /-- Back from it, before `listExpiredCb` reads the clock. -/
  | polled
  /-- Before its section under the read lock. -/
  | expiring (now : Nat)
  /-- Before its section under the write lock. -/
  | expiringLocked (now : Nat)
  /-- It schedules the callbacks, and handles the events. -/
  | handling
  /-- Before `--m_idleThreadCount`; `ended` if the idle fiber has ended. -/
  | leaving (ended : Bool)
  /-- In `run()`, after the idle fiber has ended. -/
  | finishing
  | exited
  deriving DecidableEq, Repr

/-- What a thread that inserts a timer does next. -/
inductive InserterPhase
  | idle
  /-- The timer is made; no one else can see it yet. -/
  | constructed (timer : Timer)
  /-- The lock is released, and `tickle()` is called: it tests `hasIdleThreads()`. -/
  | tickling
  /-- It writes the byte. -/
  | writing
  deriving DecidableEq, Repr

namespace WorkerPhase

/-- Between `++m_idleThreadCount` and `--m_idleThreadCount`. -/
def inIdle : WorkerPhase → Bool
  | working => false
  | finishing => false
  | exited => false
  | _ => true

/-- **The computed wake-up time** of a worker that waits, or is about to.  With no
timeout `epoll_wait` does not block. -/
def wake : WorkerPhase → Option Nat
  | gotTimer now timeout => if timeout = 0 then none else some (now + min timeout maxTimeout)
  | polling now timeout => if timeout = 0 then none else some (now + timeout)
  | _ => none

/-- The worker calls `getNextTimer()` before it can block or leave. -/
def fresh : WorkerPhase → Bool
  | gotTimer _ timeout => timeout == 0
  | polling _ timeout => timeout == 0
  | leaving ended => !ended
  | finishing => false
  | exited => false
  | _ => true

/-- The worker may find that it is to stop. -/
def mayEnd : WorkerPhase → Bool
  | gotTimer _ timeout => timeout == uint64Max
  | _ => false

/-- Blocked in `epoll_wait`. -/
def blocked : WorkerPhase → Bool
  | polling _ timeout => timeout != 0
  | _ => false

end WorkerPhase

/-- Between the insertion and the end of the `tickle()` call. -/
def InserterPhase.telling : InserterPhase → Bool
  | tickling => true
  | writing => true
  | _ => false

structure Wakeup (n : Nat) (T : Type) where
  manager : TimerManager
  worker : Fin n → WorkerPhase
  inserter : T → InserterPhase
  idleThreadCount : Nat
  /-- The bytes in the pipe. -/
  pipe : Nat
  clock : Nat

inductive WakeupAction (n : Nat) (T : Type)
  | tick (d : Nat)
  /-- `addTimer( ms, cb, recurring )` makes the timer. -/
  | construct (i : T) (ms : Nat) (cb : Option CallbackId) (recurring : Bool)
  /-- It inserts it; `id` is its address. -/
  | insert (i : T) (id : TimerId)
  /-- The section of `reset( ms, from_now )`. -/
  | reset (i : T) (id : TimerId) (ms : Nat) (fromNow : Bool)
  | cancel (id : TimerId)
  /-- `tickle()` of an inserter: the test, and the write. -/
  | hasIdle (i : T)
  | write (i : T)
  /-- A byte is written by another `tickle()`. -/
  | otherTickle
  /-- Another thread calls `stopping()`. -/
  | otherStopping
  /-- The next step of a worker, when there is only one. -/
  | work (w : Fin n)
  /-- The rest of the test of `stopping( timeout )`: what the scheduler says. -/
  | decide (w : Fin n) (stopping : Bool)
  /-- The section of `listExpiredCb` under the write lock. -/
  | listExpired (w : Fin n) (addr : TimerId)
  /-- A byte is read while the events are handled. -/
  | drain (w : Fin n)

namespace Wakeup
variable {n : Nat} {T : Type} [DecidableEq T]

def setWorker (s : Wakeup n T) (w : Fin n) (p : WorkerPhase) : Wakeup n T :=
  { s with worker := Function.update s.worker w p }

def setInserter (s : Wakeup n T) (i : T) (p : InserterPhase) : Wakeup n T :=
  { s with inserter := Function.update s.inserter i p }

/-- After an insertion, `at_front` decides about the call of `tickle()`. -/
def inserted (s : Wakeup n T) (i : T) (manager : TimerManager) (atFront : Bool) : Wakeup n T :=
  { s with manager }.setInserter i (if atFront then .tickling else .idle)

/-- The steps of a worker that has only one. -/
def work (s : Wakeup n T) (w : Fin n) : Option (Wakeup n T) :=
  match s.worker w with
  | .working => some ({ s with idleThreadCount := s.idleThreadCount + 1 }.setWorker w .entered)
  | .entered =>
    some ({ s with manager := (s.manager.getNextTimer s.clock).1 }.setWorker w
      (.gotTimer s.clock (s.manager.getNextTimer s.clock).2))
  | .polling _ _ => some (s.setWorker w .polled)
  | .polled => some (s.setWorker w (.expiring s.clock))
  | .expiring now =>
    some (s.setWorker w (if s.manager.hasTimer then .expiringLocked now else .handling))
  | .handling => some (s.setWorker w (.leaving false))
  | .leaving ended =>
    some ({ s with idleThreadCount := s.idleThreadCount - 1 }.setWorker w
      (if ended then .finishing else .working))
  | .finishing => some (s.setWorker w .exited)
  | _ => none

def step (s : Wakeup n T) : WakeupAction n T → Option (Wakeup n T)
  | .tick d => some { s with clock := s.clock + d }
  | .construct i ms cb recurring =>
    match s.inserter i with
    | .idle => some (s.setInserter i (.constructed (.new s.clock ms cb recurring)))
    | _ => none
  | .insert i id =>
    match s.inserter i with
    | .constructed timer =>
      if s.manager.allocated id then none
      else
        let added := (s.manager.newTimer id timer).addTimerLocked id
        some (s.inserted i added.1 added.2)
    | _ => none
  | .reset i id ms fromNow =>
    match s.inserter i with
    | .idle =>
      let added := s.manager.resetLocked id s.clock ms fromNow
      some (s.inserted i added.1 added.2.2)
    | _ => none
  | .cancel id => (s.manager.cancel id).map fun r => { s with manager := r.1 }
  | .hasIdle i =>
    match s.inserter i with
    | .tickling => some (s.setInserter i (if s.idleThreadCount > 0 then .writing else .idle))
    | _ => none
  | .write i =>
    match s.inserter i with
    | .writing => some ({ s with pipe := s.pipe + 1 }.setInserter i .idle)
    | _ => none
  | .otherTickle => some { s with pipe := s.pipe + 1 }
  | .otherStopping => some { s with manager := (s.manager.getNextTimer s.clock).1 }
  | .work w => s.work w
  | .decide w stopping =>
    match s.worker w with
    | .gotTimer now timeout =>
      some (s.setWorker w
        (if timeout = uint64Max ∧ stopping then .leaving true
        else .polling now (min timeout maxTimeout)))
    | _ => none
  | .listExpired w addr =>
    match s.worker w with
    | .expiringLocked now =>
      (s.manager.listExpiredLocked now addr).map fun r =>
        { s with manager := r.1 }.setWorker w .handling
    | _ => none
  | .drain w =>
    match s.worker w with
    | .handling => if s.pipe > 0 then some { s with pipe := s.pipe - 1 } else none
    | _ => none

/-- The state before any worker has started, at the time `now`. -/
def initial (n : Nat) (T : Type) (now : Nat) : Wakeup n T :=
  { manager := .new now
    worker := fun _ => .working
    inserter := fun _ => .idle
    idleThreadCount := 0
    pipe := 0
    clock := now }

/-- **A lost wake-up**: all workers that have not left are blocked, nothing is going to
wake them, and each sleeps past the earliest deadline. -/
structure LostWakeup (s : Wakeup n T) : Prop where
  alive : ∃ w, s.worker w ≠ .exited
  blocked : ∀ w, s.worker w ≠ .exited → (s.worker w).blocked = true
  pipe : s.pipe = 0
  told : ∀ i, (s.inserter i).telling = false
  late : ∃ id ∈ s.manager.timers, ∀ w wake, (s.worker w).blocked = true →
    (s.worker w).wake = some wake → (s.manager.timer id).next < wake

end Wakeup

/-- `n` workers that wait for timers, and the threads `T` that insert them. -/
def wakeupMachine (n : Nat) (T : Type) [DecidableEq T] :
    Machine (Wakeup n T) (WakeupAction n T) where
  init s := ∃ now, s = Wakeup.initial n T now
  step := Wakeup.step

/-! ## The invariant -/

namespace Wakeup
variable {n : Nat} {T : Type} [DecidableEq T] {s t : Wakeup n T} {w v : Fin n} {i : T}
  {p : WorkerPhase}

/-- Someone is on the way to look at the timers again, or to wake up one who is not. -/
def Attended (s : Wakeup n T) : Prop :=
  (∃ w, (s.worker w).fresh = true) ∨ (∃ i, (s.inserter i).telling = true) ∨ 0 < s.pipe

/-- No worker waits, or is about to. -/
def NoneWaits (s : Wakeup n T) : Prop := ∀ w, (s.worker w).wake = none

/-- The waiting workers wait no longer than until the earliest deadline: all of them, or
one that is not going to leave. -/
def Covered (s : Wakeup n T) : Prop :=
  (∀ w wake, (s.worker w).wake = some wake → s.manager.NoneBefore wake) ∨
    ∃ w wake, (s.worker w).wake = some wake ∧ (s.worker w).mayEnd = false ∧
      s.manager.NoneBefore wake

/-- **The invariant.** -/
structure Inv (s : Wakeup n T) : Prop where
  valid : s.manager.Valid
  idle : s.idleThreadCount = countOf WorkerPhase.inIdle s.worker
  clock : ∀ w wake, (s.worker w).wake = some wake → wake ≤ s.clock + maxTimeout
  told : s.manager.tickled = true → s.Attended ∨ s.NoneWaits
  covered : s.Attended ∨ s.Covered

omit [DecidableEq T] in
theorem Inv.not_lostWakeup (h : s.Inv) : ¬ s.LostWakeup := by
  rintro ⟨⟨w₀, hw₀⟩, hblocked, hpipe, htold, id, hid, hlate⟩
  -- every worker is blocked or has left
  have hdown : ∀ w, s.worker w = .exited ∨ (s.worker w).blocked = true :=
    fun w => (em _).imp_right (hblocked w)
  rcases h.covered with (⟨w, hw⟩ | ⟨i, hi⟩ | hp) | hall | ⟨w, wake, hwake, -, hnone⟩
  · rcases hdown w with heq | hb
    · rw [heq] at hw
      cases hw
    · cases hph : s.worker w with
      | polling now timeout =>
        rw [hph] at hw hb
        exact absurd (beq_iff_eq.mp hw) (bne_iff_ne.mp hb)
      | _ => rw [hph] at hb; cases hb
  · rw [htold i] at hi
    cases hi
  · omega
  · have hb := hblocked w₀ hw₀
    cases hph : s.worker w₀ with
    | polling now timeout =>
      have hne : timeout ≠ 0 := by
        rw [hph] at hb
        exact bne_iff_ne.mp hb
      have hwake : (s.worker w₀).wake = some (now + timeout) := by
        rw [hph]
        exact if_neg hne
      exact absurd (hlate w₀ _ hb hwake) (Nat.not_lt.mpr (hall w₀ _ hwake id hid))
    | _ => rw [hph] at hb; cases hb
  · have hb : (s.worker w).blocked = true := by
      rcases hdown w with heq | hb
      · rw [heq] at hwake
        cases hwake
      · exact hb
    exact absurd (hlate w wake hb hwake) (Nat.not_lt.mpr (hnone id hid))

/-! ## The steps -/

omit [DecidableEq T] in
theorem Attended.of (h : s.Attended)
    (hworker : ∀ w, (s.worker w).fresh = true → (t.worker w).fresh = true)
    (hinserter : ∀ i, (s.inserter i).telling = true → (t.inserter i).telling = true)
    (hpipe : s.pipe ≤ t.pipe) : t.Attended := by
  rcases h with ⟨w, hw⟩ | ⟨i, hi⟩ | hp
  · exact Or.inl ⟨w, hworker w hw⟩
  · exact Or.inr (Or.inl ⟨i, hinserter i hi⟩)
  · exact Or.inr (Or.inr (Nat.lt_of_lt_of_le hp hpipe))

theorem wake_of_fresh (h : p.fresh = true) : p.wake = none := by
  cases p with
  | gotTimer now timeout => exact if_pos (beq_iff_eq.mp h)
  | polling now timeout => exact if_pos (beq_iff_eq.mp h)
  | _ => rfl

omit [DecidableEq T] in
/-- The counter after worker `w` has gone to phase `p`. -/
theorem Inv.count (h : s.Inv) (hworker : t.worker = Function.update s.worker w p)
    (hcount : t.idleThreadCount + (s.worker w).inIdle.toNat = s.idleThreadCount + p.inIdle.toNat) :
    t.idleThreadCount = countOf WorkerPhase.inIdle t.worker := by
  have hupdate := countOf_update WorkerPhase.inIdle s.worker w p
  rw [← hworker, ← h.idle] at hupdate
  omega

omit [DecidableEq T] in
/-- **A step after which worker `w` is going to look at the timers.** -/
theorem Inv.refreshed (h : s.Inv) (hworker : t.worker = Function.update s.worker w p)
    (hfresh : p.fresh = true) (hvalid : t.manager.Valid)
    (hcount : t.idleThreadCount + (s.worker w).inIdle.toNat = s.idleThreadCount + p.inIdle.toNat)
    (hclock : t.clock = s.clock) : t.Inv := by
  have hatt : t.Attended := by
    refine Or.inl ⟨w, ?_⟩
    rw [hworker, Function.update_self]
    exact hfresh
  refine ⟨hvalid, h.count hworker hcount, ?_, fun _ => Or.inl hatt, Or.inl hatt⟩
  intro v wake hv
  rw [hworker] at hv
  rw [hclock]
  by_cases hvw : v = w
  · subst hvw
    rw [Function.update_self, wake_of_fresh hfresh] at hv
    cases hv
  · rw [Function.update_of_ne hvw] at hv
    exact h.clock v wake hv

/-- A timer is inserted; `at_front` says whether `tickle()` follows. -/
theorem Inv.inserted (h : s.Inv) (hi : (s.inserter i).telling = false) {m : TimerManager}
    {atFront : Bool} (hvalid : m.Valid)
    (hspec : atFront = true ∨ (atFront = false ∧ m.tickled = s.manager.tickled ∧
      (s.manager.tickled = true ∨ ∀ b, s.manager.NoneBefore b → m.NoneBefore b))) :
    (s.inserted i m atFront).Inv := by
  rcases hspec with rfl | ⟨rfl, htickled, hcase⟩
  · have hatt : (s.inserted i m true).Attended := by
      refine Or.inr (Or.inl ⟨i, ?_⟩)
      show (Function.update s.inserter i .tickling i).telling = true
      rw [Function.update_self]
      rfl
    exact ⟨hvalid, h.idle, h.clock, fun _ => Or.inl hatt, Or.inl hatt⟩
  · have hatt : s.Attended → (s.inserted i m false).Attended := by
      refine fun ha => ha.of (fun _ hw => hw) ?_ (Nat.le_refl _)
      intro j hj
      have hne : j ≠ i := by
        rintro rfl
        rw [hi] at hj
        cases hj
      exact (congrArg InserterPhase.telling (Function.update_of_ne hne ..)).trans hj
    refine ⟨hvalid, h.idle, h.clock, fun ht => (h.told (htickled ▸ ht)).imp hatt id, ?_⟩
    rcases h.covered with ha | hcov
    · exact Or.inl (hatt ha)
    rcases hcase with ht | hnone
    · -- the insertion was not announced because an earlier one was
      refine (h.told ht).imp hatt fun hw => Or.inl fun w wake hwake => ?_
      have hwake : (s.worker w).wake = some wake := hwake
      rw [hw w] at hwake
      cases hwake
    · right
      refine hcov.imp (fun hall w wake hw => hnone _ (hall w wake hw)) ?_
      rintro ⟨w, wake, hw, hend, hb⟩
      exact ⟨w, wake, hw, hend, hnone _ hb⟩

omit [DecidableEq T] in
/-- The timers are changed, no deadline is earlier and `m_tickled` is not set. -/
theorem Inv.relaxed (h : s.Inv) {m : TimerManager} (hvalid : m.Valid)
    (htickled : m.tickled = true → s.manager.tickled = true)
    (hnone : ∀ b, s.manager.NoneBefore b → m.NoneBefore b) : Inv { s with manager := m } := by
  refine ⟨hvalid, h.idle, h.clock, fun ht => h.told (htickled ht), h.covered.imp id ?_⟩
  rintro (hall | ⟨w, wake, hw, hend, hb⟩)
  · exact Or.inl fun w wake hw => hnone _ (hall w wake hw)
  · exact Or.inr ⟨w, wake, hw, hend, hnone _ hb⟩

omit [DecidableEq T] in
/-- A worker has read the timers: it does not sleep past the earliest deadline, and it
stays unless there is none within three seconds. -/
theorem Inv.gotTimer (h : s.Inv) (hw : s.worker w = .entered) {m : TimerManager} {timeout : Nat}
    (hget : s.manager.getNextTimer s.clock = (m, timeout)) :
    Inv ({ s with manager := m }.setWorker w (.gotTimer s.clock timeout)) := by
  have hvalid : m.Valid := by
    have := h.valid.getNextTimer s.clock
    rwa [hget] at this
  have hcount : s.idleThreadCount + (s.worker w).inIdle.toNat =
      s.idleThreadCount + (WorkerPhase.inIdle (.gotTimer s.clock timeout)).toNat := by
    rw [hw]
    rfl
  by_cases hzero : timeout = 0
  · exact h.refreshed rfl (beq_iff_eq.mpr hzero) hvalid hcount rfl
  have hnone : m.NoneBefore (s.clock + timeout) := by
    have := TimerManager.getNextTimer_noneBefore h.valid s.clock
    rw [hget] at this
    exact this.resolve_left hzero
  have htickled : m.tickled = false := by
    have := TimerManager.getNextTimer_tickled s.manager s.clock
    rwa [hget] at this
  have hmine : (WorkerPhase.gotTimer s.clock timeout).wake =
      some (s.clock + min timeout maxTimeout) := if_neg hzero
  have hclock : ∀ v wake, (Function.update s.worker w (.gotTimer s.clock timeout) v).wake =
      some wake → wake ≤ s.clock + maxTimeout := by
    intro v wake hv
    by_cases hvw : v = w
    · subst hvw
      rw [Function.update_self, hmine] at hv
      obtain rfl := Option.some.inj hv
      omega
    · rw [Function.update_of_ne hvw] at hv
      exact h.clock v wake hv
  refine ⟨hvalid, h.count rfl hcount, hclock, fun ht => ?_, Or.inr ?_⟩
  · rw [show m.tickled = true from ht] at htickled
    cases htickled
  · by_cases hmax : timeout = uint64Max
    · -- no deadline within the three seconds that any worker waits at most
      left
      intro v wake hv
      refine hnone.mono (Nat.le_trans (hclock v wake hv) ?_)
      rw [hmax]
      exact Nat.add_le_add_left (by decide) _
    · refine Or.inr ⟨w, s.clock + min timeout maxTimeout, ?_, ?_, hnone.mono (by omega)⟩
      · show (Function.update s.worker w _ w).wake = _
        rw [Function.update_self]
        exact hmine
      · show (Function.update s.worker w _ w).mayEnd = false
        rw [Function.update_self]
        exact beq_eq_false_iff_ne.mpr hmax

omit [DecidableEq T] in
/-- **A step after which worker `w` waits no longer than before**; if it was counted on,
because it was fresh or because it waits and does not end, it still is. -/
theorem Inv.shifted (h : s.Inv) (hworker : t.worker = Function.update s.worker w p)
    (hwake : ∀ x, p.wake = some x → (s.worker w).wake = some x)
    (hfresh : (s.worker w).fresh = true → p.fresh = true)
    (hstay : ∀ x, (s.worker w).wake = some x → (s.worker w).mayEnd = false →
      p.wake = some x ∧ p.mayEnd = false)
    (hcount : t.idleThreadCount + (s.worker w).inIdle.toNat = s.idleThreadCount + p.inIdle.toNat)
    (hmanager : t.manager = s.manager) (hinserter : t.inserter = s.inserter)
    (hpipe : t.pipe = s.pipe) (hclock : t.clock = s.clock) : t.Inv := by
  have hself : t.worker w = p := by rw [hworker, Function.update_self]
  have hother : ∀ v, v ≠ w → t.worker v = s.worker v := by
    intro v hv
    rw [hworker, Function.update_of_ne hv]
  have hwakes : ∀ v x, (t.worker v).wake = some x → (s.worker v).wake = some x := by
    intro v x hv
    by_cases hvw : v = w
    · subst hvw
      exact hwake x (hself ▸ hv)
    · exact hother v hvw ▸ hv
  have hatt : s.Attended → t.Attended := by
    refine fun ha => ha.of ?_ (fun i hi => by rw [hinserter]; exact hi) (Nat.le_of_eq hpipe.symm)
    intro v hv
    by_cases hvw : v = w
    · subst hvw
      rw [hself]
      exact hfresh hv
    · rw [hother v hvw]
      exact hv
  refine ⟨hmanager ▸ h.valid, h.count hworker hcount, ?_, ?_, h.covered.imp hatt ?_⟩
  · intro v x hv
    rw [hclock]
    exact h.clock v x (hwakes v x hv)
  · rw [hmanager]
    refine fun ht => (h.told ht).imp hatt fun hnone v => ?_
    by_contra hne
    obtain ⟨x, hx⟩ := Option.ne_none_iff_exists'.mp hne
    have := hwakes v x hx
    rw [hnone v] at this
    cases this
  · unfold Covered
    rw [hmanager]
    rintro (hall | ⟨v, x, hv, hend, hb⟩)
    · exact Or.inl fun v x hv => hall v x (hwakes v x hv)
    · refine Or.inr ⟨v, x, ?_⟩
      by_cases hvw : v = w
      · subst hvw
        rw [hself]
        obtain ⟨hx, hp⟩ := hstay x hv hend
        exact ⟨hx, hp, hb⟩
      · rw [hother v hvw]
        exact ⟨hv, hend, hb⟩

omit [DecidableEq T] in
/-- A worker goes on to wait with the timeout it got, or may end when it got none. -/
theorem Inv.decide (h : s.Inv) {now timeout : Nat} (hw : s.worker w = .gotTimer now timeout)
    (stopping : Bool) :
    Inv (s.setWorker w
      (if timeout = uint64Max ∧ stopping then .leaving true
        else .polling now (min timeout maxTimeout))) := by
  split_ifs with hstop
  · refine h.shifted rfl nofun ?_ ?_ (by rw [hw]; rfl) rfl rfl rfl rfl
    · rw [hw, hstop.1]
      nofun
    · rw [hw, hstop.1]
      nofun
  · have hiff : min timeout maxTimeout = 0 ↔ timeout = 0 := by
      rw [maxTimeout]
      omega
    have hwake : (WorkerPhase.polling now (min timeout maxTimeout)).wake =
        (WorkerPhase.gotTimer now timeout).wake := by
      show (if min timeout maxTimeout = 0 then none else _) = if timeout = 0 then none else _
      rw [if_congr hiff rfl rfl]
    refine h.shifted rfl ?_ ?_ ?_ (by rw [hw]; rfl) rfl rfl rfl rfl
    · intro x hx
      rw [hw, ← hwake, hx]
    · rw [hw]
      exact fun hf => beq_iff_eq.mpr (hiff.mpr (beq_iff_eq.mp hf))
    · intro x hx _
      rw [hw, ← hwake] at hx
      exact ⟨hx, rfl⟩

omit [DecidableEq T] in
theorem Inv.work (h : s.Inv) (hstep : s.work w = some t) : t.Inv := by
  rw [Wakeup.work] at hstep
  split at hstep
  · rename_i hw
    obtain rfl := Option.some.inj hstep
    exact h.refreshed rfl rfl h.valid (by rw [hw]; rfl) rfl
  · rename_i hw
    obtain rfl := Option.some.inj hstep
    exact h.gotTimer hw rfl
  · rename_i now timeout hw
    obtain rfl := Option.some.inj hstep
    exact h.refreshed rfl rfl h.valid (by rw [hw]; rfl) rfl
  · rename_i hw
    obtain rfl := Option.some.inj hstep
    exact h.refreshed rfl rfl h.valid (by rw [hw]; rfl) rfl
  · rename_i now hw
    obtain rfl := Option.some.inj hstep
    refine h.refreshed rfl ?_ h.valid (by rw [hw]; split_ifs <;> rfl) rfl
    split_ifs <;> rfl
  · rename_i hw
    obtain rfl := Option.some.inj hstep
    exact h.refreshed rfl rfl h.valid (by rw [hw]; rfl) rfl
  · rename_i ended hw
    obtain rfl := Option.some.inj hstep
    have hpos : 0 < s.idleThreadCount := by
      rw [h.idle]
      exact countOf_pos (w := w) (by rw [hw]; rfl)
    cases ended with
    | true =>
      refine h.shifted rfl nofun ?_ ?_ ?_ rfl rfl rfl rfl
      · rw [hw]
        nofun
      · rw [hw]
        nofun
      · rw [hw]
        exact Nat.sub_add_cancel hpos
    | false =>
      refine h.refreshed rfl rfl h.valid ?_ rfl
      rw [hw]
      exact Nat.sub_add_cancel hpos
  · rename_i hw
    obtain rfl := Option.some.inj hstep
    refine h.shifted rfl nofun ?_ ?_ (by rw [hw]; rfl) rfl rfl rfl rfl
    · rw [hw]
      nofun
    · rw [hw]
      nofun
  · cases hstep

/-- What an inserter does apart from the insertion: if it leaves off telling, either a
byte is in the pipe or no worker is idle. -/
theorem Inv.inserter (h : s.Inv) (q : InserterPhase) (pipe : Nat) (hpipe : s.pipe ≤ pipe)
    (hq : (s.inserter i).telling = true → q.telling = true ∨ 0 < pipe ∨ s.idleThreadCount = 0) :
    Inv ({ s with pipe }.setInserter i q) := by
  have hatt : s.Attended → ({ s with pipe }.setInserter i q).Attended ∨ s.idleThreadCount = 0 := by
    rintro (⟨w, hw⟩ | ⟨j, hj⟩ | hp)
    · exact Or.inl (Or.inl ⟨w, hw⟩)
    · by_cases hji : j = i
      · subst hji
        rcases hq hj with hq | hp | hzero
        · refine Or.inl (Or.inr (Or.inl ⟨j, ?_⟩))
          show (Function.update s.inserter j q j).telling = true
          rw [Function.update_self]
          exact hq
        · exact Or.inl (Or.inr (Or.inr hp))
        · exact Or.inr hzero
      · refine Or.inl (Or.inr (Or.inl ⟨j, ?_⟩))
        show (Function.update s.inserter i q j).telling = true
        rw [Function.update_of_ne hji]
        exact hj
    · exact Or.inl (Or.inr (Or.inr (Nat.lt_of_lt_of_le hp hpipe)))
  -- a worker that waits is counted as idle
  have hnone : s.idleThreadCount = 0 → s.NoneWaits := by
    intro hzero w
    rw [h.idle, countOf_eq_zero] at hzero
    have hw := hzero w
    cases hph : s.worker w with
    | gotTimer now timeout => rw [hph] at hw; cases hw
    | polling now timeout => rw [hph] at hw; cases hw
    | _ => rfl
  have hcovered : s.NoneWaits → s.Covered := by
    refine fun hn => Or.inl fun w wake hw => ?_
    rw [hn w] at hw
    cases hw
  refine ⟨h.valid, h.idle, h.clock, fun ht => ?_, ?_⟩
  · rcases h.told ht with ha | hn
    · exact (hatt ha).imp_right hnone
    · exact Or.inr hn
  · rcases h.covered with ha | hc
    · exact (hatt ha).imp_right fun hzero => hcovered (hnone hzero)
    · exact Or.inr hc

section Action

theorem Inv.of_tick (h : s.Inv) {d : Nat} (hstep : s.step (.tick d) = some t) : t.Inv := by
  obtain rfl := Option.some.inj hstep
  refine ⟨h.valid, h.idle, fun w wake hw => ?_, h.told, h.covered⟩
  exact Nat.le_trans (h.clock w wake hw) (Nat.add_le_add_right (Nat.le_add_right ..) _)

theorem Inv.of_construct (h : s.Inv) {ms : Nat} {cb : Option CallbackId} {recurring : Bool}
    (hstep : s.step (.construct i ms cb recurring) = some t) : t.Inv := by
  rw [Wakeup.step] at hstep
  split at hstep
  · rename_i hi
    obtain rfl := Option.some.inj hstep
    exact h.inserter _ s.pipe (Nat.le_refl _) (by rw [hi]; nofun)
  · cases hstep

theorem Inv.of_insert (h : s.Inv) {id : TimerId} (hstep : s.step (.insert i id) = some t) :
    t.Inv := by
  rw [Wakeup.step] at hstep
  split at hstep
  · rename_i timer hi
    split at hstep
    · cases hstep
    · rename_i hfree
      obtain rfl := Option.some.inj hstep
      have hfree : s.manager.allocated id = false := by simpa using hfree
      have hmem : id ∉ s.manager.timers := fun hmem =>
        absurd (h.valid.allocated id hmem) (by rw [hfree]; nofun)
      refine h.inserted (by rw [hi]; rfl)
        ((h.valid.newTimer hfree timer).addTimerLocked (Function.update_self ..)) ?_
      refine (TimerManager.addTimerLocked_spec _ _).imp_right ?_
      rintro ⟨hback, htickled, hcase⟩
      exact ⟨hback, htickled, hcase.imp_right fun hb b hnone => hb b (hnone.setTimer hmem timer)⟩
  · cases hstep

theorem Inv.of_reset (h : s.Inv) {id : TimerId} {ms : Nat} {fromNow : Bool}
    (hstep : s.step (.reset i id ms fromNow) = some t) : t.Inv := by
  rw [Wakeup.step] at hstep
  split at hstep
  · rename_i hi
    obtain rfl := Option.some.inj hstep
    exact h.inserted (by rw [hi]; rfl) (h.valid.resetLocked ..)
      (TimerManager.resetLocked_spec h.valid ..)
  · cases hstep

theorem Inv.of_cancel (h : s.Inv) {id : TimerId} (hstep : s.step (.cancel id) = some t) :
    t.Inv := by
  obtain ⟨⟨m, res⟩, hc, rfl⟩ := Option.map_eq_some_iff.mp hstep
  obtain ⟨htickled, hnone⟩ := TimerManager.cancel_spec hc
  exact h.relaxed (h.valid.cancel hc) (fun ht => htickled ▸ ht) hnone

theorem Inv.of_hasIdle (h : s.Inv) (hstep : s.step (.hasIdle i) = some t) : t.Inv := by
  rw [Wakeup.step] at hstep
  split at hstep
  · obtain rfl := Option.some.inj hstep
    refine h.inserter _ s.pipe (Nat.le_refl _) fun _ => ?_
    split_ifs with hidle
    · exact Or.inl rfl
    · exact Or.inr (Or.inr (Nat.eq_zero_of_not_pos hidle))
  · cases hstep

theorem Inv.of_write (h : s.Inv) (hstep : s.step (.write i) = some t) : t.Inv := by
  rw [Wakeup.step] at hstep
  split at hstep
  · obtain rfl := Option.some.inj hstep
    exact h.inserter _ (s.pipe + 1) (Nat.le_succ _) fun _ => Or.inr (Or.inl (Nat.succ_pos _))
  · cases hstep

theorem Inv.of_otherTickle (h : s.Inv) (hstep : s.step .otherTickle = some t) : t.Inv := by
  obtain rfl := Option.some.inj hstep
  have hatt : Attended { s with pipe := s.pipe + 1 } := Or.inr (Or.inr (Nat.succ_pos _))
  exact ⟨h.valid, h.idle, h.clock, fun _ => Or.inl hatt, Or.inl hatt⟩

theorem Inv.of_otherStopping (h : s.Inv) (hstep : s.step .otherStopping = some t) : t.Inv := by
  obtain rfl := Option.some.inj hstep
  refine h.relaxed (h.valid.getNextTimer _) (fun ht => ?_) (fun b hb => ?_)
  · rw [TimerManager.getNextTimer_tickled] at ht
    cases ht
  · exact TimerManager.noneBefore_getNextTimer.mpr hb

theorem Inv.of_decide (h : s.Inv) {stopping : Bool} (hstep : s.step (.decide w stopping) = some t) :
    t.Inv := by
  rw [Wakeup.step] at hstep
  split at hstep
  · rename_i now timeout hw
    obtain rfl := Option.some.inj hstep
    exact h.decide hw stopping
  · cases hstep

theorem Inv.of_listExpired (h : s.Inv) {addr : TimerId}
    (hstep : s.step (.listExpired w addr) = some t) : t.Inv := by
  rw [Wakeup.step] at hstep
  split at hstep
  · rename_i now hw
    obtain ⟨⟨m, cbs⟩, hl, rfl⟩ := Option.map_eq_some_iff.mp hstep
    exact h.refreshed rfl rfl (h.valid.listExpiredLocked hl) (by rw [hw]; rfl) rfl
  · cases hstep

theorem Inv.of_drain (h : s.Inv) (hstep : s.step (.drain w) = some t) : t.Inv := by
  rw [Wakeup.step] at hstep
  split at hstep
  · rename_i hw
    split at hstep
    · obtain rfl := Option.some.inj hstep
      have hatt : Attended { s with pipe := s.pipe - 1 } :=
        Or.inl ⟨w, congrArg WorkerPhase.fresh hw⟩
      exact ⟨h.valid, h.idle, h.clock, fun _ => Or.inl hatt, Or.inl hatt⟩
    · cases hstep
  · cases hstep

/-- Every step keeps the invariant. -/
theorem Inv.step (h : s.Inv) {a : WakeupAction n T} (hstep : s.step a = some t) : t.Inv := by
  cases a with
  | tick => exact h.of_tick hstep
  | construct => exact h.of_construct hstep
  | insert => exact h.of_insert hstep
  | reset => exact h.of_reset hstep
  | cancel => exact h.of_cancel hstep
  | hasIdle => exact h.of_hasIdle hstep
  | write => exact h.of_write hstep
  | otherTickle => exact h.of_otherTickle hstep
  | otherStopping => exact h.of_otherStopping hstep
  | work => exact h.work hstep
  | decide => exact h.of_decide hstep
  | listExpired => exact h.of_listExpired hstep
  | drain => exact h.of_drain hstep

end Action

omit [DecidableEq T] in
theorem Inv.init (now : Nat) : (initial n T now).Inv where
  valid := TimerManager.Valid.new now
  idle := (countOf_eq_zero.mpr fun _ => rfl).symm
  clock := nofun
  told := nofun
  covered := Or.inr (Or.inl nofun)

end Wakeup

/-- **No lost wake-up.**  In no reachable state are all workers that have not left
blocked past the earliest deadline, with the pipe empty and no thread between its
insertion and the end of its `tickle()`. -/
theorem timer_wakeup_not_lost {n : Nat} {T : Type} [DecidableEq T] {s : Wakeup n T}
    (h : (wakeupMachine n T).Reachable s) : ¬ s.LostWakeup := by
  have hinv : s.Inv := h.invariant (by rintro _ ⟨now, rfl⟩; exact .init now)
    fun _ _ _ hs hstep => hs.step hstep
  exact hinv.not_lostWakeup

/-- Two workers wait for three seconds each when a timer of 100 ms is inserted: the byte
wakes worker 0, which drains the pipe, and now waits for the timer. -/
theorem timer_wakeup_not_lost_drained :
    ∃ s, (wakeupMachine 2 (Fin 1)).Reachable s ∧ s.worker 0 = .polling 1000 100 ∧
      s.worker 1 = .polling 1000 3000 ∧ s.pipe = 0 ∧ ¬ s.LostWakeup := by
  obtain ⟨s, hrun, hs⟩ := Machine.Run.of_exec_any
    (M := wakeupMachine 2 (Fin 1)) ⟨1000, rfl⟩
    [.work 0, .work 0, .decide 0 false, .work 1, .work 1, .decide 1 false,
      .construct 0 100 (some 7) false, .insert 0 5, .hasIdle 0, .write 0,
      .work 0, .work 0, .work 0, .listExpired 0 6, .drain 0, .work 0, .work 0, .work 0, .work 0,
      .decide 0 false]
    (fun s => s.worker 0 == .polling 1000 100 && s.worker 1 == .polling 1000 3000 && s.pipe == 0)
    (by decide +kernel)
  simp only [Bool.and_eq_true, beq_iff_eq] at hs
  exact ⟨s, ⟨_, hrun⟩, hs.1.1, hs.1.2, hs.2, timer_wakeup_not_lost ⟨_, hrun⟩⟩

end Sylar
