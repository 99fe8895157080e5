import Sylar.TimerSet

/-! # How long the hooked sleeps last

`sleep`, `usleep` and `nanosleep` arm a timer and leave the fiber, which is scheduled again when
the timer expires.  Their durations become milliseconds on the way: in an `unsigned int`, by a
division that rounds down, and in an `int`.  The clock, `GetCurrentMS`, is rounded down too.

**`sleeps_iff`** says for which durations, and at which instants, the deadline of the timer is
not before the end of the sleep. -/
namespace Sylar

/-- `timespec` -/
structure Timespec where
  tv_sec : Int
  tv_nsec : Int
  deriving DecidableEq, Repr

namespace Timespec

/-- What is asked of a `timespec` that is slept for. -/
structure Valid (req : Timespec) : Prop where
  sec : 0 ≤ req.tv_sec
  nsec : 0 ≤ req.tv_nsec
  nsec_lt : req.tv_nsec < 10 ^ 9

/-- Its nanoseconds. -/
def duration (req : Timespec) : Nat := req.tv_sec.toNat * 10 ^ 9 + req.tv_nsec.toNat

/-- Its whole milliseconds. -/
def millis (req : Timespec) : Nat := req.tv_sec.toNat * 1000 + req.tv_nsec.toNat / 10 ^ 6

end Timespec

namespace Hook
open TimerManager

/-- `GetCurrentMS`, at an instant in nanoseconds. -/
def GetCurrentMS (t : Nat) : Nat := t / 10 ^ 6 % UInt64.size

section Code
variable (iom : TimerManager) (id : TimerId) (t : Nat) (cb : CallbackId)

def sleep (seconds : BitVec 32) : TimerManager :=
  iom.addTimer id (GetCurrentMS t) (seconds * 1000).toNat cb false

def usleep (usec : BitVec 32) : TimerManager :=
  iom.addTimer id (GetCurrentMS t) (usec / 1000).toNat cb false

/-- `nanosleep`.  The sum is stored in an `int`, which then becomes a `uint64_t`. -/
def nanosleep (req : Timespec) : TimerManager :=
  let timeout_ms := Int.bmod (req.tv_sec * 1000 + (req.tv_nsec.tdiv 1000).tdiv 1000) (2 ^ 32)
  iom.addTimer id (GetCurrentMS t) (timeout_ms % 2 ^ 64).toNat cb false

end Code

/-- The timer is not due before a sleep of so many nanoseconds, from the instant `t` on, is
over. -/
def NotEarly (iom : TimerManager) (id : TimerId) (t duration : Nat) : Prop :=
  t + duration ≤ (iom.timer id).next * 10 ^ 6

instance (iom : TimerManager) (id : TimerId) (t duration : Nat) :
    Decidable (NotEarly iom id t duration) := inferInstanceAs (Decidable (_ ≤ _))

/-! ## Deadlines -/

section Deadlines
variable {iom : TimerManager} {id : TimerId} {t ms : Nat} {cb : CallbackId}

theorem addTimer_next {now : Nat} {recurring : Bool} :
    ((iom.addTimer id now ms cb recurring).timer id).next = add64 now ms := by
  rw [addTimer, timer_addTimerLocked]
  show (Function.update iom.timer id (.new now ms (some cb) recurring) id).next = _
  rw [Function.update_self]
  rfl

theorem notEarly_addTimer {duration : Nat} :
    NotEarly (iom.addTimer id (GetCurrentMS t) ms cb false) id t duration ↔
      t + duration ≤ (t / 10 ^ 6 + ms) % 2 ^ 64 * 10 ^ 6 := by
  rw [NotEarly, addTimer_next, add64, GetCurrentMS, Nat.mod_add_mod]
  rfl

/-- A sleep of so many milliseconds starts on one, and ends before the end of the clock. -/
def OnTime (t whole : Nat) : Prop := t % 10 ^ 6 = 0 ∧ t / 10 ^ 6 + whole < 2 ^ 64

instance (t whole : Nat) : Decidable (OnTime t whole) := inferInstanceAs (Decidable (_ ∧ _))

/-- Where a timer is armed for no longer than the duration, it has to be for all of it, and
nothing may have been rounded. -/
theorem notEarly_iff {whole rest : Nat} (hrest : rest < 10 ^ 6) (hms : ms ≤ whole) :
    NotEarly (iom.addTimer id (GetCurrentMS t) ms cb false) id t (whole * 10 ^ 6 + rest) ↔
      ms = whole ∧ rest = 0 ∧ OnTime t whole := by
  rw [notEarly_addTimer, OnTime]
  omega

theorem notEarly_sleep_iff (seconds : BitVec 32) :
    NotEarly (sleep iom id t cb seconds) id t (seconds.toNat * 10 ^ 9) ↔
      seconds.toNat * 1000 < 2 ^ 32 ∧ OnTime t (seconds.toNat * 1000) := by
  have hms : (seconds * 1000).toNat = seconds.toNat * 1000 % 2 ^ 32 := BitVec.toNat_mul ..
  have hns : seconds.toNat * 10 ^ 9 = seconds.toNat * 1000 * 10 ^ 6 + 0 := by omega
  rw [sleep, hns, notEarly_iff (by decide) (by rw [hms]; exact Nat.mod_le _ _), hms,
    Nat.mod_eq_iff_lt (by decide), eq_self_iff_true, true_and]

theorem notEarly_usleep_iff (usec : BitVec 32) :
    NotEarly (usleep iom id t cb usec) id t (usec.toNat * 1000) ↔
      usec.toNat % 1000 = 0 ∧ OnTime t (usec.toNat / 1000) := by
  have hms : (usec / 1000).toNat = usec.toNat / 1000 := BitVec.toNat_udiv ..
  have hns : usec.toNat * 1000 = usec.toNat / 1000 * 10 ^ 6 + usec.toNat % 1000 * 1000 := by omega
  rw [usleep, hns, notEarly_iff (by omega) (Nat.le_of_eq hms), hms, eq_self_iff_true, true_and,
    Nat.mul_eq_zero, or_iff_left (by decide)]

/-- What `addTimer` gets from `nanosleep`. -/
theorem timeout_ms_eq {req : Timespec} (h : req.Valid) :
    (Int.bmod (req.tv_sec * 1000 + (req.tv_nsec.tdiv 1000).tdiv 1000) (2 ^ 32) % 2 ^ 64).toNat =
      if req.millis % 2 ^ 32 < 2 ^ 31 then req.millis % 2 ^ 32
      else 2 ^ 64 - (2 ^ 32 - req.millis % 2 ^ 32) := by
  obtain ⟨hsec, hnsec, -⟩ := h
  have hdiv : (req.tv_nsec.tdiv 1000).tdiv 1000 = ((req.tv_nsec.toNat / 10 ^ 6 : Nat) : Int) := by
    rw [Int.tdiv_eq_ediv_of_nonneg hnsec, Int.tdiv_eq_ediv_of_nonneg (by omega)]
    omega
  have hsum : req.tv_sec * 1000 + (req.tv_nsec.tdiv 1000).tdiv 1000 = (req.millis : Int) := by
    rw [hdiv, Timespec.millis]
    omega
  rw [hsum, Int.bmod_def]
  split_ifs <;> omega

/-- A negative `int` is a deadline far off, if it is not behind the beginning of the clock. -/
def FarOff (t : Nat) (req : Timespec) : Prop :=
  2 ^ 31 ≤ req.millis % 2 ^ 32 ∧ t / 10 ^ 6 < 2 ^ 32 - req.millis % 2 ^ 32 ∧
    t + req.duration ≤ (t / 10 ^ 6 + 2 ^ 64 - (2 ^ 32 - req.millis % 2 ^ 32)) * 10 ^ 6

theorem notEarly_nanosleep_iff {req : Timespec} (h : req.Valid) :
    NotEarly (nanosleep iom id t cb req) id t req.duration ↔
      (req.millis < 2 ^ 31 ∧ req.tv_nsec.toNat % 10 ^ 6 = 0 ∧ OnTime t req.millis) ∨
        FarOff t req := by
  have hns : req.duration = req.millis * 10 ^ 6 + req.tv_nsec.toNat % 10 ^ 6 := by
    rw [Timespec.duration, Timespec.millis]
    omega
  rw [nanosleep, timeout_ms_eq h]
  split_ifs with hsmall
  · have hnear : ¬ FarOff t req := fun hfar => absurd hfar.1 (by omega)
    rw [hns, notEarly_iff (by omega) (Nat.mod_le _ _), or_iff_left hnear]
    refine and_congr_left fun _ => ?_
    omega
  · rw [notEarly_addTimer, FarOff, OnTime, hns]
    omega

end Deadlines

/-- **When the hooked sleeps do not end early**, for every duration and at every instant. -/
theorem sleeps_iff (iom : TimerManager) (id : TimerId) (t : Nat) (cb : CallbackId) :
    (∀ seconds : BitVec 32,
      NotEarly (sleep iom id t cb seconds) id t (seconds.toNat * 10 ^ 9) ↔
        seconds.toNat * 1000 < 2 ^ 32 ∧ OnTime t (seconds.toNat * 1000)) ∧
    (∀ usec : BitVec 32,
      NotEarly (usleep iom id t cb usec) id t (usec.toNat * 1000) ↔
        usec.toNat % 1000 = 0 ∧ OnTime t (usec.toNat / 1000)) ∧
    (∀ req : Timespec, req.Valid →
      (NotEarly (nanosleep iom id t cb req) id t req.duration ↔
        (req.millis < 2 ^ 31 ∧ req.tv_nsec.toNat % 10 ^ 6 = 0 ∧ OnTime t req.millis) ∨
          FarOff t req)) :=
  ⟨notEarly_sleep_iff, notEarly_usleep_iff, fun _ h => notEarly_nanosleep_iff h⟩

/-- A second, from the beginning of the clock on. -/
theorem nanosleep_second :
    NotEarly (nanosleep (TimerManager.new 0) 4 0 7 ⟨1, 0⟩) 4 0 (10 ^ 9) :=
  ((sleeps_iff (TimerManager.new 0) 4 0 7).2.2 ⟨1, 0⟩
    ⟨by decide, by decide, by decide⟩).mpr (.inl (by decide))

/-- Half a millisecond takes none, 4294968 seconds take 704 milliseconds, and the `int` for 2147484
seconds is negative, so that the deadline has passed when the timer is armed. -/
theorem sleeps_early :
    let iom := TimerManager.new 0
    let t := 1700000000 * 10 ^ 9
    ¬ NotEarly (usleep iom 4 t 7 500) 4 t (500 * 1000) ∧
      ¬ NotEarly (sleep iom 4 t 7 4294968) 4 t (4294968 * 10 ^ 9) ∧
      ((sleep iom 4 t 7 4294968).timer 4).next * 10 ^ 6 = t + 704 * 10 ^ 6 ∧
      ¬ NotEarly (nanosleep iom 4 t 7 ⟨2147484, 0⟩) 4 t (2147484 * 10 ^ 9) ∧
      ((nanosleep iom 4 t 7 ⟨2147484, 0⟩).timer 4).next * 10 ^ 6 < t := by
  decide +kernel

end Hook
end Sylar
