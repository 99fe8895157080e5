import Sylar.Interleaving
import Sylar.LogDefine

/-! # The file of a `FileLogAppender`

Whenever the clock has moved on since the last event, `log` opens its file again, and the
default mode of `std::ofstream::open` truncates it.  So the file holds the events of one second:
**`file_kept_iff`**. -/
namespace Sylar
open Interleaving

/-- `FileLogAppender`, with what the file at `m_filename` contains. -/
structure FileLogAppender where
  level : LogLevel := .debug
  lastTime : Nat := 0
  file : Str
  deriving DecidableEq

/-- A call of `log`: the level of the event, the clock, and the text the formatter makes of it. -/
structure LogCall where
  level : LogLevel
  now : Nat
  text : Str
  deriving DecidableEq

namespace FileLogAppender

/-- `reopen` -/
def reopen (a : FileLogAppender) : FileLogAppender := { a with file := [] }

/-- `FileLogAppender::FileLogAppender`, where the file may be there already. -/
def create (file : Str) : FileLogAppender := reopen { file }

def setLevel (a : FileLogAppender) (val : LogLevel) : FileLogAppender := { a with level := val }

/-- `FileLogAppender::log` -/
def log (a : FileLogAppender) (call : LogCall) : FileLogAppender :=
  if a.level ≤ call.level then
    let a := if call.now ≠ a.lastTime then { a.reopen with lastTime := call.now } else a
    { a with file := a.file ++ call.text }
  else a

end FileLogAppender

/-- An appender, and the texts of the events it has accepted since it was constructed. -/
structure FileLog where
  appender : FileLogAppender
  accepted : List Str
  deriving DecidableEq

namespace FileLog

def step (s : FileLog) (call : LogCall) : FileLog where
  appender := s.appender.log call
  accepted := if s.appender.level ≤ call.level then s.accepted ++ [call.text] else s.accepted

/-- Any calls of `log` on a new appender of any level. -/
def machine : Machine FileLog LogCall where
  init s := ∃ file level,
    s = { appender := (FileLogAppender.create file).setLevel level, accepted := [] }
  step s call := some (s.step call)

/-- The file contains every event that was accepted, in the order of the calls. -/
def Kept (s : FileLog) : Prop := s.appender.file = s.accepted.flatten

/-- The call loses nothing: it is not accepted, or it comes in the second of the last call that
was, or what was accepted so far is empty. -/
def LosesNothing (s : FileLog) (call : LogCall) : Prop :=
  s.appender.level ≤ call.level → call.now = s.appender.lastTime ∨ ∀ text ∈ s.accepted, text = []

instance (s : FileLog) (call : LogCall) : Decidable (s.LosesNothing call) :=
  inferInstanceAs (Decidable (_ → _ ∨ _))

theorem kept_step_iff {s : FileLog} (h : s.Kept) (call : LogCall) :
    (s.step call).Kept ↔ s.LosesNothing call := by
  unfold Kept LosesNothing step FileLogAppender.log at *
  dsimp only
  split
  · rename_i hlevel
    rw [List.flatten_append, List.flatten_singleton, ← h]
    by_cases hnow : call.now = s.appender.lastTime
    · rw [if_neg (not_not.mpr hnow)]
      exact iff_of_true rfl fun _ => .inl hnow
    · -- the file is opened again
      rw [if_pos hnow]
      show [] ++ call.text = s.appender.file ++ call.text ↔ _
      rw [List.append_cancel_right_eq, eq_comm, h, List.flatten_eq_nil_iff]
      exact ⟨fun hempty _ => .inr hempty, fun hlose => (hlose hlevel).resolve_left hnow⟩
  · rename_i hlevel
    exact iff_of_true h fun hle => absurd hle hlevel

/-- **When the file is append-only**: in every run of calls, exactly where each call that is
accepted comes in the second of the last one, or before any text was written. -/
theorem file_kept_iff {tr : List (FileLog × LogCall)} {s : FileLog} (hrun : machine.Run tr s) :
    (∀ u ∈ Machine.visits tr s, u.Kept) ↔ ∀ p ∈ tr, p.1.LosesNothing p.2 := by
  refine hrun.invariant_iff (I := Kept) LosesNothing ?_ fun s call t hs hst => ?_
  · rintro s ⟨file, level, rfl⟩
    rfl
  · obtain rfl : s.step call = t := Option.some_inj.mp hst
    exact kept_step_iff hs call

section Examples

/-- An appender behind its constructor. -/
def opened : FileLog := { appender := FileLogAppender.create [], accepted := [] }

theorem opened_init : machine.init opened := ⟨[], .debug, rfl⟩

/-- Two events in one second, the first event in that second. -/
theorem file_kept_iff_one_second : ∃ tr s, machine.Run tr s ∧
    s.accepted = ["a\n".toList, "b\n".toList] ∧ ∀ u ∈ Machine.visits tr s, u.Kept := by
  obtain ⟨s, hrun, hs⟩ := Machine.Run.of_exec_any opened_init
    [⟨.info, 1700000000, "a\n".toList⟩, ⟨.info, 1700000000, "b\n".toList⟩]
    (fun s => s.accepted == ["a\n".toList, "b\n".toList]) (by decide)
  exact ⟨_, s, hrun, beq_iff_eq.mp hs, (file_kept_iff hrun).mpr (by decide)⟩

/-- Two events in two seconds: the first is lost. -/
theorem second_second_truncates : ∃ tr s, machine.Run tr s ∧
    s.accepted = ["a\n".toList, "b\n".toList] ∧ s.appender.file = "b\n".toList ∧ ¬ s.Kept := by
  obtain ⟨s, hrun, hs⟩ := Machine.Run.of_exec_any opened_init
    [⟨.info, 1700000000, "a\n".toList⟩, ⟨.info, 1700000001, "b\n".toList⟩]
    (fun s => s.accepted == ["a\n".toList, "b\n".toList] && s.appender.file == "b\n".toList)
    (by decide)
  obtain ⟨haccepted, hfile⟩ := Bool.and_eq_true_iff.mp hs
  refine ⟨_, s, hrun, beq_iff_eq.mp haccepted, beq_iff_eq.mp hfile, fun h => ?_⟩
  rw [Kept, beq_iff_eq.mp haccepted, beq_iff_eq.mp hfile] at h
  exact absurd h (by decide)

end Examples

end FileLog

end Sylar
