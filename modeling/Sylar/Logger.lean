import Sylar.LogDefine
import Sylar.LogFormatter

/-! # Appenders, loggers and their manager -/
namespace Sylar

/-- Where an appender writes: `FileLogAppender` or `StdoutLogAppender`. -/
inductive LogTarget
  | file (filename : Str)
  | stdout
  deriving DecidableEq, Repr

/-- `LogAppender` -/
structure LogAppender where
  target : LogTarget
  level : LogLevel := .debug
  hasFormatter : Bool := false
  formatter : Option LogFormatter := none
  deriving DecidableEq, Repr

namespace LogAppender

def setFormatter (a : LogAppender) (val : Option LogFormatter) : LogAppender :=
  { a with formatter := val, hasFormatter := val.isSome }

def setLevel (a : LogAppender) (val : LogLevel) : LogAppender := { a with level := val }

end LogAppender

/-- `Logger` -/
structure Logger where
  name : Str
  level : LogLevel := .debug
  formatter : Option LogFormatter := some LogFormatter.defaultFormatter
  appenders : List LogAppender := []
  deriving DecidableEq, Repr

namespace Logger

/-- `Logger::Logger` -/
def create (name : Str) : Logger := { name }

def setLevel (l : Logger) (val : LogLevel) : Logger := { l with level := val }

/-- An appender without a formatter gets that of the logger. -/
def addAppender (l : Logger) (appender : LogAppender) : Logger :=
  let appender :=
    if appender.formatter = none then appender.setFormatter l.formatter else appender
  { l with appenders := l.appenders ++ [appender] }

def clearAppenders (l : Logger) : Logger := { l with appenders := [] }

/-- `setFormatter( std::string_view )`, which refuses a pattern with an error. -/
def setFormatter (l : Logger) (val : Str) : Except LogFault Logger := do
  let newVal ← LogFormatter.create val
  if newVal.error then return l
  return { l with formatter := some newVal }

/-- The pattern of the formatter. -/
def pattern (l : Logger) : Option Str := l.formatter.map LogFormatter.pattern

/-- What `setFormatter` makes of the pattern. -/
theorem setFormatter_cases (l : Logger) (val : Str) :
    l.setFormatter val = .error .outOfRange ∧ LogFormatter.create val = .error .outOfRange ∨
      (l.setFormatter val = .ok l ∧ LogFormatter.accepts val = false ∧
        LogFormatter.create val ≠ .error .outOfRange) ∨
      ∃ f, l.setFormatter val = .ok { l with formatter := some f } ∧ f.pattern = val ∧
        LogFormatter.accepts val = true := by
  rw [setFormatter, LogFormatter.accepts]
  cases h : LogFormatter.create val with
  | error e =>
    cases e with
    | outOfRange => exact .inl ⟨rfl, rfl⟩
    | nullLogger =>
      unfold LogFormatter.create at h
      dsimp only at h
      split at h <;> cases h
  | ok f =>
    cases herr : f.error with
    | true =>
      refine .inr (.inl ⟨?_, by simp [herr], by rintro ⟨⟩⟩)
      show (if f.error = true then _ else _) = _
      rw [if_pos herr]
      rfl
    | false =>
      refine .inr (.inr ⟨f, ?_, LogFormatter.create_pattern h, by simp [herr]⟩)
      show (if f.error = true then _ else _) = _
      rw [if_neg (by rw [herr]; exact Bool.false_ne_true)]
      rfl

end Logger

/-- `LoggerManager`: `m_loggers` and `m_root`. -/
structure LoggerManager where
  loggers : Str → Option Logger
  root : Logger

namespace LoggerManager

/-- The logger of a name behind what was done to it. -/
def put (m : LoggerManager) (name : Str) (logger : Logger) : LoggerManager :=
  { m with loggers := Function.update m.loggers name (some logger) }

/-- `getLogger` -/
def getLogger (m : LoggerManager) (name : Str) : LoggerManager × Logger :=
  match m.loggers name with
  | some logger => (m, logger)
  | none => (m.put name (Logger.create name), Logger.create name)

/-- What is put where a logger was got is the only change. -/
theorem put_getLogger (m : LoggerManager) (name : Str) (logger : Logger) :
    (m.getLogger name).1.put name logger = m.put name logger := by
  rw [getLogger]
  split
  · rfl
  · exact congrArg (fun loggers => LoggerManager.mk loggers m.root) (Function.update_idem ..)

theorem getLogger_snd (m : LoggerManager) (name : Str) :
    (m.getLogger name).2 = (m.loggers name).getD (Logger.create name) := by
  rw [getLogger]
  split <;> rename_i h <;> rw [h] <;> rfl

end LoggerManager

end Sylar
