import Mathlib.Data.Char
import Mathlib.Data.List.Lex
import Sylar.OrderedSet
import Sylar.Yaml

/-! # Log levels and the configuration of loggers -/
namespace Sylar

/-- `LogLevel::Level`, with the value `(LogLevel::Level)100` that no event reaches. -/
inductive LogLevel
  | unknow
  | debug
  | info
  | warn
  | error
  | fatal
  | disabled
  deriving DecidableEq, Repr

namespace LogLevel

/-- The number of a level. -/
def value : LogLevel → Nat
  | unknow => 0
  | debug => 1
  | info => 2
  | warn => 3
  | error => 4
  | fatal => 5
  | disabled => 100

instance : LE LogLevel := ⟨fun a b => a.value ≤ b.value⟩

instance (a b : LogLevel) : Decidable (a ≤ b) := inferInstanceAs (Decidable (a.value ≤ b.value))

/-- `LogLevel::ToString` -/
def toString : LogLevel → Str
  | debug => "DEBUG".toList
  | info => "INFO".toList
  | warn => "WARN".toList
  | error => "ERROR".toList
  | fatal => "FATAL".toList
  | unknow | disabled => "UNKNOW".toList

/-- `LogLevel::FromString` -/
def fromString (levelStr : Str) : LogLevel :=
  if levelStr = "debug".toList then debug
  else if levelStr = "info".toList then info
  else if levelStr = "warn".toList then warn
  else if levelStr = "error".toList then error
  else if levelStr = "fatal".toList then fatal
  else if levelStr = "DEBUG".toList then debug
  else if levelStr = "INFO".toList then info
  else if levelStr = "WARN".toList then warn
  else if levelStr = "ERROR".toList then error
  else if levelStr = "FATAL".toList then fatal
  else unknow

/-- A level is read back from its text, unless it has none. -/
theorem fromString_toString (level : LogLevel) :
    fromString level.toString = if level = disabled then unknow else level := by
  cases level <;> decide

end LogLevel

/-- `LogAppenderDefine`: type 1 is a file, type 2 the standard output. -/
structure LogAppenderDefine where
  type : Int := 0
  level : LogLevel := .unknow
  formatter : Str := []
  file : Str := []
  deriving DecidableEq, Repr

/-- `LogDefine` -/
structure LogDefine where
  name : Str := []
  level : LogLevel := .unknow
  formatter : Str := []
  appenders : List LogAppenderDefine := []
  deriving DecidableEq, Repr

namespace LogDefine

/-- `LogDefine::operator==`: the levels are not compared, each only has to be known. -/
def same (a other : LogDefine) : Bool :=
  a.name == other.name && a.level != .unknow && other.level != .unknow &&
    a.formatter == other.formatter && a.appenders == other.appenders

/-- `LogDefine::operator<` -/
def lt (a other : LogDefine) : Bool := a.name < other.name

end LogDefine

/-- `std::set<LogDefine>` -/
abbrev LogDefineSet := { l : List LogDefine // OrderedSet.Ordered LogDefine.name l }

namespace LogDefineSet
open OrderedSet

def empty : LogDefineSet := ⟨[], List.Pairwise.nil⟩

theorem lt_iff (a b : LogDefine) : a.lt b = true ↔ a.name < b.name := decide_eq_true_iff

def insert (st : LogDefineSet) (ld : LogDefine) : LogDefineSet :=
  ⟨OrderedSet.insert LogDefine.lt ld st.1, Ordered.insert lt_iff st.2 ld⟩

/-- `find`, which compares the names only. -/
def find (st : LogDefineSet) (ld : LogDefine) : Option LogDefine :=
  OrderedSet.find LogDefine.lt ld st.1

end LogDefineSet

end Sylar
