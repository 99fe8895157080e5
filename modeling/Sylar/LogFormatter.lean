import Sylar.Yaml

/-! # Log patterns

`LogFormatter::init` reads its pattern once from left to right.  `ScanMode` is where its loops
stand between two characters; behind the last character the mode decides what is still read. -/
namespace Sylar

/-- What has no defined behaviour in the code. -/
inductive LogFault
  /-- A null pointer to a logger is followed. -/
  | nullLogger
  /-- `m_pattern` is read behind its terminator. -/
  | outOfRange
  deriving DecidableEq, Repr

/-- `LogFormatter::FormatItem` and the classes derived from it. -/
inductive FormatItem
  | message
  | level
  | elapse
  | name
  | threadId
  | newLine
  | filename
  | line
  | tab
  | fiberId
  | threadName
  | dateTime (format : Str)
  | string (str : Str)
  deriving DecidableEq, Repr

/-- `s_format_items` -/
def formatItem : Char → Option FormatItem
  | 'm' => some .message
  | 'p' => some .level
  | 'r' => some .elapse
  | 'c' => some .name
  | 't' => some .threadId
  | 'n' => some .newLine
  | 'f' => some .filename
  | 'l' => some .line
  | 'T' => some .tab
  | 'F' => some .fiberId
  | 'N' => some .threadName
  | _ => none

/-- An entry of `patterns`: a run of regular characters, or the character behind a `%`. -/
inductive Symbol
  | regular (str : Str)
  | inner (c : Char)
  deriving DecidableEq, Repr

/-- Where the loops of `init` stand. -/
inductive ScanMode
  /-- `parsingString` -/
  | text
  /-- Behind a `%`. -/
  | escape
  /-- Behind a `%d`. -/
  | date
  /-- In the loop up to a `}`. -/
  | braces
  deriving DecidableEq, Repr

/-- The variables of `init`. -/
structure Scan where
  mode : ScanMode := .text
  patterns : List Symbol := []
  tmp : Str := []
  dateFormat : Str := []
  deriving DecidableEq, Repr

namespace Scan

/-- `patterns` with what is left in `tmp`. -/
def flushed (s : Scan) : List Symbol :=
  if s.tmp = [] then s.patterns else s.patterns ++ [.regular s.tmp]

/-- A turn of the outer loop while `parsingString` is true. -/
def readText (s : Scan) (c : Char) : Scan :=
  if c = '%' then { s with mode := .escape, patterns := s.flushed, tmp := [] }
  else { s with mode := .text, tmp := s.tmp ++ [c] }

/-- A character of the pattern.  All `%d` share one `dateFormat`. -/
def read (s : Scan) (c : Char) : Scan :=
  match s.mode with
  | .text => s.readText c
  | .escape =>
    { s with mode := if c = 'd' then .date else .text, patterns := s.patterns ++ [.inner c] }
  | .date => if c = '{' then { s with mode := .braces } else s.readText c
  | .braces =>
    if c = '}' then { s with mode := .text } else { s with dateFormat := s.dateFormat ++ [c] }

/-- The item of an entry of `patterns`. -/
def item (s : Scan) : Symbol → Option FormatItem
  | .regular str => some (.string str)
  | .inner c =>
    if c = 'd' then
      some (.dateTime (if s.dateFormat = [] then "%Y:%m:%d %H:%M:%S".toList else s.dateFormat))
    else formatItem c

end Scan

/-- `LogFormatter` -/
structure LogFormatter where
  pattern : Str
  items : List FormatItem
  error : Bool
  deriving DecidableEq, Repr

namespace LogFormatter

/-- `LogFormatter::LogFormatter`.  Behind a `%d` that ends the pattern, `i` is one past
`m_pattern.size()` where `m_pattern[i]` is compared with the closing brace. -/
def create (pattern : Str) : Except LogFault LogFormatter :=
  let s := pattern.foldl Scan.read {}
  if s.mode = .date then .error .outOfRange
  else
    .ok {
      pattern
      items := s.flushed.filterMap s.item
      error := s.mode = .braces || s.flushed.any fun p => (s.item p).isNone }

/-- What the pattern is, and that `init` finds no error in it. -/
def accepts (pattern : Str) : Bool :=
  match create pattern with
  | .ok f => !f.error
  | .error _ => false

theorem create_pattern {pattern : Str} {f : LogFormatter} (h : create pattern = .ok f) :
    f.pattern = pattern := by
  unfold create at h
  dsimp only at h
  split at h
  · cases h
  · cases h
    rfl

/-- The pattern of a new logger. -/
def defaultPattern : Str :=
  "%d{%Y-%m-%d %H:%M:%S}%T%t%T%N%T%F%T[%p]%T[%c]%T%f:%l%T%m%n".toList

/-- What a new logger makes of it. -/
def defaultFormatter : LogFormatter where
  pattern := defaultPattern
  items := [.dateTime "%Y-%m-%d %H:%M:%S".toList, .tab, .threadId, .tab, .threadName, .tab,
    .fiberId, .tab, .string ['['], .level, .string [']'], .tab, .string ['['], .name,
    .string [']'], .tab, .filename, .string [':'], .line, .tab, .message, .newLine]
  error := false

example : create defaultPattern = .ok defaultFormatter := by decide +kernel

end LogFormatter

end Sylar
