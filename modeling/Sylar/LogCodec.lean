import Sylar.LogDefine

/-! # The YAML form of the configuration of loggers

The two specialisations of `LexicalCast`, on node trees: what is printed is taken to be read back
as the same tree.

The encoder makes a node of every definition and puts none of them into the node that it prints,
so that only the empty set is read back: **`decode_encode_iff`**.  Nor is a definition read back
from its own node (`decodeDefine_encodeDefine`): a formatter is written only if it is empty, the
`file` of an appender is looked for next to `appenders`, and the level of an appender is not
read. -/
namespace Sylar.LogCodec
open Yaml

/-! ## `LexicalCast<std::set<LogDefine>, std::string>` -/

def nameKey : Str := "name".toList
def levelKey : Str := "level".toList
def formatterKey : Str := "formatter".toList
def appendersKey : Str := "appenders".toList
def typeKey : Str := "type".toList
def fileKey : Str := "file".toList

/-- `appenderNode` -/
def encodeAppender (appender : LogAppenderDefine) : Yaml :=
  let node : Yaml := .null
  let node :=
    if appender.type = 1 then
      (node.set typeKey (.scalar "FileLogAppender".toList)).set fileKey (.scalar appender.file)
    else node.setIf (appender.type = 2) typeKey (.scalar "StdoutLogAppender".toList)
  let node := node.setIf (appender.level ≠ .unknow) levelKey (.scalar appender.level.toString)
  node.setIf (appender.formatter ≠ []) formatterKey (.scalar appender.formatter)

/-- `curNode` before the loop over the appenders. -/
def encodeHead (ld : LogDefine) : Yaml :=
  let node := Yaml.null.set nameKey (.scalar ld.name)
  let node := node.setIf (ld.level ≠ .unknow) levelKey (.scalar ld.level.toString)
  node.setIf (ld.formatter = []) formatterKey (.scalar ld.formatter)

/-- `curNode` -/
def encodeDefine (ld : LogDefine) : Yaml :=
  (ld.appenders.map encodeAppender).foldl (fun node item => node.pushAt appendersKey item)
    (encodeHead ld)

/-- The loop keeps `node`, and `curNode` for one turn. -/
def encode (val : LogDefineSet) : Yaml :=
  (val.1.foldl (fun nodes logDefine => (nodes.1, encodeDefine logDefine)) (.null, .null)).1

/-! ## `LexicalCast<std::string, std::set<LogDefine>>`

The outer option is empty where yaml-cpp throws, the inner one where the loop goes on to the
next entry. -/

/-- `node[key].IsDefined() ? node[key].as<std::string>() : ""` -/
def readString (node : Yaml) (key : Str) : Option Str := do
  match ← node.lookup key with
  | none => return []
  | some value => value.asString

/-- An entry of `appenders`. -/
def decodeAppender (curNode : Yaml) : Option Yaml → Option (Option LogAppenderDefine)
  | none => return none
  | some node => do
    match ← node.lookup typeKey with
    | none => return none
    | some typeNode =>
      let type ← typeNode.asString
      if type = "FileLogAppender".toList then
        match ← curNode.lookup fileKey with
        | none => return none
        | some _ =>
          let file ← (← node.lookup fileKey).bind asString
          let formatter ← readString node formatterKey
          return some { type := 1, file, formatter }
      else if type = "StdoutLogAppender".toList then
        let formatter ← readString node formatterKey
        return some { type := 2, formatter }
      else return none

/-- The loop over `appenders`. -/
def decodeAppenders (curNode : Yaml) : List (Option Yaml) → Option (List LogAppenderDefine)
  | [] => some []
  | item :: items => do
    let appender ← decodeAppender curNode item
    let appenders ← decodeAppenders curNode items
    return appender.toList ++ appenders

/-- `curNode["appenders"]`, if it is there. -/
def readAppenders (curNode : Yaml) : Option (List LogAppenderDefine) := do
  match ← curNode.lookup appendersKey with
  | none => return []
  | some node => decodeAppenders curNode node.items

/-- An entry of the configuration. -/
def decodeDefine : Option Yaml → Option (Option LogDefine)
  | none => return none
  | some node => do
    match ← node.lookup nameKey with
    | none => return none
    | some nameNode =>
      let name ← nameNode.asString
      let level ← readString node levelKey
      let formatter ← readString node formatterKey
      let appenders ← readAppenders node
      return some { name, level := .fromString level, formatter, appenders }

/-- The loop over the entries. -/
def decodeFrom (st : LogDefineSet) : List (Option Yaml) → Option LogDefineSet
  | [] => some st
  | item :: items => do
    match ← decodeDefine item with
    | none => decodeFrom st items
    | some ld => decodeFrom (st.insert ld) items

def decode (node : Yaml) : Option LogDefineSet := decodeFrom .empty node.items

/-! ## What is read back -/

/-- No definition gets into the node. -/
theorem encode_eq (val : LogDefineSet) : encode val = .null := by
  have hnode : ∀ (l : List LogDefine) (nodes : Yaml × Yaml),
      (l.foldl (fun nodes logDefine => (nodes.1, encodeDefine logDefine)) nodes).1 = nodes.1 := by
    intro l
    induction l with
    | nil => exact fun _ => rfl
    | cons ld l ih => exact fun nodes => ih _
  exact hnode val.1 _

/-- **When the set is read back**: when it is empty. -/
theorem decode_encode_iff (val : LogDefineSet) :
    decode (encode val) = some val ↔ val = LogDefineSet.empty := by
  rw [encode_eq]
  show some LogDefineSet.empty = some val ↔ _
  rw [Option.some_inj, eq_comm]

/-! ### A definition and its own node -/

theorem lookup_type (a : LogAppenderDefine) :
    (encodeAppender a).lookup typeKey =
      some (if a.type = 1 then some (.scalar "FileLogAppender".toList)
        else if a.type = 2 then some (.scalar "StdoutLogAppender".toList) else none) := by
  unfold encodeAppender
  dsimp only
  split
  · rw [lookup_setIf_of_ne (takesKeys_setIf (takesKeys_set ..)) (by decide),
      lookup_setIf_of_ne (takesKeys_set ..) (by decide), lookup_set (takesKeys_set ..),
      if_neg (by decide), lookup_set rfl, if_pos rfl]
  · rw [lookup_setIf_of_ne (takesKeys_setIf (takesKeys_setIf rfl)) (by decide),
      lookup_setIf_of_ne (takesKeys_setIf rfl) (by decide), lookup_setIf_self rfl]
    by_cases htype : a.type = 2
    · rw [if_pos htype, if_pos (decide_eq_true htype)]
    · rw [if_neg htype, if_neg (by simpa using htype)]
      rfl

theorem readString_formatter {a : LogAppenderDefine} (h : a.type ≠ 1) :
    readString (encodeAppender a) formatterKey = some a.formatter := by
  unfold encodeAppender
  dsimp only
  rw [if_neg h, readString, lookup_setIf_self (takesKeys_setIf (takesKeys_setIf rfl))]
  by_cases hempty : a.formatter = []
  · rw [if_neg (by simpa using hempty), lookup_setIf_of_ne (takesKeys_setIf rfl) (by decide),
      lookup_setIf_of_ne rfl (by decide), hempty]
    rfl
  · rw [if_pos (decide_eq_true hempty)]
    rfl

/-- What is read of an appender: nothing of a file, the formatter of the standard output. -/
theorem decodeAppender_encodeAppender {curNode : Yaml} (h : curNode.lookup fileKey = some none)
    (a : LogAppenderDefine) :
    decodeAppender curNode (some (encodeAppender a)) =
      some (if a.type = 2 then some { type := 2, formatter := a.formatter } else none) := by
  rw [decodeAppender, lookup_type]
  by_cases hfile : a.type = 1
  · rw [if_pos hfile, if_neg (by rw [hfile]; decide)]
    show (do match ← curNode.lookup fileKey with | none => _ | some _ => _) = _
    rw [h]
    rfl
  rw [if_neg hfile]
  by_cases hstdout : a.type = 2
  · rw [if_pos hstdout, if_pos hstdout]
    show (do let formatter ← readString (encodeAppender a) formatterKey; _) = _
    rw [readString_formatter hfile]
    rfl
  · rw [if_neg hstdout, if_neg hstdout]
    rfl

theorem decodeAppenders_encode {curNode : Yaml} (h : curNode.lookup fileKey = some none)
    (appenders : List LogAppenderDefine) :
    decodeAppenders curNode ((appenders.map encodeAppender).map some) =
      some ((appenders.filter fun a => a.type = 2).map fun a =>
        { type := 2, formatter := a.formatter }) := by
  induction appenders with
  | nil => rfl
  | cons a appenders ih =>
    rw [List.map_cons, List.map_cons, decodeAppenders, decodeAppender_encodeAppender h, ih]
    by_cases hstdout : a.type = 2
    · rw [if_pos hstdout, List.filter_cons, if_pos (decide_eq_true hstdout)]
      rfl
    · rw [if_neg hstdout, List.filter_cons, if_neg (by simpa using hstdout)]
      rfl

section Head
variable (ld : LogDefine)

theorem takesKeys_head : (encodeHead ld).TakesKeys = true :=
  takesKeys_setIf (takesKeys_setIf (takesKeys_set ..))

theorem lookup_head_name : (encodeHead ld).lookup nameKey = some (some (.scalar ld.name)) := by
  rw [encodeHead, lookup_setIf_of_ne (takesKeys_setIf (takesKeys_set ..)) (by decide),
    lookup_setIf_of_ne (takesKeys_set ..) (by decide), lookup_set rfl, if_pos rfl]

theorem lookup_head_other {key : Str} (hname : nameKey ≠ key) (hlevel : levelKey ≠ key)
    (hformatter : formatterKey ≠ key) : (encodeHead ld).lookup key = some none := by
  rw [encodeHead, lookup_setIf_of_ne (takesKeys_setIf (takesKeys_set ..)) hformatter,
    lookup_setIf_of_ne (takesKeys_set ..) hlevel, lookup_set rfl, if_neg hname]
  rfl

/-- The level, where a level that has no text is not known. -/
theorem readString_head_level : (readString (encodeHead ld) levelKey).map LogLevel.fromString =
    some (if ld.level = .disabled then .unknow else ld.level) := by
  rw [readString, encodeHead, lookup_setIf_of_ne (takesKeys_setIf (takesKeys_set ..)) (by decide),
    lookup_setIf_self (takesKeys_set ..)]
  by_cases hlevel : ld.level = .unknow
  · rw [if_neg (by simpa using hlevel), lookup_set rfl, if_neg (by decide), hlevel]
    decide
  · rw [if_pos (decide_eq_true hlevel), ← LogLevel.fromString_toString]
    rfl

/-- A formatter is written only if it is empty. -/
theorem readString_head_formatter : readString (encodeHead ld) formatterKey = some [] := by
  rw [readString, encodeHead, lookup_setIf_self (takesKeys_setIf (takesKeys_set ..))]
  by_cases hempty : ld.formatter = []
  · rw [if_pos (decide_eq_true hempty), hempty]
    rfl
  · rw [if_neg (by simpa using hempty), lookup_setIf_of_ne (takesKeys_set ..) (by decide),
      lookup_set rfl, if_neg (by decide)]
    rfl

end Head

theorem readAppenders_encode (ld : LogDefine)
    (hfile : (encodeDefine ld).lookup fileKey = some none) :
    readAppenders (encodeDefine ld) = some ((ld.appenders.filter fun a => a.type = 2).map fun a =>
      { type := 2, formatter := a.formatter }) := by
  have hhead := @lookup_head_other ld appendersKey (by decide) (by decide) (by decide)
  have hdecode := decodeAppenders_encode hfile ld.appenders
  rw [readAppenders]
  cases happenders : ld.appenders with
  | nil =>
    have hnode : (encodeDefine ld).lookup appendersKey = some none := by
      rw [encodeDefine, happenders]
      exact hhead
    rw [hnode]
    rfl
  | cons a appenders =>
    have hnode : (encodeDefine ld).lookup appendersKey =
        some (some (.sequence ((a :: appenders).map encodeAppender))) := by
      rw [encodeDefine, happenders]
      exact lookup_pushAll (takesKeys_head ld) hhead ..
    rw [happenders] at hdecode
    rw [hnode]
    exact hdecode

/-- **What is read of a definition from its own node.** -/
theorem decodeDefine_encodeDefine (ld : LogDefine) :
    decodeDefine (some (encodeDefine ld)) =
      some (some {
        name := ld.name
        level := if ld.level = .disabled then .unknow else ld.level
        appenders := (ld.appenders.filter fun a => a.type = 2).map fun a =>
          { type := 2, formatter := a.formatter } }) := by
  have hother : ∀ {key : Str}, appendersKey ≠ key →
      (encodeDefine ld).lookup key = (encodeHead ld).lookup key := fun hkey =>
    lookup_pushAll_of_ne (takesKeys_head ld) hkey _
  have hread : ∀ {key : Str}, appendersKey ≠ key →
      readString (encodeDefine ld) key = readString (encodeHead ld) key := by
    intro key hkey
    rw [readString, readString, hother hkey]
  have hfile : (encodeDefine ld).lookup fileKey = some none := by
    rw [hother (by decide), lookup_head_other ld (by decide) (by decide) (by decide)]
  obtain ⟨level, hlevel, hfrom⟩ := Option.map_eq_some_iff.mp (readString_head_level ld)
  have hname : (encodeDefine ld).lookup nameKey = some (some (.scalar ld.name)) :=
    (hother (by decide)).trans (lookup_head_name ld)
  rw [decodeDefine, hname]
  show (do
    let level ← readString (encodeDefine ld) levelKey
    let formatter ← readString (encodeDefine ld) formatterKey
    let appenders ← readAppenders (encodeDefine ld)
    return some ({ name := ld.name, level := .fromString level, formatter, appenders } :
      LogDefine)) = _
  rw [hread (by decide), hread (by decide), hlevel, readString_head_formatter,
    readAppenders_encode ld hfile, ← hfrom]
  rfl

/-- One logger without a formatter and without appenders. -/
theorem one_logger_lost : ∃ val : LogDefineSet,
    val.1 = [{ name := "root".toList, level := .info }] ∧ decode (encode val) ≠ some val := by
  refine ⟨⟨[{ name := "root".toList, level := .info }], List.pairwise_singleton ..⟩, rfl, ?_⟩
  rw [encode_eq]
  intro h
  cases h

end Sylar.LogCodec
