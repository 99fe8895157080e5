import Mathlib.Data.List.Basic

/-! # YAML trees

The node trees that `YAML::Load` returns and `operator<<` prints.  The entries of a map are in
document order, and a key may be there twice. -/
namespace Sylar

/-- `std::string` -/
abbrev Str := List Char

/-- `YAML::Node` -/
inductive Yaml
  | null
  | scalar (text : Str)
  | sequence (items : List Yaml)
  | map (entries : List (Yaml × Yaml))

namespace Yaml

/-- `Scalar()`, which is empty for a node that is not a scalar. -/
def scalarText : Yaml → Str
  | .scalar text => text
  | .null | .sequence _ | .map _ => []

/-- The node is this key. -/
def isKey (key : Str) : Yaml → Bool
  | .scalar text => text = key
  | .null | .sequence _ | .map _ => false

/-- The value of the first entry with this key. -/
def entry (key : Str) (entries : List (Yaml × Yaml)) : Option Yaml :=
  (entries.find? fun e => e.1.isKey key).map Prod.snd

/-- `node[key]`: nothing where it throws, and then whether the value is defined. -/
def lookup (key : Str) : Yaml → Option (Option Yaml)
  | .map entries => some (entry key entries)
  | .null | .sequence _ => some none
  | .scalar _ => none

/-- `node[0]`, `node[1]` and so on below `node.size()`, and whether each is defined. -/
def items : Yaml → List (Option Yaml)
  | .sequence items => items.map some
  | .map entries => (List.range entries.length).map fun i => entry (toString i).toList entries
  | .null | .scalar _ => []

/-- `as<std::string>()`, if it does not throw. -/
def asString : Yaml → Option Str
  | .scalar text => some text
  | .null => some "null".toList
  | .sequence _ | .map _ => none

/-- The entries behind `node[key] = value`. -/
def assign (key : Str) (value : Yaml) : List (Yaml × Yaml) → List (Yaml × Yaml)
  | [] => [(.scalar key, value)]
  | e :: entries =>
    if e.1.isKey key then (e.1, value) :: entries else e :: assign key value entries

/-- `node[key] = value`, for a node that is null or a map. -/
def set (node : Yaml) (key : Str) (value : Yaml) : Yaml :=
  match node with
  | .map entries => .map (assign key value entries)
  | .null | .scalar _ | .sequence _ => .map (assign key value [])

/-- `if ( p ) node[key] = value` -/
def setIf (p : Bool) (node : Yaml) (key : Str) (value : Yaml) : Yaml :=
  if p then node.set key value else node

/-- `node.push_back( item )`, for a node that is null or a sequence. -/
def pushBack (item : Yaml) : Yaml → Yaml
  | .sequence items => .sequence (items ++ [item])
  | .null | .scalar _ | .map _ => .sequence [item]

/-- `node[key].push_back( item )` -/
def pushAt (node : Yaml) (key : Str) (item : Yaml) : Yaml :=
  node.set key (pushBack item ((node.lookup key).join.getD .null))

/-! ## Looking up what was assigned -/

variable {node : Yaml} {key key' : Str} {value : Yaml}

theorem isKey_scalar : isKey key' (.scalar key) = true ↔ key = key' := decide_eq_true_iff

theorem isKey_iff : isKey key node = true ↔ node = .scalar key := by
  cases node with
  | scalar text => exact isKey_scalar.trans ⟨congrArg scalar, scalar.inj⟩
  | null | sequence _ | map _ => exact iff_of_false Bool.false_ne_true (by rintro ⟨⟩)

theorem entry_cons (e : Yaml × Yaml) (entries : List (Yaml × Yaml)) :
    entry key (e :: entries) = if e.1.isKey key then some e.2 else entry key entries := by
  rw [entry, List.find?_cons]
  cases e.1.isKey key <;> rfl

theorem entry_assign (entries : List (Yaml × Yaml)) :
    entry key' (assign key value entries) =
      if key = key' then some value else entry key' entries := by
  induction entries with
  | nil =>
    rw [assign, entry_cons]
    exact if_congr isKey_scalar rfl rfl
  | cons e entries ih =>
    rw [assign]
    split
    · rename_i hkey
      rw [entry_cons, entry_cons, isKey_iff.mp hkey]
      by_cases hsame : key = key'
      · rw [if_pos hsame, if_pos (isKey_scalar.mpr hsame)]
      · have hother := mt isKey_scalar.mp hsame
        rw [if_neg hsame, if_neg hother, if_neg hother]
    · rename_i hkey
      rw [entry_cons, ih, entry_cons]
      by_cases hsame : key = key'
      · rw [if_pos hsame, if_neg (hsame ▸ hkey), if_pos hsame]
      · rw [if_neg hsame, if_neg hsame]

/-- Null and maps take keys. -/
def TakesKeys : Yaml → Bool
  | .null | .map _ => true
  | .scalar _ | .sequence _ => false

theorem takesKeys_set (node : Yaml) (key : Str) (value : Yaml) :
    (node.set key value).TakesKeys = true := by
  cases node <;> rfl

theorem lookup_set (h : node.TakesKeys = true) :
    (node.set key value).lookup key' =
      if key = key' then some (some value) else node.lookup key' := by
  cases node with
  | map entries =>
    show some (entry key' (assign key value entries)) = _
    rw [entry_assign]
    exact apply_ite some ..
  | null =>
    show some (entry key' (assign key value [])) = _
    rw [entry_assign]
    exact apply_ite some ..
  | scalar _ | sequence _ => cases h

theorem takesKeys_setIf {p : Bool} (h : node.TakesKeys = true) :
    (node.setIf p key value).TakesKeys = true := by
  cases p
  · exact h
  · exact takesKeys_set ..

theorem lookup_setIf_self {p : Bool} (h : node.TakesKeys = true) :
    (node.setIf p key value).lookup key = if p then some (some value) else node.lookup key := by
  cases p
  · rfl
  · exact (lookup_set h).trans (if_pos rfl)

theorem lookup_setIf_of_ne {p : Bool} (h : node.TakesKeys = true) (hkey : key ≠ key') :
    (node.setIf p key value).lookup key' = node.lookup key' := by
  cases p
  · rfl
  · exact (lookup_set h).trans (if_neg hkey)

theorem takesKeys_pushAt (node : Yaml) (key : Str) (item : Yaml) :
    (node.pushAt key item).TakesKeys = true :=
  takesKeys_set ..

/-- Pushing under one key leaves the others. -/
theorem lookup_pushAt_of_ne (h : node.TakesKeys = true) (hkey : key ≠ key') (item : Yaml) :
    (node.pushAt key item).lookup key' = node.lookup key' := by
  rw [pushAt, lookup_set h, if_neg hkey]

theorem lookup_pushAll_of_ne (h : node.TakesKeys = true) (hkey : key ≠ key') (items : List Yaml) :
    (items.foldl (fun node item => node.pushAt key item) node).lookup key' = node.lookup key' := by
  induction items generalizing node with
  | nil => rfl
  | cons item items ih =>
    rw [List.foldl_cons, ih (takesKeys_pushAt ..), lookup_pushAt_of_ne h hkey]

/-- Pushing items under a key that is not there makes the sequence of the items. -/
theorem lookup_pushAll (h : node.TakesKeys = true) (hnone : node.lookup key = some none)
    (item : Yaml) (items : List Yaml) :
    ((item :: items).foldl (fun node item => node.pushAt key item) node).lookup key =
      some (some (.sequence (item :: items))) := by
  have hgo : ∀ (items : List Yaml) {node : Yaml} {done : List Yaml}, node.TakesKeys = true →
      node.lookup key = some (some (.sequence done)) →
      (items.foldl (fun node item => node.pushAt key item) node).lookup key =
        some (some (.sequence (done ++ items))) := by
    intro items
    induction items with
    | nil =>
      intro node done _ hdone
      rw [List.append_nil]
      exact hdone
    | cons item items ih =>
      intro node done hnode hdone
      have hnext : (node.pushAt key item).lookup key =
          some (some (.sequence (done ++ [item]))) := by
        rw [pushAt, lookup_set hnode, if_pos rfl, hdone]
        rfl
      rw [List.foldl_cons, ih (takesKeys_pushAt ..) hnext, List.append_assoc]
      rfl
  have hfirst : (node.pushAt key item).lookup key = some (some (.sequence [item])) := by
    rw [pushAt, lookup_set h, if_pos rfl, hnone]
    rfl
  exact hgo items (takesKeys_pushAt ..) hfirst

end Yaml

end Sylar
