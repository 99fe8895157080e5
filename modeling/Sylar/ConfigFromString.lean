import Mathlib.Data.List.Nodup
import Sylar.ConfigVar
import Sylar.Yaml

/-! # `ConfigVar::fromString`

`fromString` parses a text and sets the value, inside one `try`: what the parser or a listener
throws is caught and written to the log.  Behind the `try` stands the only `return` of the
function, and it returns false.

**`allOrNothing_iff`**: what is returned is right only where nothing happens, because the text
is not one of a value or is that of the value the variable has. -/
namespace Sylar.Config

/-! ## The code -/

/-- A callback, as far as `setValue` sees it: for which old and new values it throws. -/
abbrev OnChangeCb (T : Type) := T → T → Bool

/-- `ConfigVar`, with the callbacks of `m_cbs` in the order of their keys. -/
structure CallbackVar (T : Type) where
  val : T
  cbs : List (Nat × OnChangeCb T)

/-- A call of the callback with this key. -/
structure Notice (T : Type) where
  key : Nat
  old : T
  new : T
  deriving DecidableEq

/-- How `setValue` ends: the variable, the calls that were made, and whether the last of them
has thrown. -/
structure SetOutcome (T : Type) where
  var : CallbackVar T
  notices : List (Notice T)
  thrown : Bool

/-- How `fromString` ends. -/
structure FromString (T : Type) where
  ret : Bool
  var : CallbackVar T
  notices : List (Notice T)

namespace CallbackVar
variable {T : Type}

/-- The loop over `m_cbs`. -/
def callLoop (old new : T) : List (Nat × OnChangeCb T) → List (Notice T) × Bool
  | [] => ([], false)
  | (key, cb) :: cbs =>
    if cb old new then ([⟨key, old, new⟩], true)
    else
      let r := callLoop old new cbs
      (⟨key, old, new⟩ :: r.1, r.2)

variable [DecidableEq T] (var : CallbackVar T)

/-- `ConfigVar::setValue`.  A callback that throws leaves before the value is stored. -/
def setValue (val : T) : SetOutcome T :=
  if val = var.val then ⟨var, [], false⟩
  else
    let r := callLoop var.val val var.cbs
    if r.2 then ⟨var, r.1, true⟩ else ⟨{ var with val }, r.1, false⟩

/-- `ConfigVar::fromString`, where `fromStr` has no value of a text for which `FromStr` throws.
The function goes on behind the `catch` as it does behind the `try`. -/
def fromString (fromStr : Str → Option T) (text : Str) : FromString T :=
  match fromStr text with
  | none => ⟨false, var, []⟩
  | some val =>
    let r := var.setValue val
    ⟨false, r.var, r.notices⟩

end CallbackVar

/-! ## What `setValue` does -/

namespace CallbackVar
variable {T : Type} {old new : T} {cbs : List (Nat × OnChangeCb T)}

/-- Where no callback throws, each is called once. -/
theorem callLoop_quiet (h : ∀ e ∈ cbs, e.2 old new = false) :
    callLoop old new cbs = (cbs.map fun e => ⟨e.1, old, new⟩, false) := by
  induction cbs with
  | nil => rfl
  | cons e cbs ih =>
    obtain ⟨hfirst, hrest⟩ := List.forall_mem_cons.mp h
    rw [callLoop, hfirst, ih hrest]
    rfl

/-- Where one throws, those up to the first such are called. -/
theorem callLoop_throws {quiet later : List (Nat × OnChangeCb T)} {e : Nat × OnChangeCb T}
    (hquiet : ∀ e ∈ quiet, e.2 old new = false) (hthrows : e.2 old new = true) :
    callLoop old new (quiet ++ e :: later) =
      ((quiet ++ [e]).map fun e => ⟨e.1, old, new⟩, true) := by
  induction quiet with
  | nil =>
    rw [List.nil_append, callLoop, hthrows]
    rfl
  | cons d quiet ih =>
    obtain ⟨hfirst, hrest⟩ := List.forall_mem_cons.mp hquiet
    rw [List.cons_append, callLoop, hfirst, ih hrest]
    rfl

/-- The first callback is always called. -/
theorem callLoop_ne_nil (h : cbs ≠ []) : (callLoop old new cbs).1 ≠ [] := by
  cases cbs with
  | nil => exact absurd rfl h
  | cons e cbs =>
    rw [callLoop]
    split
    · exact List.cons_ne_nil _ _
    · exact List.cons_ne_nil _ _

variable [DecidableEq T] {var : CallbackVar T} {val : T}

theorem setValue_same : var.setValue var.val = ⟨var, [], false⟩ := by
  rw [setValue, if_pos rfl]

/-- Where no callback throws, the value is stored. -/
theorem setValue_quiet (hne : val ≠ var.val) (h : ∀ e ∈ var.cbs, e.2 var.val val = false) :
    var.setValue val =
      ⟨{ var with val }, var.cbs.map fun e => ⟨e.1, var.val, val⟩, false⟩ := by
  rw [setValue, if_neg hne, callLoop_quiet h]
  rfl

/-- Where one throws, the value is not stored, but those up to it have been told of it. -/
theorem setValue_throws {quiet later : List (Nat × OnChangeCb T)} {e : Nat × OnChangeCb T}
    (hcbs : var.cbs = quiet ++ e :: later) (hne : val ≠ var.val)
    (hquiet : ∀ e ∈ quiet, e.2 var.val val = false) (hthrows : e.2 var.val val = true) :
    var.setValue val =
      ⟨var, (quiet ++ [e]).map fun e => ⟨e.1, var.val, val⟩, true⟩ := by
  rw [setValue, if_neg hne, hcbs, callLoop_throws hquiet hthrows]
  rfl

/-- A new value is told to a callback, or it is stored without. -/
theorem setValue_shows (hne : val ≠ var.val) :
    (var.setValue val).notices ≠ [] ∨ (var.setValue val).var.val = val := by
  by_cases hcbs : var.cbs = []
  · refine .inr ?_
    rw [setValue_quiet hne (by rw [hcbs]; exact fun e he => absurd he List.not_mem_nil)]
  · refine .inl ?_
    have htold : (callLoop var.val val var.cbs).1 ≠ [] := callLoop_ne_nil hcbs
    rw [setValue, if_neg hne]
    dsimp only
    split
    · exact htold
    · exact htold

/-- Where no callback throws, this is `setValue` of a variable whose listeners are the keys. -/
theorem setValue_refines {C : Type} (conv : Nat → T → C) {shared : ConfigVar Nat T C}
    (hval : shared.val = var.val) (hne : val ≠ var.val)
    (hquiet : ∀ e ∈ var.cbs, e.2 var.val val = false)
    (hkeys : (var.cbs.map Prod.fst).Nodup) {key : Nat} (hkey : key ∈ var.cbs.map Prod.fst) :
    (shared.setValue conv val).val = (var.setValue val).var.val ∧
      (shared.setValue conv val).seen key = shared.seen key ++
        ((var.setValue val).notices.filter fun n => n.key = key).map fun n => (n.old, n.new) := by
  rw [setValue_quiet hne hquiet, ConfigVar.setValue, if_neg (by rw [hval]; exact hne)]
  refine ⟨rfl, ?_⟩
  have honce : ((var.cbs.map fun e => (⟨e.1, var.val, val⟩ : Notice T)).filter
      fun n => n.key = key) = [⟨key, var.val, val⟩] := by
    have hmap : (var.cbs.map fun e => (⟨e.1, var.val, val⟩ : Notice T)) =
        (var.cbs.map Prod.fst).map fun k => ⟨k, var.val, val⟩ := by
      rw [List.map_map]
      rfl
    have hfilter : (var.cbs.map Prod.fst).filter (· = key) = [key] := by
      rw [List.filter_eq, List.count_eq_one_of_mem hkeys hkey]
      rfl
    rw [hmap, List.filter_map]
    exact congrArg (List.map fun k => (⟨k, var.val, val⟩ : Notice T)) hfilter
  show shared.seen key ++ [(shared.val, val)] = _
  rw [honce, hval]
  rfl

end CallbackVar

/-! ## What is asked of `fromString` -/

section FromString
variable {T : Type} [DecidableEq T] (fromStr : Str → Option T) (var : CallbackVar T) (text : Str)

/-- It returns true, the variable has the value of the text, and each callback was called once if
that is a new one; or it returns false, and nothing has happened. -/
def AllOrNothing : Prop :=
  ((var.fromString fromStr text).ret = true ∧ ∃ val, fromStr text = some val ∧
      (var.fromString fromStr text).var.val = val ∧
      (val ≠ var.val → (var.fromString fromStr text).notices.Perm
        (var.cbs.map fun e => ⟨e.1, var.val, val⟩))) ∨
    ((var.fromString fromStr text).ret = false ∧
      (var.fromString fromStr text).var.val = var.val ∧
      (var.fromString fromStr text).notices = [])

theorem fromString_ret : (var.fromString fromStr text).ret = false := by
  rw [CallbackVar.fromString]
  split
  · rfl
  · rfl

/-- **When what it returns is right**: where `FromStr` throws, or gives the value that the
variable has. -/
theorem allOrNothing_iff :
    AllOrNothing fromStr var text ↔ fromStr text = none ∨ fromStr text = some var.val := by
  have hret := fromString_ret fromStr var text
  rw [AllOrNothing, hret]
  constructor
  · rintro (⟨htrue, -⟩ | ⟨-, hval, hnotices⟩)
    · cases htrue
    · rw [CallbackVar.fromString] at hval hnotices
      cases hparse : fromStr text with
      | none => exact .inl rfl
      | some val =>
        rw [hparse] at hval hnotices
        by_cases hne : val = var.val
        · exact .inr (congrArg some hne)
        · rcases CallbackVar.setValue_shows hne with htold | hstored
          · exact absurd hnotices htold
          · exact absurd (hstored.symm.trans hval) hne
  · intro h
    refine .inr ⟨rfl, ?_⟩
    rw [CallbackVar.fromString]
    rcases h with hparse | hparse
    · rw [hparse]
      exact ⟨rfl, rfl⟩
    · rw [hparse]
      dsimp only
      rw [CallbackVar.setValue_same]
      exact ⟨rfl, rfl⟩

end FromString

/-- `FromStr` of one digit. -/
def digit : Str → Option Nat
  | [c] => if c.isDigit then some (c.toNat - '0'.toNat) else none
  | _ => none

/-- A variable with a callback that does not throw is set to 7, and false is returned. -/
theorem fromString_false_stored :
    ∃ var : CallbackVar Nat, var.val = 5 ∧
      (var.fromString digit ['7']).ret = false ∧ (var.fromString digit ['7']).var.val = 7 ∧
      (var.fromString digit ['7']).notices = [⟨1, 5, 7⟩] ∧ ¬ AllOrNothing digit var ['7'] := by
  refine ⟨⟨5, [(1, fun _ _ => false)]⟩, rfl, rfl, rfl, rfl, ?_⟩
  rintro (⟨htrue, -⟩ | ⟨-, hval, -⟩)
  · cases htrue
  · exact absurd hval (by decide)

end Sylar.Config
