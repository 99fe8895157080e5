import Mathlib.Data.Set.Basic

/-! # Maps that find their keys by a comparison

A container that is told how to compare keys promises something only where the comparison is a
strict weak order on the keys it is used with (`StrictWeakOn`); two keys are then one key of the
map when neither is less than the other (`equiv`).  `Lawful` is that promise for the three
operations that change or search a map, on the maps built with keys of such a set (`Built`).

**`Lawful.find_run`**: after any updates with such keys a search finds what the last update of an
equivalent key left.  `listOps` is a map that keeps the promise. -/
namespace OrderedMap
variable {K V M : Type} (lt : K → K → Bool)

/-- Neither key is less than the other. -/
def equiv (a b : K) : Bool := !lt a b && !lt b a

/-- The comparison is a strict weak order on these keys. -/
structure StrictWeakOn (S : Set K) : Prop where
  irrefl : ∀ a ∈ S, lt a a = false
  asymm : ∀ a ∈ S, ∀ b ∈ S, lt a b = true → lt b a = false
  trans : ∀ a ∈ S, ∀ b ∈ S, ∀ c ∈ S, lt a b = true → lt b c = true → lt a c = true
  equiv_trans : ∀ a ∈ S, ∀ b ∈ S, ∀ c ∈ S,
    equiv lt a b = true → equiv lt b c = true → equiv lt a c = true

variable {lt} {S : Set K}

theorem equiv_symm (a b : K) : equiv lt a b = equiv lt b a := Bool.and_comm ..

/-- Equivalent keys are equivalent to the same keys. -/
theorem StrictWeakOn.equiv_congr (h : StrictWeakOn lt S) {a b c : K} (ha : a ∈ S) (hb : b ∈ S)
    (hc : c ∈ S) (hab : equiv lt a b = true) : equiv lt c a = equiv lt c b := by
  have hba : equiv lt b a = true := (equiv_symm b a).trans hab
  refine Bool.eq_iff_iff.mpr ⟨fun hca => ?_, fun hcb => ?_⟩
  · exact h.equiv_trans c hc a ha b hb hca hab
  · exact h.equiv_trans c hc b hb a ha hcb hba

/-! ## Operations -/

/-- The operations of a map. -/
structure Ops (M K V : Type) where
  empty : M
  assign : M → K → V → M
  erase : M → K → M
  find : M → K → Option V

/-- An update of a map. -/
inductive Update (K V : Type)
  | set (key : K) (val : V)
  | del (key : K)
  deriving DecidableEq

/-- The key of an update. -/
def Update.key : Update K V → K
  | .set key _ => key
  | .del key => key

namespace Ops
variable (ops : Ops M K V)

def apply (m : M) : Update K V → M
  | .set key val => ops.assign m key val
  | .del key => ops.erase m key

/-- The map behind a list of updates. -/
def run (m : M) (updates : List (Update K V)) : M := updates.foldl ops.apply m

/-- The maps that are built by updates of these keys. -/
inductive Built (S : Set K) : M → Prop
  | empty : Built S ops.empty
  | apply {m : M} {u : Update K V} : Built S m → u.key ∈ S → Built S (ops.apply m u)

/-- **What a map promises** for a comparison: nothing unless it is a strict weak order on the
keys that are used. -/
structure Lawful (lt : K → K → Bool) : Prop where
  find_empty : ∀ {S : Set K}, StrictWeakOn lt S → ∀ k ∈ S, ops.find ops.empty k = none
  find_assign : ∀ {S : Set K}, StrictWeakOn lt S → ∀ {m}, ops.Built S m → ∀ key ∈ S, ∀ val,
    ∀ k ∈ S, ops.find (ops.assign m key val) k =
      if equiv lt key k then some val else ops.find m k
  find_erase : ∀ {S : Set K}, StrictWeakOn lt S → ∀ {m}, ops.Built S m → ∀ key ∈ S,
    ∀ k ∈ S, ops.find (ops.erase m key) k = if equiv lt key k then none else ops.find m k

end Ops

/-- What the last update of such a key leaves, `found` if there is none. -/
def latest (same : K → Bool) (found : Option V) : List (Update K V) → Option V
  | [] => found
  | .set key val :: updates => latest same (if same key then some val else found) updates
  | .del key :: updates => latest same (if same key then none else found) updates

/-- Only which of the keys count matters. -/
theorem latest_congr {same same' : K → Bool} {found : Option V} {updates : List (Update K V)}
    (h : ∀ u ∈ updates, same u.key = same' u.key) :
    latest same found updates = latest same' found updates := by
  induction updates generalizing found with
  | nil => rfl
  | cons u updates ih =>
    have hu := h u (List.mem_cons_self ..)
    have hrest : ∀ v ∈ updates, same v.key = same' v.key :=
      fun v hv => h v (List.mem_cons_of_mem u hv)
    cases u with
    | set key val =>
      rw [latest, latest, show same key = same' key from hu]
      exact ih hrest
    | del key =>
      rw [latest, latest, show same key = same' key from hu]
      exact ih hrest

namespace Ops.Lawful
variable {ops : Ops M K V}

/-- **Updates and a search**, from any map that was built so. -/
theorem find_run_from (h : ops.Lawful lt) (hS : StrictWeakOn lt S) {m : M} (hm : ops.Built S m)
    {updates : List (Update K V)} (hkeys : ∀ u ∈ updates, u.key ∈ S) {k : K} (hk : k ∈ S) :
    ops.find (ops.run m updates) k =
      latest (fun key => equiv lt key k) (ops.find m k) updates := by
  induction updates generalizing m with
  | nil => rfl
  | cons u updates ih =>
    have hu := hkeys u (List.mem_cons_self ..)
    have hnext := ih (hm.apply hu) fun v hv => hkeys v (List.mem_cons_of_mem u hv)
    cases u with
    | set key val => exact hnext.trans (by rw [latest, apply, h.find_assign hS hm key hu val k hk])
    | del key => exact hnext.trans (by rw [latest, apply, h.find_erase hS hm key hu k hk])

/-- **Updates and a search**: the last update of an equivalent key is found. -/
theorem find_run (h : ops.Lawful lt) (hS : StrictWeakOn lt S) {updates : List (Update K V)}
    (hkeys : ∀ u ∈ updates, u.key ∈ S) {k : K} (hk : k ∈ S) :
    ops.find (ops.run ops.empty updates) k =
      latest (fun key => equiv lt key k) none updates := by
  rw [h.find_run_from hS .empty hkeys hk, h.find_empty hS k hk]

end Ops.Lawful

/-! ## A list of entries -/

variable (lt)

/-- A map as the list of its entries: an update touches the equivalent keys. -/
def listOps : Ops (List (K × V)) K V where
  empty := []
  assign m key val := m.filter (fun e => !equiv lt e.1 key) ++ [(key, val)]
  erase m key := m.filter fun e => !equiv lt e.1 key
  find m k := (m.find? fun e => equiv lt e.1 k).map Prod.snd

variable {lt}

theorem listOps_keys {m : List (K × V)} (hm : (listOps lt).Built S m) : ∀ e ∈ m, e.1 ∈ S := by
  induction hm with
  | empty => intro e he; cases he
  | @apply m u _ hu ih =>
    intro e he
    cases u with
    | set key val =>
      rcases List.mem_append.mp he with he | he
      · exact ih e (List.mem_filter.mp he).1
      · rw [List.mem_singleton.mp he]
        exact hu
    | del key => exact ih e (List.mem_filter.mp he).1

/-- A search among the keys that are not equivalent to an updated one. -/
theorem find?_filter (hS : StrictWeakOn lt S) {m : List (K × V)} (hkeys : ∀ e ∈ m, e.1 ∈ S)
    {key k : K} (hkey : key ∈ S) (hk : k ∈ S) :
    (m.filter fun e => !equiv lt e.1 key).find? (fun e => equiv lt e.1 k) =
      if equiv lt key k then none else m.find? fun e => equiv lt e.1 k := by
  -- an entry that is equivalent to both keys makes them equivalent
  have hmeet : ∀ e ∈ m, equiv lt e.1 key = true → equiv lt e.1 k = equiv lt key k := by
    intro e he hek
    rw [equiv_symm e.1 k, equiv_symm key k]
    exact hS.equiv_congr (hkeys e he) hkey hk hek
  induction m with
  | nil => exact (ite_self _).symm
  | cons e m ih =>
    have hrest := ih (fun x hx => hkeys x (List.mem_cons_of_mem e hx))
      fun x hx => hmeet x (List.mem_cons_of_mem e hx)
    have hsame : equiv lt e.1 k = true → equiv lt e.1 key = equiv lt key k := by
      intro hek
      rw [equiv_symm key k]
      exact (equiv_symm _ _).trans <| ((hS.equiv_congr (hkeys e (List.mem_cons_self ..)) hk hkey
        hek).trans (equiv_symm _ _))
    have hmeet := hmeet e (List.mem_cons_self ..)
    rw [List.filter_cons, List.find?_cons]
    cases hkept : equiv lt e.1 key
    · rw [Bool.not_false, if_pos rfl, List.find?_cons]
      cases hfound : equiv lt e.1 k
      · exact hrest
      · rw [← hsame hfound, hkept, if_neg Bool.false_ne_true]
    · rw [Bool.not_true, if_neg Bool.false_ne_true, hrest, hmeet hkept]
      cases equiv lt key k <;> rfl

/-- The list keeps the promise. -/
theorem listOps_lawful : (listOps (V := V) lt).Lawful lt where
  find_empty _ _ _ := rfl
  find_assign := by
    intro S hS m hm key hkey val k hk
    have hfilter := find?_filter hS (listOps_keys hm) hkey hk
    show (((m.filter fun e => !equiv lt e.1 key) ++ [(key, val)]).find? _).map Prod.snd = _
    rw [List.find?_append, hfilter]
    by_cases hsame : equiv lt key k = true
    · rw [if_pos hsame, if_pos hsame, Option.none_or, List.find?_cons, hsame]
      rfl
    · rw [Bool.not_eq_true] at hsame
      rw [hsame, if_neg Bool.false_ne_true, if_neg Bool.false_ne_true, List.find?_cons, hsame,
        List.find?_nil, Option.or_none]
      rfl
  find_erase := by
    intro S hS m hm key hkey k hk
    show ((m.filter fun e => !equiv lt e.1 key).find? _).map Prod.snd = _
    rw [find?_filter hS (listOps_keys hm) hkey hk]
    split <;> rfl

end OrderedMap
