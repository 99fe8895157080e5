import Mathlib.Data.List.Nodup
import Mathlib.Data.List.Basic

/-! # Tables and the updates that made them

A run of updates gives each key its `Latest` addition, if nothing that came behind it was about
the key.  Two tables are kept along the run: one that is indexed by the keys, and one that has its
entries in a row, where what is added goes to the end and what it replaces is erased.

**`Holds`** and **`Arranged`** are what is in the tables, and every update keeps them; in the
second one the entries are in the order of their latest additions. -/
namespace RecencyTable
variable {K V U : Type}

/-- What is done with one key. -/
inductive Update (K V : Type)
  | set (key : K) (val : V)
  | del (key : K)

def Update.key : Update K V → K
  | .set key _ => key
  | .del key => key

variable (about : U → Option (Update K V))

/-- The `i`-th step of a run gave `k` the value `v`, and none behind it was about `k`. -/
structure Latest (us : List U) (i : Nat) (k : K) (v : V) : Prop where
  set : ∃ u, us[i]? = some u ∧ about u = some (.set k v)
  last : ∀ j u w, i < j → us[j]? = some u → about u = some w → w.key ≠ k

variable {about}

theorem Latest.lt_length {us : List U} {i : Nat} {k : K} {v : V} (h : Latest about us i k v) :
    i < us.length := by
  obtain ⟨u, hu, -⟩ := h.set
  exact (List.getElem?_eq_some_iff.mp hu).1

/-- A key has one latest addition. -/
theorem Latest.unique {us : List U} {i j : Nat} {k : K} {v v' : V} (h : Latest about us i k v)
    (h' : Latest about us j k v') : i = j ∧ v = v' := by
  obtain ⟨u, hu, hset⟩ := h.set
  obtain ⟨u', hu', hset'⟩ := h'.set
  rcases Nat.lt_trichotomy i j with hlt | rfl | hgt
  · exact absurd rfl (h.last j u' _ hlt hu' hset')
  · cases Option.some.inj (hu.symm.trans hu')
    cases Option.some.inj (hset.symm.trans hset')
    exact ⟨rfl, rfl⟩
  · exact absurd rfl (h'.last i u _ hgt hu hset)

/-- A step is about one key. -/
theorem Latest.unique_key {us : List U} {i : Nat} {k k' : K} {v v' : V}
    (h : Latest about us i k v) (h' : Latest about us i k' v') : k = k' ∧ v = v' := by
  obtain ⟨u, hu, hset⟩ := h.set
  obtain ⟨u', hu', hset'⟩ := h'.set
  cases Option.some.inj (hu.symm.trans hu')
  cases Option.some.inj (hset.symm.trans hset')
  exact ⟨rfl, rfl⟩

/-- What is deleted has no latest addition as long as it is not added again. -/
theorem not_latest_of_del {before after : List U} {u : U} {k : K} (hu : about u = some (.del k))
    (hafter : ∀ x ∈ after, ∀ v, about x ≠ some (.set k v)) {i : Nat} {v : V} :
    ¬ Latest about (before ++ u :: after) i k v := by
  intro h
  obtain ⟨x, hx, hset⟩ := h.set
  rcases Nat.lt_trichotomy i before.length with hlt | rfl | hgt
  · -- it would be from before the deletion, which is about the key
    have hdel : (before ++ u :: after)[before.length]? = some u := by simp
    exact h.last _ u _ hlt hdel hu rfl
  · rw [List.getElem?_append_right (Nat.le_refl _), Nat.sub_self, List.getElem?_cons_zero] at hx
    cases hx
    rw [hu] at hset
    cases hset
  · obtain ⟨j, rfl⟩ : ∃ j, i = before.length + (j + 1) := ⟨i - before.length - 1, by omega⟩
    rw [List.getElem?_append_right (Nat.le_add_right _ _), Nat.add_sub_cancel_left,
      List.getElem?_cons_succ] at hx
    -- it would be from behind the deletion
    exact hafter x (List.mem_of_getElem? hx) v hset

/-- One more step adds what it sets, and takes away what its key had. -/
theorem latest_append {us : List U} {u : U} {i : Nat} {k : K} {v : V} :
    Latest about (us ++ [u]) i k v ↔
      (i = us.length ∧ about u = some (.set k v)) ∨
        (Latest about us i k v ∧ ∀ w, about u = some w → w.key ≠ k) := by
  constructor
  · intro h
    obtain ⟨u', hu', hset⟩ := h.set
    rcases Nat.lt_or_ge i us.length with hlt | hge
    · refine Or.inr ⟨⟨⟨u', ?_, hset⟩, fun j x w hij hx => ?_⟩, fun w => ?_⟩
      · rwa [List.getElem?_append_left hlt] at hu'
      · have hj : j < us.length := (List.getElem?_eq_some_iff.mp hx).1
        exact h.last j x w hij (by rwa [List.getElem?_append_left hj])
      · exact h.last us.length u w hlt List.getElem?_concat_length
    · have hi := h.lt_length
      rw [List.length_append, List.length_singleton] at hi
      obtain rfl : i = us.length := by omega
      rw [List.getElem?_concat_length] at hu'
      cases hu'
      exact Or.inl ⟨rfl, hset⟩
  · rintro (⟨rfl, hset⟩ | ⟨h, hother⟩)
    · refine ⟨⟨u, List.getElem?_concat_length, hset⟩, fun j x w hj hx => ?_⟩
      have hlen := (List.getElem?_eq_some_iff.mp hx).1
      rw [List.length_append, List.length_singleton] at hlen
      omega
    · obtain ⟨u', hu', hset⟩ := h.set
      refine ⟨⟨u', by rwa [List.getElem?_append_left h.lt_length], hset⟩, fun j x w hij hx hw => ?_⟩
      rcases Nat.lt_or_ge j us.length with hlt | hge
      · rw [List.getElem?_append_left hlt] at hx
        exact h.last j x w hij hx hw
      · have hj := (List.getElem?_eq_some_iff.mp hx).1
        rw [List.length_append, List.length_singleton] at hj
        obtain rfl : j = us.length := by omega
        rw [List.getElem?_concat_length] at hx
        cases hx
        exact hother w hw

theorem not_latest_nil {i : Nat} {k : K} {v : V} : ¬ Latest about [] i k v := by
  intro h
  exact Nat.not_lt_zero _ h.lt_length

/-- A step about nothing changes nothing. -/
theorem latest_append_of_none {us : List U} {u : U} (hu : about u = none) {i : Nat} {k : K}
    {v : V} : Latest about (us ++ [u]) i k v ↔ Latest about us i k v := by
  rw [latest_append, hu]
  simp

theorem latest_append_of_some {us : List U} {u : U} {w : Update K V} (hu : about u = some w)
    {i : Nat} {k : K} {v : V} :
    Latest about (us ++ [u]) i k v ↔
      (i = us.length ∧ w = .set k v) ∨ (Latest about us i k v ∧ w.key ≠ k) := by
  rw [latest_append, hu, Option.some.injEq]
  simp only [Option.some.injEq, forall_eq']

section Tables
variable [DecidableEq K]

/-! ## A table that is indexed by the keys -/

/-- An update of a table from keys to values. -/
def assign (t : K → Option V) : Update K V → K → Option V
  | .set key val => Function.update t key (some val)
  | .del key => Function.update t key none

variable (about) in
/-- The table has what was added latest. -/
def Holds (us : List U) (t : K → Option V) : Prop :=
  ∀ k v, t k = some v ↔ ∃ i, Latest about us i k v

omit [DecidableEq K] in
theorem holds_nil : Holds about [] fun _ => none := by
  intro k v
  refine iff_of_false (by simp) ?_
  rintro ⟨i, h⟩
  exact not_latest_nil h

omit [DecidableEq K] in
theorem Holds.skip {us : List U} {u : U} {t : K → Option V} (h : Holds about us t)
    (hu : about u = none) : Holds about (us ++ [u]) t := by
  intro k v
  rw [h]
  exact exists_congr fun i => (latest_append_of_none hu).symm

theorem Holds.assign {us : List U} {u : U} {w : Update K V} {t : K → Option V}
    (h : Holds about us t) (hu : about u = some w) : Holds about (us ++ [u]) (assign t w) := by
  intro k v
  by_cases hkey : w.key = k
  · -- what the table had of this key is gone
    have hnew : (∃ i, Latest about (us ++ [u]) i k v) ↔ w = .set k v := by
      simp only [latest_append_of_some hu]
      constructor
      · rintro ⟨i, ⟨-, hset⟩ | ⟨-, hother⟩⟩
        · exact hset
        · exact absurd hkey hother
      · intro hset
        exact ⟨us.length, Or.inl ⟨rfl, hset⟩⟩
    rw [hnew]
    cases w with
    | set key val =>
      obtain rfl : key = k := hkey
      rw [RecencyTable.assign, Function.update_self, Option.some.injEq]
      simp
    | del key =>
      obtain rfl : key = k := hkey
      rw [RecencyTable.assign, Function.update_self]
      simp
  · have hold : RecencyTable.assign t w k = t k := by
      cases w with
      | set key val => exact Function.update_of_ne (Ne.symm hkey) _ _
      | del key => exact Function.update_of_ne (Ne.symm hkey) _ _
    rw [hold, h]
    refine exists_congr fun i => ?_
    rw [latest_append_of_some hu]
    constructor
    · intro hi
      exact Or.inr ⟨hi, hkey⟩
    · rintro (⟨-, rfl⟩ | ⟨hi, -⟩)
      · exact absurd rfl hkey
      · exact hi

/-! ## A table in a row -/

/-- An update of a row: the first entry of the key goes, and what is added goes to the end. -/
def arrange (t : List (K × V)) : Update K V → List (K × V)
  | .set key val => t.eraseP (fun e => decide (e.1 = key)) ++ [(key, val)]
  | .del key => t.eraseP fun e => decide (e.1 = key)

variable (about) in
/-- The entries of the row are the latest additions, in their order: `dated` has the entries with
the steps that they are of. -/
structure Dated (us : List U) (dated : List (Nat × K × V)) : Prop where
  sorted : dated.Pairwise fun a b => a.1 < b.1
  mem_iff : ∀ i k v, (i, k, v) ∈ dated ↔ Latest about us i k v

omit [DecidableEq K] in
theorem dated_nil : Dated about ([] : List U) [] where
  sorted := List.Pairwise.nil
  mem_iff _ _ _ := iff_of_false (List.not_mem_nil) not_latest_nil

omit [DecidableEq K] in
theorem Dated.skip {us : List U} {u : U} {dated : List (Nat × K × V)} (h : Dated about us dated)
    (hu : about u = none) : Dated about (us ++ [u]) dated where
  sorted := h.sorted
  mem_iff i k v := (h.mem_iff i k v).trans (latest_append_of_none hu).symm

omit [DecidableEq K] in
/-- No key is there twice. -/
theorem Dated.keys_pairwise {us : List U} {dated : List (Nat × K × V)}
    (h : Dated about us dated) : dated.Pairwise fun a b => a.2.1 ≠ b.2.1 := by
  refine h.sorted.imp_of_mem fun {a b} ha hb hlt heq => ?_
  obtain ⟨i, k, v⟩ := a
  obtain ⟨j, k', v'⟩ := b
  obtain rfl : k = k' := heq
  have hij := ((h.mem_iff i k v).mp ha).unique ((h.mem_iff j k v').mp hb)
  exact absurd hlt (hij.1 ▸ Nat.lt_irrefl i)

/-- Where no key is there twice, the first entry of a key is all that there is of it. -/
theorem eraseP_eq_filter {dated : List (Nat × K × V)} (key : K)
    (h : dated.Pairwise fun a b => a.2.1 ≠ b.2.1) :
    dated.eraseP (fun e => decide (e.2.1 = key)) =
      dated.filter fun e => !decide (e.2.1 = key) := by
  induction dated with
  | nil => rfl
  | cons e rest ih =>
    rw [List.pairwise_cons] at h
    by_cases hkey : e.2.1 = key
    · have hrest : rest.filter (fun e => !decide (e.2.1 = key)) = rest := by
        refine List.filter_eq_self.mpr fun e' he' => ?_
        rw [decide_eq_false (fun heq => h.1 e' he' (hkey.trans heq.symm)), Bool.not_false]
      rw [List.eraseP_cons, List.filter_cons, decide_eq_true hkey, hrest]
      rfl
    · rw [List.eraseP_cons, List.filter_cons, decide_eq_false hkey, ih h.2]
      rfl

theorem map_eraseP_snd (dated : List (Nat × K × V)) (key : K) :
    (dated.eraseP fun e => decide (e.2.1 = key)).map Prod.snd =
      (dated.map Prod.snd).eraseP fun e => decide (e.1 = key) := by
  rw [List.eraseP_map]
  rfl

variable (about) in
/-- The row has what was added latest, in the order in which it was. -/
def Arranged (us : List U) (t : List (K × V)) : Prop :=
  ∃ dated, dated.map Prod.snd = t ∧ Dated about us dated

omit [DecidableEq K] in
theorem arranged_nil : Arranged about [] ([] : List (K × V)) := ⟨[], rfl, dated_nil⟩

omit [DecidableEq K] in
theorem Arranged.skip {us : List U} {u : U} {t : List (K × V)} (h : Arranged about us t)
    (hu : about u = none) : Arranged about (us ++ [u]) t := by
  obtain ⟨dated, rfl, hdated⟩ := h
  exact ⟨dated, rfl, hdated.skip hu⟩

theorem Dated.erase {us : List U} {u : U} {key : K} {dated : List (Nat × K × V)}
    (h : Dated about us dated) (hu : about u = some (.del key)) :
    Dated about (us ++ [u]) (dated.eraseP fun e => decide (e.2.1 = key)) := by
  rw [eraseP_eq_filter key h.keys_pairwise]
  refine ⟨h.sorted.filter _, fun i k v => ?_⟩
  have hne : (!decide (k = key)) = true ↔ (Update.del key : Update K V).key ≠ k := by
    rw [Bool.not_eq_true', decide_eq_false_iff_not]
    exact ne_comm
  rw [List.mem_filter, h.mem_iff, latest_append_of_some hu, hne]
  refine (or_iff_right ?_).symm
  rintro ⟨-, hset⟩
  cases hset

theorem Dated.append {us : List U} {u : U} {key : K} {val : V} {dated : List (Nat × K × V)}
    (h : Dated about us dated) (hu : about u = some (.set key val)) :
    Dated about (us ++ [u])
      (dated.eraseP (fun e => decide (e.2.1 = key)) ++ [(us.length, key, val)]) := by
  rw [eraseP_eq_filter key h.keys_pairwise]
  refine ⟨?_, fun i k v => ?_⟩
  · rw [List.pairwise_append]
    refine ⟨h.sorted.filter _, List.pairwise_singleton _ _, fun e he e' he' => ?_⟩
    rw [List.mem_singleton] at he'
    subst he'
    exact ((h.mem_iff e.1 e.2.1 e.2.2).mp (List.mem_of_mem_filter he)).lt_length
  · have hne : (!decide (k = key)) = true ↔ (Update.set key val).key ≠ k := by
      rw [Bool.not_eq_true', decide_eq_false_iff_not]
      exact ne_comm
    rw [List.mem_append, List.mem_filter, h.mem_iff, List.mem_singleton, latest_append_of_some hu,
      hne, or_comm, Prod.mk.injEq, Prod.mk.injEq, Update.set.injEq, eq_comm (a := k),
      eq_comm (a := v)]

theorem Arranged.arrange {us : List U} {u : U} {w : Update K V} {t : List (K × V)}
    (h : Arranged about us t) (hu : about u = some w) :
    Arranged about (us ++ [u]) (arrange t w) := by
  obtain ⟨dated, rfl, hdated⟩ := h
  cases w with
  | set key val =>
    refine ⟨_, ?_, hdated.append hu⟩
    rw [RecencyTable.arrange, List.map_append, map_eraseP_snd]
    rfl
  | del key => exact ⟨_, map_eraseP_snd dated key, hdated.erase hu⟩

omit [DecidableEq K] in
theorem Arranged.nodup_keys {us : List U} {t : List (K × V)} (h : Arranged about us t) :
    (t.map Prod.fst).Nodup := by
  obtain ⟨dated, rfl, hdated⟩ := h
  rw [List.map_map]
  exact List.pairwise_map.mpr hdated.keys_pairwise

omit [DecidableEq K] in
theorem Arranged.mem_iff {us : List U} {t : List (K × V)} (h : Arranged about us t) {k : K}
    {v : V} : (k, v) ∈ t ↔ ∃ i, Latest about us i k v := by
  obtain ⟨dated, rfl, hdated⟩ := h
  rw [List.mem_map]
  constructor
  · rintro ⟨⟨i, e⟩, he, rfl⟩
    exact ⟨i, (hdated.mem_iff i k v).mp he⟩
  · rintro ⟨i, hi⟩
    exact ⟨(i, k, v), (hdated.mem_iff i k v).mpr hi, rfl⟩

omit [DecidableEq K] in
/-- What a search from the front finds is what was added first of what would do. -/
theorem Arranged.find? {us : List U} {t : List (K × V)} (h : Arranged about us t)
    (would : K × V → Bool) {k : K} {v : V} (hfind : t.find? would = some (k, v)) :
    would (k, v) = true ∧ ∃ i, Latest about us i k v ∧
      ∀ j k' v', Latest about us j k' v' → would (k', v') = true → i ≤ j := by
  refine ⟨List.find?_some hfind, ?_⟩
  obtain ⟨dated, rfl, hdated⟩ := h
  obtain ⟨-, before, behind, hsplit, hbefore⟩ := List.find?_eq_some_iff_append.mp hfind
  obtain ⟨front, rest, rfl, rfl, hrest⟩ := List.map_eq_append_iff.mp hsplit
  obtain ⟨⟨i, e⟩, back, rfl, rfl, rfl⟩ := List.map_eq_cons_iff.mp hrest
  refine ⟨i, (hdated.mem_iff i k v).mp (by simp), fun j k' v' hj hwould => ?_⟩
  have hmem := (hdated.mem_iff j k' v').mpr hj
  have hsorted := hdated.sorted
  rw [List.pairwise_append, List.pairwise_cons] at hsorted
  rw [List.mem_append, List.mem_cons] at hmem
  -- what is in front would not do, and what is behind is of a later step
  rcases hmem with hfront | heq | hback
  · have hno := hbefore (k', v') (List.mem_map_of_mem (f := Prod.snd) hfront)
    rw [hwould] at hno
    cases hno
  · cases heq
    exact Nat.le_refl _
  · exact Nat.le_of_lt (hsorted.2.1.1 _ hback)

end Tables

end RecencyTable
