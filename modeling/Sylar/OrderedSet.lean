import Mathlib.Order.Lattice
import Mathlib.Data.List.Basic

/-! # A set kept in the order of its keys

An ordered set is a list whose elements have increasing keys in a linear order; the
test that a container uses, `lt`, compares the keys.  Elements with equal keys are one
element of the set, so an insertion next to one of them does nothing.

An insertion keeps the order (**`Ordered.insert`**) and either puts its element in
front or leaves the front, whose key is then no greater (**`head_insert`**).  A loop
that runs from the front as long as a test holds takes exactly the elements that pass it
(**`Ordered.takeWhile_eq_filter`**), if the test is true of a first part of the list. -/
namespace OrderedSet
variable {α K : Type} [LinearOrder K] {key key' : α → K} {lt : α → α → Bool} {a x : α}
  {l : List α}

/-- The elements have increasing keys. -/
def Ordered (key : α → K) (l : List α) : Prop := l.Pairwise fun x y => key x < key y

/-- An element is put in front of the first that is behind it, unless one is equal. -/
def insert (lt : α → α → Bool) (a : α) : List α → List α
  | [] => [a]
  | x :: l =>
    if lt a x then a :: x :: l else if lt x a then x :: insert lt a l else x :: l

/-- The element that is equal to `a` in the order. -/
def find (lt : α → α → Bool) (a : α) (l : List α) : Option α :=
  l.find? fun x => !lt x a && !lt a x

theorem mem_of_mem_insert (h : x ∈ insert lt a l) : x = a ∨ x ∈ l := by
  induction l with
  | nil => exact Or.inl (List.mem_singleton.mp h)
  | cons y l ih =>
    rw [insert] at h
    split_ifs at h
    · exact (List.mem_cons.mp h).imp id id
    · rcases List.mem_cons.mp h with rfl | h
      · exact Or.inr (List.mem_cons_self ..)
      · exact (ih h).imp id (List.mem_cons_of_mem y)
    · exact Or.inr h

theorem mem_insert_of_mem (h : x ∈ l) : x ∈ insert lt a l := by
  induction l with
  | nil => cases h
  | cons y l ih =>
    rw [insert]
    split_ifs
    · exact List.mem_cons_of_mem a h
    · rcases List.mem_cons.mp h with rfl | h
      · exact List.mem_cons_self ..
      · exact List.mem_cons_of_mem y (ih h)
    · exact h

theorem Ordered.nodup (h : Ordered key l) : l.Nodup :=
  h.imp fun hlt heq => absurd (heq ▸ hlt) (lt_irrefl _)

theorem Ordered.sublist {l' : List α} (h : Ordered key l) (hsub : l'.Sublist l) : Ordered key l' :=
  List.Pairwise.sublist hsub h

/-- The order depends on the keys of the elements only. -/
theorem Ordered.congr (h : Ordered key l) (hkey : ∀ x ∈ l, key' x = key x) : Ordered key' l :=
  List.Pairwise.imp_of_mem (fun hx hy hlt => by rwa [hkey _ hx, hkey _ hy]) h

/-- The first element has the least key. -/
theorem Ordered.head_le (h : Ordered key (a :: l)) : ∀ x ∈ a :: l, key a ≤ key x := by
  intro x hx
  rcases List.mem_cons.mp hx with rfl | hx
  · exact le_refl _
  · exact le_of_lt ((List.pairwise_cons.mp h).1 x hx)

/-- There is one element for a key. -/
theorem Ordered.eq_of_key {y : α} (h : Ordered key l) (hx : x ∈ l) (hy : y ∈ l)
    (heq : key x = key y) : x = y := by
  induction l with
  | nil => cases hx
  | cons z l ih =>
    obtain ⟨hz, hl⟩ := List.pairwise_cons.mp h
    rcases List.mem_cons.mp hx with rfl | hx' <;> rcases List.mem_cons.mp hy with rfl | hy'
    · rfl
    · exact absurd heq (hz y hy').ne
    · exact absurd heq.symm (hz x hx').ne
    · exact ih hl hx' hy'

section Insert
variable (hlt : ∀ a b, lt a b = true ↔ key a < key b)
include hlt

theorem Ordered.insert (h : Ordered key l) (a : α) : Ordered key (insert lt a l) := by
  induction l with
  | nil => exact List.pairwise_singleton ..
  | cons y l ih =>
    obtain ⟨hy, hl⟩ := List.pairwise_cons.mp h
    rw [OrderedSet.insert]
    split_ifs with hay hya
    · have hay := (hlt a y).mp hay
      refine List.pairwise_cons.mpr ⟨?_, h⟩
      exact fun z hz => lt_of_lt_of_le hay (h.head_le z hz)
    · refine List.pairwise_cons.mpr ⟨?_, ih hl⟩
      intro z hz
      rcases mem_of_mem_insert hz with rfl | hz
      · exact (hlt y z).mp hya
      · exact hy z hz
    · exact h

theorem mem_insert_self (hkey : Function.Injective key) (a : α) (l : List α) :
    a ∈ OrderedSet.insert lt a l := by
  induction l with
  | nil => exact List.mem_singleton.mpr rfl
  | cons y l ih =>
    rw [OrderedSet.insert]
    split_ifs with hay hya
    · exact List.mem_cons_self ..
    · exact List.mem_cons_of_mem y ih
    · have hle : key y ≤ key a := not_lt.mp fun h => hay ((hlt a y).mpr h)
      have hge : key a ≤ key y := not_lt.mp fun h => hya ((hlt y a).mpr h)
      rw [hkey (le_antisymm hge hle)]
      exact List.mem_cons_self ..

theorem mem_insert_iff (hkey : Function.Injective key) :
    x ∈ OrderedSet.insert lt a l ↔ x = a ∨ x ∈ l := by
  constructor
  · exact mem_of_mem_insert
  · rintro (rfl | h)
    · exact mem_insert_self hlt hkey x l
    · exact mem_insert_of_mem h

/-- Neither of two elements is less exactly where their keys are equal. -/
theorem same_iff : (!lt x a && !lt a x) = true ↔ key x = key a := by
  rw [Bool.and_eq_true, Bool.not_eq_true', Bool.not_eq_true', ← Bool.not_eq_true,
    ← Bool.not_eq_true, hlt, hlt, not_lt, not_lt]
  exact ⟨fun h => le_antisymm h.2 h.1, fun h => ⟨h.ge, h.le⟩⟩

theorem find_eq_none_iff : find lt a l = none ↔ ∀ x ∈ l, key x ≠ key a :=
  List.find?_eq_none.trans (forall₂_congr fun _ _ => not_congr (same_iff hlt))

theorem key_of_find (hfind : find lt a l = some x) : key x = key a := by
  have htest := List.find?_some hfind
  exact (same_iff hlt).mp htest

/-- What is found is the element with the key. -/
theorem Ordered.find_eq_some_iff (h : Ordered key l) :
    find lt a l = some x ↔ x ∈ l ∧ key x = key a := by
  constructor
  · intro hfind
    exact ⟨List.mem_of_find?_eq_some hfind, key_of_find hlt hfind⟩
  · rintro ⟨hx, hkey⟩
    cases hfind : find lt a l with
    | none => exact absurd hkey ((find_eq_none_iff hlt).mp hfind x hx)
    | some y =>
      rw [h.eq_of_key (List.mem_of_find?_eq_some hfind) hx
        ((key_of_find hlt hfind).trans hkey.symm)]

/-- An element of the set is found. -/
theorem find_of_mem (hkey : Function.Injective key) (h : a ∈ l) : find lt a l = some a := by
  cases hfind : find lt a l with
  | none => exact absurd rfl ((find_eq_none_iff hlt).mp hfind a h)
  | some it => rw [hkey (key_of_find hlt hfind)]

/-- **The front after an insertion.** -/
theorem head_insert (a : α) (l : List α) :
    (insert lt a l).head? = some a ∨
      ∃ x, l.head? = some x ∧ (insert lt a l).head? = some x ∧ key x ≤ key a := by
  cases l with
  | nil => exact Or.inl rfl
  | cons y l =>
    rw [insert]
    split_ifs with hay hya
    · exact Or.inl rfl
    · exact Or.inr ⟨y, rfl, rfl, le_of_lt ((hlt y a).mp hya)⟩
    · refine Or.inr ⟨y, rfl, rfl, ?_⟩
      exact not_lt.mp fun h => hay ((hlt a y).mpr h)

end Insert

/-! ## Prefixes

A test that is true of everything in front of an element of which it is true cuts an
ordered list in two. -/

section Prefix
variable {p : α → Bool}

/-- The test is true of what is in front of an element of which it is true. -/
def Initial (key : α → K) (l : List α) (p : α → Bool) : Prop :=
  ∀ x ∈ l, ∀ y ∈ l, key x < key y → p y = true → p x = true

theorem Initial.tail (h : Initial key (a :: l) p) : Initial key l p :=
  fun x hx y hy => h x (List.mem_cons_of_mem a hx) y (List.mem_cons_of_mem a hy)

theorem Ordered.takeWhile_eq_filter (h : Ordered key l) (hp : Initial key l p) :
    l.takeWhile p = l.filter p := by
  induction l with
  | nil => rfl
  | cons a l ih =>
    obtain ⟨ha, hl⟩ := List.pairwise_cons.mp h
    by_cases hpa : p a = true
    · rw [List.takeWhile_cons_of_pos hpa, List.filter_cons_of_pos hpa, ih hl hp.tail]
    · rw [List.takeWhile_cons_of_neg hpa, List.filter_cons_of_neg hpa, eq_comm,
        List.filter_eq_nil_iff]
      intro x hx hpx
      exact hpa (hp a (List.mem_cons_self ..) x (List.mem_cons_of_mem a hx) (ha x hx) hpx)

theorem Ordered.dropWhile_eq_filter (h : Ordered key l) (hp : Initial key l p) :
    l.dropWhile p = l.filter fun x => !p x := by
  induction l with
  | nil => rfl
  | cons a l ih =>
    obtain ⟨ha, hl⟩ := List.pairwise_cons.mp h
    by_cases hpa : p a = true
    · rw [List.dropWhile_cons_of_pos hpa, List.filter_cons_of_neg (by simp [hpa]), ih hl hp.tail]
    · rw [List.dropWhile_cons_of_neg hpa, eq_comm, List.filter_eq_self]
      intro x hx
      rcases List.mem_cons.mp hx with rfl | hxl
      · simpa using hpa
      · rw [Bool.not_eq_true']
        refine Bool.eq_false_iff.mpr fun hpx => ?_
        exact hpa (hp a (List.mem_cons_self ..) x hx (ha x hxl) hpx)

end Prefix
/-! ## Loops over a set

A loop over a set in which the turn of an element only touches what a table has under its key. -/

section Loops
variable {σ V ε : Type} {view : σ → K → V} {step : σ → α → Except ε σ} {after : V → α → V → Prop}
  {s t : σ}

/-- A turn changes what is under the key of its element as `after` has it, and nothing else, and
goes through if `after` allows for it. -/
structure Local (key : α → K) (view : σ → K → V) (step : σ → α → Except ε σ)
    (after : V → α → V → Prop) : Prop where
  here : ∀ {s t a}, step s a = .ok t → after (view s (key a)) a (view t (key a))
  elsewhere : ∀ {s t a}, step s a = .ok t → ∀ k, k ≠ key a → view t k = view s k
  completes : ∀ s a v, after (view s (key a)) a v → ∃ t, step s a = .ok t

/-- **What a loop does**: to each element what its turn does, and nothing else. -/
theorem Local.loop (h : Local key view step after) (hl : Ordered key l)
    (hrun : l.foldlM step s = .ok t) :
    (∀ a ∈ l, after (view s (key a)) a (view t (key a))) ∧
      ∀ k, (∀ a ∈ l, key a ≠ k) → view t k = view s k := by
  induction l generalizing s with
  | nil =>
    cases hrun
    exact ⟨fun a ha => absurd ha List.not_mem_nil, fun k _ => rfl⟩
  | cons b l ih =>
    obtain ⟨hb, hl⟩ := List.pairwise_cons.mp hl
    rw [List.foldlM_cons] at hrun
    cases hstep : step s b with
    | error e =>
      rw [hstep] at hrun
      cases hrun
    | ok u =>
      rw [hstep] at hrun
      obtain ⟨hrest, hframe⟩ := ih hl hrun
      constructor
      · intro a ha
        rcases List.mem_cons.mp ha with rfl | ha
        · rw [hframe (key a) fun c hc => (hb c hc).ne']
          exact h.here hstep
        · rw [← h.elsewhere hstep (key a) (hb a ha).ne']
          exact hrest a ha
      · intro k hk
        rw [hframe k fun c hc => hk c (List.mem_cons_of_mem b hc)]
        exact h.elsewhere hstep k (hk b (List.mem_cons_self ..)).symm

/-- A loop goes through if the turns of its elements do. -/
theorem Local.loop_completes (h : Local key view step after) (hl : Ordered key l)
    (hall : ∀ a ∈ l, ∃ v, after (view s (key a)) a v) : ∃ t, l.foldlM step s = .ok t := by
  induction l generalizing s with
  | nil => exact ⟨s, rfl⟩
  | cons b l ih =>
    obtain ⟨hb, hl⟩ := List.pairwise_cons.mp hl
    obtain ⟨v, hv⟩ := hall b (List.mem_cons_self ..)
    obtain ⟨u, hstep⟩ := h.completes s b v hv
    have hrest : ∀ a ∈ l, ∃ v, after (view u (key a)) a v := by
      intro a ha
      rw [h.elsewhere hstep (key a) (hb a ha).ne']
      exact hall a (List.mem_cons_of_mem b ha)
    obtain ⟨t, ht⟩ := ih hl hrest
    refine ⟨t, ?_⟩
    rw [List.foldlM_cons, hstep]
    exact ht

end Loops

end OrderedSet
