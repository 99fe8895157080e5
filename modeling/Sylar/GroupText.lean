import Mathlib.Algebra.Group.Nat.Defs
import Mathlib.Data.List.Chain

/-! # Groups of hexadecimal digits with one gap

Numbers of at most four hexadecimal digits are written with a colon between them, and two colons
in a row stand for as many zeros as are missing.  `expand` reads such a text.

**`expand_join`** and **`expand_gap`**: it takes back what is written without a gap, and with one
gap that stands for one number or more. -/
namespace GroupText

/-! ## Reading -/

def hexDigit (c : Char) : Option Nat :=
  if '0' ≤ c ∧ c ≤ '9' then some (c.toNat - '0'.toNat)
  else if 'a' ≤ c ∧ c ≤ 'f' then some (c.toNat - 'a'.toNat + 10)
  else if 'A' ≤ c ∧ c ≤ 'F' then some (c.toNat - 'A'.toNat + 10)
  else none

/-- The number of some digits that stand behind those of `v`. -/
def hexNumber : Nat → List Char → Option Nat
  | v, [] => some v
  | v, c :: s =>
    match hexDigit c with
    | some d => hexNumber (16 * v + d) s
    | none => none

/-- A group has one to four digits. -/
def hexGroup (s : List Char) : Option Nat :=
  if 1 ≤ s.length ∧ s.length ≤ 4 then hexNumber 0 s else none

/-- The groups of a text without a gap. -/
def groups (s : List Char) : Option (List Nat) :=
  if s = [] then some [] else (s.splitOn ':').mapM hexGroup

/-- What is before and behind the first two colons in a row. -/
def splitGap : List Char → Option (List Char × List Char)
  | [] => none
  | [_] => none
  | c :: c' :: s =>
    if c = ':' ∧ c' = ':' then some ([], s)
    else (splitGap (c' :: s)).map fun halves => (c :: halves.1, halves.2)

/-- The `n` numbers of a text. -/
def expand (n : Nat) (s : List Char) : Option (List Nat) :=
  match splitGap s with
  | none =>
    match groups s with
    | some gs => if gs.length = n then some gs else none
    | none => none
  | some (before, behind) =>
    match groups before, groups behind with
    | some left, some right =>
      if left.length + right.length < n then
        some (left ++ List.replicate (n - (left.length + right.length)) 0 ++ right)
      else none
    | _, _ => none

/-! ## Groups -/

theorem hexDigit_digitChar {d : Nat} (h : d < 16) : hexDigit d.digitChar = some d := by
  have hall : ∀ d < 16, hexDigit d.digitChar = some d := by decide
  exact hall d h

theorem hexNumber_append (v : Nat) (s t : List Char) :
    hexNumber v (s ++ t) = (hexNumber v s).bind fun u => hexNumber u t := by
  induction s generalizing v with
  | nil => rfl
  | cons c s ih =>
    rw [List.cons_append, hexNumber, hexNumber]
    cases hexDigit c with
    | none => rfl
    | some d => exact ih _

theorem hexNumber_toDigits (n : Nat) : hexNumber 0 (Nat.toDigits 16 n) = some n := by
  induction n using Nat.strongRecOn with
  | ind n ih =>
    rcases Nat.lt_or_ge n 16 with hlt | hge
    · rw [Nat.toDigits_of_lt_base hlt, hexNumber, hexDigit_digitChar hlt]
      exact congrArg some (by omega)
    · rw [Nat.toDigits_of_base_le (by decide) hge, hexNumber_append, ih (n / 16) (by omega),
        Option.bind_some, hexNumber, hexDigit_digitChar (Nat.mod_lt n (by decide))]
      exact congrArg some (by omega)

theorem hexGroup_toDigits {n : Nat} (h : n < 2 ^ 16) : hexGroup (Nat.toDigits 16 n) = some n := by
  have hlen : (Nat.toDigits 16 n).length ≤ 4 :=
    (Nat.length_toDigits_le_iff (by decide) (by decide)).mpr h
  rw [hexGroup, if_pos ⟨Nat.length_toDigits_pos, hlen⟩, hexNumber_toDigits]

theorem isSome_of_hexNumber {v u : Nat} {s : List Char} (h : hexNumber v s = some u) :
    ∀ c ∈ s, (hexDigit c).isSome = true := by
  induction s generalizing v with
  | nil =>
    intro c hc
    cases hc
  | cons c s ih =>
    rw [hexNumber] at h
    cases hdigit : hexDigit c with
    | none =>
      rw [hdigit] at h
      cases h
    | some d =>
      rw [hdigit] at h
      rw [List.forall_mem_cons, hdigit]
      exact ⟨rfl, ih h⟩

theorem colon_notMem_toDigits (n : Nat) : ':' ∉ Nat.toDigits 16 n := by
  intro h
  exact absurd (isSome_of_hexNumber (hexNumber_toDigits n) ':' h) (by decide)

/-! ## Writing -/

/-- The groups of some numbers, with a colon between them. -/
def join : List Nat → List Char
  | [] => []
  | [g] => Nat.toDigits 16 g
  | g :: g' :: gs => Nat.toDigits 16 g ++ ':' :: join (g' :: gs)

theorem join_ne_nil {gs : List Nat} (h : gs ≠ []) : join gs ≠ [] := by
  cases gs with
  | nil => exact absurd rfl h
  | cons g gs =>
    cases gs with
    | nil => exact Nat.toDigits_ne_nil
    | cons g' gs => simp [join]

/-- The groups behind the first one, each with its colon. -/
def joinBehind (gs : List Nat) : List Char := (gs.map fun g => ':' :: Nat.toDigits 16 g).flatten

theorem join_cons (g : Nat) (gs : List Nat) :
    join (g :: gs) = Nat.toDigits 16 g ++ joinBehind gs := by
  induction gs generalizing g with
  | nil => exact (List.append_nil _).symm
  | cons g' gs ih =>
    rw [join, ih]
    rfl

theorem splitOn_join {g : Nat} {gs : List Nat} :
    (join (g :: gs)).splitOn ':' = (g :: gs).map (Nat.toDigits 16) := by
  induction gs generalizing g with
  | nil => exact List.splitOn_eq_singleton (colon_notMem_toDigits g)
  | cons g' gs ih =>
    rw [join, List.splitOn_append_cons_self_of_not_mem (colon_notMem_toDigits g), ih]
    rfl

theorem mapM_hexGroup {gs : List Nat} (h : ∀ g ∈ gs, g < 2 ^ 16) :
    (gs.map (Nat.toDigits 16)).mapM hexGroup = some gs := by
  induction gs with
  | nil => rfl
  | cons g gs ih =>
    rw [List.forall_mem_cons] at h
    rw [List.map_cons, List.mapM_cons, hexGroup_toDigits h.1, ih h.2]
    rfl

theorem groups_join {gs : List Nat} (h : ∀ g ∈ gs, g < 2 ^ 16) : groups (join gs) = some gs := by
  cases gs with
  | nil => rfl
  | cons g gs => rw [groups, if_neg (join_ne_nil (by simp)), splitOn_join, mapM_hexGroup h]

/-! ## The gap -/

/-- No two colons in a row, and none at an end. -/
structure Plain (s : List Char) : Prop where
  loose : s.IsChain fun a b => ¬ (a = ':' ∧ b = ':')
  head : s.head? ≠ some ':'
  last : s.getLast? ≠ some ':'

theorem plain_of_notMem {s : List Char} (h : ':' ∉ s) : Plain s where
  loose := by
    rw [List.isChain_iff_getElem]
    rintro i hi ⟨heq, -⟩
    exact h (heq ▸ List.getElem_mem _)
  head := by
    intro heq
    exact h (List.mem_of_mem_head? heq)
  last := by
    intro heq
    exact h (List.mem_of_getLast? heq)

theorem Plain.append_colon {s t : List Char} (hs : Plain s) (ht : Plain t) (hs0 : s ≠ [])
    (ht0 : t ≠ []) : Plain (s ++ ':' :: t) where
  loose := by
    rw [List.isChain_append, List.isChain_cons]
    refine ⟨hs.loose, ⟨fun y hy hcolon => ht.head ?_, ht.loose⟩, fun x hx y _ hcolon => hs.last ?_⟩
    · rw [← hcolon.2]
      exact hy
    · rw [← hcolon.1]
      exact hx
  head := by
    rw [List.head?_append_of_ne_nil _ hs0]
    exact hs.head
  last := by
    rw [List.getLast?_append_of_ne_nil _ (by simp), List.getLast?_cons_of_ne_nil ht0]
    exact ht.last

theorem plain_join (gs : List Nat) : Plain (join gs) := by
  induction gs using join.induct with
  | case1 => exact plain_of_notMem List.not_mem_nil
  | case2 g => exact plain_of_notMem (colon_notMem_toDigits g)
  | case3 g g' gs ih =>
    exact (plain_of_notMem (colon_notMem_toDigits g)).append_colon ih Nat.toDigits_ne_nil
      (join_ne_nil (by simp))

theorem splitGap_of_loose {s : List Char} (h : s.IsChain fun a b => ¬ (a = ':' ∧ b = ':')) :
    splitGap s = none := by
  induction s using splitGap.induct with
  | case1 => rfl
  | case2 => rfl
  | case3 c c' s hcolon => exact absurd hcolon (List.isChain_cons_cons.mp h).1
  | case4 c c' s hcolon ih =>
    rw [splitGap, if_neg hcolon, ih (List.isChain_cons_cons.mp h).2, Option.map_none]

theorem splitGap_append {s t : List Char} (h : s.IsChain fun a b => ¬ (a = ':' ∧ b = ':'))
    (hlast : s.getLast? ≠ some ':') : splitGap (s ++ ':' :: ':' :: t) = some (s, t) := by
  induction s with
  | nil => rfl
  | cons c s ih =>
    cases s with
    | nil =>
      have hc : ¬ (c = ':' ∧ ':' = ':') := by
        rintro ⟨rfl, -⟩
        exact hlast rfl
      rw [List.cons_append, List.nil_append, splitGap, if_neg hc]
      rfl
    | cons c' s =>
      rw [List.isChain_cons_cons] at h
      rw [List.getLast?_cons_cons] at hlast
      rw [List.cons_append, List.cons_append, splitGap, if_neg h.1, ← List.cons_append,
        ih h.2 hlast, Option.map_some]

/-- What is written without a gap is read. -/
theorem expand_join {n : Nat} {gs : List Nat} (h : ∀ g ∈ gs, g < 2 ^ 16) (hn : gs.length = n) :
    expand n (join gs) = some gs := by
  rw [expand, splitGap_of_loose (plain_join gs).loose, groups_join h]
  exact if_pos hn

/-- What is written with a gap is read, with zeros for the gap. -/
theorem expand_gap {n : Nat} {left right : List Nat} (hleft : ∀ g ∈ left, g < 2 ^ 16)
    (hright : ∀ g ∈ right, g < 2 ^ 16) (hn : left.length + right.length < n) :
    expand n (join left ++ ':' :: ':' :: join right) =
      some (left ++ List.replicate (n - (left.length + right.length)) 0 ++ right) := by
  rw [expand, splitGap_append (plain_join left).loose (plain_join left).last]
  dsimp only
  rw [groups_join hleft, groups_join hright]
  exact if_pos hn

/-! ## One gap -/

/-- Two colons in a row. -/
def IsGap (s : List Char) (i : Nat) : Prop := s[i]? = some ':' ∧ s[i + 1]? = some ':'

theorem Plain.not_isGap {s : List Char} (h : Plain s) (i : Nat) : ¬ IsGap s i := by
  rintro ⟨hi, hi'⟩
  obtain ⟨hlt, hcolon'⟩ := List.getElem?_eq_some_iff.mp hi'
  obtain ⟨_, hcolon⟩ := List.getElem?_eq_some_iff.mp hi
  exact h.loose.getElem i hlt ⟨hcolon, hcolon'⟩

/-- Between two texts without a gap there is no other one than theirs. -/
theorem isGap_append {s t : List Char} (hs : Plain s) (ht : Plain t) {i : Nat}
    (h : IsGap (s ++ ':' :: ':' :: t) i) : i = s.length := by
  obtain ⟨hi, hi'⟩ := h
  rcases Nat.lt_trichotomy i s.length with hlt | rfl | hgt
  · rw [List.getElem?_append_left hlt] at hi
    rcases Nat.lt_or_ge (i + 1) s.length with hlt' | hge
    · rw [List.getElem?_append_left hlt'] at hi'
      exact absurd ⟨hi, hi'⟩ (hs.not_isGap i)
    · -- the first colon would be the last character of `s`
      obtain rfl : i = s.length - 1 := by omega
      rw [← List.getLast?_eq_getElem?] at hi
      exact absurd hi hs.last
  · rfl
  · obtain ⟨j, rfl⟩ : ∃ j, i = s.length + (j + 1) := ⟨i - s.length - 1, by omega⟩
    rw [List.getElem?_append_right (by omega), Nat.add_sub_cancel_left,
      List.getElem?_cons_succ] at hi
    rw [List.getElem?_append_right (by omega),
      (by omega : s.length + (j + 1) + 1 - s.length = j + 2), List.getElem?_cons_succ,
      List.getElem?_cons_succ] at hi'
    cases j with
    | zero =>
      -- the second colon would be the first character of `t`
      rw [← List.head?_eq_getElem?] at hi'
      exact absurd hi' ht.head
    | succ j =>
      rw [List.getElem?_cons_succ] at hi
      exact absurd ⟨hi, hi'⟩ (ht.not_isGap j)

end GroupText
