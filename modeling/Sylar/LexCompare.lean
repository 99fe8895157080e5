import Mathlib.Data.List.Lex
import Mathlib.Order.Lattice.Nat

/-! # Comparing by a common prefix and then by length

Two stretches of memory are compared over the shorter of their lengths, and by their lengths
where they agree there.  **`window_lt_iff`**: this is the lexicographic order of what is in the
stretches. -/
namespace LexCompare
variable {α : Type} [LinearOrder α]

/-- The first `n` values. -/
def window (p : Nat → α) : Nat → List α
  | 0 => []
  | n + 1 => p 0 :: window (fun i => p (i + 1)) n

/-- How two memories compare where they first differ, if they do before `n`. -/
def compareFirst (p q : Nat → α) : Nat → Ordering
  | 0 => .eq
  | n + 1 =>
    if p 0 < q 0 then .lt
    else if q 0 < p 0 then .gt
    else compareFirst (fun i => p (i + 1)) (fun i => q (i + 1)) n

omit [LinearOrder α] in
theorem length_window (p : Nat → α) (n : Nat) : (window p n).length = n := by
  induction n generalizing p with
  | zero => rfl
  | succ n ih => rw [window, List.length_cons, ih]

omit [LinearOrder α] in
/-- Only what is in the stretch counts. -/
theorem window_congr {p q : Nat → α} {n : Nat} (h : ∀ i < n, p i = q i) :
    window p n = window q n := by
  induction n generalizing p q with
  | zero => rfl
  | succ n ih =>
    rw [window, window, h 0 (Nat.succ_pos n), ih fun i hi => h (i + 1) (Nat.succ_lt_succ hi)]

theorem compareFirst_eq_iff {p q : Nat → α} {n : Nat} :
    compareFirst p q n = .eq ↔ window p n = window q n := by
  induction n generalizing p q with
  | zero => exact iff_of_true rfl rfl
  | succ n ih =>
    rw [compareFirst, window, window, List.cons_eq_cons]
    rcases lt_trichotomy (p 0) (q 0) with hlt | heq | hgt
    · rw [if_pos hlt]
      exact iff_of_false (by decide) fun h => hlt.ne h.1
    · rw [if_neg heq.not_lt, if_neg heq.not_gt, ih, and_iff_right heq]
    · rw [if_neg hgt.not_gt, if_pos hgt]
      exact iff_of_false (by decide) fun h => hgt.ne' h.1

theorem window_eq_iff {p q : Nat → α} {m n : Nat} :
    window p m = window q n ↔ m = n ∧ compareFirst p q m = .eq := by
  constructor
  · intro h
    have hlen := congrArg List.length h
    rw [length_window, length_window] at hlen
    exact ⟨hlen, compareFirst_eq_iff.mpr (hlen ▸ h)⟩
  · rintro ⟨rfl, h⟩
    exact compareFirst_eq_iff.mp h

theorem window_lt_iff {p q : Nat → α} {m n : Nat} :
    window p m < window q n ↔
      compareFirst p q (min m n) = .lt ∨ compareFirst p q (min m n) = .eq ∧ m < n := by
  induction m generalizing n p q with
  | zero =>
    rw [Nat.zero_min, compareFirst, window]
    cases n with
    | zero => simp [window]
    | succ n => simp [window]
  | succ m ih =>
    cases n with
    | zero => simp [compareFirst, window]
    | succ n =>
      rw [Nat.succ_min_succ, compareFirst, window, window, List.cons_lt_cons_iff,
        Nat.succ_lt_succ_iff]
      rcases lt_trichotomy (p 0) (q 0) with hlt | heq | hgt
      · rw [if_pos hlt]
        exact iff_of_true (Or.inl hlt) (Or.inl rfl)
      · -- the first values agree, and the rest decides
        rw [if_neg heq.not_lt, if_neg heq.not_gt, ih, and_iff_right heq,
          or_iff_right heq.not_lt]
      · rw [if_neg hgt.not_gt, if_pos hgt]
        refine iff_of_false ?_ (by simp)
        rintro (h | ⟨h, -⟩)
        · exact hgt.not_gt h
        · exact hgt.ne' h

end LexCompare
