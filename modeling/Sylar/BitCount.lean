import Sylar.BitMasks
import Mathlib.Data.Finset.Card
import Mathlib.Data.Finset.Range
import Mathlib.Data.Nat.Factorization.Basic

/-! # The places of a word that have a one

`value & (value - 1)` is the word without its lowest one, so the ones are counted by doing this
until nothing is left.  **`iterate_clearLowest_eq_zero_iff`** says after how many rounds. -/
namespace BitCount
open BitMasks
variable {w : Nat}

/-- The places that have a one, counted from the lowest. -/
def ones (value : BitVec w) : Finset Nat := (Finset.range w).filter fun i => value.getLsbD i

theorem mem_ones {value : BitVec w} {i : Nat} : i ∈ ones value ↔ value.getLsbD i = true := by
  rw [ones, Finset.mem_filter, Finset.mem_range]
  exact ⟨And.right, fun h => ⟨BitVec.lt_of_getLsbD h, h⟩⟩

theorem card_ones_le (value : BitVec w) : (ones value).card ≤ w := by
  refine (Finset.card_filter_le _ _).trans ?_
  rw [Finset.card_range]

theorem ones_eq_empty_iff {value : BitVec w} : ones value = ∅ ↔ value = 0#w := by
  constructor
  · intro h
    refine BitVec.eq_of_getLsbD_eq fun i _ => ?_
    rw [BitVec.getLsbD_zero, ← Bool.not_eq_true, ← mem_ones, h]
    exact Finset.notMem_empty i
  · rintro rfl
    refine Finset.eq_empty_of_forall_notMem fun i hi => ?_
    rw [mem_ones, BitVec.getLsbD_zero] at hi
    cases hi

/-- Two words have as many ones as each other when the places of one are those of the other,
rearranged. -/
theorem card_ones_of_places {v : Nat} {x : BitVec w} {y : BitVec v} (place : Nat → Nat)
    (hbit : ∀ i < w, x.getLsbD i = y.getLsbD (place i))
    (hinj : ∀ i < w, ∀ j < w, place i = place j → i = j)
    (honto : ∀ j < v, ∃ i < w, place i = j) : (ones x).card = (ones y).card := by
  refine Finset.card_bij (fun i _ => place i) ?_ ?_ ?_
  · intro i hi
    rw [mem_ones] at hi ⊢
    rw [← hbit i (BitVec.lt_of_getLsbD hi), hi]
  · intro i hi j hj h
    rw [mem_ones] at hi hj
    exact hinj i (BitVec.lt_of_getLsbD hi) j (BitVec.lt_of_getLsbD hj) h
  · intro j hj
    rw [mem_ones] at hj
    obtain ⟨i, hi, rfl⟩ := honto j (BitVec.lt_of_getLsbD hj)
    exact ⟨i, mem_ones.mpr (by rw [hbit i hi, hj]), rfl⟩

/-- A word whose ones are its topmost `k` places. -/
theorem card_ones_of_getMsbD {value : BitVec w} {k : Nat} (hk : k ≤ w)
    (h : ∀ i < w, value.getMsbD i = decide (i < k)) : (ones value).card = k := by
  have hset : ones value = (Finset.range w).filter fun i => w - k ≤ i := by
    rw [ones]
    refine Finset.filter_congr fun i hi => ?_
    rw [Finset.mem_range] at hi
    have htop := h (w - 1 - i) (by omega)
    rw [BitVec.getMsbD_eq_getLsbD, decide_eq_true (by omega : w - 1 - i < w), Bool.true_and,
      (by omega : w - 1 - (w - 1 - i) = i)] at htop
    rw [htop, decide_eq_true_iff]
    omega
  have hcompl : (Finset.range w).filter (fun i => w - k ≤ i)
      = Finset.range w \ Finset.range (w - k) := by
    ext i
    rw [Finset.mem_filter, Finset.mem_sdiff, Finset.mem_range, Finset.mem_range, Nat.not_lt]
  rw [hset, hcompl, Finset.card_sdiff_of_subset (Finset.range_mono (Nat.sub_le w k)),
    Finset.card_range, Finset.card_range]
  omega

/-! ## The lowest one -/

/-- `value & (value - 1)` -/
def clearLowest (value : BitVec w) : BitVec w := value &&& (value - 1#w)

theorem toNat_sub_one {value : BitVec w} (h : value ≠ 0#w) :
    (value - 1#w).toNat = value.toNat - 1 := by
  have hpos : 0 < value.toNat := Nat.pos_of_ne_zero fun hz => h (BitVec.eq_of_toNat_eq (by simpa))
  have hw : w ≠ 0 := by
    rintro rfl
    exact h (Subsingleton.elim _ _)
  have hone : (1#w).toNat = 1 := by
    rw [BitVec.toNat_ofNat, Nat.mod_eq_of_lt (Nat.one_lt_two_pow hw)]
  have hle : 1#w ≤ value := by
    rw [BitVec.le_def, hone]
    exact hpos
  rw [BitVec.toNat_sub_of_le hle, hone]

/-- Below its lowest one a number is a power of two, and above it an even multiple of it. -/
theorem testBit_sub_one {n : Nat} (h : n ≠ 0) :
    ∃ k, n.testBit k = true ∧
      ∀ i, (n.testBit i && (n - 1).testBit i) = (n.testBit i && decide (i ≠ k)) := by
  obtain ⟨k, m, hodd, hn⟩ := Nat.exists_eq_two_pow_mul_odd h
  obtain ⟨q, rfl⟩ := hodd
  have hpos := Nat.two_pow_pos k
  have hfull : n = 2 ^ k * (2 * q + 1) + 0 := by omega
  have hless : n - 1 = 2 ^ k * (2 * q) + (2 ^ k - 1) := by
    rw [hn, Nat.mul_add, Nat.mul_one]
    omega
  have hbit : ∀ i, n.testBit i = if i < k then false else (2 * q + 1).testBit (i - k) := by
    intro i
    rw [hfull, Nat.testBit_two_pow_mul_add _ hpos, Nat.zero_testBit]
  refine ⟨k, ?_, fun i => ?_⟩
  · rw [hbit, if_neg (Nat.lt_irrefl k), Nat.sub_self]
    simp
  · rw [hbit, hless, Nat.testBit_two_pow_mul_add _ (by omega)]
    rcases Nat.lt_trichotomy i k with hlt | rfl | hgt
    · rw [if_pos hlt, Bool.false_and, Bool.false_and]
    · simp
    · -- above the lowest one the two numbers are the same
      obtain ⟨j, hj⟩ : ∃ j, i - k = j + 1 := ⟨i - k - 1, by omega⟩
      rw [if_neg (by omega), if_neg (by omega), hj, Nat.testBit_add_one, Nat.testBit_add_one,
        decide_eq_true (by omega : i ≠ k), Bool.and_true, (by omega : (2 * q + 1) / 2 = q),
        Nat.mul_div_cancel_left q (by decide), Bool.and_self]

/-- One round takes one place away. -/
theorem card_ones_clearLowest {value : BitVec w} (h : value ≠ 0#w) :
    (ones (clearLowest value)).card + 1 = (ones value).card := by
  have hne : value.toNat ≠ 0 := fun hz => h (BitVec.eq_of_toNat_eq (by simpa))
  obtain ⟨k, hk, hrest⟩ := testBit_sub_one hne
  have hmem : k ∈ ones value := mem_ones.mpr hk
  have herase : ones (clearLowest value) = (ones value).erase k := by
    ext i
    rw [Finset.mem_erase, mem_ones, mem_ones, clearLowest, BitVec.getLsbD_and,
      BitVec.getLsbD, BitVec.getLsbD, toNat_sub_one h, hrest, Bool.and_eq_true,
      decide_eq_true_iff, and_comm]
  rw [herase, Finset.card_erase_add_one hmem]

theorem clearLowest_zero : clearLowest (0#w) = 0#w := by
  rw [clearLowest, BitVec.zero_and]

/-- The rounds it takes until nothing is left. -/
theorem iterate_clearLowest_eq_zero_iff (n : Nat) (value : BitVec w) :
    clearLowest^[n] value = 0#w ↔ (ones value).card ≤ n := by
  induction n generalizing value with
  | zero =>
    rw [Function.iterate_zero, id, Nat.le_zero, Finset.card_eq_zero, ones_eq_empty_iff]
  | succ n ih =>
    rw [Function.iterate_succ_apply, ih]
    by_cases h : value = 0#w
    · rw [h, clearLowest_zero, ones_eq_empty_iff.mpr rfl, Finset.card_empty]
      exact iff_of_true (Nat.zero_le n) (Nat.zero_le _)
    · have hcard := card_ones_clearLowest h
      omega

end BitCount
