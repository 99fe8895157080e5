import Mathlib.Data.BitVec

/-! # Masks of low bits

A word whose lowest bits are set, as it is made by a shift and a subtraction, and what a word
has in common with such a mask and with its complement. -/
namespace BitMasks
variable {w : Nat}

/-- The word of `w` bits with its lowest `k` set. -/
def lowOnes (w k : Nat) : BitVec w := BitVec.ofNat w (2 ^ k - 1)

theorem getLsbD_lowOnes (k i : Nat) :
    (lowOnes w k).getLsbD i = (decide (i < w) && decide (i < k)) := by
  rw [lowOnes, BitVec.getLsbD_ofNat, Nat.testBit_two_pow_sub_one]

/-- From the top they come last. -/
theorem getMsbD_lowOnes {k i : Nat} (hk : k ≤ w) (hi : i < w) :
    (lowOnes w k).getMsbD i = decide (w - k ≤ i) := by
  rw [BitVec.getMsbD_eq_getLsbD, getLsbD_lowOnes, decide_eq_true hi,
    decide_eq_true (by omega : w - 1 - i < w), Bool.true_and, Bool.true_and]
  exact decide_eq_decide.mpr (by omega)

theorem toNat_lowOnes {k : Nat} (hk : k ≤ w) : (lowOnes w k).toNat = 2 ^ k - 1 := by
  have hpos := Nat.two_pow_pos k
  have hle : 2 ^ k ≤ 2 ^ w := Nat.pow_le_pow_right (by decide) hk
  rw [lowOnes, BitVec.toNat_ofNat, Nat.mod_eq_of_lt (by omega)]

/-- A one is shifted, and one is taken off; the shift is below the width. -/
theorem one_shiftLeft_sub_one {k : Nat} (hk : k < w) : (1#w <<< k) - 1#w = lowOnes w k := by
  refine BitVec.eq_of_toNat_eq ?_
  have hpos := Nat.two_pow_pos k
  have hlt : 2 ^ k < 2 ^ w := Nat.pow_lt_pow_right (by decide) hk
  have hone : (1#w).toNat = 1 := by
    rw [BitVec.toNat_ofNat, Nat.mod_eq_of_lt (by omega)]
  have hshift : (1#w <<< k).toNat = 2 ^ k := by
    rw [BitVec.toNat_shiftLeft, hone, Nat.one_shiftLeft, Nat.mod_eq_of_lt hlt]
  have hle : 1#w ≤ 1#w <<< k := by
    rw [BitVec.le_def, hone, hshift]
    exact hpos
  rw [BitVec.toNat_sub_of_le hle, hone, hshift, toNat_lowOnes (Nat.le_of_lt hk)]

/-- A narrower word keeps the mask. -/
theorem setWidth_lowOnes {v : Nat} (hv : v ≤ w) (k : Nat) :
    (lowOnes w k).setWidth v = lowOnes v k := by
  refine BitVec.eq_of_getLsbD_eq fun i hi => ?_
  rw [BitVec.getLsbD_setWidth, getLsbD_lowOnes, getLsbD_lowOnes,
    decide_eq_true (Nat.lt_of_lt_of_le hi hv), decide_eq_true hi, Bool.true_and]

theorem lowOnes_ne_zero {k : Nat} (hpos : 0 < k) (hk : k ≤ w) : lowOnes w k ≠ 0#w := by
  intro h
  have hbit := congrArg (fun m : BitVec w => m.getLsbD 0) h
  simp only [getLsbD_lowOnes, BitVec.getLsbD_zero, decide_eq_true hpos,
    decide_eq_true (by omega : 0 < w), Bool.true_and] at hbit
  cases hbit

/-- A word is the same under a mask and under its complement only if it has nothing. -/
theorem and_eq_and_not_iff {a m : BitVec w} : a &&& m = a &&& ~~~m ↔ a = 0#w := by
  constructor
  · intro h
    refine BitVec.eq_of_getLsbD_eq fun i hi => ?_
    have hbit := congrArg (fun x : BitVec w => x.getLsbD i) h
    simp only [BitVec.getLsbD_and, BitVec.getLsbD_not, decide_eq_true hi, Bool.true_and] at hbit
    rw [BitVec.getLsbD_zero]
    cases ha : a.getLsbD i with
    | false => rfl
    | true =>
      rw [ha] at hbit
      cases hm : m.getLsbD i <;> rw [hm] at hbit <;> cases hbit
  · rintro rfl
    rw [BitVec.zero_and, BitVec.zero_and]

/-- What a mask fills up does not depend on what was under it. -/
theorem or_eq_or_of_and_not {a b m : BitVec w} (h : b &&& ~~~m = a &&& ~~~m) :
    b ||| m = a ||| m := by
  refine BitVec.eq_of_getLsbD_eq fun i hi => ?_
  have hbit := congrArg (fun x : BitVec w => x.getLsbD i) h
  simp only [BitVec.getLsbD_and, BitVec.getLsbD_not, decide_eq_true hi, Bool.true_and] at hbit
  rw [BitVec.getLsbD_or, BitVec.getLsbD_or]
  cases hm : m.getLsbD i with
  | false => simpa [hm] using hbit
  | true => rw [Bool.or_true, Bool.or_true]

end BitMasks
