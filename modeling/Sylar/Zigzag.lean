import Sylar.VarintRoundTrip

/-! # The zigzag code of 32 bits

`EncodeZigzag32` codes a negative number from its negation, which is an `int32_t`, and doubles the
others as an `int32_t` as well.  A value that is outside the range of that type has no defined
behaviour, whatever a machine makes of it.

**`EncodeZigzag32_defined_iff`** says for which numbers there is none, and that the code, as the
machine makes it, is one to one in both directions. -/
namespace Sylar

/-- The behaviour of a signed expression is not defined. -/
inductive SignedFault
  | overflow
  deriving DecidableEq, Repr

/-- An expression of the type `int32_t` whose value is this. -/
def int32Expr (value : Int) : Except SignedFault (BitVec 32) :=
  if -2 ^ 31 ≤ value ∧ value < 2 ^ 31 then .ok (BitVec.ofInt 32 value) else .error .overflow

/-- `EncodeZigzag32`, with the signed expressions that it evaluates.  The negation is converted
to `uint32_t` before it is doubled; the number itself is not. -/
def EncodeZigzag32.evaluate (val : BitVec 32) : Except SignedFault (BitVec 32) :=
  if val.slt 0 then do
    let negated ← int32Expr (-val.toInt)
    return negated * 2 - 1
  else int32Expr (val.toInt * 2)

/-- What is left of the range. -/
def ZigzagDefined (val : BitVec 32) : Prop := -2 ^ 31 < val.toInt ∧ val.toInt < 2 ^ 30

theorem slt_zero_iff_toInt {w : Nat} (val : BitVec w) : val.slt 0 = true ↔ val.toInt < 0 := by
  rw [BitVec.slt_iff_toInt_lt]
  exact Eq.to_iff (congrArg (val.toInt < ·) BitVec.toInt_zero)

/-- Where every expression has a value, the code is the one the machine makes. -/
theorem evaluate_of_defined {val : BitVec 32} (h : ZigzagDefined val) :
    EncodeZigzag32.evaluate val = .ok (EncodeZigzag32 val) := by
  rw [EncodeZigzag32.evaluate, EncodeZigzag32]
  split
  case isTrue hneg =>
    rw [slt_zero_iff_toInt] at hneg
    rw [int32Expr, if_pos ⟨by omega, by have := h.1; omega⟩, BitVec.ofInt_neg, BitVec.ofInt_toInt]
    rfl
  case isFalse hnonneg =>
    rw [slt_zero_iff_toInt] at hnonneg
    rw [int32Expr, if_pos ⟨by omega, by have := h.2; omega⟩, BitVec.ofInt_mul, BitVec.ofInt_toInt]
    rfl

theorem evaluate_of_not_defined {val : BitVec 32} (h : ¬ ZigzagDefined val) :
    EncodeZigzag32.evaluate val = .error .overflow := by
  have hlow : -2 ^ 31 ≤ val.toInt := BitVec.le_toInt val
  rw [ZigzagDefined, not_and_or] at h
  rw [EncodeZigzag32.evaluate]
  split
  -- only the smallest number has a negation that is too large
  case isTrue hneg =>
    rw [slt_zero_iff_toInt] at hneg
    rw [int32Expr, if_neg (by omega)]
    rfl
  case isFalse hnonneg =>
    rw [slt_zero_iff_toInt] at hnonneg
    rw [int32Expr, if_neg (by omega)]

theorem EncodeZigzag32_injective : Function.Injective EncodeZigzag32 :=
  Function.LeftInverse.injective DecodeZigzag32_EncodeZigzag32

/-- Every word is the code of what is decoded from it. -/
theorem EncodeZigzag32_DecodeZigzag32 (u : BitVec 32) :
    EncodeZigzag32 (DecodeZigzag32 u) = u := by
  have hu := u.isLt
  have hdecode : (DecodeZigzag32 u).toNat =
      if u.toNat % 2 = 0 then u.toNat / 2 else 2 ^ 32 - 1 - u.toNat / 2 :=
    toNat_unzigzag (by decide) u
  refine BitVec.eq_of_toNat_eq ?_
  by_cases heven : u.toNat % 2 = 0
  · rw [if_pos heven] at hdecode
    rw [EncodeZigzag32_nonneg (by omega), hdecode]
    omega
  · rw [if_neg heven] at hdecode
    rw [EncodeZigzag32_neg (by omega), hdecode]
    omega

/-- **The code evaluates no expression outside its range, and gives the number back, exactly
between the smallest number and 2³⁰; and it is a bijection.** -/
theorem EncodeZigzag32_defined_iff (val : BitVec 32) :
    ((∃ u, EncodeZigzag32.evaluate val = .ok u ∧ u = EncodeZigzag32 val ∧ DecodeZigzag32 u = val) ↔
      -2 ^ 31 < val.toInt ∧ val.toInt < 2 ^ 30) ∧
    DecodeZigzag32 (EncodeZigzag32 val) = val ∧
    (∀ u, EncodeZigzag32 (DecodeZigzag32 u) = u) ∧ Function.Bijective EncodeZigzag32 := by
  -- the decoding is an inverse on both sides, so only the range is left
  refine ⟨?_, DecodeZigzag32_EncodeZigzag32 val, EncodeZigzag32_DecodeZigzag32,
    EncodeZigzag32_injective, fun u => ⟨_, EncodeZigzag32_DecodeZigzag32 u⟩⟩
  constructor
  · rintro ⟨u, hu, -⟩
    by_contra h
    rw [evaluate_of_not_defined h] at hu
    cases hu
  · intro h
    exact ⟨_, evaluate_of_defined h, rfl, DecodeZigzag32_EncodeZigzag32 val⟩

/-- The negation of the smallest number, and the double of a number from 2³⁰ on. -/
theorem EncodeZigzag32_overflows :
    ¬ (∀ val : BitVec 32, ∃ u, EncodeZigzag32.evaluate val = .ok u) := by
  intro h
  obtain ⟨u, hu⟩ := h (2 ^ 30)
  have hover : EncodeZigzag32.evaluate (2 ^ 30) = .error .overflow := by decide
  rw [hover] at hu
  cases hu

end Sylar
