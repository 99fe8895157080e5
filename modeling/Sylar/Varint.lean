import Mathlib.Data.List.Basic
import Mathlib.Data.BitVec

/-! # Numbers in base 128

A number is written as its digits in base 128, the lowest first, one in each byte; the
top bit of a byte says that another one follows.  `encode` is the writer.

`length_encode_le` and `le_length_encode` bound its output by the size of the number.
`or_shift` is the step of a reader that puts the digits together with shifts: as long as
the digits read so far stay below the next one, putting it in is an addition.  `cut` and
`value` say what a reader should do with any bytes: where the number ends, and which one
it is. -/
namespace Varint

/-- The bytes of a number. -/
def encode (n : Nat) : List UInt8 :=
  if 128 ≤ n then UInt8.ofNat (n % 128 + 128) :: encode (n / 128) else [UInt8.ofNat n]

theorem encode_of_lt {n : Nat} (h : n < 128) : encode n = [UInt8.ofNat n] := by
  rw [encode, if_neg (by omega)]

theorem encode_of_ge {n : Nat} (h : 128 ≤ n) :
    encode n = UInt8.ofNat (n % 128 + 128) :: encode (n / 128) := by
  rw [encode, if_pos h]

/-- A number of at most `k + 1` digits takes at most `k + 1` bytes. -/
theorem length_encode_le {k n : Nat} (h : n < 128 ^ (k + 1)) : (encode n).length ≤ k + 1 := by
  induction k generalizing n with
  | zero => rw [encode_of_lt (by omega)]; exact Nat.le_refl 1
  | succ k ih =>
    rcases Nat.lt_or_ge n 128 with hlt | hge
    · rw [encode_of_lt hlt]
      exact Nat.succ_le_succ (Nat.zero_le _)
    · rw [encode_of_ge hge, List.length_cons]
      refine Nat.succ_le_succ (ih ?_)
      rw [Nat.div_lt_iff_lt_mul (by decide), ← Nat.pow_succ]
      exact h

theorem length_encode_pos (n : Nat) : 1 ≤ (encode n).length := by
  rcases Nat.lt_or_ge n 128 with hlt | hge
  · rw [encode_of_lt hlt]
    exact Nat.le_refl 1
  · rw [encode_of_ge hge, List.length_cons]
    exact Nat.succ_le_succ (Nat.zero_le _)

/-- A number of more than `k` digits takes more than `k` bytes. -/
theorem le_length_encode {k n : Nat} (h : 128 ^ k ≤ n) : k + 1 ≤ (encode n).length := by
  induction k generalizing n with
  | zero => exact length_encode_pos n
  | succ k ih =>
    have hge : 128 ≤ n := by
      rw [Nat.pow_succ] at h
      have := Nat.one_le_pow k 128 (by decide)
      omega
    rw [encode_of_ge hge, List.length_cons]
    refine Nat.succ_le_succ (ih ?_)
    rw [Nat.le_div_iff_mul_le (by decide), ← Nat.pow_succ]
    exact h

/-- A byte without its top bit. -/
theorem toNat_digit (b : BitVec 8) : (b &&& 0x7f).toNat = b.toNat % 128 := by
  have hmask : (0x7f : BitVec 8).toNat = 2 ^ 7 - 1 := rfl
  rw [BitVec.toNat_and, hmask, Nat.and_two_pow_sub_one_eq_mod]

/-- **The step of a reader**: a digit goes in above those read so far. -/
theorem or_shift {w i : Nat} {result : BitVec w} {digit : BitVec 8}
    (hresult : result.toNat < 2 ^ i) (hfit : digit.toNat * 2 ^ i < 2 ^ w) :
    (result ||| (digit.setWidth w <<< i)).toNat = result.toNat + digit.toNat * 2 ^ i := by
  have hone : 1 ≤ 2 ^ i := Nat.one_le_two_pow
  have hdigit : digit.toNat < 2 ^ w :=
    Nat.lt_of_le_of_lt (Nat.le_mul_of_pos_right _ hone) hfit
  rw [BitVec.toNat_or, BitVec.toNat_shiftLeft, BitVec.toNat_setWidth, Nat.mod_eq_of_lt hdigit,
    Nat.shiftLeft_eq, Nat.mod_eq_of_lt hfit, Nat.or_comm, Nat.mul_comm,
    ← Nat.two_pow_add_eq_or_of_lt hresult, Nat.add_comm]

/-- The step of a reader where the digit is cut off at the width of the result. -/
theorem or_shift_mod {w i : Nat} {result : BitVec w} {digit : BitVec 8} (hi : i ≤ w)
    (hresult : result.toNat < 2 ^ i) :
    (result ||| (digit.setWidth w <<< i)).toNat =
      (result.toNat + digit.toNat * 2 ^ i) % 2 ^ w := by
  have hpow : 2 ^ w = 2 ^ (w - i) * 2 ^ i := by
    rw [← Nat.pow_add, Nat.sub_add_cancel hi]
  have hdigit : digit.toNat % 2 ^ w * 2 ^ i % 2 ^ w = digit.toNat % 2 ^ (w - i) * 2 ^ i := by
    rw [Nat.mod_mul_mod, hpow, Nat.mul_mod_mul_right]
  have hlt : digit.toNat % 2 ^ (w - i) < 2 ^ (w - i) := Nat.mod_lt _ (Nat.two_pow_pos _)
  have hroom : (digit.toNat % 2 ^ (w - i) + 1) * 2 ^ i ≤ 2 ^ w := by
    rw [hpow]
    exact Nat.mul_le_mul_right _ hlt
  rw [Nat.add_mul, Nat.one_mul] at hroom
  have hsplit : digit.toNat * 2 ^ i =
      digit.toNat % 2 ^ (w - i) * 2 ^ i + 2 ^ w * (digit.toNat / 2 ^ (w - i)) := by
    have hdm := Nat.mod_add_div digit.toNat (2 ^ (w - i))
    calc digit.toNat * 2 ^ i
        = (digit.toNat % 2 ^ (w - i) + 2 ^ (w - i) * (digit.toNat / 2 ^ (w - i))) * 2 ^ i := by
          rw [hdm]
      _ = _ := by rw [Nat.add_mul, hpow, Nat.mul_right_comm]
  have hmod : (result.toNat + digit.toNat * 2 ^ i) % 2 ^ w =
      result.toNat + digit.toNat % 2 ^ (w - i) * 2 ^ i := by
    rw [hsplit, ← Nat.add_assoc, Nat.add_mul_mod_self_left, Nat.mod_eq_of_lt (by omega)]
  rw [hmod, BitVec.toNat_or, BitVec.toNat_shiftLeft, BitVec.toNat_setWidth, Nat.shiftLeft_eq,
    hdigit, Nat.or_comm, Nat.mul_comm, ← Nat.two_pow_add_eq_or_of_lt hresult, Nat.add_comm]

/-! ## Cutting a number off -/

/-- The bytes of a number at the beginning of others: up to the first one whose top bit is
not set, and no more than `room`; none if the bytes end before that. -/
def cut : Nat → List UInt8 → Option (List UInt8)
  | 0, _ => some []
  | _ + 1, [] => none
  | room + 1, b :: bs => if b.toNat < 128 then some [b] else (cut room bs).map (b :: ·)

/-- The number that some bytes are the digits of. -/
def value : List UInt8 → Nat
  | [] => 0
  | b :: bs => b.toNat % 128 + 128 * value bs

/-- A reader that takes the first digit and then the others has taken the number, up to the
width of its result. -/
theorem value_cons_mod (w k result : Nat) (b : UInt8) (bs : List UInt8) :
    ((result + b.toNat % 128 * 2 ^ (7 * k)) % 2 ^ w + value bs * 2 ^ (7 * (k + 1))) % 2 ^ w =
      (result + value (b :: bs) * 2 ^ (7 * k)) % 2 ^ w := by
  have hpow : 2 ^ (7 * (k + 1)) = 128 * 2 ^ (7 * k) := by
    rw [Nat.mul_succ, Nat.pow_add, Nat.mul_comm]
  rw [Nat.mod_add_mod, value, hpow, Nat.add_mul, ← Nat.add_assoc, Nat.mul_assoc 128,
    Nat.mul_left_comm]

/-- What is cut off is a piece of the bytes, and not empty. -/
theorem cut_length {room : Nat} {bs enc : List UInt8} (h : cut room bs = some enc) :
    enc.length ≤ bs.length ∧ (0 < room → 0 < enc.length) := by
  induction room generalizing bs enc with
  | zero =>
    obtain rfl := Option.some.inj h
    exact ⟨Nat.zero_le _, fun h0 => absurd h0 (Nat.lt_irrefl 0)⟩
  | succ room ih =>
    cases bs with
    | nil => cases h
    | cons b bs =>
      rw [cut] at h
      by_cases hlast : b.toNat < 128
      · rw [if_pos hlast] at h
        obtain rfl := Option.some.inj h
        exact ⟨by simp, fun _ => Nat.one_pos⟩
      · rw [if_neg hlast] at h
        obtain ⟨rest, hrest, rfl⟩ := Option.map_eq_some_iff.mp h
        have hle := (ih hrest).1
        exact ⟨Nat.succ_le_succ hle, fun _ => Nat.succ_pos _⟩

end Varint
