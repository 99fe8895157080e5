import Sylar.VarintRoundTrip

/-! # Signed numbers of 64 bits

`writeInt64` writes the zigzag code of its argument as an unsigned number, and `readInt64` takes
it off again.  But `EncodeZigzag64` returns an `int32_t`: of the code only the lower 32 bits are
kept, and on the way to `writeUint64` their sign is extended.

**`int64_round_trip_iff`**: the numbers that come back are those whose code has nothing but
copies of one bit from bit 31 on. -/
namespace Sylar

/-! ## The code -/

/-- The zigzag code before it is made an `int32_t`. -/
def zigzag64 (val : BitVec 64) : BitVec 64 := if val.slt 0 then (-val) * 2 - 1 else val * 2

theorem EncodeZigzag64_eq (v : BitVec 64) : EncodeZigzag64 v = (zigzag64 v).setWidth 32 := by
  rw [EncodeZigzag64, zigzag64]
  split <;> rfl

theorem zigzag64_neg {v : BitVec 64} (h : 2 ^ 63 ≤ v.toNat) :
    (zigzag64 v).toNat = 2 * (2 ^ 64 - v.toNat) - 1 := by
  have hv := v.isLt
  rw [zigzag64, if_pos ((slt_zero_iff v).mpr h)]
  bv_omega

theorem zigzag64_nonneg {v : BitVec 64} (h : v.toNat < 2 ^ 63) :
    (zigzag64 v).toNat = 2 * v.toNat := by
  rw [zigzag64, if_neg (mt (slt_zero_iff v).mp (Nat.not_le.mpr h))]
  bv_omega

theorem toNat_DecodeZigzag64 (u : BitVec 64) :
    (DecodeZigzag64 u).toNat =
      if u.toNat % 2 = 0 then u.toNat / 2 else 2 ^ 64 - 1 - u.toNat / 2 :=
  toNat_unzigzag (by decide) u

theorem DecodeZigzag64_zigzag64 (v : BitVec 64) : DecodeZigzag64 (zigzag64 v) = v := by
  have hv := v.isLt
  refine BitVec.eq_of_toNat_eq ?_
  rw [toNat_DecodeZigzag64]
  by_cases hneg : 2 ^ 63 ≤ v.toNat
  · rw [zigzag64_neg hneg, if_neg (by omega)]
    omega
  · rw [zigzag64_nonneg (Nat.not_le.mp hneg), if_pos (by omega)]
    omega

/-- No two codes are of one number. -/
theorem DecodeZigzag64_injective : Function.Injective DecodeZigzag64 := by
  intro u u' h
  have hu := u.isLt
  have hu' := u'.isLt
  have heq := congrArg BitVec.toNat h
  rw [toNat_DecodeZigzag64, toNat_DecodeZigzag64] at heq
  refine BitVec.eq_of_toNat_eq ?_
  split at heq <;> split at heq <;> omega

/-! ## What is left of a code -/

/-- A word that is made an `int32_t` and widened again. -/
theorem toNat_narrowed (z : BitVec 64) :
    ((z.setWidth 32).signExtend 64).toNat =
      if z.toNat % 2 ^ 32 < 2 ^ 31 then z.toNat % 2 ^ 32
      else z.toNat % 2 ^ 32 + (2 ^ 64 - 2 ^ 32) := by
  have hlt : z.toNat % 2 ^ 32 < 2 ^ 64 := by omega
  have hmsb : (z.setWidth 32).msb = decide (2 ^ 31 ≤ z.toNat % 2 ^ 32) := by
    rw [BitVec.msb_eq_decide, BitVec.toNat_setWidth]
  rw [BitVec.toNat_signExtend, hmsb, BitVec.toNat_setWidth, BitVec.toNat_setWidth,
    Nat.mod_eq_of_lt hlt]
  by_cases hsign : z.toNat % 2 ^ 32 < 2 ^ 31
  · rw [if_pos hsign, if_neg (by simpa using hsign)]
    rfl
  · rw [if_neg hsign, if_pos (by simpa using hsign)]

theorem narrowed_eq_iff (z : BitVec 64) :
    (z.setWidth 32).signExtend 64 = z ↔ z.toNat < 2 ^ 31 ∨ 2 ^ 64 - 2 ^ 31 ≤ z.toNat := by
  have hz := z.isLt
  constructor
  · intro h
    have heq := congrArg BitVec.toNat h
    rw [toNat_narrowed] at heq
    split at heq <;> omega
  · intro h
    refine BitVec.eq_of_toNat_eq ?_
    rw [toNat_narrowed]
    split <;> omega

/-- The numbers whose code is not changed: those near zero, and those near the two ends. -/
def Narrow (v : BitVec 64) : Prop :=
  (-2 ^ 30 ≤ v.toInt ∧ v.toInt < 2 ^ 30) ∨ v.toInt < -2 ^ 63 + 2 ^ 30 ∨ 2 ^ 63 - 2 ^ 30 ≤ v.toInt

theorem narrowed_zigzag64_iff (v : BitVec 64) :
    (EncodeZigzag64 v).signExtend 64 = zigzag64 v ↔ Narrow v := by
  have hv := v.isLt
  rw [EncodeZigzag64_eq, narrowed_eq_iff, Narrow, BitVec.toInt_eq_toNat_cond]
  by_cases hneg : 2 ^ 63 ≤ v.toNat
  · rw [zigzag64_neg hneg, if_neg (by omega)]
    omega
  · rw [zigzag64_nonneg (Nat.not_le.mp hneg), if_pos (by omega)]
    omega

/-! ## The round trip -/

namespace ByteStore
variable {σ : Type} (S : ByteStore σ) (back : σ → σ) (s : σ)

/-- The unsigned codec at `s`: a number that is written there comes back, where `back`
sets the position to where it was. -/
def Uint64Returns (u : BitVec 64) : Prop :=
  ∃ t, S.writeUint64 s u = .ok t ∧ ∃ t', S.readUint64 (back t) = .ok (u, t')

/-- The same of the signed codec. -/
def Int64Returns (v : BitVec 64) : Prop :=
  ∃ t, S.writeInt64 s v = .ok t ∧ ∃ t', S.readInt64 (back t) = .ok (v, t')

/-- What `readInt64` makes of what `writeInt64` left. -/
theorem readInt64_writeInt64 {v : BitVec 64}
    (h : S.Uint64Returns back s ((EncodeZigzag64 v).signExtend 64)) :
    ∃ t, S.writeInt64 s v = .ok t ∧
      ∃ t', S.readInt64 (back t) =
        .ok (DecodeZigzag64 ((EncodeZigzag64 v).signExtend 64), t') := by
  obtain ⟨t, ht, t', ht'⟩ := h
  refine ⟨t, ht, t', ?_⟩
  rw [readInt64, ht']
  rfl

/-- **When a signed number comes back**, on any store whose unsigned codec works. -/
theorem int64_round_trip_iff (h : ∀ u, S.Uint64Returns back s u) (v : BitVec 64) :
    S.Int64Returns back s v ↔ Narrow v := by
  obtain ⟨t, ht, t', ht'⟩ := S.readInt64_writeInt64 back s (v := v) (h _)
  rw [← narrowed_zigzag64_iff]
  constructor
  · rintro ⟨u, hu, u', hu'⟩
    obtain rfl := Except.ok.inj (ht.symm.trans hu)
    have hback := congrArg Prod.fst (Except.ok.inj (ht'.symm.trans hu'))
    exact DecodeZigzag64_injective (hback.trans (DecodeZigzag64_zigzag64 v).symm)
  · intro heq
    rw [heq, DecodeZigzag64_zigzag64] at ht'
    exact ⟨t, ht, t', ht'⟩

end ByteStore

namespace FlatStore

/-- An empty store. -/
def blank : FlatStore := cursor .little [] []

theorem uint64Returns_blank (u : BitVec 64) : store.Uint64Returns rewind blank u := by
  obtain ⟨bytes, -, -, hemits, htakes⟩ := (uint64_round_trip .little).1 u
  refine ⟨cursor .little bytes [], hemits [], cursor .little bytes [], ?_⟩
  have hread := htakes [] []
  rw [List.append_nil, List.nil_append] at hread
  rw [← hread]
  simp only [cursor, rewind, List.nil_append, List.append_nil, List.length_nil]

theorem int64_minus_three_returns : store.Int64Returns rewind blank (-3) :=
  (store.int64_round_trip_iff rewind blank uint64Returns_blank (-3)).mpr (.inl (by decide))

/-- 2^30 comes back as another number. -/
theorem int64_two_pow_lost :
    (∀ u, store.Uint64Returns rewind blank u) ∧
      ¬ store.Int64Returns rewind blank (BitVec.ofNat 64 (2 ^ 30)) := by
  refine ⟨uint64Returns_blank, ?_⟩
  rintro ⟨t, ht, t', ht'⟩
  obtain ⟨u, hu, u', hu'⟩ := store.readInt64_writeInt64 rewind blank
    (v := BitVec.ofNat 64 (2 ^ 30)) (uint64Returns_blank _)
  obtain rfl := Except.ok.inj (hu.symm.trans ht)
  have heq : DecodeZigzag64 ((EncodeZigzag64 (BitVec.ofNat 64 (2 ^ 30))).signExtend 64) =
      BitVec.ofNat 64 (2 ^ 30) := congrArg Prod.fst (Except.ok.inj (hu'.symm.trans ht'))
  revert heq
  decide

end FlatStore
end Sylar
