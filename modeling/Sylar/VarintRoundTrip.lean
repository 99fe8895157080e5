import Sylar.FlatStore

/-! # The varints, written and read back

The writers of `bytearray.cpp` that take no fixed number of bytes: `writeUint64`,
`writeUint32` and `writeInt32`, on the flat store.  All that matters of a writer is which
bytes it appends (`Emits`), and of a reader that it takes exactly these off what follows,
whatever comes behind them (`Takes`).

`readUint64` leaves its loop at the last byte of a number.  The loop of `readUint32` has
no `break`: it takes five bytes whatever it finds, which is right for a number of five
bytes and for no other.  `writeInt32` applies the zigzag code twice and `readInt32` takes
it off once, so that what comes back is the zigzag code of the argument. -/
namespace Sylar
open Interleaving

/-! ## One value after the other -/

section Each
variable {σ α : Type}

/-- A writer, once for every value of a list. -/
def writeEach (write : σ → α → Except Fault σ) : σ → List α → Except Fault σ
  | s, [] => .ok s
  | s, v :: vs => do
    let s ← write s v
    writeEach write s vs

/-- A reader, `n` times. -/
def readEach (read : σ → Except Fault (α × σ)) : Nat → σ → Except Fault (List α × σ)
  | 0, s => .ok ([], s)
  | n + 1, s => do
    let (v, s) ← read s
    let (vs, s) ← readEach read n s
    return (v :: vs, s)

end Each

namespace FlatStore

section Each
variable {α : Type} {order : Endian}

/-- At the end of the store the writer appends these bytes. -/
def Emits (order : Endian) (write : FlatStore → Except Fault FlatStore)
    (bytes : List UInt8) : Prop :=
  ∀ before, write (cursor order before []) = .ok (cursor order (before ++ bytes) [])

/-- In front of these bytes and a suffix, the reader returns `v` and takes exactly the
bytes. -/
def Takes (order : Endian) (read : FlatStore → Except Fault (α × FlatStore))
    (bytes : List UInt8) (v : α) (after : List UInt8) : Prop :=
  ∀ before, read (cursor order before (bytes ++ after)) =
    .ok (v, cursor order (before ++ bytes) after)

/-- A writer appends one thing. -/
theorem Emits.unique {write : FlatStore → Except Fault FlatStore} {bytes bytes' : List UInt8}
    (h : Emits order write bytes) (h' : Emits order write bytes') : bytes = bytes' := by
  have heq := Except.ok.inj ((h []).symm.trans (h' []))
  simpa [cursor] using congrArg FlatStore.bytes heq

theorem emits_writeEach {write : FlatStore → α → Except Fault FlatStore} {enc : α → List UInt8}
    (h : ∀ v, Emits order (write · v) (enc v)) (vs : List α) :
    Emits order (writeEach write · vs) (vs.flatMap enc) := by
  intro before
  induction vs generalizing before with
  | nil => simp [writeEach]
  | cons v vs ih =>
    have hv : write (cursor order before []) v = _ := h v before
    show (do
      let s ← write (cursor order before []) v
      writeEach write s vs) = _
    rw [hv]
    show writeEach write (cursor order (before ++ enc v) []) vs = _
    refine (ih _).trans ?_
    rw [List.flatMap_cons, List.append_assoc]

theorem takes_readEach {read : FlatStore → Except Fault (α × FlatStore)} {enc : α → List UInt8}
    {vs : List α} (h : ∀ v ∈ vs, ∀ after, Takes order read (enc v) v after)
    (after : List UInt8) :
    Takes order (readEach read vs.length) (vs.flatMap enc) vs after := by
  intro before
  induction vs generalizing before with
  | nil => simp [readEach]
  | cons v vs ih =>
    have hv := h v (List.mem_cons_self ..) (vs.flatMap enc ++ after) before
    have hvs := ih (fun u hu => h u (List.mem_cons_of_mem _ hu)) (before ++ enc v)
    rw [List.length_cons, readEach, List.flatMap_cons, List.append_assoc, hv]
    show (do
      let (us, s) ← readEach read vs.length (cursor order (before ++ enc v)
        (vs.flatMap enc ++ after))
      return (v :: us, s)) = _
    rw [hvs, List.append_assoc]
    rfl

/-- Readings that take `k` bytes each. -/
theorem readEach_moved {read : FlatStore → Except Fault (α × FlatStore)} {k n : Nat}
    (h : ∀ s r, read s = .ok r → Moved s r.2 k) {s : FlatStore} {r : List α × FlatStore}
    (hr : readEach read n s = .ok r) : Moved s r.2 (n * k) := by
  induction n generalizing s r with
  | zero =>
    cases hr
    rw [Nat.zero_mul]
    exact .refl
  | succ n ih =>
    obtain ⟨q, hq, hr⟩ := bind_ok hr
    obtain ⟨q', hq', hr⟩ := bind_ok hr
    obtain rfl := Except.ok.inj hr
    have hmoved := (h s q hq).trans (ih hq')
    rw [Nat.succ_mul, Nat.add_comm]
    exact hmoved

end Each

/-! ## Numbers of 64 bits -/

section Uint64
variable {order : Endian}

theorem emits_writeUint64 (v : BitVec 64) :
    Emits order (store.writeUint64 · v) (Varint.encode v.toNat) := by
  intro before
  have hv := v.isLt
  show (do
    let tmp ← varintLoop (9 + 1) v
    store.write (cursor order before []) tmp) = _
  rw [varintLoop_eq (by omega)]
  exact congrArg Except.ok (write_cursor order before _)

/-- **Every number of 64 bits comes back**: it is written in 1 to 10 bytes, and
`readUint64` takes these and no more; a list of numbers likewise. -/
theorem uint64_round_trip (order : Endian) :
    (∀ v : BitVec 64, ∃ bytes : List UInt8, 1 ≤ bytes.length ∧ bytes.length ≤ 10 ∧
      Emits order (store.writeUint64 · v) bytes ∧
      ∀ after, Takes order store.readUint64 bytes v after) ∧
    ∀ vs : List (BitVec 64), ∃ bytes : List UInt8,
      Emits order (writeEach store.writeUint64 · vs) bytes ∧
      ∀ after, Takes order (readEach store.readUint64 vs.length) bytes vs after := by
  have htakes : ∀ (v : BitVec 64) (after : List UInt8),
      Takes order store.readUint64 (Varint.encode v.toNat) v after :=
    fun v after before => readUint64_cursor v before after
  refine ⟨fun v => ?_, fun vs => ?_⟩
  · have hv := v.isLt
    exact ⟨_, Varint.length_encode_pos _, Varint.length_encode_le (by omega),
      emits_writeUint64 v, htakes v⟩
  · exact ⟨_, emits_writeEach emits_writeUint64 vs, takes_readEach fun v _ => htakes v⟩

end Uint64

/-! ## Numbers of 32 bits -/

section Uint32
variable {order : Endian}

theorem emits_writeUint32 (v : BitVec 32) :
    Emits order (store.writeUint32 · v) (Varint.encode v.toNat) := by
  intro before
  have hv := v.isLt
  show (do
    let tmp ← varintLoop (4 + 1) v
    store.write (cursor order before []) tmp) = _
  rw [varintLoop_eq (by omega)]
  exact congrArg Except.ok (write_cursor order before _)

/-- One turn of the loop of `readUint32`: the digit goes in, and the loop goes on. -/
theorem readUint32Loop_step {i : Nat} (shifts : List Nat) {result : BitVec 32} (b : UInt8)
    (before after : List UInt8) (hresult : result.toNat < 2 ^ i)
    (hfit : b.toNat % 128 * 2 ^ i < 2 ^ 32) :
    ∃ r : BitVec 32, r.toNat = result.toNat + b.toNat % 128 * 2 ^ i ∧
      store.readUint32Loop (i :: shifts) result (cursor order before (b :: after)) =
        store.readUint32Loop shifts r (cursor order (before ++ [b]) after) := by
  rw [ByteStore.readUint32Loop, readFuint8_cursor]
  show ∃ r : BitVec 32, _ ∧ (if b.toNat < 0x80 then _ else _) = _
  by_cases hlast : b.toNat < 0x80
  · have hdigit : b.toBitVec.toNat = b.toNat % 128 := (Nat.mod_eq_of_lt hlast).symm
    refine ⟨_, ?_, if_pos hlast⟩
    rw [Varint.or_shift hresult (by rw [hdigit]; exact hfit), hdigit]
  · have hdigit : (b.toBitVec &&& 0x7f).toNat = b.toNat % 128 := Varint.toNat_digit b.toBitVec
    refine ⟨_, ?_, if_neg hlast⟩
    rw [Varint.or_shift hresult (by rw [hdigit]; exact hfit), hdigit]

/-- Bytes that are zero leave the result alone. -/
theorem readUint32Loop_zeros {k m : Nat} {result : BitVec 32} (before after : List UInt8)
    (hresult : result.toNat < 2 ^ (7 * k)) :
    store.readUint32Loop ((List.range' k m).map (7 * ·)) result
        (cursor order before (List.replicate m 0 ++ after)) =
      .ok (result, cursor order (before ++ List.replicate m 0) after) := by
  induction m generalizing k before with
  | zero => simp [ByteStore.readUint32Loop]
  | succ m ih =>
    obtain ⟨r, hr, hstep⟩ := @readUint32Loop_step order (7 * k)
      ((List.range' (k + 1) m).map (7 * ·)) result 0 before (List.replicate m 0 ++ after) hresult
      (by simp)
    obtain rfl : r = result := BitVec.eq_of_toNat_eq (by simpa using hr)
    have hlt : r.toNat < 2 ^ (7 * (k + 1)) :=
      Nat.lt_of_lt_of_le hresult (Nat.pow_le_pow_right (by decide) (by omega))
    rw [List.range'_succ, List.map_cons, List.replicate_succ, List.cons_append, hstep,
      ih _ hlt, List.append_assoc]
    rfl

/-- The bytes of a number, filled up with zeros to `m` of them. -/
def padded (m v : Nat) : List UInt8 :=
  Varint.encode v ++ List.replicate (m - (Varint.encode v).length) 0

theorem padded_of_lt {m v : Nat} (h : v < 128) :
    padded (m + 1) v = UInt8.ofNat v :: List.replicate m 0 := by
  rw [padded, Varint.encode_of_lt h]
  rfl

theorem padded_of_ge {m v : Nat} (h : 128 ≤ v) :
    padded (m + 1) v = UInt8.ofNat (v % 128 + 128) :: padded m (v / 128) := by
  rw [padded, Varint.encode_of_ge h, List.length_cons, Nat.add_sub_add_right]
  rfl

theorem padded_length (v : Nat) : padded (Varint.encode v).length v = Varint.encode v := by
  rw [padded, Nat.sub_self, List.replicate_zero, List.append_nil]

/-- The last digit, and a zero for every turn that is left. -/
theorem readUint32Loop_last {k m v : Nat} {result : BitVec 32} (before after : List UInt8)
    (hv : v < 128) (hresult : result.toNat < 2 ^ (7 * k)) (hfit : v * 2 ^ (7 * k) < 2 ^ 32) :
    ∃ r : BitVec 32, r.toNat = result.toNat + v * 2 ^ (7 * k) ∧
      store.readUint32Loop ((List.range' k (m + 1)).map (7 * ·)) result
          (cursor order before (padded (m + 1) v ++ after)) =
        .ok (r, cursor order (before ++ padded (m + 1) v) after) := by
  have hbyte : (UInt8.ofNat v).toNat % 128 = v := by
    rw [UInt8.toNat_ofNat']
    omega
  obtain ⟨r, hr, hstep⟩ := @readUint32Loop_step order (7 * k)
    ((List.range' (k + 1) m).map (7 * ·)) result (UInt8.ofNat v) before
    (List.replicate m 0 ++ after) hresult (by rw [hbyte]; exact hfit)
  rw [hbyte] at hr
  have hlt : r.toNat < 2 ^ (7 * (k + 1)) := by
    have := Nat.mul_le_mul_right (2 ^ (7 * k)) (by omega : v ≤ 127)
    rw [Nat.mul_succ, Nat.pow_add]
    omega
  refine ⟨r, hr, ?_⟩
  rw [List.range'_succ, List.map_cons, padded_of_lt hv, List.cons_append, hstep,
    readUint32Loop_zeros _ _ hlt, List.append_assoc]
  rfl

/-- The loop of `readUint32`, on a number and a zero for every turn that is left. -/
theorem readUint32Loop_cursor {k m v : Nat} {result : BitVec 32} (before after : List UInt8)
    (hdigits : v < 128 ^ (m + 1)) (hresult : result.toNat < 2 ^ (7 * k))
    (hfit : v * 2 ^ (7 * k) < 2 ^ 32) :
    ∃ r : BitVec 32, r.toNat = result.toNat + v * 2 ^ (7 * k) ∧
      store.readUint32Loop ((List.range' k (m + 1)).map (7 * ·)) result
          (cursor order before (padded (m + 1) v ++ after)) =
        .ok (r, cursor order (before ++ padded (m + 1) v) after) := by
  induction m generalizing k v result before with
  | zero => exact readUint32Loop_last before after (by simpa using hdigits) hresult hfit
  | succ m ih =>
    by_cases hlt : v < 128
    · exact readUint32Loop_last before after hlt hresult hfit
    · have hge : 128 ≤ v := Nat.not_lt.mp hlt
      have hbyte : (UInt8.ofNat (v % 128 + 128)).toNat % 128 = v % 128 := by
        rw [UInt8.toNat_ofNat']
        omega
      have hpow : 2 ^ (7 * (k + 1)) = 128 * 2 ^ (7 * k) := by
        rw [Nat.mul_succ, Nat.pow_add, Nat.mul_comm]
      have hsplit : v * 2 ^ (7 * k) =
          v % 128 * 2 ^ (7 * k) + v / 128 * (128 * 2 ^ (7 * k)) := by
        rw [← Nat.mul_assoc, ← Nat.add_mul, Nat.mod_add_div']
      obtain ⟨r, hr, hstep⟩ := @readUint32Loop_step order (7 * k)
        ((List.range' (k + 1) (m + 1)).map (7 * ·)) result (UInt8.ofNat (v % 128 + 128)) before
        (padded (m + 1) (v / 128) ++ after) hresult (by rw [hbyte]; omega)
      rw [hbyte] at hr
      have hr' : r.toNat < 2 ^ (7 * (k + 1)) := by
        have := Nat.mul_le_mul_right (2 ^ (7 * k)) (by omega : v % 128 ≤ 127)
        omega
      obtain ⟨r', hr'', hloop⟩ := ih (before ++ [UInt8.ofNat (v % 128 + 128)])
        (by rw [Nat.div_lt_iff_lt_mul (by decide : 0 < 128), ← Nat.pow_succ]; exact hdigits) hr'
        (by rw [hpow]; omega)
      refine ⟨r', ?_, ?_⟩
      · rw [hr'', hr, hpow]
        omega
      · rw [List.range'_succ, List.map_cons, padded_of_ge hge, List.cons_append, hstep, hloop,
          List.append_assoc]
        rfl

/-- `readUint32` on a number that is filled up with zeros to five bytes. -/
theorem takes_padded (v : BitVec 32) (after : List UInt8) :
    Takes order store.readUint32 (padded 5 v.toNat) v after := by
  intro before
  have hv := v.isLt
  have hzero : (0 : BitVec 32).toNat < 2 ^ (7 * 0) := by decide
  obtain ⟨r, hr, hloop⟩ := readUint32Loop_cursor before after
    (by omega : v.toNat < 128 ^ (4 + 1)) hzero (by simpa using hv)
  obtain rfl : r = v := BitVec.eq_of_toNat_eq (by simpa using hr)
  rw [ByteStore.readUint32, List.range_eq_range']
  exact hloop

/-- The loop of `readUint32` takes a byte in every turn. -/
theorem readUint32Loop_moved {shifts : List Nat} {result : BitVec 32} {s : FlatStore}
    {r : BitVec 32 × FlatStore} (h : store.readUint32Loop shifts result s = .ok r) :
    Moved s r.2 shifts.length := by
  induction shifts generalizing result s with
  | nil =>
    cases h
    exact .refl
  | cons i shifts ih =>
    obtain ⟨⟨b, t⟩, hb, h⟩ := bind_ok h
    have hmoved : Moved s t 1 := readFuint8_moved hb
    dsimp only at h
    rw [List.length_cons, Nat.add_comm]
    split at h
    · exact hmoved.trans (ih h)
    · exact hmoved.trans (ih h)

theorem readUint32_moved (s : FlatStore) (r : BitVec 32 × FlatStore)
    (h : store.readUint32 s = .ok r) : Moved s r.2 5 :=
  readUint32Loop_moved h

/-- The encoding has all five bytes that the reader takes. -/
theorem five_bytes_iff (v : BitVec 32) :
    (Varint.encode v.toNat).length = 5 ↔ 2 ^ 28 ≤ v.toNat := by
  have hv := v.isLt
  constructor
  · intro h
    by_contra hlt
    have := Varint.length_encode_le (by omega : v.toNat < 128 ^ (3 + 1))
    omega
  · intro h
    have hle := Varint.length_encode_le (by omega : v.toNat < 128 ^ (4 + 1))
    have hge := Varint.le_length_encode (by omega : 128 ^ 4 ≤ v.toNat)
    omega

/-- Five bytes for each number are five bytes for every number. -/
theorem length_flatMap_encode (vs : List (BitVec 32)) :
    (vs.flatMap fun v => Varint.encode v.toNat).length ≤ vs.length * 5 ∧
      ((vs.flatMap fun v => Varint.encode v.toNat).length = vs.length * 5 →
        ∀ v ∈ vs, 2 ^ 28 ≤ v.toNat) := by
  induction vs with
  | nil => simp
  | cons v vs ih =>
    have hv := v.isLt
    have hle := Varint.length_encode_le (by omega : v.toNat < 128 ^ (4 + 1))
    rw [List.flatMap_cons, List.length_append, List.length_cons]
    refine ⟨by omega, fun h u hu => ?_⟩
    rcases List.mem_cons.mp hu with rfl | hu
    · exact (five_bytes_iff _).mp (by omega)
    · exact ih.2 (by omega) u hu

/-- **When numbers of 32 bits come back**: exactly those of five bytes do, and exactly the
lists of such numbers, whatever follows them. -/
theorem uint32_round_trip_iff (order : Endian) :
    (∀ (v : BitVec 32) (after : List UInt8),
      (∃ bytes : List UInt8, Emits order (store.writeUint32 · v) bytes ∧
        Takes order store.readUint32 bytes v after) ↔ 2 ^ 28 ≤ v.toNat) ∧
    ∀ (vs : List (BitVec 32)) (after : List UInt8),
      (∃ bytes : List UInt8, Emits order (writeEach store.writeUint32 · vs) bytes ∧
        Takes order (readEach store.readUint32 vs.length) bytes vs after) ↔
        ∀ v ∈ vs, 2 ^ 28 ≤ v.toNat := by
  have htakes : ∀ (v : BitVec 32), 2 ^ 28 ≤ v.toNat → ∀ after,
      Takes order store.readUint32 (Varint.encode v.toNat) v after := by
    intro v h after
    rw [← padded_length, (five_bytes_iff v).mpr h]
    exact takes_padded v after
  refine ⟨fun v after => ⟨?_, fun h => ?_⟩, fun vs after => ⟨?_, fun h => ?_⟩⟩
  · rintro ⟨bytes, hemits, htakes⟩
    have hmoved := (readUint32_moved _ _ (htakes [])).position
    rw [hemits.unique (emits_writeUint32 v)] at hmoved
    exact (five_bytes_iff v).mp (by simpa [cursor] using hmoved)
  · exact ⟨_, emits_writeUint32 v, htakes v h after⟩
  · rintro ⟨bytes, hemits, htakes⟩
    have hmoved := (readEach_moved readUint32_moved (htakes [])).position
    rw [hemits.unique (emits_writeEach emits_writeUint32 vs)] at hmoved
    exact (length_flatMap_encode vs).2 (by simpa [cursor] using hmoved)
  · exact ⟨_, emits_writeEach emits_writeUint32 vs,
      takes_readEach (fun v hv => htakes v (h v hv)) after⟩

/-- A number of one byte with nothing behind it: the reader wants four more. -/
theorem uint32_one_lost :
    ¬ ∃ bytes : List UInt8, Emits .little (store.writeUint32 · 1) bytes ∧
      Takes .little store.readUint32 bytes 1 [] := by
  rintro ⟨bytes, hemits, htakes⟩
  have hbytes : bytes = [1] := by
    rw [hemits.unique (emits_writeUint32 1), Varint.encode_of_lt (by decide)]
    rfl
  rw [hbytes] at htakes
  cases htakes []

end Uint32

end FlatStore

/-! ## Signed numbers of 32 bits -/

theorem slt_zero_iff {w : Nat} (v : BitVec (w + 1)) : v.slt 0 = true ↔ 2 ^ w ≤ v.toNat := by
  show v.slt 0#(w + 1) = true ↔ _
  rw [BitVec.slt_zero_eq_msb, BitVec.msb_eq_decide, decide_eq_true_iff, Nat.add_sub_cancel]

/-- A zigzag code of any width, without its lowest bit, which is the sign. -/
theorem toNat_unzigzag {w : Nat} (hw : 0 < w) (u : BitVec w) :
    (u >>> 1 ^^^ -(u &&& 1)).toNat =
      if u.toNat % 2 = 0 then u.toNat / 2 else 2 ^ w - 1 - u.toNat / 2 := by
  have hone : (1#w).toNat = 1 := by
    rw [BitVec.toNat_ofNat, Nat.mod_eq_of_lt (Nat.one_lt_two_pow (by omega))]
  have hshift : (u >>> 1).toNat = u.toNat / 2 := by
    rw [BitVec.toNat_ushiftRight, Nat.shiftRight_eq_div_pow]
  have hbit : (u &&& 1#w).toNat = u.toNat % 2 := by
    rw [BitVec.toNat_and, hone, Nat.and_one_is_mod]
  show (u >>> 1 ^^^ -(u &&& 1#w)).toNat = _
  by_cases heven : u.toNat % 2 = 0
  · have hmask : u &&& 1#w = 0#w := by
      refine BitVec.eq_of_toNat_eq ?_
      rw [hbit, heven, BitVec.toNat_ofNat, Nat.zero_mod]
    rw [hmask, BitVec.neg_zero, BitVec.xor_zero, hshift, if_pos heven]
  · have hmask : u &&& 1#w = 1#w := BitVec.eq_of_toNat_eq (by rw [hbit, hone]; omega)
    rw [hmask, BitVec.neg_one_eq_allOnes, BitVec.xor_allOnes, BitVec.toNat_not, hshift,
      if_neg heven]

theorem EncodeZigzag32_neg {v : BitVec 32} (h : 2 ^ 31 ≤ v.toNat) :
    (EncodeZigzag32 v).toNat = 2 * (2 ^ 32 - v.toNat) - 1 := by
  have hv := v.isLt
  rw [EncodeZigzag32, if_pos ((slt_zero_iff v).mpr h)]
  bv_omega

theorem EncodeZigzag32_nonneg {v : BitVec 32} (h : v.toNat < 2 ^ 31) :
    (EncodeZigzag32 v).toNat = 2 * v.toNat := by
  rw [EncodeZigzag32, if_neg (mt (slt_zero_iff v).mp (Nat.not_le.mpr h))]
  bv_omega

/-- The zigzag code is taken off again. -/
theorem DecodeZigzag32_EncodeZigzag32 (v : BitVec 32) :
    DecodeZigzag32 (EncodeZigzag32 v) = v := by
  have hv := v.isLt
  refine BitVec.eq_of_toNat_eq ?_
  rw [DecodeZigzag32, toNat_unzigzag (by decide)]
  by_cases hneg : 2 ^ 31 ≤ v.toNat
  · rw [EncodeZigzag32_neg hneg, if_neg (by omega)]
    omega
  · rw [EncodeZigzag32_nonneg (Nat.not_le.mp hneg), if_pos (by omega)]
    omega

/-- Zero is the only number that is its own zigzag code. -/
theorem EncodeZigzag32_eq_iff (v : BitVec 32) : EncodeZigzag32 v = v ↔ v = 0 := by
  constructor
  · intro h
    have heq := congrArg BitVec.toNat h
    by_cases hneg : 2 ^ 31 ≤ v.toNat
    · rw [EncodeZigzag32_neg hneg] at heq
      omega
    · rw [EncodeZigzag32_nonneg (Nat.not_le.mp hneg)] at heq
      have hzero : (0 : BitVec 32).toNat = 0 := rfl
      exact BitVec.eq_of_toNat_eq (by rw [hzero]; omega)
  · rintro rfl
    decide

namespace ByteStore
variable {σ : Type} (S : ByteStore σ) (back : σ → σ) (s : σ)

/-- The unsigned codec at `s`: a number that is written there comes back, where `back`
sets the position to where it was. -/
def Uint32Returns (u : BitVec 32) : Prop :=
  ∃ t, S.writeUint32 s u = .ok t ∧ ∃ t', S.readUint32 (back t) = .ok (u, t')

/-- The same of the signed codec. -/
def Int32Returns (v : BitVec 32) : Prop :=
  ∃ t, S.writeInt32 s v = .ok t ∧ ∃ t', S.readInt32 (back t) = .ok (v, t')

/-- What `readInt32` makes of what `writeInt32` left is the zigzag code of the number. -/
theorem readInt32_writeInt32 {v : BitVec 32}
    (h : S.Uint32Returns back s (EncodeZigzag32 (EncodeZigzag32 v))) :
    ∃ t, S.writeInt32 s v = .ok t ∧ ∃ t', S.readInt32 (back t) = .ok (EncodeZigzag32 v, t') := by
  obtain ⟨t, ht, t', ht'⟩ := h
  refine ⟨t, ht, t', ?_⟩
  rw [readInt32, ht']
  exact congrArg (fun u => Except.ok (u, t')) (DecodeZigzag32_EncodeZigzag32 (EncodeZigzag32 v))

/-- **When a signed number comes back**, on any store whose unsigned codec works: only zero
does. -/
theorem int32_round_trip_iff (h : ∀ u, S.Uint32Returns back s u) (v : BitVec 32) :
    S.Int32Returns back s v ↔ v = 0 := by
  obtain ⟨t, ht, t', ht'⟩ := S.readInt32_writeInt32 back s (h _)
  rw [← EncodeZigzag32_eq_iff]
  constructor
  · rintro ⟨u, hu, u', hu'⟩
    obtain rfl := Except.ok.inj (ht.symm.trans hu)
    exact congrArg Prod.fst (Except.ok.inj (ht'.symm.trans hu'))
  · intro heq
    rw [heq] at ht'
    exact ⟨t, ht, t', ht'⟩

end ByteStore

namespace FlatStore

/-- Five zeros, and the position before them. -/
def zeros : FlatStore := cursor .little [] (List.replicate 5 0)

/-- Over zeros, the unsigned codec works. -/
theorem uint32Returns_zeros (u : BitVec 32) : store.Uint32Returns rewind zeros u := by
  have hu := u.isLt
  have hle := Varint.length_encode_le (by omega : u.toNat < 128 ^ (4 + 1))
  have hbytes : (zeros.write (Varint.encode u.toNat)).rewind =
      cursor .little [] (padded 5 u.toNat ++ []) := by
    rw [zeros, padded, List.append_nil]
    simp only [cursor, write, rewind, List.nil_append, List.length_nil, List.take_zero,
      Nat.zero_add, List.drop_replicate]
  refine ⟨zeros.write (Varint.encode u.toNat), ?_, cursor .little (padded 5 u.toNat) [], ?_⟩
  · show (do
      let tmp ← varintLoop (4 + 1) u
      store.write zeros tmp) = _
    rw [varintLoop_eq (by omega)]
    rfl
  · rw [hbytes]
    exact takes_padded u [] []

/-- The number one comes back as two. -/
theorem int32_one_lost :
    (∀ u, store.Uint32Returns rewind zeros u) ∧ ¬ store.Int32Returns rewind zeros 1 := by
  refine ⟨uint32Returns_zeros, ?_⟩
  rintro ⟨t, ht, t', ht'⟩
  have hone := store.readInt32_writeInt32 rewind zeros (v := 1) (uint32Returns_zeros _)
  obtain ⟨u, hu, u', hu'⟩ := hone
  obtain rfl := Except.ok.inj (hu.symm.trans ht)
  have heq : EncodeZigzag32 1 = 1 := congrArg Prod.fst (Except.ok.inj (hu'.symm.trans ht'))
  revert heq
  decide

theorem int32_zero_returns : store.Int32Returns rewind zeros 0 :=
  (store.int32_round_trip_iff rewind zeros uint32Returns_zeros 0).mpr rfl

end FlatStore
end Sylar
