import Sylar.ByteArrayCodec
import Sylar.Overlay
import Sylar.Varint

/-! # A flat byte store

`FlatStore` is what a byte array should be to the typed operations: a sequence of bytes
and a position.  It is a `ByteStore`, so every codec runs on it as it runs on the byte
array.

A reader is described by a store that is cut at its position (`cursor before after`):
it takes some bytes off `after` and puts them behind `before`.  The lemmas say so for
`read`, for the fixed-width readers on what the writers hand to `write`, and for the
loop of `readUint64`. -/
namespace Sylar
open Interleaving Overlay

/-! ## Bytes of a variable -/

section HostBytes
variable {w : Nat}

@[simp] theorem length_hostBytes (v : BitVec w) : (hostBytes v).length = w / 8 := by
  simp [hostBytes]

/-- Bit `j` of a variable is in its byte `j / 8`. -/
theorem getLsbD_ofHostBytes (bs : List UInt8) (j : Nat) :
    (ofHostBytes w bs).getLsbD j =
      (decide (j < w) && ((bs[j / 8]?.getD 0).toBitVec.getLsbD (j % 8))) := by
  induction bs generalizing j with
  | nil => simp [ofHostBytes]
  | cons b bs ih =>
    rw [ofHostBytes, BitVec.getLsbD_or, BitVec.getLsbD_shiftLeft, BitVec.getLsbD_setWidth, ih]
    rcases Nat.lt_or_ge j 8 with hlt | hge
    · simp [hlt, Nat.div_eq_of_lt hlt, Nat.mod_eq_of_lt hlt]
    · have hdiv : j / 8 = (j - 8) / 8 + 1 := by omega
      have hmod : (j - 8) % 8 = j % 8 := by omega
      have htop : b.toBitVec.getLsbD j = false := BitVec.getLsbD_of_ge _ _ hge
      have hlt : decide (j - 8 < w) = true ∨ decide (j < w) = false := by
        simp only [decide_eq_true_eq, decide_eq_false_iff_not]
        omega
      rw [hdiv, List.getElem?_cons_succ, hmod, htop, Bool.and_false, Bool.or_false]
      rcases hlt with h | h <;> simp [h, Nat.not_lt.mpr hge]

theorem hostBytes_getElem? (v : BitVec w) (i : Nat) (hi : i < w / 8) :
    (hostBytes v)[i]? = some (UInt8.ofBitVec (v.extractLsb' (8 * i) 8)) := by
  simp [hostBytes, hi]

/-- A variable is its bytes. -/
theorem ofHostBytes_hostBytes (h : 8 ∣ w) (v : BitVec w) : ofHostBytes w (hostBytes v) = v := by
  refine BitVec.eq_of_getLsbD_eq fun j hj => ?_
  have hi : j / 8 < w / 8 := Nat.div_lt_div_of_lt_of_dvd h hj
  rw [getLsbD_ofHostBytes, hostBytes_getElem? v _ hi, Option.getD_some, BitVec.getLsbD_extractLsb',
    Nat.div_add_mod]
  simp [hj, Nat.mod_lt j]

/-- As many bytes as the variable has are the bytes of a variable. -/
theorem hostBytes_ofHostBytes {bs : List UInt8} (h : bs.length * 8 = w) :
    hostBytes (ofHostBytes w bs) = bs := by
  have hlen : w / 8 = bs.length := by omega
  refine List.ext_getElem? fun i => ?_
  rcases Nat.lt_or_ge i bs.length with hi | hi
  · rw [hostBytes_getElem? _ _ (by omega), List.getElem?_eq_getElem hi]
    refine congrArg some (UInt8.toBitVec_inj.mp ?_)
    refine BitVec.eq_of_getLsbD_eq fun j hj => ?_
    have hdiv : (8 * i + j) / 8 = i := by omega
    have hmod : (8 * i + j) % 8 = j := by omega
    have hlt : 8 * i + j < w := by omega
    rw [BitVec.getLsbD_extractLsb', getLsbD_ofHostBytes, hdiv, hmod,
      List.getElem?_eq_getElem hi]
    simp [hj, hlt]
  · rw [List.getElem?_eq_none hi, List.getElem?_eq_none (by rw [length_hostBytes]; omega)]

/-- The bytes of a variable of the other order, swapped. -/
theorem byteswap_ofHostBytes {bs : List UInt8} (h : bs.length * 8 = w) :
    byteswap (ofHostBytes w bs) = ofHostBytes w bs.reverse := by
  rw [byteswap, hostBytes_ofHostBytes h]

/-- Swapping twice gives the variable back. -/
theorem byteswap_byteswap (h : 8 ∣ w) (v : BitVec w) : byteswap (byteswap v) = v := by
  have hrev : (hostBytes v).reverse.length * 8 = w := by
    rw [List.length_reverse, length_hostBytes, Nat.div_mul_cancel h]
  rw [byteswap, byteswap, hostBytes_ofHostBytes hrev, List.reverse_reverse,
    ofHostBytes_hostBytes h]

end HostBytes

/-! ## The store -/

/-- A sequence of bytes with a position. -/
structure FlatStore where
  bytes : List UInt8
  position : Nat
  order : Endian
  deriving DecidableEq, Repr

namespace FlatStore

/-- The store that starts empty. -/
def empty (order : Endian) : FlatStore := { bytes := [], position := 0, order }

/-- The bytes at the position are replaced, and the position is behind them. -/
def write (s : FlatStore) (src : List UInt8) : FlatStore :=
  { s with
    bytes := s.bytes.take s.position ++ src ++ s.bytes.drop (s.position + src.length)
    position := s.position + src.length }

def getReadSize (s : FlatStore) : Nat := s.bytes.length - s.position

/-- The bytes at the position, if there are enough, and the position behind them. -/
def read (s : FlatStore) (n : Nat) : Except Fault (List UInt8 × FlatStore) :=
  if s.getReadSize < n then .error .outOfRange
  else .ok (window s.bytes s.position n, { s with position := s.position + n })

/-- Back to the start. -/
def rewind (s : FlatStore) : FlatStore := { s with position := 0 }

/-- What the typed operations use of it. -/
def store : ByteStore FlatStore where
  write s src := .ok (s.write src)
  read := read
  endian := order

/-- The store with the position between two parts. -/
def cursor (order : Endian) (before after : List UInt8) : FlatStore :=
  { bytes := before ++ after, position := before.length, order }

theorem write_cursor (order : Endian) (before src : List UInt8) :
    (cursor order before []).write src = cursor order (before ++ src) [] := by
  simp [cursor, write]

theorem read_cursor (order : Endian) (before src after : List UInt8) :
    (cursor order before (src ++ after)).read src.length =
      .ok (src, cursor order (before ++ src) after) := by
  have hroom : ¬ (cursor order before (src ++ after)).getReadSize < src.length := by
    simp [cursor, getReadSize]
  have hwindow : window (before ++ (src ++ after)) before.length src.length = src := by
    rw [← Nat.add_zero before.length, window_append_behind]
    simp [window]
  rw [read, if_neg hroom]
  simp [cursor, hwindow]

/-- What a read that completes says: the bytes are those asked for, in number, and the
position is behind them. -/
structure Moved (s t : FlatStore) (n : Nat) : Prop where
  bytes : t.bytes = s.bytes
  order : t.order = s.order
  position : t.position = s.position + n
  inside : s.position ≤ s.bytes.length → t.position ≤ t.bytes.length

theorem Moved.refl {s : FlatStore} : Moved s s 0 := ⟨rfl, rfl, rfl, id⟩

theorem Moved.trans {s t u : FlatStore} {m n : Nat} (h : Moved s t m) (h' : Moved t u n) :
    Moved s u (m + n) := by
  refine ⟨h'.bytes.trans h.bytes, h'.order.trans h.order, ?_, fun hin => h'.inside (h.inside hin)⟩
  rw [h'.position, h.position, Nat.add_assoc]

theorem read_moved {s : FlatStore} {n : Nat} {r : List UInt8 × FlatStore}
    (h : s.read n = .ok r) : Moved s r.2 n ∧ (s.position ≤ s.bytes.length → r.1.length = n) := by
  rw [read] at h
  split at h
  · cases h
  · rename_i hroom
    obtain rfl := Except.ok.inj h
    rw [getReadSize] at hroom
    refine ⟨⟨rfl, rfl, rfl, fun hin => ?_⟩, fun hin => ?_⟩
    · show s.position + n ≤ s.bytes.length
      omega
    · rw [length_window]
      omega

/-! ## Fixed widths -/

section Fixed
variable {w : Nat} {order : Endian}

/-- The bytes of a variable in the order of the store. -/
def ordered (order : Endian) (v : BitVec w) : List UInt8 :=
  hostBytes (if order ≠ hostOrder then byteswap v else v)

@[simp] theorem length_ordered (v : BitVec w) : (ordered order v).length = w / 8 := by
  rw [ordered, length_hostBytes]

theorem readFixed_cursor (h : 8 ∣ w) (v : BitVec w) (before after : List UInt8) :
    store.readFixed (cursor order before (ordered order v ++ after)) w =
      .ok (v, cursor order (before ++ ordered order v) after) := by
  have hread := read_cursor order before (ordered order v) after
  rw [length_ordered] at hread
  have hback : (if order = hostOrder then ofHostBytes w (ordered order v)
      else byteswap (ofHostBytes w (ordered order v))) = v := by
    rw [ordered]
    by_cases ho : order = hostOrder
    · rw [if_pos ho, if_neg (not_not.mpr ho), ofHostBytes_hostBytes h]
    · rw [if_neg ho, if_pos ho, ofHostBytes_hostBytes h, byteswap_byteswap h]
  show (do
    let (bytes, s) ← (cursor order before (ordered order v ++ after)).read (w / 8)
    let val := ofHostBytes w bytes
    return (if s.order = hostOrder then val else byteswap val, s)) = _
  rw [hread]
  exact congrArg (fun x => Except.ok (x, _)) hback

end Fixed
/-! ## Varints -/

/-- With room for its digits, the loop of the writers gives the bytes of the number. -/
theorem varintLoop_eq {w room : Nat} {v : BitVec w} (h : v.toNat < 128 ^ (room + 1)) :
    varintLoop (room + 1) v = .ok (Varint.encode v.toNat) := by
  induction room generalizing v with
  | zero =>
    have hlt : v.toNat < 128 := by simpa using h
    rw [varintLoop, if_neg (by omega), Varint.encode_of_lt hlt]
  | succ room ih =>
    rw [varintLoop]
    rcases Nat.lt_or_ge v.toNat 128 with hlt | hge
    · rw [if_neg (by omega), Varint.encode_of_lt hlt]
    · have hshift : (v >>> 7).toNat = v.toNat / 128 := by
        rw [BitVec.toNat_ushiftRight, Nat.shiftRight_eq_div_pow]
      have hrest : (v >>> 7).toNat < 128 ^ (room + 1) := by
        rw [hshift, Nat.div_lt_iff_lt_mul (by decide), ← Nat.pow_succ]
        exact h
      rw [if_pos hge, ih hrest, Varint.encode_of_ge hge, hshift]
      rfl

section Varints
variable {order : Endian}

theorem readFuint8_cursor (b : UInt8) (before after : List UInt8) :
    store.readFuint8 (cursor order before (b :: after)) =
      .ok (b.toBitVec, cursor order (before ++ [b]) after) := by
  have hread := read_cursor order before [b] after
  show (do
    let (bytes, s) ← (cursor order before ([b] ++ after)).read [b].length
    return (ofHostBytes 8 bytes, s)) = _
  rw [hread]
  have hbyte : ofHostBytes 8 [b] = b.toBitVec := by
    simp [ofHostBytes]
  exact congrArg (fun x => Except.ok (x, _)) hbyte

/-- The last digit: the loop ends. -/
theorem readUint64Loop_last {i v : Nat} {shifts : List Nat} {result : BitVec 64}
    (before after : List UInt8) (hv : v < 128) (hresult : result.toNat < 2 ^ i)
    (hfit : v * 2 ^ i < 2 ^ 64) :
    ∃ r : BitVec 64, r.toNat = result.toNat + v * 2 ^ i ∧
      store.readUint64Loop (i :: shifts) result (cursor order before (Varint.encode v ++ after)) =
        .ok (r, cursor order (before ++ Varint.encode v) after) := by
  have hbyte : (UInt8.ofNat v).toBitVec.toNat = v := by
    show (UInt8.ofNat v).toNat = v
    rw [UInt8.toNat_ofNat']
    omega
  rw [Varint.encode_of_lt hv, List.singleton_append, ByteStore.readUint64Loop, readFuint8_cursor]
  refine ⟨_, ?_, if_pos (by rw [hbyte]; exact hv)⟩
  rw [Varint.or_shift hresult (by rw [hbyte]; exact hfit), hbyte]

/-- A digit that is not the last: the loop goes on. -/
theorem readUint64Loop_more {i v : Nat} (shifts : List Nat) {result : BitVec 64}
    (before after : List UInt8) (hv : 128 ≤ v) (hresult : result.toNat < 2 ^ i)
    (hfit : v * 2 ^ i < 2 ^ 64) :
    ∃ r : BitVec 64, r.toNat = result.toNat + v % 128 * 2 ^ i ∧
      store.readUint64Loop (i :: shifts) result (cursor order before (Varint.encode v ++ after)) =
        store.readUint64Loop shifts r
          (cursor order (before ++ [UInt8.ofNat (v % 128 + 128)])
            (Varint.encode (v / 128) ++ after)) := by
  have hbyte : (UInt8.ofNat (v % 128 + 128)).toBitVec.toNat = v % 128 + 128 := by
    show (UInt8.ofNat (v % 128 + 128)).toNat = _
    rw [UInt8.toNat_ofNat']
    omega
  have hdigit : ((UInt8.ofNat (v % 128 + 128)).toBitVec &&& 0x7f).toNat = v % 128 := by
    rw [Varint.toNat_digit, hbyte]
    omega
  rw [Varint.encode_of_ge hv, List.cons_append, ByteStore.readUint64Loop, readFuint8_cursor]
  refine ⟨_, ?_, if_neg (by rw [hbyte]; omega)⟩
  rw [Varint.or_shift hresult, hdigit]
  rw [hdigit]
  exact Nat.lt_of_le_of_lt (Nat.mul_le_mul_right _ (Nat.mod_le _ _)) hfit

/-- The loop of `readUint64` on the bytes of a number whose digits fit. -/
theorem readUint64Loop_cursor {k m v : Nat} {result : BitVec 64} (before after : List UInt8)
    (hdigits : v < 128 ^ (m + 1)) (hresult : result.toNat < 2 ^ (7 * k))
    (hfit : v * 2 ^ (7 * k) < 2 ^ 64) :
    ∃ r : BitVec 64, r.toNat = result.toNat + v * 2 ^ (7 * k) ∧
      store.readUint64Loop ((List.range' k (m + 1)).map (7 * ·)) result
          (cursor order before (Varint.encode v ++ after)) =
        .ok (r, cursor order (before ++ Varint.encode v) after) := by
  induction m generalizing k v result before with
  | zero =>
    exact readUint64Loop_last before after (by simpa using hdigits) hresult hfit
  | succ m ih =>
    rw [List.range'_succ, List.map_cons]
    rcases Nat.lt_or_ge v 128 with hlt | hge
    · exact readUint64Loop_last before after hlt hresult hfit
    · obtain ⟨r, hr, hstep⟩ := readUint64Loop_more
        ((List.range' (k + 1) (m + 1)).map (7 * ·)) before after hge hresult hfit
      have hpow : 2 ^ (7 * (k + 1)) = 128 * 2 ^ (7 * k) := by
        rw [Nat.mul_succ, Nat.pow_add, Nat.mul_comm]
      have hdiv := Nat.div_add_mod v 128
      have hsplit : v * 2 ^ (7 * k) =
          v % 128 * 2 ^ (7 * k) + v / 128 * (128 * 2 ^ (7 * k)) := by
        rw [← Nat.mul_assoc, ← Nat.add_mul]
        congr 1
        omega
      have hr' : r.toNat < 2 ^ (7 * (k + 1)) := by
        have := Nat.mul_le_mul_right (2 ^ (7 * k)) (by omega : v % 128 ≤ 127)
        omega
      obtain ⟨r', hr'', hloop⟩ := ih (before ++ [UInt8.ofNat (v % 128 + 128)])
        (by rw [Nat.div_lt_iff_lt_mul (by decide : 0 < 128), ← Nat.pow_succ]; exact hdigits) hr'
        (by rw [hpow]; omega)
      refine ⟨r', ?_, ?_⟩
      · rw [hr'', hr, hpow]
        omega
      · rw [hstep, hloop, Varint.encode_of_ge hge, List.append_assoc]
        rfl

/-- **`readUint64` reads what `writeUint64` wrote.** -/
theorem readUint64_cursor (v : BitVec 64) (before after : List UInt8) :
    store.readUint64 (cursor order before (Varint.encode v.toNat ++ after)) =
      .ok (v, cursor order (before ++ Varint.encode v.toNat) after) := by
  have hv := v.isLt
  have hzero : (0 : BitVec 64).toNat < 2 ^ (7 * 0) := by decide
  obtain ⟨r, hr, hloop⟩ := readUint64Loop_cursor before after
    (by omega : v.toNat < 128 ^ (9 + 1)) hzero (by simpa using hv)
  obtain rfl : r = v := BitVec.eq_of_toNat_eq (by simpa using hr)
  rw [ByteStore.readUint64, List.range_eq_range']
  exact hloop

/-- A digit goes in below the next power. -/
theorem or_lt {k : Nat} {result : BitVec 64} {digit : BitVec 8}
    (hresult : result.toNat < 2 ^ (7 * k)) (hdigit : digit.toNat < 128) :
    (result ||| (digit.setWidth 64 <<< (7 * k))).toNat < 2 ^ (7 * (k + 1)) := by
  have hpow : 2 ^ (7 * (k + 1)) = 128 * 2 ^ (7 * k) := by
    rw [Nat.mul_succ, Nat.pow_add, Nat.mul_comm]
  rw [BitVec.toNat_or]
  refine Nat.or_lt_two_pow ?_ ?_
  · have := Nat.one_le_two_pow (n := 7 * k)
    omega
  · rw [BitVec.toNat_shiftLeft, BitVec.toNat_setWidth, Nat.shiftLeft_eq, hpow]
    refine Nat.lt_of_le_of_lt (Nat.mod_le _ _) ?_
    refine Nat.mul_lt_mul_of_pos_right ?_ (Nat.two_pow_pos _)
    exact Nat.lt_of_le_of_lt (Nat.mod_le _ _) hdigit

theorem readFuint8_moved {s : FlatStore} {r : BitVec 8 × FlatStore}
    (h : store.readFuint8 s = .ok r) : Moved s r.2 1 := by
  obtain ⟨q, hq, hr⟩ := bind_ok h
  obtain rfl := Except.ok.inj hr
  exact (read_moved hq).1

/-- Whatever it finds, the loop gives a number of no more digits than it took bytes. -/
theorem readUint64Loop_moved {k m : Nat} {result : BitVec 64} {s : FlatStore}
    {r : BitVec 64 × FlatStore} (hresult : result.toNat < 2 ^ (7 * k))
    (h : store.readUint64Loop ((List.range' k m).map (7 * ·)) result s = .ok r) :
    ∃ c, Moved s r.2 c ∧ r.1.toNat < 2 ^ (7 * (k + c)) ∧ (0 < m → 0 < c) := by
  induction m generalizing k result s with
  | zero =>
    cases h
    exact ⟨0, .refl, hresult, nofun⟩
  | succ m ih =>
    rw [List.range'_succ, List.map_cons] at h
    obtain ⟨⟨b, t⟩, hb, h⟩ := bind_ok h
    have hmoved : Moved s t 1 := readFuint8_moved hb
    dsimp only at h
    split at h
    · rename_i hlast
      cases h
      exact ⟨1, hmoved, or_lt hresult hlast, fun _ => Nat.one_pos⟩
    · have hdigit : (b &&& 0x7f).toNat < 128 := by
        rw [Varint.toNat_digit]
        exact Nat.mod_lt _ (by decide)
      obtain ⟨c, hrest, hlt, -⟩ := ih (or_lt hresult hdigit) h
      refine ⟨1 + c, hmoved.trans hrest, ?_, fun _ => by omega⟩
      rw [← Nat.add_assoc]
      exact hlt

/-- `readUint64` takes at least the bytes that its value has. -/
theorem readUint64_moved {s : FlatStore} {r : BitVec 64 × FlatStore}
    (h : store.readUint64 s = .ok r) :
    ∃ c, Moved s r.2 c ∧ (Varint.encode r.1.toNat).length ≤ c := by
  rw [ByteStore.readUint64, List.range_eq_range'] at h
  obtain ⟨c, hmoved, hlt, hpos⟩ := readUint64Loop_moved (by decide) h
  refine ⟨c, hmoved, ?_⟩
  obtain ⟨k, rfl⟩ := Nat.exists_eq_succ_of_ne_zero (Nat.ne_of_gt (hpos (by decide)))
  refine Varint.length_encode_le ?_
  rw [Nat.zero_add, Nat.pow_mul] at hlt
  exact hlt

end Varints
end FlatStore
end Sylar
