import Sylar.FlatStore

/-! # Round trips through the byte array

A sequence of values is written with the fixed-width and the string writers, and read
back from the start with the readers of the same types.  The byte store is a flat one, so
only the codecs are at issue.

Each writer emits the bytes of its item (`Item.encode`), and a reader that finds them
takes them all and returns the item, with two exceptions: `writeFuint16` emits nothing,
so `writeStringF16` emits no length, and `writeStringF32` cuts the length of a string
off at 32 bits.  A reader of the wrong bytes may still return the right value, but then
it has taken more bytes than were written, and the position ends up in the wrong place.

**`round_trip_iff`**: the sequence comes back, and nothing is left, exactly when none of
the exceptions is in it. -/
namespace Sylar
open Interleaving

/-- A value with the type that it is written and read with. -/
inductive Item
  | fint8 (value : BitVec 8) | fuint8 (value : BitVec 8)
  | fint16 (value : BitVec 16) | fuint16 (value : BitVec 16)
  | fint32 (value : BitVec 32) | fuint32 (value : BitVec 32)
  | fint64 (value : BitVec 64) | fuint64 (value : BitVec 64)
  | float (bits : BitVec 32) | double (bits : BitVec 64)
  | stringF16 (value : List UInt8) | stringF32 (value : List UInt8)
  | stringF64 (value : List UInt8) | stringVint (value : List UInt8)
  deriving DecidableEq, Repr

namespace Item

section Store
variable {σ : Type} (S : ByteStore σ) (s : σ)

/-- The writer of the type. -/
def write : Item → Except Fault σ
  | fint8 v => S.writeFint8 s v
  | fuint8 v => S.writeFuint8 s v
  | fint16 v => S.writeFint16 s v
  | fuint16 v => S.writeFuint16 s v
  | fint32 v => S.writeFint32 s v
  | fuint32 v => S.writeFuint32 s v
  | fint64 v => S.writeFint64 s v
  | fuint64 v => S.writeFuint64 s v
  | float v => S.writeFloat s v
  | double v => S.writeDouble s v
  | stringF16 v => S.writeStringF16 s v
  | stringF32 v => S.writeStringF32 s v
  | stringF64 v => S.writeStringF64 s v
  | stringVint v => S.writeStringVint s v

/-- The reader of the type; the value of the item is not used. -/
def readBack : Item → Except Fault (Item × σ)
  | fint8 _ => (S.readFint8 s).map fun (v, s) => (fint8 v, s)
  | fuint8 _ => (S.readFuint8 s).map fun (v, s) => (fuint8 v, s)
  | fint16 _ => (S.readFint16 s).map fun (v, s) => (fint16 v, s)
  | fuint16 _ => (S.readFuint16 s).map fun (v, s) => (fuint16 v, s)
  | fint32 _ => (S.readFint32 s).map fun (v, s) => (fint32 v, s)
  | fuint32 _ => (S.readFuint32 s).map fun (v, s) => (fuint32 v, s)
  | fint64 _ => (S.readFint64 s).map fun (v, s) => (fint64 v, s)
  | fuint64 _ => (S.readFuint64 s).map fun (v, s) => (fuint64 v, s)
  | float _ => (S.readFloat s).map fun (v, s) => (float v, s)
  | double _ => (S.readDouble s).map fun (v, s) => (double v, s)
  | stringF16 _ => (S.readStringF16 s).map fun (v, s) => (stringF16 v, s)
  | stringF32 _ => (S.readStringF32 s).map fun (v, s) => (stringF32 v, s)
  | stringF64 _ => (S.readStringF64 s).map fun (v, s) => (stringF64 v, s)
  | stringVint _ => (S.readStringVint s).map fun (v, s) => (stringVint v, s)

/-- All writers, in order. -/
def writeAll : σ → List Item → Except Fault σ
  | s, [] => .ok s
  | s, item :: items => do
    let s ← item.write S s
    writeAll s items

/-- All readers, in order. -/
def readAll : σ → List Item → Except Fault (List Item × σ)
  | s, [] => .ok ([], s)
  | s, item :: items => do
    let (value, s) ← item.readBack S s
    let (values, s) ← readAll s items
    return (value :: values, s)

end Store

/-- The bytes that the writer hands to the store. -/
def encode (order : Endian) : Item → List UInt8
  | fint8 v | fuint8 v => hostBytes v
  | fuint16 _ => []
  | fint16 v => FlatStore.ordered order v
  | fint32 v | fuint32 v | float v => FlatStore.ordered order v
  | fint64 v | fuint64 v | double v => FlatStore.ordered order v
  | stringF16 v => v
  | stringF32 v => FlatStore.ordered order (BitVec.ofNat 32 v.length) ++ v
  | stringF64 v => FlatStore.ordered order (BitVec.ofNat 64 v.length) ++ v
  | stringVint v => Varint.encode (BitVec.ofNat 64 v.length).toNat ++ v

/-- The writer emits what the reader of the type expects. -/
def fits : Item → Bool
  | fuint16 _ | stringF16 _ => false
  | stringF32 v => decide (v.length < 2 ^ 32)
  | stringF64 v | stringVint v => decide (v.length < 2 ^ 64)
  | _ => true

section Flat
open FlatStore
variable {order : Endian}

/-- A writer appends the bytes of its item. -/
theorem write_flat (item : Item) (before : List UInt8) :
    item.write store (cursor order before []) =
      .ok (cursor order (before ++ item.encode order) []) := by
  cases item with
  | fuint16 =>
    rw [encode, List.append_nil]
    rfl
  | fint8 | fuint8 | fint16 | fint32 | fuint32 | fint64 | fuint64 | float | double | stringF16 =>
    exact congrArg Except.ok (write_cursor order before _)
  | stringF32 v | stringF64 v =>
    show Except.ok (((cursor order before []).write _).write v) = _
    rw [write_cursor, write_cursor, List.append_assoc]
    rfl
  | stringVint v =>
    show (do
      let s ← (do
        let tmp ← varintLoop 10 (BitVec.ofNat 64 v.length)
        store.write (cursor order before []) tmp)
      store.write s v) = _
    have hlt := (BitVec.ofNat 64 v.length).isLt
    rw [varintLoop_eq (by omega)]
    show Except.ok (((cursor order before []).write _).write v) = _
    rw [write_cursor, write_cursor, List.append_assoc]
    rfl

/-- A reader behind a prefix that gives the length of the string. -/
theorem readString_cursor {w : Nat} {prefixBytes v : List UInt8} {len : BitVec w}
    {x : FlatStore → Except Fault (BitVec w × FlatStore)} (before after : List UInt8)
    (hx : x (cursor order before (prefixBytes ++ (v ++ after))) =
      .ok (len, cursor order (before ++ prefixBytes) (v ++ after)))
    (hlen : len.toNat = v.length) :
    (do
      let (len, s) ← x (cursor order before (prefixBytes ++ (v ++ after)))
      store.read s len.toNat) =
      .ok (v, cursor order (before ++ (prefixBytes ++ v)) after) := by
  have hread := read_cursor order (before ++ prefixBytes) v after
  rw [List.append_assoc] at hread
  rw [hx]
  show (cursor order (before ++ prefixBytes) (v ++ after)).read len.toNat = _
  rw [hlen, hread]

/-- **A reader takes what the writer of an item that fits has emitted.** -/
theorem readBack_flat {item : Item} (h : item.fits = true) (before after : List UInt8) :
    item.readBack store (cursor order before (item.encode order ++ after)) =
      .ok (item, cursor order (before ++ item.encode order) after) := by
  cases item with
  | fuint16 | stringF16 => cases h
  | fint8 v | fuint8 v =>
    have hbytes : hostBytes v = [UInt8.ofBitVec v] := by simp [hostBytes]
    rw [encode, hbytes]
    exact congrArg (Except.map _) (readFuint8_cursor (UInt8.ofBitVec v) before after)
  | fint16 v =>
    exact congrArg (Except.map _) (readFixed_cursor (by decide) v before after)
  | fint32 v | fuint32 v | float v =>
    exact congrArg (Except.map _) (readFixed_cursor (by decide) v before after)
  | fint64 v | fuint64 v | double v =>
    exact congrArg (Except.map _) (readFixed_cursor (by decide) v before after)
  | stringF32 v =>
    have hlen : (BitVec.ofNat 32 v.length).toNat = v.length := by
      rw [BitVec.toNat_ofNat, Nat.mod_eq_of_lt (of_decide_eq_true h)]
    rw [encode, List.append_assoc]
    exact congrArg (Except.map _)
      (readString_cursor before after (readFixed_cursor (by decide) _ before _) hlen)
  | stringF64 v =>
    have hlen : (BitVec.ofNat 64 v.length).toNat = v.length := by
      rw [BitVec.toNat_ofNat, Nat.mod_eq_of_lt (of_decide_eq_true h)]
    rw [encode, List.append_assoc]
    exact congrArg (Except.map _)
      (readString_cursor before after (readFixed_cursor (by decide) _ before _) hlen)
  | stringVint v =>
    have hlen : (BitVec.ofNat 64 v.length).toNat = v.length := by
      rw [BitVec.toNat_ofNat, Nat.mod_eq_of_lt (of_decide_eq_true h)]
    rw [encode, List.append_assoc]
    exact congrArg (Except.map _)
      (readString_cursor before after (readUint64_cursor _ before _) hlen)

/-- A reader of a fixed width takes its bytes. -/
theorem readFixed_moved {w : Nat} {s : FlatStore} {r : BitVec w × FlatStore}
    (h : store.readFixed s w = .ok r) : Moved s r.2 (w / 8) := by
  obtain ⟨q, hq, hr⟩ := bind_ok h
  obtain rfl := Except.ok.inj hr
  exact (read_moved hq).1

/-- A string that comes back has the length that was read, and its bytes were taken. -/
theorem readString_moved {w : Nat} {s t : FlatStore} {v : List UInt8}
    {x : Except Fault (BitVec w × FlatStore)} (hin : s.position ≤ s.bytes.length)
    (h : (do
      let (len, s) ← x
      store.read s len.toNat) = .ok (v, t))
    (hx : ∀ r, x = .ok r → ∃ c, Moved s r.2 c) :
    ∃ r, x = .ok r ∧ r.1.toNat = v.length ∧
      ∀ c, Moved s r.2 c → Moved s t (c + v.length) := by
  obtain ⟨r, hr, hread⟩ := bind_ok h
  obtain ⟨c, hmoved⟩ := hx r hr
  obtain ⟨hnext, hlen⟩ := read_moved hread
  have hlength := hlen (hmoved.inside hin)
  refine ⟨r, hr, hlength.symm, fun c hc => ?_⟩
  rw [hlength]
  exact hc.trans hnext

/-- Behind a length of fixed width. -/
theorem readFixedString_moved {w : Nat} {s t : FlatStore} {v : List UInt8}
    (hin : s.position ≤ s.bytes.length)
    (h : (do
      let (len, s) ← store.readFixed s w
      store.read s len.toNat) = .ok (v, t)) :
    Moved s t (w / 8 + v.length) ∧ v.length < 2 ^ w := by
  obtain ⟨r, hr, hlen, hmoved⟩ := readString_moved hin h fun r hr => ⟨_, readFixed_moved hr⟩
  exact ⟨hmoved _ (readFixed_moved hr), hlen ▸ r.1.isLt⟩

/-- **An item that comes back took at least the bytes that it emits**, and more if it does
not fit. -/
theorem readBack_moved {item : Item} {s t : FlatStore} (order : Endian)
    (hin : s.position ≤ s.bytes.length) (h : item.readBack store s = .ok (item, t)) :
    ∃ c, Moved s t c ∧ (item.encode order).length ≤ c ∧
      (item.fits = false → (item.encode order).length < c) := by
  cases item with
  | fint8 v | fuint8 v =>
    obtain ⟨q, hq, hr⟩ := map_ok h
    cases hr
    exact ⟨1, readFuint8_moved hq, by simp [encode], nofun⟩
  | fuint16 v =>
    obtain ⟨q, hq, hr⟩ := map_ok h
    cases hr
    exact ⟨_, readFixed_moved hq, by simp [encode], by simp [encode]⟩
  | fint16 v | fint32 v | fuint32 v | float v | fint64 v | fuint64 v | double v =>
    obtain ⟨q, hq, hr⟩ := map_ok h
    cases hr
    exact ⟨_, readFixed_moved hq, by simp [encode], nofun⟩
  | stringF16 v =>
    obtain ⟨q, hq, hr⟩ := map_ok h
    cases hr
    obtain ⟨hmoved, -⟩ := readFixedString_moved hin hq
    exact ⟨_, hmoved, by simp [encode], by simp [encode]⟩
  | stringF32 v | stringF64 v =>
    obtain ⟨q, hq, hr⟩ := map_ok h
    cases hr
    obtain ⟨hmoved, hlt⟩ := readFixedString_moved hin hq
    refine ⟨_, hmoved, by simp [encode], fun hnot => ?_⟩
    exact absurd hlt (of_decide_eq_false hnot)
  | stringVint v =>
    obtain ⟨⟨v, u⟩, hq, hr⟩ := map_ok h
    cases hr
    obtain ⟨r, hr, hlen, hmoved⟩ := readString_moved hin hq fun r hr =>
      let ⟨c, hc, _⟩ := readUint64_moved hr
      ⟨c, hc⟩
    obtain ⟨c, hc, hle⟩ := readUint64_moved hr
    have hlt : v.length < 2 ^ 64 := hlen ▸ r.1.isLt
    refine ⟨_, hmoved c hc, ?_, fun hnot => absurd hlt (of_decide_eq_false hnot)⟩
    have hof : (BitVec.ofNat 64 v.length).toNat = v.length := by
      rw [BitVec.toNat_ofNat, Nat.mod_eq_of_lt hlt]
    rw [encode, List.length_append, hof, ← hlen]
    exact Nat.add_le_add_right hle _

/-! ## Sequences -/

theorem writeAll_flat (items : List Item) (before : List UInt8) :
    writeAll store (cursor order before []) items =
      .ok (cursor order (before ++ items.flatMap (encode order)) []) := by
  induction items generalizing before with
  | nil => simp [writeAll]
  | cons item items ih =>
    rw [writeAll, write_flat]
    show writeAll store (cursor order (before ++ item.encode order) []) items = _
    rw [ih, List.flatMap_cons, List.append_assoc]

theorem readAll_flat {items : List Item} (h : ∀ item ∈ items, item.fits = true)
    (before after : List UInt8) :
    readAll store (cursor order before (items.flatMap (encode order) ++ after)) items =
      .ok (items, cursor order (before ++ items.flatMap (encode order)) after) := by
  induction items generalizing before with
  | nil => simp [readAll]
  | cons item items ih =>
    have hitem : item.readBack store (cursor order before
          (item.encode order ++ (items.flatMap (encode order) ++ after))) =
        .ok (item, cursor order (before ++ item.encode order)
          (items.flatMap (encode order) ++ after)) :=
      readBack_flat (h item (List.mem_cons_self ..)) before _
    have hitems := ih (fun i hi => h i (List.mem_cons_of_mem _ hi)) (before ++ item.encode order)
    rw [readAll, List.flatMap_cons, List.append_assoc, hitem]
    show (do
      let (values, s) ← readAll store (cursor order (before ++ item.encode order)
        (items.flatMap (encode order) ++ after)) items
      return (item :: values, s)) = _
    rw [hitems, List.append_assoc]
    rfl

/-- What comes back took at least the bytes that it emits, and more if an item does not
fit. -/
theorem readAll_moved {items : List Item} {s t : FlatStore} (order : Endian)
    (hin : s.position ≤ s.bytes.length) (h : readAll store s items = .ok (items, t)) :
    ∃ c, Moved s t c ∧ (items.flatMap (encode order)).length ≤ c ∧
      ((∃ item ∈ items, item.fits = false) → (items.flatMap (encode order)).length < c) := by
  induction items generalizing s with
  | nil =>
    cases h
    exact ⟨0, .refl, Nat.le_refl 0, by simp⟩
  | cons item items ih =>
    obtain ⟨⟨value, u⟩, hvalue, h⟩ := bind_ok h
    obtain ⟨⟨values, t'⟩, hvalues, hr⟩ := bind_ok h
    cases hr
    obtain ⟨c, hmoved, hle, hstrict⟩ := readBack_moved order hin hvalue
    obtain ⟨c', hmoved', hle', hstrict'⟩ := ih (hmoved.inside hin) hvalues
    refine ⟨c + c', hmoved.trans hmoved', ?_, ?_⟩
    · rw [List.flatMap_cons, List.length_append]
      omega
    · rintro ⟨i, hi, hnot⟩
      rw [List.flatMap_cons, List.length_append]
      rcases List.mem_cons.mp hi with rfl | hi
      · have := hstrict hnot
        omega
      · have := hstrict' ⟨i, hi, hnot⟩
        omega

/-- Written to an empty store and read from the start, the items come back, and nothing is
left. -/
def RoundTrips (order : Endian) (items : List Item) : Prop :=
  ∃ s, writeAll store (empty order) items = .ok s ∧
    ∃ t, readAll store s.rewind items = .ok (items, t) ∧ t.getReadSize = 0

/-- **When a sequence comes back.** -/
theorem round_trip_iff (order : Endian) (items : List Item) :
    RoundTrips order items ↔ ∀ item ∈ items, item.fits = true := by
  have hwrite : writeAll store (empty order) items =
      .ok (cursor order (items.flatMap (encode order)) []) := writeAll_flat items []
  constructor
  · rintro ⟨s, hs, t, ht, hleft⟩ item hitem
    obtain rfl := Except.ok.inj (hwrite.symm.trans hs)
    by_contra hnot
    obtain ⟨c, hmoved, -, hstrict⟩ := readAll_moved order (Nat.zero_le _) ht
    have hlt := hstrict ⟨item, hitem, by simpa using hnot⟩
    -- the position is inside the store, and behind all that was written
    have hinside := hmoved.inside (Nat.zero_le _)
    rw [hmoved.position, hmoved.bytes] at hinside
    simp only [rewind, cursor, List.append_nil] at hinside
    omega
  · intro h
    refine ⟨_, hwrite, cursor order (items.flatMap (encode order)) [], ?_, ?_⟩
    · exact readAll_flat h [] []
    · simp [getReadSize, cursor]

/-- A string of one byte, and then a number: `readStringF16` takes the byte of the string
and one of the number for the length. -/
theorem fuint16_lost :
    ¬ RoundTrips .little [.stringF16 [1], .fint16 0] ∧ ¬ RoundTrips .little [.fuint16 7] := by
  constructor
  · rintro ⟨s, hs, t, ht, -⟩
    cases hs
    cases ht
  · rintro ⟨s, hs, t, ht, -⟩
    cases hs
    cases ht

example : RoundTrips .big [.stringVint [1, 2], .fint16 (-3), .double 7] :=
  ⟨_, rfl, _, rfl, rfl⟩

end Flat
end Item
end Sylar
