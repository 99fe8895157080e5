import Sylar.ByteArray
import Sylar.Interleaving
import Mathlib.Data.BitVec

/-! # The typed operations of the byte array

Every typed writer of `bytearray.cpp` computes some bytes and hands them to
`write`; every typed reader takes bytes from `read` and computes a value.  They
are stated over a `ByteStore`, which is what they use of a `ByteArray`: the two
primitives and the byte-order flag.  `ByteArray.store` is the byte array itself
as such a store; a flat byte sequence is another one.

Integers are bit vectors of the width of the C++ type, signed and unsigned alike,
and a `std::string` is the list of its bytes.  What a pointer to a local variable
points at is the bytes of its value in the order of the host (`hostBytes`).

An operation that does not call the primitives does not change the store, and
everything kept by the primitives is kept by all of them (`TypedOp.keeps`). -/
namespace Sylar
open Interleaving

/-- What the typed operations use of a byte array. -/
structure ByteStore (σ : Type) where
  /-- `write( buf, size )` of exactly these bytes. -/
  write : σ → List UInt8 → Except Fault σ
  /-- `read( buf, size )`: the bytes, and the store afterwards. -/
  read : σ → Nat → Except Fault (List UInt8 × σ)
  /-- `m_endian`. -/
  endian : σ → Endian

/-- The memory at a pointer to `bytes`; `junk` is what lies behind them. -/
def memoryAt (bytes : List UInt8) (junk : Nat → UInt8) : Nat → UInt8 :=
  fun i => bytes.getD i (junk i)

/-- The byte array as a store. -/
def ByteArray.store (junk : Nat → UInt8) : ByteStore ByteArray where
  write b bytes := b.write (memoryAt bytes junk) bytes.length
  read := ByteArray.read
  endian := ByteArray.endian

/-! ## Values in memory -/

/-- `SYLAR_BYTE_ORDER`. -/
def hostOrder : Endian := .little

/-- The bytes of a variable of `w` bits, lowest address first. -/
def hostBytes {w : Nat} (value : BitVec w) : List UInt8 :=
  (List.range (w / 8)).map fun i => UInt8.ofBitVec (value.extractLsb' (8 * i) 8)

/-- The variable of `w` bits whose bytes are these. -/
def ofHostBytes (w : Nat) : List UInt8 → BitVec w
  | [] => 0
  | b :: bs => (ofHostBytes w bs <<< 8) ||| b.toBitVec.setWidth w

/-- `byteswap`. -/
def byteswap {w : Nat} (value : BitVec w) : BitVec w :=
  ofHostBytes w (hostBytes value).reverse

/-- `EncodeZigzag32`. -/
def EncodeZigzag32 (val : BitVec 32) : BitVec 32 :=
  if val.slt 0 then (-val) * 2 - 1 else val * 2

/-- `EncodeZigzag64`.  The declared return type is `int32_t`. -/
def EncodeZigzag64 (val : BitVec 64) : BitVec 32 :=
  if val.slt 0 then ((-val) * 2 - 1).setWidth 32 else (val * 2).setWidth 32

/-- `DecodeZigzag32`. -/
def DecodeZigzag32 (val : BitVec 32) : BitVec 32 := (val >>> 1) ^^^ -(val &&& 1)

/-- `DecodeZigzag64`. -/
def DecodeZigzag64 (val : BitVec 64) : BitVec 64 := (val >>> 1) ^^^ -(val &&& 1)

/-- The loop of `writeUint32` and `writeUint64` that fills `tmp`; `room` counts
the bytes of `tmp` that are still free. -/
def varintLoop {w : Nat} : Nat → BitVec w → Except Fault (List UInt8)
  | 0, _ => .error .stackOverflow
  | room + 1, value =>
    if 0x80 ≤ value.toNat then do
      let rest ← varintLoop room (value >>> 7)
      return UInt8.ofNat (value.toNat % 0x80 + 0x80) :: rest
    else .ok [UInt8.ofNat value.toNat]

namespace ByteStore
variable {σ : Type} (S : ByteStore σ) (s : σ)

/-! ## Writers -/

/-- `value` with its bytes swapped if `m_endian` is not the order of the host. -/
def inStoreOrder {w : Nat} (value : BitVec w) : BitVec w :=
  if S.endian s ≠ hostOrder then byteswap value else value

/-- The common body of the fixed-width writers. -/
def writeFixed {w : Nat} (value : BitVec w) : Except Fault σ :=
  S.write s (hostBytes (S.inStoreOrder s value))

def writeFint8 (value : BitVec 8) : Except Fault σ := S.write s (hostBytes value)
def writeFuint8 (value : BitVec 8) : Except Fault σ := S.write s (hostBytes value)
def writeFint16 (value : BitVec 16) : Except Fault σ := S.writeFixed s value

/-- `writeFuint16` swaps its argument and returns: it has no call of `write`. -/
def writeFuint16 (value : BitVec 16) : Except Fault σ :=
  let _value := S.inStoreOrder s value
  .ok s

def writeFint32 (value : BitVec 32) : Except Fault σ := S.writeFixed s value
def writeFuint32 (value : BitVec 32) : Except Fault σ := S.writeFixed s value
def writeFint64 (value : BitVec 64) : Except Fault σ := S.writeFixed s value
def writeFuint64 (value : BitVec 64) : Except Fault σ := S.writeFixed s value

/-- `writeUint32`, with `uint8_t tmp[5]`. -/
def writeUint32 (value : BitVec 32) : Except Fault σ := do
  let tmp ← varintLoop 5 value
  S.write s tmp

/-- `writeUint64`, with `uint8_t tmp[10]`. -/
def writeUint64 (value : BitVec 64) : Except Fault σ := do
  let tmp ← varintLoop 10 value
  S.write s tmp

/-- `writeInt32` encodes twice. -/
def writeInt32 (value : BitVec 32) : Except Fault σ :=
  S.writeUint32 s (EncodeZigzag32 (EncodeZigzag32 value))

/-- `writeInt64`: the `int32_t` of `EncodeZigzag64` is converted to `uint64_t`. -/
def writeInt64 (value : BitVec 64) : Except Fault σ :=
  S.writeUint64 s ((EncodeZigzag64 value).signExtend 64)

/-- `writeFloat`, of the bit pattern of its argument. -/
def writeFloat (bits : BitVec 32) : Except Fault σ := S.writeFuint32 s bits

/-- `writeDouble`, of the bit pattern of its argument. -/
def writeDouble (bits : BitVec 64) : Except Fault σ := S.writeFuint64 s bits

def writeStringF16 (value : List UInt8) : Except Fault σ := do
  let s ← S.writeFuint16 s (BitVec.ofNat 16 value.length)
  S.write s value

def writeStringF32 (value : List UInt8) : Except Fault σ := do
  let s ← S.writeFuint32 s (BitVec.ofNat 32 value.length)
  S.write s value

def writeStringF64 (value : List UInt8) : Except Fault σ := do
  let s ← S.writeFuint64 s (BitVec.ofNat 64 value.length)
  S.write s value

def writeStringVint (value : List UInt8) : Except Fault σ := do
  let s ← S.writeUint64 s (BitVec.ofNat 64 value.length)
  S.write s value

def writeStringWithoutLength (value : List UInt8) : Except Fault σ := S.write s value

/-! ## Readers -/

/-- The macro body of the fixed-width readers. -/
def readFixed (w : Nat) : Except Fault (BitVec w × σ) := do
  let (bytes, s) ← S.read s (w / 8)
  let val := ofHostBytes w bytes
  return (if S.endian s = hostOrder then val else byteswap val, s)

def readFint8 : Except Fault (BitVec 8 × σ) := do
  let (bytes, s) ← S.read s 1
  return (ofHostBytes 8 bytes, s)

def readFuint8 : Except Fault (BitVec 8 × σ) := do
  let (bytes, s) ← S.read s 1
  return (ofHostBytes 8 bytes, s)

def readFint16 : Except Fault (BitVec 16 × σ) := S.readFixed s 16
def readFuint16 : Except Fault (BitVec 16 × σ) := S.readFixed s 16
def readFint32 : Except Fault (BitVec 32 × σ) := S.readFixed s 32
def readFuint32 : Except Fault (BitVec 32 × σ) := S.readFixed s 32
def readFint64 : Except Fault (BitVec 64 × σ) := S.readFixed s 64
def readFuint64 : Except Fault (BitVec 64 × σ) := S.readFixed s 64

/-- The `for` loop of `readUint32`, over the shifts it goes through.  Neither
branch leaves the loop. -/
def readUint32Loop : List Nat → BitVec 32 → σ → Except Fault (BitVec 32 × σ)
  | [], result, s => .ok (result, s)
  | i :: shifts, result, s => do
    let (b, s) ← S.readFuint8 s
    if b.toNat < 0x80 then
      readUint32Loop shifts (result ||| (b.setWidth 32 <<< i)) s
    else
      readUint32Loop shifts (result ||| ((b &&& 0x7f).setWidth 32 <<< i)) s

/-- `readUint32`: `i` goes through 0, 7, …, 28. -/
def readUint32 : Except Fault (BitVec 32 × σ) :=
  S.readUint32Loop ((List.range 5).map (7 * ·)) 0 s

/-- The `for` loop of `readUint64`, which a byte below `0x80` leaves. -/
def readUint64Loop : List Nat → BitVec 64 → σ → Except Fault (BitVec 64 × σ)
  | [], result, s => .ok (result, s)
  | i :: shifts, result, s => do
    let (b, s) ← S.readFuint8 s
    if b.toNat < 0x80 then
      return (result ||| (b.setWidth 64 <<< i), s)
    else
      readUint64Loop shifts (result ||| ((b &&& 0x7f).setWidth 64 <<< i)) s

/-- `readUint64`: `i` goes through 0, 7, …, 63. -/
def readUint64 : Except Fault (BitVec 64 × σ) :=
  S.readUint64Loop ((List.range 10).map (7 * ·)) 0 s

def readInt32 : Except Fault (BitVec 32 × σ) := do
  let (v, s) ← S.readUint32 s
  return (DecodeZigzag32 v, s)

def readInt64 : Except Fault (BitVec 64 × σ) := do
  let (v, s) ← S.readUint64 s
  return (DecodeZigzag64 v, s)

def readFloat : Except Fault (BitVec 32 × σ) := S.readFuint32 s
def readDouble : Except Fault (BitVec 64 × σ) := S.readFuint64 s

def readStringF16 : Except Fault (List UInt8 × σ) := do
  let (len, s) ← S.readFuint16 s
  S.read s len.toNat

def readStringF32 : Except Fault (List UInt8 × σ) := do
  let (len, s) ← S.readFuint32 s
  S.read s len.toNat

def readStringF64 : Except Fault (List UInt8 × σ) := do
  let (len, s) ← S.readFuint64 s
  S.read s len.toNat

def readStringVint : Except Fault (List UInt8 × σ) := do
  let (len, s) ← S.readUint64 s
  S.read s len.toNat

end ByteStore

/-! ## What the primitives keep, every typed operation keeps -/

/-- A call of a typed operation, a writer with its argument. -/
inductive TypedOp
  | writeFint8 (value : BitVec 8) | writeFuint8 (value : BitVec 8)
  | writeFint16 (value : BitVec 16) | writeFuint16 (value : BitVec 16)
  | writeFint32 (value : BitVec 32) | writeFuint32 (value : BitVec 32)
  | writeFint64 (value : BitVec 64) | writeFuint64 (value : BitVec 64)
  | writeInt32 (value : BitVec 32) | writeUint32 (value : BitVec 32)
  | writeInt64 (value : BitVec 64) | writeUint64 (value : BitVec 64)
  | writeFloat (bits : BitVec 32) | writeDouble (bits : BitVec 64)
  | writeStringF16 (value : List UInt8) | writeStringF32 (value : List UInt8)
  | writeStringF64 (value : List UInt8) | writeStringVint (value : List UInt8)
  | writeStringWithoutLength (value : List UInt8)
  | readFint8 | readFuint8 | readFint16 | readFuint16 | readFint32 | readFuint32
  | readFint64 | readFuint64 | readInt32 | readUint32 | readInt64 | readUint64
  | readFloat | readDouble
  | readStringF16 | readStringF32 | readStringF64 | readStringVint

/-- The store after a typed operation; the value of a reader is dropped. -/
def TypedOp.run {σ : Type} (S : ByteStore σ) (s : σ) : TypedOp → Except Fault σ
  | .writeFint8 v => S.writeFint8 s v
  | .writeFuint8 v => S.writeFuint8 s v
  | .writeFint16 v => S.writeFint16 s v
  | .writeFuint16 v => S.writeFuint16 s v
  | .writeFint32 v => S.writeFint32 s v
  | .writeFuint32 v => S.writeFuint32 s v
  | .writeFint64 v => S.writeFint64 s v
  | .writeFuint64 v => S.writeFuint64 s v
  | .writeInt32 v => S.writeInt32 s v
  | .writeUint32 v => S.writeUint32 s v
  | .writeInt64 v => S.writeInt64 s v
  | .writeUint64 v => S.writeUint64 s v
  | .writeFloat v => S.writeFloat s v
  | .writeDouble v => S.writeDouble s v
  | .writeStringF16 v => S.writeStringF16 s v
  | .writeStringF32 v => S.writeStringF32 s v
  | .writeStringF64 v => S.writeStringF64 s v
  | .writeStringVint v => S.writeStringVint s v
  | .writeStringWithoutLength v => S.writeStringWithoutLength s v
  | .readFint8 => (S.readFint8 s).map Prod.snd
  | .readFuint8 => (S.readFuint8 s).map Prod.snd
  | .readFint16 => (S.readFint16 s).map Prod.snd
  | .readFuint16 => (S.readFuint16 s).map Prod.snd
  | .readFint32 => (S.readFint32 s).map Prod.snd
  | .readFuint32 => (S.readFuint32 s).map Prod.snd
  | .readFint64 => (S.readFint64 s).map Prod.snd
  | .readFuint64 => (S.readFuint64 s).map Prod.snd
  | .readInt32 => (S.readInt32 s).map Prod.snd
  | .readUint32 => (S.readUint32 s).map Prod.snd
  | .readInt64 => (S.readInt64 s).map Prod.snd
  | .readUint64 => (S.readUint64 s).map Prod.snd
  | .readFloat => (S.readFloat s).map Prod.snd
  | .readDouble => (S.readDouble s).map Prod.snd
  | .readStringF16 => (S.readStringF16 s).map Prod.snd
  | .readStringF32 => (S.readStringF32 s).map Prod.snd
  | .readStringF64 => (S.readStringF64 s).map Prod.snd
  | .readStringVint => (S.readStringVint s).map Prod.snd

namespace ByteStore
variable {σ : Type} {S : ByteStore σ} {I : σ → Prop}

/-- Both primitives keep `I`. -/
structure Keeps (S : ByteStore σ) (I : σ → Prop) : Prop where
  write : ∀ {s : σ} {bytes : List UInt8} {t : σ}, I s → S.write s bytes = .ok t → I t
  read : ∀ {s : σ} {n : Nat} {r : List UInt8 × σ}, I s → S.read s n = .ok r → I r.2

namespace Keeps
variable (hS : S.Keeps I) {s : σ} (hs : I s)
include hS hs

theorem readFuint8 {r : BitVec 8 × σ} (h : S.readFuint8 s = .ok r) : I r.2 := by
  obtain ⟨q, hq, hr⟩ := bind_ok h
  obtain rfl := Except.ok.inj hr
  exact hS.read hs hq

theorem readFixed {w : Nat} {r : BitVec w × σ} (h : S.readFixed s w = .ok r) : I r.2 := by
  obtain ⟨q, hq, hr⟩ := bind_ok h
  obtain rfl := Except.ok.inj hr
  exact hS.read hs hq

theorem readUint32Loop {shifts : List Nat} {v : BitVec 32} {r : BitVec 32 × σ}
    (h : S.readUint32Loop shifts v s = .ok r) : I r.2 := by
  induction shifts generalizing v s with
  | nil => cases h; exact hs
  | cons i shifts ih =>
    obtain ⟨q, hq, hr⟩ := bind_ok h
    have hq' : I q.2 := hS.readFuint8 hs hq
    dsimp only at hr
    split at hr
    · exact ih hq' hr
    · exact ih hq' hr

theorem readUint32 {r : BitVec 32 × σ} (h : S.readUint32 s = .ok r) : I r.2 :=
  hS.readUint32Loop hs h

theorem readUint64Loop {shifts : List Nat} {v : BitVec 64} {r : BitVec 64 × σ}
    (h : S.readUint64Loop shifts v s = .ok r) : I r.2 := by
  induction shifts generalizing v s with
  | nil => cases h; exact hs
  | cons i shifts ih =>
    obtain ⟨q, hq, hr⟩ := bind_ok h
    have hq' : I q.2 := hS.readFuint8 hs hq
    dsimp only at hr
    split at hr
    · cases hr; exact hq'
    · exact ih hq' hr

theorem readUint64 {r : BitVec 64 × σ} (h : S.readUint64 s = .ok r) : I r.2 :=
  hS.readUint64Loop hs h

theorem writeVarint {w room : Nat} {v : BitVec w} {t : σ}
    (h : (do let tmp ← varintLoop room v; S.write s tmp) = .ok t) : I t := by
  obtain ⟨tmp, -, hw⟩ := bind_ok h
  exact hS.write hs hw

omit hs

/-- A length prefix that keeps `I`, followed by the bytes of the string. -/
theorem writePrefixed {x : Except Fault σ} {value : List UInt8} {t : σ}
    (hx : ∀ u, x = .ok u → I u) (h : (do let s ← x; S.write s value) = .ok t) : I t := by
  obtain ⟨u, hu, hw⟩ := bind_ok h
  exact hS.write (hx u hu) hw

/-- A length prefix read by an operation that keeps `I`, then the string. -/
theorem readPrefixed {w : Nat} {x : Except Fault (BitVec w × σ)} {r : List UInt8 × σ}
    (hx : ∀ u, x = .ok u → I u.2)
    (h : (do let (len, s) ← x; S.read s len.toNat) = .ok r) : I r.2 := by
  obtain ⟨u, hu, hw⟩ := bind_ok h
  exact hS.read (hx u hu) hw

end Keeps
end ByteStore

/-- **Every typed operation keeps what `write` and `read` keep.** -/
theorem TypedOp.keeps {σ : Type} {S : ByteStore σ} {I : σ → Prop} (hS : S.Keeps I)
    {s t : σ} (hs : I s) (op : TypedOp) (h : op.run S s = .ok t) : I t := by
  cases op with
  | writeFuint16 => cases h; exact hs
  | writeFint8 | writeFuint8 | writeFint16 | writeFint32 | writeFuint32 | writeFint64
  | writeFuint64 | writeFloat | writeDouble | writeStringWithoutLength =>
    exact hS.write hs h
  | writeInt32 | writeUint32 | writeInt64 | writeUint64 => exact hS.writeVarint hs h
  | writeStringF16 =>
    exact hS.writePrefixed (fun u hu => by cases hu; exact hs) h
  | writeStringF32 | writeStringF64 =>
    exact hS.writePrefixed (fun u hu => hS.write hs hu) h
  | writeStringVint =>
    exact hS.writePrefixed (fun u hu => hS.writeVarint hs hu) h
  | readFint8 | readFuint8 =>
    obtain ⟨r, hr, rfl⟩ := map_ok h
    exact hS.readFuint8 hs hr
  | readFint16 | readFuint16 | readFint32 | readFuint32 | readFint64 | readFuint64
  | readFloat | readDouble =>
    obtain ⟨r, hr, rfl⟩ := map_ok h
    exact hS.readFixed hs hr
  | readUint32 =>
    obtain ⟨r, hr, rfl⟩ := map_ok h
    exact hS.readUint32 hs hr
  | readUint64 =>
    obtain ⟨r, hr, rfl⟩ := map_ok h
    exact hS.readUint64 hs hr
  | readInt32 =>
    obtain ⟨r, hr, rfl⟩ := map_ok h
    obtain ⟨q, hq, hr⟩ := bind_ok hr
    obtain rfl := Except.ok.inj hr
    show I q.2
    exact hS.readUint32 hs hq
  | readInt64 =>
    obtain ⟨r, hr, rfl⟩ := map_ok h
    obtain ⟨q, hq, hr⟩ := bind_ok hr
    obtain rfl := Except.ok.inj hr
    show I q.2
    exact hS.readUint64 hs hq
  | readStringF16 | readStringF32 | readStringF64 =>
    obtain ⟨r, hr, rfl⟩ := map_ok h
    exact hS.readPrefixed (fun u hu => hS.readFixed hs hu) hr
  | readStringVint =>
    obtain ⟨r, hr, rfl⟩ := map_ok h
    exact hS.readPrefixed (fun u hu => hS.readUint64 hs hu) hr

end Sylar
