import Sylar.ByteArrayRead
import Sylar.FlatStore

/-! # Reads that fail

A typed read of a `ByteArray` may throw, and then the object is still there: a caller that
catches the exception sees where the cursor was left.  An `Attempt` keeps the object in both
cases; forgetting it at a throw gives the readers of `ByteStore` (`TypedRead.result_call`).

`read` tests the size before it touches anything, so a reader of one `read` fails without a
trace.  `readUint64` reads byte by byte, and the strings read their length first: what they
have read before the `read` that throws stays read.  And `read` dereferences `m_cur` even when
nothing is asked for, which is null when the length in front of an empty string was the last
thing in the chain.

What a reader should find is a matter of the bytes that are left (`TypedRead.decode`).
**`readsAtomically_iff`** says for which arrays a reader returns it or leaves the array as it
was.  The allocation of `resize` is left out: where it throws, more bytes are asked for than
there are. -/
namespace Sylar
open Interleaving Overlay

/-- A call on an object: what it returns or throws, and the object afterwards. -/
def Attempt (σ α : Type) : Type := σ → Except Fault α × σ

namespace Attempt
variable {σ α β : Type}

instance : Monad (Attempt σ) where
  pure a := fun s => (.ok a, s)
  bind x f := fun s =>
    match x s with
    | (.ok a, t) => f a t
    | (.error e, t) => (.error e, t)

/-- The call, with the object of a throw forgotten. -/
def result (x : Attempt σ α) (s : σ) : Except Fault (α × σ) :=
  match x s with
  | (.ok a, t) => .ok (a, t)
  | (.error e, _) => .error e

theorem bind_of_ok {x : Attempt σ α} {f : α → Attempt σ β} {s t : σ} {a : α}
    (h : x s = (.ok a, t)) : (x >>= f) s = f a t := by
  show (match x s with
    | (.ok a, t) => f a t
    | (.error e, t) => (.error e, t)) = _
  rw [h]

theorem bind_of_error {x : Attempt σ α} {f : α → Attempt σ β} {s t : σ} {e : Fault}
    (h : x s = (.error e, t)) : (x >>= f) s = (.error e, t) := by
  show (match x s with
    | (.ok a, t) => f a t
    | (.error e, t) => (.error e, t)) = _
  rw [h]

theorem result_bind (x : Attempt σ α) (f : α → Attempt σ β) (s : σ) :
    (x >>= f).result s = x.result s >>= fun p => (f p.1).result p.2 := by
  unfold result
  rcases hx : x s with ⟨e | a, t⟩
  · rw [bind_of_error hx]
    rfl
  · rw [bind_of_ok hx]
    rfl

end Attempt

/-! ## The readers as calls -/

namespace ByteStore.Calls
variable {σ : Type} (S : ByteStore σ)

/-- `read`: where it throws, nothing has been touched. -/
def read (n : Nat) : Attempt σ (List UInt8) := fun s =>
  match S.read s n with
  | .ok (bytes, t) => (.ok bytes, t)
  | .error e => (.error e, s)

theorem read_of_ok {S : ByteStore σ} {s t : σ} {n : Nat} {bytes : List UInt8}
    (h : S.read s n = .ok (bytes, t)) : read S n s = (.ok bytes, t) := by
  rw [read, h]

theorem read_of_error {S : ByteStore σ} {s : σ} {n : Nat} {e : Fault}
    (h : S.read s n = .error e) : read S n s = (.error e, s) := by
  rw [read, h]

/-- `m_endian`. -/
def endian : Attempt σ Endian := fun s => (.ok (S.endian s), s)

/-- The macro body of the fixed-width readers. -/
def readFixed (w : Nat) : Attempt σ (BitVec w) := do
  let bytes ← read S (w / 8)
  let order ← endian S
  let val := ofHostBytes w bytes
  return if order = hostOrder then val else byteswap val

def readFint8 : Attempt σ (BitVec 8) := do
  let bytes ← read S 1
  return ofHostBytes 8 bytes

def readFuint8 : Attempt σ (BitVec 8) := do
  let bytes ← read S 1
  return ofHostBytes 8 bytes

def readFint16 : Attempt σ (BitVec 16) := readFixed S 16
def readFuint16 : Attempt σ (BitVec 16) := readFixed S 16
def readFint32 : Attempt σ (BitVec 32) := readFixed S 32
def readFuint32 : Attempt σ (BitVec 32) := readFixed S 32
def readFint64 : Attempt σ (BitVec 64) := readFixed S 64
def readFuint64 : Attempt σ (BitVec 64) := readFixed S 64

/-- The `for` loop of `readUint64`. -/
def readUint64Loop : List Nat → BitVec 64 → Attempt σ (BitVec 64)
  | [], result => pure result
  | i :: shifts, result => do
    let b ← readFuint8 S
    if b.toNat < 0x80 then
      return result ||| (b.setWidth 64 <<< i)
    else
      readUint64Loop shifts (result ||| ((b &&& 0x7f).setWidth 64 <<< i))

def readUint64 : Attempt σ (BitVec 64) :=
  readUint64Loop S ((List.range 10).map (7 * ·)) 0

def readStringF16 : Attempt σ (List UInt8) := do
  let len ← readFuint16 S
  read S len.toNat

def readStringF32 : Attempt σ (List UInt8) := do
  let len ← readFuint32 S
  read S len.toNat

def readStringF64 : Attempt σ (List UInt8) := do
  let len ← readFuint64 S
  read S len.toNat

def readStringVint : Attempt σ (List UInt8) := do
  let len ← readUint64 S
  read S len.toNat

end ByteStore.Calls

/-- The typed readers of numbers and strings. -/
inductive TypedRead
  | readFint8 | readFuint8 | readFint16 | readFuint16 | readFint32 | readFuint32
  | readFint64 | readFuint64 | readUint64
  | readStringF16 | readStringF32 | readStringF64 | readStringVint
  deriving DecidableEq, Repr

/-- What they return: the bits of a number, or the bytes of a string. -/
inductive Value
  | number (bits : Nat)
  | string (bytes : List UInt8)
  deriving DecidableEq, Repr

namespace TypedRead
open ByteStore

section Calls
variable {σ : Type} (S : ByteStore σ)

/-- The number that is returned, as a value. -/
def asNumber {w : Nat} (x : Attempt σ (BitVec w)) : Attempt σ Value := do
  let v ← x
  return .number v.toNat

/-- The string that is returned, as a value. -/
def asString (x : Attempt σ (List UInt8)) : Attempt σ Value := do
  let v ← x
  return .string v

def call : TypedRead → Attempt σ Value
  | readFint8 => asNumber (Calls.readFint8 S)
  | readFuint8 => asNumber (Calls.readFuint8 S)
  | readFint16 => asNumber (Calls.readFint16 S)
  | readFuint16 => asNumber (Calls.readFuint16 S)
  | readFint32 => asNumber (Calls.readFint32 S)
  | readFuint32 => asNumber (Calls.readFuint32 S)
  | readFint64 => asNumber (Calls.readFint64 S)
  | readFuint64 => asNumber (Calls.readFuint64 S)
  | readUint64 => asNumber (Calls.readUint64 S)
  | readStringF16 => asString (Calls.readStringF16 S)
  | readStringF32 => asString (Calls.readStringF32 S)
  | readStringF64 => asString (Calls.readStringF64 S)
  | readStringVint => asString (Calls.readStringVint S)

/-- The same reader of the store. -/
def read (s : σ) : TypedRead → Except Fault (Value × σ)
  | readFint8 => (S.readFint8 s).map fun (v, t) => (.number v.toNat, t)
  | readFuint8 => (S.readFuint8 s).map fun (v, t) => (.number v.toNat, t)
  | readFint16 => (S.readFint16 s).map fun (v, t) => (.number v.toNat, t)
  | readFuint16 => (S.readFuint16 s).map fun (v, t) => (.number v.toNat, t)
  | readFint32 => (S.readFint32 s).map fun (v, t) => (.number v.toNat, t)
  | readFuint32 => (S.readFuint32 s).map fun (v, t) => (.number v.toNat, t)
  | readFint64 => (S.readFint64 s).map fun (v, t) => (.number v.toNat, t)
  | readFuint64 => (S.readFuint64 s).map fun (v, t) => (.number v.toNat, t)
  | readUint64 => (S.readUint64 s).map fun (v, t) => (.number v.toNat, t)
  | readStringF16 => (S.readStringF16 s).map fun (v, t) => (.string v, t)
  | readStringF32 => (S.readStringF32 s).map fun (v, t) => (.string v, t)
  | readStringF64 => (S.readStringF64 s).map fun (v, t) => (.string v, t)
  | readStringVint => (S.readStringVint s).map fun (v, t) => (.string v, t)

/-! ### They are the readers of the store -/

variable {S} {s : σ}

theorem result_read (n : Nat) : (Calls.read S n).result s = S.read s n := by
  unfold Attempt.result Calls.read
  rcases S.read s n with e | ⟨bytes, t⟩
  · rfl
  · rfl

theorem result_readFixed (w : Nat) : (Calls.readFixed S w).result s = S.readFixed s w := by
  rw [Calls.readFixed, Attempt.result_bind, result_read]
  rfl

theorem result_readFuint8 : (Calls.readFuint8 S).result s = S.readFuint8 s := by
  rw [Calls.readFuint8, Attempt.result_bind, result_read]
  rfl

theorem result_readUint64Loop (shifts : List Nat) (result : BitVec 64) :
    (Calls.readUint64Loop S shifts result).result s = S.readUint64Loop shifts result s := by
  induction shifts generalizing result s with
  | nil => rfl
  | cons i shifts ih =>
    rw [Calls.readUint64Loop, Attempt.result_bind, result_readFuint8, readUint64Loop]
    refine congrArg (S.readFuint8 s >>= ·) (funext fun p => ?_)
    obtain ⟨b, t⟩ := p
    by_cases hlast : b.toNat < 0x80
    · simp only [if_pos hlast]
      rfl
    · simp only [if_neg hlast]
      exact ih _

theorem result_asNumber {w : Nat} {x : Attempt σ (BitVec w)} {y : Except Fault (BitVec w × σ)}
    (h : x.result s = y) :
    (asNumber x).result s = y.map fun (v, t) => (.number v.toNat, t) := by
  rw [asNumber, Attempt.result_bind, h]
  rcases y with e | ⟨v, t⟩
  · rfl
  · rfl

theorem result_asString {w : Nat} {x : Attempt σ (BitVec w)} {y : Except Fault (BitVec w × σ)}
    (h : x.result s = y) :
    (asString (do let len ← x; Calls.read S len.toNat)).result s =
      (do let (len, t) ← y; S.read t len.toNat).map fun (v, t) => (.string v, t) := by
  rw [asString, Attempt.result_bind, Attempt.result_bind, h]
  rcases y with e | ⟨len, t⟩
  · rfl
  · show ((Calls.read S len.toNat).result t >>= _) = (S.read t len.toNat).map _
    rw [result_read]
    rcases S.read t len.toNat with e | ⟨v, u⟩
    · rfl
    · rfl

theorem result_call (r : TypedRead) : (r.call S).result s = r.read S s := by
  cases r with
  | readFint8 | readFuint8 => exact result_asNumber result_readFuint8
  | readFint16 | readFuint16 | readFint32 | readFuint32 | readFint64 | readFuint64 =>
    exact result_asNumber (result_readFixed _)
  | readUint64 => exact result_asNumber (result_readUint64Loop _ _)
  | readStringF16 | readStringF32 | readStringF64 => exact result_asString (result_readFixed _)
  | readStringVint => exact result_asString (result_readUint64Loop _ _)

end Calls
end TypedRead

/-! ## What there is to read -/

/-- How a number is encoded: in a fixed number of bits, or as a varint. -/
inductive NumberForm
  | fixed (w : Nat)
  | varint
  deriving DecidableEq, Repr

namespace NumberForm

/-- The bytes that the first `read` asks for. -/
def first : NumberForm → Nat
  | fixed w => w / 8
  | varint => 1

/-- The number at the beginning of some bytes, and the length of its encoding; none if the
bytes end inside it. -/
def decode (order : Endian) : NumberForm → List UInt8 → Option (Nat × Nat)
  | fixed w, bytes =>
    if bytes.length < w / 8 then none
    else
      let own := bytes.take (w / 8)
      some ((ofHostBytes w (if order = hostOrder then own else own.reverse)).toNat, w / 8)
  | varint, bytes =>
    (Varint.cut 10 bytes).map fun enc => (Varint.value enc % 2 ^ 64, enc.length)

end NumberForm

namespace TypedRead

/-- The encoding of the number, or of the length of the string. -/
def form : TypedRead → NumberForm
  | readFint8 | readFuint8 => .fixed 8
  | readFint16 | readFuint16 | readStringF16 => .fixed 16
  | readFint32 | readFuint32 | readStringF32 => .fixed 32
  | readFint64 | readFuint64 | readStringF64 => .fixed 64
  | readUint64 | readStringVint => .varint

/-- A string follows the number. -/
def isString : TypedRead → Bool
  | readStringF16 | readStringF32 | readStringF64 | readStringVint => true
  | _ => false

/-- The value at the beginning of some bytes, and the length of its encoding; none if the
bytes end inside it. -/
def decode (order : Endian) (r : TypedRead) (bytes : List UInt8) : Option (Value × Nat) :=
  match r.form.decode order bytes with
  | none => none
  | some (v, k) =>
    if r.isString then
      if v ≤ bytes.length - k then some (.string (window bytes k v), k + v) else none
    else some (.number v, k)

end TypedRead

namespace ByteArray

/-- The bytes that are left. -/
def left (b : ByteArray) : List UInt8 := b.ahead b.getReadSize

/-- The reader returned the value that is there and is behind its encoding, or it threw
`std::out_of_range` and left the cursor and the content as they were. -/
def ReadsAtomically (junk : Nat → UInt8) (b : ByteArray) (r : TypedRead) : Prop :=
  match r.call (ByteArray.store junk) b with
  | (.ok v, c) => ∃ k, r.decode b.endian b.left = some (v, k) ∧
      c.position = b.position + k ∧ c.content = b.content ∧ c.Valid
  | (.error e, c) => e = .outOfRange ∧
      c.position = b.position ∧ c.cur = b.cur ∧ c.content = b.content

/-- There is not enough for the first `read`; or the whole encoding is there, and it is not an
empty string whose length ends at the end of the capacity. -/
def NothingOrAll (b : ByteArray) (r : TypedRead) : Prop :=
  b.getReadSize < r.form.first ∨
    ∃ v k, r.form.decode b.endian b.left = some (v, k) ∧
      (r.isString = true →
        v ≤ b.getReadSize - k ∧ ¬ (v = 0 ∧ b.position + k = b.capacity))

/-! ## The cursor behind some bytes -/

/-- The array with the cursor `n` bytes further. -/
def advance (b : ByteArray) (n : Nat) : ByteArray :=
  { b with
    position := b.position + n
    cur := if b.position + n = b.capacity then none else some ((b.position + n) / b.baseSize) }

@[simp] theorem advance_position (b : ByteArray) (n : Nat) :
    (b.advance n).position = b.position + n := rfl

@[simp] theorem advance_capacity (b : ByteArray) (n : Nat) :
    (b.advance n).capacity = b.capacity := rfl

@[simp] theorem advance_content (b : ByteArray) (n : Nat) :
    (b.advance n).content = b.content := rfl

@[simp] theorem advance_endian (b : ByteArray) (n : Nat) :
    (b.advance n).endian = b.endian := rfl

theorem advance_getReadSize (b : ByteArray) (n : Nat) :
    (b.advance n).getReadSize = b.getReadSize - n := by
  rw [getReadSize, getReadSize]
  show b.size - (b.position + n) = _
  omega

theorem advance_advance (b : ByteArray) (m n : Nat) :
    (b.advance m).advance n = b.advance (m + n) := by
  simp only [advance, Nat.add_assoc]

theorem advance_left (b : ByteArray) (n : Nat) : (b.advance n).left = b.left.drop n := by
  rw [left, left, ahead, ahead, drop_window, advance_getReadSize]
  rfl

section Reads
variable {b : ByteArray} {junk : Nat → UInt8}

theorem Valid.advance_zero (hb : b.Valid) : b.advance 0 = b := by
  have hcur := hb.cur_eq
  rw [advance, Nat.add_zero, ← hcur]

theorem Valid.advance (hb : b.Valid) {n : Nat} (hn : n ≤ b.getReadSize) :
    (b.advance n).Valid := by
  have hposition := hb.position_le
  rw [getReadSize] at hn
  refine ⟨hb.base_pos, hb.root_ne, hb.node_size, hb.capacity_eq, ?_, hb.size_le, rfl⟩
  show b.position + n ≤ b.size
  omega

theorem Valid.length_left (hb : b.Valid) : b.left.length = b.getReadSize := by
  have hsize := hb.size_le
  rw [left, ahead, length_window, content, length_bytesOf hb.node_size, ← hb.capacity_eq,
    getReadSize]
  omega

/-- **What one `read` does.** -/
theorem Valid.read_call (hb : b.Valid) (n : Nat) :
    ByteStore.Calls.read (store junk) n b =
      if b.getReadSize < n then (.error .outOfRange, b)
      else if n = 0 ∧ b.position = b.capacity then (.error .nullNode, b)
      else (.ok (b.left.take n), b.advance n) := by
  by_cases hshort : b.getReadSize < n
  · rw [if_pos hshort]
    exact ByteStore.Calls.read_of_error (if_pos hshort)
  · rw [if_neg hshort]
    rcases Nat.eq_zero_or_pos n with rfl | hn
    · have hcur := hb.cur_eq
      have hsize := hb.size_le
      have hposition := hb.position_le
      -- a `read` of nothing takes hold of its node all the same
      by_cases hend : b.position = b.capacity
      · rw [if_pos ⟨rfl, hend⟩]
        apply ByteStore.Calls.read_of_error
        rw [if_pos hend] at hcur
        show b.read 0 = _
        rw [ByteArray.read, if_neg hshort, ByteArray.derefCur, hcur]
        rfl
      · rw [if_neg fun h => hend h.2]
        apply ByteStore.Calls.read_of_ok
        show b.read 0 = _
        rw [ByteArray.read, if_neg hshort, hb.derefCur_eq (by omega)]
        simp only [readLoop, bind, Except.bind, pure, Except.pure]
        rw [Nat.add_zero, Nat.add_zero, hb.nodePtr_div rfl (by omega)]
        rfl
    · have htake : b.left.take n = b.ahead n := take_window _ (Nat.not_lt.mp hshort)
      rw [if_neg (by omega), htake]
      exact ByteStore.Calls.read_of_ok (hb.read_eq hn (Nat.not_lt.mp hshort))

theorem Valid.read_call_pos (hb : b.Valid) {n : Nat} (hn : 0 < n) (hle : n ≤ b.getReadSize) :
    ByteStore.Calls.read (store junk) n b = (.ok (b.left.take n), b.advance n) := by
  rw [hb.read_call, if_neg (by omega), if_neg (by omega)]

theorem Valid.read_call_short (hb : b.Valid) {n : Nat} (hlt : b.getReadSize < n) :
    ByteStore.Calls.read (store junk) n b = (.error .outOfRange, b) := by
  rw [hb.read_call, if_pos hlt]

end Reads

/-! ## Numbers -/

/-- What a reader of a number does on every valid array. -/
structure ReadsNumber {w : Nat} (x : Attempt ByteArray (BitVec w)) (form : NumberForm) : Prop where
  short : ∀ {b : ByteArray}, b.Valid → b.getReadSize < form.first → x b = (.error .outOfRange, b)
  cut : ∀ {b : ByteArray}, b.Valid → form.first ≤ b.getReadSize →
    form.decode b.endian b.left = none → ∃ n, 0 < n ∧ x b = (.error .outOfRange, b.advance n)
  whole : ∀ {b : ByteArray} {v k : Nat}, b.Valid → form.decode b.endian b.left = some (v, k) →
    0 < k ∧ k ≤ b.getReadSize ∧ ∃ u : BitVec w, u.toNat = v ∧ x b = (.ok u, b.advance k)

section Numbers
variable {junk : Nat → UInt8}

theorem readFixed_reads {w : Nat} (hw : 8 ∣ w) (hpos : 0 < w / 8) :
    ReadsNumber (ByteStore.Calls.readFixed (store junk) w) (.fixed w) where
  short hb hlt := Attempt.bind_of_error (hb.read_call_short hlt)
  cut hb hle hnone := by
    rw [NumberForm.decode, hb.length_left] at hnone
    rw [NumberForm.first] at hle
    rw [if_neg (by omega)] at hnone
    cases hnone
  whole {b v k} hb hsome := by
    rw [NumberForm.decode, hb.length_left] at hsome
    by_cases hlt : b.getReadSize < w / 8
    · rw [if_pos hlt] at hsome
      cases hsome
    · rw [if_neg hlt] at hsome
      obtain ⟨rfl, rfl⟩ := Prod.mk.inj (Option.some.inj hsome)
      have hlen : (b.left.take (w / 8)).length * 8 = w := by
        rw [List.length_take, hb.length_left]
        omega
      refine ⟨hpos, by omega, _, rfl, ?_⟩
      rw [ByteStore.Calls.readFixed,
        Attempt.bind_of_ok (hb.read_call_pos hpos (by omega : w / 8 ≤ b.getReadSize))]
      show (Except.ok (if b.endian = hostOrder then _ else byteswap (ofHostBytes w _)), _) = _
      by_cases horder : b.endian = hostOrder
      · rw [if_pos horder, if_pos horder]
      · rw [if_neg horder, if_neg horder, byteswap_ofHostBytes hlen]

/-- One byte is its own reverse. -/
theorem byteswap_eight (v : BitVec 8) : byteswap v = v := by
  have hbytes : hostBytes v = [UInt8.ofBitVec v] := by simp [hostBytes]
  rw [byteswap, hbytes, List.reverse_singleton, ← hbytes, ofHostBytes_hostBytes (by decide)]

theorem readFint8_reads : ReadsNumber (ByteStore.Calls.readFint8 (store junk)) (.fixed 8) := by
  have heq : ByteStore.Calls.readFixed (store junk) 8 = ByteStore.Calls.readFint8 (store junk) := by
    refine congrArg (ByteStore.Calls.read (store junk) 1 >>= ·) (funext fun bytes => ?_)
    funext s
    show (Except.ok (if _ then ofHostBytes 8 bytes else byteswap (ofHostBytes 8 bytes)), s) = _
    rw [byteswap_eight, ite_self]
    rfl
  rw [← heq]
  exact readFixed_reads (by decide) (by decide)

theorem Valid.readFuint8_call {b : ByteArray} (hb : b.Valid) {x : UInt8} {rest : List UInt8}
    (hleft : b.left = x :: rest) :
    ByteStore.Calls.readFuint8 (store junk) b = (.ok x.toBitVec, b.advance 1) := by
  have hone : 1 ≤ b.getReadSize := by
    rw [← hb.length_left, hleft]
    exact Nat.succ_le_succ (Nat.zero_le _)
  have hbyte : ofHostBytes 8 [x] = x.toBitVec := by simp [ofHostBytes]
  rw [ByteStore.Calls.readFuint8, Attempt.bind_of_ok (hb.read_call_pos Nat.one_pos hone), hleft]
  exact congrArg (fun v => (Except.ok v, b.advance 1)) hbyte

section Turn
variable {b : ByteArray} (hb : b.Valid) {x : UInt8} {rest : List UInt8} (hleft : b.left = x :: rest)
variable (i : Nat) (shifts : List Nat) (result : BitVec 64)
include hb hleft

theorem readUint64Loop_last (hlast : x.toNat < 128) :
    ByteStore.Calls.readUint64Loop (store junk) (i :: shifts) result b =
      (.ok (result ||| (x.toBitVec.setWidth 64 <<< i)), b.advance 1) := by
  rw [ByteStore.Calls.readUint64Loop, Attempt.bind_of_ok (hb.readFuint8_call hleft)]
  exact congrFun (if_pos hlast) _

theorem readUint64Loop_more (hmore : ¬ x.toNat < 128) :
    ByteStore.Calls.readUint64Loop (store junk) (i :: shifts) result b =
      ByteStore.Calls.readUint64Loop (store junk) shifts
        (result ||| ((x.toBitVec &&& 0x7f).setWidth 64 <<< i)) (b.advance 1) := by
  rw [ByteStore.Calls.readUint64Loop, Attempt.bind_of_ok (hb.readFuint8_call hleft)]
  exact congrFun (if_neg hmore) _

end Turn

variable (junk) in
/-- The loop of `readUint64` takes the varint, or everything that is left. -/
theorem readUint64Loop_call {k m : Nat} {result : BitVec 64} {b : ByteArray} (hb : b.Valid)
    (hk : k + m ≤ 10) (hresult : result.toNat < 2 ^ (7 * k)) :
    (Varint.cut m b.left = none →
      ByteStore.Calls.readUint64Loop (store junk) ((List.range' k m).map (7 * ·)) result b =
        (.error .outOfRange, b.advance b.getReadSize)) ∧
    ∀ enc, Varint.cut m b.left = some enc → ∃ r : BitVec 64,
      r.toNat = (result.toNat + Varint.value enc * 2 ^ (7 * k)) % 2 ^ 64 ∧
      ByteStore.Calls.readUint64Loop (store junk) ((List.range' k m).map (7 * ·)) result b =
        (.ok r, b.advance enc.length) := by
  induction m generalizing k result b with
  | zero =>
    refine ⟨fun h => absurd h (Option.some_ne_none _), fun enc henc => ⟨result, ?_, ?_⟩⟩
    · obtain rfl := Option.some.inj henc
      rw [Varint.value, Nat.zero_mul, Nat.add_zero, Nat.mod_eq_of_lt result.isLt]
    · obtain rfl := Option.some.inj henc
      rw [List.length_nil, hb.advance_zero]
      rfl
  | succ m ih =>
    have hlen := hb.length_left
    rw [List.range'_succ, List.map_cons]
    -- the byte that is read is the first of what is left; without one the call throws
    rcases hleft : b.left with _ | ⟨x, rest⟩
    · rw [hleft, List.length_nil] at hlen
      refine ⟨fun _ => ?_, fun enc h => absurd h.symm (Option.some_ne_none enc)⟩
      rw [← hlen, hb.advance_zero]
      exact Attempt.bind_of_error (Attempt.bind_of_error (hb.read_call_short (by omega)))
    · rw [hleft, List.length_cons] at hlen
      have hnext : (b.advance 1).Valid := hb.advance (by omega)
      have hrest : (b.advance 1).left = rest := by
        rw [advance_left, hleft]
        rfl
      rw [Varint.cut]
      by_cases hlast : x.toNat < 128
      · rw [if_pos hlast]
        refine ⟨fun h => absurd h (Option.some_ne_none _), fun enc henc => ?_⟩
        obtain rfl := Option.some.inj henc
        refine ⟨_, ?_, readUint64Loop_last hb hleft _ _ _ hlast⟩
        rw [Varint.or_shift_mod (by omega) hresult]
        show _ = (result.toNat + (x.toNat % 128 + 128 * 0) * 2 ^ (7 * k)) % 2 ^ 64
        rw [Nat.mul_zero, Nat.add_zero, Nat.mod_eq_of_lt hlast]
        rfl
      · rw [if_neg hlast]
        have hdigit : (x.toBitVec &&& 0x7f).toNat = x.toNat % 128 :=
          Varint.toNat_digit x.toBitVec
        have hvalue := @Varint.or_shift_mod 64 (7 * k) result (x.toBitVec &&& 0x7f)
          (by omega) hresult
        obtain ⟨hnone, hsome⟩ := ih hnext (by omega)
          (FlatStore.or_lt hresult (by rw [hdigit]; exact Nat.mod_lt _ (by decide)))
        rw [hrest] at hnone hsome
        -- the turn leaves the next one with the byte taken, and a longer result
        rw [readUint64Loop_more hb hleft _ _ _ hlast]
        refine ⟨fun h => ?_, fun enc henc => ?_⟩
        · have hall : 1 + (b.advance 1).getReadSize = b.getReadSize := by
            rw [advance_getReadSize]
            omega
          rw [hnone (Option.map_eq_none_iff.mp h), advance_advance, hall]
        · obtain ⟨enc', henc', rfl⟩ := Option.map_eq_some_iff.mp henc
          obtain ⟨r, hr, hcall⟩ := hsome enc' henc'
          refine ⟨r, ?_, ?_⟩
          · rw [hr, hvalue, hdigit, Varint.value_cons_mod]
          · rw [hcall, advance_advance, List.length_cons, Nat.add_comm]

theorem readUint64_reads : ReadsNumber (ByteStore.Calls.readUint64 (store junk)) .varint where
  short hb hlt :=
    Attempt.bind_of_error (Attempt.bind_of_error (hb.read_call_short hlt))
  cut {b} hb hle hnone := by
    have hloop := (readUint64Loop_call junk (k := 0) hb (Nat.le_refl 10)
      (by decide : (0 : BitVec 64).toNat < 2 ^ (7 * 0))).1 (Option.map_eq_none_iff.mp hnone)
    rw [← List.range_eq_range'] at hloop
    exact ⟨_, hle, hloop⟩
  whole {b v k} hb hsome := by
    obtain ⟨enc, henc, hv⟩ := Option.map_eq_some_iff.mp hsome
    obtain ⟨rfl, rfl⟩ := Prod.mk.inj hv
    obtain ⟨r, hr, hloop⟩ := (readUint64Loop_call junk (k := 0) hb (Nat.le_refl 10)
      (by decide : (0 : BitVec 64).toNat < 2 ^ (7 * 0))).2 enc henc
    rw [← List.range_eq_range'] at hloop
    obtain ⟨hle, hpos⟩ := Varint.cut_length henc
    rw [hb.length_left] at hle
    refine ⟨hpos (by decide), hle, r, ?_, hloop⟩
    rw [hr]
    simp

end Numbers

/-! ## Values -/

section Values
variable {junk : Nat → UInt8} {b : ByteArray} {r : TypedRead} {w : Nat}
variable {x : Attempt ByteArray (BitVec w)}

/-- A position further on is another one. -/
theorem not_atomic_of_moved {e : Fault} {n : Nat} (hn : 0 < n)
    (h : r.call (store junk) b = (.error e, b.advance n)) : ¬ ReadsAtomically junk b r := by
  rw [ReadsAtomically, h]
  rintro ⟨-, hposition, -⟩
  rw [advance_position] at hposition
  omega

theorem atomic_of_untouched (h : r.call (store junk) b = (.error .outOfRange, b)) :
    ReadsAtomically junk b r := by
  rw [ReadsAtomically, h]
  exact ⟨rfl, rfl, rfl, rfl⟩

/-- A reader of a number. -/
theorem readsAtomically_number (hb : b.Valid) (hx : ReadsNumber x r.form)
    (hcall : r.call (store junk) = TypedRead.asNumber x) (hstring : r.isString = false) :
    ReadsAtomically junk b r ↔ NothingOrAll b r := by
  rw [NothingOrAll, hstring]
  by_cases hshort : b.getReadSize < r.form.first
  · refine iff_of_true (atomic_of_untouched ?_) (Or.inl hshort)
    rw [hcall]
    exact Attempt.bind_of_error (hx.short hb hshort)
  · rcases hdecode : r.form.decode b.endian b.left with _ | ⟨v, k⟩
    · obtain ⟨n, hn, hread⟩ := hx.cut hb (Nat.not_lt.mp hshort) hdecode
      refine iff_of_false (not_atomic_of_moved (e := .outOfRange) hn ?_) ?_
      · rw [hcall]
        exact Attempt.bind_of_error hread
      · rintro (h | ⟨v, k, h, -⟩)
        · exact hshort h
        · cases h
    · obtain ⟨hk, hle, u, rfl, hread⟩ := hx.whole hb hdecode
      refine iff_of_true ?_ (Or.inr ⟨_, _, rfl, nofun⟩)
      rw [ReadsAtomically, hcall, TypedRead.asNumber, Attempt.bind_of_ok hread]
      refine ⟨k, ?_, rfl, rfl, hb.advance hle⟩
      rw [TypedRead.decode, hdecode, hstring]
      rfl

/-- A reader of a string behind its length. -/
theorem readsAtomically_string (hb : b.Valid) (hx : ReadsNumber x r.form)
    (hcall : r.call (store junk) =
      TypedRead.asString (do let len ← x; ByteStore.Calls.read (store junk) len.toNat))
    (hstring : r.isString = true) : ReadsAtomically junk b r ↔ NothingOrAll b r := by
  rw [NothingOrAll, hstring]
  by_cases hshort : b.getReadSize < r.form.first
  · refine iff_of_true (atomic_of_untouched ?_) (Or.inl hshort)
    rw [hcall]
    exact Attempt.bind_of_error (Attempt.bind_of_error (hx.short hb hshort))
  · rcases hdecode : r.form.decode b.endian b.left with _ | ⟨v, k⟩
    · obtain ⟨n, hn, hread⟩ := hx.cut hb (Nat.not_lt.mp hshort) hdecode
      refine iff_of_false (not_atomic_of_moved (e := .outOfRange) hn ?_) ?_
      · rw [hcall]
        exact Attempt.bind_of_error (Attempt.bind_of_error hread)
      · rintro (h | ⟨v, k, h, -⟩)
        · exact hshort h
        · cases h
    · obtain ⟨hk, hle, u, rfl, hread⟩ := hx.whole hb hdecode
      -- from here on the cursor has moved: only a whole string makes up for it
      have hlength : (do let len ← x; ByteStore.Calls.read (store junk) len.toNat) b =
          ByteStore.Calls.read (store junk) u.toNat (b.advance k) := Attempt.bind_of_ok hread
      rw [(hb.advance hle).read_call, advance_getReadSize] at hlength
      by_cases hlong : b.getReadSize - k < u.toNat
      · rw [if_pos hlong] at hlength
        refine iff_of_false (not_atomic_of_moved (e := .outOfRange) hk ?_) ?_
        · rw [hcall]
          exact Attempt.bind_of_error hlength
        · rintro (h | ⟨v, k', h, hfit⟩)
          · exact hshort h
          · cases h
            exact absurd (hfit rfl).1 (Nat.not_le.mpr hlong)
      · rw [if_neg hlong] at hlength
        -- an empty string behind the last node has no node to be read from
        by_cases hnull : u.toNat = 0 ∧ (b.advance k).position = (b.advance k).capacity
        · rw [if_pos hnull] at hlength
          refine iff_of_false (not_atomic_of_moved (e := .nullNode) hk ?_) ?_
          · rw [hcall]
            exact Attempt.bind_of_error hlength
          · rintro (h | ⟨v, k', h, hfit⟩)
            · exact hshort h
            · cases h
              exact (hfit rfl).2 hnull
        · rw [if_neg hnull] at hlength
          refine iff_of_true ?_ (Or.inr ⟨_, _, rfl, fun _ => ⟨Nat.not_lt.mp hlong, hnull⟩⟩)
          have hend : k + u.toNat ≤ b.getReadSize := by omega
          rw [ReadsAtomically, hcall, TypedRead.asString, Attempt.bind_of_ok hlength]
          refine ⟨k + u.toNat, ?_, ?_, rfl, ?_⟩
          · rw [TypedRead.decode, hdecode, hb.length_left, hstring]
            show (if u.toNat ≤ b.getReadSize - k then _ else none) = _
            rw [if_pos (Nat.not_lt.mp hlong), advance_left]
            rfl
          · show b.position + k + u.toNat = _
            rw [Nat.add_assoc]
          · rw [advance_advance]
            exact hb.advance hend

end Values

/-- **When a typed read is atomic.** -/
theorem readsAtomically_iff (hb : b.Valid) (junk : Nat → UInt8) (r : TypedRead) :
    ReadsAtomically junk b r ↔ NothingOrAll b r := by
  cases r with
  | readFint8 | readFuint8 => exact readsAtomically_number hb readFint8_reads rfl rfl
  | readFint16 | readFuint16 =>
    exact readsAtomically_number hb (readFixed_reads (by decide) (by decide)) rfl rfl
  | readFint32 | readFuint32 =>
    exact readsAtomically_number hb (readFixed_reads (by decide) (by decide)) rfl rfl
  | readFint64 | readFuint64 =>
    exact readsAtomically_number hb (readFixed_reads (by decide) (by decide)) rfl rfl
  | readUint64 => exact readsAtomically_number hb readUint64_reads rfl rfl
  | readStringF16 | readStringF32 | readStringF64 =>
    exact readsAtomically_string hb (readFixed_reads (by decide) (by decide)) rfl rfl
  | readStringVint => exact readsAtomically_string hb readUint64_reads rfl rfl

/-- Two of the four bytes that are left. -/
theorem readsAtomically_iff_five :
    ReadsAtomically (fun _ => 0) five .readFint16 ∧
      ¬ ReadsAtomically (fun _ => 0) five .readStringVint := by
  refine ⟨(readsAtomically_iff five_valid _ _).mpr (Or.inr ⟨_, _, rfl, nofun⟩), fun h => ?_⟩
  rcases (readsAtomically_iff five_valid _ _).mp h with hshort | ⟨v, k, hdecode, hfit⟩
  · exact absurd hshort (by decide)
  · cases hdecode
    exact absurd (hfit rfl).1 (by decide)

/-- The length of a string of five bytes, and then nothing; and the length of an empty string
where the chain ends. -/
theorem readStringF16_moves :
    (∃ b c : ByteArray, b.Valid ∧
      TypedRead.readStringF16.call (store fun _ => 0) b = (.error .outOfRange, c) ∧
      c.position = b.position + 2 ∧ ¬ ReadsAtomically (fun _ => 0) b .readStringF16) ∧
    ∃ b c : ByteArray, b.Valid ∧
      TypedRead.readStringF16.call (store fun _ => 0) b = (.error .nullNode, c) ∧
      ¬ ReadsAtomically (fun _ => 0) b .readStringF16 := by
  constructor
  · refine ⟨⟨4, 0, 4, 2, .big, [⟨4, [0, 5, 0, 0], rfl⟩], some 0⟩, _,
      ⟨by decide, by decide, by decide, by decide, by decide, by decide, by decide⟩, rfl, rfl, ?_⟩
    rintro ⟨-, hposition, -⟩
    cases hposition
  · refine ⟨⟨2, 0, 2, 2, .big, [⟨2, [0, 0], rfl⟩], some 0⟩, _,
      ⟨by decide, by decide, by decide, by decide, by decide, by decide, by decide⟩, rfl, ?_⟩
    rintro ⟨hfault, -⟩
    cases hfault

end ByteArray
end Sylar
