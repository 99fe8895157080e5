import Sylar.Overlay
import Mathlib.Data.List.Basic

/-! # The byte array of `bytearray.h`

A `ByteArray` is a singly linked chain of nodes of `m_baseSize` bytes each,
started at `m_root`, with one cursor `m_position` for reading and writing.
Beside the position the object keeps `m_cur`, a pointer to the node the position
lies in, so that no operation has to walk the chain from its root.

The chain is the list of its nodes and `m_cur` is a node number, `none` for
`nullptr`.  A loop that follows `m_cur->next` is a recursion over the list of
nodes from `m_cur` on; reaching the end of the list with bytes still to move is
the null dereference `Fault.nullNode`, a thrown `std::out_of_range` is
`Fault.outOfRange`.  What lies in memory behind a pointer handed to `write` is a
function from offsets, because the loop does not always stay inside the buffer.
Sizes are natural numbers: no operation of a valid array subtracts below zero,
and `size_t` does not overflow for a chain that fits in memory. -/
namespace Sylar
open Overlay

/-- Why an operation did not complete. -/
inductive Fault
  /-- `m_cur` or `cur` is dereferenced while it is null. -/
  | nullNode
  /-- `throw std::out_of_range`. -/
  | outOfRange
  /-- A local buffer is written past its end. -/
  | stackOverflow
  deriving DecidableEq, Repr

/-- `ByteArray::Node`: a heap block of `size` bytes. -/
structure Node where
  size : Nat
  ptr : List UInt8
  /-- The block really has `size` bytes. -/
  length_ptr : ptr.length = size
  deriving DecidableEq, Repr

namespace Node

/-- `Node( size_t s )`.  The bytes of `new char[s]` are indeterminate; zero
stands for them. -/
def new (s : Nat) : Node := ⟨s, List.replicate s 0, List.length_replicate⟩

/-- `memcpy( ptr + off, src, n )`. -/
def store (nd : Node) (off : Nat) (src : Nat → UInt8) (n : Nat) : Node :=
  ⟨nd.size, overlay nd.ptr off src n, by simp [nd.length_ptr]⟩

/-- `memcpy( dst, ptr + off, n )`: the bytes that are copied. -/
def load (nd : Node) (off n : Nat) : List UInt8 := (nd.ptr.drop off).take n

@[simp] theorem size_new (s : Nat) : (new s).size = s := rfl

end Node

/-- The bytes of a chain of nodes, in order. -/
def bytesOf (chain : List Node) : List UInt8 := chain.flatMap Node.ptr

@[simp] theorem bytesOf_cons (nd : Node) (chain : List Node) :
    bytesOf (nd :: chain) = nd.ptr ++ bytesOf chain := rfl

@[simp] theorem bytesOf_append (xs ys : List Node) :
    bytesOf (xs ++ ys) = bytesOf xs ++ bytesOf ys := List.flatMap_append

/-- A byte order, `SYLAR_LITTLE_ENDIAN` or `SYLAR_BIG_ENDIAN`. -/
inductive Endian
  | little
  | big
  deriving DecidableEq, Repr

/-- `ByteArray`. -/
structure ByteArray where
  baseSize : Nat
  position : Nat
  capacity : Nat
  size : Nat
  endian : Endian
  /-- The chain of nodes from `m_root` on. -/
  root : List Node
  /-- `m_cur`: the number of the node it points to. -/
  cur : Option Nat
  deriving DecidableEq, Repr

/-- An `iovec` whose base is `ptr + off` of node number `node`. -/
structure Iovec where
  node : Nat
  off : Nat
  len : Nat
  deriving DecidableEq, Repr

namespace ByteArray

/-- `ByteArray( size_t base_size )`. -/
def new (baseSize : Nat) : ByteArray where
  baseSize := baseSize
  position := 0
  capacity := baseSize
  size := 0
  endian := .big
  root := [Node.new baseSize]
  cur := some 0

/-- `getReadSize`. -/
def getReadSize (b : ByteArray) : Nat := b.size - b.position

/-- `getCapacity`. -/
def getCapacity (b : ByteArray) : Nat := b.capacity - b.position

/-- `isLittleEndian`. -/
def isLittleEndian (b : ByteArray) : Bool := b.endian = .little

/-- `setIsLittleEndian`. -/
def setIsLittleEndian (b : ByteArray) (val : Bool) : ByteArray :=
  { b with endian := if val then .little else .big }

/-- All bytes the chain has room for. -/
def content (b : ByteArray) : List UInt8 := bytesOf b.root

/-- The pointer to node number `i`, null when the chain has no such node. -/
def nodePtr (b : ByteArray) (i : Nat) : Option Nat :=
  if i < b.root.length then some i else none

/-- `*m_cur`: the number of the node, if the pointer is not null. -/
def derefCur (b : ByteArray) : Except Fault Nat :=
  match b.cur with
  | some i => .ok i
  | none => .error .nullNode

/-- `clear`.  `m_capacity` is not written. -/
def clear (b : ByteArray) : ByteArray :=
  { b with position := 0, size := 0, root := b.root.take 1, cur := some 0 }

/-- `addCapacity`. -/
def addCapacity (b : ByteArray) (size : Nat) : ByteArray :=
  if size = 0 then b
  else
    let oldCap := b.getCapacity
    if size ≤ oldCap then b
    else
      let need := size - oldCap
      let count := need / b.baseSize + (if oldCap < need % b.baseSize then 1 else 0)
      { b with
        root := b.root ++ List.replicate count (Node.new b.baseSize)
        capacity := b.capacity + count * b.baseSize
        cur := if oldCap = 0 then (if 0 < count then some b.root.length else none) else b.cur }

/-! ## Writing -/

/-- What the copy loop of `write` leaves behind. -/
structure Copied where
  /-- The nodes from the old `m_cur` on. -/
  nodes : List Node
  /-- How many times `m_cur` moved to its successor. -/
  moved : Nat
  /-- The ranges `(offset, length)` of the caller's buffer that were read. -/
  reads : List (Nat × Nat)
  deriving DecidableEq, Repr

/-- The `while` loop of `write`, over the nodes from `m_cur` on.  The branch of
the last chunk reads the buffer from `npos` on, the other one from `bpos` on. -/
def writeLoop (buf : Nat → UInt8) : Nat → Nat → Nat → List Node → Except Fault Copied
  | _, _, _, [] => .error .nullNode
  | npos, bpos, size, nd :: rest =>
    let ncap := nd.size - npos
    if size ≤ ncap then
      .ok {
        nodes := nd.store npos (fun j => buf (npos + j)) size :: rest
        moved := if nd.size = npos + size then 1 else 0
        reads := [(npos, size)] }
    else do
      let r ← writeLoop buf 0 (bpos + ncap) (size - ncap) rest
      return {
        nodes := nd.store npos (fun j => buf (bpos + j)) ncap :: r.nodes
        moved := r.moved + 1
        reads := (bpos, ncap) :: r.reads }

/-- `write( buf, size )`, with the ranges of `buf` it read. -/
def writeRun (b : ByteArray) (buf : Nat → UInt8) (size : Nat) :
    Except Fault (ByteArray × List (Nat × Nat)) :=
  if size = 0 then .ok (b, [])
  else do
    let b := b.addCapacity size
    let i ← b.derefCur
    let r ← writeLoop buf (b.position % b.baseSize) 0 size (b.root.drop i)
    let position := b.position + size
    return ({ b with
      root := b.root.take i ++ r.nodes
      cur := b.nodePtr (i + r.moved)
      position := position
      size := if b.size < position then position else b.size }, r.reads)

/-- `write( buf, size )`. -/
def write (b : ByteArray) (buf : Nat → UInt8) (size : Nat) : Except Fault ByteArray :=
  (b.writeRun buf size).map Prod.fst

/-! ## Reading -/

/-- The `while` loop of both `read`s, over the nodes from `m_cur` on: the bytes
copied out, and how many times the cursor moved to its successor. -/
def readLoop : Nat → Nat → List Node → Except Fault (List UInt8 × Nat)
  | _, 0, _ => .ok ([], 0)
  | _, _ + 1, [] => .error .nullNode
  | npos, size + 1, nd :: rest =>
    let ncap := nd.size - npos
    if size + 1 ≤ ncap then
      .ok (nd.load npos (size + 1), if nd.size = npos + (size + 1) then 1 else 0)
    else do
      let r ← readLoop 0 (size + 1 - ncap) rest
      return (nd.load npos ncap ++ r.1, r.2 + 1)

/-- `read( buf, size )`: the bytes copied to `buf`. -/
def read (b : ByteArray) (size : Nat) : Except Fault (List UInt8 × ByteArray) :=
  if b.getReadSize < size then .error .outOfRange
  else do
    let i ← b.derefCur
    let r ← readLoop (b.position % b.baseSize) size (b.root.drop i)
    return (r.1, { b with position := b.position + size, cur := b.nodePtr (i + r.2) })

/-- `read( buf, size, position ) const`.  The walk starts at `m_cur`, whatever
`position` is. -/
def readAt (b : ByteArray) (size position : Nat) : Except Fault (List UInt8) :=
  if b.getReadSize < size then .error .outOfRange
  else do
    let i ← b.derefCur
    let r ← readLoop (position % b.baseSize) size (b.root.drop i)
    return r.1

/-! ## Moving the cursor -/

/-- The walk of `setPosition` from `m_root`: the number of the node it ends at. -/
def seekLoop : Nat → List Node → Except Fault Nat
  | _, [] => .error .nullNode
  | val, nd :: rest =>
    if nd.size < val then do
      let i ← seekLoop (val - nd.size) rest
      return i + 1
    else .ok (if val = nd.size then 1 else 0)

/-- `setPosition`. -/
def setPosition (b : ByteArray) (val : Nat) : Except Fault ByteArray :=
  if b.capacity < val then .error .outOfRange
  else do
    let i ← seekLoop val b.root
    return { b with
      position := val
      size := if b.size < val then val else b.size
      cur := b.nodePtr i }

/-! ## Buffers for scattered input and output -/

/-- The `while` loop that cuts a range into one `iovec` per node. -/
def iovecLoop : Nat → Nat → Nat → List Node → Except Fault (List Iovec)
  | _, _, _, [] => .error .nullNode
  | npos, len, i, nd :: rest =>
    let ncap := nd.size - npos
    if len ≤ ncap then .ok [⟨i, npos, len⟩]
    else do
      let r ← iovecLoop 0 (len - ncap) (i + 1) rest
      return ⟨i, npos, ncap⟩ :: r

/-- `getReadBuffers( buffers, len )`: the value returned and the `iovec`s
appended to `buffers`. -/
def getReadBuffers (b : ByteArray) (len : Nat) : Except Fault (Nat × List Iovec) :=
  let len := if b.getReadSize < len then b.getReadSize else len
  if len = 0 then .ok (0, [])
  else do
    let i ← b.derefCur
    let iovs ← iovecLoop (b.position % b.baseSize) len i (b.root.drop i)
    return (len, iovs)

/-- `getWriteBuffers( buffers, len )`. -/
def getWriteBuffers (b : ByteArray) (len : Nat) :
    Except Fault (Nat × List Iovec × ByteArray) :=
  if len = 0 then .ok (0, [], b)
  else do
    let b := b.addCapacity len
    let i ← b.derefCur
    let iovs ← iovecLoop (b.position % b.baseSize) len i (b.root.drop i)
    return (len, iovs, b)

/-- `toString`. -/
def toString (b : ByteArray) : Except Fault (List UInt8) :=
  if b.getReadSize = 0 then .ok [] else b.readAt b.getReadSize b.position

end ByteArray
end Sylar
