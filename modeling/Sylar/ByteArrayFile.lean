import Sylar.ByteArrayRead
import Sylar.FlatStore

/-! # A byte array in a file

`writeToFile` hands the nodes from `m_cur` on to `ofs.write`, one in each turn of its loop;
`readFromFile` writes the file into the array, as many bytes in each turn as a node has.

In every turn the number of bytes is that of a whole node or of all that is left, less the
offset of the position in its node.  In the first node that is right only where there is a whole
node left to write, and the offset is held in an `int`.  **`writeToFile_iff`** says on which
arrays the file holds the readable bytes. -/
namespace Sylar
open Interleaving Overlay

/-! ## The code -/

/-- A call `ofs.write( cur->ptr + off, len )`, where `cur` is node number `node`. -/
structure FileWrite where
  node : Nat
  off : Int
  len : Int
  deriving DecidableEq, Repr

namespace ByteArray

/-- `int diff = pos % m_baseSize`. -/
def diffOf (base : Nat) (pos : Int) : Int := Int.bmod (pos % base) (2 ^ 32)

/-- `int64_t len`: as much as there is, up to a node, less the offset. -/
def lenOf (base : Nat) (pos readSize : Int) : Int :=
  (if base < readSize then (base : Int) else readSize) - diffOf base pos

/-- The `while` loop of `writeToFile`, over the nodes from `cur` on. -/
def fileLoop (base : Nat) : Int → Int → Nat → List Node → Except Fault (List FileWrite)
  | _, readSize, _, [] => if 0 < readSize then .error .nullNode else .ok []
  | pos, readSize, i, _ :: rest =>
    if 0 < readSize then do
      let writes ← fileLoop base (pos + lenOf base pos readSize)
        (readSize - lenOf base pos readSize) (i + 1) rest
      return ⟨i, diffOf base pos, lenOf base pos readSize⟩ :: writes
    else .ok []

/-- The nodes from `m_cur` on, none where it is null. -/
def fromCur (b : ByteArray) : List Node :=
  match b.cur with
  | none => []
  | some i => b.root.drop i

/-- `writeToFile( name )`, where `ofs` says whether the file could be opened: the value
returned, and the calls of `ofs.write`. -/
def writeToFile (b : ByteArray) (ofs : Bool) : Except Fault (Bool × List FileWrite) :=
  if ofs then do
    let writes ← fileLoop b.baseSize b.position b.getReadSize (b.cur.getD 0) b.fromCur
    return (true, writes)
  else .ok (false, [])

end ByteArray

namespace ByteStore
variable {σ : Type} (S : ByteStore σ) {base : Nat}

/-- The loop of `readFromFile`, on what is left of the file.  `ifs.read` takes `base` bytes,
and is at the end of the file when there are fewer. -/
def readFileLoop (hbase : 0 < base) (s : σ) (file : List UInt8) : Except Fault σ := do
  let s ← S.write s (file.take base)
  if _hmore : base ≤ file.length then
    readFileLoop hbase s (file.drop base)
  else return s
termination_by file.length
decreasing_by
  rw [List.length_drop]
  omega

/-- `readFromFile( name )`, of the bytes of the file if it could be opened. -/
def readFromFile (hbase : 0 < base) (s : σ) (ifs : Option (List UInt8)) :
    Except Fault (Bool × σ) :=
  match ifs with
  | none => .ok (false, s)
  | some file => do
    let s ← S.readFileLoop hbase s file
    return (true, s)

/-- A store whose `write` puts bytes behind those it holds. -/
def Appends (Holds : σ → List UInt8 → Prop) : Prop :=
  ∀ s bytes src, Holds s bytes → ∃ t, S.write s src = .ok t ∧ Holds t (bytes ++ src)

/-- **The file is read back**: on such a store, whatever its base size is. -/
theorem readFileLoop_holds {Holds : σ → List UInt8 → Prop} (hS : S.Appends Holds)
    (hbase : 0 < base) {s : σ} {bytes : List UInt8} (h : Holds s bytes) (file : List UInt8) :
    ∃ t, S.readFileLoop hbase s file = .ok t ∧ Holds t (bytes ++ file) := by
  induction hlen : file.length using Nat.strongRecOn generalizing s bytes file with
  | ind n ih =>
    obtain ⟨t, hwrite, ht⟩ := hS s bytes (file.take base) h
    rw [readFileLoop, hwrite]
    by_cases hmore : base ≤ file.length
    · have hshort : (file.drop base).length < n := by
        rw [List.length_drop]
        omega
      obtain ⟨t', hrun, ht'⟩ := ih _ hshort ht (file.drop base) rfl
      rw [List.append_assoc, List.take_append_drop] at ht'
      refine ⟨t', ?_, ht'⟩
      simp only [bind, Except.bind]
      rw [dif_pos hmore, hrun]
    · rw [List.take_of_length_le (by omega)] at ht
      refine ⟨t, ?_, ht⟩
      simp only [bind, Except.bind]
      rw [dif_neg hmore]
      rfl

end ByteStore

namespace FlatStore

theorem store_appends (order : Endian) :
    store.Appends fun s bytes => s = cursor order bytes [] := by
  rintro s bytes src rfl
  exact ⟨_, rfl, write_cursor order bytes src⟩

/-- The flat store takes a file in, in pieces of any size. -/
theorem readFromFile_eq {base : Nat} (hbase : 0 < base) (order : Endian) (file : List UInt8) :
    store.readFromFile hbase (empty order) (some file) = .ok (true, cursor order file []) := by
  obtain ⟨t, hrun, rfl⟩ :=
    @ByteStore.readFileLoop_holds _ store _ _ (store_appends order) hbase (empty order) [] rfl file
  rw [ByteStore.readFromFile, hrun]
  rfl

end FlatStore

namespace ByteArray

/-! ## What is asked of it -/

/-- The call stays in its node. -/
def InNode (nodes : List Node) (w : FileWrite) : Prop :=
  ∃ nd, nodes[w.node]? = some nd ∧ 0 ≤ w.off ∧ 0 ≤ w.len ∧ w.off + w.len ≤ nd.size

/-- The bytes that a call passes. -/
def passed (nodes : List Node) (w : FileWrite) : List UInt8 :=
  gather nodes ⟨w.node, w.off.toNat, w.len.toNat⟩

/-- The readable bytes. -/
def readable (b : ByteArray) : List UInt8 := b.ahead b.getReadSize

/-- `writeToFile` completes, each of its calls stays in a node, and the file holds the readable
bytes; reading it into an empty store that works gives these bytes again. -/
def WritesFile (b : ByteArray) : Prop :=
  ∃ writes, b.writeToFile true = .ok (true, writes) ∧ (∀ w ∈ writes, InNode b.root w) ∧
    writes.flatMap (passed b.root) = b.readable ∧
    ∀ (σ : Type) (S : ByteStore σ) (Holds : σ → List UInt8 → Prop) (s : σ) (base : Nat)
      (hbase : 0 < base), S.Appends Holds → Holds s [] →
      ∃ t, S.readFromFile hbase s (some (writes.flatMap (passed b.root))) = .ok (true, t) ∧
        Holds t b.readable

/-- The part that is about `writeToFile`. -/
theorem writesFile_iff {b : ByteArray} :
    b.WritesFile ↔ ∃ writes, b.writeToFile true = .ok (true, writes) ∧
      (∀ w ∈ writes, InNode b.root w) ∧ writes.flatMap (passed b.root) = b.readable := by
  constructor
  · rintro ⟨writes, hrun, hin, hbytes, -⟩
    exact ⟨writes, hrun, hin, hbytes⟩
  · rintro ⟨writes, hrun, hin, hbytes⟩
    refine ⟨writes, hrun, hin, hbytes, ?_⟩
    intro σ S Holds s base hbase hS hs
    obtain ⟨t, hread, ht⟩ := S.readFileLoop_holds hS hbase hs b.readable
    refine ⟨t, ?_, ht⟩
    rw [hbytes, ByteStore.readFromFile, hread]
    rfl

/-! ## Turns of the loop -/

section Loop
variable {base i : Nat} {pos readSize : Int} {chain : List Node}

theorem fileLoop_done (h : readSize ≤ 0) : fileLoop base pos readSize i chain = .ok [] := by
  cases chain with
  | nil => rw [fileLoop, if_neg (by omega)]
  | cons nd rest => rw [fileLoop, if_neg (by omega)]

/-- What a turn of a loop that completes does. -/
theorem fileLoop_turn {writes : List FileWrite}
    (h : fileLoop base pos readSize i chain = .ok writes) (hmore : 0 < readSize) :
    ∃ nd rest writes', chain = nd :: rest ∧
      writes = ⟨i, diffOf base pos, lenOf base pos readSize⟩ :: writes' ∧
      fileLoop base (pos + lenOf base pos readSize) (readSize - lenOf base pos readSize) (i + 1)
        rest = .ok writes' := by
  cases chain with
  | nil =>
    rw [fileLoop, if_pos hmore] at h
    cases h
  | cons nd rest =>
    rw [fileLoop, if_pos hmore] at h
    obtain ⟨writes', hrest, hw⟩ := bind_ok h
    exact ⟨nd, rest, writes', rfl, (Except.ok.inj hw).symm, hrest⟩

/-- A turn that writes nothing is followed by others like it, until the chain ends. -/
theorem fileLoop_stuck (hmore : 0 < readSize) (hlen : lenOf base pos readSize = 0) :
    fileLoop base pos readSize i chain = .error .nullNode := by
  induction chain generalizing i with
  | nil => rw [fileLoop, if_pos hmore]
  | cons nd rest ih =>
    have hnext := ih (i := i + 1)
    rw [fileLoop, if_pos hmore, hlen, Int.add_zero, Int.sub_zero, hnext]
    rfl

/-- The loop sees of the nodes only how many there are. -/
theorem fileLoop_congr {chain' : List Node} (h : chain.length = chain'.length) :
    fileLoop base pos readSize i chain = fileLoop base pos readSize i chain' := by
  induction chain generalizing chain' pos readSize i with
  | nil =>
    obtain rfl := List.length_eq_zero_iff.mp h.symm
    rfl
  | cons nd rest ih =>
    cases chain' with
    | nil => cases h
    | cons nd' rest' =>
      have hrest : ∀ p r, fileLoop base p r (i + 1) rest = fileLoop base p r (i + 1) rest' :=
        fun _ _ => ih (Nat.succ.inj h)
      rw [fileLoop, fileLoop]
      simp only [hrest]

end Loop

/-! ## Where it is right -/

section Nodes
variable {base i pos r : Nat} {nodes chain : List Node}

theorem diffOf_small (h : pos % base < 2 ^ 31) : diffOf base pos = (pos % base : Nat) := by
  rw [diffOf, ← Int.natCast_mod]
  exact Int.bmod_eq_of_le (by omega) (by omega)

/-- The turn on a node of which `k` bytes are written: the rest of the node, or all that is
left. -/
theorem fileLoop_fill {nd : Node} {rest : List Node} {k : Nat} {writes : List FileWrite}
    (hchain : nodes.drop i = nd :: rest) (hnd : nd.size = base) (hoff : pos % base < 2 ^ 31)
    (hr : 0 < r) (hk : pos % base + k = min base r)
    (hfull : pos % base + k = base ∨ k = r)
    (hrest : fileLoop base (pos + k : Nat) (r - k : Nat) (i + 1) rest = .ok writes)
    (hin : ∀ w ∈ writes, InNode nodes w)
    (hbytes : writes.flatMap (passed nodes) = window (bytesOf rest) 0 (r - k)) :
    ∃ writes', fileLoop base pos r i (nd :: rest) = .ok writes' ∧
      (∀ w ∈ writes', InNode nodes w) ∧
      writes'.flatMap (passed nodes) = window (bytesOf (nd :: rest)) (pos % base) r := by
  have hdiff := diffOf_small hoff
  have hptr : nd.ptr.length = base := nd.length_ptr.trans hnd
  have hget : nodes[i]? = some nd := by
    rw [← Nat.add_zero i, ← List.getElem?_drop, hchain]
    rfl
  have hlen : lenOf base pos r = k := by
    rw [lenOf, hdiff]
    split <;> omega
  have hnext : ((pos : Int) + k = (pos + k : Nat)) ∧ ((r : Int) - k = (r - k : Nat)) := by omega
  refine ⟨⟨i, (pos % base : Nat), k⟩ :: writes, ?_, ?_, ?_⟩
  · rw [fileLoop, if_pos (by omega), hlen, hnext.1, hnext.2, hrest, hdiff]
    rfl
  · intro w hw
    rcases List.mem_cons.mp hw with rfl | hw
    · refine ⟨nd, hget, Int.natCast_nonneg _, Int.natCast_nonneg _, ?_⟩
      show ((pos % base : Nat) : Int) + (k : Int) ≤ nd.size
      omega
    · exact hin w hw
  · have hfirst : passed nodes ⟨i, (pos % base : Nat), k⟩ = window nd.ptr (pos % base) k := by
      rw [passed, gather, hget]
      rfl
    rw [List.flatMap_cons, hfirst, hbytes, bytesOf_cons]
    rcases Nat.lt_or_ge (pos % base + r) base with hlt | hge
    · obtain rfl : k = r := by omega
      rw [window_append_left (by omega), Nat.sub_self, window_zero, List.append_nil]
    · obtain rfl : k = base - pos % base := by omega
      rw [window_append_right (by omega) (by omega), hptr]

/-- The loop from the beginning of a node on. -/
theorem fileLoop_aligned (hchain : nodes.drop i = chain)
    (hnodes : ∀ nd ∈ chain, nd.size = base) (hpos : pos % base = 0)
    (hroom : r ≤ base * chain.length) :
    ∃ writes, fileLoop base pos r i chain = .ok writes ∧ (∀ w ∈ writes, InNode nodes w) ∧
      writes.flatMap (passed nodes) = window (bytesOf chain) 0 r := by
  induction chain generalizing i pos r with
  | nil =>
    obtain rfl : r = 0 := by simpa using hroom
    exact ⟨[], fileLoop_done (Int.le_refl 0), by simp, rfl⟩
  | cons nd rest ih =>
    rcases Nat.eq_zero_or_pos r with rfl | hr
    · exact ⟨[], fileLoop_done (Int.le_refl 0), by simp, rfl⟩
    · have hnd : nd.size = base := hnodes nd (List.mem_cons_self ..)
      have hrest : ∀ nd ∈ rest, nd.size = base := fun x hx => hnodes x (List.mem_cons_of_mem _ hx)
      have hdrop : nodes.drop (i + 1) = rest := by
        rw [← List.drop_drop, hchain]
        rfl
      rw [List.length_cons, Nat.mul_succ] at hroom
      rw [← hpos]
      rcases Nat.lt_or_ge base r with hlt | hge
      · have hnext : (pos + base) % base = 0 := by rw [Nat.add_mod_right, hpos]
        obtain ⟨writes, hrun, hin, hbytes⟩ := ih hdrop hrest hnext (by omega : r - base ≤ _)
        exact fileLoop_fill hchain hnd (by omega) hr (by omega) (by omega) hrun hin hbytes
      · refine fileLoop_fill hchain hnd (by omega) hr (by omega : _ + r = _) (.inr rfl)
          (fileLoop_done (by omega)) (by simp) ?_
        rw [Nat.sub_self]
        rfl

end Nodes

section Files
variable {b : ByteArray}

/-- The loop that `writeToFile` runs, where there is something to write. -/
theorem Valid.writeToFile_eq (hb : b.Valid) (hr : 0 < b.getReadSize) :
    b.writeToFile true =
      (fileLoop b.baseSize b.position b.getReadSize (b.position / b.baseSize)
        (b.root.drop (b.position / b.baseSize))).map (true, ·) := by
  have hsize := hb.size_le
  have hcur := hb.cur_eq
  rw [getReadSize] at hr
  rw [if_neg (by omega)] at hcur
  rw [writeToFile, if_pos rfl, fromCur, hcur, Option.getD_some]
  cases fileLoop b.baseSize b.position b.getReadSize (b.position / b.baseSize)
      (b.root.drop (b.position / b.baseSize)) with
  | error e => rfl
  | ok writes => rfl

/-- Nothing to write, or the beginning of a node, or an offset that an `int` holds with a node's
worth of bytes behind it. -/
def FileFits (b : ByteArray) : Prop :=
  b.getReadSize = 0 ∨ b.position % b.baseSize = 0 ∨
    b.baseSize ≤ b.getReadSize ∧ b.position % b.baseSize < 2 ^ 31

/-- The next node begins where this one ends. -/
theorem next_node_aligned (base pos : Nat) (hbase : 0 < base) :
    (pos + (base - pos % base)) % base = 0 := by
  have hdm := Nat.div_add_mod pos base
  have hmod := Nat.mod_lt pos hbase
  have hsum : pos + (base - pos % base) = base * (pos / base + 1) := by
    rw [Nat.mul_succ]
    omega
  rw [hsum, Nat.mul_mod_right]

/-- The first write fills up the node of the cursor, and the others begin where nodes do. -/
theorem Valid.fileLoop_of_fits (hb : b.Valid) (h : b.FileFits) (hr : 0 < b.getReadSize)
    (hcap : b.position < b.capacity) (hle : b.position + b.getReadSize ≤ b.capacity) :
    ∃ writes, fileLoop b.baseSize b.position b.getReadSize
        (b.position / b.baseSize) (b.root.drop (b.position / b.baseSize)) = .ok writes ∧
      (∀ w ∈ writes, InNode b.root w) ∧
      writes.flatMap (passed b.root) =
        window (bytesOf (b.root.drop (b.position / b.baseSize)))
          (b.position % b.baseSize) b.getReadSize := by
  have hroom := hb.room_ahead hcap hle
  by_cases hzero : b.position % b.baseSize = 0
  · rw [hzero, Nat.zero_add] at hroom
    rw [hzero]
    exact fileLoop_aligned rfl hb.mem_drop hzero hroom
  · obtain ⟨hnode, hoff⟩ : b.baseSize ≤ b.getReadSize ∧ b.position % b.baseSize < 2 ^ 31 := by
      rcases h with h | h | h
      · omega
      · exact absurd h hzero
      · exact h
    have hmem := @Valid.mem_drop b hb (b.position / b.baseSize)
    have hmod := Nat.mod_lt b.position hb.base_pos
    generalize hdrop : b.root.drop (b.position / b.baseSize) = chain at hroom hmem
    cases chain with
    | nil =>
      rw [List.length_nil, Nat.mul_zero] at hroom
      omega
    | cons nd rest =>
      have hnext : b.root.drop (b.position / b.baseSize + 1) = rest := by
        rw [← List.drop_drop, hdrop]
        rfl
      rw [List.length_cons, Nat.mul_succ] at hroom
      obtain ⟨writes, hrun, hin, hbytes⟩ := fileLoop_aligned hnext
        (fun x hx => hmem x (List.mem_cons_of_mem _ hx)) (next_node_aligned _ _ hb.base_pos)
        (by omega : b.getReadSize - (b.baseSize - b.position % b.baseSize) ≤ _)
      exact fileLoop_fill hdrop (hmem nd (List.mem_cons_self ..)) hoff hr (by omega) (by omega)
        hrun hin hbytes

theorem Valid.writesFile_of_fits (hb : b.Valid) (h : b.FileFits) : b.WritesFile := by
  rw [writesFile_iff]
  rcases Nat.eq_zero_or_pos b.getReadSize with hr | hr
  · refine ⟨[], ?_, by simp, ?_⟩
    · have hdone : fileLoop b.baseSize b.position (0 : Nat) (b.cur.getD 0) b.fromCur = .ok [] :=
        fileLoop_done (Int.le_refl 0)
      rw [writeToFile, if_pos rfl, hr, hdone]
      rfl
    · rw [readable, hr]
      rfl
  · have hsize := hb.size_le
    have hle : b.position + b.getReadSize ≤ b.capacity := by
      have hpos := hb.position_le
      rw [getReadSize]
      omega
    have hcap : b.position < b.capacity := by omega
    obtain ⟨writes, hrun, hin, hbytes⟩ := hb.fileLoop_of_fits h hr hcap hle
    refine ⟨writes, ?_, hin, hbytes.trans (hb.ahead_eq hcap).symm⟩
    rw [hb.writeToFile_eq hr, hrun]
    rfl

end Files

/-! ## Where it is not -/

section Turns
variable {base i pos r : Nat} {chain : List Node} {writes : List FileWrite}

/-- What a loop that completes does when it starts inside a node with less than a node's worth
of bytes to write: the offset is taken off the bytes that are left, and the next turn is to
write a number of bytes that is the difference of two offsets. -/
theorem fileLoop_second (hrun : fileLoop base pos r i chain = .ok writes)
    (hlen : ∀ w ∈ writes, 0 ≤ w.len) (hdiff : diffOf base pos = (pos % base : Nat))
    (hinside : 0 < pos % base) (hr : 0 < r) (hshort : r < base) :
    pos % base < r ∧ (pos % base : Nat) ≠ diffOf base r ∧
      ∃ writes', writes = ⟨i, (pos % base : Nat), r - (pos % base : Nat)⟩ ::
        ⟨i + 1, diffOf base r, (pos % base : Nat) - diffOf base r⟩ :: writes' := by
  have hfirst : lenOf base pos r = r - (pos % base : Nat) := by
    rw [lenOf, hdiff, if_neg (by omega)]
  have hmoves : lenOf base pos r ≠ 0 := by
    intro hzero
    rw [fileLoop_stuck (by omega) hzero] at hrun
    cases hrun
  obtain ⟨nd, rest, writes', -, rfl, hrest⟩ := fileLoop_turn hrun (by omega)
  have hnonneg := hlen _ (List.mem_cons_self ..)
  simp only [hfirst] at hmoves hnonneg hrest
  have hleft : (r : Int) - (r - (pos % base : Nat)) = (pos % base : Nat) := by omega
  have hwhere : diffOf base (pos + (r - (pos % base : Nat))) = diffOf base r := by
    have hdm := Nat.div_add_mod pos base
    have hsum : (pos : Int) + (r - (pos % base : Nat)) = r + base * (pos / base : Nat) := by
      rw [← Int.natCast_mul]
      omega
    rw [diffOf, hsum, Int.add_mul_emod_self_left, ← diffOf]
  rw [hleft] at hrest
  have hsecond : lenOf base (pos + (r - (pos % base : Nat))) (pos % base : Nat) =
      (pos % base : Nat) - diffOf base r := by
    rw [lenOf, hwhere, if_neg (by omega)]
  have hmoves' : (pos % base : Nat) - diffOf base r ≠ 0 := by
    intro hzero
    rw [fileLoop_stuck (by omega) (hsecond.trans hzero)] at hrest
    cases hrest
  obtain ⟨nd', rest', writes'', -, rfl, -⟩ := fileLoop_turn hrest (by omega)
  rw [hdiff, hfirst, hwhere, hsecond]
  exact ⟨by omega, by omega, writes'', rfl⟩

theorem diffOf_exact (h : diffOf base pos = (pos % base : Nat)) : pos % base < 2 ^ 31 := by
  rw [diffOf, ← Int.natCast_mod, Int.bmod_def] at h
  omega

/-- In nodes of at most 4 GiB an offset is held as it is, or as a negative number. -/
theorem diffOf_nonneg (hbase : 0 < base) (hsmall : base ≤ 2 ^ 32) (h : 0 ≤ diffOf base pos) :
    diffOf base pos = (pos % base : Nat) := by
  have hmod := Nat.mod_lt pos hbase
  refine diffOf_small ?_
  rw [diffOf, ← Int.natCast_mod, Int.bmod_def] at h
  omega

/-- In nodes of at most 4 GiB, a loop that stays in its nodes starts where it is right. -/
theorem fileLoop_fits_small (hbase : 0 < base) (hsmall : base ≤ 2 ^ 32)
    (hrun : fileLoop base pos r i chain = .ok writes) (hr : 0 < r)
    (hin : ∀ w ∈ writes, 0 ≤ w.off ∧ 0 ≤ w.len) :
    pos % base = 0 ∨ base ≤ r ∧ pos % base < 2 ^ 31 := by
  have hdiff : diffOf base pos = (pos % base : Nat) := by
    obtain ⟨nd, rest, writes', -, rfl, -⟩ := fileLoop_turn hrun (by omega)
    simp only [List.forall_mem_cons] at hin
    exact diffOf_nonneg hbase hsmall hin.1.1
  by_cases hlt : r < base
  · rcases Nat.eq_zero_or_pos (pos % base) with hzero | hinside
    · exact .inl hzero
    · obtain ⟨hless, -, writes', rfl⟩ := fileLoop_second hrun (fun w hw => (hin w hw).2) hdiff
        hinside hr hlt
      simp only [List.forall_mem_cons] at hin
      obtain ⟨-, ⟨hoff, hlen⟩, -⟩ := hin
      have hheld := diffOf_nonneg hbase hsmall hoff
      rw [Nat.mod_eq_of_lt hlt] at hheld
      omega
  · exact .inr ⟨Nat.not_lt.mp hlt, diffOf_exact hdiff⟩

/-- The places of the chain whose bytes a call passes. -/
def places (base : Nat) (w : FileWrite) : List Nat :=
  List.range' (base * w.node + w.off.toNat) w.len.toNat

/-- The first place that is passed. -/
theorem head_places {off len : Int} (hnonneg : 0 ≤ len) (hlen : len ≠ 0) (hr : 0 < r)
    (h : (⟨i, off, len⟩ :: writes).flatMap (places base) = List.range' pos r) :
    base * i + off.toNat = pos := by
  obtain ⟨k, hk⟩ : ∃ k, len.toNat = k + 1 := ⟨len.toNat - 1, by omega⟩
  obtain ⟨r', rfl⟩ : ∃ r', r = r' + 1 := ⟨r - 1, by omega⟩
  rw [List.flatMap_cons, places, hk, List.range'_succ, List.range'_succ, List.cons_append] at h
  exact (List.cons.inj h).1

/-- A loop that passes exactly the places that are to be written starts where it is right. -/
theorem fileLoop_fits_places (hrun : fileLoop base pos r (pos / base) chain = .ok writes)
    (hr : 0 < r) (hin : ∀ w ∈ writes, 0 ≤ w.off ∧ 0 ≤ w.len)
    (hplaces : writes.flatMap (places base) = List.range' pos r) :
    pos % base = 0 ∨ base ≤ r ∧ pos % base < 2 ^ 31 := by
  have hdm := Nat.div_add_mod pos base
  have hdiff : diffOf base pos = (pos % base : Nat) := by
    obtain ⟨nd, rest, writes', -, hwrites, -⟩ := fileLoop_turn hrun (by omega)
    have hmoves : lenOf base pos r ≠ 0 := by
      intro hzero
      rw [fileLoop_stuck (by omega) hzero] at hrun
      cases hrun
    subst hwrites
    simp only [List.forall_mem_cons] at hin
    obtain ⟨⟨hfirst, hlen⟩, -⟩ := hin
    have hstart := head_places hlen hmoves hr hplaces
    omega
  by_cases hlt : r < base
  · rcases Nat.eq_zero_or_pos (pos % base) with hzero | hinside
    · exact .inl hzero
    · obtain ⟨hless, hne, writes', rfl⟩ := fileLoop_second hrun (fun w hw => (hin w hw).2) hdiff
        hinside hr hlt
      simp only [List.forall_mem_cons] at hin
      obtain ⟨-, ⟨hoff, hlen⟩, -⟩ := hin
      -- the first place of the second call is behind the node, and was to be in it
      have hcount : ((r : Int) - (pos % base : Nat)).toNat = r - pos % base := by omega
      have hrest := congrArg (List.drop (r - pos % base)) hplaces
      rw [List.flatMap_cons, places, hcount, List.drop_left' List.length_range',
        List.drop_range', Nat.mul_one] at hrest
      have hmoves : (pos % base : Nat) - diffOf base r ≠ 0 := by omega
      have hstart := head_places hlen hmoves (by omega) hrest
      rw [Nat.mul_succ] at hstart
      omega
  · exact .inr ⟨Nat.not_lt.mp hlt, diffOf_exact hdiff⟩

end Turns

/-! ## All arrays of a shape -/

/-- The same array with other bytes in its nodes. -/
def SameShape (b c : ByteArray) : Prop :=
  c.baseSize = b.baseSize ∧ c.position = b.position ∧ c.capacity = b.capacity ∧
    c.size = b.size ∧ c.cur = b.cur ∧ c.root.map Node.size = b.root.map Node.size

/-- Node number `i`, where `f` gives the byte of each place. -/
def filledNode (base : Nat) (f : Nat → UInt8) (i : Nat) : Node :=
  ⟨base, (List.range' (base * i) base).map f, by simp⟩

/-- The array with the bytes of `f`. -/
def fill (b : ByteArray) (f : Nat → UInt8) : ByteArray :=
  { b with root := (List.range b.root.length).map (filledNode b.baseSize f) }

theorem bytesOf_filled (base n : Nat) (f : Nat → UInt8) :
    bytesOf ((List.range n).map (filledNode base f)) = (List.range' 0 (base * n)).map f := by
  induction n with
  | zero => rfl
  | succ n ih =>
    have hlast : bytesOf [filledNode base f n] = (List.range' (base * n) base).map f :=
      List.append_nil _
    have hjoin : List.range' 0 (base * n) ++ List.range' (base * n) base =
        List.range' 0 (base * (n + 1)) := by
      have happend := @List.range'_append_1 0 (base * n) base
      rw [Nat.zero_add] at happend
      rw [happend, Nat.mul_succ]
    rw [List.range_succ, List.map_append, bytesOf_append, ih, List.map_singleton, hlast,
      ← List.map_append, hjoin]

theorem window_map_range' (f : Nat → UInt8) {p n size : Nat} (h : p + n ≤ size) :
    window ((List.range' 0 size).map f) p n = (List.range' p n).map f := by
  rw [window, ← List.map_drop, ← List.map_take, List.drop_range',
    List.take_range'_of_length_ge (by omega), Nat.zero_add, Nat.mul_one]

section Contents
variable {b c : ByteArray}

theorem SameShape.fits (h : SameShape b c) : c.FileFits ↔ b.FileFits := by
  obtain ⟨hbase, hpos, -, hsize, -, -⟩ := h
  rw [FileFits, FileFits, getReadSize, getReadSize, hbase, hpos, hsize]

theorem Valid.of_sameShape (hb : b.Valid) (h : SameShape b c) : c.Valid := by
  obtain ⟨hbase, hpos, hcap, hsize, hcur, hroot⟩ := h
  have hlen : c.root.length = b.root.length := by
    simpa using congrArg List.length hroot
  refine ⟨by rw [hbase]; exact hb.base_pos, ?_, ?_, ?_, ?_, ?_, ?_⟩
  · intro hnil
    have hzero : b.root.length = 0 := by rw [← hlen, hnil, List.length_nil]
    exact hb.root_ne (List.length_eq_zero_iff.mp hzero)
  · intro nd hnd
    have hmem := List.mem_map_of_mem (f := Node.size) hnd
    rw [hroot] at hmem
    obtain ⟨nd', hnd', heq⟩ := List.mem_map.mp hmem
    rw [← heq, hbase, hb.node_size nd' hnd']
  · rw [hcap, hbase, hlen, hb.capacity_eq]
  · rw [hpos, hsize]
    exact hb.position_le
  · rw [hsize, hcap]
    exact hb.size_le
  · rw [hcur, hpos, hcap, hbase]
    exact hb.cur_eq

theorem Valid.sameShape_fill (hb : b.Valid) (f : Nat → UInt8) : SameShape b (b.fill f) := by
  refine ⟨rfl, rfl, rfl, rfl, rfl, ?_⟩
  have hsizes : b.root.map Node.size = List.replicate b.root.length b.baseSize := by
    refine List.eq_replicate_iff.mpr ⟨List.length_map _, ?_⟩
    intro n hn
    obtain ⟨nd, hnd, rfl⟩ := List.mem_map.mp hn
    exact hb.node_size nd hnd
  rw [hsizes, fill, List.map_map]
  refine List.eq_replicate_iff.mpr ⟨by simp, ?_⟩
  intro n hn
  obtain ⟨i, -, rfl⟩ := List.mem_map.mp hn
  rfl

theorem Valid.fill (hb : b.Valid) (f : Nat → UInt8) : (b.fill f).Valid where
  base_pos := hb.base_pos
  root_ne := by simpa [ByteArray.fill] using hb.root_ne
  node_size := by
    intro nd hnd
    obtain ⟨i, -, rfl⟩ := List.mem_map.mp hnd
    rfl
  capacity_eq := by
    show b.capacity = b.baseSize * ((List.range b.root.length).map _).length
    rw [List.length_map, List.length_range, hb.capacity_eq]
  position_le := hb.position_le
  size_le := hb.size_le
  cur_eq := hb.cur_eq

theorem passed_fill (f : Nat → UInt8) {w : FileWrite} (h : InNode (b.fill f).root w) :
    passed (b.fill f).root w = (places b.baseSize w).map f := by
  obtain ⟨nd, hget, hoff, hlen, hin⟩ := h
  have hnd : nd = filledNode b.baseSize f w.node := by
    have hcell : ((List.range b.root.length).map (filledNode b.baseSize f))[w.node]? = some nd :=
      hget
    rw [List.getElem?_map] at hcell
    obtain ⟨i, hi, rfl⟩ := Option.map_eq_some_iff.mp hcell
    obtain ⟨hlt, rfl⟩ := List.getElem?_eq_some_iff.mp hi
    rw [List.getElem_range]
  have hsize : nd.size = b.baseSize := by rw [hnd]; rfl
  rw [passed, gather, hget, hnd, places]
  show (((List.range' _ _).map f).drop _).take _ = _
  rw [← List.map_drop, ← List.map_take, List.drop_range',
    List.take_range'_of_length_ge (by show w.len.toNat ≤ _ - w.off.toNat; omega), Nat.mul_one]

theorem Valid.readable_fill (hb : b.Valid) (f : Nat → UInt8) :
    (b.fill f).readable = (List.range' b.position b.getReadSize).map f := by
  have hpos := hb.position_le
  have hsize := hb.size_le
  have hcap := hb.capacity_eq
  have hcontent : (b.fill f).content = (List.range' 0 (b.baseSize * b.root.length)).map f :=
    bytesOf_filled ..
  show window (b.fill f).content b.position b.getReadSize = _
  rw [hcontent, window_map_range' f (by rw [getReadSize]; omega)]

/-- Lists of places that give the same bytes, whatever the bytes are, are the same. -/
theorem eq_of_map_eq {xs ys : List Nat} (h : ∀ f : Nat → UInt8, xs.map f = ys.map f) :
    xs = ys := by
  induction xs generalizing ys with
  | nil =>
    have hnil := h fun _ => 0
    exact (List.map_eq_nil_iff.mp hnil.symm).symm
  | cons x xs ih =>
    cases ys with
    | nil => exact absurd (h fun _ => 0) (List.cons_ne_nil _ _)
    | cons y ys =>
      have htail : xs = ys := ih fun f => (List.cons.inj (h f)).2
      have hhead : (if x = x then (1 : UInt8) else 0) = if y = x then 1 else 0 :=
        (List.cons.inj (h fun i => if i = x then 1 else 0)).1
      by_cases hxy : y = x
      · rw [hxy, htail]
      · rw [if_pos rfl, if_neg hxy] at hhead
        exact absurd hhead (by decide)

/-- The calls do not depend on the bytes. -/
theorem Valid.writeToFile_fill (hb : b.Valid) (hr : 0 < b.getReadSize) (f : Nat → UInt8)
    {writes : List FileWrite} (h : (b.fill f).writeToFile true = .ok (true, writes)) :
    fileLoop b.baseSize b.position b.getReadSize (b.position / b.baseSize)
      (b.root.drop (b.position / b.baseSize)) = .ok writes := by
  have hchain : ((b.fill f).root.drop (b.position / b.baseSize)).length =
      (b.root.drop (b.position / b.baseSize)).length := by
    simp [ByteArray.fill]
  have hloop := (hb.fill f).writeToFile_eq hr
  obtain ⟨ws, hws, heq⟩ := map_ok (hloop.symm.trans h)
  obtain rfl := (Prod.mk.inj heq).2
  rw [fileLoop_congr hchain.symm]
  exact hws

/-- An array of whose shape all are written right starts where that is right. -/
theorem Valid.fits_of_shape (hb : b.Valid) (h : ∀ c, SameShape b c → c.WritesFile) :
    b.FileFits := by
  rcases Nat.eq_zero_or_pos b.getReadSize with hr | hr
  · exact .inl hr
  · refine .inr ?_
    obtain ⟨writes, hrun, hin, -⟩ :=
      writesFile_iff.mp (h _ (hb.sameShape_fill fun _ => 0))
    have hloop := hb.writeToFile_fill hr _ hrun
    refine fileLoop_fits_places hloop hr ?_ (eq_of_map_eq fun f => ?_)
    · intro w hw
      obtain ⟨nd, -, hoff, hlen, -⟩ := hin w hw
      exact ⟨hoff, hlen⟩
    · obtain ⟨writes', hrun', hin', hbytes'⟩ := writesFile_iff.mp (h _ (hb.sameShape_fill f))
      obtain rfl := Except.ok.inj (hloop.symm.trans (hb.writeToFile_fill hr f hrun'))
      rw [hb.readable_fill, List.flatMap_congr fun w hw => passed_fill f (hin' w hw)] at hbytes'
      rw [List.map_flatMap]
      exact hbytes'

/-- In nodes of at most 4 GiB the bytes do not matter. -/
theorem Valid.fits_of_writesFile (hb : b.Valid) (hsmall : b.baseSize ≤ 2 ^ 32)
    (h : b.WritesFile) : b.FileFits := by
  rcases Nat.eq_zero_or_pos b.getReadSize with hr | hr
  · exact .inl hr
  · obtain ⟨writes, hrun, hin, -⟩ := writesFile_iff.mp h
    rw [hb.writeToFile_eq hr] at hrun
    obtain ⟨ws, hws, heq⟩ := map_ok hrun
    obtain rfl := (Prod.mk.inj heq).2
    refine .inr (fileLoop_fits_small hb.base_pos hsmall hws hr fun w hw => ?_)
    obtain ⟨nd, -, hoff, hlen, -⟩ := hin w hw
    exact ⟨hoff, hlen⟩

/-- **When the file holds the readable bytes**, and is read back.  For an array whose nodes are
of at most 4 GiB, exactly where there is nothing to write, where the position is at the
beginning of a node, or where there is a node's worth of bytes and an `int` holds the offset.
In larger nodes a wrong offset may meet the same bytes by chance; there it is the condition for
all contents. -/
theorem writeToFile_iff (hb : b.Valid) :
    ((∀ c, SameShape b c → c.WritesFile) ↔ b.FileFits) ∧
      (b.FileFits → b.WritesFile) ∧
      (b.baseSize ≤ 2 ^ 32 → (b.WritesFile ↔ b.FileFits)) := by
  refine ⟨⟨hb.fits_of_shape, ?_⟩, hb.writesFile_of_fits, fun hsmall =>
    ⟨hb.fits_of_writesFile hsmall, hb.writesFile_of_fits⟩⟩
  intro h c hc
  exact (hb.of_sameShape hc).writesFile_of_fits (hc.fits.mpr h)

/-- Five bytes behind position 1, in nodes of four. -/
def sixFromOne : ByteArray where
  baseSize := 4
  position := 1
  capacity := 8
  size := 6
  endian := .big
  root := [⟨4, [10, 11, 12, 13], rfl⟩, ⟨4, [14, 15, 0, 0], rfl⟩]
  cur := some 0

theorem sixFromOne_written : sixFromOne.Valid ∧ sixFromOne.WritesFile := by
  have hb : sixFromOne.Valid :=
    ⟨by decide, by decide, by decide, by decide, by decide, by decide, by decide⟩
  exact ⟨hb, (writeToFile_iff hb).2.1 (.inr (.inr (by decide)))⟩

/-- Two bytes behind position 1 in one node: the offset is taken off them, and the loop goes on
to a node that is not there. -/
def threeFromOne : ByteArray where
  baseSize := 4
  position := 1
  capacity := 4
  size := 3
  endian := .big
  root := [⟨4, [10, 11, 12, 0], rfl⟩]
  cur := some 0

theorem writeToFile_runs_off :
    threeFromOne.Valid ∧ threeFromOne.readable = [11, 12] ∧
      threeFromOne.writeToFile true = .error .nullNode ∧ ¬ threeFromOne.WritesFile := by
  have hb : threeFromOne.Valid :=
    ⟨by decide, by decide, by decide, by decide, by decide, by decide, by decide⟩
  have hrun : threeFromOne.writeToFile true = .error .nullNode := by decide
  refine ⟨hb, by decide, hrun, ?_⟩
  rintro ⟨writes, hok, -⟩
  rw [hrun] at hok
  cases hok

end Contents
end ByteArray
end Sylar
