import Sylar.ByteArrayWrite

/-! # Three ways to read a byte array

`read` copies bytes out and moves the cursor; `toString` copies all of them and leaves
the cursor where it is; `getReadBuffers` copies nothing and hands out the places where
the bytes lie, one `iovec` for each node.  The first two share their loop in the model,
because the source has it twice.

Each loop cuts a range of the chain at the ends of the nodes: `readLoop_window` and
`iovecLoop_window` say that the pieces are the `window` of the bytes that was asked for.
**`reads_agree`** is the same for the operations, on every valid array. -/
namespace Sylar
open Interleaving Overlay

namespace ByteArray

/-- **The copy loop.**  With enough chain it completes, and copies the range. -/
theorem readLoop_window {base npos size : Nat} {chain : List Node}
    (hnodes : ∀ nd ∈ chain, nd.size = base) (hnpos : npos < base)
    (hroom : npos + size ≤ base * chain.length) :
    readLoop npos size chain = .ok (window (bytesOf chain) npos size, (npos + size) / base) := by
  induction chain generalizing npos size with
  | nil =>
    obtain ⟨rfl, rfl⟩ : npos = 0 ∧ size = 0 := by simpa using hroom
    rw [readLoop, window_zero, Nat.zero_div]
  | cons nd rest ih =>
    have hnd : nd.size = base := hnodes nd (List.mem_cons_self ..)
    have hlen : nd.ptr.length = base := nd.length_ptr.trans hnd
    have hrest : ∀ nd ∈ rest, nd.size = base := fun x hx => hnodes x (List.mem_cons_of_mem _ hx)
    rw [List.length_cons, Nat.mul_succ] at hroom
    cases size with
    | zero => rw [readLoop, window_zero, Nat.add_zero, Nat.div_eq_of_lt hnpos]
    | succ size =>
      rw [readLoop, hnd, bytesOf_cons]
      rcases Nat.lt_or_ge (base - npos) (size + 1) with hlt | hge
      · rw [if_neg (by omega), ih hrest (by omega) (by omega),
          window_append_right (by omega) (by omega), hlen, ← moved_next hnpos hlt]
        rfl
      · rw [if_pos hge, moved_last hnpos hge, window_append_left (by omega)]
        rfl

/-- The bytes that an `iovec` spans. -/
def gather (nodes : List Node) (v : Iovec) : List UInt8 :=
  (nodes[v.node]?.map fun nd => nd.load v.off v.len).getD []

/-- The `iovec` is not empty and stays in its node. -/
def Within (nodes : List Node) (v : Iovec) : Prop :=
  ∃ nd, nodes[v.node]? = some nd ∧ 0 < v.len ∧ v.off + v.len ≤ nd.size

/-- **The loop that cuts a range.**  With enough chain it completes, its pieces stay in
their nodes, and together they are the range. -/
theorem iovecLoop_window {base npos len i : Nat} {nodes chain : List Node}
    (hchain : nodes.drop i = chain) (hnodes : ∀ nd ∈ chain, nd.size = base)
    (hnpos : npos < base) (hlen : 0 < len) (hroom : npos + len ≤ base * chain.length) :
    ∃ iovs, iovecLoop npos len i chain = .ok iovs ∧ (∀ v ∈ iovs, Within nodes v) ∧
      iovs.flatMap (gather nodes) = window (bytesOf chain) npos len := by
  induction chain generalizing npos len i with
  | nil => simp at hroom; omega
  | cons nd rest ih =>
    have hnd : nd.size = base := hnodes nd (List.mem_cons_self ..)
    have hptr : nd.ptr.length = base := nd.length_ptr.trans hnd
    have hrest : ∀ nd ∈ rest, nd.size = base := fun x hx => hnodes x (List.mem_cons_of_mem _ hx)
    have hget : nodes[i]? = some nd := by
      rw [← Nat.add_zero i, ← List.getElem?_drop, hchain]
      rfl
    rw [List.length_cons, Nat.mul_succ] at hroom
    rw [iovecLoop, hnd, bytesOf_cons]
    rcases Nat.lt_or_ge (base - npos) len with hlt | hge
    · have hdrop : nodes.drop (i + 1) = rest := by
        rw [← List.drop_drop, hchain]
        rfl
      obtain ⟨iovs, hrun, hwithin, hbytes⟩ := ih hdrop hrest (by omega : 0 < base)
        (by omega : 0 < len - (base - npos)) (by omega)
      rw [if_neg (by omega), hrun]
      refine ⟨_, rfl, ?_, ?_⟩
      · intro v hv
        rcases List.mem_cons.mp hv with rfl | hv
        · exact ⟨nd, hget, by show 0 < base - npos; omega, by show npos + (base - npos) ≤ _; omega⟩
        · exact hwithin v hv
      · rw [window_append_right (by omega) (by omega), hptr, List.flatMap_cons, hbytes, gather,
          hget]
        rfl
    · rw [if_pos hge, window_append_left (by omega)]
      refine ⟨_, rfl, ?_, ?_⟩
      · intro v hv
        obtain rfl := List.mem_singleton.mp hv
        exact ⟨nd, hget, hlen, by show npos + len ≤ _; omega⟩
      · rw [List.flatMap_singleton, gather, hget]
        rfl

section Reads
variable {b : ByteArray} {n : Nat}

/-- The `n` bytes from the position on. -/
def ahead (b : ByteArray) (n : Nat) : List UInt8 := window b.content b.position n

/-- A range from the position on is a range of the nodes from the cursor's on. -/
theorem Valid.ahead_eq (hb : b.Valid) (hpos : b.position < b.capacity) :
    b.ahead n =
      window (bytesOf (b.root.drop (b.position / b.baseSize))) (b.position % b.baseSize) n := by
  obtain ⟨hcontent, hposition⟩ := hb.cursor_split hpos
  calc b.ahead n
      = window (bytesOf (b.root.take (b.position / b.baseSize)) ++
          bytesOf (b.root.drop (b.position / b.baseSize)))
          ((bytesOf (b.root.take (b.position / b.baseSize))).length +
            b.position % b.baseSize) n := by
        rw [← hposition, ← hcontent, ahead]
    _ = _ := window_append_behind

/-- The loop of both `read`s, from the cursor on. -/
theorem Valid.readLoop_ahead (hb : b.Valid) (hn : 0 < n) (hle : n ≤ b.getReadSize) :
    readLoop (b.position % b.baseSize) n (b.root.drop (b.position / b.baseSize)) =
      .ok (b.ahead n, (b.position % b.baseSize + n) / b.baseSize) := by
  rw [getReadSize] at hle
  have hsize := hb.size_le
  have hpos : b.position < b.capacity := by omega
  rw [hb.ahead_eq hpos]
  exact readLoop_window hb.mem_drop (Nat.mod_lt _ hb.base_pos)
    (hb.room_ahead hpos (by omega))

/-- **`read`** returns the next bytes and moves the cursor over them. -/
theorem Valid.read_eq (hb : b.Valid) (hn : 0 < n) (hle : n ≤ b.getReadSize) :
    b.read n = .ok (b.ahead n,
      { b with
        position := b.position + n
        cur := if b.position + n = b.capacity then none
          else some ((b.position + n) / b.baseSize) }) := by
  have hloop := hb.readLoop_ahead hn hle
  rw [getReadSize] at hle
  have hsize := hb.size_le
  rw [ByteArray.read, getReadSize, if_neg (by omega), hb.derefCur_eq (by omega)]
  simp only [hloop, bind, Except.bind, pure, Except.pure]
  rw [hb.div_position, hb.nodePtr_div rfl (by omega)]

/-- **`toString`** returns all bytes that are left. -/
theorem Valid.toString_eq (hb : b.Valid) : b.toString = .ok (b.ahead b.getReadSize) := by
  rw [ByteArray.toString]
  rcases Nat.eq_zero_or_pos b.getReadSize with hzero | hpos
  · rw [if_pos hzero, hzero]
    rfl
  · have hloop := hb.readLoop_ahead hpos (Nat.le_refl _)
    have hsize := hb.size_le
    rw [if_neg (by omega), readAt, if_neg (Nat.lt_irrefl _), hb.derefCur_eq]
    · simp only [hloop, bind, Except.bind, pure, Except.pure]
    · rw [getReadSize] at hpos
      omega

/-- Both `getReadBuffers` cut the length to what is behind the cursor. -/
theorem cut_getReadSize (b : ByteArray) (len : Nat) :
    (if b.getReadSize < len then b.getReadSize else len) = min len b.getReadSize := by
  split <;> omega

/-- **`getReadBuffers`** returns the places of the next bytes, as many as there are. -/
theorem Valid.getReadBuffers_eq (hb : b.Valid) (len : Nat) :
    ∃ iovs, b.getReadBuffers len = .ok (min len b.getReadSize, iovs) ∧
      (∀ v ∈ iovs, Within b.root v) ∧
      iovs.flatMap (gather b.root) = b.ahead (min len b.getReadSize) := by
  rw [ByteArray.getReadBuffers, cut_getReadSize]
  generalize hlen : min len b.getReadSize = k
  have hk : k ≤ b.getReadSize := by omega
  rcases Nat.eq_zero_or_pos k with rfl | hpos
  · exact ⟨[], rfl, nofun, rfl⟩
  · rw [getReadSize] at hk
    have hsize := hb.size_le
    have hcap : b.position < b.capacity := by omega
    obtain ⟨iovs, hrun, hwithin, hbytes⟩ := iovecLoop_window rfl hb.mem_drop
      (Nat.mod_lt _ hb.base_pos) hpos (hb.room_ahead hcap (by omega))
    refine ⟨iovs, ?_, hwithin, hbytes.trans (hb.ahead_eq hcap).symm⟩
    rw [if_neg (by omega), hb.derefCur_eq hcap]
    simp only [hrun, bind, Except.bind, pure, Except.pure]

/-- **The three ways to read agree**, on every valid array.  For every `n` up to the
bytes that are left, `read`, the `iovec`s of `getReadBuffers` and the beginning of
`toString` are the `n` bytes from the position on; `read` moves the cursor over them.
`getReadBuffers` hands out what there is, in pieces that stay in their nodes, and changes
nothing. -/
theorem reads_agree (hb : b.Valid) :
    (∀ n, 1 ≤ n → n ≤ b.getReadSize →
      (b.ahead n).length = n ∧
      (∃ c, b.read n = .ok (b.ahead n, c) ∧ c.position = b.position + n ∧ c.content = b.content ∧
        c.cur = (if c.position = c.capacity then none else some (c.position / c.baseSize)) ∧
        c.Valid) ∧
      (∃ iovs, b.getReadBuffers n = .ok (n, iovs) ∧
        iovs.flatMap (gather b.root) = b.ahead n) ∧
      ∃ all, b.toString = .ok all ∧ all.take n = b.ahead n) ∧
    ∀ n, Op.run b (.getReadBuffers n) = .ok b ∧
      ∃ iovs, b.getReadBuffers n = .ok (min n b.getReadSize, iovs) ∧
        ∀ v ∈ iovs, Within b.root v := by
  constructor
  · intro n hn hle
    have hread := hb.read_eq hn hle
    obtain ⟨iovs, hbuffers, -, hbytes⟩ := hb.getReadBuffers_eq n
    rw [Nat.min_eq_left hle] at hbuffers hbytes
    refine ⟨?_, ⟨_, hread, rfl, rfl, rfl, hb.read hread⟩, ⟨iovs, hbuffers, hbytes⟩,
      _, hb.toString_eq, take_window _ hle⟩
    have hcap := hb.capacity_eq
    have hsize := hb.size_le
    rw [getReadSize] at hle
    rw [ahead, length_window]
    rw [content, length_bytesOf hb.node_size, ← hcap]
    omega
  · intro n
    obtain ⟨iovs, hbuffers, hwithin, -⟩ := hb.getReadBuffers_eq n
    refine ⟨?_, iovs, hbuffers, hwithin⟩
    rw [Op.run, hbuffers]
    rfl

end Reads

/-- Five bytes on nodes of two. -/
def five : ByteArray where
  baseSize := 2
  position := 1
  capacity := 6
  size := 5
  endian := .big
  root := [⟨2, [10, 11], rfl⟩, ⟨2, [12, 13], rfl⟩, ⟨2, [14, 0], rfl⟩]
  cur := some 0

theorem five_valid : five.Valid :=
  ⟨by decide, by decide, by decide, by decide, by decide, by decide, by decide⟩

/-- Three bytes from position 1: the range ends where a node ends. -/
theorem reads_agree_boundary :
    five.Valid ∧ five.ahead 3 = [11, 12, 13] ∧
      (∃ c, five.read 3 = .ok (five.ahead 3, c) ∧ c.position = 4) ∧
      ∃ iovs, five.getReadBuffers 3 = .ok (3, iovs) ∧
        iovs.flatMap (gather five.root) = five.ahead 3 := by
  obtain ⟨-, ⟨c, hread, hposition, -⟩, hbuffers, -⟩ :=
    (reads_agree five_valid).1 3 (by decide) (by decide)
  exact ⟨five_valid, by decide, ⟨c, hread, hposition⟩, hbuffers⟩

end ByteArray
end Sylar
