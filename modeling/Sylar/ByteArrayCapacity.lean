import Sylar.ByteArrayRead

/-! # Room for a write

`write` and `getWriteBuffers` call `addCapacity` first and then follow the chain from
`m_cur` on without looking at the end of it: that the chain is long enough is what
`addCapacity` is there for (`MakesRoom`).

What is missing is `need` bytes, and the number of new nodes is `need` divided by the size of
a node.  The remainder of the division takes one more node, but the source adds it only when
the remainder is larger than the capacity that was left before, which `need` has already been
reduced by.  `addCapacity_room_iff` says for which arrays and sizes the count is right
(`CountsRight`). -/
namespace Sylar
open Interleaving Overlay

namespace ByteArray

/-- The bytes of the chain behind the position, from `m_cur` on. -/
def bytesAhead (b : ByteArray) : Nat :=
  match b.cur with
  | none => 0
  | some i => (bytesOf (b.root.drop i)).length - b.position % b.baseSize

/-- The nodes that `addCapacity` appends. -/
def newNodes (b : ByteArray) (n : Nat) : Nat :=
  if n ≤ b.getCapacity then 0
  else (n - b.getCapacity) / b.baseSize +
    (if b.getCapacity < (n - b.getCapacity) % b.baseSize then 1 else 0)

/-- `c` is `b` with `count` new nodes behind the others. -/
structure Grown (b c : ByteArray) (count : Nat) : Prop where
  baseSize : c.baseSize = b.baseSize
  position : c.position = b.position
  size : c.size = b.size
  root : c.root = b.root ++ List.replicate count (Node.new b.baseSize)
  capacity : c.capacity = b.capacity + count * b.baseSize

/-- What `addCapacity` does. -/
theorem addCapacity_grown (b : ByteArray) (n : Nat) :
    Grown b (b.addCapacity n) (b.newNodes n) := by
  have hsame : Grown b b 0 := ⟨rfl, rfl, rfl, by simp, by simp⟩
  rw [addCapacity, newNodes]
  by_cases hzero : n = 0
  · rw [if_pos hzero, if_pos (by omega)]
    exact hsame
  · rw [if_neg hzero]
    by_cases hroom : n ≤ b.getCapacity
    · rw [if_pos hroom, if_pos hroom]
      exact hsame
    · rw [if_neg hroom, if_neg hroom]
      exact ⟨rfl, rfl, rfl, rfl, rfl⟩

/-- An array with room is left as it is. -/
theorem addCapacity_of_le {b : ByteArray} {n : Nat} (h : n ≤ b.getCapacity) :
    b.addCapacity n = b := by
  rw [addCapacity]
  by_cases hzero : n = 0
  · exact if_pos hzero
  · rw [if_neg hzero]
    exact if_pos h

/-- The first nodes stay, and the new ones are zero. -/
theorem Grown.content {b c : ByteArray} {count : Nat} (h : Grown b c count) :
    ∃ fresh, c.content = b.content ++ fresh := by
  refine ⟨bytesOf (List.replicate count (Node.new b.baseSize)), ?_⟩
  rw [ByteArray.content, h.root, bytesOf_append, ByteArray.content]

section Room
variable {b : ByteArray} {n : Nat}

/-- The chain has as many bytes behind the position as the fields say. -/
theorem Valid.bytesAhead_eq (hb : b.Valid) : b.bytesAhead = b.getCapacity := by
  have hcap := hb.capacity_eq
  have hle := Nat.le_trans hb.position_le hb.size_le
  rw [bytesAhead, hb.cur_eq, getCapacity]
  by_cases hend : b.position = b.capacity
  · rw [if_pos hend, hend, Nat.sub_self]
  · rw [if_neg hend]
    have hdm := Nat.div_add_mod b.position b.baseSize
    show (bytesOf (b.root.drop (b.position / b.baseSize))).length - _ = _
    rw [length_bytesOf hb.mem_drop, List.length_drop, Nat.mul_sub]
    omega

/-- Nothing is missing, or the missing bytes fill whole nodes, or the remainder is larger than
what is left. -/
def CountsRight (b : ByteArray) (n : Nat) : Prop :=
  n = 0 ∨ n ≤ b.getCapacity ∨ (n - b.getCapacity) % b.baseSize = 0 ∨
    b.getCapacity < (n - b.getCapacity) % b.baseSize

/-- The new nodes are enough exactly when they are counted right. -/
theorem enough_iff (hb : b.Valid) :
    n ≤ (b.addCapacity n).getCapacity ↔ b.CountsRight n := by
  have hgrown := addCapacity_grown b n
  have hpos := Nat.le_trans hb.position_le hb.size_le
  have hcap : (b.addCapacity n).getCapacity = b.getCapacity + b.newNodes n * b.baseSize := by
    rw [getCapacity, hgrown.capacity, hgrown.position, getCapacity]
    omega
  rw [hcap, newNodes, CountsRight]
  by_cases hroom : n ≤ b.getCapacity
  · rw [if_pos hroom]
    exact iff_of_true (by omega) (Or.inr (Or.inl hroom))
  · rw [if_neg hroom]
    have hdm := Nat.div_add_mod (n - b.getCapacity) b.baseSize
    have hlt := Nat.mod_lt (n - b.getCapacity) hb.base_pos
    rw [Nat.add_mul, Nat.mul_comm _ b.baseSize]
    by_cases hup : b.getCapacity < (n - b.getCapacity) % b.baseSize
    · rw [if_pos hup, Nat.one_mul]
      exact iff_of_true (by omega) (Or.inr (Or.inr (Or.inr hup)))
    · rw [if_neg hup, Nat.zero_mul]
      omega

/-! ## The callers -/

/-- With room after `addCapacity`, a second call adds nothing. -/
theorem writeRun_addCapacity (hn : 0 < n) (hroom : n ≤ (b.addCapacity n).getCapacity)
    (buf : Nat → UInt8) : b.writeRun buf n = (b.addCapacity n).writeRun buf n := by
  rw [writeRun, writeRun]
  rw [if_neg (by omega), if_neg (by omega), addCapacity_of_le hroom]

/-- `write` completes. -/
theorem Valid.write_completes (hb : b.Valid) (hroom : n ≤ (b.addCapacity n).getCapacity)
    (buf : Nat → UInt8) : ∃ c, b.write buf n = .ok c := by
  rcases Nat.eq_zero_or_pos n with rfl | hn
  · exact ⟨b, rfl⟩
  · obtain ⟨c, reads, hrun, -⟩ := writeRun_content (hb.addCapacity n) hroom hn
    refine ⟨c, ?_⟩
    rw [ByteArray.write, writeRun_addCapacity hn hroom, hrun]
    rfl

/-- `getWriteBuffers` hands out pieces of the nodes from the cursor's on. -/
theorem Valid.getWriteBuffers_eq (hb : b.Valid) (hn : 0 < n)
    (hroom : n ≤ (b.addCapacity n).getCapacity) :
    ∃ iovs, b.getWriteBuffers n = .ok (n, iovs, b.addCapacity n) ∧
      iovecLoop ((b.addCapacity n).position % (b.addCapacity n).baseSize) n
          ((b.addCapacity n).position / (b.addCapacity n).baseSize)
          ((b.addCapacity n).root.drop
            ((b.addCapacity n).position / (b.addCapacity n).baseSize)) = .ok iovs := by
  have hc := hb.addCapacity n
  rw [ByteArray.getWriteBuffers]
  rw [if_neg (by omega)]
  generalize b.addCapacity n = c at hc hroom ⊢
  rw [getCapacity] at hroom
  have hcap : c.position < c.capacity := by omega
  obtain ⟨iovs, hrun, -⟩ := iovecLoop_window rfl hc.mem_drop
    (Nat.mod_lt _ hc.base_pos) hn (hc.room_ahead hcap (by omega))
  refine ⟨iovs, ?_, hrun⟩
  simp only [hc.derefCur_eq hcap, hrun, bind, Except.bind, pure, Except.pure]

/-- What `addCapacity` is there for: room for `n` bytes, by the fields and in the chain;
nothing else changed; and `write` and `getWriteBuffers` complete. -/
structure MakesRoom (b c : ByteArray) (n : Nat) : Prop where
  capacity : n ≤ c.capacity - c.position
  chain : n ≤ c.bytesAhead
  position : c.position = b.position
  size : c.size = b.size
  content : b.content <+: c.content
  write : ∀ buf, ∃ d, b.write buf n = .ok d
  getWriteBuffers : ∃ r, b.getWriteBuffers n = .ok r

/-- **When `addCapacity` makes room.** -/
theorem addCapacity_room_iff (hb : b.Valid) (n : Nat) :
    MakesRoom b (b.addCapacity n) n ↔ b.CountsRight n := by
  rw [← enough_iff hb]
  have hgrown := addCapacity_grown b n
  constructor
  · exact fun h => h.capacity
  · intro hroom
    obtain ⟨fresh, hfresh⟩ := hgrown.content
    refine ⟨hroom, ?_, hgrown.position, hgrown.size, ⟨fresh, hfresh.symm⟩,
      hb.write_completes hroom, ?_⟩
    · rw [(hb.addCapacity n).bytesAhead_eq]
      exact hroom
    · rcases Nat.eq_zero_or_pos n with rfl | hn
      · exact ⟨_, rfl⟩
      · obtain ⟨iovs, hrun, -⟩ := hb.getWriteBuffers_eq hn hroom
        exact ⟨_, hrun⟩

end Room

/-- Seven bytes behind the third of the first node: one is left, six more are one node and a
remainder of two. -/
theorem addCapacity_room_iff_seven :
    MakesRoom { ByteArray.new 4 with position := 3, size := 3 }
        (ByteArray.addCapacity { ByteArray.new 4 with position := 3, size := 3 } 7) 7 ↔
      CountsRight { ByteArray.new 4 with position := 3, size := 3 } 7 := by
  have hstart : (ByteArray.new 4).setPosition 3 =
      .ok { ByteArray.new 4 with position := 3, size := 3 } := rfl
  exact addCapacity_room_iff ((Valid.new (by decide)).setPosition hstart) 7

/-- Two bytes behind the third of the first node: one is left, the other is a remainder of
one, no node is added, and `write` runs off the chain. -/
theorem addCapacity_forgets_node :
    ∃ b : ByteArray, b.Valid ∧ ¬ MakesRoom b (b.addCapacity 2) 2 ∧
      (b.addCapacity 2).bytesAhead = 1 ∧ b.write (fun _ => 7) 2 = .error .nullNode ∧
      b.getWriteBuffers 2 = .error .nullNode := by
  have hstart : (ByteArray.new 4).setPosition 3 =
      .ok { ByteArray.new 4 with position := 3, size := 3 } := rfl
  refine ⟨_, (Valid.new (by decide)).setPosition hstart, fun h => ?_, rfl, rfl, rfl⟩
  exact absurd h.capacity (by decide)

end ByteArray
end Sylar
