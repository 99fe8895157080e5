import Sylar.ByteArrayCodec

/-! # The representation invariant of the byte array

`ByteArray.Valid` says how the four fields and the chain agree: the capacity is
that of the nodes, the position is within the size and the size within the
capacity, and `m_cur` is the node the position lies in, null exactly at the end of
the capacity.

Every operation keeps it on every valid array on which it completes, except
`clear`, which drops all nodes but the first and leaves `m_capacity` as it was:
`clear_valid_iff` says that it keeps the invariant exactly when there was nothing
to drop.  `valid_iff_clear_single` is the same for whole sequences of operations:
all states are valid if and only if no `clear` of the sequence finds more than
one node.

The loops enter through what they say about the cursor: on a chain of nodes of
`base` bytes, a copy of `size` bytes that starts `npos` bytes into the first node
and completes moves the cursor over `(npos + size) / base` nodes. -/
namespace Sylar
open Interleaving

/-- The representation invariant. -/
structure ByteArray.Valid (b : ByteArray) : Prop where
  base_pos : 0 < b.baseSize
  root_ne : b.root ≠ []
  node_size : ∀ nd ∈ b.root, nd.size = b.baseSize
  capacity_eq : b.capacity = b.baseSize * b.root.length
  position_le : b.position ≤ b.size
  size_le : b.size ≤ b.capacity
  cur_eq : b.cur = if b.position = b.capacity then none else some (b.position / b.baseSize)

/-! ## What the loops do to the cursor -/

section Loops
variable {base npos size : Nat} {chain : List Node}

/-- A copy that ends inside the node moves on only if it fills the node. -/
theorem moved_last (hnpos : npos < base) (h : size ≤ base - npos) :
    (if base = npos + size then 1 else 0) = (npos + size) / base := by
  split
  · rename_i he
    rw [← he, Nat.div_self (by omega)]
  · rw [Nat.div_eq_of_lt (by omega)]

/-- A copy that fills the node goes on at the beginning of the next one. -/
theorem moved_next (hnpos : npos < base) (h : base - npos < size) :
    (0 + (size - (base - npos))) / base + 1 = (npos + size) / base := by
  rw [← Nat.add_div_right _ (by omega)]
  exact congrArg (· / base) (by omega)

theorem writeLoop_ok {buf : Nat → UInt8} {bpos : Nat} {r : ByteArray.Copied}
    (hnodes : ∀ nd ∈ chain, nd.size = base) (hnpos : npos < base) (hsize : 0 < size)
    (h : ByteArray.writeLoop buf npos bpos size chain = .ok r) :
    r.nodes.length = chain.length ∧ (∀ nd ∈ r.nodes, nd.size = base) ∧
      r.moved = (npos + size) / base ∧ npos + size ≤ base * chain.length := by
  induction chain generalizing npos bpos size r with
  | nil => cases h
  | cons nd rest ih =>
    have hnd : nd.size = base := hnodes nd (List.mem_cons_self ..)
    have hrest : ∀ nd ∈ rest, nd.size = base := fun x hx => hnodes x (List.mem_cons_of_mem _ hx)
    rw [ByteArray.writeLoop, hnd] at h
    rcases Nat.lt_or_ge (base - npos) size with hlt | hge
    · rw [if_neg (by omega)] at h
      obtain ⟨q, hq, hr⟩ := bind_ok h
      obtain rfl := Except.ok.inj hr
      obtain ⟨hlen, hsz, hmv, hroom⟩ := ih hrest (by omega) (by omega) hq
      refine ⟨by simp [hlen], ?_, ?_, ?_⟩
      · intro x hx
        rcases List.mem_cons.mp hx with rfl | hx
        · exact hnd
        · exact hsz x hx
      · show q.moved + 1 = _
        rw [hmv, moved_next hnpos hlt]
      · rw [List.length_cons, Nat.mul_succ]
        omega
    · rw [if_pos hge] at h
      obtain rfl := Except.ok.inj h
      refine ⟨rfl, ?_, moved_last hnpos hge, ?_⟩
      · intro x hx
        rcases List.mem_cons.mp hx with rfl | hx
        · exact hnd
        · exact hrest x hx
      · rw [List.length_cons, Nat.mul_succ]
        omega

theorem readLoop_ok {r : List UInt8 × Nat} (hnodes : ∀ nd ∈ chain, nd.size = base)
    (hnpos : npos < base) (h : ByteArray.readLoop npos size chain = .ok r) :
    r.2 = (npos + size) / base := by
  induction chain generalizing npos size r with
  | nil =>
    cases size with
    | zero => cases h; rw [Nat.div_eq_of_lt (by omega)]
    | succ size => cases h
  | cons nd rest ih =>
    have hnd : nd.size = base := hnodes nd (List.mem_cons_self ..)
    have hrest : ∀ nd ∈ rest, nd.size = base := fun x hx => hnodes x (List.mem_cons_of_mem _ hx)
    cases size with
    | zero => cases h; rw [Nat.div_eq_of_lt (by omega)]
    | succ size =>
      rw [ByteArray.readLoop, hnd] at h
      rcases Nat.lt_or_ge (base - npos) (size + 1) with hlt | hge
      · rw [if_neg (by omega)] at h
        obtain ⟨q, hq, hr⟩ := bind_ok h
        obtain rfl := Except.ok.inj hr
        have hmv := ih hrest (by omega) hq
        show q.2 + 1 = _
        rw [hmv, moved_next hnpos hlt]
      · rw [if_pos hge] at h
        obtain rfl := Except.ok.inj h
        exact moved_last hnpos hge

theorem seekLoop_ok {val i : Nat} (hbase : 0 < base) (hnodes : ∀ nd ∈ chain, nd.size = base)
    (h : ByteArray.seekLoop val chain = .ok i) : i = val / base := by
  induction chain generalizing val i with
  | nil => cases h
  | cons nd rest ih =>
    have hnd : nd.size = base := hnodes nd (List.mem_cons_self ..)
    have hrest : ∀ nd ∈ rest, nd.size = base := fun x hx => hnodes x (List.mem_cons_of_mem _ hx)
    rw [ByteArray.seekLoop, hnd] at h
    rcases Nat.lt_or_ge base val with hlt | hge
    · rw [if_pos hlt] at h
      obtain ⟨k, hk, hi⟩ := bind_ok h
      obtain rfl := Except.ok.inj hi
      rw [ih hrest hk, ← Nat.add_div_right _ hbase]
      exact congrArg (· / base) (by omega)
    · rw [if_neg (by omega)] at h
      obtain rfl := Except.ok.inj h
      split
      · rename_i he
        rw [he, Nat.div_self hbase]
      · rw [Nat.div_eq_of_lt (by omega)]

/-- The walk completes where the chain has room. -/
theorem seekLoop_eq {val : Nat} (hbase : 0 < base) (hnodes : ∀ nd ∈ chain, nd.size = base)
    (hne : chain ≠ []) (hroom : val ≤ base * chain.length) :
    ByteArray.seekLoop val chain = .ok (val / base) := by
  suffices h : ∃ i, ByteArray.seekLoop val chain = .ok i by
    obtain ⟨i, hi⟩ := h
    rw [hi, seekLoop_ok hbase hnodes hi]
  induction chain generalizing val with
  | nil => exact absurd rfl hne
  | cons nd rest ih =>
    have hnd : nd.size = base := hnodes nd (List.mem_cons_self ..)
    have hrest : ∀ nd ∈ rest, nd.size = base := fun x hx => hnodes x (List.mem_cons_of_mem _ hx)
    rw [List.length_cons, Nat.mul_succ] at hroom
    rw [ByteArray.seekLoop, hnd]
    rcases Nat.lt_or_ge base val with hlt | hge
    · have hmore : rest ≠ [] := by
        rintro rfl
        rw [List.length_nil, Nat.mul_zero] at hroom
        omega
      have hrestroom : val - base ≤ base * rest.length := by omega
      obtain ⟨i, hi⟩ := ih hrest hmore hrestroom
      rw [if_pos hlt, hi]
      exact ⟨_, rfl⟩
    · rw [if_neg (by omega)]
      exact ⟨_, rfl⟩

end Loops

namespace ByteArray
namespace Valid
variable {b : ByteArray}

/-! ## The operations that keep the invariant -/

theorem new {baseSize : Nat} (h : 0 < baseSize) : (ByteArray.new baseSize).Valid where
  base_pos := h
  root_ne := by simp [ByteArray.new]
  node_size := by simp [ByteArray.new]
  capacity_eq := by simp [ByteArray.new]
  position_le := Nat.le_refl 0
  size_le := Nat.zero_le _
  cur_eq := by
    have hne : ¬ (0 = baseSize) := by omega
    simp [ByteArray.new, hne]

theorem setIsLittleEndian (hb : b.Valid) (val : Bool) : (b.setIsLittleEndian val).Valid :=
  ⟨hb.base_pos, hb.root_ne, hb.node_size, hb.capacity_eq, hb.position_le, hb.size_le, hb.cur_eq⟩

theorem addCapacity (hb : b.Valid) (size : Nat) : (b.addCapacity size).Valid := by
  rw [ByteArray.addCapacity]
  split
  · exact hb
  · dsimp only
    split
    · exact hb
    · generalize hcount : (size - b.getCapacity) / b.baseSize +
        (if b.getCapacity < (size - b.getCapacity) % b.baseSize then 1 else 0) = count
      have hcap := hb.capacity_eq
      have hpos := hb.position_le
      have hsize := hb.size_le
      refine ⟨hb.base_pos, ?_, ?_, ?_, hpos, ?_, ?_⟩
      · simp [hb.root_ne]
      · intro nd hnd
        rcases List.mem_append.mp hnd with hnd | hnd
        · exact hb.node_size nd hnd
        · rw [(List.mem_replicate.mp hnd).2, Node.size_new]
      · show b.capacity + count * b.baseSize = _
        rw [List.length_append, List.length_replicate, Nat.mul_add, hcap, Nat.mul_comm count]
      · exact Nat.le_trans hsize (Nat.le_add_right _ _)
      · show (if b.getCapacity = 0 then _ else b.cur) = if b.position = b.capacity + _ then _ else _
        rw [getCapacity]
        by_cases hend : b.position = b.capacity
        · -- the cursor was at the end: it moves to the first new node, if there is one
          have hdiv : b.position / b.baseSize = b.root.length := by
            rw [hend, hcap, Nat.mul_div_cancel_left _ hb.base_pos]
          rw [if_pos (by omega), hdiv, hend]
          rcases Nat.eq_zero_or_pos count with hz | hz
          · subst hz; simp
          · have hgrow : 0 < count * b.baseSize := Nat.mul_pos hz hb.base_pos
            rw [if_pos hz, if_neg (by omega)]
        · have hold := hb.cur_eq
          rw [if_neg hend] at hold
          rw [if_neg (by omega), if_neg (by omega), hold]

/-- Where a dereferenced `m_cur` stands. -/
theorem derefCur (hb : b.Valid) {i : Nat} (h : b.derefCur = .ok i) :
    b.position < b.capacity ∧ i = b.position / b.baseSize := by
  have hcur := hb.cur_eq
  have hle := Nat.le_trans hb.position_le hb.size_le
  rw [ByteArray.derefCur] at h
  by_cases hend : b.position = b.capacity
  · rw [if_pos hend] at hcur
    rw [hcur] at h
    cases h
  · rw [if_neg hend] at hcur
    rw [hcur] at h
    obtain rfl := Except.ok.inj h
    exact ⟨by omega, rfl⟩

/-- The pointer to the node of a position, as the invariant wants `m_cur`. -/
theorem nodePtr_div (hb : b.Valid) {c : ByteArray} (hc : c.root.length = b.root.length)
    {pos : Nat} (hpos : pos ≤ b.capacity) :
    c.nodePtr (pos / b.baseSize) =
      if pos = b.capacity then none else some (pos / b.baseSize) := by
  have hcap := hb.capacity_eq
  rw [nodePtr]
  rw [hc]
  by_cases hend : pos = b.capacity
  · have hdiv : pos / b.baseSize = b.root.length := by
      rw [hend, hcap, Nat.mul_div_cancel_left _ hb.base_pos]
    rw [if_pos hend, hdiv, if_neg (by omega)]
  · have hlt : pos / b.baseSize < b.root.length :=
      (Nat.div_lt_iff_lt_mul hb.base_pos).mpr (by rw [Nat.mul_comm, ← hcap]; omega)
    rw [if_neg hend, if_pos hlt]

/-- Nodes passed before the cursor and nodes passed by a copy from the cursor on. -/
theorem div_position (hb : b.Valid) (size : Nat) :
    b.position / b.baseSize + (b.position % b.baseSize + size) / b.baseSize =
      (b.position + size) / b.baseSize := by
  rw [← Nat.mul_add_div hb.base_pos, ← Nat.add_assoc, Nat.div_add_mod]

theorem mem_drop (hb : b.Valid) {i : Nat} : ∀ nd ∈ b.root.drop i, nd.size = b.baseSize :=
  fun nd hnd => hb.node_size nd (List.mem_of_mem_drop hnd)

/-- A copy from the cursor on that fits into the rest of the chain fits into the
capacity. -/
theorem copy_le_capacity (hb : b.Valid) {size : Nat}
    (h : b.position % b.baseSize + size ≤
      b.baseSize * (b.root.drop (b.position / b.baseSize)).length)
    (hpos : b.position < b.capacity) : b.position + size ≤ b.capacity := by
  have hdm := Nat.div_add_mod b.position b.baseSize
  have hi : b.position / b.baseSize ≤ b.root.length :=
    Nat.le_of_lt ((Nat.div_lt_iff_lt_mul hb.base_pos).mpr
      (by rw [Nat.mul_comm, ← hb.capacity_eq]; exact hpos))
  rw [List.length_drop, Nat.mul_sub] at h
  have hmul : b.baseSize * (b.position / b.baseSize) ≤ b.baseSize * b.root.length :=
    Nat.mul_le_mul_left _ hi
  rw [hb.capacity_eq]
  omega

theorem writeRun (hb : b.Valid) {buf : Nat → UInt8} {size : Nat}
    {r : ByteArray × List (Nat × Nat)} (h : b.writeRun buf size = .ok r) : r.1.Valid := by
  rw [ByteArray.writeRun] at h
  split at h
  · cases h; exact hb
  · rename_i hsize
    obtain ⟨i, hi, h⟩ := bind_ok h
    obtain ⟨q, hq, h⟩ := bind_ok h
    obtain rfl := Except.ok.inj h
    have hc := hb.addCapacity size
    generalize b.addCapacity size = c at hi hq hc ⊢
    obtain ⟨hlt, rfl⟩ := hc.derefCur hi
    obtain ⟨hlen, hsz, hmv, hroom⟩ := writeLoop_ok hc.mem_drop
      (Nat.mod_lt _ hc.base_pos) (Nat.pos_of_ne_zero hsize) hq
    have hfit := hc.copy_le_capacity hroom hlt
    have hlength : (c.root.take (c.position / c.baseSize) ++ q.nodes).length = c.root.length := by
      rw [List.length_append, hlen, List.length_take, List.length_drop]
      omega
    refine ⟨hc.base_pos, ?_, ?_, ?_, ?_, ?_, ?_⟩
    · intro hnil
      have hne : 0 < c.root.length := List.length_pos_of_ne_nil hc.root_ne
      rw [← hlength] at hne
      exact absurd (congrArg List.length hnil) (by simpa using Nat.ne_of_gt hne)
    · intro nd hnd
      rcases List.mem_append.mp hnd with hnd | hnd
      · exact hc.node_size nd (List.mem_of_mem_take hnd)
      · exact hsz nd hnd
    · show c.capacity = c.baseSize * _
      rw [hlength]
      exact hc.capacity_eq
    · show c.position + size ≤ if c.size < c.position + size then c.position + size else c.size
      split <;> omega
    · have hle := hc.size_le
      show (if c.size < c.position + size then c.position + size else c.size) ≤ c.capacity
      split <;> omega
    · show c.nodePtr _ = _
      rw [hmv, hc.div_position]
      exact hc.nodePtr_div rfl hfit

theorem write (hb : b.Valid) {buf : Nat → UInt8} {size : Nat} {c : ByteArray}
    (h : b.write buf size = .ok c) : c.Valid := by
  obtain ⟨r, hr, rfl⟩ := map_ok h
  exact hb.writeRun hr

theorem read (hb : b.Valid) {size : Nat} {r : List UInt8 × ByteArray}
    (h : b.read size = .ok r) : r.2.Valid := by
  rw [ByteArray.read] at h
  split at h
  · cases h
  · rename_i hsize
    obtain ⟨i, hi, h⟩ := bind_ok h
    obtain ⟨q, hq, h⟩ := bind_ok h
    obtain rfl := Except.ok.inj h
    obtain ⟨-, rfl⟩ := hb.derefCur hi
    have hmv := readLoop_ok hb.mem_drop (Nat.mod_lt _ hb.base_pos) hq
    rw [getReadSize] at hsize
    have hle := hb.position_le
    have hcap := hb.size_le
    refine ⟨hb.base_pos, hb.root_ne, hb.node_size, hb.capacity_eq, ?_, hcap, ?_⟩
    · show b.position + size ≤ b.size
      omega
    · show b.nodePtr _ = _
      rw [hmv, hb.div_position]
      exact hb.nodePtr_div rfl (by omega)

theorem setPosition (hb : b.Valid) {val : Nat} {c : ByteArray}
    (h : b.setPosition val = .ok c) : c.Valid := by
  rw [ByteArray.setPosition] at h
  split at h
  · cases h
  · rename_i hval
    obtain ⟨i, hi, h⟩ := bind_ok h
    obtain rfl := Except.ok.inj h
    obtain rfl := seekLoop_ok hb.base_pos hb.node_size hi
    have hcap := hb.size_le
    refine ⟨hb.base_pos, hb.root_ne, hb.node_size, hb.capacity_eq, ?_, ?_, ?_⟩
    · show val ≤ if _ then _ else _
      split <;> omega
    · show (if _ then _ else _) ≤ b.capacity
      split <;> omega
    · exact hb.nodePtr_div rfl (by omega)

/-- **`setPosition`** completes on every position within the capacity. -/
theorem setPosition_eq (hb : b.Valid) {val : Nat} (hval : val ≤ b.capacity) :
    b.setPosition val = .ok { b with
      position := val
      size := if b.size < val then val else b.size
      cur := if val = b.capacity then none else some (val / b.baseSize) } := by
  have hroom : val ≤ b.baseSize * b.root.length := by
    rw [← hb.capacity_eq]
    exact hval
  have hseek := seekLoop_eq hb.base_pos hb.node_size hb.root_ne hroom
  rw [ByteArray.setPosition, if_neg (by omega)]
  simp only [hseek, bind, Except.bind, pure, Except.pure]
  rw [hb.nodePtr_div rfl hval]

theorem getWriteBuffers (hb : b.Valid) {len : Nat} {r : Nat × List Iovec × ByteArray}
    (h : b.getWriteBuffers len = .ok r) : r.2.2.Valid := by
  rw [ByteArray.getWriteBuffers] at h
  split at h
  · cases h; exact hb
  · obtain ⟨i, -, h⟩ := bind_ok h
    obtain ⟨iovs, -, h⟩ := bind_ok h
    obtain rfl := Except.ok.inj h
    exact hb.addCapacity len

end Valid

/-- **`clear` keeps the invariant exactly when the chain has one node.** -/
theorem clear_valid_iff {b : ByteArray} (hb : b.Valid) : b.clear.Valid ↔ b.root.length = 1 := by
  have hne : 0 < b.root.length := List.length_pos_of_ne_nil hb.root_ne
  have hlen : b.clear.root.length = 1 := by
    show (b.root.take 1).length = 1
    rw [List.length_take]
    omega
  constructor
  · intro h
    have hcap : b.capacity = b.baseSize * 1 := by
      have := h.capacity_eq
      rw [hlen] at this
      exact this
    exact Nat.eq_of_mul_eq_mul_left hb.base_pos (hb.capacity_eq.symm.trans hcap)
  · intro h
    refine ⟨hb.base_pos, ?_, ?_, ?_, Nat.le_refl 0, Nat.zero_le _, ?_⟩
    · intro hnil
      rw [hnil] at hlen
      cases hlen
    · exact fun nd hnd => hb.node_size nd (List.mem_of_mem_take hnd)
    · show b.capacity = b.baseSize * b.clear.root.length
      rw [hlen, hb.capacity_eq, h]
    · have hcap := hb.capacity_eq
      rw [h] at hcap
      have hpos := hb.base_pos
      show some 0 = if 0 = b.capacity then none else some (0 / b.baseSize)
      rw [if_neg (by omega), Nat.zero_div]

theorem store_keeps (junk : Nat → UInt8) : (ByteArray.store junk).Keeps ByteArray.Valid where
  write hb h := hb.write h
  read hb h := hb.read h

/-! ## Sequences of operations -/

/-- A call of a public operation of the class.  A writer takes the memory behind
the pointer it is given, a typed one the memory behind its local variable. -/
inductive Op
  | write (buf : Nat → UInt8) (size : Nat)
  | read (size : Nat)
  | setPosition (val : Nat)
  | clear
  | getReadBuffers (len : Nat)
  | getWriteBuffers (len : Nat)
  | setIsLittleEndian (val : Bool)
  | typed (op : TypedOp) (junk : Nat → UInt8)

/-- The array after a call that completes. -/
def Op.run (b : ByteArray) : Op → Except Fault ByteArray
  | .write buf size => b.write buf size
  | .read size => (b.read size).map Prod.snd
  | .setPosition val => b.setPosition val
  | .clear => .ok b.clear
  | .getReadBuffers len => (b.getReadBuffers len).map fun _ => b
  | .getWriteBuffers len => (b.getWriteBuffers len).map fun r => r.2.2
  | .setIsLittleEndian val => .ok (b.setIsLittleEndian val)
  | .typed op junk => op.run (ByteArray.store junk) b

/-- Any sequence of calls on a new array, as long as they complete. -/
def machine : Machine ByteArray Op :=
  Machine.ofExcept (fun b => ∃ baseSize, 1 ≤ baseSize ∧ b = ByteArray.new baseSize) Op.run

/-- A call that completes keeps the invariant if and only if it is not a `clear`
of a longer chain. -/
theorem op_valid_iff {b c : ByteArray} (hb : b.Valid) (op : Op) (h : op.run b = .ok c) :
    c.Valid ↔ (op = .clear → b.root.length = 1) := by
  by_cases hop : op = .clear
  · subst hop
    obtain rfl := Except.ok.inj h
    simpa using clear_valid_iff hb
  · refine iff_of_true ?_ fun he => absurd he hop
    cases op with
    | clear => exact absurd rfl hop
    | write buf size => exact hb.write h
    | read size =>
      obtain ⟨r, hr, rfl⟩ := map_ok h
      exact hb.read hr
    | setPosition val => exact hb.setPosition h
    | getReadBuffers len =>
      obtain ⟨-, -, rfl⟩ := map_ok h
      exact hb
    | getWriteBuffers len =>
      obtain ⟨r, hr, rfl⟩ := map_ok h
      exact hb.getWriteBuffers hr
    | setIsLittleEndian val =>
      obtain rfl := Except.ok.inj h
      exact hb.setIsLittleEndian val
    | typed op junk => exact op.keeps (store_keeps junk) hb h

/-- **The invariant over whole sequences.**  Every state that a sequence of
completed calls goes through is valid if and only if every `clear` in it was
called on a chain of one node. -/
theorem valid_iff_clear_single {tr : List (ByteArray × Op)} {b : ByteArray}
    (hrun : machine.Run tr b) :
    (∀ u ∈ Machine.visits tr b, u.Valid) ↔ ∀ p ∈ tr, p.2 = .clear → p.1.root.length = 1 := by
  refine hrun.invariant_iff (fun u op => op = .clear → u.root.length = 1) ?_ ?_
  · rintro u ⟨baseSize, hbase, rfl⟩
    exact Valid.new hbase
  · intro u op c hu hstep
    exact op_valid_iff hu op (Machine.ofExcept_step.mp hstep)

/-- `clear` on one node, and two bytes afterwards: every array on the way is valid. -/
theorem valid_iff_clear_single_short : ∃ tr b, machine.Run tr b ∧
    tr.map Prod.snd = [.setPosition 3, .clear, .setPosition 2] ∧
    ∀ u ∈ Machine.visits tr b, u.Valid := by
  have hinit : machine.init (ByteArray.new 4) := ⟨4, by decide, rfl⟩
  have hrun : machine.Run _ _ :=
    Machine.Run.of_exec_init hinit [.setPosition 3, .clear, .setPosition 2] rfl
  refine ⟨_, _, hrun, rfl, (valid_iff_clear_single hrun).mpr ?_⟩
  exact List.forall_mem_cons.mpr ⟨nofun, List.forall_mem_cons.mpr
    ⟨fun _ => rfl, List.forall_mem_singleton.mpr nofun⟩⟩

/-- Eight bytes on nodes of four, then `clear`: the capacity still counts the node
that was deleted. -/
theorem clear_keeps_capacity :
    ∃ tr b, machine.Run tr b ∧ ¬ ∀ u ∈ Machine.visits tr b, u.Valid := by
  have hinit : machine.init (ByteArray.new 4) := ⟨4, by decide, rfl⟩
  obtain ⟨b, hrun, hb⟩ := Machine.Run.of_exec_any hinit [.write (fun _ => 7) 8, .clear]
    (fun b => decide (b.capacity ≠ b.baseSize * b.root.length)) (by decide)
  refine ⟨_, b, hrun, fun hall => ?_⟩
  exact of_decide_eq_true hb (hall b (by simp [Machine.visits])).capacity_eq

end ByteArray
end Sylar
