import Sylar.ByteArrayRead

/-! # Reading at a position of the caller's choice

`read( buf, size, position )` and `getReadBuffers( buffers, len, position )` read from
`position` on and leave the cursor where it is.  Both compare the length with
`getReadSize`, which counts from the cursor, and the first takes the offset in the node from
`position` but the node from `m_cur`.

**`readAt_iff`** says which bytes the first one really reads, and so when they are those asked
for; **`getReadBuffersAt_iff`** says when the limit of the second one is right. -/
namespace Sylar
open Interleaving Overlay

namespace ByteArray

/-- The walk from the root: `count` times `cur = cur->next`. -/
def walkLoop : Nat → List Node → Except Fault (List Node)
  | 0, chain => .ok chain
  | _ + 1, [] => .error .nullNode
  | count + 1, _ :: rest => walkLoop count rest

/-- `getReadBuffers( buffers, len, position )`: the value returned and the `iovec`s appended
to `buffers`. -/
def getReadBuffersAt (b : ByteArray) (len position : Nat) : Except Fault (Nat × List Iovec) :=
  let len := if b.getReadSize < len then b.getReadSize else len
  if len = 0 then .ok (0, [])
  else do
    let chain ← walkLoop (position / b.baseSize) b.root
    let iovs ← iovecLoop (position % b.baseSize) len (position / b.baseSize) chain
    return (len, iovs)

/-! ## The loops -/

section Loops
variable {base npos size : Nat} {chain : List Node}

/-- Without enough chain the copy loop runs off it. -/
theorem readLoop_short (hnodes : ∀ nd ∈ chain, nd.size = base) (hsize : 0 < size)
    (hshort : base * chain.length < npos + size) (hnpos : npos ≤ base) :
    readLoop npos size chain = .error .nullNode := by
  induction chain generalizing npos size with
  | nil =>
    cases size with
    | zero => omega
    | succ size => rfl
  | cons nd rest ih =>
    have hnd : nd.size = base := hnodes nd (List.mem_cons_self ..)
    have hrest : ∀ nd ∈ rest, nd.size = base := fun x hx => hnodes x (List.mem_cons_of_mem _ hx)
    rw [List.length_cons, Nat.mul_succ] at hshort
    cases size with
    | zero => omega
    | succ size =>
      have hover : base - npos < size + 1 := by omega
      have hfail := ih hrest (by omega : 0 < size + 1 - (base - npos)) (by omega) (Nat.zero_le _)
      rw [readLoop, hnd, if_neg (by omega), hfail]
      rfl

theorem walkLoop_eq {count : Nat} (h : count ≤ chain.length) :
    walkLoop count chain = .ok (chain.drop count) := by
  induction count generalizing chain with
  | zero => rfl
  | succ count ih =>
    cases chain with
    | nil => exact absurd h (by simp)
    | cons nd rest =>
      rw [walkLoop, List.drop_succ_cons]
      exact ih (Nat.le_of_succ_le_succ h)

end Loops

/-! ## `read` at a position -/

section Positional
variable {b : ByteArray} {n p len : Nat}

/-- What is asked of a read at `p`: the bytes from there on where the array has so many, and
an exception where it has not.  The method is `const`. -/
def ReadsAt (b : ByteArray) (n p : Nat) : Prop :=
  if p + n ≤ b.size then b.readAt n p = .ok (window b.content p n)
  else b.readAt n p = .error .outOfRange

/-- The place that the offset of `p` has in the node of the cursor. -/
def astray (b : ByteArray) (p : Nat) : Nat :=
  b.baseSize * (b.position / b.baseSize) + p % b.baseSize

theorem astray_of_same_node (h : p / b.baseSize = b.position / b.baseSize) : b.astray p = p := by
  rw [astray, ← h, Nat.div_add_mod]

/-- A range of the nodes from the cursor's on, as a range of the content. -/
theorem Valid.window_drop (hb : b.Valid) (hpos : b.position < b.capacity) (p n : Nat) :
    window (bytesOf (b.root.drop (b.position / b.baseSize))) (p % b.baseSize) n =
      window b.content (b.astray p) n := by
  obtain ⟨hcontent, hposition⟩ := hb.cursor_split hpos
  have hstart : b.astray p =
      (bytesOf (b.root.take (b.position / b.baseSize))).length + p % b.baseSize := by
    have hdm := Nat.div_add_mod b.position b.baseSize
    rw [astray]
    omega
  rw [hcontent, hstart, window_append_behind]

/-- The nodes from the cursor's on have room for a range exactly when it ends within the
capacity. -/
theorem Valid.room_astray_iff (hb : b.Valid) (hpos : b.position < b.capacity) (p n : Nat) :
    p % b.baseSize + n ≤ b.baseSize * (b.root.drop (b.position / b.baseSize)).length ↔
      b.astray p + n ≤ b.capacity := by
  have hcap := hb.capacity_eq
  have hi : b.position / b.baseSize ≤ b.root.length :=
    Nat.le_of_lt ((Nat.div_lt_iff_lt_mul hb.base_pos).mpr
      (by rw [Nat.mul_comm, ← hcap]; exact hpos))
  have hmul : b.baseSize * (b.position / b.baseSize) ≤ b.baseSize * b.root.length :=
    Nat.mul_le_mul_left _ hi
  rw [astray, List.length_drop, Nat.mul_sub]
  omega

/-- **What a read at `p` does**: as many bytes as the cursor allows, from the node of the
cursor. -/
theorem Valid.readAt_eq (hb : b.Valid) (n p : Nat) :
    b.readAt n p =
      if b.getReadSize < n then .error .outOfRange
      else if b.position < b.capacity ∧ b.astray p + n ≤ b.capacity then
        .ok (window b.content (b.astray p) n)
      else .error .nullNode := by
  rw [readAt]
  by_cases hlen : b.getReadSize < n
  · rw [if_pos hlen, if_pos hlen]
  rw [if_neg hlen, if_neg hlen]
  have hle := Nat.le_trans hb.position_le hb.size_le
  by_cases hpos : b.position < b.capacity
  · rw [hb.derefCur_eq hpos]
    have hoff := Nat.mod_lt p hb.base_pos
    by_cases hroom : b.astray p + n ≤ b.capacity
    · have hloop := readLoop_window hb.mem_drop hoff ((hb.room_astray_iff hpos p n).mpr hroom)
      rw [hb.window_drop hpos] at hloop
      rw [if_pos ⟨hpos, hroom⟩]
      simp only [hloop, bind, Except.bind, pure, Except.pure]
    · have hshort := mt (hb.room_astray_iff hpos p n).mp hroom
      have hn : 0 < n := by
        -- the offset alone always fits
        rcases Nat.eq_zero_or_pos n with rfl | hn
        · have hnodes : 0 < (b.root.drop (b.position / b.baseSize)).length := by
            have hlt := (Nat.div_lt_iff_lt_mul hb.base_pos).mpr
              (by rw [Nat.mul_comm, ← hb.capacity_eq]; exact hpos)
            rw [List.length_drop]
            omega
          have hone := Nat.le_mul_of_pos_right b.baseSize hnodes
          omega
        · exact hn
      have hloop := readLoop_short hb.mem_drop hn (Nat.not_le.mp hshort) (Nat.le_of_lt hoff)
      rw [if_neg (by omega)]
      simp only [hloop, bind, Except.bind]
  · have hcur := hb.cur_eq
    rw [if_pos (by omega)] at hcur
    rw [if_neg (by omega), ByteArray.derefCur, hcur]
    rfl

/-- In the node of the cursor the place is the right one. -/
theorem Valid.readsAt_same_node (hb : b.Valid) (hnode : p / b.baseSize = b.position / b.baseSize)
    (hpos : b.position < b.capacity) (hin : p + n ≤ b.size) (hlen : n ≤ b.getReadSize) :
    b.ReadsAt n p := by
  have hplace := astray_of_same_node hnode
  have hsize := hb.size_le
  rw [ReadsAt, if_pos hin, hb.readAt_eq, hplace, if_neg (by omega), if_pos ⟨hpos, by omega⟩]

/-- **When a read at a position is right**, on every valid array.  Where the bytes asked for
are there, they must be no more than those behind the cursor, the cursor must not be at the
end of the chain, and at the place of the same offset in the cursor's node, which is `p` itself
only for a `p` in that node, there must be the same bytes; where they are not there, they must
be more than those behind the cursor. -/
theorem readAt_iff (hb : b.Valid) :
    b.ReadsAt n p ↔
      (p + n ≤ b.size → n ≤ b.getReadSize ∧ b.position < b.capacity ∧
        b.astray p + n ≤ b.capacity ∧
        ∀ j < n, b.content[b.astray p + j]? = b.content[p + j]?) ∧
      (b.size < p + n → b.getReadSize < n) := by
  rw [ReadsAt, hb.readAt_eq]
  by_cases hin : p + n ≤ b.size
  · have hmore : ¬ b.size < p + n := by omega
    simp only [hin, if_true, forall_const, hmore, false_imp_iff, and_true]
    by_cases hlen : b.getReadSize < n
    · rw [if_pos hlen]
      exact iff_of_false (by intro h; cases h) (by omega)
    · rw [if_neg hlen]
      by_cases hroom : b.position < b.capacity ∧ b.astray p + n ≤ b.capacity
      · rw [if_pos hroom]
        constructor
        · intro h
          exact ⟨by omega, hroom.1, hroom.2, window_eq_iff.mp (Except.ok.inj h)⟩
        · rintro ⟨-, -, -, hsame⟩
          exact congrArg Except.ok (window_eq_iff.mpr hsame)
      · rw [if_neg hroom]
        exact iff_of_false (by intro h; cases h) (by omega)
  · have hmore : b.size < p + n := by omega
    simp only [hin, if_false, false_imp_iff, hmore, forall_const, true_and]
    by_cases hlen : b.getReadSize < n
    · rw [if_pos hlen]
      exact iff_of_true rfl hlen
    · rw [if_neg hlen]
      refine iff_of_false ?_ hlen
      split
      · intro h
        cases h
      · intro h
        cases h

/-- Two bytes from the cursor's own place on. -/
theorem readAt_in_node : five.ReadsAt 2 1 :=
  (readAt_iff five_valid).mpr (by decide)

/-- Two bytes from position 2 on are read at position 0, because the cursor is in the first
node. -/
theorem readAt_wrong_node :
    five.Valid ∧ 2 + 2 ≤ five.size ∧ five.readAt 2 2 = .ok [10, 11] ∧
      window five.content 2 2 = [12, 13] ∧ ¬ five.ReadsAt 2 2 := by
  refine ⟨five_valid, by decide, by rfl, by decide, ?_⟩
  rw [ReadsAt]
  decide

/-! ## `getReadBuffers` at a position -/

/-- The array with its cursor moved to `p`. -/
def movedTo (b : ByteArray) (p : Nat) : ByteArray :=
  { b with position := p, cur := if p = b.capacity then none else some (p / b.baseSize) }

theorem Valid.movedTo (hb : b.Valid) (hp : p ≤ b.size) : (b.movedTo p).Valid :=
  ⟨hb.base_pos, hb.root_ne, hb.node_size, hb.capacity_eq, hp, hb.size_le, rfl⟩

theorem Valid.movedTo_position (hb : b.Valid) : b.movedTo b.position = b := by
  rw [ByteArray.movedTo, ← hb.cur_eq]

theorem getReadBuffers_min (b : ByteArray) (len : Nat) :
    b.getReadBuffers (min len b.getReadSize) = b.getReadBuffers len := by
  have hcut : ¬ b.getReadSize < min len b.getReadSize := by omega
  rw [ByteArray.getReadBuffers, ByteArray.getReadBuffers, cut_getReadSize b len, if_neg hcut]

/-- The two walks are one: from the root to a node, and from there on. -/
theorem Valid.getReadBuffersAt_eq (hb : b.Valid) (hp : p ≤ b.size)
    (hlen : min len b.getReadSize ≤ b.size - p) :
    b.getReadBuffersAt len p = (b.movedTo p).getReadBuffers (min len b.getReadSize) := by
  have hmoved : (b.movedTo p).getReadSize = b.size - p := rfl
  rw [getReadBuffersAt, ByteArray.getReadBuffers, cut_getReadSize, hmoved]
  generalize min len b.getReadSize = k at hlen
  rw [if_neg (Nat.not_lt.mpr hlen)]
  by_cases hk : k = 0
  · rw [if_pos hk, if_pos hk]
  · have hsize := hb.size_le
    have hcap : p < b.capacity := by omega
    have hnode : p / b.baseSize < b.root.length :=
      (Nat.div_lt_iff_lt_mul hb.base_pos).mpr (by rw [Nat.mul_comm, ← hb.capacity_eq]; exact hcap)
    have hwalk := walkLoop_eq (Nat.le_of_lt hnode)
    have hcur : (b.movedTo p).derefCur = .ok (p / b.baseSize) := (hb.movedTo hp).derefCur_eq hcap
    rw [if_neg hk, if_neg hk, hcur]
    simp only [hwalk, bind, Except.bind]
    rfl

/-- What is asked of the buffers at `p`: the places of the bytes from there on, as many as
there are up to `len`, and at the position the same places as without one. -/
def BuffersAt (b : ByteArray) (len p : Nat) : Prop :=
  (∃ iovs, b.getReadBuffersAt len p = .ok (min len (b.size - p), iovs) ∧
    (∀ v ∈ iovs, Within b.root v) ∧
    iovs.flatMap (gather b.root) = window b.content p (min len (b.size - p))) ∧
  (p = b.position → b.getReadBuffersAt len p = b.getReadBuffers len)

/-- The value returned counts the bytes behind the cursor. -/
theorem getReadBuffersAt_ok {r : Nat × List Iovec} (h : b.getReadBuffersAt len p = .ok r) :
    r.1 = min len b.getReadSize := by
  rw [getReadBuffersAt, cut_getReadSize] at h
  split at h
  · rename_i hzero
    obtain rfl := Except.ok.inj h
    exact hzero.symm
  · obtain ⟨chain, -, h⟩ := bind_ok h
    obtain ⟨iovs, -, h⟩ := bind_ok h
    obtain rfl := Except.ok.inj h
    rfl

/-- The length is cut where the moved array would cut it. -/
theorem Valid.buffersAt_of_min (hb : b.Valid) (hp : p ≤ b.size)
    (hmin : min len b.getReadSize = min len (b.size - p)) : b.BuffersAt len p := by
  have hcut : min len b.getReadSize ≤ b.size - p := by omega
  have hrun := hb.getReadBuffersAt_eq hp hcut
  have hmoved : (b.movedTo p).getReadSize = b.size - p := rfl
  constructor
  · obtain ⟨iovs, hok, hwithin, hbytes⟩ :=
      (hb.movedTo hp).getReadBuffers_eq (min len b.getReadSize)
    have hcut : min (min len b.getReadSize) (b.movedTo p).getReadSize =
        min len (b.size - p) := by omega
    rw [hcut] at hok hbytes
    exact ⟨iovs, hrun.trans hok, hwithin, hbytes⟩
  · rintro rfl
    rw [hrun, hb.movedTo_position, getReadBuffers_min]

/-- **When the buffers at a position are right**, on every valid array and for every position
within its size: at the cursor itself, and elsewhere for a length that neither the cursor nor
the position cuts. -/
theorem getReadBuffersAt_iff (hb : b.Valid) (hp : p ≤ b.size) :
    b.BuffersAt len p ↔ p = b.position ∨ (len ≤ b.getReadSize ∧ len ≤ b.size - p) := by
  have hle := hb.position_le
  have hcount : b.getReadSize = b.size - b.position := rfl
  constructor
  · rintro ⟨⟨iovs, hok, -, -⟩, -⟩
    have hreturned : min len (b.size - p) = min len b.getReadSize := getReadBuffersAt_ok hok
    omega
  · intro h
    refine hb.buffersAt_of_min hp ?_
    rcases h with rfl | h
    · rfl
    · omega

end Positional

/-- The three bytes from position 2 on, from a cursor at 1. -/
theorem getReadBuffersAt_three : five.BuffersAt 3 2 :=
  (getReadBuffersAt_iff five_valid (by decide)).mpr (.inr (by decide))

/-- Four bytes are behind the cursor, one is behind position 4: the walk leaves the chain. -/
theorem getReadBuffersAt_runs_off :
    five.Valid ∧ 4 ≤ five.size ∧ five.getReadBuffersAt 4 4 = .error .nullNode ∧
      ¬ five.BuffersAt 4 4 := by
  have hrun : five.getReadBuffersAt 4 4 = .error .nullNode := by rfl
  refine ⟨five_valid, by decide, hrun, ?_⟩
  rintro ⟨⟨iovs, hok, -⟩, -⟩
  rw [hrun] at hok
  cases hok

end ByteArray
end Sylar
