import Sylar.ByteArrayInvariant

/-! # Writing to the byte array as writing to a flat one

Seen from outside a byte array is one block of bytes, `content`, and `write` should
put the caller's buffer over the range that starts at the position
(`WritesFlat`).  The copy loop goes node by node.  All chunks but the last are
taken from the buffer at the source offset `bpos`, the last one at the node offset
`npos`: byte `j` of the write is `sourceAt … j`, which is byte `j` of the buffer
before the last chunk and may be another byte in it.

`writeLoop_content` is the loop, `writeRun_content` the whole operation, and
`write_flat_iff` says when the two views agree: exactly when the write is empty,
or stays in one node and starts at its beginning, or spans several nodes and the
last chunk repeats the beginning of the buffer. -/
namespace Sylar
open Interleaving Overlay

/-- The number of bytes of a write before its last chunk: `npos` bytes into a
node of `base` bytes it fills that node, then whole nodes. -/
def lead (base npos size : Nat) : Nat :=
  if size ≤ base - npos then 0
  else (base - npos) + (size - (base - npos) - 1) / base * base

theorem lead_of_le {base npos size : Nat} (h : size ≤ base - npos) : lead base npos size = 0 :=
  if_pos h

theorem lead_of_gt {base npos size : Nat} (hbase : 0 < base) (h : base - npos < size) :
    lead base npos size = (base - npos) + lead base 0 (size - (base - npos)) := by
  have hsize : 0 < size - (base - npos) := by omega
  unfold lead
  rw [if_neg (by omega), Nat.sub_zero]
  generalize size - (base - npos) = rem at hsize ⊢
  split
  · rw [Nat.div_eq_of_lt (by omega), Nat.zero_mul]
  · have hdiv : (rem - 1) / base = (rem - base - 1) / base + 1 := by
      rw [← Nat.add_div_right _ hbase]
      exact congrArg (· / base) (by omega)
    rw [hdiv, Nat.add_mul, Nat.one_mul]
    omega

/-- The byte that ends up as byte `j` of a write. -/
def sourceAt (buf : Nat → UInt8) (base npos bpos size j : Nat) : UInt8 :=
  if j < lead base npos size then buf (bpos + j)
  else if lead base npos size = 0 then buf (npos + j)
  else buf (j - lead base npos size)

/-- After a full node the loop goes on as a write of its own. -/
theorem sourceAt_next {buf : Nat → UInt8} {base npos bpos size j : Nat} (hnpos : npos < base)
    (h : base - npos < size) :
    sourceAt buf base npos bpos size (base - npos + j) =
      sourceAt buf base 0 (bpos + (base - npos)) (size - (base - npos)) j := by
  have hlead := lead_of_gt (by omega : 0 < base) h
  unfold sourceAt
  rw [hlead]
  generalize lead base 0 (size - (base - npos)) = l
  by_cases hj : j < l
  · rw [if_pos (by omega), if_pos hj, Nat.add_assoc]
  · rw [if_neg (by omega), if_neg hj, if_neg (by omega)]
    split
    · exact congrArg buf (by omega)
    · exact congrArg buf (by omega)

namespace ByteArray

theorem length_bytesOf {base : Nat} {chain : List Node} (h : ∀ nd ∈ chain, nd.size = base) :
    (bytesOf chain).length = base * chain.length := by
  induction chain with
  | nil => rfl
  | cons nd rest ih =>
    have hrest := ih fun x hx => h x (List.mem_cons_of_mem _ hx)
    rw [bytesOf_cons, List.length_append, hrest, nd.length_ptr, h nd (List.mem_cons_self ..),
      List.length_cons, Nat.mul_succ, Nat.add_comm]

/-- **The copy loop.**  With enough chain it completes, and the bytes of the chain
are overlaid with the source bytes. -/
theorem writeLoop_content {buf : Nat → UInt8} {base npos bpos size : Nat} {chain : List Node}
    (hnodes : ∀ nd ∈ chain, nd.size = base) (hnpos : npos < base) (hsize : 0 < size)
    (hroom : npos + size ≤ base * chain.length) :
    ∃ r, writeLoop buf npos bpos size chain = .ok r ∧
      bytesOf r.nodes = overlay (bytesOf chain) npos (sourceAt buf base npos bpos size) size := by
  induction chain generalizing npos bpos size with
  | nil => simp at hroom; omega
  | cons nd rest ih =>
    have hnd : nd.size = base := hnodes nd (List.mem_cons_self ..)
    have hlen : nd.ptr.length = base := nd.length_ptr.trans hnd
    have hrest : ∀ nd ∈ rest, nd.size = base := fun x hx => hnodes x (List.mem_cons_of_mem _ hx)
    rw [List.length_cons, Nat.mul_succ] at hroom
    rw [writeLoop, hnd]
    rcases Nat.lt_or_ge (base - npos) size with hlt | hge
    · rw [if_neg (by omega)]
      obtain ⟨r, hr, hbytes⟩ : ∃ r,
          writeLoop buf 0 (bpos + (base - npos)) (size - (base - npos)) rest = .ok r ∧
            bytesOf r.nodes = overlay (bytesOf rest) 0
              (sourceAt buf base 0 (bpos + (base - npos)) (size - (base - npos)))
              (size - (base - npos)) :=
        ih hrest (by omega) (by omega) (by omega)
      rw [hr]
      refine ⟨_, rfl, ?_⟩
      have hleadge : base - npos ≤ lead base npos size := by
        rw [lead_of_gt (by omega) hlt]
        omega
      have hfirst : overlay nd.ptr npos (fun j => buf (bpos + j)) (base - npos) =
          overlay nd.ptr npos (sourceAt buf base npos bpos size) (base - npos) := by
        refine overlay_congr fun j hj => ?_
        rw [sourceAt]
        rw [if_pos (by omega)]
      have hsecond : bytesOf r.nodes =
          overlay (bytesOf rest) 0 (fun j => sourceAt buf base npos bpos size (base - npos + j))
            (size - (base - npos)) := by
        rw [hbytes]
        exact overlay_congr fun j _ => (sourceAt_next hnpos hlt).symm
      show overlay nd.ptr npos (fun j => buf (bpos + j)) (base - npos) ++ bytesOf r.nodes = _
      rw [bytesOf_cons, overlay_append_right (by omega) (by omega), hlen, hfirst, hsecond]
    · rw [if_pos hge]
      refine ⟨_, rfl, ?_⟩
      show overlay nd.ptr npos (fun j => buf (npos + j)) size ++ bytesOf rest = _
      rw [bytesOf_cons, overlay_append_left (by omega)]
      refine congrArg (· ++ bytesOf rest) (overlay_congr fun j _ => ?_)
      rw [sourceAt]
      rw [lead_of_le hge, if_neg (by omega), if_pos rfl]

/-- The ranges of the buffer that the loop reads end within the bytes it was
given, unless it starts with its last chunk, at a larger offset in the node. -/
theorem writeLoop_reads {buf : Nat → UInt8} {base npos bpos size : Nat} {chain : List Node}
    {r : Copied} (hnodes : ∀ nd ∈ chain, nd.size = base) (hnpos : npos < base)
    (hstart : npos ≤ bpos ∨ base - npos < size)
    (h : writeLoop buf npos bpos size chain = .ok r) :
    ∀ p ∈ r.reads, p.1 + p.2 ≤ bpos + size := by
  induction chain generalizing npos bpos size r with
  | nil => cases h
  | cons nd rest ih =>
    have hnd : nd.size = base := hnodes nd (List.mem_cons_self ..)
    have hrest : ∀ nd ∈ rest, nd.size = base := fun x hx => hnodes x (List.mem_cons_of_mem _ hx)
    rw [writeLoop, hnd] at h
    rcases Nat.lt_or_ge (base - npos) size with hlt | hge
    · rw [if_neg (by omega)] at h
      obtain ⟨q, hq, hr⟩ := bind_ok h
      obtain rfl := Except.ok.inj hr
      have hrec := ih hrest (by omega) (Or.inl (Nat.zero_le _)) hq
      intro p hp
      rcases List.mem_cons.mp hp with rfl | hp
      · show bpos + (base - npos) ≤ bpos + size
        omega
      · have := hrec p hp
        omega
    · rw [if_pos hge] at h
      obtain rfl := Except.ok.inj h
      intro p hp
      rw [List.mem_singleton] at hp
      subst hp
      show npos + size ≤ bpos + size
      omega

theorem writeLoop_reads_single {buf : Nat → UInt8} {base npos bpos size : Nat}
    {chain : List Node} {r : Copied} (hnodes : ∀ nd ∈ chain, nd.size = base)
    (hfit : size ≤ base - npos) (h : writeLoop buf npos bpos size chain = .ok r) :
    r.reads = [(npos, size)] := by
  cases chain with
  | nil => cases h
  | cons nd rest =>
    rw [writeLoop, hnodes nd (List.mem_cons_self ..), if_pos hfit] at h
    obtain rfl := Except.ok.inj h
    rfl

section Write
variable {b : ByteArray} {buf : Nat → UInt8} {n : Nat}

/-- The bytes before the cursor's node, and those from it on. -/
theorem Valid.cursor_split (hb : b.Valid) (hpos : b.position < b.capacity) :
    b.content = bytesOf (b.root.take (b.position / b.baseSize)) ++
        bytesOf (b.root.drop (b.position / b.baseSize)) ∧
      b.position = (bytesOf (b.root.take (b.position / b.baseSize))).length +
        b.position % b.baseSize := by
  have hi : b.position / b.baseSize < b.root.length :=
    (Nat.div_lt_iff_lt_mul hb.base_pos).mpr (by rw [Nat.mul_comm, ← hb.capacity_eq]; exact hpos)
  have hlen : (bytesOf (b.root.take (b.position / b.baseSize))).length =
      b.baseSize * (b.position / b.baseSize) := by
    rw [length_bytesOf fun nd hnd => hb.node_size nd (List.mem_of_mem_take hnd),
      List.length_take, Nat.min_eq_left (Nat.le_of_lt hi)]
  constructor
  · rw [← bytesOf_append, List.take_append_drop, content]
  · rw [hlen, Nat.div_add_mod]

/-- The nodes from the cursor's on have room for what fits behind the position. -/
theorem Valid.room_ahead (hb : b.Valid) (hpos : b.position < b.capacity)
    (hroom : b.position + n ≤ b.capacity) :
    b.position % b.baseSize + n ≤
      b.baseSize * (b.root.drop (b.position / b.baseSize)).length := by
  have hdm := Nat.div_add_mod b.position b.baseSize
  have hcap := hb.capacity_eq
  rw [List.length_drop, Nat.mul_sub]
  omega

theorem Valid.derefCur_eq (hb : b.Valid) (hpos : b.position < b.capacity) :
    b.derefCur = .ok (b.position / b.baseSize) := by
  rw [ByteArray.derefCur, hb.cur_eq, if_neg (by omega)]

/-- An overlay from the position on is one of the nodes from the cursor's on. -/
theorem Valid.content_split (hb : b.Valid) (hpos : b.position < b.capacity) (n : Nat)
    (src : Nat → UInt8) :
    overlay b.content b.position src n =
      bytesOf (b.root.take (b.position / b.baseSize)) ++
        overlay (bytesOf (b.root.drop (b.position / b.baseSize)))
          (b.position % b.baseSize) src n := by
  obtain ⟨hcontent, hposition⟩ := hb.cursor_split hpos
  calc overlay b.content b.position src n
      = overlay (bytesOf (b.root.take (b.position / b.baseSize)) ++
          bytesOf (b.root.drop (b.position / b.baseSize)))
          ((bytesOf (b.root.take (b.position / b.baseSize))).length +
            b.position % b.baseSize) src n := by
        rw [← hposition, ← hcontent]
    _ = _ := overlay_append_behind

/-- **The whole operation.**  With room for `n` bytes after the position, `write`
completes and overlays the content with the source bytes. -/
theorem writeRun_content (hb : b.Valid) (hroom : n ≤ b.getCapacity) (hn : 0 < n) :
    ∃ c reads, b.writeRun buf n = .ok (c, reads) ∧
      c.content = overlay b.content b.position
        (sourceAt buf b.baseSize (b.position % b.baseSize) 0 n) n ∧
      c.position = b.position + n ∧ c.size = max b.size (b.position + n) ∧
      ∃ q, writeLoop buf (b.position % b.baseSize) 0 n
        (b.root.drop (b.position / b.baseSize)) = .ok q ∧ reads = q.reads := by
  rw [getCapacity] at hroom
  have hpos : b.position < b.capacity := by omega
  have hadd : b.addCapacity n = b := by
    rw [addCapacity]
    rw [if_neg (by omega)]
    exact if_pos hroom
  have hcur := hb.derefCur_eq hpos
  have hlen := hb.room_ahead hpos (by omega : b.position + n ≤ b.capacity)
  obtain ⟨q, hq, hbytes⟩ :=
    @writeLoop_content buf _ _ 0 _ _ hb.mem_drop (Nat.mod_lt _ hb.base_pos) hn hlen
  refine ⟨{ b with
      root := b.root.take (b.position / b.baseSize) ++ q.nodes
      cur := b.nodePtr (b.position / b.baseSize + q.moved)
      position := b.position + n
      size := if b.size < b.position + n then b.position + n else b.size }, q.reads,
    ?_, ?_, rfl, ?_, q, hq, rfl⟩
  · rw [writeRun]
    rw [if_neg (by omega), hadd]
    simp only [hcur, hq, bind, Except.bind, pure, Except.pure]
  · show bytesOf (b.root.take (b.position / b.baseSize) ++ q.nodes) = _
    rw [hb.content_split hpos, bytesOf_append, hbytes]
  · show (if b.size < b.position + n then b.position + n else b.size) = _
    split <;> omega

/-- `write( buf, n )` did what it does on a flat array: the range that starts at
the position holds the `n` bytes of the buffer and every other byte is as before,
the position and the size follow, and no byte outside the buffer was read. -/
structure WritesFlat (b : ByteArray) (buf : Nat → UInt8) (n : Nat) (c : ByteArray)
    (reads : List (Nat × Nat)) : Prop where
  content_eq : c.content = overlay b.content b.position buf n
  position_eq : c.position = b.position + n
  size_eq : c.size = max b.size c.position
  reads_le : ∀ r ∈ reads, r.1 + r.2 ≤ n

/-- The bytes up to the end of the cursor's node. -/
def nodeRoom (b : ByteArray) : Nat := b.baseSize - b.position % b.baseSize

/-- The write is empty; or it stays in the cursor's node and starts at its
beginning; or it spans several nodes and its last chunk repeats the first bytes
of the buffer. -/
def LastChunkAgrees (b : ByteArray) (buf : Nat → UInt8) (n : Nat) : Prop :=
  n = 0 ∨ (n ≤ b.nodeRoom ∧ b.position % b.baseSize = 0) ∨
    (b.nodeRoom < n ∧ ∀ j, lead b.baseSize (b.position % b.baseSize) n ≤ j → j < n →
      buf (j - lead b.baseSize (b.position % b.baseSize) n) = buf j)

/-- **When `write` refines the flat array.** -/
theorem write_flat_iff (hb : b.Valid) (hroom : n ≤ b.getCapacity) :
    (∃ c reads, b.writeRun buf n = .ok (c, reads) ∧ WritesFlat b buf n c reads) ↔
      LastChunkAgrees b buf n := by
  rcases Nat.eq_zero_or_pos n with rfl | hn
  · refine iff_of_true ⟨b, [], rfl, ?_⟩ (Or.inl rfl)
    exact ⟨overlay_zero .. |>.symm, rfl, (Nat.max_eq_left hb.position_le).symm, by simp⟩
  have hnpos := Nat.mod_lt b.position hb.base_pos
  have hfits : b.position + n ≤ b.content.length := by
    rw [getCapacity] at hroom
    rw [content, length_bytesOf hb.node_size, ← hb.capacity_eq]
    omega
  obtain ⟨c, reads, hrun, hcontent, hposition, hsize, q, hq, hreads⟩ :=
    @writeRun_content b buf n hb hroom hn
  have hsource : c.content = overlay b.content b.position buf n ↔
      ∀ j < n, sourceAt buf b.baseSize (b.position % b.baseSize) 0 n j = buf j := by
    rw [hcontent]
    exact overlay_eq_iff hfits
  have hflat : (∃ c reads, b.writeRun buf n = .ok (c, reads) ∧ WritesFlat b buf n c reads) ↔
      (∀ j < n, sourceAt buf b.baseSize (b.position % b.baseSize) 0 n j = buf j) ∧
        ∀ r ∈ reads, r.1 + r.2 ≤ n := by
    constructor
    · rintro ⟨c', reads', hrun', hf⟩
      rw [hrun] at hrun'
      cases hrun'
      exact ⟨hsource.mp hf.content_eq, hf.reads_le⟩
    · rintro ⟨hbytes, hle⟩
      exact ⟨c, reads, hrun, hsource.mpr hbytes, hposition, by rw [hsize, hposition], hle⟩
  rw [hflat]
  rw [LastChunkAgrees, nodeRoom]
  rcases Nat.lt_or_ge (b.baseSize - b.position % b.baseSize) n with hlt | hge
  · -- several nodes: nothing outside the buffer is read, the last chunk decides
    have hle : ∀ r ∈ reads, r.1 + r.2 ≤ n := by
      rw [hreads]
      simpa using writeLoop_reads hb.mem_drop hnpos (Or.inr hlt) hq
    have hlead : lead b.baseSize (b.position % b.baseSize) n ≠ 0 := by
      rw [lead_of_gt hb.base_pos hlt]
      omega
    constructor
    · rintro ⟨hbytes, -⟩
      refine Or.inr (Or.inr ⟨hlt, fun j hj hjn => ?_⟩)
      have := hbytes j hjn
      rw [sourceAt] at this
      rwa [if_neg (by omega), if_neg hlead] at this
    · rintro (h | ⟨h, -⟩ | ⟨-, h⟩)
      · omega
      · omega
      · refine ⟨fun j hj => ?_, hle⟩
        rw [sourceAt]
        by_cases hjl : j < lead b.baseSize (b.position % b.baseSize) n
        · rw [if_pos hjl, Nat.zero_add]
        · rw [if_neg hjl, if_neg hlead]
          exact h j (by omega) hj
  · -- one node: the buffer is read from the node offset on
    have hone : reads = [(b.position % b.baseSize, n)] :=
      hreads.trans (writeLoop_reads_single hb.mem_drop hge hq)
    constructor
    · rintro ⟨-, hle⟩
      have hend : b.position % b.baseSize + n ≤ n :=
        hle (b.position % b.baseSize, n) (by simp [hone])
      exact Or.inr (Or.inl ⟨hge, by omega⟩)
    · rintro (h | ⟨-, h⟩ | ⟨h, -⟩)
      · omega
      · refine ⟨fun j _ => ?_, ?_⟩
        · rw [sourceAt]
          rw [lead_of_le hge, if_neg (by omega), if_pos rfl, h, Nat.zero_add]
        · rw [hone, h]
          simp
      · omega

end Write

/-- The bytes 0 to 3 fill the first node of a new array. -/
theorem write_flat_iff_first_node :
    ∃ c reads, (ByteArray.new 4).writeRun UInt8.ofNat 4 = .ok (c, reads) ∧
      WritesFlat (ByteArray.new 4) UInt8.ofNat 4 c reads := by
  refine (write_flat_iff (Valid.new (by decide)) (by decide)).mpr (Or.inr (Or.inl ?_))
  decide

/-- One byte written at position 1 of a node of four: the byte behind the buffer
is read and stored. -/
theorem write_reads_behind_buffer :
    ∃ b : ByteArray, b.Valid ∧ 1 ≤ b.getCapacity ∧
      ¬ ∃ c reads, b.writeRun (fun i => if i = 0 then 5 else 9) 1 = .ok (c, reads) ∧
        WritesFlat b (fun i => if i = 0 then 5 else 9) 1 c reads := by
  have hstart : (ByteArray.new 4).setPosition 1 =
      .ok { ByteArray.new 4 with position := 1, size := 1 } := rfl
  refine ⟨_, (Valid.new (by decide)).setPosition hstart, by decide, ?_⟩
  rintro ⟨c, reads, hrun, hflat⟩
  have hreads : reads = [(1, 1)] := by
    have h := congrArg (Except.map Prod.snd) hrun
    exact (Except.ok.inj h).symm
  have hend := hflat.reads_le (1, 1) (by rw [hreads]; exact List.mem_singleton.mpr rfl)
  exact absurd hend (by decide)

end ByteArray
end Sylar
