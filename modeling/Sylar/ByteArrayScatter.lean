import Sylar.ByteArrayCapacity

/-! # Receiving into the byte array

`SocketStream::read` does not call `write`.  It has `getWriteBuffers` cut the next `n` bytes
of the chain into `iovec`s, the kernel stores what arrives in the places that they name
(`scatter`), and `setPosition` moves the cursor over it.

The cells of an `iovec` have numbers in the flat view of the chain (`Iovec.positions`).  The
loop that cuts the range numbers them through from the position on, and storing into `iovec`s
that are numbered through is an overlay of the flat view (`scatter_overlay`).
**`scatter_equals_write`** puts the two together. -/
namespace Sylar
open Interleaving Overlay

/-- The numbers of the cells of an `iovec`, counted from the beginning of the chain. -/
def Iovec.positions (base : Nat) (v : Iovec) : List Nat :=
  List.range' (base * v.node + v.off) v.len

/-- No cell belongs to both. -/
def Iovec.Disjoint (v w : Iovec) : Prop :=
  v.node = w.node → v.off + v.len ≤ w.off ∨ w.off + w.len ≤ v.off

/-- `recvmsg` with these `iovec`s: the bytes that arrive fill one after the other. -/
def scatter : List Node → List Iovec → List UInt8 → List Node
  | nodes, [], _ => nodes
  | nodes, v :: iovs, d =>
    scatter
      (nodes.modify v.node fun nd => nd.store v.off (fun j => d.getD j 0) (min v.len d.length))
      iovs (d.drop v.len)

namespace ByteArray

/-! ## The loop that cuts the range -/

theorem iovecLoop_nodes {npos len i : Nat} {chain : List Node} {iovs : List Iovec}
    (h : iovecLoop npos len i chain = .ok iovs) :
    (∀ v ∈ iovs, i ≤ v.node) ∧ iovs.Pairwise Iovec.Disjoint := by
  induction chain generalizing npos len i iovs with
  | nil => cases h
  | cons nd rest ih =>
    rw [iovecLoop] at h
    by_cases hlast : len ≤ nd.size - npos
    · rw [if_pos hlast] at h
      obtain rfl := Except.ok.inj h
      refine ⟨fun v hv => ?_, List.pairwise_singleton ..⟩
      obtain rfl := List.mem_singleton.mp hv
      exact Nat.le_refl i
    · rw [if_neg hlast] at h
      obtain ⟨tail, htail, h⟩ := bind_ok h
      obtain rfl := Except.ok.inj h
      obtain ⟨hge, hpair⟩ := ih htail
      refine ⟨fun v hv => ?_, List.pairwise_cons.mpr ⟨fun v hv hnode => ?_, hpair⟩⟩
      · rcases List.mem_cons.mp hv with rfl | hv
        · exact Nat.le_refl i
        · exact Nat.le_of_succ_le (hge v hv)
      · have hnext : i + 1 ≤ v.node := hge v hv
        have hsame : i = v.node := hnode
        omega

/-- The cells are numbered through. -/
theorem iovecLoop_positions {base npos len i : Nat} {chain : List Node} {iovs : List Iovec}
    (hnodes : ∀ nd ∈ chain, nd.size = base) (hnpos : npos < base)
    (h : iovecLoop npos len i chain = .ok iovs) :
    iovs.flatMap (Iovec.positions base) = List.range' (base * i + npos) len := by
  induction chain generalizing npos len i iovs with
  | nil => cases h
  | cons nd rest ih =>
    have hnd : nd.size = base := hnodes nd (List.mem_cons_self ..)
    have hrest : ∀ nd ∈ rest, nd.size = base := fun x hx => hnodes x (List.mem_cons_of_mem _ hx)
    rw [iovecLoop, hnd] at h
    by_cases hlast : len ≤ base - npos
    · rw [if_pos hlast] at h
      obtain rfl := Except.ok.inj h
      exact List.flatMap_singleton ..
    · rw [if_neg hlast] at h
      obtain ⟨tail, htail, h⟩ := bind_ok h
      obtain rfl := Except.ok.inj h
      have hnext : base * (i + 1) + 0 = base * i + npos + 1 * (base - npos) := by
        rw [Nat.mul_succ]
        omega
      have hlen : base - npos + (len - (base - npos)) = len := by omega
      rw [List.flatMap_cons, ih hrest (by omega) htail, hnext]
      show List.range' (base * i + npos) (base - npos) ++ _ = _
      rw [List.range'_append, hlen]

/-! ## Storing what arrives -/

/-- Storing into a node is an overlay of the chain. -/
theorem bytesOf_modify {base i off n : Nat} {nodes : List Node} {nd : Node}
    {src : Nat → UInt8} (hnodes : ∀ nd ∈ nodes, nd.size = base) (hget : nodes[i]? = some nd)
    (hfit : off + n ≤ base) :
    bytesOf (nodes.modify i fun nd => nd.store off src n) =
      overlay (bytesOf nodes) (base * i + off) src n := by
  obtain ⟨hi, hnd⟩ := List.getElem?_eq_some_iff.mp hget
  have hlen : (bytesOf (nodes.take i)).length = base * i := by
    rw [length_bytesOf fun nd hnd => hnodes nd (List.mem_of_mem_take hnd), List.length_take,
      Nat.min_eq_left (Nat.le_of_lt hi)]
  have hptr : nd.ptr.length = base := by
    rw [nd.length_ptr, ← hnd]
    exact hnodes _ (List.getElem_mem hi)
  have hsplit : nodes = nodes.take i ++ nd :: nodes.drop (i + 1) := by
    rw [← hnd, List.getElem_cons_drop, List.take_append_drop]
  have hbytes : bytesOf nodes =
      bytesOf (nodes.take i) ++ (nd.ptr ++ bytesOf (nodes.drop (i + 1))) := by
    rw [← bytesOf_cons, ← bytesOf_append, ← hsplit]
  rw [List.modify_eq_take_cons_drop hi, bytesOf_append, bytesOf_cons, hnd, hbytes, ← hlen,
    overlay_append_behind, overlay_append_left (by omega)]
  rfl

section Stored
variable {base i off n : Nat} {nodes : List Node} {src : Nat → UInt8}

theorem modify_nodes (hnodes : ∀ nd ∈ nodes, nd.size = base) :
    ∀ nd ∈ nodes.modify i fun nd => nd.store off src n, nd.size = base := by
  intro nd hnd
  obtain ⟨j, hj, rfl⟩ := List.mem_iff_getElem.mp hnd
  have hlt : j < nodes.length := by rwa [List.length_modify] at hj
  rw [List.getElem_modify]
  split
  · exact hnodes nodes[j] (List.getElem_mem _)
  · exact hnodes nodes[j] (List.getElem_mem _)

theorem Within.modify {v : Iovec} (h : Within nodes v) :
    Within (nodes.modify i fun nd => nd.store off src n) v := by
  obtain ⟨nd, hget, hlen, hfit⟩ := h
  rw [Within, List.getElem?_modify, hget]
  by_cases hi : i = v.node
  · exact ⟨nd.store off src n, by simp [hi], hlen, hfit⟩
  · exact ⟨nd, by simp [hi], hlen, hfit⟩

end Stored

/-- What `scatter` keeps of the chain. -/
theorem scatter_nodes {base : Nat} {nodes : List Node} {iovs : List Iovec} {d : List UInt8}
    (hnodes : ∀ nd ∈ nodes, nd.size = base) :
    (scatter nodes iovs d).length = nodes.length ∧
      ∀ nd ∈ scatter nodes iovs d, nd.size = base := by
  induction iovs generalizing nodes d with
  | nil => exact ⟨rfl, hnodes⟩
  | cons v iovs ih =>
    have hstored := @modify_nodes base v.node v.off (min v.len d.length) nodes
      (fun j => d.getD j 0) hnodes
    obtain ⟨hlen, hsize⟩ := ih (d := d.drop v.len) hstored
    rw [List.length_modify] at hlen
    exact ⟨hlen, hsize⟩

/-- The first piece of a range that is numbered through, and the rest. -/
theorem positions_cons {base start n : Nat} {v : Iovec} {rest : List Nat} (hlen : 0 < v.len)
    (h : v.positions base ++ rest = List.range' start n) :
    v.len ≤ n ∧ base * v.node + v.off = start ∧
      rest = List.range' (start + v.len) (n - v.len) := by
  have hn := congrArg List.length h
  rw [List.length_append, Iovec.positions, List.length_range', List.length_range'] at hn
  have hle : v.len + (n - v.len) = n := by omega
  have hcut : List.range' start v.len ++ List.range' (start + v.len) (n - v.len) =
      List.range' start n := by
    rw [← hle, ← List.range'_append, Nat.one_mul, hle]
  obtain ⟨hfirst, hrest⟩ := List.append_inj (h.trans hcut.symm)
    (by rw [Iovec.positions, List.length_range', List.length_range'])
  refine ⟨by omega, ?_, hrest⟩
  obtain ⟨k, hk⟩ := Nat.exists_eq_succ_of_ne_zero (Nat.ne_of_gt hlen)
  rw [Iovec.positions, hk, List.range'_succ, List.range'_succ] at hfirst
  exact (List.cons.inj hfirst).1

/-- **Storing into `iovec`s that are numbered through.** -/
theorem scatter_overlay {base start n : Nat} {nodes : List Node} {iovs : List Iovec}
    {d : List UInt8} (hnodes : ∀ nd ∈ nodes, nd.size = base)
    (hwithin : ∀ v ∈ iovs, Within nodes v)
    (hpositions : iovs.flatMap (Iovec.positions base) = List.range' start n)
    (hd : d.length ≤ n) :
    bytesOf (scatter nodes iovs d) =
      overlay (bytesOf nodes) start (fun j => d.getD j 0) d.length := by
  induction iovs generalizing nodes d start n with
  | nil =>
    have hn : n = 0 := by simpa using congrArg List.length hpositions.symm
    have hzero : d.length = 0 := by omega
    rw [hzero, overlay_zero]
    rfl
  | cons v iovs ih =>
    obtain ⟨nd, hget, hlen, hfit⟩ := hwithin v (List.mem_cons_self ..)
    rw [hnodes nd (List.mem_of_getElem? hget)] at hfit
    rw [List.flatMap_cons] at hpositions
    obtain ⟨hle, hstart, hrest⟩ := positions_cons hlen hpositions
    have hbytes := @bytesOf_modify base v.node v.off (min v.len d.length) nodes nd
      (fun j => d.getD j 0) hnodes hget (by omega)
    have hstored := @modify_nodes base v.node v.off (min v.len d.length) nodes
      (fun j => d.getD j 0) hnodes
    have htail := ih (d := d.drop v.len) hstored
      (fun w hw => (hwithin w (List.mem_cons_of_mem _ hw)).modify) hrest
      (by rw [List.length_drop]; omega)
    rw [scatter, htail, hbytes, hstart, List.length_drop]
    by_cases hmore : v.len < d.length
    · -- the iovec is filled, and the rest of the bytes goes into the others
      have hsum : v.len + (d.length - v.len) = d.length := by omega
      have hsrc : (fun j => (d.drop v.len).getD j 0) = fun j => d.getD (v.len + j) 0 := by
        funext j
        rw [List.getD_eq_getElem?_getD, List.getD_eq_getElem?_getD, List.getElem?_drop]
      rw [Nat.min_eq_left (Nat.le_of_lt hmore), hsrc, ← hsum]
      rw [Nat.add_sub_cancel_left]
      exact overlay_overlay
    · have hnone : d.length - v.len = 0 := by omega
      rw [hnone, overlay_zero, Nat.min_eq_right (Nat.not_lt.mp hmore)]

/-! ## Receiving -/

/-- **A received range is a written one.**  With room for `n` bytes behind `addCapacity`, the
`iovec`s of `getWriteBuffers` stay in their nodes, do not overlap, and are the positions from
the cursor on in order; and when `d` has been stored through them, `setPosition` behind it
leaves the content overlaid with `d`, the size and a valid cursor. -/
theorem scatter_equals_write {b : ByteArray} (hb : b.Valid) {n : Nat} (hn : 1 ≤ n)
    (hroom : n ≤ (b.addCapacity n).bytesAhead) :
    ∃ iovs c, b.getWriteBuffers n = .ok (n, iovs, c) ∧
      (∀ v ∈ iovs, Within c.root v) ∧ iovs.Pairwise Iovec.Disjoint ∧
      iovs.flatMap (Iovec.positions c.baseSize) = List.range' b.position n ∧
      ∀ d : List UInt8, d.length ≤ n →
        ∃ e fresh, { c with root := scatter c.root iovs d }.setPosition (b.position + d.length) =
            .ok e ∧
          e.content =
            overlay (b.content ++ fresh) b.position (fun j => d.getD j 0) d.length ∧
          e.position = b.position + d.length ∧ e.size = max b.size e.position ∧ e.Valid := by
  have hc := hb.addCapacity n
  have hgrown := addCapacity_grown b n
  rw [hc.bytesAhead_eq] at hroom
  obtain ⟨iovs, hrun, hloop⟩ := hb.getWriteBuffers_eq hn hroom
  generalize b.addCapacity n = c at hc hgrown hroom hrun hloop
  obtain ⟨fresh, hfresh⟩ := hgrown.content
  rw [getCapacity] at hroom
  have hcap : c.position < c.capacity := by omega
  obtain ⟨iovs', hloop', hwithin, -⟩ := iovecLoop_window rfl hc.mem_drop
    (Nat.mod_lt _ hc.base_pos) hn (hc.room_ahead hcap (by omega))
  obtain rfl := Except.ok.inj (hloop.symm.trans hloop')
  have hpositions := iovecLoop_positions hc.mem_drop (Nat.mod_lt _ hc.base_pos) hloop
  rw [Nat.div_add_mod, hgrown.position] at hpositions
  refine ⟨iovs, c, hrun, hwithin, (iovecLoop_nodes hloop).2, hpositions, fun d hd => ?_⟩
  obtain ⟨hlength, hsizes⟩ := @scatter_nodes c.baseSize c.root iovs d hc.node_size
  have hcontent := scatter_overlay hc.node_size hwithin hpositions hd
  have hvalid : { c with root := scatter c.root iovs d }.Valid := by
    refine ⟨hc.base_pos, ?_, hsizes, ?_, hc.position_le, hc.size_le, hc.cur_eq⟩
    · intro hnil
      have hne := List.length_pos_of_ne_nil hc.root_ne
      have hzero : (scatter c.root iovs d).length = 0 := congrArg List.length hnil
      omega
    · show c.capacity = c.baseSize * (scatter c.root iovs d).length
      rw [hlength]
      exact hc.capacity_eq
  have hset := hvalid.setPosition_eq
    (by rw [hgrown.position] at hroom hcap; omega : b.position + d.length ≤ c.capacity)
  refine ⟨_, fresh, hset, ?_, rfl, ?_, hvalid.setPosition hset⟩
  · rw [← hfresh]
    exact hcontent
  · show (if c.size < b.position + d.length then b.position + d.length else c.size) = _
    rw [hgrown.size]
    show _ = max b.size (b.position + d.length)
    split <;> omega

/-- Seven bytes behind the third of a node of four, where `addCapacity` counts right. -/
theorem scatter_equals_write_seven :
    ∃ iovs c, ByteArray.getWriteBuffers { ByteArray.new 4 with position := 3, size := 3 } 7 =
        .ok (7, iovs, c) ∧
      iovs.flatMap (Iovec.positions c.baseSize) = List.range' 3 7 := by
  have hstart : (ByteArray.new 4).setPosition 3 =
      .ok { ByteArray.new 4 with position := 3, size := 3 } := rfl
  obtain ⟨iovs, c, hrun, -, -, hpositions, -⟩ := scatter_equals_write
    ((Valid.new (by decide)).setPosition hstart) (n := 7) (by decide) (by decide)
  exact ⟨iovs, c, hrun, hpositions⟩

end ByteArray
end Sylar
