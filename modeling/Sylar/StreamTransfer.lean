import Sylar.ByteArrayScatter
import Sylar.FixSize

/-! # From one byte array to another

`Stream::writeFixSize` at one end of a connection and `Stream::readFixSize` at the other are two
loops that have only the bytes between them in common.  Each `sendmsg` takes some of the bytes it
is offered, each `recvmsg` returns some of those that have arrived, and the two sides take their
turns in any order.

The base sizes of the two arrays have nothing to do with each other: the one is cut into nodes by
`getReadBuffers`, the other by `getWriteBuffers`.

**`link_delivers`**: as long as the connection stands, no turn fails, the bytes that are received
and those in between are at any time those that were sent, in order; after at most twice as many
turns as there are bytes nothing is left to do, and then the range that was sent is in the
receiver, and nothing else of the receiver has changed. -/
namespace Sylar
namespace SocketStream
open Sylar.ByteArray Sylar.Stream Overlay Interleaving

/-! ## The code -/

/-- What a `read` finds: no connection, an error of `recvmsg`, or the bytes that it stores.  At the
end of the stream there are none. -/
inductive Arrival
  | unconnected
  | failed
  | bytes (d : List UInt8)
  deriving DecidableEq

/-- `SocketStream::read( ba, length )` -/
def read (b : ByteArray) (length : Nat) : Arrival → Except Fault (Int × ByteArray)
  | .unconnected => .ok (-1, b)
  | .failed => do
    let (_, _, b) ← b.getWriteBuffers length
    return (-1, b)
  | .bytes d => do
    let (_, iovs, b) ← b.getWriteBuffers length
    let b := { b with root := scatter b.root iovs d }
    if 0 < d.length then
      let b ← b.setPosition (b.position + d.length)
      return (d.length, b)
    else return (0, b)

/-- `Stream::readFixSize( ba, length )`, over what its calls of `read` find. -/
def readFixSize (b : ByteArray) (length : Nat) (arrivals : List Arrival) :
    Except Fault (Transfer ByteArray) :=
  loop read length b arrivals

/-- The two loops, and the bytes between them. -/
structure Link where
  sender : Transfer Sender
  wire : List UInt8
  receiver : Transfer ByteArray
  deriving DecidableEq

/-- Whose turn it is, and how many bytes its call moves. -/
inductive LinkTurn
  | send (k : Nat)
  | receive (k : Nat)
  deriving DecidableEq

/-- The turn is one that the connection allows: the loop is not over, and as many bytes are
offered, or have arrived and fit. -/
def LinkTurn.Allowed (s : Link) : LinkTurn → Prop
  | send k => s.sender.ret = none ∧ 1 ≤ k ∧ k ≤ (offered s.sender.state.ba s.sender.left).length
  | receive k => s.receiver.ret = none ∧ 1 ≤ k ∧ k ≤ s.wire.length ∧ k ≤ s.receiver.left

instance (s : Link) (a : LinkTurn) : Decidable (a.Allowed s) := by
  cases a <;> exact inferInstanceAs (Decidable (_ ∧ _))

/-- The turn. -/
def LinkTurn.run (n : Nat) (s : Link) : LinkTurn → Except Fault Link
  | send k => do
    let sender ← Stream.turn write n s.sender (some (k : Int))
    return { s with
      sender := sender
      wire := s.wire ++ (offered s.sender.state.ba s.sender.left).take k }
  | receive k => do
    let receiver ← Stream.turn read n s.receiver (.bytes (s.wire.take k))
    return { s with receiver := receiver, wire := s.wire.drop k }

/-- `n` bytes from `b` to `c`, in any order of the turns. -/
def link (b c : ByteArray) (n : Nat) : Machine Link LinkTurn where
  init s := s = ⟨Stream.start n { ba := b, calls := [] }, [], Stream.start n c⟩
  step s a := if a.Allowed s then (a.run n s).toOption else none

/-! ## A turn of the receiver -/

section Receiver
variable {c : ByteArray} {n : Nat} {src : Nat → UInt8} {t : Transfer ByteArray}

/-- What the receiver has behind any turn: the bytes up to the present position are those of the
sender, and there is room for the others. -/
structure Received (c : ByteArray) (n : Nat) (src : Nat → UInt8) (t : Transfer ByteArray) :
    Prop where
  valid : t.state.Valid
  left_le : t.left ≤ n
  position_eq : t.state.position = c.position + (n - t.left)
  size_eq : t.state.size = max c.size t.state.position
  room : t.left ≤ (t.state.addCapacity t.left).getCapacity
  content_eq : ∃ fresh, t.state.content =
    overlay (c.content ++ fresh) c.position src (n - t.left)
  ret_eq : t.ret = if t.left = 0 then some (intOf n) else none

theorem Received.start (hc : c.Valid) (hroom : c.CountsRight n) (src : Nat → UInt8) :
    Received c n src (Stream.start n c) where
  valid := hc
  left_le := Nat.le_refl n
  position_eq := by rw [Stream.start, Nat.sub_self, Nat.add_zero]
  size_eq := (Nat.max_eq_left hc.position_le).symm
  room := (enough_iff hc).mpr hroom
  content_eq := ⟨[], by rw [Stream.start, Nat.sub_self, overlay_zero, List.append_nil]⟩
  ret_eq := rfl

theorem setPosition_capacity {b e : ByteArray} {val : Nat} (h : b.setPosition val = .ok e) :
    e.capacity = b.capacity := by
  rw [ByteArray.setPosition] at h
  split at h
  · cases h
  · obtain ⟨i, -, h⟩ := bind_ok h
    obtain rfl := Except.ok.inj h
    rfl

/-- A `read` of some of the bytes that are left. -/
theorem read_eq {b : ByteArray} (hb : b.Valid) {length : Nat} (hpos : 1 ≤ length)
    (hroom : length ≤ (b.addCapacity length).getCapacity) {d : List UInt8} (hd : 1 ≤ d.length)
    (hle : d.length ≤ length) :
    ∃ e fresh, read b length (.bytes d) = .ok (d.length, e) ∧ e.Valid ∧
      e.content = overlay (b.content ++ fresh) b.position (fun j => d.getD j 0) d.length ∧
      e.position = b.position + d.length ∧ e.size = max b.size e.position ∧
      e.capacity = (b.addCapacity length).capacity := by
  obtain ⟨iovs, c, hrun, -, -, -, hstore⟩ := scatter_equals_write hb hpos
    (by rw [(hb.addCapacity length).bytesAhead_eq]; exact hroom)
  obtain ⟨e, fresh, hset, hcontent, hposition, hsize, hvalid⟩ := hstore d hle
  obtain ⟨iovs', hrun', -⟩ := hb.getWriteBuffers_eq hpos hroom
  rw [hrun] at hrun'
  obtain rfl : c = b.addCapacity length := congrArg (·.2.2) (Except.ok.inj hrun')
  refine ⟨e, fresh, ?_, hvalid, hcontent, hposition, hsize, (setPosition_capacity hset).trans rfl⟩
  have hplace : (b.addCapacity length).position = b.position :=
    (addCapacity_grown b length).position
  rw [← hplace] at hset
  simp only [read, hrun, bind, Except.bind, pure, Except.pure]
  rw [if_pos (Nat.lt_of_succ_le hd), hset]

/-- **One turn**: the bytes are behind those that came before. -/
theorem Received.turn (h : Received c n src t) (hint : n < 2 ^ 31) (hret : t.ret = none)
    {d : List UInt8} (hd : 1 ≤ d.length) (hle : d.length ≤ t.left)
    (hsrc : ∀ j < d.length, src (n - t.left + j) = d.getD j 0) :
    ∃ t', Stream.turn read n t (.bytes d) = .ok t' ∧ Received c n src t' ∧
      t'.left = t.left - d.length := by
  have hleft := h.left_le
  obtain ⟨e, fresh', hread, hvalid, hcontent, hposition, hsize, hcapacity⟩ :=
    read_eq h.valid (by omega : 1 ≤ t.left) h.room hd hle
  refine ⟨_, turn_moves hret (by omega) hd hle hread, ?_, rfl⟩
  have hroom := h.room
  have hgrown := addCapacity_grown t.state t.left
  have hmoved : n - (t.left - d.length) = n - t.left + d.length := by omega
  rw [getCapacity, hgrown.position] at hroom
  constructor
  case valid => exact hvalid
  case left_le => exact (Nat.sub_le _ _).trans hleft
  case position_eq =>
    show e.position = c.position + (n - (t.left - d.length))
    rw [hposition, h.position_eq, hmoved, Nat.add_assoc]
  case size_eq =>
    show e.size = max c.size e.position
    rw [hsize, h.size_eq, hposition]
    omega
  case room =>
    show t.left - d.length ≤ (e.addCapacity (t.left - d.length)).getCapacity
    have henough : t.left - d.length ≤ e.getCapacity := by
      rw [getCapacity, hcapacity, hposition]
      omega
    rw [addCapacity_of_le henough]
    exact henough
  case content_eq =>
    obtain ⟨fresh, hbefore⟩ := h.content_eq
    refine ⟨fresh ++ fresh', ?_⟩
    have hinside : c.position + (n - t.left) ≤ (c.content ++ fresh).length := by
      have hlength := congrArg List.length hbefore
      rw [length_overlay] at hlength
      rw [← hlength, ← h.position_eq, content, length_bytesOf h.valid.node_size,
        ← h.valid.capacity_eq]
      exact h.valid.position_le.trans h.valid.size_le
    have hlater : overlay (t.state.content ++ fresh') t.state.position (fun j => d.getD j 0)
        d.length = overlay (t.state.content ++ fresh') t.state.position
          (fun j => src (n - t.left + j)) d.length :=
      overlay_congr fun j hj => (hsrc j hj).symm
    show e.content = overlay (c.content ++ (fresh ++ fresh')) c.position src
      (n - (t.left - d.length))
    rw [hcontent, hlater, hbefore, h.position_eq, hmoved, ← List.append_assoc,
      ← overlay_append_left hinside]
    exact overlay_overlay
  case ret_eq => rfl

end Receiver

/-! ## Both sides -/

section Both
variable {b c : ByteArray} {n : Nat}

/-- The bytes ahead of the sender, one by one. -/
def aheadAt (b : ByteArray) (n j : Nat) : UInt8 := (b.ahead n).getD j 0

/-- What holds between two turns. -/
structure InTransit (b c : ByteArray) (n : Nat) (s : Link) : Prop where
  sent : Sent b n s.sender
  received : Received c n (aheadAt b n) s.receiver
  order : b.ahead (n - s.receiver.left) ++ s.wire = b.ahead (n - s.sender.left)

theorem length_ahead (hb : b.Valid) {m : Nat} (hm : m ≤ b.getReadSize) :
    (b.ahead m).length = m := by
  have hsize := hb.size_le
  rw [getReadSize] at hm
  rw [ahead, length_window, content, length_bytesOf hb.node_size, ← hb.capacity_eq]
  omega

/-- The sender's turn, with what is left for it. -/
theorem Sent.moves {t : Transfer Sender} (h : Sent b n t) (hle : n ≤ b.getReadSize)
    (hint : n < 2 ^ 31) (hret : t.ret = none) {k : Nat} (hpos : 1 ≤ k) (hk : k ≤ t.left) :
    ∃ t', Stream.turn write n t (some (k : Int)) = .ok t' ∧ Sent b n t' ∧
      t'.left = t.left - k := by
  have hleft := h.left_le
  obtain ⟨hroom, -⟩ := h.offered_eq hle
  have hoffered : (offered t.state.ba t.left).length = t.left := by
    rw [Valid.offered_eq h.valid hroom, length_ahead h.valid hroom]
  have hvalue : (1 : Int) ≤ k ∧ (k : Int) ≤ (offered t.state.ba t.left).length := by omega
  obtain ⟨t', hturn, hsent, -⟩ := h.turn hle hint hret hvalue.1 hvalue.2
  obtain ⟨ba, hwrite, -⟩ := write_eq h.valid hroom hpos hk
  obtain rfl := Except.ok.inj (hturn.symm.trans (turn_moves hret (by omega) hpos hk hwrite))
  exact ⟨_, hturn, hsent, rfl⟩

variable {s : Link}

theorem InTransit.offered_length (h : InTransit b c n s) (hle : n ≤ b.getReadSize) :
    (offered s.sender.state.ba s.sender.left).length = s.sender.left := by
  obtain ⟨hroom, -⟩ := h.sent.offered_eq hle
  rw [Valid.offered_eq h.sent.valid hroom, length_ahead h.sent.valid hroom]

/-- As many bytes are between the two as the one has left more than the other. -/
theorem InTransit.wire_length (h : InTransit b c n s) (hb : b.Valid) (hle : n ≤ b.getReadSize) :
    s.wire.length + s.sender.left = s.receiver.left := by
  have hlength := congrArg List.length h.order
  have hsent := h.sent.left_le
  have hreceived := h.received.left_le
  rw [List.length_append, length_ahead hb (by omega), length_ahead hb (by omega)] at hlength
  omega

/-- **Every turn that is allowed is taken**, and keeps the order. -/
theorem InTransit.turn (h : InTransit b c n s) (hb : b.Valid) (hle : n ≤ b.getReadSize)
    (hint : n < 2 ^ 31) {a : LinkTurn} (ha : a.Allowed s) :
    ∃ s', a.run n s = .ok s' ∧ InTransit b c n s' ∧
      s'.sender.left + s'.receiver.left < s.sender.left + s.receiver.left := by
  have hsentLe := h.sent.left_le
  have hreceivedLe := h.received.left_le
  cases a with
  | send k =>
    obtain ⟨hret, hpos, hk⟩ := ha
    rw [h.offered_length hle] at hk
    obtain ⟨t, hturn, hsent, hleft⟩ := h.sent.moves hle hint hret hpos hk
    refine ⟨{ s with
      sender := t
      wire := s.wire ++ (offered s.sender.state.ba s.sender.left).take k }, by
      simp only [LinkTurn.run, hturn, bind, Except.bind, pure, Except.pure], ?_, ?_⟩
    · refine ⟨hsent, h.received, ?_⟩
      obtain ⟨hroom, hahead⟩ := h.sent.offered_eq hle
      have hmoved : n - t.left = n - s.sender.left + k := by omega
      show b.ahead (n - s.receiver.left) ++ (s.wire ++ _) = b.ahead (n - t.left)
      rw [← List.append_assoc, h.order, hmoved, ahead_add, Valid.offered_eq h.sent.valid hroom,
        hahead, take_window _ hk]
    · show t.left + s.receiver.left < _
      omega
  | receive k =>
    obtain ⟨hret, hpos, hk, hfit⟩ := ha
    have hd : (s.wire.take k).length = k := by rw [List.length_take, Nat.min_eq_left hk]
    have hsrc : ∀ j < (s.wire.take k).length,
        aheadAt b n (n - s.receiver.left + j) = (s.wire.take k).getD j 0 := by
      intro j hj
      rw [hd] at hj
      have hwire := h.wire_length hb hle
      -- the bytes ahead are those received, those in between and those not yet sent
      have hsplit : n = n - s.sender.left + s.sender.left := by omega
      have hall := ahead_add b (n - s.sender.left) s.sender.left
      rw [← hsplit, ← h.order, List.append_assoc] at hall
      have hlength : (b.ahead (n - s.receiver.left)).length = n - s.receiver.left :=
        length_ahead hb (by omega)
      rw [aheadAt, hall, List.getD_eq_getElem?_getD, List.getD_eq_getElem?_getD,
        List.getElem?_append_right (by omega), hlength, Nat.add_sub_cancel_left,
        List.getElem?_append_left (by omega), List.getElem?_take_of_lt hj]
    obtain ⟨t, hturn, hreceived, hleft⟩ := h.received.turn hint hret (d := s.wire.take k)
      (by omega) (by omega) hsrc
    refine ⟨{ s with receiver := t, wire := s.wire.drop k }, by
      simp only [LinkTurn.run, hturn, bind, Except.bind, pure, Except.pure], ?_, ?_⟩
    · refine ⟨h.sent, hreceived, ?_⟩
      have hwire := h.wire_length hb hle
      have hmoved : n - t.left = n - s.receiver.left + k := by omega
      have hlength : (b.ahead (n - s.receiver.left)).length = n - s.receiver.left :=
        length_ahead hb (by omega)
      -- the first `k` bytes in between are the next ones
      have hnext : b.ahead (n - t.left) = b.ahead (n - s.receiver.left) ++ s.wire.take k := by
        have hupto : n - s.sender.left = n - t.left + (s.wire.length - k) := by omega
        have hcut := ahead_add b (n - t.left) (s.wire.length - k)
        rw [← hupto, ← h.order] at hcut
        have htake : b.ahead (n - t.left) =
            (b.ahead (n - s.receiver.left) ++ s.wire).take (n - t.left) := by
          rw [hcut, List.take_left' (length_ahead hb (by omega))]
        have hcount : n - t.left = (b.ahead (n - s.receiver.left)).length + k := by omega
        rw [htake, hcount, List.take_length_add_append]
      show b.ahead (n - t.left) ++ s.wire.drop k = _
      rw [hnext, List.append_assoc, List.take_append_drop]
      exact h.order
    · show s.sender.left + t.left < _
      omega

/-! ## Whole runs -/

/-- The range of the sender is in the receiver, which is otherwise as it was; read from where it
was put, it is what the sender had. -/
structure Arrived (b c : ByteArray) (n : Nat) (s : Link) : Prop where
  sent : s.sender.ret = some (n : Int)
  received : s.receiver.ret = some (n : Int)
  wire : s.wire = []
  content : ∃ fresh, s.receiver.state.content =
    overlay (c.content ++ fresh) c.position (aheadAt b n) n
  position : s.receiver.state.position = c.position + n
  size : s.receiver.state.size = max c.size (c.position + n)
  readBack : ∃ d e, s.receiver.state.setPosition c.position = .ok d ∧
    d.read n = .ok (b.ahead n, e) ∧ e.position = c.position + n

/-- The bytes ahead, one by one. -/
theorem map_aheadAt (hb : b.Valid) (hle : n ≤ b.getReadSize) :
    (List.range n).map (aheadAt b n) = b.ahead n := by
  have hlength := length_ahead hb hle
  refine List.ext_getElem? fun j => ?_
  rw [List.getElem?_map]
  by_cases hj : j < n
  · rw [List.getElem?_range hj, Option.map_some, aheadAt, List.getD_eq_getElem?_getD,
      List.getElem?_eq_getElem (by omega), Option.getD_some]
  · rw [List.getElem?_eq_none (by rw [List.length_range]; omega), Option.map_none,
      List.getElem?_eq_none (by omega)]

/-- With nothing left on either side everything has arrived. -/
theorem InTransit.arrived (h : InTransit b c n s) (hb : b.Valid) (hn : 1 ≤ n)
    (hle : n ≤ b.getReadSize) (hint : n < 2 ^ 31) (hsent : s.sender.left = 0)
    (hreceived : s.receiver.left = 0) : Arrived b c n s := by
  have hvalid := h.received.valid
  have hvalue : intOf n = (n : Int) := FixSize.intOf_eq_iff.mpr hint
  have hsentRet := h.sent.ret_eq
  have hreceivedRet := h.received.ret_eq
  have hposition := h.received.position_eq
  have hsize := h.received.size_eq
  obtain ⟨fresh, hcontent⟩ := h.received.content_eq
  rw [hsent, if_pos rfl, hvalue] at hsentRet
  rw [hreceived, if_pos rfl, hvalue] at hreceivedRet
  rw [hreceived, Nat.sub_zero] at hposition hcontent
  have hfits := hvalid.position_le.trans hvalid.size_le
  have hset := hvalid.setPosition_eq (by omega : c.position ≤ s.receiver.state.capacity)
  have hd := hvalid.setPosition hset
  rw [if_neg (by omega)] at hset hd
  have hread := hd.read_eq hn (by rw [getReadSize]; dsimp only; omega)
  refine ⟨hsentRet, hreceivedRet, ?_, ⟨fresh, hcontent⟩, hposition, by rw [hsize, hposition],
    _, _, hset, hread.trans (congrArg (fun x => Except.ok (x, _)) ?_), rfl⟩
  · have hwire := h.wire_length hb hle
    exact List.eq_nil_of_length_eq_zero (by omega)
  · have hlength := congrArg List.length hcontent
    rw [length_overlay, content, length_bytesOf hvalid.node_size, ← hvalid.capacity_eq] at hlength
    show window s.receiver.state.content c.position n = b.ahead n
    rw [hcontent, window_overlay (by omega), map_aheadAt hb hle]

variable (b c n) in
/-- The two loops are `writeFixSize` and `readFixSize`, over what their calls found. -/
structure Loops (s : Link) : Prop where
  sender : ∃ outcomes, writeFixSize b n outcomes = .ok s.sender
  receiver : ∃ arrivals, readFixSize c n arrivals = .ok s.receiver

theorem Loops.turn (h : Loops b c n s) {a : LinkTurn} {s' : Link} (hturn : a.run n s = .ok s') :
    Loops b c n s' := by
  obtain ⟨⟨outcomes, hsender⟩, ⟨arrivals, hreceiver⟩⟩ := h
  cases a with
  | send k =>
    obtain ⟨t, ht, hturn⟩ := bind_ok hturn
    obtain rfl := Except.ok.inj hturn
    exact ⟨⟨outcomes ++ [some (k : Int)], (loop_snoc hsender _).trans ht⟩, ⟨arrivals, hreceiver⟩⟩
  | receive k =>
    obtain ⟨t, ht, hturn⟩ := bind_ok hturn
    obtain rfl := Except.ok.inj hturn
    exact ⟨⟨outcomes, hsender⟩, ⟨arrivals ++ [_], (loop_snoc hreceiver _).trans ht⟩⟩

theorem link_step {a : LinkTurn} {s' : Link} (h : (link b c n).step s a = some s') :
    a.Allowed s ∧ a.run n s = .ok s' := by
  have h : (if a.Allowed s then (a.run n s).toOption else none) = some s' := h
  split at h
  · exact ⟨by assumption, toOption_eq_some.mp h⟩
  · cases h

/-- What holds between two turns, and how many turns there have been. -/
theorem link_transit (hb : b.Valid) (hc : c.Valid) (hle : n ≤ b.getReadSize) (hint : n < 2 ^ 31)
    (hroom : c.CountsRight n) {tr : List (Link × LinkTurn)} (hrun : (link b c n).Run tr s) :
    InTransit b c n s ∧ Loops b c n s ∧ tr.length + s.sender.left + s.receiver.left ≤ 2 * n := by
  induction hrun with
  | init h =>
    obtain rfl := h
    refine ⟨⟨Sent.start hb, Received.start hc hroom _, List.append_nil _⟩,
      ⟨⟨[], rfl⟩, ⟨[], rfl⟩⟩, ?_⟩
    show 0 + n + n ≤ 2 * n
    omega
  | step _ hst ih =>
    obtain ⟨htransit, hloops, hcount⟩ := ih
    obtain ⟨hallowed, hturn⟩ := link_step hst
    obtain ⟨s', hturn', htransit', hless⟩ := htransit.turn hb hle hint hallowed
    obtain rfl := Except.ok.inj (hturn.symm.trans hturn')
    refine ⟨htransit', hloops.turn hturn, ?_⟩
    rw [List.length_append, List.length_singleton]
    omega

/-- As long as something is left, it is someone's turn. -/
theorem InTransit.over (h : InTransit b c n s) (hb : b.Valid) (hle : n ≤ b.getReadSize)
    (hstuck : ∀ a : LinkTurn, ¬ a.Allowed s) : s.sender.left = 0 ∧ s.receiver.left = 0 := by
  have hsent : s.sender.left = 0 := by
    by_contra hleft
    refine hstuck (.send 1) ⟨?_, Nat.le_refl 1, ?_⟩
    · rw [h.sent.ret_eq, if_neg hleft]
    · rw [h.offered_length hle]
      omega
  refine ⟨hsent, ?_⟩
  have hwire := h.wire_length hb hle
  by_contra hleft
  refine hstuck (.receive 1) ⟨?_, Nat.le_refl 1, by omega, by omega⟩
  rw [h.received.ret_eq, if_neg hleft]

/-- **A byte array is transferred**, whatever the order of the turns and however many bytes each of
them moves. -/
theorem link_delivers (hb : b.Valid) (hc : c.Valid) (hn : 1 ≤ n) (hle : n ≤ b.getReadSize)
    (hint : n < 2 ^ 31) (hroom : c.CountsRight n) {tr : List (Link × LinkTurn)}
    (hrun : (link b c n).Run tr s) :
    (∀ a : LinkTurn, a.Allowed s → ∃ s', a.run n s = .ok s') ∧ Loops b c n s ∧
      b.ahead (n - s.receiver.left) ++ s.wire = b.ahead (n - s.sender.left) ∧
      (∃ fresh, s.receiver.state.content =
        overlay (c.content ++ fresh) c.position (aheadAt b n) (n - s.receiver.left)) ∧
      tr.length ≤ 2 * n ∧ ((∀ a : LinkTurn, ¬ a.Allowed s) → Arrived b c n s) := by
  obtain ⟨htransit, hloops, hcount⟩ := link_transit hb hc hle hint hroom hrun
  refine ⟨fun a ha => ?_, hloops, htransit.order, htransit.received.content_eq, by omega,
    fun hstuck => ?_⟩
  · obtain ⟨s', hturn, -⟩ := htransit.turn hb hle hint ha
    exact ⟨s', hturn⟩
  · obtain ⟨hsent, hreceived⟩ := htransit.over hb hle hstuck
    exact htransit.arrived hb hn hle hint hsent hreceived

end Both

/-- Three bytes from nodes of two to nodes of four, in four turns. -/
theorem link_delivers_three :
    ∃ tr s, (link five (ByteArray.new 4) 3).Run tr s ∧ Arrived five (ByteArray.new 4) 3 s := by
  obtain ⟨s, hrun, hdone⟩ := Machine.Run.of_exec_any (M := link five (ByteArray.new 4) 3) rfl
    [.send 2, .receive 1, .send 1, .receive 2]
    (fun s => s.sender.ret.isSome && s.receiver.ret.isSome) (by decide +kernel)
  obtain ⟨hsent, hreceived⟩ := Bool.and_eq_true_iff.mp hdone
  have hdelivers := link_delivers five_valid (Valid.new (by decide)) (by decide) (by decide)
    (by decide) (Or.inr (Or.inl (by decide))) hrun
  refine ⟨_, s, hrun, hdelivers.2.2.2.2.2 fun a ha => ?_⟩
  cases a with
  | send k => rw [ha.1] at hsent; cases hsent
  | receive k => rw [ha.1] at hreceived; cases hreceived

end SocketStream
end Sylar
