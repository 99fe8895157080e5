import Sylar.ByteArrayRead

/-! # `Stream::writeFixSize` over a socket that accepts part of what it is offered

`SocketStream::write` offers the socket the next bytes of a byte array, as `iovec`s, and moves
the position over those that `sendmsg` says it took.  `Stream::writeFixSize` calls it until
nothing is left to send.

What the calls find is a list: `none` where the socket is not connected, and the value that
`sendmsg` returns elsewhere.  `writeFixSize` is the fold of one turn of its loop over such a
list, so that it is followed also where it does not return: `len` is a `size_t`, a return value
of -1 is never `<= 0` there.

Behind every turn the position tells what was accepted (`Sent`).  **`writeFixSize_sends`**: with
results that are neither zero nor negative the loop returns, and no byte is skipped or sent
twice, wherever the socket cuts. -/
namespace Sylar

/-! ## The loop of `readFixSize` and `writeFixSize` -/

namespace Stream

/-- An `int` as a `size_t`. -/
def sizeOf (value : Int) : Nat := (value % 2 ^ 64).toNat

/-- A `size_t` as an `int`. -/
def intOf (size : Nat) : Int := Int.bmod size (2 ^ 32)

/-- The loop as far as it has come: its counter `left`, and the value returned if it is over. -/
structure Transfer (State : Type) where
  state : State
  left : Nat
  ret : Option Int
  deriving DecidableEq

section Loop
variable {State Outcome : Type}
  (io : State → Nat → Outcome → Except Fault (Int × State)) (length : Nat)

/-- Before the first turn. -/
def start (state : State) : Transfer State where
  state := state
  left := length
  ret := if length = 0 then some (intOf length) else none

/-- One turn of the loop; `io` is its call of `read` or `write`. -/
def turn (t : Transfer State) (outcome : Outcome) : Except Fault (Transfer State) :=
  match t.ret with
  | some _ => .ok t
  | none => do
    let (len, state) ← io t.state t.left outcome
    let len := sizeOf len
    if len = 0 then return { t with state := state, ret := some (intOf len) }
    else
      let left := (t.left + 2 ^ 64 - len) % 2 ^ 64
      return { state := state, left := left, ret := if left = 0 then some (intOf length) else none }

/-- The loop over the outcomes of its calls. -/
def loop (state : State) (outcomes : List Outcome) : Except Fault (Transfer State) :=
  outcomes.foldlM (turn io length) (start length state)

variable {io length}

theorem loop_snoc {state : State} {outcomes : List Outcome} {t : Transfer State}
    (h : loop io length state outcomes = .ok t) (outcome : Outcome) :
    loop io length state (outcomes ++ [outcome]) = turn io length t outcome := by
  rw [loop] at h
  rw [loop, List.foldlM_append, h]
  show (turn io length t outcome >>= pure) = _
  rw [bind_pure]

/-- Outcomes behind the last call do not matter. -/
theorem turn_returned {t : Transfer State} {value : Int} (h : t.ret = some value)
    (outcome : Outcome) : turn io length t outcome = .ok t := by
  rw [turn, h]

theorem loop_returned {state : State} {outcomes : List Outcome} {t : Transfer State} {value : Int}
    (h : loop io length state outcomes = .ok t) (hret : t.ret = some value)
    (later : List Outcome) : loop io length state (outcomes ++ later) = .ok t := by
  induction later generalizing outcomes with
  | nil => rwa [List.append_nil]
  | cons outcome later ih =>
    rw [List.append_cons]
    exact ih ((loop_snoc h outcome).trans (turn_returned hret outcome))

/-- A call that transfers `k` of the bytes that are left. -/
theorem turn_moves {t : Transfer State} {outcome : Outcome} {k : Nat} {state : State}
    (hret : t.ret = none) (hleft : t.left < 2 ^ 64) (hpos : 1 ≤ k) (hle : k ≤ t.left)
    (hio : io t.state t.left outcome = .ok (k, state)) :
    turn io length t outcome = .ok {
      state := state
      left := t.left - k
      ret := if t.left - k = 0 then some (intOf length) else none } := by
  have hsize : sizeOf k = k := by
    rw [sizeOf]
    omega
  have hrest : (t.left + 2 ^ 64 - k) % 2 ^ 64 = t.left - k := by omega
  rw [turn, hret]
  simp only [hio, bind, Except.bind, pure, Except.pure, hsize, hrest]
  rw [if_neg (by omega)]

end Loop
end Stream

namespace SocketStream
open Sylar.ByteArray Sylar.Stream Overlay Interleaving

/-- A call of `sendmsg`: the bytes its `iovec`s span, and the value it returned. -/
structure SendCall where
  offered : List UInt8
  value : Int
  deriving DecidableEq

/-- The bytes the socket took. -/
def SendCall.accepted (c : SendCall) : List UInt8 := c.offered.take c.value.toNat

/-- The byte array of a sender, and its calls of `sendmsg` so far. -/
structure Sender where
  ba : ByteArray
  calls : List SendCall
  deriving DecidableEq

/-- The bytes that a `write` of this length offers the socket. -/
def offered (b : ByteArray) (length : Nat) : List UInt8 :=
  match b.getReadBuffers length with
  | .ok (_, iovs) => iovs.flatMap (gather b.root)
  | .error _ => []

/-- `SocketStream::write( ba, length )` -/
def write (s : Sender) (length : Nat) : Option Int → Except Fault (Int × Sender)
  | none => .ok (-1, s)
  | some ret => do
    let (_, iovs) ← s.ba.getReadBuffers length
    let calls := s.calls ++ [⟨iovs.flatMap (gather s.ba.root), ret⟩]
    if 0 < ret then
      let ba ← s.ba.setPosition (s.ba.position + ret.toNat)
      return (ret, { ba := ba, calls := calls })
    else return (ret, { s with calls := calls })

/-- `Stream::writeFixSize( ba, length )`, over what its calls of `write` find. -/
def writeFixSize (b : ByteArray) (length : Nat) (outcomes : List (Option Int)) :
    Except Fault (Transfer Sender) :=
  loop write length { ba := b, calls := [] } outcomes

/-! ## Partial sends -/

section Sends
variable {b : ByteArray} {n : Nat}

theorem Valid.offered_eq (hb : b.Valid) {length : Nat} (hle : length ≤ b.getReadSize) :
    offered b length = b.ahead length := by
  obtain ⟨iovs, hbuffers, -, hbytes⟩ := hb.getReadBuffers_eq length
  rw [offered, hbuffers]
  rw [Nat.min_eq_left hle] at hbytes
  exact hbytes

/-- A `write` whose `sendmsg` takes `k` bytes. -/
theorem write_eq {s : Sender} (hb : s.ba.Valid) {length k : Nat} (hle : length ≤ s.ba.getReadSize)
    (hpos : 1 ≤ k) (hk : k ≤ length) :
    ∃ ba, write s length (some k) =
        .ok (k, { ba := ba, calls := s.calls ++ [⟨s.ba.ahead length, k⟩] }) ∧
      ba.Valid ∧ ba.position = s.ba.position + k ∧ ba.size = s.ba.size ∧
      ba.content = s.ba.content := by
  obtain ⟨iovs, hbuffers, -, hbytes⟩ := hb.getReadBuffers_eq length
  rw [Nat.min_eq_left hle] at hbuffers hbytes
  have hsize := hb.size_le
  have hread : s.ba.position + k ≤ s.ba.size := by
    rw [getReadSize] at hle
    omega
  have hset := hb.setPosition_eq (by omega : s.ba.position + k ≤ s.ba.capacity)
  refine ⟨_, ?_, hb.setPosition hset, rfl, if_neg (by omega), rfl⟩
  rw [write]
  simp only [hbuffers, hbytes, bind, Except.bind, pure, Except.pure]
  rw [if_pos (by omega), Int.toNat_natCast, hset]

/-- What the position tells behind any turn: the socket took the bytes between the first
position and the present one, and the array is otherwise as it was. -/
structure Sent (b : ByteArray) (n : Nat) (t : Transfer Sender) : Prop where
  valid : t.state.ba.Valid
  left_le : t.left ≤ n
  position_eq : t.state.ba.position = b.position + (n - t.left)
  size_eq : t.state.ba.size = b.size
  content_eq : t.state.ba.content = b.content
  accepted_eq : t.state.calls.flatMap SendCall.accepted = b.ahead (n - t.left)
  ret_eq : t.ret = if t.left = 0 then some (intOf n) else none

theorem Sent.start (hb : b.Valid) : Sent b n (Stream.start n { ba := b, calls := [] }) where
  valid := hb
  left_le := Nat.le_refl n
  position_eq := by rw [Stream.start, Nat.sub_self, Nat.add_zero]
  size_eq := rfl
  content_eq := rfl
  accepted_eq := by rw [Stream.start, Nat.sub_self]; rfl
  ret_eq := rfl

/-- The next `k` of the bytes ahead, after those that were accepted. -/
theorem ahead_add (b : ByteArray) (m k : Nat) :
    b.ahead (m + k) = b.ahead m ++ window b.content (b.position + m) k := by
  simp only [ahead, window, List.take_add, List.drop_drop]

/-- The bytes that the next call offers. -/
theorem Sent.offered_eq {t : Transfer Sender} (h : Sent b n t) (hle : n ≤ b.getReadSize) :
    t.left ≤ t.state.ba.getReadSize ∧
      t.state.ba.ahead t.left = window b.content (b.position + (n - t.left)) t.left := by
  have hleft := h.left_le
  have hposition := h.position_eq
  have hsize := h.size_eq
  rw [getReadSize] at hle ⊢
  refine ⟨by omega, ?_⟩
  rw [ahead, h.content_eq, hposition]

/-- **One turn**: the socket takes some of the bytes it is offered. -/
theorem Sent.turn {t : Transfer Sender} (h : Sent b n t) (hle : n ≤ b.getReadSize)
    (hint : n < 2 ^ 31) (hret : t.ret = none) {value : Int} (hpos : 1 ≤ value)
    (hvalue : value ≤ (offered t.state.ba t.left).length) :
    ∃ t', Stream.turn write n t (some value) = .ok t' ∧ Sent b n t' ∧ t'.left < t.left := by
  obtain ⟨k, rfl⟩ := Int.eq_ofNat_of_zero_le (by omega : 0 ≤ value)
  obtain ⟨hroom, hahead⟩ := h.offered_eq hle
  have hlen : (offered t.state.ba t.left).length ≤ t.left := by
    rw [Valid.offered_eq h.valid hroom, hahead, length_window]
    exact Nat.min_le_left _ _
  have hleft := h.left_le
  have hk : k ≤ t.left := by omega
  obtain ⟨ba, hwrite, hvalid, hposition, hsize, hcontent⟩ :=
    write_eq h.valid hroom (by omega : 1 ≤ k) hk
  refine ⟨_, turn_moves hret (by omega) (by omega) hk hwrite, ?_, by simp only; omega⟩
  have hmoved : n - (t.left - k) = (n - t.left) + k := by omega
  constructor
  case valid => exact hvalid
  case left_le => exact (Nat.sub_le _ _).trans hleft
  case position_eq =>
    show ba.position = b.position + (n - (t.left - k))
    rw [hposition, h.position_eq]
    omega
  case size_eq => exact hsize.trans h.size_eq
  case content_eq => exact hcontent.trans h.content_eq
  case accepted_eq =>
    show (t.state.calls ++ [_]).flatMap SendCall.accepted = b.ahead (n - (t.left - k))
    rw [List.flatMap_append, h.accepted_eq, List.flatMap_singleton, hmoved, ahead_add,
      SendCall.accepted, Int.toNat_natCast, hahead, take_window _ hk]
  case ret_eq => rfl

/-- **Every number of turns.**  Either the loop is over, or each turn has sent something. -/
theorem writeFixSize_sent (hb : b.Valid) (hle : n ≤ b.getReadSize) (hint : n < 2 ^ 31)
    {r : Nat → Int}
    (hr : ∀ k t, writeFixSize b n ((List.range k).map fun i => some (r i)) = .ok t →
      t.ret = none → 1 ≤ r k ∧ r k ≤ (offered t.state.ba t.left).length) (k : Nat) :
    ∃ t, writeFixSize b n ((List.range k).map fun i => some (r i)) = .ok t ∧ Sent b n t ∧
      (t.ret = none → t.left + k ≤ n) := by
  induction k with
  | zero => exact ⟨_, rfl, Sent.start hb, fun _ => Nat.le_refl n⟩
  | succ k ih =>
    obtain ⟨t, hrun, hsent, hmoved⟩ := ih
    have hsnoc : writeFixSize b n ((List.range (k + 1)).map fun i => some (r i)) =
        Stream.turn write n t (some (r k)) := by
      rw [List.range_succ, List.map_append]
      exact loop_snoc hrun _
    cases hret : t.ret with
    | some value =>
      refine ⟨t, hsnoc.trans (turn_returned hret _), hsent, fun hnone => ?_⟩
      rw [hret] at hnone
      cases hnone
    | none =>
      obtain ⟨hpos, hvalue⟩ := hr k t hrun hret
      obtain ⟨t', hturn, hsent', hless⟩ := hsent.turn hle hint hret hpos hvalue
      have hsofar := hmoved hret
      exact ⟨t', hsnoc.trans hturn, hsent', fun _ => by omega⟩

/-- **Partial sends.**  Where every `sendmsg` takes at least one of the bytes it is offered,
`writeFixSize` returns the length after at most that many calls; the bytes that were taken are,
in order, those from the position on, and only the position has moved. -/
theorem writeFixSize_sends (hb : b.Valid) (hn : 1 ≤ n) (hle : n ≤ b.getReadSize)
    (hint : n < 2 ^ 31) {r : Nat → Int}
    (hr : ∀ k t, writeFixSize b n ((List.range k).map fun i => some (r i)) = .ok t →
      t.ret = none → 1 ≤ r k ∧ r k ≤ (offered t.state.ba t.left).length)
    {k : Nat} (hk : n ≤ k) :
    ∃ t, writeFixSize b n ((List.range k).map fun i => some (r i)) = .ok t ∧
      t.ret = some (n : Int) ∧ t.state.calls.flatMap SendCall.accepted = b.ahead n ∧
      t.state.ba.position = b.position + n ∧ t.state.ba.content = b.content ∧
      t.state.ba.size = b.size ∧ t.state.ba.Valid := by
  obtain ⟨t, hrun, hsent, hmoved⟩ := writeFixSize_sent hb hle hint hr k
  have hret := hsent.ret_eq
  have hdone : t.left = 0 := by
    by_contra hleft
    rw [if_neg hleft] at hret
    have := hmoved hret
    omega
  have hvalue : intOf n = (n : Int) := by
    exact Int.bmod_eq_of_le (by omega) (by omega)
  have haccepted := hsent.accepted_eq
  have hposition := hsent.position_eq
  rw [if_pos hdone, hvalue] at hret
  rw [hdone, Nat.sub_zero] at haccepted hposition
  exact ⟨t, hrun, hret, haccepted, hposition, hsent.content_eq, hsent.size_eq, hsent.valid⟩

/-- Three bytes on two nodes, of which the socket takes two and then one. -/
theorem writeFixSize_sends_three :
    ∃ t, writeFixSize five 3 ((List.range 3).map fun i => some (if i = 0 then 2 else 1)) = .ok t ∧
      t.ret = some 3 ∧ t.state.calls.flatMap SendCall.accepted = five.ahead 3 ∧
      five.ahead 3 = [11, 12, 13] ∧ t.state.ba.position = 4 := by
  have hfirst : writeFixSize five 3 [some 2] = .ok {
      state := { ba := { five with position := 3, cur := some 1 }, calls := [⟨[11, 12, 13], 2⟩] }
      left := 1
      ret := none } := toOption_eq_some.mp (by decide +kernel)
  have hsecond : ((writeFixSize five 3 [some 2, some 1]).toOption.bind Transfer.ret) = some 3 := by
    decide +kernel
  obtain ⟨t, hrun, hret, haccepted, hposition, -⟩ := writeFixSize_sends (b := five) (n := 3)
    (r := fun i => if i = 0 then 2 else 1) five_valid (by decide) (by decide) (by decide)
    (by
      rintro (_ | _ | k) t hrun hret
      · obtain rfl := Except.ok.inj hrun
        decide
      · obtain rfl := Except.ok.inj (hfirst.symm.trans hrun)
        decide
      · -- two calls are enough, so that there is no third
        obtain ⟨t', ht', hret'⟩ := Option.bind_eq_some_iff.mp hsecond
        have hmore := loop_returned (toOption_eq_some.mp ht') hret'
          ((List.range k).map fun _ => some 1)
        have hlist : (List.range (k + 2)).map (fun i => some (if i = 0 then (2 : Int) else 1)) =
            [some 2, some 1] ++ (List.range k).map fun _ => some 1 := by
          rw [Nat.add_comm, List.range_add, List.map_append, List.map_map]
          refine congrArg ([some 2, some 1] ++ ·) (List.map_congr_left fun i _ => ?_)
          exact congrArg some (if_neg (by show ¬ 2 + i = 0; omega))
        rw [hlist] at hrun
        obtain rfl := Except.ok.inj (hmore.symm.trans hrun)
        rw [hret'] at hret
        cases hret) (k := 3) (Nat.le_refl 3)
  exact ⟨t, hrun, hret, haccepted, by decide, hposition⟩

end Sends

end SocketStream
end Sylar
