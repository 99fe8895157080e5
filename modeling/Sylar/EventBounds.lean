import Sylar.IOManager
import Sylar.SocketStream

/-! # Which descriptors the event operations take

The operations of the registry are given an `int`.  Each has its own test against the size of
`m_fdContexts`, as an `int` too, and none asks whether the descriptor is negative.  Behind the
test the descriptor is an index.

`boundsMachine` runs the operations on any descriptors.  **`event_bounds_iff`** says for which of
them, in every reachable state, an operation stays in the table, and does nothing where nothing is
registered. -/
namespace Sylar
open Interleaving

/-! ## The code -/

namespace IOManager
variable (m : IOManager) (caller : Caller) (fd : BitVec 32) (event : IOEvent)
  (cb : Option CallbackId) (ctl : Bool)

/-- `static_cast<int>( m_fdContexts.size() )` -/
def intSize : Int := Stream.intOf m.fdContexts.length

/-- The index of an `int`: a `size_t`. -/
def index : Except IOFault Nat := do
  let i := (fd.signExtend 64).toNat
  let _ ← m.context i
  return i

/-- The table behind the test of `addEvent`.  What `fd * 1.5` is converted to is not defined for a
negative descriptor, which then is no index of any table. -/
def room : IOManager :=
  if fd.toInt < m.intSize then m
  else
    { m with
      fdContexts := contextResize FdContext.new m.fdContexts (FdTable.growTarget fd.toInt.toNat) }

/-- `addEvent`.  The table has the index when the section under the mutex of its context is
entered. -/
def addEventInt : Except IOFault (IOManager × Bool × List Effect) := do
  let i ← (m.room fd).index fd
  (m.room fd).addEvent caller i event cb ctl

def delEventInt : Except IOFault (IOManager × Bool × List Effect) :=
  if m.intSize < fd.toInt then .ok (m, false, [])
  else do
    let i ← m.index fd
    m.delEvent i event ctl

def cancelEventInt : Except IOFault (IOManager × Bool × List Effect) :=
  if m.intSize ≤ fd.toInt then .ok (m, false, [])
  else do
    let i ← m.index fd
    m.cancelEvent i event ctl

def cancelAllInt : Except IOFault (IOManager × Bool × List Effect) :=
  if m.intSize ≤ fd.toInt then .ok (m, false, [])
  else do
    let i ← m.index fd
    m.cancelAll i ctl

end IOManager

namespace Socket

/-- The members of `Socket` that cancel; a socket that was closed has the `m_sock` -1. -/
def cancelRead (m : IOManager) (m_sock : BitVec 32) (ctl : Bool) :
    Except IOFault (IOManager × Bool × List Effect) := m.cancelEventInt m_sock .READ ctl

def cancelWrite (m : IOManager) (m_sock : BitVec 32) (ctl : Bool) :
    Except IOFault (IOManager × Bool × List Effect) := m.cancelEventInt m_sock .WRITE ctl

def cancelAccept (m : IOManager) (m_sock : BitVec 32) (ctl : Bool) :
    Except IOFault (IOManager × Bool × List Effect) := m.cancelEventInt m_sock .READ ctl

def cancelAll (m : IOManager) (m_sock : BitVec 32) (ctl : Bool) :
    Except IOFault (IOManager × Bool × List Effect) := m.cancelAllInt m_sock ctl

end Socket

/-- An operation with its arguments. -/
inductive EventOp
  | addEvent (caller : Caller) (fd : BitVec 32) (event : IOEvent) (cb : Option CallbackId)
    (ctl : Bool)
  | delEvent (fd : BitVec 32) (event : IOEvent) (ctl : Bool)
  | cancelEvent (fd : BitVec 32) (event : IOEvent) (ctl : Bool)
  | cancelAll (fd : BitVec 32) (ctl : Bool)
  /-- The loop of `idle`, which has a pointer to the context. -/
  | handleEvent (fd : Nat) (events : Mask) (ctl : Bool)

namespace EventOp

def run (m : IOManager) : EventOp → Except IOFault (IOManager × Bool × List Effect)
  | addEvent caller fd event cb ctl => m.addEventInt caller fd event cb ctl
  | delEvent fd event ctl => m.delEventInt fd event ctl
  | cancelEvent fd event ctl => m.cancelEventInt fd event ctl
  | cancelAll fd ctl => m.cancelAllInt fd ctl
  | handleEvent fd events ctl => m.handleEvent fd events ctl

end EventOp

/-- Operations in any order, from the state that the constructor leaves. -/
def boundsMachine : Machine IOManager EventOp :=
  .ofExcept (fun m => m = .new) fun m op => (op.run m).map Prod.fst

/-! ## What is asked -/

namespace EventOp

/-- Something is registered that the operation is about. -/
def Registered (m : IOManager) : EventOp → Prop
  | delEvent fd event _ | cancelEvent fd event _ =>
    0 ≤ fd.toInt ∧ ∃ c, m.fdContexts[fd.toInt.toNat]? = some c ∧ c.has event.mask = true
  | cancelAll fd _ =>
    0 ≤ fd.toInt ∧ ∃ c, m.fdContexts[fd.toInt.toNat]? = some c ∧ c.events ≠ 0
  | addEvent .. | handleEvent .. => True

/-- The operation uses no index outside the table; the table has room for an event that is added;
and nothing is done where nothing is registered. -/
structure Right (m : IOManager) (op : EventOp) : Prop where
  inside : op.run m ≠ .error .outOfBounds
  room : ∀ caller fd event cb ctl, op = addEvent caller fd event cb ctl → 0 ≤ fd.toInt →
    fd.toInt.toNat < (m.room fd).fdContexts.length
  nothing : ¬ op.Registered m → op.run m = .ok (m, false, [])

/-- The descriptor is one that the operation takes. -/
def Taken (m : IOManager) : EventOp → Prop
  | addEvent _ fd _ _ _ => 0 ≤ fd.toInt ∧ (fd.toInt < m.intSize ∨ 2 ≤ fd.toInt)
  | delEvent fd _ _ => m.intSize < fd.toInt ∨ 0 ≤ fd.toInt ∧ fd.toInt < m.fdContexts.length
  | cancelEvent fd _ _ | cancelAll fd _ => m.intSize ≤ fd.toInt ∨ 0 ≤ fd.toInt
  | handleEvent fd _ _ => fd < m.fdContexts.length

end EventOp

/-! ## Behind the index -/

/-- The operation is not stopped by an index, and the table keeps its size. -/
def Keeps (n : Nat) : Except IOFault (IOManager × Bool × List Effect) → Prop
  | .ok r => r.1.fdContexts.length = n
  | .error e => e ≠ .outOfBounds

theorem Keeps.bind {α : Type} {n : Nat} {x : Except IOFault α}
    {f : α → Except IOFault (IOManager × Bool × List Effect)} (hx : x ≠ .error .outOfBounds)
    (hf : ∀ a, x = .ok a → Keeps n (f a)) : Keeps n (x >>= f) := by
  cases x with
  | error e => exact fun h => hx (congrArg _ h)
  | ok a => exact hf a rfl

theorem inside_bind {α β : Type} {x : Except IOFault α} {f : α → Except IOFault β}
    (hx : x ≠ .error .outOfBounds) (hf : ∀ a, f a ≠ .error .outOfBounds) :
    (x >>= f) ≠ .error .outOfBounds := by
  cases x with
  | error e => exact fun h => hx (congrArg _ (Except.error.inj h))
  | ok a => exact hf a

namespace FdContext

theorem getContext_inside (c : FdContext) (event : IOEvent) :
    c.getContext event ≠ .error .outOfBounds := by
  cases event <;> (intro h; cases h)

theorem triggerEvent_inside (c : FdContext) (event : IOEvent) :
    c.triggerEvent event ≠ .error .outOfBounds := by
  rw [triggerEvent]
  split
  · intro h
    cases h
  · refine inside_bind (getContext_inside _ event) fun slot => ?_
    split <;> (intro h; cases h)

end FdContext

namespace IOManager
variable {m : IOManager} {fd : Nat} {event : IOEvent} {ctl : Bool}

theorem context_ok (h : fd < m.fdContexts.length) : ∃ c, m.context fd = .ok c := by
  rw [context, List.getElem?_eq_getElem h]
  exact ⟨_, rfl⟩

theorem context_outside (h : m.fdContexts.length ≤ fd) : m.context fd = .error .outOfBounds := by
  rw [context, List.getElem?_eq_none h]

theorem epollCtl_length {m' : IOManager} {op : EpollOp} {events : Mask}
    (h : m.epollCtl op fd events ctl = some m') : m'.fdContexts.length = m.fdContexts.length := by
  unfold epollCtl at h
  dsimp only at h
  split at h
  · obtain rfl := Option.some.inj h
    rfl
  · cases h

theorem length_setContext (c : FdContext) :
    (m.setContext fd c).fdContexts.length = m.fdContexts.length := List.length_set

theorem delEvent_keeps (h : fd < m.fdContexts.length) :
    Keeps m.fdContexts.length (m.delEvent fd event ctl) := by
  obtain ⟨c, hc⟩ := context_ok h
  rw [delEvent, if_neg (by omega), hc]
  show Keeps _ (if _ then _ else _)
  split
  · rfl
  · split
    · rfl
    · rename_i m' hctl
      refine Keeps.bind (FdContext.getContext_inside _ _) fun _ _ => ?_
      have hlength := epollCtl_length hctl
      exact (length_setContext _).trans hlength

theorem cancelEvent_keeps (h : fd < m.fdContexts.length) :
    Keeps m.fdContexts.length (m.cancelEvent fd event ctl) := by
  obtain ⟨c, hc⟩ := context_ok h
  rw [cancelEvent, if_neg (by omega), hc]
  show Keeps _ (if _ then _ else _)
  split
  · rfl
  · split
    · rfl
    · rename_i m' hctl
      refine Keeps.bind (FdContext.triggerEvent_inside _ _) fun _ _ => ?_
      have hlength := epollCtl_length hctl
      exact (length_setContext _).trans hlength

theorem triggerIf_inside (test : Bool) (c : FdContext) :
    triggerIf test m c event ≠ .error .outOfBounds := by
  rw [triggerIf]
  split
  · refine inside_bind (FdContext.triggerEvent_inside c event) fun r => ?_
    intro h
    cases h
  · intro h
    cases h

theorem triggerIf_length {test : Bool} {c : FdContext} {r : IOManager × FdContext × List Effect}
    (h : triggerIf test m c event = .ok r) : r.1.fdContexts.length = m.fdContexts.length := by
  rw [triggerIf] at h
  split at h
  · obtain ⟨p, -, h⟩ := bind_ok h
    cases h
    rfl
  · cases h
    rfl

theorem cancelAll_keeps (h : fd < m.fdContexts.length) :
    Keeps m.fdContexts.length (m.cancelAll fd ctl) := by
  obtain ⟨c, hc⟩ := context_ok h
  rw [cancelAll, if_neg (by omega), hc]
  show Keeps _ (if _ then _ else _)
  split
  · rfl
  · split
    · rfl
    · rename_i m' hctl
      have hlength := epollCtl_length hctl
      refine Keeps.bind (triggerIf_inside _ _) fun r hr => ?_
      refine Keeps.bind (triggerIf_inside _ _) ?_
      rintro ⟨m₂, c₂, effects'⟩ hr'
      show Keeps _ (if _ then _ else _)
      split
      · intro h
        cases h
      · exact (length_setContext _).trans
          ((triggerIf_length hr').trans ((triggerIf_length hr).trans hlength))

theorem handleEvent_keeps (h : fd < m.fdContexts.length) {events : Mask} :
    Keeps m.fdContexts.length (m.handleEvent fd events ctl) := by
  obtain ⟨c, hc⟩ := context_ok h
  rw [handleEvent, hc]
  show Keeps _ (if _ then _ else _)
  split
  · rfl
  · split
    · rfl
    · rename_i m' hctl
      have hlength := epollCtl_length hctl
      refine Keeps.bind (triggerIf_inside _ _) fun r hr => ?_
      refine Keeps.bind (triggerIf_inside _ _) fun r' hr' => ?_
      exact (length_setContext _).trans
        ((triggerIf_length hr').trans ((triggerIf_length hr).trans hlength))

theorem fillSlot_inside (caller : Caller) (slot : EventContext) (cb : Option CallbackId) :
    fillSlot caller slot cb ≠ .error .outOfBounds := by
  unfold fillSlot
  split
  · intro h
    cases h
  · split <;> (intro h; cases h)

theorem addEvent_keeps (h : fd < m.fdContexts.length) (caller : Caller)
    (cb : Option CallbackId) :
    Keeps m.fdContexts.length (m.addEvent caller fd event cb ctl) := by
  obtain ⟨c, hc⟩ := context_ok h
  have hroom : m.makeRoom fd = m := if_pos h
  rw [addEvent, hroom, hc]
  show Keeps _ (if _ then _ else _)
  split
  · intro h
    cases h
  · split
    · rfl
    · rename_i m' hctl
      have hlength := epollCtl_length hctl
      refine Keeps.bind (FdContext.getContext_inside _ _) fun slot _ => ?_
      split
      · intro h
        cases h
      · refine Keeps.bind (fillSlot_inside _ _ _) fun r _ => ?_
        exact (length_setContext _).trans hlength

end IOManager

/-! ## The tests -/

section Tests
variable {m : IOManager} {fd : BitVec 32}

theorem index_nonneg (h : 0 ≤ fd.toInt) : (fd.signExtend 64).toNat = fd.toInt.toNat := by
  have hsame : (fd.signExtend 64).toInt = fd.toInt := BitVec.toInt_signExtend_of_le (by decide)
  have hlt := (fd.signExtend 64).isLt
  rw [BitVec.toInt_eq_toNat_cond] at hsame
  split at hsame <;> omega

theorem index_neg (h : fd.toInt < 0) : 2 ^ 63 ≤ (fd.signExtend 64).toNat := by
  have hsame : (fd.signExtend 64).toInt = fd.toInt := BitVec.toInt_signExtend_of_le (by decide)
  have hlt := (fd.signExtend 64).isLt
  rw [BitVec.toInt_eq_toNat_cond] at hsame
  split at hsame <;> omega

theorem index_ok (h : 0 ≤ fd.toInt) (hlt : fd.toInt.toNat < m.fdContexts.length) :
    m.index fd = .ok fd.toInt.toNat := by
  obtain ⟨c, hc⟩ := IOManager.context_ok hlt
  rw [IOManager.index, index_nonneg h, hc]
  rfl

/-- The sizes of a table. -/
def Sized (m : IOManager) : Prop := m.fdContexts.length < 2 ^ 32

theorem index_outside (hm : Sized m) (h : 0 ≤ fd.toInt → m.fdContexts.length ≤ fd.toInt.toNat) :
    m.index fd = .error .outOfBounds := by
  have hge : m.fdContexts.length ≤ (fd.signExtend 64).toNat := by
    by_cases hneg : 0 ≤ fd.toInt
    · rw [index_nonneg hneg]
      exact h hneg
    · have hbig := index_neg (Int.not_le.mp hneg)
      rw [Sized] at hm
      omega
  rw [IOManager.index, IOManager.context_outside hge]
  rfl

theorem intSize_le (m : IOManager) : m.intSize ≤ m.fdContexts.length := by
  unfold IOManager.intSize Stream.intOf
  have hsize := Int.bmod_def (m.fdContexts.length : Int) (2 ^ 32)
  split at hsize <;> omega

/-- The test of `addEvent` leaves a table that has the index, or the index is too small. -/
theorem room_length_iff (h : 0 ≤ fd.toInt) :
    fd.toInt.toNat < (m.room fd).fdContexts.length ↔ fd.toInt < m.intSize ∨ 2 ≤ fd.toInt := by
  have hle := intSize_le m
  rw [IOManager.room]
  split
  · rename_i htest
    exact iff_of_true (by omega) (.inl htest)
  · rename_i htest
    rw [or_iff_right htest]
    dsimp only
    rw [length_contextResize, FdTable.growTarget]
    -- `fd * 1.5` is larger than `fd` from 2 on
    omega

theorem Sized.room (hm : Sized m) (fd : BitVec 32) : Sized (m.room fd) := by
  have hlt := BitVec.two_mul_toInt_lt (x := fd)
  rw [IOManager.room, Sized]
  split
  · exact hm
  · dsimp only
    rw [length_contextResize, FdTable.growTarget]
    omega

end Tests

/-! ## The operations -/

section Operations
variable {m : IOManager} {fd : BitVec 32} {event : IOEvent} {ctl : Bool}

theorem Keeps.inside {n : Nat} {x : Except IOFault (IOManager × Bool × List Effect)}
    (h : Keeps n x) : x ≠ .error .outOfBounds := by
  rintro rfl
  exact h rfl

/-- Behind an index. -/
theorem keeps_index {i n : Nat} {f : Nat → Except IOFault (IOManager × Bool × List Effect)}
    (hindex : m.index fd = .ok i) (h : Keeps n (f i)) : Keeps n (m.index fd >>= f) := by
  rw [hindex]
  exact h

theorem addEvent_right_iff (hm : Sized m) (caller : Caller) (cb : Option CallbackId) :
    (EventOp.addEvent caller fd event cb ctl).Right m ↔
      (EventOp.addEvent caller fd event cb ctl).Taken m := by
  have hsized := hm.room fd
  have hrun : (EventOp.addEvent caller fd event cb ctl).run m =
      ((m.room fd).index fd >>= fun i => (m.room fd).addEvent caller i event cb ctl) := rfl
  constructor
  · rintro ⟨hinside, -, -⟩
    rw [hrun] at hinside
    by_cases hnonneg : 0 ≤ fd.toInt
    · refine ⟨hnonneg, (room_length_iff hnonneg).mp ?_⟩
      by_contra hout
      rw [index_outside hsized fun _ => by omega] at hinside
      exact hinside rfl
    · rw [index_outside hsized fun h => absurd h hnonneg] at hinside
      exact absurd rfl hinside
  · rintro ⟨hnonneg, htaken⟩
    have hlt := (room_length_iff hnonneg).mpr htaken
    refine ⟨?_, ?_, fun h => absurd trivial h⟩
    · rw [hrun]
      have hindex := index_ok hnonneg hlt
      generalize m.room fd = m' at hlt hindex
      exact (keeps_index hindex (m'.addEvent_keeps hlt caller cb)).inside
    · intro caller' fd' event' cb' ctl' heq h
      cases heq
      exact hlt

/-- A test, and an index behind it. -/
theorem lookup_right_iff (hm : Sized m) (fd : BitVec 32) (test registered : Prop)
    [Decidable test] (f : Nat → Except IOFault (IOManager × Bool × List Effect))
    (hkeeps : ∀ i < m.fdContexts.length, Keeps m.fdContexts.length (f i))
    (hnothing : ¬ registered → 0 ≤ fd.toInt → fd.toInt.toNat < m.fdContexts.length →
      f fd.toInt.toNat = .ok (m, false, [])) :
    ((if test then .ok (m, false, []) else m.index fd >>= f) ≠ .error .outOfBounds ∧
      (¬ registered →
        (if test then .ok (m, false, []) else m.index fd >>= f) = .ok (m, false, []))) ↔
      test ∨ 0 ≤ fd.toInt ∧ fd.toInt < m.fdContexts.length := by
  by_cases htest : test
  · rw [if_pos htest]
    exact iff_of_true ⟨fun h => (by cases h), fun _ => rfl⟩ (.inl htest)
  · -- behind the test the descriptor is used as an index
    rw [if_neg htest, or_iff_right htest]
    constructor
    · rintro ⟨hinside, -⟩
      by_contra hout
      rw [index_outside hm fun _ => by omega] at hinside
      exact hinside rfl
    · rintro ⟨hnonneg, hlt⟩
      have hlt : fd.toInt.toNat < m.fdContexts.length := by omega
      have hindex := index_ok hnonneg hlt
      refine ⟨(keeps_index hindex (hkeeps _ hlt)).inside, fun hreg => ?_⟩
      rw [hindex]
      exact hnothing hreg hnonneg hlt

/-- An operation without a registration does nothing. -/
theorem delEvent_nothing {i : Nat} {c : FdContext} (hc : m.fdContexts[i]? = some c)
    (hhas : c.has event.mask = false) : m.delEvent i event ctl = .ok (m, false, []) := by
  have hlt := (List.getElem?_eq_some_iff.mp hc).1
  rw [IOManager.delEvent, if_neg (by omega), IOManager.context, hc]
  show (if (!c.has event.mask) = true then _ else _) = _
  rw [hhas]
  rfl

theorem cancelEvent_nothing {i : Nat} {c : FdContext} (hc : m.fdContexts[i]? = some c)
    (hhas : c.has event.mask = false) : m.cancelEvent i event ctl = .ok (m, false, []) := by
  have hlt := (List.getElem?_eq_some_iff.mp hc).1
  rw [IOManager.cancelEvent, if_neg (by omega), IOManager.context, hc]
  show (if (!c.has event.mask) = true then _ else _) = _
  rw [hhas]
  rfl

theorem cancelAll_nothing {i : Nat} {c : FdContext} (hc : m.fdContexts[i]? = some c)
    (hnone : c.events = 0) : m.cancelAll i ctl = .ok (m, false, []) := by
  have hlt := (List.getElem?_eq_some_iff.mp hc).1
  rw [IOManager.cancelAll, if_neg (by omega), IOManager.context, hc]
  show (if (c.events == 0) = true then _ else _) = _
  rw [hnone]
  rfl

/-- What is asked of an operation that adds nothing. -/
theorem EventOp.right_iff {op : EventOp}
    (hadd : ∀ caller fd event cb ctl, op ≠ .addEvent caller fd event cb ctl) :
    op.Right m ↔ op.run m ≠ .error .outOfBounds ∧
      (¬ op.Registered m → op.run m = .ok (m, false, [])) := by
  constructor
  · rintro ⟨hinside, -, hnothing⟩
    exact ⟨hinside, hnothing⟩
  · rintro ⟨hinside, hnothing⟩
    exact ⟨hinside, fun caller fd event cb ctl heq => absurd heq (hadd _ _ _ _ _), hnothing⟩

/-- A context that is there. -/
theorem exists_context {i : Nat} (h : i < m.fdContexts.length) :
    ∃ c, m.fdContexts[i]? = some c := ⟨_, List.getElem?_eq_getElem h⟩

theorem delEvent_right_iff (hm : Sized m) :
    (EventOp.delEvent fd event ctl).Right m ↔ (EventOp.delEvent fd event ctl).Taken m := by
  rw [EventOp.right_iff (by intros; intro h; cases h)]
  refine lookup_right_iff hm fd (m.intSize < fd.toInt)
    ((EventOp.delEvent fd event ctl).Registered m) (fun i => m.delEvent i event ctl)
    (fun i hi => IOManager.delEvent_keeps hi) ?_
  intro hreg hnonneg hlt
  obtain ⟨c, hc⟩ := exists_context hlt
  refine delEvent_nothing hc (Bool.eq_false_iff.mpr fun hhas => ?_)
  exact hreg ⟨hnonneg, c, hc, hhas⟩

/-- Behind the test of `cancelEvent` and `cancelAll` a descriptor is an index, or negative. -/
theorem cancel_taken_iff : (m.intSize ≤ fd.toInt ∨ 0 ≤ fd.toInt) ↔
    m.intSize ≤ fd.toInt ∨ 0 ≤ fd.toInt ∧ fd.toInt < m.fdContexts.length := by
  have hle := intSize_le m
  omega

theorem cancelEvent_right_iff (hm : Sized m) :
    (EventOp.cancelEvent fd event ctl).Right m ↔ (EventOp.cancelEvent fd event ctl).Taken m := by
  rw [EventOp.right_iff (by intros; intro h; cases h), EventOp.Taken, cancel_taken_iff]
  refine lookup_right_iff hm fd (m.intSize ≤ fd.toInt)
    ((EventOp.cancelEvent fd event ctl).Registered m) (fun i => m.cancelEvent i event ctl)
    (fun i hi => IOManager.cancelEvent_keeps hi) ?_
  intro hreg hnonneg hlt
  obtain ⟨c, hc⟩ := exists_context hlt
  refine cancelEvent_nothing hc (Bool.eq_false_iff.mpr fun hhas => ?_)
  exact hreg ⟨hnonneg, c, hc, hhas⟩

theorem cancelAll_right_iff (hm : Sized m) :
    (EventOp.cancelAll fd ctl).Right m ↔ (EventOp.cancelAll fd ctl).Taken m := by
  rw [EventOp.right_iff (by intros; intro h; cases h), EventOp.Taken, cancel_taken_iff]
  refine lookup_right_iff hm fd (m.intSize ≤ fd.toInt)
    ((EventOp.cancelAll fd ctl).Registered m) (fun i => m.cancelAll i ctl)
    (fun i hi => IOManager.cancelAll_keeps hi) ?_
  intro hreg hnonneg hlt
  obtain ⟨c, hc⟩ := exists_context hlt
  refine cancelAll_nothing hc (not_not.mp fun hsome => ?_)
  exact hreg ⟨hnonneg, c, hc, hsome⟩

theorem handleEvent_right_iff {fd : Nat} {events : Mask} :
    (EventOp.handleEvent fd events ctl).Right m ↔ (EventOp.handleEvent fd events ctl).Taken m := by
  rw [EventOp.right_iff (by intros; intro h; cases h)]
  constructor
  · rintro ⟨hinside, -⟩
    by_contra hout
    refine hinside ?_
    rw [EventOp.run, IOManager.handleEvent, IOManager.context_outside (Nat.not_lt.mp hout)]
    rfl
  · intro hlt
    exact ⟨(IOManager.handleEvent_keeps hlt).inside, fun h => absurd trivial h⟩

end Operations

/-! ## Runs -/

section Runs
variable {m m' : IOManager} {fd : BitVec 32} {r : Bool × List Effect}

theorem index_lt {i : Nat} (h : m.index fd = .ok i) : i < m.fdContexts.length := by
  obtain ⟨c, hc, h⟩ := bind_ok h
  obtain rfl := Except.ok.inj h
  by_contra hout
  rw [IOManager.context_outside (Nat.not_lt.mp hout)] at hc
  cases hc

theorem Sized.of_keeps (hm : Sized m) {x : Except IOFault (IOManager × Bool × List Effect)}
    (hkeeps : Keeps m.fdContexts.length x) (h : x = .ok (m', r)) : Sized m' := by
  subst h
  rw [Sized] at *
  exact Nat.lt_of_le_of_lt (Nat.le_of_eq hkeeps) hm

theorem Sized.index (hm : Sized m)
    {f : Nat → Except IOFault (IOManager × Bool × List Effect)}
    (hkeeps : ∀ i < m.fdContexts.length, Keeps m.fdContexts.length (f i))
    (h : (m.index fd >>= f) = .ok (m', r)) : Sized m' := by
  obtain ⟨i, hi, h⟩ := bind_ok h
  exact hm.of_keeps (hkeeps i (index_lt hi)) h

theorem Sized.lookup (hm : Sized m) {test : Prop} [Decidable test]
    {f : Nat → Except IOFault (IOManager × Bool × List Effect)}
    (hkeeps : ∀ i < m.fdContexts.length, Keeps m.fdContexts.length (f i))
    (h : (if test then .ok (m, false, []) else m.index fd >>= f) = .ok (m', r)) : Sized m' := by
  split at h
  · cases h
    exact hm
  · exact hm.index hkeeps h

/-- Every operation leaves a table of such a size. -/
theorem Sized.run (hm : Sized m) {op : EventOp} (h : op.run m = .ok (m', r)) : Sized m' := by
  cases op with
  | addEvent caller fd event cb ctl =>
    have hroom := hm.room fd
    -- the table has grown before the operation, and keeps its size in it
    have h : ((m.room fd).index fd >>= fun i => (m.room fd).addEvent caller i event cb ctl) =
        .ok (m', r) := h
    generalize m.room fd = m₁ at h hroom
    exact hroom.index (fun i hi => IOManager.addEvent_keeps hi caller cb) h
  | delEvent fd event ctl => exact hm.lookup (fun i hi => IOManager.delEvent_keeps hi) h
  | cancelEvent fd event ctl => exact hm.lookup (fun i hi => IOManager.cancelEvent_keeps hi) h
  | cancelAll fd ctl => exact hm.lookup (fun i hi => IOManager.cancelAll_keeps hi) h
  | handleEvent fd events ctl =>
    have hlt : fd < m.fdContexts.length := by
      obtain ⟨c, hc, -⟩ := bind_ok h
      by_contra hout
      rw [IOManager.context_outside (Nat.not_lt.mp hout)] at hc
      cases hc
    exact hm.of_keeps (IOManager.handleEvent_keeps hlt) h

theorem sized_of_reachable (h : boundsMachine.Reachable m) : Sized m := by
  refine h.invariant ?_ ?_
  · rintro _ rfl
    rw [Sized, IOManager.new, length_contextResize]
    decide
  · intro m op m' hm hst
    obtain ⟨⟨m₁, r⟩, hrun, rfl⟩ := map_ok (Machine.ofExcept_step.mp hst)
    exact hm.run hrun

end Runs

/-- **Which descriptors the operations take**, in every reachable state. -/
theorem event_bounds_iff {m : IOManager} (h : boundsMachine.Reachable m) (op : EventOp) :
    op.Right m ↔ op.Taken m := by
  have hm := sized_of_reachable h
  cases op with
  | addEvent caller fd event cb ctl => exact addEvent_right_iff hm caller cb
  | delEvent fd event ctl => exact delEvent_right_iff hm
  | cancelEvent fd event ctl => exact cancelEvent_right_iff hm
  | cancelAll fd ctl => exact cancelAll_right_iff hm
  | handleEvent fd events ctl => exact handleEvent_right_iff

/-- A new manager, and a descriptor that all operations take. -/
theorem delEvent_five : (EventOp.delEvent 5 .READ true).Right .new :=
  (event_bounds_iff ⟨[], .init rfl⟩ (.delEvent 5 .READ true)).mpr (.inr (by decide))

/-- On a new manager, with 32 entries, `delEvent` of 32 is behind the table; so is what a closed
socket asks for. -/
theorem delEvent_behind :
    boundsMachine.Reachable .new ∧
      (EventOp.delEvent 32 .READ true).run .new = .error .outOfBounds ∧
      Socket.cancelRead .new (-1) true = .error .outOfBounds ∧
      Socket.cancelAll .new (-1) true = .error .outOfBounds ∧
      ¬ (EventOp.delEvent 32 .READ true).Right .new ∧
      ¬ (EventOp.cancelAll (-1) true).Right .new := by
  have hlast : (EventOp.delEvent 32 .READ true).run .new = .error .outOfBounds := rfl
  have hclosed : (EventOp.cancelAll (-1) true).run .new = .error .outOfBounds := rfl
  exact ⟨⟨[], .init rfl⟩, hlast, rfl, hclosed, fun h => h.inside hlast,
    fun h => h.inside hclosed⟩

end Sylar
