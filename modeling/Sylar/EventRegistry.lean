import Sylar.IOManager

/-! # The registry as a map of optional registrations

What the registry is for is one optional registration per fd and event (`Entry`).
Three things happen to one (`Transition`): it is registered where there is none, and
what is registered is scheduled or discarded.

`IOManager.ofRegistry` writes a list of entries the way the code keeps it: as slots,
masks, kernel interests and the counter.  The lemmas of this module say what each
operation does to a manager of this form: `addEvent_registered`, `delEvent_ofRegistry`,
`cancelEvent_ofRegistry`, `cancelAll_ofRegistry`, and for the loop of `idle`
`handleEvent_registered` and `handleEvent_unregistered`. -/
namespace Sylar
open Interleaving

/-! ## Entries -/

/-- What is registered on an fd, for each direction. -/
structure Entry where
  read : Option Registration
  write : Option Registration
  deriving DecidableEq, Repr

namespace Entry

/-- No registration. -/
def empty : Entry := { read := none, write := none }

def get (e : Entry) : IOEvent → Option Registration
  | .READ => e.read
  | .WRITE => e.write
  | .NONE => none

def set (e : Entry) (event : IOEvent) (r : Option Registration) : Entry :=
  match event with
  | .READ => { e with read := r }
  | .WRITE => { e with write := r }
  | .NONE => e

/-- The number of registered events. -/
def count (e : Entry) : Nat := e.read.isSome.toNat + e.write.isSome.toNat

/-- The mask of the registered events. -/
def events (e : Entry) : Mask :=
  (if e.read.isSome then IOEvent.READ.mask else 0) |||
    (if e.write.isSome then IOEvent.WRITE.mask else 0)

/-- What the kernel watches for. -/
def interest (e : Entry) : Option Mask :=
  if e.events = 0 then none else some (EPOLLET ||| e.events)

variable {e : Entry} {event : IOEvent} {r : Registration}

theorem events_and_mask : e.events &&& event.mask = 0 ↔ e.get event = none := by
  rcases e with ⟨_ | r, _ | w⟩ <;> cases event <;>
    simp [events, get, IOEvent.mask]

theorem events_eq_zero : e.events = 0 ↔ e = empty := by
  rcases e with ⟨_ | r, _ | w⟩ <;> simp [events, empty, IOEvent.mask]

theorem events_clear : (e.set event none).events = e.events &&& ~~~event.mask := by
  rcases e with ⟨_ | r, _ | w⟩ <;> cases event <;> simp [events, set, IOEvent.mask]

theorem events_fill (h : event ≠ .NONE) :
    (e.set event (some r)).events = e.events ||| event.mask := by
  rcases e with ⟨_ | r, _ | w⟩ <;> cases event <;> simp_all [events, set, IOEvent.mask]

theorem count_clear (h : e.get event = some r) : (e.set event none).count + 1 = e.count := by
  rcases e with ⟨_ | r, _ | w⟩ <;> cases event <;> first | rfl | cases h

theorem count_fill (h : event ≠ .NONE) (hnone : e.get event = none) :
    (e.set event (some r)).count = e.count + 1 := by
  rcases e with ⟨_ | r, _ | w⟩ <;> cases event <;> first | rfl | exact absurd rfl h | cases hnone

/-- The entry after a trigger that is made only if `test` holds. -/
def clearIf (test : Bool) (event : IOEvent) (e : Entry) : Entry :=
  if test then e.set event none else e

theorem count_clearIf {test : Bool} (h : test = true → (e.get event).isSome = true) :
    (e.clearIf test event).count + test.toNat = e.count := by
  cases test with
  | false => rfl
  | true =>
    obtain ⟨r, hr⟩ := Option.isSome_iff_exists.mp (h rfl)
    exact count_clear hr

theorem get_WRITE_clearIf {test : Bool} : (e.clearIf test .READ).get .WRITE = e.get .WRITE := by
  cases test <;> rfl

theorem ne_NONE_of_get (h : e.get event = some r) : event ≠ .NONE := by
  rintro rfl
  cases h

theorem get_set_self (h : event ≠ .NONE) (v : Option Registration) :
    (e.set event v).get event = v := by
  cases event <;> first | rfl | exact absurd rfl h

theorem get_set_of_ne {event' : IOEvent} (h : event' ≠ event) (v : Option Registration) :
    (e.set event v).get event' = e.get event' := by
  cases event <;> cases event' <;> first | rfl | exact absurd rfl h

end Entry

/-- What the three kinds of effect do to the entries. -/
inductive Transition (es : List Entry) : Effect → List Entry → Prop
  | register {fd : Nat} {e : Entry} {event : IOEvent} {r : Registration} :
      es[fd]? = some e → event ≠ .NONE → e.get event = none →
      Transition es ⟨fd, event, .registered r⟩ (es.set fd (e.set event (some r)))
  | schedule {fd : Nat} {e : Entry} {event : IOEvent} {r : Registration} :
      es[fd]? = some e → e.get event = some r →
      Transition es ⟨fd, event, .scheduled r⟩ (es.set fd (e.set event none))
  | discard {fd : Nat} {e : Entry} {event : IOEvent} {r : Registration} :
      es[fd]? = some e → e.get event = some r →
      Transition es ⟨fd, event, .discarded⟩ (es.set fd (e.set event none))

/-- One transition after another. -/
inductive Transitions : List Entry → List Effect → List Entry → Prop
  | nil (es : List Entry) : Transitions es [] es
  | cons {es es' es'' : List Entry} {x : Effect} {xs : List Effect} :
      Transition es x es' → Transitions es' xs es'' → Transitions es (x :: xs) es''

theorem Transitions.one {es es' : List Entry} {x : Effect} (h : Transition es x es') :
    Transitions es [x] es' :=
  .cons h (.nil _)

theorem Transitions.append {es es' es'' : List Entry} {xs ys : List Effect}
    (h : Transitions es xs es') (h' : Transitions es' ys es'') :
    Transitions es (xs ++ ys) es'' := by
  induction h with
  | nil _ => exact h'
  | cons hx _ ih => exact .cons hx (ih h')

/-! ## Entries as the code keeps them -/

/-- The slot of an optional registration. -/
def slotOf : Option Registration → EventContext
  | none => .empty
  | some ⟨s, .fiber f⟩ => { scheduler := some s, fiber := some f, cb := none }
  | some ⟨s, .callback cb⟩ => { scheduler := some s, fiber := none, cb := some cb }

/-- The context of an entry. -/
def FdContext.ofEntry (fd : Nat) (e : Entry) : FdContext :=
  { read := slotOf e.read, write := slotOf e.write, fd, events := e.events }

/-- The manager of a list of entries. -/
def IOManager.ofRegistry (es : List Entry) : IOManager :=
  { fdContexts := es.mapIdx FdContext.ofEntry
    pendingEventCount := (es.map Entry.count).sum
    kernel := fun fd => (es[fd]?).bind Entry.interest }

section Context
variable {fd : Nat} {e : Entry} {event : IOEvent} {r : Registration}

namespace FdContext

theorem fd_ofEntry : (ofEntry fd e).fd = fd := rfl

/-- A new context has no registrations. -/
theorem ofEntry_empty : ofEntry fd .empty = new fd := by
  simp [ofEntry, Entry.empty, new, slotOf, Entry.events, IOEvent.mask]

theorem has_ofEntry : (ofEntry fd e).has event.mask = (e.get event).isSome := by
  rw [has]
  rw [Bool.eq_iff_iff, bne_iff_ne, ne_eq, Option.isSome_iff_ne_none]
  exact not_congr Entry.events_and_mask

theorem without_ofEntry : (ofEntry fd e).without event.mask = (e.set event none).events :=
  Entry.events_clear.symm

theorem getContext_ofEntry (h : event ≠ .NONE) (events : Mask) :
    ((ofEntry fd e).setEvents events).getContext event = .ok (slotOf (e.get event)) := by
  cases event with
  | NONE => exact absurd rfl h
  | READ => rfl
  | WRITE => rfl

theorem setContext_ofEntry (h : event ≠ .NONE) (v : Option Registration) :
    ((ofEntry fd e).setEvents (e.set event v).events).setContext event (slotOf v) =
      ofEntry fd (e.set event v) := by
  cases event with
  | NONE => exact absurd rfl h
  | READ => rfl
  | WRITE => rfl

/-- The swap takes the whole registration out of its slot. -/
theorem takeTask_slotOf (r : Registration) :
    takeTask (slotOf (some r)) =
      (some r.task, { slotOf none with scheduler := some r.scheduler }) := by
  rcases r with ⟨s, _ | _⟩ <;> rfl

theorem scheduler_slotOf (r : Registration) :
    (slotOf (some r)).scheduler = some r.scheduler := by
  rcases r with ⟨s, _ | _⟩ <;> rfl

/-- **`triggerEvent`** schedules what is registered, and clears the bit and the slot. -/
theorem triggerEvent_ofEntry (h : e.get event = some r) :
    (ofEntry fd e).triggerEvent event =
      .ok (ofEntry fd (e.set event none), [⟨fd, event, .scheduled r⟩]) := by
  have hne := Entry.ne_NONE_of_get h
  rw [triggerEvent]
  rw [has_ofEntry, h, without_ofEntry]
  simp only [getContext_ofEntry hne, h, bind, Except.bind, scheduler_slotOf, takeTask_slotOf]
  rw [← setContext_ofEntry hne none]
  rfl

theorem triggerEvent_none (h : e.get event = none) :
    (ofEntry fd e).triggerEvent event = .error .assertion := by
  rw [triggerEvent]
  rw [has_ofEntry, h]
  rfl

end FdContext
end Context

section Registry
variable {es : List Entry} {fd : Nat} {e e' : Entry}

theorem total_set (h : es[fd]? = some e) (e' : Entry) :
    ((es.set fd e').map Entry.count).sum + e.count = (es.map Entry.count).sum + e'.count := by
  induction es generalizing fd with
  | nil => simp at h
  | cons x es ih =>
    cases fd with
    | zero =>
      obtain rfl : x = e := by simpa using h
      simp only [List.set_cons_zero, List.map_cons, List.sum_cons]
      omega
    | succ fd =>
      have := ih (show es[fd]? = some e by simpa using h)
      simp only [List.set_cons_succ, List.map_cons, List.sum_cons]
      omega

/-- **Writing one entry**: its context, its interest, and the counter by the
difference. -/
theorem IOManager.ofRegistry_set (h : es[fd]? = some e) {n : Nat}
    (hn : n + e.count = (es.map Entry.count).sum + e'.count) :
    ({ fdContexts := (es.mapIdx FdContext.ofEntry).set fd (FdContext.ofEntry fd e')
       pendingEventCount := n
       kernel := Function.update (fun fd => (es[fd]?).bind Entry.interest) fd e'.interest } :
      IOManager) = .ofRegistry (es.set fd e') := by
  have htotal := total_set h e'
  have hlt := (List.getElem?_eq_some_iff.mp h).1
  rw [ofRegistry]
  congr 1
  · exact List.mapIdx_set.symm
  · omega
  · funext i
    by_cases hi : i = fd
    · subst hi
      simp [List.getElem?_set_self hlt]
    · rw [Function.update_of_ne hi, List.getElem?_set_ne (Ne.symm hi)]

theorem IOManager.context_ofRegistry (h : es[fd]? = some e) :
    (IOManager.ofRegistry es).context fd = .ok (FdContext.ofEntry fd e) := by
  rw [context, ofRegistry]
  simp [h]

theorem IOManager.length_ofRegistry :
    (IOManager.ofRegistry es).fdContexts.length = es.length := by
  simp [ofRegistry]

end Registry

/-! ## The operations on entries -/

section Operations
variable {es : List Entry} {fd : Nat} {e : Entry} {event : IOEvent} {ctl : Bool}

namespace IOManager

/-- The interest set after the entry became `e`, however `epoll_ctl` was called. -/
def watch (m : IOManager) (fd : Nat) (e : Entry) : IOManager :=
  { m with kernel := Function.update m.kernel fd e.interest }

/-- The call that takes events away. -/
theorem epollCtl_clear (m : IOManager) (e : Entry) :
    m.epollCtl (EpollOp.modOr e.events .EPOLL_CTL_DEL) fd (EPOLLET ||| e.events) ctl =
      if ctl then some (m.watch fd e) else none := by
  unfold epollCtl EpollOp.modOr watch Entry.interest
  by_cases h : e.events = 0
  · rw [if_neg (not_not.mpr h), if_pos h]
  · rw [if_pos h, if_neg h]

/-- The call that adds an event. -/
theorem epollCtl_fill (m : IOManager) {events : Mask} (h : e.events ≠ 0) :
    m.epollCtl (EpollOp.modOr events .EPOLL_CTL_ADD) fd (EPOLLET ||| e.events) ctl =
      if ctl then some (m.watch fd e) else none := by
  unfold epollCtl EpollOp.modOr watch Entry.interest
  rw [if_neg h]
  by_cases h' : events = 0
  · rw [if_neg (not_not.mpr h')]
  · rw [if_pos h']

/-- The call that takes all of them away. -/
theorem epollCtl_del (m : IOManager) :
    m.epollCtl .EPOLL_CTL_DEL fd 0 true = some (m.watch fd .empty) := rfl

/-- **One entry written**: with the counter moved by the difference. -/
theorem watch_set (he : es[fd]? = some e) {e' : Entry} {n : Nat}
    (hn : n + e.count = (es.map Entry.count).sum + e'.count) :
    ({ (ofRegistry es).watch fd e' with pendingEventCount := n }).setContext fd
      (FdContext.ofEntry fd e') = ofRegistry (es.set fd e') :=
  ofRegistry_set he hn

theorem count_le_total (he : es[fd]? = some e) : e.count ≤ (es.map Entry.count).sum := by
  have := total_set he .empty
  have hzero : Entry.empty.count = 0 := rfl
  omega

/-- Taking one registration out lowers the counter by one. -/
theorem watch_clear (he : es[fd]? = some e) {r : Registration} (hr : e.get event = some r) :
    ({ (ofRegistry es).watch fd (e.set event none) with
        pendingEventCount := (ofRegistry es).pendingEventCount - 1 }).setContext fd
      (FdContext.ofEntry fd (e.set event none)) = ofRegistry (es.set fd (e.set event none)) := by
  have hcount := Entry.count_clear hr
  have hle := count_le_total he
  refine watch_set he ?_
  show (es.map Entry.count).sum - 1 + e.count = _
  omega

/-- **`delEvent`** discards what is registered. -/
theorem delEvent_ofRegistry (he : es[fd]? = some e) :
    (ofRegistry es).delEvent fd event ctl =
      if e.get event = none ∨ ctl = false then .ok (ofRegistry es, false, [])
      else .ok (ofRegistry (es.set fd (e.set event none)), true, [⟨fd, event, .discarded⟩]) := by
  have hlt := (List.getElem?_eq_some_iff.mp he).1
  rw [delEvent]
  rw [if_neg (by rw [length_ofRegistry]; omega), context_ofRegistry he]
  simp only [bind, Except.bind]
  rw [FdContext.has_ofEntry, FdContext.without_ofEntry, epollCtl_clear]
  cases hget : e.get event with
  | none => rfl
  | some r =>
    cases ctl with
    | false => rfl
    | true =>
      have hne := Entry.ne_NONE_of_get hget
      have hset := @FdContext.setContext_ofEntry fd e event hne none
      simp only [FdContext.getContext_ofEntry hne]
      rw [if_neg (by simp)]
      exact congrArg (fun m => Except.ok (m, true, _))
        ((congrArg (IOManager.setContext _ fd) hset).trans (watch_clear he hget))

/-- **`cancelEvent`** schedules what is registered. -/
theorem cancelEvent_ofRegistry (he : es[fd]? = some e) :
    (ofRegistry es).cancelEvent fd event ctl =
      match e.get event, ctl with
      | some r, true =>
        .ok (ofRegistry (es.set fd (e.set event none)), true, [⟨fd, event, .scheduled r⟩])
      | _, _ => .ok (ofRegistry es, false, []) := by
  have hlt := (List.getElem?_eq_some_iff.mp he).1
  rw [cancelEvent]
  rw [if_neg (by rw [length_ofRegistry]; omega), context_ofRegistry he]
  simp only [bind, Except.bind]
  rw [FdContext.has_ofEntry, FdContext.without_ofEntry, epollCtl_clear]
  cases hget : e.get event with
  | none => rfl
  | some r =>
    cases ctl with
    | false => rfl
    | true =>
      simp only [FdContext.triggerEvent_ofEntry hget]
      exact congrArg (fun m => Except.ok (m, true, _)) (watch_clear he hget)

/-- The effect of a trigger that is made only if `test` holds. -/
def triggered (test : Bool) (fd : Nat) (e : Entry) (event : IOEvent) : List Effect :=
  if test then (e.get event).toList.map fun r => ⟨fd, event, .scheduled r⟩ else []

theorem triggerIf_ofEntry (m : IOManager) {test : Bool}
    (h : test = true → (e.get event).isSome = true) :
    triggerIf test m (FdContext.ofEntry fd e) event =
      .ok ({ m with pendingEventCount := m.pendingEventCount - test.toNat },
        FdContext.ofEntry fd (e.clearIf test event), triggered test fd e event) := by
  cases test with
  | false => rfl
  | true =>
    obtain ⟨r, hr⟩ := Option.isSome_iff_exists.mp (h rfl)
    rw [triggerIf, triggered, Entry.clearIf]
    rw [if_pos rfl, if_pos rfl, if_pos rfl, FdContext.triggerEvent_ofEntry hr, hr]
    rfl

theorem triggerIf_none (m : IOManager) (h : e.get event = none) :
    triggerIf true m (FdContext.ofEntry fd e) event = .error .assertion := by
  rw [triggerIf]
  rw [if_pos rfl, FdContext.triggerEvent_none h]
  rfl

/-- The entry after both directions were triggered as far as they were tested for. -/
def clearBoth (rd wr : Bool) (e : Entry) : Entry := (e.clearIf rd .READ).clearIf wr .WRITE

/-- The effects of both. -/
def triggeredBoth (rd wr : Bool) (fd : Nat) (e : Entry) : List Effect :=
  triggered rd fd e .READ ++ triggered wr fd e .WRITE

/-- Both directions taken out lower the counter by their number. -/
theorem watch_clearBoth (he : es[fd]? = some e) (rd wr : Bool)
    (hrd : rd = true → e.read.isSome = true) (hwr : wr = true → e.write.isSome = true) :
    ({ (ofRegistry es).watch fd (clearBoth rd wr e) with
        pendingEventCount :=
          (ofRegistry es).pendingEventCount - rd.toNat - wr.toNat }).setContext fd
      (FdContext.ofEntry fd (clearBoth rd wr e)) = ofRegistry (es.set fd (clearBoth rd wr e)) := by
  have hread := @Entry.count_clearIf e .READ rd hrd
  have hwrite : (clearBoth rd wr e).count + wr.toNat = (e.clearIf rd .READ).count :=
    Entry.count_clearIf fun h => by rw [Entry.get_WRITE_clearIf]; exact hwr h
  have hle := count_le_total he
  refine watch_set he ?_
  show (es.map Entry.count).sum - rd.toNat - wr.toNat + e.count = _
  omega

theorem triggered_WRITE_clearIf {test test' : Bool} :
    triggered test fd (e.clearIf test' .READ) .WRITE = triggered test fd e .WRITE := by
  unfold triggered
  rw [Entry.get_WRITE_clearIf]

/-- The two conditional triggers in a row, as `cancelAll` and the loop of `idle` make
them. -/
theorem triggerIf_both (m : IOManager) {rd wr : Bool}
    (hrd : rd = true → e.read.isSome = true) (hwr : wr = true → e.write.isSome = true) :
    triggerIf rd m (FdContext.ofEntry fd e) .READ =
      .ok ({ m with pendingEventCount := m.pendingEventCount - rd.toNat },
        FdContext.ofEntry fd (e.clearIf rd .READ), triggered rd fd e .READ) ∧
    ∀ m, triggerIf wr m (FdContext.ofEntry fd (e.clearIf rd .READ)) .WRITE =
      .ok ({ m with pendingEventCount := m.pendingEventCount - wr.toNat },
        FdContext.ofEntry fd (clearBoth rd wr e), triggered wr fd e .WRITE) := by
  refine ⟨triggerIf_ofEntry m hrd, fun m => ?_⟩
  rw [triggerIf_ofEntry m fun h => by rw [Entry.get_WRITE_clearIf]; exact hwr h,
    triggered_WRITE_clearIf]
  rfl

theorem clearBoth_all : clearBoth e.read.isSome e.write.isSome e = .empty := by
  rcases e with ⟨_ | _, _ | _⟩ <;> rfl

/-- **`cancelAll`** schedules whatever is registered. -/
theorem cancelAll_ofRegistry (he : es[fd]? = some e) :
    (ofRegistry es).cancelAll fd ctl =
      if e = .empty ∨ ctl = false then .ok (ofRegistry es, false, [])
      else .ok (ofRegistry (es.set fd .empty), true,
        triggeredBoth e.read.isSome e.write.isSome fd e) := by
  have hlt := (List.getElem?_eq_some_iff.mp he).1
  rw [cancelAll]
  rw [if_neg (by rw [length_ofRegistry]; omega), context_ofRegistry he]
  simp only [bind, Except.bind]
  by_cases hempty : e = .empty
  · subst hempty
    rw [if_pos (Or.inl rfl)]
    rfl
  · have hevents : ((FdContext.ofEntry fd e).events == 0) = false :=
      beq_eq_false_iff_ne.mpr fun h => hempty (Entry.events_eq_zero.mp h)
    rw [hevents]
    cases ctl with
    | false => rw [if_pos (Or.inr rfl)]; rfl
    | true =>
      have hall := @clearBoth_all e
      obtain ⟨hread, hwrite⟩ :=
        @triggerIf_both fd e ((ofRegistry es).watch fd .empty) e.read.isSome e.write.isSome id id
      have htest : (FdContext.ofEntry fd e).has IOEvent.READ.mask = e.read.isSome :=
        FdContext.has_ofEntry
      have htest' : (FdContext.ofEntry fd (e.clearIf e.read.isSome .READ)).has
          IOEvent.WRITE.mask = e.write.isSome := by
        rw [FdContext.has_ofEntry, Entry.get_WRITE_clearIf]
        rfl
      have hset := watch_clearBoth he e.read.isSome e.write.isSome id id
      rw [hall] at hwrite hset
      rw [if_neg (show ¬ (e = .empty ∨ true = false) by simp [hempty]), epollCtl_del]
      simp only [htest, hread, htest', hwrite]
      exact congrArg (fun m => Except.ok (m, true, _)) hset

/-- What `addEvent` stores: the callback, or else the fiber of the caller, which has to
be running. -/
def taskOf (caller : Caller) : Option CallbackId → Option Task
  | some cb => some (.callback cb)
  | none => if caller.exec then some (.fiber caller.fiber) else none

theorem fillSlot_empty (caller : Caller) (cb : Option CallbackId) :
    fillSlot caller .empty cb =
      match taskOf caller cb with
      | some task => .ok (slotOf (some ⟨caller.scheduler, task⟩), task)
      | none => .error .assertion := by
  cases cb with
  | some cb => rfl
  | none =>
    rw [fillSlot, taskOf]
    by_cases h : caller.exec = true
    · simp only [h, if_true]
      rfl
    · simp only [h]
      rfl

/-- **`addEvent`** on an event that is not registered: nothing when `epoll_ctl` fails,
and otherwise the registration of the task. -/
theorem addEvent_ofRegistry (he : es[fd]? = some e) (hget : e.get event = none)
    (caller : Caller) (cb : Option CallbackId) :
    (ofRegistry es).addEvent caller fd event cb ctl =
      if ctl = false then .ok (ofRegistry es, false, [])
      else if event = .NONE then .error .assertion
      else
        match taskOf caller cb with
        | some task =>
          .ok (ofRegistry (es.set fd (e.set event (some ⟨caller.scheduler, task⟩))), true,
            [⟨fd, event, .registered ⟨caller.scheduler, task⟩⟩])
        | none => .error .assertion := by
  have hlt := (List.getElem?_eq_some_iff.mp he).1
  rw [addEvent, makeRoom]
  rw [if_pos (by rw [length_ofRegistry]; exact hlt)]
  simp only [bind, Except.bind]
  rw [context_ofRegistry he]
  simp only [FdContext.has_ofEntry, hget, Option.isSome_none, Bool.false_eq_true, if_false]
  cases ctl with
  | false => rfl
  | true =>
    rw [if_neg Bool.noConfusion]
    by_cases hne : event = .NONE
    · subst hne
      rfl
    · rw [if_neg hne]
      -- what `epoll_ctl` and the slot see does not depend on the task
      have hctl : ∀ r, (ofRegistry es).epollCtl (EpollOp.modOr (FdContext.ofEntry fd e).events
          .EPOLL_CTL_ADD) fd (EPOLLET ||| ((FdContext.ofEntry fd e).events ||| event.mask)) true =
          some ((ofRegistry es).watch fd (e.set event (some r))) := by
        intro r
        have hevents := @Entry.events_fill e event r hne
        have hpos : (e.set event (some r)).events ≠ 0 := by
          rw [Ne, Entry.events_eq_zero]
          intro h
          have := @Entry.get_set_self e event hne (some r)
          rw [h] at this
          cases event <;> cases this
        show (ofRegistry es).epollCtl _ fd (EPOLLET ||| (e.events ||| event.mask)) true = _
        rw [← hevents]
        exact epollCtl_fill _ hpos
      have hslot : ((FdContext.ofEntry fd e).setEvents ((FdContext.ofEntry fd e).events |||
          event.mask)).getContext event = .ok .empty := by
        rw [FdContext.getContext_ofEntry hne, hget]
        rfl
      cases htask : taskOf caller cb with
      | none =>
        rw [hctl ⟨0, .fiber 0⟩]
        simp only [hslot, fillSlot_empty, htask, ne_eq, not_true_eq_false, if_false]
      | some task =>
        have hset := @FdContext.setContext_ofEntry fd e event hne (some ⟨caller.scheduler, task⟩)
        have hcount := @Entry.count_fill e event ⟨caller.scheduler, task⟩ hne hget
        rw [Entry.events_fill hne] at hset
        rw [hctl ⟨caller.scheduler, task⟩]
        simp only [hslot, fillSlot_empty, htask, ne_eq, not_true_eq_false, if_false]
        refine congrArg (fun m => Except.ok (m, true, _)) ?_
        refine (congrArg (IOManager.setContext _ fd) hset).trans (watch_set he ?_)
        show (es.map Entry.count).sum + 1 + e.count = _
        omega

theorem addEvent_registered (he : es[fd]? = some e) (hget : e.get event ≠ none)
    (caller : Caller) (cb : Option CallbackId) :
    (ofRegistry es).addEvent caller fd event cb ctl = .error .assertion := by
  have hlt := (List.getElem?_eq_some_iff.mp he).1
  rw [addEvent, makeRoom]
  rw [if_pos (by rw [length_ofRegistry]; exact hlt)]
  simp only [bind, Except.bind]
  rw [context_ofRegistry he]
  simp only [FdContext.has_ofEntry, Option.isSome_iff_ne_none.mpr hget, if_true]

/-- Without registrations beyond its end, a table looks the same after it grew. -/
theorem get_grow {size : Nat} (h : es.length ≤ size) (i : Nat) {β : Type} (f : Entry → Option β)
    (hf : f .empty = none) :
    ((contextResize (fun _ => Entry.empty) es size)[i]?).bind f = (es[i]?).bind f := by
  rw [contextResize_of_le h]
  rcases Nat.lt_or_ge i es.length with hi | hi
  · rw [List.getElem?_append_left hi]
  · rw [List.getElem?_append_right hi, List.getElem?_eq_none hi, List.getElem?_map]
    cases (List.range' es.length (size - es.length))[i - es.length]? with
    | none => rfl
    | some _ => exact hf

/-- A table that grows gets entries without registrations. -/
theorem ofRegistry_grow {size : Nat} (h : es.length ≤ size) :
    { ofRegistry es with
      fdContexts := contextResize FdContext.new (ofRegistry es).fdContexts size } =
      ofRegistry (contextResize (fun _ => Entry.empty) es size) := by
  have hcontexts : contextResize FdContext.new (es.mapIdx FdContext.ofEntry) size =
      (contextResize (fun _ => Entry.empty) es size).mapIdx FdContext.ofEntry := by
    rw [contextResize_of_le (by simpa using h), contextResize_of_le h, List.mapIdx_append,
      List.length_mapIdx]
    refine congrArg (_ ++ ·) (List.ext_getElem? fun i => ?_)
    rw [List.getElem?_map, List.getElem?_mapIdx, List.getElem?_map]
    cases hi : (List.range' es.length (size - es.length))[i]? with
    | none => rfl
    | some n =>
      obtain ⟨_, rfl⟩ := List.getElem?_eq_some_iff.mp hi
      rw [List.getElem_range', Nat.one_mul, Nat.add_comm es.length]
      exact congrArg some FdContext.ofEntry_empty.symm
  have hpending : ((contextResize (fun _ => Entry.empty) es size).map Entry.count).sum =
      (es.map Entry.count).sum := by
    rw [contextResize_of_le h, List.map_append, List.sum_append, List.map_map]
    have hzero : ∀ l : List Nat, (l.map (Entry.count ∘ fun _ => Entry.empty)).sum = 0 := by
      intro l
      induction l with
      | nil => rfl
      | cons x l ih => rw [List.map_cons, List.sum_cons, ih]; rfl
    rw [hzero, Nat.add_zero]
  unfold ofRegistry
  rw [hpending, ← hcontexts]
  exact congrArg (IOManager.mk _ _) (funext fun i => (get_grow h i Entry.interest rfl).symm)

/-- For an fd outside the table `addEvent` is `addEvent` on the grown table. -/
theorem addEvent_outside (h : es.length ≤ fd) (hsize : 32 ≤ es.length) (caller : Caller)
    (cb : Option CallbackId) :
    (ofRegistry es).addEvent caller fd event cb ctl =
      (ofRegistry (contextResize (fun _ => Entry.empty) es (FdTable.growTarget fd))).addEvent
        caller fd event cb ctl := by
  have hgrow : es.length ≤ FdTable.growTarget fd := by unfold FdTable.growTarget; omega
  have hroom : (ofRegistry es).makeRoom fd =
      (ofRegistry
        (contextResize (fun _ => Entry.empty) es (FdTable.growTarget fd))).makeRoom fd := by
    unfold makeRoom
    rw [if_neg (by rw [length_ofRegistry]; omega), if_pos, ofRegistry_grow hgrow]
    rw [length_ofRegistry, length_contextResize]
    rw [FdTable.growTarget]
    omega
  unfold addEvent
  rw [hroom]

/-! ## The loop of `idle` -/

/-- An event is ready when its bit was delivered, or an error or a hang-up. -/
def ready (events : Mask) (event : IOEvent) : Bool :=
  events &&& event.mask != 0 || events &&& (EPOLLERR ||| EPOLLHUP) != 0

/-- `real_events` holds the events that are ready. -/
theorem realEvents_eq (events : Mask) :
    realEvents events = (if ready events .READ then IOEvent.READ.mask else 0) |||
      (if ready events .WRITE then IOEvent.WRITE.mask else 0) := by
  unfold realEvents ready
  by_cases h : events &&& (EPOLLERR ||| EPOLLHUP) = 0
  · have hwiden : widen events = events := if_neg (not_not.mpr h)
    simp [hwiden, h, EPOLLIN, EPOLLOUT, IOEvent.mask]
  · have hwiden : widen events = events ||| (EPOLLIN ||| EPOLLOUT) := if_pos h
    have hin : (events ||| (EPOLLIN ||| EPOLLOUT)) &&& EPOLLIN ≠ 0 := by
      intro h0
      have := congrArg (BitVec.getLsbD · 0) h0
      simp [EPOLLIN, EPOLLOUT] at this
    have hout : (events ||| (EPOLLIN ||| EPOLLOUT)) &&& EPOLLOUT ≠ 0 := by
      intro h0
      have := congrArg (BitVec.getLsbD · 2) h0
      simp [EPOLLIN, EPOLLOUT] at this
    rw [hwiden, if_pos hin, if_pos hout, bne_iff_ne.mpr h]
    simp

section Deliver
variable {events : Mask}

theorem realEvents_READ : (realEvents events &&& IOEvent.READ.mask != 0) = ready events .READ := by
  rw [realEvents_eq]
  cases ready events .READ <;> cases ready events .WRITE <;> rfl

theorem realEvents_WRITE :
    (realEvents events &&& IOEvent.WRITE.mask != 0) = ready events .WRITE := by
  rw [realEvents_eq]
  cases ready events .READ <;> cases ready events .WRITE <;> rfl

theorem has_realEvents :
    (FdContext.ofEntry fd e).has (realEvents events) =
      (ready events .READ && e.read.isSome || ready events .WRITE && e.write.isSome) := by
  show (e.events &&& realEvents events != 0) = _
  rw [realEvents_eq]
  rcases e with ⟨_ | _, _ | _⟩ <;> cases ready events .READ <;> cases ready events .WRITE <;>
    simp [Entry.events, IOEvent.mask]

theorem without_realEvents :
    (FdContext.ofEntry fd e).without (realEvents events) =
      (clearBoth (ready events .READ) (ready events .WRITE) e).events := by
  show e.events &&& ~~~(realEvents events) = _
  rw [realEvents_eq]
  rcases e with ⟨_ | _, _ | _⟩ <;> cases ready events .READ <;> cases ready events .WRITE <;>
    simp [clearBoth, Entry.clearIf, Entry.set, Entry.events, IOEvent.mask]

/-- Nothing that is registered is ready, or `epoll_ctl` fails: nothing happens. -/
theorem handleEvent_nothing (he : es[fd]? = some e)
    (h : (ready events .READ && e.read.isSome || ready events .WRITE && e.write.isSome) = false ∨
      ctl = false) :
    (ofRegistry es).handleEvent fd events ctl = .ok (ofRegistry es, false, []) := by
  rw [handleEvent]
  rw [context_ofRegistry he]
  simp only [bind, Except.bind, has_realEvents, without_realEvents, FdContext.fd_ofEntry,
    epollCtl_clear]
  rcases h with h | rfl
  · rw [h]
    rfl
  · cases (ready events .READ && e.read.isSome || ready events .WRITE && e.write.isSome) <;> rfl

/-- Everything that is ready is registered: it is triggered. -/
theorem handleEvent_registered (he : es[fd]? = some e)
    (hsome : (ready events .READ && e.read.isSome || ready events .WRITE && e.write.isSome) = true)
    (hrd : ready events .READ = true → e.read.isSome = true)
    (hwr : ready events .WRITE = true → e.write.isSome = true) :
    (ofRegistry es).handleEvent fd events true =
      .ok (ofRegistry (es.set fd (clearBoth (ready events .READ) (ready events .WRITE) e)), true,
        triggeredBoth (ready events .READ) (ready events .WRITE) fd e) := by
  have hset := watch_clearBoth he _ _ hrd hwr
  obtain ⟨hread, hwrite⟩ := @triggerIf_both fd e ((ofRegistry es).watch fd
    (clearBoth (ready events .READ) (ready events .WRITE) e)) _ _ hrd hwr
  rw [handleEvent]
  rw [context_ofRegistry he]
  simp only [bind, Except.bind, has_realEvents, without_realEvents, FdContext.fd_ofEntry,
    epollCtl_clear, hsome, realEvents_READ, realEvents_WRITE, hread, hwrite, Bool.not_true,
    Bool.false_eq_true, if_false, if_true]
  exact congrArg (fun m => Except.ok (m, true, _)) hset

/-- One direction is ready and registered, the other ready and not registered: the
assertion of `triggerEvent` fails. -/
theorem handleEvent_unregistered (he : es[fd]? = some e)
    (hsome : (ready events .READ && e.read.isSome || ready events .WRITE && e.write.isSome) = true)
    (hnot : ¬ ((ready events .READ = true → e.read.isSome = true) ∧
      (ready events .WRITE = true → e.write.isSome = true))) :
    (ofRegistry es).handleEvent fd events true = .error .assertion := by
  rw [handleEvent]
  rw [context_ofRegistry he]
  simp only [bind, Except.bind, has_realEvents, without_realEvents, FdContext.fd_ofEntry,
    epollCtl_clear, hsome, realEvents_READ, realEvents_WRITE, Bool.not_true,
    Bool.false_eq_true, if_false, if_true]
  cases hread : e.read with
  | none =>
    cases hrd : ready events .READ with
    | true => rw [@triggerIf_none fd e .READ _ hread]
    | false =>
      -- then the other direction is registered and ready, and nothing is missing
      rw [hrd, Bool.false_and, Bool.false_or, Bool.and_eq_true] at hsome
      exact absurd ⟨fun h => Bool.noConfusion (hrd.symm.trans h), fun _ => hsome.2⟩ hnot
  | some r =>
    have htest : ready events .READ = true → (e.get .READ).isSome = true := fun _ => by
      show e.read.isSome = true
      rw [hread]
      rfl
    have hwr : ready events .WRITE = true ∧ e.write = none := by
      by_contra h
      refine hnot ⟨fun _ => by rw [hread]; rfl, fun hw => ?_⟩
      rw [Option.isSome_iff_ne_none]
      exact fun hnone => h ⟨hw, hnone⟩
    rw [triggerIf_ofEntry _ htest, hwr.1]
    have hnone : (e.clearIf (ready events .READ) .READ).get .WRITE = none := by
      rw [Entry.get_WRITE_clearIf]
      exact hwr.2
    simp only [triggerIf_none _ hnone]

end Deliver
end IOManager
end Operations
end Sylar
