import Sylar.EventRegistry

/-! # Runs of the event registry

`registryMachine` runs the operations of the manager in any order, on any fds, with
any outcome of `epoll_ctl` and any delivered mask, and logs their effects.  A run ends
where an operation faults.

Every operation acts on the entries by the transitions of its effects
(`IOOp.refines`).  So in every reachable state the manager is `ofRegistry` of some
entries, and the effects logged for a slot form its `History`: registrations in
alternation with their consumptions, each by the `schedule()` of that registration or
by one discard, with the registration in the slot still to be consumed.

* **`registry_consistent`**: the bit masks, the slots, the kernel's interest set and
  the counter agree in every reachable state, every slot has its history, and an
  operation that fails changes nothing.  One that succeeds has exactly the effects that
  it is for (`IOOp.Does`): `addEvent` registers what it was given, `delEvent` discards,
  and the others hand what is registered to its scheduler.
* **`idle_triggers_exactly_iff`**: when the loop of `idle` triggers exactly the events
  that are registered and ready. -/
namespace Sylar
open Interleaving

/-- An operation with its arguments. -/
inductive IOOp
  | addEvent (caller : Caller) (fd : Nat) (event : IOEvent) (cb : Option CallbackId) (ctl : Bool)
  | delEvent (fd : Nat) (event : IOEvent) (ctl : Bool)
  | cancelEvent (fd : Nat) (event : IOEvent) (ctl : Bool)
  | cancelAll (fd : Nat) (ctl : Bool)
  | handleEvent (fd : Nat) (events : Mask) (ctl : Bool)

namespace IOOp

def run (m : IOManager) : IOOp → Except IOFault (IOManager × Bool × List Effect)
  | addEvent caller fd event cb ctl => m.addEvent caller fd event cb ctl
  | delEvent fd event ctl => m.delEvent fd event ctl
  | cancelEvent fd event ctl => m.cancelEvent fd event ctl
  | cancelAll fd ctl => m.cancelAll fd ctl
  | handleEvent fd events ctl => m.handleEvent fd events ctl

def fd : IOOp → Nat
  | addEvent _ fd _ _ _ => fd
  | delEvent fd _ _ => fd
  | cancelEvent fd _ _ => fd
  | cancelAll fd _ => fd
  | handleEvent fd _ _ => fd

/-- The registrations of the events, each handed to its scheduler. -/
def handedOver (fd : Nat) (held : IOEvent → Option Registration) (events : List IOEvent) :
    List Effect :=
  events.flatMap fun event => (held event).toList.map fun r => ⟨fd, event, .scheduled r⟩

/-- **What an operation is for**: its effects when it succeeds and `held` is registered
on its fd. -/
def Does (held : IOEvent → Option Registration) (effects : List Effect) : IOOp → Prop
  | addEvent caller fd event cb _ =>
    held event = none ∧ ∃ task, IOManager.taskOf caller cb = some task ∧
      effects = [⟨fd, event, .registered ⟨caller.scheduler, task⟩⟩]
  | delEvent fd event _ => held event ≠ none ∧ effects = [⟨fd, event, .discarded⟩]
  | cancelEvent fd event _ =>
    ∃ r, held event = some r ∧ effects = [⟨fd, event, .scheduled r⟩]
  | cancelAll fd _ => effects = handedOver fd held [.READ, .WRITE] ∧ effects ≠ []
  | handleEvent fd events _ =>
    effects = handedOver fd held ([.READ, .WRITE].filter (IOManager.ready events)) ∧ effects ≠ []

end IOOp

/-- The manager, and the effects of the operations so far. -/
structure IORun where
  manager : IOManager
  log : List Effect

/-- Operations in any order, from the state that the constructor leaves. -/
def registryMachine : Machine IORun IOOp where
  init s := s = { manager := .new, log := [] }
  step s op :=
    match op.run s.manager with
    | .ok (m, _, effects) => some { manager := m, log := s.log ++ effects }
    | .error _ => none

/-! ## Operations as transitions -/

section Refine
variable {es : List Entry} {fd : Nat} {e : Entry}

theorem transitions_clearIf (he : es[fd]? = some e) (test : Bool) (event : IOEvent) :
    Transitions es (IOManager.triggered test fd e event) (es.set fd (e.clearIf test event)) := by
  have hself : es.set fd e = es := by
    obtain ⟨hlt, rfl⟩ := List.getElem?_eq_some_iff.mp he
    exact List.set_getElem_self hlt
  rw [IOManager.triggered, Entry.clearIf]
  cases test with
  | false =>
    rw [if_neg Bool.false_ne_true, if_neg Bool.false_ne_true, hself]
    exact .nil es
  | true =>
    rw [if_pos rfl, if_pos rfl]
    cases hget : e.get event with
    | none =>
      have hset : e.set event none = e := by
        rcases e with ⟨_ | _, _ | _⟩ <;> cases event <;> first | rfl | cases hget
      rw [hset, hself]
      exact .nil es
    | some r => exact .one (.schedule he hget)

/-- Both triggers are transitions of the entry. -/
theorem transitions_clearBoth (he : es[fd]? = some e) (rd wr : Bool) :
    Transitions es (IOManager.triggeredBoth rd wr fd e)
      (es.set fd (IOManager.clearBoth rd wr e)) := by
  have hlt := (List.getElem?_eq_some_iff.mp he).1
  have hwrite :=
    transitions_clearIf (List.getElem?_set_self (a := e.clearIf rd .READ) hlt) wr .WRITE
  rw [List.set_set, IOManager.triggered_WRITE_clearIf] at hwrite
  exact (transitions_clearIf he rd .READ).append hwrite

/-- What is registered for an event. -/
def registeredAt (es : List Entry) (fd : Nat) (event : IOEvent) : Option Registration :=
  (es[fd]?).bind fun e => e.get event

theorem registeredAt_eq (he : es[fd]? = some e) (event : IOEvent) :
    registeredAt es fd event = e.get event := by
  rw [registeredAt, he, Option.bind_some]

/-- A table that grows has the same registrations. -/
theorem registeredAt_grow {size : Nat} (hsize : es.length ≤ size) (fd : Nat) (event : IOEvent) :
    registeredAt (contextResize (fun _ => .empty) es size) fd event = registeredAt es fd event :=
  IOManager.get_grow hsize fd (fun e => e.get event) (by cases event <;> rfl)

/-- What it takes for a completed operation to be its effects, and to have those that it
is for. -/
def Refines (es : List Entry) (op : IOOp)
    (x : Except IOFault (IOManager × Bool × List Effect)) : Prop :=
  ∀ m ok effects, x = .ok (m, ok, effects) →
    ∃ es', m = .ofRegistry es' ∧ Transitions es effects es' ∧
      (ok = false → es' = es ∧ effects = []) ∧
      (ok = true → op.Does (registeredAt es op.fd) effects)

variable {op : IOOp}

theorem Refines.failed : Refines es op (.ok (.ofRegistry es, false, [])) := by
  intro m ok effects h
  cases h
  exact ⟨es, rfl, .nil es, fun _ => ⟨rfl, rfl⟩, nofun⟩

theorem Refines.fault {f : IOFault} : Refines es op (.error f) := by
  intro m ok effects h
  cases h

theorem Refines.done {es' : List Entry} {effects : List Effect} (h : Transitions es effects es')
    (hdoes : op.Does (registeredAt es op.fd) effects) :
    Refines es op (.ok (.ofRegistry es', true, effects)) := by
  intro m ok effects' heq
  cases heq
  exact ⟨es', rfl, h, nofun, fun _ => hdoes⟩

/-- The effects of both triggers, as hand-overs. -/
theorem triggeredBoth_ready (he : es[fd]? = some e) (test : IOEvent → Bool) :
    IOManager.triggeredBoth (test .READ) (test .WRITE) fd e =
      IOOp.handedOver fd (registeredAt es fd) ([.READ, .WRITE].filter test) := by
  simp only [IOManager.triggeredBoth, IOManager.triggered, IOOp.handedOver, registeredAt_eq he,
    List.filter_cons, List.filter_nil]
  cases test .READ <;> cases test .WRITE <;> simp

/-- The effects of the triggers of all that is registered. -/
theorem triggeredBoth_all (he : es[fd]? = some e) :
    IOManager.triggeredBoth e.read.isSome e.write.isSome fd e =
      IOOp.handedOver fd (registeredAt es fd) [.READ, .WRITE] := by
  simp only [IOManager.triggeredBoth, IOManager.triggered, IOOp.handedOver, registeredAt_eq he]
  rcases e with ⟨_ | _, _ | _⟩ <;> rfl

section Table
variable {event : IOEvent} {ctl : Bool} (he : es[fd]? = some e)
include he

/-! One lemma for each operation on an fd inside the table. -/

theorem refines_addEvent (caller : Caller) (cb : Option CallbackId) :
    Refines es (.addEvent caller fd event cb ctl)
      ((IOManager.ofRegistry es).addEvent caller fd event cb ctl) := by
  cases hget : e.get event with
  | some r =>
    rw [IOManager.addEvent_registered he (by rw [hget]; exact Option.some_ne_none r)]
    exact .fault
  | none =>
    rw [IOManager.addEvent_ofRegistry he hget]
    split
    · exact .failed
    · split
      · exact .fault
      · rename_i hne
        split
        · rename_i task htask
          refine .done (.one (.register he hne hget)) ⟨?_, task, htask, rfl⟩
          exact (registeredAt_eq he event).trans hget
        · exact .fault

theorem refines_delEvent :
    Refines es (.delEvent fd event ctl) ((IOManager.ofRegistry es).delEvent fd event ctl) := by
  rw [IOManager.delEvent_ofRegistry he]
  split
  · exact .failed
  · rename_i h
    have hsome : e.get event ≠ none := fun hnone => h (Or.inl hnone)
    obtain ⟨r, hr⟩ := Option.ne_none_iff_exists'.mp hsome
    exact .done (.one (.discard he hr)) ⟨by rwa [IOOp.fd, registeredAt_eq he], rfl⟩

theorem refines_cancelEvent :
    Refines es (.cancelEvent fd event ctl)
      ((IOManager.ofRegistry es).cancelEvent fd event ctl) := by
  rw [IOManager.cancelEvent_ofRegistry he]
  split
  · rename_i r hr
    exact .done (.one (.schedule he hr)) ⟨r, (registeredAt_eq he event).trans hr, rfl⟩
  · exact .failed

theorem refines_cancelAll :
    Refines es (.cancelAll fd ctl) ((IOManager.ofRegistry es).cancelAll fd ctl) := by
  rw [IOManager.cancelAll_ofRegistry he]
  split
  · exact .failed
  · rename_i h
    refine .done ?_ ⟨triggeredBoth_all he, ?_⟩
    · have := transitions_clearBoth he e.read.isSome e.write.isSome
      rwa [IOManager.clearBoth_all] at this
    · intro hnil
      refine h (Or.inl ?_)
      rcases e with ⟨_ | _, _ | _⟩ <;> first | rfl | cases hnil

theorem refines_handleEvent (events : Mask) :
    Refines es (.handleEvent fd events ctl)
      ((IOManager.ofRegistry es).handleEvent fd events ctl) := by
  by_cases hnothing : (IOManager.ready events .READ && e.read.isSome ||
      IOManager.ready events .WRITE && e.write.isSome) = false ∨ ctl = false
  · rw [IOManager.handleEvent_nothing he hnothing]
    exact .failed
  · obtain ⟨hsome, hctl⟩ := not_or.mp hnothing
    obtain rfl : ctl = true := by simpa using hctl
    replace hsome := Bool.not_eq_false _ ▸ hsome
    by_cases hall : (IOManager.ready events .READ = true → e.read.isSome = true) ∧
        (IOManager.ready events .WRITE = true → e.write.isSome = true)
    · rw [IOManager.handleEvent_registered he hsome hall.1 hall.2]
      refine .done (transitions_clearBoth he _ _) ⟨triggeredBoth_ready he _, ?_⟩
      intro hnil
      rcases e with ⟨_ | _, _ | _⟩ <;> cases hread : IOManager.ready events .READ <;>
        cases hwrite : IOManager.ready events .WRITE <;>
        simp [IOManager.triggeredBoth, IOManager.triggered, Entry.get, hread, hwrite] at hnil hsome
    · rw [IOManager.handleEvent_unregistered he hsome hall]
      exact .fault

end Table

/-- **Every operation on an fd inside the table is the transitions of its effects**, and
has the effects that it is for. -/
theorem IOOp.refines (op : IOOp) (he : es[op.fd]? = some e) :
    Refines es op (op.run (.ofRegistry es)) := by
  cases op with
  | addEvent caller fd event cb ctl => exact refines_addEvent he caller cb
  | delEvent fd event ctl => exact refines_delEvent he
  | cancelEvent fd event ctl => exact refines_cancelEvent he
  | cancelAll fd ctl => exact refines_cancelAll he
  | handleEvent fd events ctl => exact refines_handleEvent he events

/-- On an fd outside the table `addEvent` grows the table first, and the others do
nothing or fault. -/
theorem IOOp.refines_outside (op : IOOp) (hsize : 32 ≤ es.length) (h : es.length ≤ op.fd) :
    Refines es op (op.run (.ofRegistry es)) ∨
      Refines (contextResize (fun _ => .empty) es (FdTable.growTarget op.fd)) op
        (op.run (.ofRegistry es)) := by
  have hnone : (IOManager.ofRegistry es).context op.fd = .error .outOfBounds := by
    rw [IOManager.context]
    rw [List.getElem?_eq_none (by rw [IOManager.length_ofRegistry]; exact h)]
  cases op with
  | addEvent caller fd event cb ctl =>
    replace h : es.length ≤ fd := h
    have hlt : fd < (contextResize (fun _ => Entry.empty) es (FdTable.growTarget fd)).length := by
      rw [length_contextResize]
      rw [FdTable.growTarget]
      omega
    refine Or.inr ?_
    show Refines _ _ (IOManager.addEvent _ _ _ _ _ _)
    rw [IOManager.addEvent_outside h hsize]
    exact IOOp.refines (.addEvent caller fd event cb ctl) (List.getElem?_eq_getElem hlt)
  | delEvent fd event ctl =>
    refine Or.inl ?_
    show Refines es _ (IOManager.delEvent _ _ _ _)
    rw [IOManager.delEvent]
    split
    · exact .failed
    · rw [show (IOManager.ofRegistry es).context fd = .error .outOfBounds from hnone]
      exact .fault
  | cancelEvent fd event ctl =>
    refine Or.inl ?_
    show Refines es _ (IOManager.cancelEvent _ _ _ _)
    rw [IOManager.cancelEvent]
    rw [if_pos (by rw [IOManager.length_ofRegistry]; exact h)]
    exact .failed
  | cancelAll fd ctl =>
    refine Or.inl ?_
    show Refines es _ (IOManager.cancelAll _ _ _)
    rw [IOManager.cancelAll]
    rw [if_pos (by rw [IOManager.length_ofRegistry]; exact h)]
    exact .failed
  | handleEvent fd events ctl =>
    refine Or.inl ?_
    show Refines es _ (IOManager.handleEvent _ _ _ _)
    rw [IOManager.handleEvent]
    rw [show (IOManager.ofRegistry es).context fd = .error .outOfBounds from hnone]
    exact .fault

/-- The entries that an operation works on are those of the table, or of the grown one. -/
theorem IOOp.refines_some (op : IOOp) (hsize : 32 ≤ es.length) :
    ∃ es₀ : List Entry, 32 ≤ es₀.length ∧ registeredAt es₀ = registeredAt es ∧
      Refines es₀ op (op.run (.ofRegistry es)) := by
  rcases Nat.lt_or_ge op.fd es.length with hlt | hge
  · exact ⟨es, hsize, rfl, op.refines (List.getElem?_eq_getElem hlt)⟩
  · rcases op.refines_outside hsize hge with href | href
    · exact ⟨es, hsize, rfl, href⟩
    · have hgrow : es.length ≤ FdTable.growTarget op.fd := by
        rw [FdTable.growTarget]
        omega
      refine ⟨_, ?_, funext fun fd => funext (registeredAt_grow hgrow fd), href⟩
      rw [length_contextResize]
      exact Nat.le_trans hsize hgrow

end Refine

/-! ## The history of a slot -/

/-- What may have happened to the registrations of one slot, with the registration
that is in it now: each is consumed once, by its own `schedule()` or by a discard,
before the next is made. -/
inductive History : List EffectKind → Option Registration → Prop
  | nil : History [] none
  | registered {l : List EffectKind} (r : Registration) :
      History l none → History (l ++ [.registered r]) (some r)
  | scheduled {l : List EffectKind} {r : Registration} :
      History l (some r) → History (l ++ [.scheduled r]) none
  | discarded {l : List EffectKind} {r : Registration} :
      History l (some r) → History (l ++ [.discarded]) none

/-- What happened to one slot. -/
def slotLog (log : List Effect) (fd : Nat) (event : IOEvent) : List EffectKind :=
  (log.filter fun x => x.fd = fd ∧ x.event = event).map Effect.kind

/-- Every slot has its history. -/
def Histories (log : List Effect) (es : List Entry) : Prop :=
  ∀ fd event, History (slotLog log fd event) (registeredAt es fd event)

section Histories
variable {log : List Effect} {es es' : List Entry} {x : Effect} {xs : List Effect}

theorem slotLog_snoc_self (log : List Effect) (fd : Nat) (event : IOEvent) (kind : EffectKind) :
    slotLog (log ++ [⟨fd, event, kind⟩]) fd event = slotLog log fd event ++ [kind] := by
  simp [slotLog]

theorem slotLog_snoc_of_ne {fd : Nat} {event : IOEvent} (h : ¬ (x.fd = fd ∧ x.event = event)) :
    slotLog (log ++ [x]) fd event = slotLog log fd event := by
  unfold slotLog
  rw [List.filter_append, List.filter_cons_of_neg (by simpa using h), List.filter_nil,
    List.append_nil]

/-- Writing a slot of an entry leaves every other slot as it is. -/
theorem registeredAt_set {fd : Nat} {e : Entry} {event : IOEvent} (he : es[fd]? = some e)
    (v : Option Registration) (fd' : Nat) (event' : IOEvent) (hne : ¬ (fd = fd' ∧ event = event')) :
    registeredAt (es.set fd (e.set event v)) fd' event' = registeredAt es fd' event' := by
  have hlt := (List.getElem?_eq_some_iff.mp he).1
  unfold registeredAt
  by_cases hfd : fd = fd'
  · subst hfd
    rw [List.getElem?_set_self hlt, he]
    exact Entry.get_set_of_ne (fun h => hne ⟨rfl, h.symm⟩) v
  · rw [List.getElem?_set_ne hfd]

theorem registeredAt_set_self {fd : Nat} {e : Entry} {event : IOEvent} (he : es[fd]? = some e)
    (hne : event ≠ .NONE) (v : Option Registration) :
    registeredAt (es.set fd (e.set event v)) fd event = v := by
  have hlt := (List.getElem?_eq_some_iff.mp he).1
  rw [registeredAt]
  rw [List.getElem?_set_self hlt]
  exact Entry.get_set_self hne v

/-- **One transition extends the history of its slot.** -/
theorem Histories.transition (h : Histories log es) (hx : Transition es x es') :
    Histories (log ++ [x]) es' := by
  intro fd' event'
  cases hx with
  | @register fd e event r he hne hget =>
    by_cases hslot : fd = fd' ∧ event = event'
    · obtain ⟨rfl, rfl⟩ := hslot
      have hnow := h fd event
      rw [registeredAt_eq he, hget] at hnow
      rw [slotLog_snoc_self, registeredAt_set_self he hne]
      exact .registered r hnow
    · rw [slotLog_snoc_of_ne hslot, registeredAt_set he _ _ _ hslot]
      exact h fd' event'
  | @schedule fd e event r he hget =>
    by_cases hslot : fd = fd' ∧ event = event'
    · obtain ⟨rfl, rfl⟩ := hslot
      have hnow := h fd event
      rw [registeredAt_eq he, hget] at hnow
      rw [slotLog_snoc_self, registeredAt_set_self he (Entry.ne_NONE_of_get hget)]
      exact .scheduled hnow
    · rw [slotLog_snoc_of_ne hslot, registeredAt_set he _ _ _ hslot]
      exact h fd' event'
  | @discard fd e event r he hget =>
    by_cases hslot : fd = fd' ∧ event = event'
    · obtain ⟨rfl, rfl⟩ := hslot
      have hnow := h fd event
      rw [registeredAt_eq he, hget] at hnow
      rw [slotLog_snoc_self, registeredAt_set_self he (Entry.ne_NONE_of_get hget)]
      exact .discarded hnow
    · rw [slotLog_snoc_of_ne hslot, registeredAt_set he _ _ _ hslot]
      exact h fd' event'

theorem Histories.transitions (h : Histories log es) (hxs : Transitions es xs es') :
    Histories (log ++ xs) es' := by
  induction hxs generalizing log with
  | nil _ => rwa [List.append_nil]
  | cons hx _ ih =>
    have := ih (h.transition hx)
    rwa [List.append_assoc] at this

theorem Transition.length (h : Transition es x es') : es'.length = es.length := by
  cases h <;> exact List.length_set

theorem Transitions.length (h : Transitions es xs es') : es'.length = es.length := by
  induction h with
  | nil _ => rfl
  | cons hx _ ih => exact ih.trans hx.length

/-- A table that grows has the same histories. -/
theorem Histories.grow (h : Histories log es) {size : Nat} (hsize : es.length ≤ size) :
    Histories log (contextResize (fun _ => .empty) es size) := by
  intro fd event
  rw [registeredAt_grow hsize]
  exact h fd event

end Histories

/-! ## Reachable states -/

/-- **The invariant**: the manager is some entries as the code keeps them, and every
slot has its history. -/
def IORun.Good (s : IORun) : Prop :=
  ∃ es, 32 ≤ es.length ∧ s.manager = .ofRegistry es ∧ Histories s.log es

theorem IOManager.new_eq : IOManager.new = .ofRegistry (contextResize (fun _ => .empty) [] 32) := by
  have := @ofRegistry_grow [] 32 (Nat.zero_le _)
  rw [← this]
  rfl

theorem IORun.Good.init {s : IORun} (h : registryMachine.init s) : s.Good := by
  obtain rfl : s = { manager := .new, log := [] } := h
  refine ⟨_, ?_, IOManager.new_eq, ?_⟩
  · rw [length_contextResize]
  · refine Histories.grow ?_ (Nat.zero_le _)
    intro fd event
    exact .nil

theorem IORun.Good.step {s t : IORun} {op : IOOp} (h : s.Good)
    (hst : registryMachine.step s op = some t) : t.Good := by
  obtain ⟨es, hsize, hm, hlog⟩ := h
  simp only [registryMachine, hm] at hst
  split at hst
  · rename_i m ok effects hrun
    obtain rfl := Option.some.inj hst
    obtain ⟨es₀, hsize₀, hsame, href⟩ := op.refines_some hsize
    have hlog₀ : Histories s.log es₀ := by rwa [Histories, hsame]
    obtain ⟨es', rfl, htrans, -⟩ := href m ok effects hrun
    exact ⟨es', by rw [htrans.length]; exact hsize₀, rfl, hlog₀.transitions htrans⟩
  · cases hst

theorem IORun.good_of_reachable {s : IORun} (h : registryMachine.Reachable s) : s.Good :=
  h.invariant (fun _ => Good.init) fun _ _ _ hg hst => hg.step hst

/-- The slot of an event. -/
def FdContext.slot (c : FdContext) : IOEvent → EventContext
  | .READ => c.read
  | .WRITE => c.write
  | .NONE => .empty

/-- A scheduler, and exactly one of fiber and callback. -/
def EventContext.Full (slot : EventContext) : Prop :=
  slot.scheduler.isSome = true ∧ (slot.fiber.isSome != slot.cb.isSome) = true

/-- The registration in a slot. -/
def EventContext.registration (slot : EventContext) : Option Registration :=
  match slot.scheduler, slot.fiber, slot.cb with
  | some s, some f, none => some ⟨s, .fiber f⟩
  | some s, none, some cb => some ⟨s, .callback cb⟩
  | _, _, _ => none

/-- The number of event bits that are set. -/
def FdContext.bits (c : FdContext) : Nat :=
  [IOEvent.READ, IOEvent.WRITE].countP fun event => c.has event.mask

/-- **The four copies agree.** -/
structure Consistent (m : IOManager) : Prop where
  pending : m.pendingEventCount = (m.fdContexts.map FdContext.bits).sum
  events : ∀ c ∈ m.fdContexts, c.without (IOEvent.READ.mask ||| IOEvent.WRITE.mask) = 0
  full : ∀ c ∈ m.fdContexts, ∀ event, c.has event.mask = true → (c.slot event).Full
  empty : ∀ c ∈ m.fdContexts, ∀ event, c.has event.mask = false → c.slot event = .empty
  kernel : ∀ fd c, m.fdContexts[fd]? = some c →
    m.kernel fd = if c.events = 0 then none else some (EPOLLET ||| c.events)

/-- What is registered for an event. -/
def IOManager.outstanding (m : IOManager) (fd : Nat) (event : IOEvent) : Option Registration :=
  (m.fdContexts[fd]?).bind fun c => (c.slot event).registration

section Consistent
variable {es : List Entry} {fd : Nat} {e : Entry} {event : IOEvent}

theorem FdContext.slot_ofEntry : (FdContext.ofEntry fd e).slot event = slotOf (e.get event) := by
  cases event <;> rfl

theorem registration_slotOf (v : Option Registration) : (slotOf v).registration = v := by
  rcases v with _ | ⟨s, _ | _⟩ <;> rfl

theorem FdContext.bits_ofEntry : (FdContext.ofEntry fd e).bits = e.count := by
  rw [bits]
  simp only [has_ofEntry]
  rcases e with ⟨_ | _, _ | _⟩ <;> rfl

theorem IOManager.mem_ofRegistry {c : FdContext} (h : c ∈ (IOManager.ofRegistry es).fdContexts) :
    ∃ fd e, c = FdContext.ofEntry fd e := by
  obtain ⟨i, hi, rfl⟩ := List.mem_mapIdx.mp h
  exact ⟨i, _, rfl⟩

theorem consistent_ofRegistry (es : List Entry) : Consistent (.ofRegistry es) where
  pending := by
    show (es.map Entry.count).sum = ((es.mapIdx FdContext.ofEntry).map FdContext.bits).sum
    refine congrArg List.sum (List.ext_getElem? fun i => ?_)
    simp only [List.getElem?_map, List.getElem?_mapIdx, Option.map_map]
    exact congrArg (Option.map · _) (funext fun e => FdContext.bits_ofEntry.symm)
  events c hc := by
    obtain ⟨fd, e, rfl⟩ := IOManager.mem_ofRegistry hc
    rcases e with ⟨_ | _, _ | _⟩ <;>
      simp [FdContext.without, FdContext.ofEntry, Entry.events, IOEvent.mask]
  full c hc event h := by
    obtain ⟨fd, e, rfl⟩ := IOManager.mem_ofRegistry hc
    rw [FdContext.has_ofEntry] at h
    obtain ⟨r, hr⟩ := Option.isSome_iff_exists.mp h
    rw [FdContext.slot_ofEntry, hr]
    rcases r with ⟨s, _ | _⟩ <;> exact ⟨rfl, rfl⟩
  empty c hc event h := by
    obtain ⟨fd, e, rfl⟩ := IOManager.mem_ofRegistry hc
    rw [FdContext.has_ofEntry] at h
    rw [FdContext.slot_ofEntry, Option.isSome_eq_false_iff.mp h |> Option.isNone_iff_eq_none.mp]
    rfl
  kernel fd c hc := by
    obtain ⟨e, he, rfl⟩ := Option.map_eq_some_iff.mp ((List.getElem?_mapIdx ..).symm.trans hc)
    show (es[fd]?).bind Entry.interest = _
    rw [he]
    rfl

theorem IOManager.outstanding_ofRegistry :
    (IOManager.ofRegistry es).outstanding fd event = registeredAt es fd event := by
  rw [outstanding, registeredAt]
  show ((es.mapIdx FdContext.ofEntry)[fd]?).bind _ = _
  rw [List.getElem?_mapIdx]
  cases es[fd]? with
  | none => rfl
  | some e =>
    show ((FdContext.ofEntry fd e).slot event).registration = e.get event
    rw [FdContext.slot_ofEntry, registration_slotOf]

end Consistent

theorem registryMachine_init : registryMachine.init { manager := .new, log := [] } := rfl

/-- The events of `c` that are registered and ready are triggered, each by one
`schedule()`, in the order of the loop, and nothing else. -/
def TriggersExactly (c : FdContext) (fd : Nat) (events : Mask) (effects : List Effect) : Prop :=
  (∀ x ∈ effects, x.fd = fd ∧ ∃ r, x.kind = .scheduled r) ∧
  effects.map Effect.event =
    [IOEvent.READ, IOEvent.WRITE].filter fun event =>
      c.has event.mask && IOManager.ready events event

section Idle
variable {es : List Entry} {fd : Nat} {e : Entry} {events : Mask}

theorem triggered_event (test : Bool) (event : IOEvent) :
    (IOManager.triggered test fd e event).map Effect.event =
      if (e.get event).isSome && test then [event] else [] := by
  rw [IOManager.triggered]
  cases test <;> cases e.get event <;> rfl

theorem mem_triggered {test : Bool} {event : IOEvent} {x : Effect}
    (h : x ∈ IOManager.triggered test fd e event) : x.fd = fd ∧ ∃ r, x.kind = .scheduled r := by
  rw [IOManager.triggered] at h
  split at h
  · obtain ⟨r, -, rfl⟩ := List.mem_map.mp h
    exact ⟨rfl, r, rfl⟩
  · cases h

theorem triggeredBoth_exactly (fd : Nat) (e : Entry) (events : Mask) :
    TriggersExactly (FdContext.ofEntry fd e) fd events
      (IOManager.triggeredBoth (IOManager.ready events .READ)
        (IOManager.ready events .WRITE) fd e) := by
  constructor
  · intro x hx
    rcases List.mem_append.mp hx with hx | hx
    · exact mem_triggered hx
    · exact mem_triggered hx
  · rw [IOManager.triggeredBoth]
    rw [List.map_append, triggered_event, triggered_event]
    simp only [List.filter_cons, List.filter_nil, FdContext.has_ofEntry]
    split <;> split <;> rfl

/-- Nothing that is registered is ready, as the loop finds it out. -/
theorem nothing_ready_iff :
    (IOManager.ready events .READ && e.read.isSome ||
      IOManager.ready events .WRITE && e.write.isSome) = false ↔
      ∀ event, ¬ ((e.get event).isSome = true ∧ IOManager.ready events event = true) := by
  constructor
  · rintro h event ⟨hget, hready⟩
    obtain ⟨hread, hwrite⟩ := Bool.or_eq_false_iff.mp h
    cases event with
    | NONE => cases hget
    | READ => rw [hready, show e.read.isSome = true from hget] at hread; cases hread
    | WRITE => rw [hready, show e.write.isSome = true from hget] at hwrite; cases hwrite
  · intro h
    rw [Bool.or_eq_false_iff]
    constructor
    · rw [Bool.eq_false_iff]
      intro hand
      exact h .READ (Bool.and_eq_true_iff.mp hand).symm
    · rw [Bool.eq_false_iff]
      intro hand
      exact h .WRITE (Bool.and_eq_true_iff.mp hand).symm

theorem all_registered_iff :
    ((IOManager.ready events .READ = true → e.read.isSome = true) ∧
      (IOManager.ready events .WRITE = true → e.write.isSome = true)) ↔
      ∀ event, event ≠ .NONE → IOManager.ready events event = true →
        (e.get event).isSome = true := by
  constructor
  · rintro ⟨hread, hwrite⟩ event hne hready
    cases event with
    | NONE => exact absurd rfl hne
    | READ => exact hread hready
    | WRITE => exact hwrite hready
  · intro h
    exact ⟨h .READ (by decide), h .WRITE (by decide)⟩

/-- No effect is exact only when no registered event is ready. -/
theorem triggersExactly_nil :
    TriggersExactly (FdContext.ofEntry fd e) fd events [] ↔
      ∀ event, ¬ ((e.get event).isSome = true ∧ IOManager.ready events event = true) := by
  constructor
  · rintro ⟨-, h⟩ event ⟨hget, hready⟩
    have hmem : event ∈ [IOEvent.READ, IOEvent.WRITE] := by
      cases event with
      | NONE => cases hget
      | READ => exact List.mem_cons_self ..
      | WRITE => exact List.mem_cons_of_mem _ (List.mem_singleton.mpr rfl)
    have hfilter := List.filter_eq_nil_iff.mp h.symm event hmem
    rw [FdContext.has_ofEntry, hget, hready] at hfilter
    exact hfilter rfl
  · intro h
    refine ⟨fun x hx => absurd hx List.not_mem_nil, ?_⟩
    rw [List.map_nil, eq_comm, List.filter_eq_nil_iff]
    intro event _ hand
    rw [FdContext.has_ofEntry] at hand
    exact h event (Bool.and_eq_true_iff.mp hand)

end Idle

/-- **When the loop of `idle` triggers exactly what is registered and ready.**  In every
reachable state, for every context of the table and every delivered mask: exactly
when no registered event is ready, or `epoll_ctl` succeeds and every ready event is
registered.  In particular only then does no assertion fail. -/
theorem idle_triggers_exactly_iff {s : IORun} (h : registryMachine.Reachable s) {fd : Nat}
    {c : FdContext} (hc : s.manager.fdContexts[fd]? = some c) (events : Mask) (ctl : Bool) :
    (∃ m ok effects, s.manager.handleEvent fd events ctl = .ok (m, ok, effects) ∧
      TriggersExactly c fd events effects) ↔
      (∀ event, ¬ (c.has event.mask = true ∧ IOManager.ready events event = true)) ∨
        (ctl = true ∧ ∀ event, event ≠ .NONE → IOManager.ready events event = true →
          c.has event.mask = true) := by
  obtain ⟨es, -, hm, -⟩ := IORun.good_of_reachable h
  rw [hm] at hc ⊢
  obtain ⟨e, he, rfl⟩ := Option.map_eq_some_iff.mp ((List.getElem?_mapIdx ..).symm.trans hc)
  simp only [FdContext.has_ofEntry]
  by_cases hnothing : ∀ event, ¬ ((e.get event).isSome = true ∧ IOManager.ready events event = true)
  · have hrun := @IOManager.handleEvent_nothing es fd e ctl events he
      (Or.inl (nothing_ready_iff.mpr hnothing))
    exact iff_of_true ⟨_, _, _, hrun, triggersExactly_nil.mpr hnothing⟩ (Or.inl hnothing)
  have hsome := mt nothing_ready_iff.mp hnothing
  rw [Bool.not_eq_false] at hsome
  cases ctl with
  | false =>
    refine iff_of_false ?_ ?_
    · rintro ⟨m, ok, effects, hrun, hexact⟩
      rw [IOManager.handleEvent_nothing he (Or.inr rfl)] at hrun
      cases hrun
      exact hnothing (triggersExactly_nil.mp hexact)
    · rintro (h | ⟨h, -⟩)
      · exact hnothing h
      · cases h
  | true =>
    by_cases hall : ∀ event, event ≠ .NONE → IOManager.ready events event = true →
        (e.get event).isSome = true
    · obtain ⟨hread, hwrite⟩ := all_registered_iff.mpr hall
      have hrun := IOManager.handleEvent_registered he hsome hread hwrite
      exact iff_of_true ⟨_, _, _, hrun, triggeredBoth_exactly fd e events⟩ (Or.inr ⟨rfl, hall⟩)
    · refine iff_of_false ?_ ?_
      · rintro ⟨m, ok, effects, hrun, -⟩
        rw [IOManager.handleEvent_unregistered he hsome (mt all_registered_iff.mp hall)] at hrun
        cases hrun
      · rintro (h | ⟨-, h⟩)
        · exact hnothing h
        · exact hall h

/-- A callback waits for READ on fd 5, and READ alone is delivered. -/
theorem idle_triggers_exactly_iff_read :
    ∃ s c, registryMachine.Reachable s ∧ s.manager.fdContexts[5]? = some c ∧
      ((∃ m ok effects, s.manager.handleEvent 5 EPOLLIN true = .ok (m, ok, effects) ∧
        TriggersExactly c 5 EPOLLIN effects) ↔
      (∀ event, ¬ (c.has event.mask = true ∧ IOManager.ready EPOLLIN event = true)) ∨
        (true = true ∧ ∀ event, event ≠ .NONE → IOManager.ready EPOLLIN event = true →
          c.has event.mask = true)) := by
  obtain ⟨s, hrun, hs⟩ := Machine.Run.of_exec_any registryMachine_init
    [.addEvent ⟨1, 2, true⟩ 5 .READ (some 3) true]
    (fun s => (s.manager.fdContexts[5]?).isSome) (by decide +kernel)
  obtain ⟨c, hc⟩ := Option.isSome_iff_exists.mp hs
  exact ⟨s, c, ⟨_, hrun⟩, hc, idle_triggers_exactly_iff ⟨_, hrun⟩ hc EPOLLIN true⟩

/-- A callback waits for READ on fd 5 and the kernel reports an error: READ is triggered
and then the assertion fails for WRITE, which is not registered. -/
theorem idle_triggers_unregistered :
    ∃ s c, registryMachine.Reachable s ∧ s.manager.fdContexts[5]? = some c ∧
      c.has IOEvent.READ.mask = true ∧
      s.manager.handleEvent 5 EPOLLERR true = .error .assertion := by
  obtain ⟨s, hrun, hs⟩ := Machine.Run.of_exec_any registryMachine_init
    [.addEvent ⟨1, 2, true⟩ 5 .READ (some 3) true]
    (fun s => (s.manager.fdContexts[5]?).any (fun c => c.has IOEvent.READ.mask) &&
      match s.manager.handleEvent 5 EPOLLERR true with
      | .error .assertion => true
      | _ => false) (by decide +kernel)
  obtain ⟨hc, hfault⟩ := Bool.and_eq_true_iff.mp hs
  obtain ⟨c, hc, hread⟩ := Option.any_eq_true _ _ |>.mp hc
  refine ⟨s, c, ⟨_, hrun⟩, hc, hread, ?_⟩
  split at hfault
  · assumption
  · cases hfault

end Sylar
