import Sylar.FdTable
import Sylar.Fiber

/-! # The event registry of the IO manager

Per fd the registry keeps a mask of the registered events and, for each event, a
slot with what is to be scheduled when it is ready.  The same fact is also in the
kernel's interest set and in the counter of pending events.

Here are the five operations on it, each atomic under the fd's mutex: `addEvent`,
`delEvent`, `cancelEvent`, `cancelAll`, and `handleEvent`, the body of the loop in
`idle` for one event that `epoll_wait` returned.  Whether `epoll_ctl` succeeds is an
argument (`ctl`).  A failed assertion, a read outside the table and a call through a
null scheduler are faults: the run ends there.

Besides the new state and whether it did what it was called for, an operation returns
its effects: the registrations it made, handed to their scheduler, or dropped. -/
namespace Sylar

/-- An event mask, as the kernel and `IOManager::Event` have it. -/
abbrev Mask := BitVec 32

def EPOLLIN : Mask := 0x1
def EPOLLOUT : Mask := 0x4
def EPOLLERR : Mask := 0x8
def EPOLLHUP : Mask := 0x10
def EPOLLET : Mask := 0x80000000

abbrev SchedulerId := Nat

/-- `IOManager::Event`. -/
inductive IOEvent
  | NONE | READ | WRITE
  deriving DecidableEq, Repr

def IOEvent.mask : IOEvent → Mask
  | NONE => 0x0
  | READ => 0x1
  | WRITE => 0x4

/-- The ways in which an operation ends the program. -/
inductive IOFault
  /-- `SYLAR_ASSERT`. -/
  | assertion
  /-- A read of `m_fdContexts` outside its bounds. -/
  | outOfBounds
  /-- `ctx.scheduler->schedule( .. )` with a null scheduler. -/
  | nullScheduler
  deriving DecidableEq, Repr

/-- A task and the scheduler that is to run it. -/
structure Registration where
  scheduler : SchedulerId
  task : Task
  deriving DecidableEq, Repr

/-- What happens to the registration of an event. -/
inductive EffectKind
  /-- `addEvent` stores it. -/
  | registered (r : Registration)
  /-- It is handed to `schedule()`. -/
  | scheduled (r : Registration)
  /-- It is dropped. -/
  | discarded
  deriving DecidableEq, Repr

/-- What happens to the registration of `event` on `fd`. -/
structure Effect where
  fd : Nat
  event : IOEvent
  kind : EffectKind
  deriving DecidableEq, Repr

structure EventContext where
  scheduler : Option SchedulerId
  fiber : Option FiberId
  cb : Option CallbackId
  deriving DecidableEq, Repr

/-- A slot without anything in it. -/
def EventContext.empty : EventContext := { scheduler := none, fiber := none, cb := none }

structure FdContext where
  read : EventContext
  write : EventContext
  fd : Nat
  events : Mask
  deriving DecidableEq, Repr

namespace FdContext

/-- `new FdContext`, with the fd that `contextResize` sets. -/
def new (fd : Nat) : FdContext :=
  { read := .empty, write := .empty, fd, events := IOEvent.NONE.mask }

def getContext (c : FdContext) : IOEvent → Except IOFault EventContext
  | .READ => .ok c.read
  | .WRITE => .ok c.write
  | .NONE => .error .assertion

/-- An update through the reference that `getContext` returns. -/
def setContext (c : FdContext) (event : IOEvent) (slot : EventContext) : FdContext :=
  match event with
  | .READ => { c with read := slot }
  | .WRITE => { c with write := slot }
  | .NONE => c

def resetContext (c : FdContext) (event : IOEvent) : FdContext :=
  c.setContext event { scheduler := none, fiber := none, cb := none }

/-- `events & mask`, as a truth value. -/
def has (c : FdContext) (mask : Mask) : Bool := c.events &&& mask != 0

/-- `events & ~mask`. -/
def without (c : FdContext) (mask : Mask) : Mask := c.events &&& ~~~mask

def setEvents (c : FdContext) (events : Mask) : FdContext := { c with events }

/-- `schedule( &ctx.cb )` or `schedule( &ctx.fiber )`: what is pushed, and the slot
after the swap.  Nothing is pushed for an empty fiber. -/
def takeTask (slot : EventContext) : Option Task × EventContext :=
  match slot.cb with
  | some cb => (some (.callback cb), { slot with cb := none })
  | none => (slot.fiber.map .fiber, { slot with fiber := none })

def triggerEvent (c : FdContext) (event : IOEvent) :
    Except IOFault (FdContext × List Effect) :=
  if !c.has event.mask then .error .assertion
  else do
    let c := c.setEvents (c.without event.mask)
    let ctx ← c.getContext event
    match ctx.scheduler with
    | none => .error .nullScheduler
    | some scheduler =>
      let (task, ctx) := takeTask ctx
      .ok (c.setContext event { ctx with scheduler := none },
        task.toList.map fun task => ⟨c.fd, event, .scheduled ⟨scheduler, task⟩⟩)

end FdContext

/-- The operations of `epoll_ctl`. -/
inductive EpollOp
  | EPOLL_CTL_ADD | EPOLL_CTL_MOD | EPOLL_CTL_DEL
  deriving DecidableEq, Repr

/-- `events ? EPOLL_CTL_MOD : op`. -/
def EpollOp.modOr (events : Mask) (op : EpollOp) : EpollOp :=
  if events ≠ 0 then EPOLL_CTL_MOD else op

/-- The state of the registry.  `kernel` is the interest set behind `m_epfd`. -/
structure IOManager where
  fdContexts : List FdContext
  pendingEventCount : Nat
  kernel : Nat → Option Mask

/-- The thread that calls `addEvent`: `Scheduler::GetThis()`, which every caller has
since it reaches the manager through `IOManager::GetThis()`, `Fiber::GetThis()`, and
whether that fiber is in state `EXEC`. -/
structure Caller where
  scheduler : SchedulerId
  fiber : FiberId
  exec : Bool
  deriving DecidableEq, Repr

namespace IOManager

/-- The constructor, up to `start()`. -/
def new : IOManager :=
  { fdContexts := contextResize FdContext.new [] 32
    pendingEventCount := 0
    kernel := fun _ => none }

/-- `m_fdContexts[fd]`. -/
def context (m : IOManager) (fd : Nat) : Except IOFault FdContext :=
  match m.fdContexts[fd]? with
  | some c => .ok c
  | none => .error .outOfBounds

/-- The manager after the context of `fd` was written. -/
def setContext (m : IOManager) (fd : Nat) (c : FdContext) : IOManager :=
  { m with fdContexts := m.fdContexts.set fd c }

/-- `epoll_ctl`: `none` for an error, which leaves the interest set as it is. -/
def epollCtl (m : IOManager) (op : EpollOp) (fd : Nat) (events : Mask) (ctl : Bool) :
    Option IOManager :=
  let interest : Option Mask :=
    match op with
    | .EPOLL_CTL_DEL => none
    | _ => some events
  if ctl then some { m with kernel := Function.update m.kernel fd interest } else none

/-- The slot after `addEvent` filled it. -/
def fillSlot (caller : Caller) (slot : EventContext) (cb : Option CallbackId) :
    Except IOFault (EventContext × Task) :=
  match cb with
  | some cb => .ok ({ slot with scheduler := some caller.scheduler, cb := some cb }, .callback cb)
  | none =>
    if caller.exec then
      .ok ({ slot with scheduler := some caller.scheduler, fiber := some caller.fiber },
        .fiber caller.fiber)
    else .error .assertion

/-- The first section of `addEvent`: the table is resized for an fd outside it. -/
def makeRoom (m : IOManager) (fd : Nat) : IOManager :=
  if fd < m.fdContexts.length then m
  else { m with fdContexts := contextResize FdContext.new m.fdContexts (FdTable.growTarget fd) }

def addEvent (m : IOManager) (caller : Caller) (fd : Nat) (event : IOEvent)
    (cb : Option CallbackId) (ctl : Bool) : Except IOFault (IOManager × Bool × List Effect) := do
  let m := m.makeRoom fd
  let c ← m.context fd
  if c.has event.mask then .error .assertion
  else
    let op := EpollOp.modOr c.events .EPOLL_CTL_ADD
    match m.epollCtl op fd (EPOLLET ||| (c.events ||| event.mask)) ctl with
    | none => .ok (m, false, [])
    | some m =>
      let m := { m with pendingEventCount := m.pendingEventCount + 1 }
      let c := c.setEvents (c.events ||| event.mask)
      let slot ← c.getContext event
      if slot ≠ .empty then .error .assertion
      else
        let (slot, task) ← fillSlot caller slot cb
        .ok (m.setContext fd (c.setContext event slot), true,
          [⟨fd, event, .registered ⟨caller.scheduler, task⟩⟩])

def delEvent (m : IOManager) (fd : Nat) (event : IOEvent) (ctl : Bool) :
    Except IOFault (IOManager × Bool × List Effect) :=
  if m.fdContexts.length < fd then .ok (m, false, [])
  else do
    let c ← m.context fd
    if !c.has event.mask then .ok (m, false, [])
    else
      let newEvents := c.without event.mask
      let op := EpollOp.modOr newEvents .EPOLL_CTL_DEL
      match m.epollCtl op fd (EPOLLET ||| newEvents) ctl with
      | none => .ok (m, false, [])
      | some m =>
        let m := { m with pendingEventCount := m.pendingEventCount - 1 }
        let c := c.setEvents newEvents
        let _ ← c.getContext event
        .ok (m.setContext fd (c.resetContext event), true, [⟨fd, event, .discarded⟩])

def cancelEvent (m : IOManager) (fd : Nat) (event : IOEvent) (ctl : Bool) :
    Except IOFault (IOManager × Bool × List Effect) :=
  if m.fdContexts.length ≤ fd then .ok (m, false, [])
  else do
    let c ← m.context fd
    if !c.has event.mask then .ok (m, false, [])
    else
      let newEvents := c.without event.mask
      let op := EpollOp.modOr newEvents .EPOLL_CTL_DEL
      match m.epollCtl op fd (EPOLLET ||| newEvents) ctl with
      | none => .ok (m, false, [])
      | some m =>
        let (c, effects) ← c.triggerEvent event
        let m := { m with pendingEventCount := m.pendingEventCount - 1 }
        .ok (m.setContext fd c, true, effects)

/-- `if ( events & event ) { triggerEvent( event ); --m_pendingEventCount; }`, with
the test of the caller. -/
def triggerIf (test : Bool) (m : IOManager) (c : FdContext) (event : IOEvent) :
    Except IOFault (IOManager × FdContext × List Effect) :=
  if test then do
    let (c, effects) ← c.triggerEvent event
    .ok ({ m with pendingEventCount := m.pendingEventCount - 1 }, c, effects)
  else .ok (m, c, [])

def cancelAll (m : IOManager) (fd : Nat) (ctl : Bool) :
    Except IOFault (IOManager × Bool × List Effect) :=
  if m.fdContexts.length ≤ fd then .ok (m, false, [])
  else do
    let c ← m.context fd
    if c.events == 0 then .ok (m, false, [])
    else
      match m.epollCtl .EPOLL_CTL_DEL fd 0 ctl with
      | none => .ok (m, false, [])
      | some m =>
        let (m, c, effects) ← triggerIf (c.has IOEvent.READ.mask) m c .READ
        let (m, c, effects') ← triggerIf (c.has IOEvent.WRITE.mask) m c .WRITE
        if c.events != 0 then .error .assertion
        else .ok (m.setContext fd c, true, effects ++ effects')

/-- The mask after error and hang-up were widened to both directions. -/
def widen (events : Mask) : Mask :=
  if events &&& (EPOLLERR ||| EPOLLHUP) ≠ 0 then events ||| (EPOLLIN ||| EPOLLOUT) else events

/-- `real_events`. -/
def realEvents (events : Mask) : Mask :=
  (if widen events &&& EPOLLIN ≠ 0 then IOEvent.READ.mask else 0) |||
    (if widen events &&& EPOLLOUT ≠ 0 then IOEvent.WRITE.mask else 0)

/-- The body of the loop in `idle` for an event with data pointer `m_fdContexts[fd]`
and the mask `events`. -/
def handleEvent (m : IOManager) (fd : Nat) (events : Mask) (ctl : Bool) :
    Except IOFault (IOManager × Bool × List Effect) := do
  let c ← m.context fd
  let real := realEvents events
  if !c.has real then .ok (m, false, [])
  else
    let leftEvents := c.without real
    let op := EpollOp.modOr leftEvents .EPOLL_CTL_DEL
    match m.epollCtl op c.fd (EPOLLET ||| leftEvents) ctl with
    | none => .ok (m, false, [])
    | some m =>
      let (m, c, effects) ← triggerIf (real &&& IOEvent.READ.mask != 0) m c .READ
      let (m, c, effects') ← triggerIf (real &&& IOEvent.WRITE.mask != 0) m c .WRITE
      .ok (m.setContext fd c, true, effects ++ effects')

end IOManager
end Sylar
