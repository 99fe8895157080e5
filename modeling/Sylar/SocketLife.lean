import Sylar.FdManager
import Sylar.Owners

/-! # Sockets and their descriptors

A `Socket` makes its descriptor when it is bound or connected, or has it from `accept`; it gives
it back in `close`, in a `connect` that fails, and in the destructor.  With the hooks the
descriptor also has a context in the `FdManager`, from behind `socket` or `accept` until `close`.

A call goes through several sections that the calls on other sockets may come between: the call of
the system, the two sections of `FdManager::get`, the use of the descriptor.  `machine` is any
interleaving of them, for any sockets; one call at a time is made on a socket, but others may
accept on it meanwhile.  What the kernel answers is any answer: a new descriptor is any that is not
in use.

**`sockets_tidy`**: where the descriptors have an entry in the `FdManager` and contexts are deleted
with their descriptors, the open descriptors are those of the sockets, each of one socket; a
context is that of an open descriptor; and `FdManager` is a map, whatever its sections come
between. -/
namespace Sylar.SocketLife
open Interleaving Owners

/-! ## The code -/

/-- `Socket`.  The descriptor -1 is `none`. -/
structure Socket (Addr : Type) where
  sock : Option Nat
  family : Int
  type : Int
  protocol : Int
  isConnected : Bool
  localAddress : Option Addr
  remoteAddress : Option Addr
  deriving DecidableEq

/-- What a descriptor is made for. -/
inductive Call (Addr : Type)
  | bind (addr : Addr)
  | connect (addr : Addr)
  | accept
  deriving DecidableEq

/-- What is done behind `::close( m_sock )`. -/
inductive Fate
  /-- `m_sock = -1` -/
  | forget
  /-- The destructor returns. -/
  | destroy
  deriving DecidableEq

/-- Where the call on a socket is. -/
inductive Phase (Addr : Type)
  | idle
  /-- `newSock` is next. -/
  | opening (call : Call Addr)
  /-- There is a descriptor; `FdManager::get( fd, true )` is next. -/
  | opened (call : Call Addr) (fd : Nat)
  /-- Its second section is next. -/
  | creating (call : Call Addr) (fd : Nat)
  /-- The hooked call returns the descriptor. -/
  | ready (call : Call Addr) (fd : Nat)
  /-- The rest of `bind` or `connect` is next. -/
  | called (call : Call Addr)
  /-- `::close( m_sock )` is next. -/
  | closing (fate : Fate)
  /-- It has found a context; `FdManager::del` is next. -/
  | deleting (fate : Fate)
  /-- `close_f` is next. -/
  | releasing (fate : Fate)
  deriving DecidableEq

namespace Socket
variable {Addr : Type} (o : Socket Addr)

/-- `Socket::Socket` -/
def create (family type protocol : Int) : Socket Addr where
  sock := none
  family := family
  type := type
  protocol := protocol
  isConnected := false
  localAddress := none
  remoteAddress := none

/-- `getLocalAddress`, where `getsockname` answers this. -/
def withLocalAddress (answer : Option Addr) : Socket Addr :=
  { o with localAddress := o.localAddress.or answer }

/-- `getRemoteAddress`, where `getpeername` answers this. -/
def withRemoteAddress (answer : Option Addr) : Socket Addr :=
  { o with remoteAddress := o.remoteAddress.or answer }

end Socket

/-- The sockets that there are, by their addresses, the descriptors in use, and the
`FdManager`. -/
structure Process (Addr : Type) where
  objs : Nat → Option (Socket Addr × Phase Addr)
  opened : Finset Nat
  fdm : FdManager Nat

/-- A section of a call on socket `i`. -/
inductive Action (Addr : Type)
  | construct (i : Nat) (family type protocol : Int)
  /-- `bind` or `connect`, up to `newSock`. -/
  | call (i : Nat) (c : Call Addr)
  /-- `socket_f`, with or without hooks. -/
  | socket (i : Nat) (hookEnable : Bool) (ret : Option Nat)
  /-- `accept_f` on socket `i`, for the new socket `j`. -/
  | accept (i j : Nat) (ret : Option Nat)
  /-- `FdManager::get( fd, true )`, the first section. -/
  | lookup (i : Nat)
  /-- The second one. -/
  | create (i : Nat) (kernel : Flags)
  /-- The descriptor goes to the socket. -/
  | take (i : Nat) (sockname peername : Option Addr)
  /-- The rest of `bind` or `connect`, where the call of the system succeeds or not. -/
  | finish (i : Nat) (ok : Bool) (sockname peername : Option Addr)
  | close (i : Nat)
  | destroy (i : Nat)
  /-- The hooked `close`, up to `FdManager::get( fd )`; without hooks it is `close_f`. -/
  | enter (i : Nat) (hookEnable : Bool)
  | del (i : Nat)
  | release (i : Nat)
  /-- `send` or `recv`, which look for the context. -/
  | io (i : Nat)

namespace Process
variable {Addr : Type} (s : Process Addr)

def put (i : Nat) (o : Socket Addr) (ph : Phase Addr) : Process Addr :=
  { s with objs := Function.update s.objs i (some (o, ph)) }

def drop (i : Nat) : Process Addr := { s with objs := Function.update s.objs i none }

/-- `init` accepts the descriptor: `ctx && ctx->isSocket() && !ctx->isClose()` -/
def usable (fd : Nat) : Bool :=
  match (s.fdm.ctx fd).bind s.fdm.heap with
  | some ctx => ctx.isSocket && !ctx.isClosed
  | none => false

/-- The descriptor `fd` that `get( fd, true )` or `socket_f` returned goes to the socket: the rest
of `accept` with `init`, or of `newSock`. -/
def takeFd (i : Nat) (o : Socket Addr) (fd : Nat) (sockname peername : Option Addr) :
    Call Addr → Process Addr
  | .accept =>
    let fdm := s.fdm.lookup i fd false
    if s.usable fd then
      { s.put i (({ o with sock := some fd, isConnected := true }.withLocalAddress
          sockname).withRemoteAddress peername) .idle with fdm := fdm }
    else { s.drop i with fdm := fdm }
  | call => s.put i { o with sock := some fd } (.called call)

variable (family : Addr → Int)

/-- The rest of `bind` and of `connect`. -/
def finishCall (i : Nat) (o : Socket Addr) (ok : Bool) (sockname peername : Option Addr) :
    Call Addr → Process Addr
  | .bind addr =>
    if family addr ≠ o.family then s.put i o .idle
    else if !ok then s.put i o .idle
    else s.put i (o.withLocalAddress sockname) .idle
  | .connect addr =>
    if family addr ≠ o.family then s.put i o .idle
    else if !ok then s.put i { o with isConnected := false } (.closing .forget)
    else
      s.put i (({ o with isConnected := true }.withRemoteAddress
        peername).withLocalAddress sockname) .idle
  | .accept => s

/-- `close_f`, and what is behind it. -/
def releaseFd (i : Nat) (o : Socket Addr) (fd : Nat) : Fate → Process Addr
  | .forget => { s.put i { o with sock := none } .idle with opened := s.opened.erase fd }
  | .destroy => { s.drop i with opened := s.opened.erase fd }

/-- A section, if the socket is where it begins. -/
def step (s : Process Addr) : Action Addr → Option (Process Addr)
  | .construct i family type protocol =>
    match s.objs i with
    | none => some (s.put i (.create family type protocol) .idle)
    | some _ => none
  | .call i c =>
    match s.objs i, c with
    | some (_, .idle), .accept => none
    | some (o, .idle), c => some (s.put i o (if o.sock.isSome then .called c else .opening c))
    | _, _ => none
  | .socket i hookEnable ret =>
    match s.objs i, ret with
    | some (o, .opening _), none => some (s.put i o .idle)
    | some (o, .opening c), some fd =>
      if fd ∈ s.opened then none
      else some { s.put i o (if hookEnable then .opened c fd else .ready c fd) with
        opened := insert fd s.opened }
    | _, _ => none
  | .accept i j ret =>
    match s.objs i, s.objs j, ret with
    | some (o, _), none, some fd =>
      if fd ∈ s.opened then none
      else some { s.put j (.create o.family o.type o.protocol) (.opened .accept fd) with
        opened := insert fd s.opened }
    | some _, none, none => some s
    | _, _, _ => none
  | .lookup i =>
    match s.objs i with
    | some (o, .opened c fd) =>
      let fdm := s.fdm.lookup i fd true
      some { s.put i o (if fdm.phase i = .outside then .ready c fd else .creating c fd) with
        fdm := fdm }
    | _ => none
  | .create i kernel =>
    match s.objs i with
    | some (o, .creating c fd) =>
      -- the descriptor is one that `socket_f` or `accept_f` has returned
      some { s.put i o (.ready c fd) with fdm := s.fdm.create i fd (some true) kernel }
    | _ => none
  | .take i sockname peername =>
    match s.objs i with
    | some (o, .ready c fd) => some (s.takeFd i o fd sockname peername c)
    | _ => none
  | .finish i ok sockname peername =>
    match s.objs i with
    | some (o, .called c) => some (s.finishCall family i o ok sockname peername c)
    | _ => none
  | .close i =>
    match s.objs i with
    | some (o, .idle) =>
      if !o.isConnected && o.sock.isNone then some s
      else some (s.put i { o with isConnected := false }
        (if o.sock.isSome then .closing .forget else .idle))
    | _ => none
  | .destroy i =>
    match s.objs i with
    | some (o, .idle) =>
      -- `close_f( -1 )` does nothing
      if o.sock.isSome then some (s.put i o (.closing .destroy)) else some (s.drop i)
    | _ => none
  | .enter i hookEnable =>
    match s.objs i with
    | some (o, .closing fate) =>
      o.sock.map fun fd =>
        if !hookEnable then s.put i o (.releasing fate)
        else { s.put i o (if (s.fdm.ctx fd).isSome then .deleting fate else .releasing fate) with
          fdm := s.fdm.lookup i fd false }
    | _ => none
  | .del i =>
    match s.objs i with
    | some (o, .deleting fate) =>
      o.sock.map fun fd => { s.put i o (.releasing fate) with fdm := s.fdm.del fd }
    | _ => none
  | .release i =>
    match s.objs i with
    | some (o, .releasing fate) => o.sock.map fun fd => s.releaseFd i o fd fate
    | _ => none
  | .io i =>
    match s.objs i with
    | some (o, .idle) =>
      if o.isConnected then
        o.sock.map fun fd => { s with fdm := s.fdm.lookup i fd false }
      else some s
    | _ => none

/-- A process without sockets. -/
def machine : Machine (Process Addr) (Action Addr) where
  init s := (∀ i, s.objs i = none) ∧ s.opened = ∅ ∧ (FdManager.machine Nat).init s.fdm
  step := step family

/-! ## What holds between two sections -/

end Process

/-- The descriptor that the call or the socket holds. -/
def Phase.held {Addr : Type} (o : Socket Addr) : Phase Addr → Option Nat
  | .opened _ fd => some fd
  | .creating _ fd => some fd
  | .ready _ fd => some fd
  | _ => o.sock

/-- The descriptor has no context yet, or no longer. -/
def Phase.bare {Addr : Type} : Phase Addr → Bool
  | .opened _ _ => true
  | .creating _ _ => true
  | .releasing _ => true
  | _ => false

/-- The socket has no descriptor yet. -/
def Phase.unset {Addr : Type} : Phase Addr → Bool
  | .opening _ => true
  | .opened _ _ => true
  | .creating _ _ => true
  | .ready _ _ => true
  | _ => false

/-- The socket is without its descriptor behind this. -/
def Phase.forgets {Addr : Type} : Phase Addr → Bool
  | .closing .forget => true
  | .deleting .forget => true
  | .releasing .forget => true
  | _ => false

section Sound
variable {Addr : Type} {fdm fdm' : FdManager Nat} {i : Nat} {o o' : Socket Addr}
  {ph ph' : Phase Addr}

/-- What a socket has in each phase, and what the `FdManager` has for it. -/
structure Sound (fdm : FdManager Nat) (i : Nat) (o : Socket Addr) (ph : Phase Addr) : Prop where
  connected : o.isConnected = true → o.sock ≠ none
  unset : ph.unset = true → o.sock = none
  asked : ph ≠ .opening .accept
  called : ∀ c, ph = .called c → o.sock ≠ none
  forgets : ph.forgets = true → o.isConnected = false
  bare : ph.bare = true → ∀ fd, ph.held o = some fd → fdm.ctx fd = none
  phase : ∀ fd, fdm.phase i = .creating fd ↔ ∃ c, ph = .creating c fd
  accepted : ∀ fd, ph = .ready .accept fd → ∃ p ctx, fdm.ctx fd = some p ∧
    fdm.heap p = some ctx ∧ ctx.isSocket = true ∧ ctx.isClosed = false

/-- Outside the second section of `get` the `FdManager` knows nothing of the call. -/
theorem Sound.outside (h : Sound fdm i o ph) (hph : ∀ c fd, ph ≠ .creating c fd) :
    fdm.phase i = .outside := by
  cases hphase : fdm.phase i with
  | outside => rfl
  | creating fd =>
    obtain ⟨c, hc⟩ := (h.phase fd).mp hphase
    exact absurd hc (hph c fd)

theorem phase_iff_of_outside (hphase : fdm.phase i = .outside)
    (hph : ∀ c fd, ph ≠ .creating c fd) (fd : Nat) :
    fdm.phase i = .creating fd ↔ ∃ c, ph = .creating c fd := by
  rw [hphase]
  exact iff_of_false nofun fun ⟨c, hc⟩ => hph c fd hc

/-- What is done for other descriptors. -/
theorem Sound.frame (h : Sound fdm i o ph) (hphase : fdm'.phase i = fdm.phase i)
    (hctx : ∀ fd, ph.held o = some fd → fdm'.ctx fd = fdm.ctx fd) (ht : fdm.Tracks)
    (hheap : ∀ p, p < fdm.next → fdm'.heap p = fdm.heap p) : Sound fdm' i o ph := by
  refine ⟨h.connected, h.unset, h.asked, h.called, h.forgets, fun hbare fd hfd => ?_, fun fd => ?_,
    fun fd hfd => ?_⟩
  · rw [hctx fd hfd]
    exact h.bare hbare fd hfd
  · rw [hphase]
    exact h.phase fd
  · obtain ⟨p, ctx, hp, hheld, hrest⟩ := h.accepted fd hfd
    refine ⟨p, ctx, ?_, ?_, hrest⟩
    · rw [hctx fd (by rw [hfd]; rfl), hp]
    · rw [hheap p (ht.fresh fd p hp), hheld]

section Outside
variable (hphase : fdm.phase i = .outside)
include hphase

theorem Sound.idle (hconnected : o.isConnected = true → o.sock ≠ none) : Sound fdm i o .idle :=
  ⟨hconnected, nofun, nofun, nofun, nofun, nofun, phase_iff_of_outside hphase nofun, nofun⟩

theorem Sound.called_of_sock (hsock : o.sock ≠ none) (c : Call Addr) : Sound fdm i o (.called c) :=
  ⟨fun _ => hsock, nofun, nofun, fun _ _ => hsock, nofun, nofun,
    phase_iff_of_outside hphase nofun, nofun⟩

/-- The socket has no descriptor, and is not connected. -/
theorem Sound.opening (hconnected : o.isConnected = true → o.sock ≠ none) (hsock : o.sock = none)
    {c : Call Addr} (hc : c ≠ .accept) : Sound fdm i o (.opening c) :=
  ⟨hconnected, fun _ => hsock, fun heq => hc (Phase.opening.inj heq), nofun, nofun, nofun,
    phase_iff_of_outside hphase nofun, nofun⟩

/-- The call has a new descriptor. -/
theorem Sound.opened (hconnected : o.isConnected = true → o.sock ≠ none) (hsock : o.sock = none)
    {c : Call Addr} {fd : Nat} (hctx : fdm.ctx fd = none) : Sound fdm i o (.opened c fd) := by
  refine ⟨hconnected, fun _ => hsock, nofun, nofun, nofun, fun _ x hx => ?_,
    phase_iff_of_outside hphase nofun, nofun⟩
  cases hx
  exact hctx

theorem Sound.ready (hconnected : o.isConnected = true → o.sock ≠ none) (hsock : o.sock = none)
    {c : Call Addr} {fd : Nat} (haccepted : c = .accept → ∃ p ctx, fdm.ctx fd = some p ∧
      fdm.heap p = some ctx ∧ ctx.isSocket = true ∧ ctx.isClosed = false) :
    Sound fdm i o (.ready c fd) := by
  refine ⟨hconnected, fun _ => hsock, nofun, nofun, nofun, nofun,
    phase_iff_of_outside hphase nofun, fun x hx => ?_⟩
  cases hx
  exact haccepted rfl

theorem Sound.closing (hconnected : o.isConnected = true → o.sock ≠ none) {fate : Fate}
    (hfate : fate = .forget → o.isConnected = false) : Sound fdm i o (.closing fate) := by
  refine ⟨hconnected, nofun, nofun, nofun, fun h => ?_, nofun,
    phase_iff_of_outside hphase nofun, nofun⟩
  cases fate with
  | forget => exact hfate rfl
  | destroy => cases h

theorem Sound.deleting (hconnected : o.isConnected = true → o.sock ≠ none) {fate : Fate}
    (hfate : fate = .forget → o.isConnected = false) : Sound fdm i o (.deleting fate) := by
  refine ⟨hconnected, nofun, nofun, nofun, fun h => ?_, nofun,
    phase_iff_of_outside hphase nofun, nofun⟩
  cases fate with
  | forget => exact hfate rfl
  | destroy => cases h

theorem Sound.releasing (hconnected : o.isConnected = true → o.sock ≠ none) {fate : Fate}
    (hfate : fate = .forget → o.isConnected = false)
    (hctx : ∀ fd, o.sock = some fd → fdm.ctx fd = none) : Sound fdm i o (.releasing fate) := by
  refine ⟨hconnected, nofun, nofun, nofun, fun h => ?_, fun _ => hctx,
    phase_iff_of_outside hphase nofun, nofun⟩
  cases fate with
  | forget => exact hfate rfl
  | destroy => cases h

end Outside

end Sound

namespace Process
variable {Addr : Type}

/-- The descriptor that is held by socket `i`, or by the call on it. -/
def held (s : Process Addr) (i : Nat) : Option Nat := (s.objs i).bind fun x => x.2.held x.1

/-- What holds between two sections. -/
structure Tidy (s : Process Addr) : Prop where
  owners : Exact s.held s.opened
  sound : ∀ i o ph, s.objs i = some (o, ph) → Sound s.fdm i o ph
  absent : ∀ i, s.objs i = none → s.fdm.phase i = .outside
  closed : ∀ fd, fd ∉ s.opened → s.fdm.ctx fd = none
  tracks : s.fdm.Tracks

variable {s : Process Addr} {i : Nat} {o o' : Socket Addr} {ph ph' : Phase Addr}

theorem held_eq (h : s.objs i = some (o, ph)) : s.held i = ph.held o := by
  rw [held, h, Option.bind_some]

theorem held_put (s : Process Addr) (i : Nat) (o : Socket Addr) (ph : Phase Addr) :
    (s.put i o ph).held = Function.update s.held i (ph.held o) := by
  funext j
  by_cases hj : j = i
  · subst hj
    rw [Function.update_self, held, put]
    simp only [Function.update_self, Option.bind_some]
  · rw [Function.update_of_ne hj, held, put]
    simp only [Function.update_of_ne hj]
    rfl

theorem held_drop (s : Process Addr) (i : Nat) :
    (s.drop i).held = Function.update s.held i none := by
  funext j
  by_cases hj : j = i
  · subst hj
    rw [Function.update_self, held, drop]
    simp only [Function.update_self, Option.bind_none]
  · rw [Function.update_of_ne hj, held, drop]
    simp only [Function.update_of_ne hj]
    rfl

theorem put_self (h : s.objs i = some (o, ph)) : s.put i o ph = s := by
  rw [put, ← h, Function.update_eq_self]

/-- A section changes one socket, and in the `FdManager` what belongs to it. -/
structure Section (s : Process Addr) (i : Nat) (opened : Finset Nat) (fdm : FdManager Nat) :
    Prop where
  phase : ∀ j, j ≠ i → fdm.phase j = s.fdm.phase j
  ctx : ∀ j, j ≠ i → ∀ fd, s.held j = some fd → fdm.ctx fd = s.fdm.ctx fd
  heap : ∀ p, p < s.fdm.next → fdm.heap p = s.fdm.heap p
  closed : ∀ fd, fd ∉ opened → fdm.ctx fd = none
  tracks : fdm.Tracks

/-- The `FdManager` is as it was. -/
theorem Tidy.same (h : Tidy s) (i : Nat) : Section s i s.opened s.fdm :=
  ⟨fun _ _ => rfl, fun _ _ _ _ => rfl, fun _ _ => rfl, h.closed, h.tracks⟩

variable {opened : Finset Nat} {fdm : FdManager Nat}

theorem Tidy.others (h : Tidy s) (hsec : Section s i opened fdm) {j : Nat} (hj : j ≠ i)
    (hobj : s.objs j = some (o, ph)) : Sound fdm j o ph :=
  (h.sound j o ph hobj).frame (hsec.phase j hj)
    (fun fd hfd => hsec.ctx j hj fd (by rw [held_eq hobj, hfd])) h.tracks hsec.heap

theorem Tidy.put (h : Tidy s) (hsec : Section s i opened fdm)
    (hown : Exact (Function.update s.held i (ph.held o)) opened) (hi : Sound fdm i o ph) :
    Tidy { s.put i o ph with opened := opened, fdm := fdm } := by
  refine ⟨?_, fun j o' ph' hobj => ?_, fun j hobj => ?_, hsec.closed, hsec.tracks⟩
  · rw [← held_put] at hown
    exact hown
  · by_cases hj : j = i
    · subst hj
      have hself : Function.update s.objs j (some (o, ph)) j = some (o', ph') := hobj
      rw [Function.update_self] at hself
      cases hself
      exact hi
    · have hother : Function.update s.objs i (some (o, ph)) j = some (o', ph') := hobj
      rw [Function.update_of_ne hj] at hother
      exact h.others hsec hj hother
  · have hnone : Function.update s.objs i (some (o, ph)) j = none := hobj
    have hj : j ≠ i := by
      rintro rfl
      rw [Function.update_self] at hnone
      cases hnone
    rw [Function.update_of_ne hj] at hnone
    exact (hsec.phase j hj).trans (h.absent j hnone)

theorem Tidy.drop (h : Tidy s) (hsec : Section s i opened fdm)
    (hown : Exact (Function.update s.held i none) opened) (hi : fdm.phase i = .outside) :
    Tidy { s.drop i with opened := opened, fdm := fdm } := by
  refine ⟨?_, fun j o' ph' hobj => ?_, fun j hobj => ?_, hsec.closed, hsec.tracks⟩
  · rw [← held_drop] at hown
    exact hown
  · have hother : Function.update s.objs i none j = some (o', ph') := hobj
    have hj : j ≠ i := by
      rintro rfl
      rw [Function.update_self] at hother
      cases hother
    rw [Function.update_of_ne hj] at hother
    exact h.others hsec hj hother
  · by_cases hj : j = i
    · subst hj
      exact hi
    · have hnone : Function.update s.objs i none j = none := hobj
      rw [Function.update_of_ne hj] at hnone
      exact (hsec.phase j hj).trans (h.absent j hnone)

/-! ## The sections -/

theorem lookup_false (fdm : FdManager Nat) (i fd : Nat) :
    fdm.lookup i fd false = fdm.emit (.got fd false (fdm.ctx fd)) := by
  rcases fdm.lookup_cases i fd false with ⟨hauto, -⟩ | ⟨-, h⟩ | ⟨hauto, -⟩
  · cases hauto
  · exact h
  · cases hauto

/-- A look at a context changes none. -/
theorem Tidy.look (h : Tidy s) (i fd : Nat) : Section s i s.opened (s.fdm.lookup i fd false) := by
  rw [lookup_false]
  exact ⟨fun _ _ => rfl, fun _ _ _ _ => rfl, fun _ _ => rfl, h.closed,
    h.tracks.emit_got (.inr rfl)⟩

theorem Tidy.insert (h : Tidy s) (i fd : Nat) : Section s i (insert fd s.opened) s.fdm :=
  ⟨fun _ _ => rfl, fun _ _ _ _ => rfl, fun _ _ => rfl,
    fun x hx => h.closed x fun hmem => hx (Finset.mem_insert_of_mem hmem), h.tracks⟩

theorem Tidy.erase (h : Tidy s) (i : Nat) {fd : Nat} (hctx : s.fdm.ctx fd = none) :
    Section s i (s.opened.erase fd) s.fdm := by
  refine ⟨fun _ _ => rfl, fun _ _ _ _ => rfl, fun _ _ => rfl, fun x hx => ?_, h.tracks⟩
  by_cases hfd : x = fd
  · rw [hfd]
    exact hctx
  · exact h.closed x fun hmem => hx (Finset.mem_erase.mpr ⟨hfd, hmem⟩)

/-- A new descriptor has no context, so that `get( fd, true )` goes on to its second section. -/
theorem Tidy.find (h : Tidy s) {c : Call Addr} {fd : Nat} (hobj : s.objs i = some (o, .opened c fd))
    (hfd : fd < s.fdm.datas.length) :
    s.fdm.lookup i fd true =
        { s.fdm with phase := Function.update s.fdm.phase i (.creating fd) } ∧
      Section s i s.opened (s.fdm.lookup i fd true) := by
  have hctx : s.fdm.ctx fd = none := (h.sound i o _ hobj).bare rfl fd rfl
  have hlook : s.fdm.lookup i fd true =
      { s.fdm with phase := Function.update s.fdm.phase i (.creating fd) } := by
    rcases s.fdm.lookup_cases i fd true with ⟨-, hlen, -⟩ | ⟨hfound, -⟩ | ⟨-, -, heq⟩
    · omega
    · rcases hfound with hne | hauto
      · exact absurd hctx hne
      · cases hauto
    · exact heq
  refine ⟨hlook, ?_⟩
  rw [hlook]
  exact ⟨fun j hj => Function.update_of_ne hj .., fun _ _ _ _ => rfl, fun _ _ => rfl, h.closed,
    h.tracks.setPhase hfd⟩

theorem Tidy.fill (h : Tidy s) {c : Call Addr} {fd : Nat}
    (hobj : s.objs i = some (o, .creating c fd)) (kernel : Flags) :
    Section s i s.opened (s.fdm.create i fd (some true) kernel) := by
  have hsound := h.sound i o _ hobj
  have hctx : s.fdm.ctx fd = none := hsound.bare rfl fd rfl
  have hphase : s.fdm.phase i = .creating fd := (hsound.phase fd).mpr ⟨c, rfl⟩
  have hheld : s.held i = some fd := held_eq hobj
  constructor
  · exact fun j hj => Function.update_of_ne hj ..
  · intro j hj x hx
    have hne : x ≠ fd := by
      rintro rfl
      exact hj (h.owners.unique hx hheld)
    rw [FdManager.create_ctx, if_neg fun hboth => hne hboth.1]
  · exact fun p hp => Function.update_of_ne (Nat.ne_of_lt hp) ..
  · intro x hx
    have hne : x ≠ fd := by
      rintro rfl
      exact hx (h.owners.out_of_held hheld)
    rw [FdManager.create_ctx, if_neg fun hboth => hne hboth.1]
    exact h.closed x hx
  · exact h.tracks.create (h.tracks.creating i fd hphase) hctx (some true) kernel

theorem Tidy.forget (h : Tidy s) {fd : Nat} (hheld : s.held i = some fd) :
    Section s i s.opened (s.fdm.del fd) := by
  constructor
  · intro j _
    rw [FdManager.del_phase]
  · intro j hj x hx
    have hne : x ≠ fd := by
      rintro rfl
      exact hj (h.owners.unique hx hheld)
    rw [FdManager.del_ctx, if_neg hne]
  · intro p _
    rw [FdManager.del_heap]
  · intro x hx
    rw [FdManager.del_ctx]
    split
    · rfl
    · exact h.closed x hx
  · exact h.tracks.del fd

/-- The call goes on, with the descriptor that it has. -/
theorem Tidy.goes (h : Tidy s) (hobj : s.objs i = some (o, ph)) (hsec : Section s i s.opened fdm)
    (hheld : ph'.held o' = ph.held o) (hi : Sound fdm i o' ph') :
    Tidy { s.put i o' ph' with fdm := fdm } :=
  h.put hsec (h.owners.keep (by rw [hheld, held_eq hobj])) hi

/-- As `Tidy.goes`, where the `FdManager` is left alone. -/
theorem Tidy.goes_same (h : Tidy s) (hobj : s.objs i = some (o, ph))
    (hheld : ph'.held o' = ph.held o) (hi : Sound s.fdm i o' ph') : Tidy (s.put i o' ph') :=
  h.goes hobj (h.same i) hheld hi

/-- A socket that was accepted gets its descriptor. -/
theorem Tidy.usable (h : Tidy s) {fd : Nat} (hobj : s.objs i = some (o, .ready .accept fd)) :
    s.usable fd = true := by
  obtain ⟨p, ctx, hp, hheap, hsocket, hopen⟩ := (h.sound i o _ hobj).accepted fd rfl
  rw [Process.usable, hp, Option.bind_some, hheap]
  simp only [hsocket, hopen, Bool.not_false, Bool.and_self]

/-- The descriptor that `get( fd, true )` has a context for goes to the socket. -/
theorem Tidy.takeFd (h : Tidy s) {c : Call Addr} {fd : Nat}
    (hobj : s.objs i = some (o, .ready c fd)) (sockname peername : Option Addr) :
    Tidy (s.takeFd i o fd sockname peername c) := by
  have hsound := h.sound i o _ hobj
  have hphase : s.fdm.phase i = .outside := hsound.outside nofun
  have hset : ∀ c, c ≠ .accept → Tidy (s.put i { o with sock := some fd } (.called c)) :=
    fun c _ => h.goes_same hobj rfl (.called_of_sock hphase (Option.some_ne_none fd) c)
  cases c with
  | bind addr => exact hset _ nofun
  | connect addr => exact hset _ nofun
  | accept =>
    rw [Process.takeFd]
    simp only [h.usable hobj, if_true]
    refine h.goes hobj (h.look i fd) rfl (.idle ?_ fun _ => Option.some_ne_none fd)
    rw [lookup_false]
    exact hphase

variable {family : Addr → Int}

theorem Tidy.finishCall (h : Tidy s) {c : Call Addr} (hobj : s.objs i = some (o, .called c))
    (ok : Bool) (sockname peername : Option Addr) :
    Tidy (s.finishCall family i o ok sockname peername c) := by
  have hsound := h.sound i o _ hobj
  have hsock : o.sock ≠ none := hsound.called c rfl
  have hphase : s.fdm.phase i = .outside := hsound.outside nofun
  have hidle : ∀ o' : Socket Addr, o'.sock = o.sock → Tidy (s.put i o' .idle) :=
    fun o' hsame => h.goes_same hobj hsame (.idle hphase fun _ => by rwa [hsame])
  cases c with
  | accept => exact h
  | bind addr =>
    rw [Process.finishCall]
    split
    · exact hidle o rfl
    · split
      · exact hidle o rfl
      · exact hidle _ rfl
  | connect addr =>
    rw [Process.finishCall]
    split
    · exact hidle o rfl
    · split
      · -- `close()`, on a socket that has a descriptor
        exact h.goes_same hobj rfl (.closing hphase (fun hfalse => absurd hfalse Bool.false_ne_true)
          fun _ => rfl)
      · exact hidle _ rfl

theorem Tidy.releaseFd (h : Tidy s) {fate : Fate} {fd : Nat}
    (hobj : s.objs i = some (o, .releasing fate)) (hfd : o.sock = some fd) :
    Tidy (s.releaseFd i o fd fate) := by
  have hsound := h.sound i o _ hobj
  have hphase : s.fdm.phase i = .outside := hsound.outside nofun
  have hsec := h.erase i (hsound.bare rfl fd hfd)
  have hown := h.owners.give ((held_eq hobj).trans hfd)
  cases fate with
  | forget =>
    refine h.put hsec hown (.idle hphase fun hconnected => ?_)
    rw [show o.isConnected = false from hsound.forgets rfl] at hconnected
    cases hconnected
  | destroy => exact h.drop hsec hown hphase

/-- The section finds what it relies on: an entry of the `FdManager` for the descriptor, and hooks
where a descriptor with a context is closed. -/
def orderly (s : Process Addr) : Action Addr → Bool
  | .lookup i =>
    match s.objs i with
    | some (_, .opened _ fd) => decide (fd < s.fdm.datas.length)
    | _ => true
  | .enter i hookEnable => hookEnable || ((s.held i).bind s.fdm.ctx).isNone
  | _ => true

/-- The first section of `get( fd, true )`. -/
theorem Tidy.lookup (h : Tidy s) {c : Call Addr} {fd : Nat}
    (hobj : s.objs i = some (o, .opened c fd)) (hfd : fd < s.fdm.datas.length) :
    Tidy { s.put i o (if (s.fdm.lookup i fd true).phase i = .outside then .ready c fd
      else .creating c fd) with fdm := s.fdm.lookup i fd true } := by
  have hsound := h.sound i o _ hobj
  obtain ⟨hlook, hsec⟩ := h.find hobj hfd
  have hphase : (s.fdm.lookup i fd true).phase i = .creating fd := by
    rw [hlook]
    exact Function.update_self ..
  have hctx : (s.fdm.lookup i fd true).ctx fd = none := by
    rw [hlook]
    exact hsound.bare rfl fd rfl
  rw [if_neg (by rw [hphase]; nofun)]
  refine h.goes hobj hsec rfl ⟨hsound.connected, fun _ => hsound.unset rfl, nofun, nofun, nofun,
    fun _ x hx => ?_, fun x => ?_, nofun⟩
  · cases hx
    exact hctx
  · rw [hphase]
    constructor
    · rintro ⟨⟩
      exact ⟨c, rfl⟩
    · rintro ⟨c', hc'⟩
      cases hc'
      rfl

/-- The second one. -/
theorem Tidy.create (h : Tidy s) {c : Call Addr} {fd : Nat}
    (hobj : s.objs i = some (o, .creating c fd)) (kernel : Flags) :
    Tidy { s.put i o (.ready c fd) with fdm := s.fdm.create i fd (some true) kernel } := by
  have hsound := h.sound i o _ hobj
  have hphase : s.fdm.phase i = .creating fd := (hsound.phase fd).mpr ⟨c, rfl⟩
  refine h.goes hobj (h.fill hobj kernel) rfl
    (.ready (Function.update_self ..) hsound.connected (hsound.unset rfl) fun _ => ?_)
  refine ⟨s.fdm.next, (FdCtx.new fd (some true) kernel).1, ?_, Function.update_self .., rfl, rfl⟩
  rw [FdManager.create_ctx, if_pos ⟨rfl, h.tracks.creating i fd hphase⟩]

/-- `close( m_sock )` up to where it deletes the context. -/
theorem Tidy.enter (h : Tidy s) {fate : Fate} {fd : Nat}
    (hobj : s.objs i = some (o, .closing fate)) (hfd : o.sock = some fd) :
    Tidy { s.put i o (if (s.fdm.ctx fd).isSome then .deleting fate else .releasing fate) with
      fdm := s.fdm.lookup i fd false } := by
  have hsound := h.sound i o _ hobj
  have hphase : (s.fdm.lookup i fd false).phase i = .outside := by
    rw [lookup_false]
    exact hsound.outside nofun
  have hfate : fate = .forget → o.isConnected = false := by
    rintro rfl
    exact hsound.forgets rfl
  split
  · exact h.goes hobj (h.look i fd) rfl (.deleting hphase hsound.connected hfate)
  · rename_i hnone
    refine h.goes hobj (h.look i fd) rfl (.releasing hphase hsound.connected hfate fun x hx => ?_)
    obtain rfl := Option.some.inj (hfd.symm.trans hx)
    rw [lookup_false]
    exact Option.not_isSome_iff_eq_none.mp hnone

theorem Tidy.del (h : Tidy s) {fate : Fate} {fd : Nat}
    (hobj : s.objs i = some (o, .deleting fate)) (hfd : o.sock = some fd) :
    Tidy { s.put i o (.releasing fate) with fdm := s.fdm.del fd } := by
  have hsound := h.sound i o _ hobj
  have hphase : (s.fdm.del fd).phase i = .outside := by
    rw [FdManager.del_phase]
    exact hsound.outside nofun
  refine h.goes hobj (h.forget ((held_eq hobj).trans hfd)) rfl
    (.releasing hphase hsound.connected ?_ fun x hx => ?_)
  · rintro rfl
    exact hsound.forgets rfl
  · obtain rfl := Option.some.inj (hfd.symm.trans hx)
    rw [FdManager.del_ctx, if_pos rfl]

/-- A descriptor of the kernel goes to a call that has none. -/
theorem Tidy.gain (h : Tidy s) {fd : Nat} (hfresh : fd ∉ s.opened) (hheld : s.held i = none)
    (hph : ph.held o = some fd) (hi : Sound s.fdm i o ph) :
    Tidy { s.put i o ph with opened := Insert.insert fd s.opened } :=
  h.put (h.insert i fd) (by rw [hph]; exact h.owners.take hheld hfresh) hi

/-- `socket_f` has returned a descriptor. -/
theorem Tidy.socket (h : Tidy s) {c : Call Addr} {fd : Nat}
    (hobj : s.objs i = some (o, .opening c)) (hfresh : fd ∉ s.opened) (hookEnable : Bool) :
    Tidy { s.put i o (if hookEnable then .opened c fd else .ready c fd) with
      opened := Insert.insert fd s.opened } := by
  have hsound := h.sound i o _ hobj
  have hsock : o.sock = none := hsound.unset rfl
  have hphase : s.fdm.phase i = .outside := hsound.outside nofun
  have hheld : s.held i = none := (held_eq hobj).trans hsock
  cases hookEnable with
  | true =>
    exact h.gain hfresh hheld rfl (.opened hphase hsound.connected hsock (h.closed fd hfresh))
  | false =>
    refine h.gain hfresh hheld rfl (.ready hphase hsound.connected hsock fun hc => ?_)
    rw [hc] at hobj
    exact absurd rfl (h.sound i o _ hobj).asked

/-- `close()`, up to `::close( m_sock )`. -/
theorem Tidy.close (h : Tidy s) (hobj : s.objs i = some (o, .idle)) :
    Tidy (s.put i { o with isConnected := false }
      (if o.sock.isSome then .closing .forget else .idle)) := by
  have hphase : s.fdm.phase i = .outside := (h.sound i o _ hobj).outside nofun
  have hconnected : ∀ x : Option Nat, false = true → x ≠ none :=
    fun _ hfalse => absurd hfalse Bool.false_ne_true
  split
  · exact h.goes_same hobj rfl (.closing hphase (hconnected _) fun _ => rfl)
  · exact h.goes_same hobj rfl (.idle hphase (hconnected _))

/-- `close( m_sock )` without hooks, of a descriptor without a context. -/
theorem Tidy.enterBare (h : Tidy s) {fate : Fate} (hobj : s.objs i = some (o, .closing fate))
    (hnone : (s.held i).bind s.fdm.ctx = none) : Tidy (s.put i o (.releasing fate)) := by
  have hsound := h.sound i o _ hobj
  refine h.goes_same hobj rfl (.releasing (hsound.outside nofun) hsound.connected ?_ fun x hx => ?_)
  · rintro rfl
    exact hsound.forgets rfl
  · rw [held_eq hobj, show (Phase.closing fate).held o = some x from hx, Option.bind_some] at hnone
    exact hnone

/-! ### The sections -/

section Sections
variable {t : Process Addr} (h : Tidy s)
include h

theorem Tidy.of_construct {f ty pr : Int}
    (hst : Process.step family s (.construct i f ty pr) = some t) : Tidy t := by
  unfold Process.step at hst
  dsimp only at hst
  split at hst
  · rename_i hobj
    obtain rfl := Option.some.inj hst
    have hheld : s.held i = none := by rw [held, hobj, Option.bind_none]
    exact h.put (h.same i) (h.owners.keep hheld)
      (.idle (h.absent i hobj) fun hfalse => absurd hfalse Bool.false_ne_true)
  · cases hst

theorem Tidy.of_call {c : Call Addr} (hst : Process.step family s (.call i c) = some t) :
    Tidy t := by
  unfold Process.step at hst
  dsimp only at hst
  split at hst
  · cases hst
  · rename_i o hobj hc
    obtain rfl := Option.some.inj hst
    have hsound := h.sound i o _ hobj
    have hphase : s.fdm.phase i = .outside := hsound.outside nofun
    cases hsock : o.sock with
    | none => exact h.goes_same hobj rfl (.opening hphase hsound.connected hsock hc)
    | some fd =>
      exact h.goes_same hobj rfl (.called_of_sock hphase (by rw [hsock]; nofun) _)
  · cases hst

theorem Tidy.of_socket {hookEnable : Bool} {ret : Option Nat}
    (hst : Process.step family s (.socket i hookEnable ret) = some t) : Tidy t := by
  unfold Process.step at hst
  dsimp only at hst
  split at hst
  · rename_i o c hobj
    obtain rfl := Option.some.inj hst
    have hsound := h.sound i o _ hobj
    exact h.goes_same hobj rfl (.idle (hsound.outside nofun) hsound.connected)
  · rename_i o c fd hobj
    split at hst
    · cases hst
    rename_i hfresh
    obtain rfl := Option.some.inj hst
    exact h.socket hobj hfresh hookEnable
  · cases hst

theorem Tidy.of_accept {j : Nat} {ret : Option Nat}
    (hst : Process.step family s (.accept i j ret) = some t) : Tidy t := by
  unfold Process.step at hst
  dsimp only at hst
  split at hst
  · rename_i o ph fd hobj hnew
    split at hst
    · cases hst
    rename_i hfresh
    obtain rfl := Option.some.inj hst
    have hheld : s.held j = none := by rw [held, hnew, Option.bind_none]
    exact h.gain hfresh hheld rfl (.opened (h.absent j hnew)
      (fun hfalse => absurd hfalse Bool.false_ne_true) rfl (h.closed fd hfresh))
  · obtain rfl := Option.some.inj hst
    exact h
  · cases hst

theorem Tidy.of_lookup (hok : s.orderly (.lookup i) = true)
    (hst : Process.step family s (.lookup i) = some t) : Tidy t := by
  unfold Process.step at hst
  dsimp only at hst
  split at hst
  · rename_i o c fd hobj
    obtain rfl := Option.some.inj hst
    rw [orderly, hobj] at hok
    exact h.lookup hobj (of_decide_eq_true hok)
  · cases hst

theorem Tidy.of_create {kernel : Flags}
    (hst : Process.step family s (.create i kernel) = some t) : Tidy t := by
  unfold Process.step at hst
  dsimp only at hst
  split at hst
  · rename_i o c fd hobj
    obtain rfl := Option.some.inj hst
    exact h.create hobj kernel
  · cases hst

theorem Tidy.of_take {sockname peername : Option Addr}
    (hst : Process.step family s (.take i sockname peername) = some t) : Tidy t := by
  unfold Process.step at hst
  dsimp only at hst
  split at hst
  · rename_i o c fd hobj
    obtain rfl := Option.some.inj hst
    exact h.takeFd hobj sockname peername
  · cases hst

theorem Tidy.of_finish {ok : Bool} {sockname peername : Option Addr}
    (hst : Process.step family s (.finish i ok sockname peername) = some t) : Tidy t := by
  unfold Process.step at hst
  dsimp only at hst
  split at hst
  · rename_i o c hobj
    obtain rfl := Option.some.inj hst
    exact h.finishCall hobj ok sockname peername
  · cases hst

theorem Tidy.of_close (hst : Process.step family s (.close i) = some t) : Tidy t := by
  unfold Process.step at hst
  dsimp only at hst
  split at hst
  · rename_i o hobj
    split at hst
    · obtain rfl := Option.some.inj hst
      exact h
    · obtain rfl := Option.some.inj hst
      exact h.close hobj
  · cases hst

theorem Tidy.of_destroy (hst : Process.step family s (.destroy i) = some t) : Tidy t := by
  unfold Process.step at hst
  dsimp only at hst
  split at hst
  · rename_i o hobj
    have hsound := h.sound i o _ hobj
    have hphase : s.fdm.phase i = .outside := hsound.outside nofun
    split at hst
    · obtain rfl := Option.some.inj hst
      exact h.goes_same hobj rfl (.closing hphase hsound.connected nofun)
    · rename_i hnone
      obtain rfl := Option.some.inj hst
      have hsock : o.sock = none := Option.not_isSome_iff_eq_none.mp hnone
      exact h.drop (h.same i) (h.owners.keep ((held_eq hobj).trans hsock)) hphase
  · cases hst

theorem Tidy.of_enter {hookEnable : Bool} (hok : s.orderly (.enter i hookEnable) = true)
    (hst : Process.step family s (.enter i hookEnable) = some t) : Tidy t := by
  unfold Process.step at hst
  dsimp only at hst
  split at hst
  · rename_i o fate hobj
    obtain ⟨fd, hfd, rfl⟩ := Option.map_eq_some_iff.mp hst
    cases hookEnable with
    | true => exact h.enter hobj hfd
    | false =>
      rw [orderly, Bool.false_or] at hok
      exact h.enterBare hobj (Option.isNone_iff_eq_none.mp hok)
  · cases hst

theorem Tidy.of_del (hst : Process.step family s (.del i) = some t) : Tidy t := by
  unfold Process.step at hst
  dsimp only at hst
  split at hst
  · rename_i o fate hobj
    obtain ⟨fd, hfd, rfl⟩ := Option.map_eq_some_iff.mp hst
    exact h.del hobj hfd
  · cases hst

theorem Tidy.of_release (hst : Process.step family s (.release i) = some t) : Tidy t := by
  unfold Process.step at hst
  dsimp only at hst
  split at hst
  · rename_i o fate hobj
    obtain ⟨fd, hfd, rfl⟩ := Option.map_eq_some_iff.mp hst
    exact h.releaseFd hobj hfd
  · cases hst

theorem Tidy.of_io (hst : Process.step family s (.io i) = some t) : Tidy t := by
  unfold Process.step at hst
  dsimp only at hst
  split at hst
  · rename_i o hobj
    split at hst
    · obtain ⟨fd, hfd, rfl⟩ := Option.map_eq_some_iff.mp hst
      have hsound := h.sound i o _ hobj
      have hphase : (s.fdm.lookup i fd false).phase i = .outside := by
        rw [lookup_false]
        exact hsound.outside nofun
      have htidy := h.goes hobj (h.look i fd) rfl (.idle hphase hsound.connected)
      rwa [put_self hobj] at htidy
    · obtain rfl := Option.some.inj hst
      exact h
  · cases hst

/-- **A section keeps the descriptors in order.** -/
theorem Tidy.step {a : Action Addr} (hok : s.orderly a = true)
    (hst : Process.step family s a = some t) : Tidy t := by
  cases a with
  | construct => exact h.of_construct hst
  | call => exact h.of_call hst
  | socket => exact h.of_socket hst
  | accept => exact h.of_accept hst
  | lookup => exact h.of_lookup hok hst
  | create => exact h.of_create hst
  | take => exact h.of_take hst
  | finish => exact h.of_finish hst
  | close => exact h.of_close hst
  | destroy => exact h.of_destroy hst
  | enter => exact h.of_enter hok hst
  | del => exact h.of_del hst
  | release => exact h.of_release hst
  | io => exact h.of_io hst

end Sections

/-! ## Whole runs -/

/-- The descriptors are in order: those in use are held, each by one socket; what is connected has
one, and what is given to `close_f` is in use; a socket that was accepted gets its descriptor; a
context is that of a descriptor that a socket holds, outside the first and the last sections; and
what `FdManager` returns is what a map returns. -/
structure InOrder (s : Process Addr) : Prop where
  owners : Exact s.held s.opened
  connected : ∀ i o ph, s.objs i = some (o, ph) → o.isConnected = true →
    ∃ fd, o.sock = some fd ∧ fd ∈ s.opened
  released : ∀ i o fate fd, s.objs i = some (o, .releasing fate) → o.sock = some fd →
    fd ∈ s.opened
  accepted : ∀ i o fd, s.objs i = some (o, .ready .accept fd) → s.usable fd = true
  contexts : ∀ fd, s.fdm.ctx fd ≠ none →
    ∃ i o ph, s.objs i = some (o, ph) ∧ ph.held o = some fd ∧ ph.bare = false
  mapLike : FdEvent.MapLike s.fdm.log

theorem exists_of_held {fd : Nat} (h : s.held i = some fd) :
    ∃ o ph, s.objs i = some (o, ph) ∧ ph.held o = some fd := by
  obtain ⟨⟨o, ph⟩, hobj, hheld⟩ := Option.bind_eq_some_iff.mp h
  exact ⟨o, ph, hobj, hheld⟩

/-- What a socket has is held by it, also where a call is about to give it back. -/
theorem Tidy.sock_opened (h : Tidy s) {fd : Nat} (hobj : s.objs i = some (o, ph))
    (hfd : o.sock = some fd) : fd ∈ s.opened := by
  have hset : ph.unset = false := by
    by_contra hunset
    rw [Bool.not_eq_false] at hunset
    rw [(h.sound i o ph hobj).unset hunset] at hfd
    cases hfd
  have hheld : ph.held o = some fd := by
    rw [← hfd]
    cases ph with
    | opened c x | creating c x | ready c x => cases hset
    | idle | opening c | called c | closing f | deleting f | releasing f => rfl
  exact h.owners.out_of_held ((held_eq hobj).trans hheld)

theorem Tidy.inOrder (h : Tidy s) : InOrder s := by
  refine ⟨h.owners, fun i o ph hobj hconnected => ?_, fun i o fate fd hobj hfd =>
    h.sock_opened hobj hfd, fun i o fd hobj => h.usable hobj, fun fd hctx => ?_, h.tracks.logged⟩
  · obtain ⟨fd, hfd⟩ := Option.ne_none_iff_exists'.mp ((h.sound i o ph hobj).connected hconnected)
    exact ⟨fd, hfd, h.sock_opened hobj hfd⟩
  · have hopened : fd ∈ s.opened := by
      by_contra hclosed
      exact hctx (h.closed fd hclosed)
    obtain ⟨i, hi⟩ := h.owners.held_of_out hopened
    obtain ⟨o, ph, hobj, hheld⟩ := exists_of_held hi
    refine ⟨i, o, ph, hobj, hheld, ?_⟩
    by_contra hbare
    rw [Bool.not_eq_false] at hbare
    exact hctx ((h.sound i o ph hobj).bare hbare fd hheld)

theorem Tidy.init (h : (machine family).init s) : Tidy s := by
  obtain ⟨hnone, hopened, hfdm⟩ := h
  have hheld : s.held = fun _ => none := by
    funext i
    rw [held, hnone, Option.bind_none]
  refine ⟨?_, fun i o ph hobj => ?_, fun i _ => hfdm.2.1 i, fun fd _ => FdManager.init_ctx hfdm fd,
    FdManager.Tracks.init hfdm⟩
  · rw [hheld, hopened]
    exact .empty
  · rw [hnone] at hobj
    cases hobj

/-- **The descriptors are in order in every run** whose descriptors have an entry in the
`FdManager` and are closed with hooks where they have a context. -/
theorem sockets_tidy {tr : List (Process Addr × Action Addr)} (hrun : (machine family).Run tr s)
    (hok : ∀ p ∈ tr, p.1.orderly p.2 = true) : InOrder s := by
  have htidy : Tidy s := hrun.invariant (fun s a => s.orderly a = true) (fun _ => Tidy.init)
    (fun _ _ _ h hok hst => h.step hok hst) hok
  exact htidy.inOrder

/-- No sockets, and a `FdManager` that nothing has been done with. -/
def start : Process Unit := { objs := fun _ => none, opened := ∅, fdm := FdManager.idle }

/-- One socket is bound to a descriptor, another is accepted on it and closed. -/
def acceptedOne : List (Action Unit) :=
  [.construct 0 2 1 0, .call 0 (.bind ()), .socket 0 true (some 5), .lookup 0, .create 0 2,
    .take 0 none none, .finish 0 true (some ()) none, .accept 0 1 (some 6), .lookup 1, .create 1 2,
    .take 1 (some ()) (some ()), .io 1, .close 1, .enter 1 true, .del 1, .release 1]

theorem sockets_tidy_accepted :
    ∃ s, (machine fun _ : Unit => 2).Run ((machine fun _ => 2).traceOf start acceptedOne) s ∧
      s.opened = {5} ∧ InOrder s := by
  have hstart : (machine fun _ : Unit => 2).init start :=
    ⟨fun _ => rfl, rfl, FdManager.idle_init⟩
  obtain ⟨s, hrun, hopened⟩ := Machine.Run.of_exec_any hstart acceptedOne
    (fun s => decide (s.opened = {5})) (by decide +kernel)
  refine ⟨s, hrun, of_decide_eq_true hopened, sockets_tidy hrun ?_⟩
  exact List.all_eq_true.mp (by decide +kernel)

end Process
end Sylar.SocketLife
