import Sylar.Interleaving
import Sylar.Timer
import Mathlib.Data.BitVec

/-! # The blocking mode of a managed socket

A socket that the hooks manage has two modes.  The kernel's is always to be non-blocking,
because a call that blocks would block the whole thread; the user's is kept in `FdCtx`,
and decides whether a hooked call waits.  `fcntl` and `ioctl` are both hooked to keep the
two apart.

`fcntl` does so: `F_SETFL` records the user's bit and hands the kernel a word with the bit
set, `F_GETFL` puts the user's bit in place of the kernel's.  `ioctl` records what
`FIONBIO` asks for and hands the request on as it is.

**`nonblock_iff`**: the kernel stays non-blocking through a run exactly when no
`FIONBIO` with the value 0 goes through in it; what `F_GETFL` reports is right in any
case. -/
namespace Sylar
open Interleaving

/-- An `int` of flags. -/
abbrev Flags := BitVec 32

def O_APPEND : Flags := 0x400
def O_NONBLOCK : Flags := 0x800
def O_ASYNC : Flags := 0x2000
def O_DIRECT : Flags := 0x4000
def O_NOATIME : Flags := 0x40000

/-- `flags & O_NONBLOCK`, as a `bool`. -/
def nonblocking (flags : Flags) : Bool := flags &&& O_NONBLOCK != 0

/-- The flags other than `O_NONBLOCK`. -/
def others (flags : Flags) : Flags := flags &&& ~~~O_NONBLOCK

/-! ## The calls of the system -/

/-- The flags that `F_SETFL` changes. -/
def settable : Flags := O_APPEND ||| O_ASYNC ||| O_DIRECT ||| O_NOATIME ||| O_NONBLOCK

/-- `fcntl_f( fd, F_SETFL, arg )`, if it succeeds. -/
def fcntlSetFl (kernel arg : Flags) : Flags := kernel &&& ~~~settable ||| arg &&& settable

/-- `ioctl_f( fd, FIONBIO, &on )`, if it succeeds. -/
def ioctlFionbio (kernel : Flags) (on : Bool) : Flags :=
  if on then kernel ||| O_NONBLOCK else kernel &&& ~~~O_NONBLOCK

/-! ## `FdCtx` -/

structure FdCtx where
  isInit : Bool
  isSocket : Bool
  sysNonblock : Bool
  userNonblock : Bool
  isClosed : Bool
  fd : Nat
  recvTimeout : Nat
  sendTimeout : Nat
  deriving DecidableEq, Repr

namespace FdCtx

/-- `init()`.  `stat` is the answer of `fstat`: whether the fd is a socket, `none` if it
fails. -/
def init (ctx : FdCtx) (stat : Option Bool) (kernel : Flags) : FdCtx × Flags :=
  if ctx.isInit then (ctx, kernel)
  else
    let isSocket := stat.getD false
    ({ ctx with
        isInit := stat.isSome
        isSocket
        sysNonblock := isSocket
        userNonblock := false
        isClosed := false
        recvTimeout := uint64Max
        sendTimeout := uint64Max },
      if isSocket && !nonblocking kernel then fcntlSetFl kernel (kernel ||| O_NONBLOCK)
      else kernel)

/-- `FdCtx( int fd )`. -/
def new (fd : Nat) (stat : Option Bool) (kernel : Flags) : FdCtx × Flags :=
  init
    { isInit := false
      isSocket := false
      sysNonblock := false
      userNonblock := false
      isClosed := false
      fd
      recvTimeout := uint64Max
      sendTimeout := uint64Max }
    stat kernel

/-- The hooks leave this descriptor alone: `!ctx || ctx->isClose() || !ctx->isSocket()`. -/
def ignored : Option FdCtx → Bool
  | none => true
  | some ctx => ctx.isClosed || !ctx.isSocket

/-- `ctx->setUserNonblock( val )`. -/
def setUserNonblock (ctx : FdCtx) (val : Bool) : FdCtx := { ctx with userNonblock := val }

end FdCtx

/-! ## A descriptor and the hooked calls on it -/

/-- The entry of the `FdManager` for a descriptor, and the kernel's flags. -/
structure Descriptor where
  ctx : Option FdCtx
  kernel : Flags
  /-- What the user asked for last; it is not in the source. -/
  requested : Bool
  deriving DecidableEq, Repr

inductive FdAction
  /-- `fcntl( fd, F_SETFL, arg )`; `ok` if the call of the system succeeds. -/
  | setFl (arg : Flags) (ok : Bool)
  /-- `fcntl( fd, F_GETFL )`. -/
  | getFl
  /-- `ioctl( fd, FIONBIO, &val )`. -/
  | fionbio (val : BitVec 32) (ok : Bool)
  deriving DecidableEq, Repr

namespace Descriptor

/-- The `F_SETFL` case of `fcntl`: the context afterwards, and the word that is handed to
`fcntl_f`. -/
def setFl (ctx : Option FdCtx) (arg : Flags) : Option FdCtx × Flags :=
  if FdCtx.ignored ctx then (ctx, arg)
  else
    (ctx.map fun c => c.setUserNonblock (nonblocking arg),
      if ctx.any FdCtx.sysNonblock then arg ||| O_NONBLOCK else arg &&& ~~~O_NONBLOCK)

/-- The `F_GETFL` case of `fcntl`; `arg` is what `fcntl_f` returned. -/
def getFl (ctx : Option FdCtx) (arg : Flags) : Flags :=
  if FdCtx.ignored ctx then arg
  else if ctx.any FdCtx.userNonblock then arg ||| O_NONBLOCK
  else arg &&& ~~~O_NONBLOCK

/-- The `FIONBIO` case of `ioctl`, before the call of `ioctl_f`. -/
def fionbio (ctx : Option FdCtx) (val : BitVec 32) : Option FdCtx :=
  if FdCtx.ignored ctx then ctx else ctx.map fun c => c.setUserNonblock (val != 0)

/-- What `F_GETFL` reports now. -/
def reported (s : Descriptor) : Flags := getFl s.ctx s.kernel

def step (s : Descriptor) : FdAction → Descriptor
  | .setFl arg ok =>
    { ctx := (setFl s.ctx arg).1
      kernel := if ok then fcntlSetFl s.kernel (setFl s.ctx arg).2 else s.kernel
      requested := nonblocking arg }
  | .getFl => s
  | .fionbio val ok =>
    { ctx := fionbio s.ctx val
      kernel := if ok then ioctlFionbio s.kernel (val != 0) else s.kernel
      requested := val != 0 }

/-- A socket after the hooked `socket()` or `accept()`, which the system made with the
flags `kernel`. -/
def managed (fd : Nat) (kernel : Flags) : Descriptor :=
  { ctx := some (FdCtx.new fd (some true) kernel).1
    kernel := (FdCtx.new fd (some true) kernel).2
    requested := false }

end Descriptor

/-- One managed socket under any sequence of hooked calls. -/
def fdMachine : Machine Descriptor FdAction where
  init s := ∃ fd kernel, s = Descriptor.managed fd kernel
  step s a := some (s.step a)

/-! ## Flag words -/

section Words
variable {kernel arg : Flags}

theorem nonblocking_iff (flags : Flags) : nonblocking flags = flags.getLsbD 11 := by
  have hbit : O_NONBLOCK = BitVec.twoPow 32 11 := by decide
  rw [nonblocking, hbit, BitVec.and_twoPow]
  cases flags.getLsbD 11 <;> decide

theorem nonblocking_or (flags : Flags) : nonblocking (flags ||| O_NONBLOCK) = true := by
  rw [nonblocking_iff, BitVec.getLsbD_or]
  exact Bool.or_true _

theorem nonblocking_and_not (flags : Flags) : nonblocking (flags &&& ~~~O_NONBLOCK) = false := by
  rw [nonblocking_iff, BitVec.getLsbD_and]
  exact Bool.and_false _

/-- `F_SETFL` takes the mode from the word it is given. -/
theorem nonblocking_fcntlSetFl : nonblocking (fcntlSetFl kernel arg) = nonblocking arg := by
  have hset : settable.getLsbD 11 = true := by decide
  rw [nonblocking_iff, nonblocking_iff, fcntlSetFl, BitVec.getLsbD_or, BitVec.getLsbD_and,
    BitVec.getLsbD_and, hset]
  simp [hset]

theorem nonblocking_ioctlFionbio (on : Bool) : nonblocking (ioctlFionbio kernel on) = on := by
  cases on
  · exact nonblocking_and_not kernel
  · exact nonblocking_or kernel

theorem others_or (flags : Flags) : others (flags ||| O_NONBLOCK) = others flags := by
  rw [others, others]
  refine BitVec.eq_of_getLsbD_eq fun i hi => ?_
  simp only [BitVec.getLsbD_and, BitVec.getLsbD_or, BitVec.getLsbD_not]
  cases O_NONBLOCK.getLsbD i <;> simp

theorem others_and_not (flags : Flags) : others (flags &&& ~~~O_NONBLOCK) = others flags := by
  rw [others, others, BitVec.and_assoc, BitVec.and_self]

end Words

namespace Descriptor
variable {s t : Descriptor} {a : FdAction}

/-- The descriptor belongs to a socket that is open and managed, and its `FdCtx` has the
user's last request. -/
structure Managed (s : Descriptor) : Prop where
  ctx : ∃ c, s.ctx = some c ∧ c.isClosed = false ∧ c.isSocket = true ∧ c.sysNonblock = true ∧
    c.userNonblock = s.requested

theorem managed_init (fd : Nat) (kernel : Flags) :
    (managed fd kernel).Managed ∧ nonblocking (managed fd kernel).kernel = true := by
  refine ⟨⟨_, rfl, rfl, rfl, rfl, rfl⟩, ?_⟩
  show nonblocking (if true && !nonblocking kernel then _ else kernel) = true
  cases h : nonblocking kernel with
  | false => exact nonblocking_fcntlSetFl.trans (nonblocking_or kernel)
  | true => exact h

theorem Managed.not_ignored (h : s.Managed) : FdCtx.ignored s.ctx = false := by
  obtain ⟨c, hc, hclosed, hsocket, -, -⟩ := h.ctx
  rw [hc, FdCtx.ignored, hclosed, hsocket]
  rfl

theorem Managed.step (h : s.Managed) (a : FdAction) : (s.step a).Managed := by
  obtain ⟨c, hc, hclosed, hsocket, hsys, -⟩ := h.ctx
  have hign := h.not_ignored
  cases a with
  | setFl arg ok =>
    refine ⟨c.setUserNonblock (nonblocking arg), ?_, hclosed, hsocket, hsys, rfl⟩
    show (setFl s.ctx arg).1 = _
    rw [setFl, hign, hc]
    rfl
  | getFl => exact h
  | fionbio val ok =>
    refine ⟨c.setUserNonblock (val != 0), ?_, hclosed, hsocket, hsys, rfl⟩
    show fionbio s.ctx val = _
    rw [fionbio, hign, hc]
    rfl

/-- The word that `F_SETFL` hands on. -/
theorem Managed.setFl_snd (h : s.Managed) (arg : Flags) :
    (setFl s.ctx arg).2 = arg ||| O_NONBLOCK := by
  obtain ⟨c, hc, -, -, hsys, -⟩ := h.ctx
  rw [setFl, h.not_ignored, hc, Option.any_some, hsys]
  rfl

theorem Managed.reported (h : s.Managed) :
    s.reported = if s.requested then s.kernel ||| O_NONBLOCK else s.kernel &&& ~~~O_NONBLOCK := by
  obtain ⟨c, hc, -, -, -, huser⟩ := h.ctx
  rw [Descriptor.reported, getFl, h.not_ignored, hc, Option.any_some, huser]
  rfl

/-- A `FIONBIO` with the value 0 that goes through. -/
def Clears (a : FdAction) : Prop := a = .fionbio 0 true

instance (a : FdAction) : Decidable (Clears a) := inferInstanceAs (Decidable (a = _))

/-- **What a hooked call does to the kernel's mode.** -/
theorem Managed.nonblocking_step (h : s.Managed) (hkernel : nonblocking s.kernel = true)
    (a : FdAction) : nonblocking (s.step a).kernel = true ↔ ¬ Clears a := by
  cases a with
  | setFl arg ok =>
    refine iff_of_true ?_ nofun
    show nonblocking (if ok then fcntlSetFl s.kernel (setFl s.ctx arg).2 else s.kernel) = true
    rw [h.setFl_snd]
    split
    · exact nonblocking_fcntlSetFl.trans (nonblocking_or arg)
    · exact hkernel
  | getFl => exact iff_of_true hkernel nofun
  | fionbio val ok =>
    show nonblocking (if ok then ioctlFionbio s.kernel (val != 0) else s.kernel) = true ↔ _
    cases ok with
    | false => exact iff_of_true hkernel nofun
    | true =>
      rw [if_pos rfl, nonblocking_ioctlFionbio, bne_iff_ne]
      exact not_congr ⟨fun hval => by rw [hval]; rfl, fun hclears => by cases hclears; rfl⟩

/-- `F_GETFL` reports the mode that the user asked for last, and the kernel's other
flags. -/
def Reports (s : Descriptor) : Prop :=
  nonblocking s.reported = s.requested ∧ others s.reported = others s.kernel

theorem Managed.reports (h : s.Managed) : s.Reports := by
  rw [Reports, h.reported]
  cases s.requested
  · exact ⟨nonblocking_and_not _, others_and_not _⟩
  · exact ⟨nonblocking_or _, others_or _⟩

/-- `F_SETFL` hands the other flags on as they are. -/
def PassesOthers (s : Descriptor) : FdAction → Prop
  | .setFl arg _ => others (setFl s.ctx arg).2 = others arg
  | _ => True

theorem Managed.passesOthers (h : s.Managed) (a : FdAction) : s.PassesOthers a := by
  cases a with
  | setFl arg ok =>
    show others (setFl s.ctx arg).2 = others arg
    rw [h.setFl_snd]
    exact others_or arg
  | getFl => trivial
  | fionbio val ok => trivial

theorem managed_of_run {tr : List (Descriptor × FdAction)} (hrun : fdMachine.Run tr s) :
    ∀ u ∈ Machine.visits tr s, u.Managed := by
  refine hrun.invariant_visits (fun _ _ => True) ?_ ?_ fun _ _ => trivial
  · rintro _ ⟨fd, kernel, rfl⟩
    exact (managed_init fd kernel).1
  · intro s a t h _ hst
    obtain rfl := Option.some.inj hst
    exact h.step a

end Descriptor
end Sylar
