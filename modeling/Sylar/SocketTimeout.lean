import Sylar.HookFcntl
import Sylar.HookIo
import Sylar.IOManager

/-! # The two timeouts of a socket

For a managed descriptor the hooks keep a timeout for each direction in the `FdCtx`, and choose by
the name of a socket option: `setsockopt` the one to set, `do_io` the one to wait for.  `Socket`
has a setter and a getter for each.  Both setters name `SO_RCVTIMEO`, both getters `SO_SNDTIMEO`.

**`timeouts_iff`** says after which calls of the setters the getters, and the hooked calls of
either direction, have the values that were set last. -/
namespace Sylar

/-- `timeval` -/
structure Timeval where
  tv_sec : Int
  tv_usec : Int
  deriving DecidableEq, Repr

def SOL_SOCKET : Nat := 1
def SO_RCVTIMEO : Nat := 20
def SO_SNDTIMEO : Nat := 21

namespace FdCtx

def setTimeout (ctx : FdCtx) (type val : Nat) : FdCtx :=
  if type = SO_RCVTIMEO then { ctx with recvTimeout := val } else { ctx with sendTimeout := val }

def getTimeout (ctx : FdCtx) (type : Nat) : Nat :=
  if type = SO_RCVTIMEO then ctx.recvTimeout else ctx.sendTimeout

/-- The timeouts are `uint64_t`. -/
structure Fits (ctx : FdCtx) : Prop where
  recv : ctx.recvTimeout < 2 ^ 64
  send : ctx.sendTimeout < 2 ^ 64

end FdCtx

/-- The contexts of the `FdManager`, by descriptor. -/
abbrev Contexts := Int → Option FdCtx

/-! ## The hooks -/

namespace Hook

/-- `setsockopt` with a `timeval`, where `setsockopt_f` returns `ret`. -/
def setsockopt (hookEnable : Bool) (ctxs : Contexts) (sockfd : Int) (level optname : Nat)
    (optval : Timeval) (ret : Int) : Contexts × Int :=
  if !hookEnable then (ctxs, ret)
  else if level = SOL_SOCKET then
    if optname = SO_RCVTIMEO ∨ optname = SO_SNDTIMEO then
      match ctxs sockfd with
      | none => (ctxs, ret)
      | some ctx =>
        let val := (optval.tv_sec * 1000 + optval.tv_usec.tdiv 1000) % 2 ^ 64
        (Function.update ctxs sockfd (some (ctx.setTimeout optname val.toNat)), ret)
    else (ctxs, ret)
  else (ctxs, ret)

/-- How `do_io` goes about a call. -/
inductive DoIo
  /-- It returns what the function of the system does. -/
  | direct
  /-- It fails with `EBADF`. -/
  | closed
  /-- It tries, and waits where it would block. -/
  | waits (call : IoCall)
  deriving DecidableEq, Repr

/-- `do_io`, up to the first try. -/
def do_io (hookEnable : Bool) (ctxs : Contexts) (fd : Int) (timeout_so : Nat) : DoIo :=
  if !hookEnable then .direct
  else
    match ctxs fd with
    | none => .direct
    | some ctx =>
      if ctx.isClosed then .closed
      else if !ctx.isSocket || ctx.userNonblock then .direct
      else .waits { retries := true, timeout := ctx.getTimeout timeout_so }

/-- The functions that are hooked by `do_io`. -/
inductive IoFun
  | accept | read | readv | recv | recvfrom | recvmsg
  | write | writev | send | sendto | sendmsg
  deriving DecidableEq, Repr

namespace IoFun

/-- The event and the option that each of them hands to `do_io`. -/
def args : IoFun → IOEvent × Nat
  | accept => (.READ, SO_RCVTIMEO)
  | read => (.READ, SO_RCVTIMEO)
  | readv => (.READ, SO_RCVTIMEO)
  | recv => (.READ, SO_RCVTIMEO)
  | recvfrom => (.READ, SO_RCVTIMEO)
  | recvmsg => (.READ, SO_RCVTIMEO)
  | write => (.WRITE, SO_SNDTIMEO)
  | writev => (.WRITE, SO_SNDTIMEO)
  | send => (.WRITE, SO_SNDTIMEO)
  | sendto => (.WRITE, SO_SNDTIMEO)
  | sendmsg => (.WRITE, SO_SNDTIMEO)

/-- A hooked call of the function. -/
def call (f : IoFun) (hookEnable : Bool) (ctxs : Contexts) (fd : Int) : DoIo :=
  do_io hookEnable ctxs fd f.args.2

end IoFun

end Hook

/-! ## `Socket` -/

namespace Socket
open Hook
variable (hookEnable : Bool) (ctxs : Contexts) (m_sock : Int)

/-- `setOption` with a `timeval`, and its result. -/
def setOption (level option : Nat) (value : Timeval) (ret : Int) : Contexts × Bool :=
  let r := setsockopt hookEnable ctxs m_sock level option value ret
  (r.1, r.2 == 0)

/-- `timeval tv { int( val / 1000 ), int( val % 1000 * 1000 ) }` -/
def timeval (val : Int) : Timeval where
  tv_sec := Int.bmod (val.tdiv 1000) (2 ^ 32)
  tv_usec := Int.bmod (val.tmod 1000 * 1000) (2 ^ 32)

/-- A `uint64_t` as an `int64_t`. -/
def int64 (n : Nat) : Int := Int.bmod n (2 ^ 64)

def getSendTimeout : Int :=
  match ctxs m_sock with
  | some ctx => int64 (ctx.getTimeout SO_SNDTIMEO)
  | none => -1

def setSendTimeout (val ret : Int) : Contexts :=
  -- not `SO_SNDTIMEO`
  (setOption hookEnable ctxs m_sock SOL_SOCKET SO_RCVTIMEO (timeval val) ret).1

def getRecvTimeout : Int :=
  match ctxs m_sock with
  -- not `SO_RCVTIMEO`
  | some ctx => int64 (ctx.getTimeout SO_SNDTIMEO)
  | none => -1

def setRecvTimeout (val ret : Int) : Contexts :=
  (setOption hookEnable ctxs m_sock SOL_SOCKET SO_RCVTIMEO (timeval val) ret).1

end Socket

/-! ## Calls of the setters -/

inductive TimeoutSetter
  | setSendTimeout
  | setRecvTimeout
  deriving DecidableEq, Repr

/-- A call of a setter; `ret` is what `setsockopt_f` returns in it. -/
structure TimeoutCall where
  setter : TimeoutSetter
  val : Int
  ret : Int
  deriving DecidableEq, Repr

namespace TimeoutCall
open Socket Hook TimeoutSetter

/-- The call, with hooks enabled. -/
def run (m_sock : Int) (ctxs : Contexts) (c : TimeoutCall) : Contexts :=
  match c.setter with
  | .setSendTimeout => Socket.setSendTimeout true ctxs m_sock c.val c.ret
  | .setRecvTimeout => Socket.setRecvTimeout true ctxs m_sock c.val c.ret

/-- Any sequence of calls on one socket. -/
def runAll (m_sock : Int) (ctxs : Contexts) (calls : List TimeoutCall) : Contexts :=
  calls.foldl (run m_sock) ctxs

/-- A number of milliseconds that fits in an `int`. -/
def InRange (c : TimeoutCall) : Prop := 0 ≤ c.val ∧ c.val < 2 ^ 31

instance (c : TimeoutCall) : Decidable c.InRange := inferInstanceAs (Decidable (_ ∧ _))

/-- The value of the last call of a setter. -/
def lastSet (setter : TimeoutSetter) (calls : List TimeoutCall) : Option Int :=
  ((calls.filter fun c => c.setter = setter).getLast?).map val

/-- **Two settings**: each getter returns the value of the last call of its setter, or the
timeout of its direction before the first, and a hooked call that waits does so for that of its
own direction. -/
structure Independent (ctx : FdCtx) (calls : List TimeoutCall) (m_sock : Int)
    (after : Contexts) : Prop where
  send : getSendTimeout after m_sock = (lastSet setSendTimeout calls).getD (int64 ctx.sendTimeout)
  recv : getRecvTimeout after m_sock = (lastSet setRecvTimeout calls).getD (int64 ctx.recvTimeout)
  reads : ∀ (f : IoFun) (c : IoCall), f.args.1 = .READ → f.call true after m_sock = .waits c →
    (c.timeout : Int) = (lastSet setRecvTimeout calls).getD ctx.recvTimeout
  writes : ∀ (f : IoFun) (c : IoCall), f.args.1 = .WRITE → f.call true after m_sock = .waits c →
    (c.timeout : Int) = (lastSet setSendTimeout calls).getD ctx.sendTimeout

/-! ### One call -/

section Step
variable {ctxs : Contexts} {m_sock : Int} {ctx : FdCtx} {calls : List TimeoutCall}

/-- The hook gets back the milliseconds that the setter was given. -/
theorem timeval_millis {val : Int} (h : 0 ≤ val ∧ val < 2 ^ 31) :
    (((timeval val).tv_sec * 1000 + (timeval val).tv_usec.tdiv 1000) % 2 ^ 64).toNat =
      val.toNat := by
  have hsec : (timeval val).tv_sec = val / 1000 := by
    show Int.bmod (val.tdiv 1000) (2 ^ 32) = _
    rw [Int.tdiv_eq_ediv_of_nonneg h.1]
    exact Int.bmod_eq_of_le (by omega) (by omega)
  have husec : (timeval val).tv_usec = val % 1000 * 1000 := by
    show Int.bmod (val.tmod 1000 * 1000) (2 ^ 32) = _
    rw [Int.tmod_eq_emod_of_nonneg h.1]
    exact Int.bmod_eq_of_le (by omega) (by omega)
  rw [hsec, husec, Int.mul_tdiv_cancel _ (by decide)]
  omega

theorem setOption_timeout (hctx : ctxs m_sock = some ctx) {option : Nat}
    (hoption : option = SO_RCVTIMEO ∨ option = SO_SNDTIMEO) {val : Int}
    (h : 0 ≤ val ∧ val < 2 ^ 31) (ret : Int) :
    (setOption true ctxs m_sock SOL_SOCKET option (timeval val) ret).1 m_sock =
      some (ctx.setTimeout option val.toNat) := by
  simp only [setOption, setsockopt, hctx, hoption, timeval_millis h, Bool.not_true,
    Bool.false_eq_true, if_false, if_true, Function.update_self]

/-- Either setter sets the timeout of `SO_RCVTIMEO`. -/
theorem run_ctx (hctx : ctxs m_sock = some ctx) {c : TimeoutCall} (hc : c.InRange) :
    run m_sock ctxs c m_sock = some { ctx with recvTimeout := c.val.toNat } := by
  have hset := setOption_timeout hctx (.inl rfl) hc c.ret
  rcases c with ⟨setter, val, ret⟩
  cases setter with
  | setSendTimeout => exact hset
  | setRecvTimeout => exact hset

theorem runAll_ctx (hctx : ctxs m_sock = some ctx) (hcalls : ∀ c ∈ calls, c.InRange) :
    runAll m_sock ctxs calls m_sock = some { ctx with
      recvTimeout := (calls.getLast?.map fun c => c.val.toNat).getD ctx.recvTimeout } := by
  induction calls using List.reverseRecOn with
  | nil => exact hctx
  | append_singleton calls c ih =>
    have hrest := ih fun d hd => hcalls d (List.mem_append_left _ hd)
    have hlast := run_ctx hrest (hcalls c (List.mem_append_right _ (List.mem_singleton_self c)))
    rw [runAll, List.foldl_append, List.getLast?_concat]
    exact hlast

end Step

/-! ### The last calls -/

section Last
variable {calls : List TimeoutCall} {setter : TimeoutSetter}

theorem lastSet_snoc (c : TimeoutCall) :
    lastSet setter (calls ++ [c]) =
      if c.setter = setter then some c.val else lastSet setter calls := by
  rw [lastSet, List.filter_append]
  by_cases h : c.setter = setter
  · simp [h]
  · simp [h, lastSet]

theorem lastSet_inRange {t : Int} (hcalls : ∀ c ∈ calls, c.InRange)
    (h : lastSet setter calls = some t) : 0 ≤ t ∧ t < 2 ^ 31 := by
  obtain ⟨c, hc, rfl⟩ := Option.map_eq_some_iff.mp h
  exact hcalls c (List.mem_of_mem_filter (List.mem_of_getLast? hc))

end Last

/-! ### What is read afterwards -/

section Read
variable {ctxs : Contexts} {m_sock : Int} {ctx : FdCtx} {calls : List TimeoutCall}

theorem int64_eq {n : Nat} (hn : n < 2 ^ 64) :
    int64 n = if n < 2 ^ 63 then (n : Int) else n - 2 ^ 64 := by
  unfold int64
  rw [Int.bmod_def]
  push_cast
  split_ifs <;> omega

theorem int64_eq_iff {n : Nat} {t : Int} (hn : n < 2 ^ 64) (ht : 0 ≤ t ∧ t < 2 ^ 31) :
    int64 n = t ↔ t = n := by
  rw [int64_eq hn]
  split_ifs <;> omega

theorem int64_inj {n m : Nat} (hn : n < 2 ^ 64) (hm : m < 2 ^ 64) :
    int64 n = int64 m ↔ (m : Int) = n := by
  rw [int64_eq hn, int64_eq hm]
  split_ifs <;> omega

/-- What a getter that reads `n` has to return: the value that was set last, or `m`. -/
theorem getter_iff {n m : Nat} (hn : n < 2 ^ 64) (hm : m < 2 ^ 64) (setter : TimeoutSetter)
    (hcalls : ∀ c ∈ calls, c.InRange) :
    int64 n = (lastSet setter calls).getD (int64 m) ↔
      (lastSet setter calls).getD (m : Int) = n := by
  cases hlast : lastSet setter calls with
  | none =>
    rw [Option.getD_none, Option.getD_none]
    exact int64_inj hn hm
  | some t =>
    rw [Option.getD_some, Option.getD_some]
    exact int64_eq_iff hn (lastSet_inRange hcalls hlast)

/-- The functions that wait for reading name `SO_RCVTIMEO`, those that wait for writing
`SO_SNDTIMEO`. -/
theorem args_option (f : IoFun) :
    (f.args.1 = .READ → f.args.2 = SO_RCVTIMEO) ∧ (f.args.1 = .WRITE → f.args.2 = SO_SNDTIMEO) := by
  cases f <;> decide

theorem timeout_of_waits (hctx : ctxs m_sock = some ctx) {f : IoFun} {c : IoCall}
    (h : f.call true ctxs m_sock = .waits c) : c.timeout = ctx.getTimeout f.args.2 := by
  simp only [IoFun.call, do_io, hctx, Bool.not_true, Bool.false_eq_true, if_false] at h
  split_ifs at h
  injection h with h
  rw [← h]

/-- Both getters read the send timeout. -/
theorem getters_eq (hctx : ctxs m_sock = some ctx) :
    getSendTimeout ctxs m_sock = int64 ctx.sendTimeout ∧
      getRecvTimeout ctxs m_sock = int64 ctx.sendTimeout := by
  rw [getSendTimeout, getRecvTimeout, hctx]
  exact ⟨rfl, rfl⟩

/-- Either setter moves the receive timeout, so the last call of all decides; where the last ones
of both kinds agree it is the value that was meant for it. -/
theorem recvTimeout_of_agree (hcalls : ∀ c ∈ calls, c.InRange)
    (hsend : (lastSet setSendTimeout calls).getD ctx.sendTimeout = ctx.sendTimeout)
    (hrecv : (lastSet setRecvTimeout calls).getD ctx.recvTimeout = ctx.sendTimeout) :
    (((calls.getLast?.map fun c => c.val.toNat).getD ctx.recvTimeout : Nat) : Int) =
      ctx.sendTimeout := by
  rcases List.eq_nil_or_concat calls with rfl | ⟨rest, c, rfl⟩
  · exact hrecv
  · -- the last call of all is also the last one of its setter
    rw [List.concat_eq_append] at *
    have hnonneg := (hcalls c (List.mem_append_right _ (List.mem_singleton_self c))).1
    rw [lastSet_snoc] at hsend hrecv
    rw [List.getLast?_concat]
    show (c.val.toNat : Int) = _
    rw [Int.toNat_of_nonneg hnonneg]
    cases hsetter : c.setter with
    | setSendTimeout => rwa [if_pos hsetter] at hsend
    | setRecvTimeout => rwa [if_pos hsetter] at hrecv

/-- **When the two settings are independent**: the last value meant for sending, and the last one
meant for receiving, are both the one that the send timeout had. -/
theorem timeouts_iff (hctx : ctxs m_sock = some ctx) (hfits : ctx.Fits)
    (hcalls : ∀ c ∈ calls, c.InRange) :
    Independent ctx calls m_sock (runAll m_sock ctxs calls) ↔
      (lastSet setSendTimeout calls).getD ctx.sendTimeout = ctx.sendTimeout ∧
        (lastSet setRecvTimeout calls).getD ctx.recvTimeout = ctx.sendTimeout := by
  have hafter := runAll_ctx hctx hcalls
  obtain ⟨hgetSend, hgetRecv⟩ := getters_eq hafter
  have hsend_iff := getter_iff hfits.send hfits.send setSendTimeout hcalls
  have hrecv_iff := getter_iff hfits.send hfits.recv setRecvTimeout hcalls
  constructor
  · intro h
    exact ⟨hsend_iff.mp (hgetSend.symm.trans h.send), hrecv_iff.mp (hgetRecv.symm.trans h.recv)⟩
  · rintro ⟨hsend, hrecv⟩
    refine ⟨hgetSend.trans (hsend_iff.mpr hsend), hgetRecv.trans (hrecv_iff.mpr hrecv),
      fun f c hf hc => ?_, fun f c hf hc => ?_⟩
    · rw [hrecv, timeout_of_waits hafter hc, (args_option f).1 hf]
      exact recvTimeout_of_agree hcalls hsend hrecv
    · rw [hsend, timeout_of_waits hafter hc, (args_option f).2 hf]
      rfl

end Read

/-! ### Two sockets -/

/-- The context of a socket that has just been made. -/
def fresh : FdCtx := (FdCtx.new 3 (some true) 0).1

/-- One whose options were both set to 500 ms. -/
def preset : FdCtx := (fresh.setTimeout SO_RCVTIMEO 500).setTimeout SO_SNDTIMEO 500

def only (ctx : FdCtx) : Contexts := Function.update (fun _ => none) 3 (some ctx)

theorem timeouts_preset :
    Independent preset
      [⟨setRecvTimeout, 700, 0⟩, ⟨setSendTimeout, 500, 0⟩, ⟨setRecvTimeout, 500, 0⟩] 3
      (runAll 3 (only preset)
        [⟨setRecvTimeout, 700, 0⟩, ⟨setSendTimeout, 500, 0⟩, ⟨setRecvTimeout, 500, 0⟩]) :=
  (timeouts_iff rfl ⟨by decide, by decide⟩ (by decide)).mpr (by decide)

/-- The send timeout is set: its getter still returns -1, and it is the reads that have it. -/
theorem send_timeout_misses :
    getSendTimeout (runAll 3 (only fresh) [⟨setSendTimeout, 500, 0⟩]) 3 = -1 ∧
      IoFun.recv.call true (runAll 3 (only fresh) [⟨setSendTimeout, 500, 0⟩]) 3 =
        .waits { retries := true, timeout := 500 } ∧
      IoFun.send.call true (runAll 3 (only fresh) [⟨setSendTimeout, 500, 0⟩]) 3 =
        .waits { retries := true, timeout := uint64Max } ∧
      ¬ Independent fresh [⟨setSendTimeout, 500, 0⟩] 3
        (runAll 3 (only fresh) [⟨setSendTimeout, 500, 0⟩]) := by
  have hget : getSendTimeout (runAll 3 (only fresh) [⟨setSendTimeout, 500, 0⟩]) 3 = -1 := by decide
  refine ⟨hget, by decide, by decide, fun h => ?_⟩
  have hsend := h.send
  rw [hget] at hsend
  revert hsend
  decide

end TimeoutCall
end Sylar
