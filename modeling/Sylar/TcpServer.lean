import Mathlib.Data.List.Basic

/-! # Binding a server to its addresses

`TcpServer::bind` makes a socket for every address, binds it and listens on it.  The sockets go
straight into `m_socks`, behind those of earlier calls; and where some address fails `m_socks` is
emptied.

**`bind_atomic_iff`** says when a call leaves the sockets of earlier calls alone and adds one for
each of its own addresses, or none. -/
namespace Sylar

/-- The address of a `Socket`. -/
abbrev SocketPtr := Nat

/-- `Socket`, with what was done to it. -/
structure Socket (Addr : Type) where
  ptr : SocketPtr
  localAddress : Option Addr
  listening : Bool
  deriving DecidableEq, Repr

/-- An address of the list, the socket that `CreateTCP` makes for it, and what the system answers
to `bind` and to `listen` on that socket. -/
structure BindAttempt (Addr : Type) where
  addr : Addr
  ptr : SocketPtr
  bindOk : Bool
  listenOk : Bool
  deriving DecidableEq, Repr

namespace Socket
variable {Addr : Type}

/-- `Socket::CreateTCP` -/
def createTCP (ptr : SocketPtr) : Socket Addr := { ptr, localAddress := none, listening := false }

/-- `bind`, with its result. -/
def bind (s : Socket Addr) (addr : Addr) (ok : Bool) : Socket Addr × Bool :=
  if ok then ({ s with localAddress := some addr }, true) else (s, false)

/-- `listen`, with its result. -/
def listen (s : Socket Addr) (ok : Bool) : Socket Addr × Bool :=
  if ok then ({ s with listening := true }, true) else (s, false)

end Socket

namespace BindAttempt
variable {Addr : Type} (a : BindAttempt Addr)

/-- The address succeeds. -/
def ok : Bool := a.bindOk && a.listenOk

/-- The socket that then listens on it. -/
def socket : Socket Addr := { ptr := a.ptr, localAddress := some a.addr, listening := true }

end BindAttempt

/-- `TcpServer` -/
structure TcpServer (Addr : Type) where
  socks : List (Socket Addr)
  deriving DecidableEq, Repr

/-- How `bind` ends: what it returns, and what it leaves in `fails`. -/
structure BindResult (Addr : Type) where
  ret : Bool
  server : TcpServer Addr
  fails : List Addr
  deriving DecidableEq, Repr

namespace TcpServer
variable {Addr : Type}

/-- The loop over `addrs`. -/
def bindLoop (server : TcpServer Addr) (fails : List Addr) :
    List (BindAttempt Addr) → TcpServer Addr × List Addr
  | [] => (server, fails)
  | a :: rest =>
    let bound := (Socket.createTCP a.ptr).bind a.addr a.bindOk
    if !bound.2 then bindLoop server (fails ++ [a.addr]) rest
    else
      let sock := bound.1.listen a.listenOk
      if !sock.2 then bindLoop server (fails ++ [a.addr]) rest
      else bindLoop { server with socks := server.socks ++ [sock.1] } fails rest

/-- `bind( addrs, fails )` -/
def bind (server : TcpServer Addr) (addrs : List (BindAttempt Addr)) (fails : List Addr) :
    BindResult Addr :=
  let r := server.bindLoop fails addrs
  -- `m_socks.clear()`, whoever put them there
  if r.2 ≠ [] then { ret := false, server := { r.1 with socks := [] }, fails := r.2 }
  else { ret := true, server := r.1, fails := r.2 }

/-- `bind( addr )` -/
def bindOne (server : TcpServer Addr) (addr : BindAttempt Addr) : Bool × TcpServer Addr :=
  let r := server.bind [addr] []
  (r.ret, r.server)

/-! ## What a call does -/

/-- The addresses that fail, in order. -/
def failing (addrs : List (BindAttempt Addr)) : List Addr :=
  (addrs.filter fun a => !a.ok).map BindAttempt.addr

/-- The sockets of the others. -/
def listening (addrs : List (BindAttempt Addr)) : List (Socket Addr) :=
  (addrs.filter BindAttempt.ok).map BindAttempt.socket

section Loop
variable (server : TcpServer Addr) (fails : List Addr)

theorem bindLoop_ok {a : BindAttempt Addr} (h : a.ok = true) (rest : List (BindAttempt Addr)) :
    server.bindLoop fails (a :: rest) =
      bindLoop ⟨server.socks ++ [a.socket]⟩ fails rest := by
  obtain ⟨hbind, hlisten⟩ := Bool.and_eq_true_iff.mp h
  simp [bindLoop, Socket.bind, Socket.listen, Socket.createTCP, BindAttempt.socket, hbind, hlisten]

theorem bindLoop_fails {a : BindAttempt Addr} (h : a.ok = false) (rest : List (BindAttempt Addr)) :
    server.bindLoop fails (a :: rest) = bindLoop server (fails ++ [a.addr]) rest := by
  rcases Bool.and_eq_false_iff.mp h with hbind | hlisten
  · simp [bindLoop, Socket.bind, hbind]
  · simp [bindLoop, Socket.listen, hlisten]

/-- What the loop adds: the sockets that listen, and the addresses that fail. -/
theorem bindLoop_eq (addrs : List (BindAttempt Addr)) :
    server.bindLoop fails addrs =
      (⟨server.socks ++ listening addrs⟩, fails ++ failing addrs) := by
  induction addrs generalizing server fails with
  | nil => simp [bindLoop, listening, failing]
  | cons a rest ih =>
    cases hok : a.ok with
    | true =>
      rw [bindLoop_ok server fails hok, ih]
      simp [listening, failing, hok]
    | false =>
      rw [bindLoop_fails server fails hok, ih]
      simp [listening, failing, hok]

end Loop

variable {server : TcpServer Addr} {addrs : List (BindAttempt Addr)}

theorem failing_eq_nil_iff : failing addrs = [] ↔ ∀ a ∈ addrs, a.ok = true := by
  rw [failing, List.map_eq_nil_iff, List.filter_eq_nil_iff]
  simp

theorem listening_of_all (h : ∀ a ∈ addrs, a.ok = true) :
    listening addrs = addrs.map BindAttempt.socket := by
  rw [listening, List.filter_eq_self.mpr h]

/-- Where all addresses succeed. -/
theorem bind_of_all (h : ∀ a ∈ addrs, a.ok = true) :
    server.bind addrs [] =
      ⟨true, ⟨server.socks ++ addrs.map BindAttempt.socket⟩, []⟩ := by
  have hfails := failing_eq_nil_iff.mpr h
  rw [bind, bindLoop_eq, hfails, listening_of_all h]
  rfl

/-- Where one fails, no socket is left. -/
theorem bind_of_fails (h : ¬ ∀ a ∈ addrs, a.ok = true) :
    server.bind addrs [] = ⟨false, ⟨[]⟩, failing addrs⟩ := by
  have hfails := mt failing_eq_nil_iff.mp h
  rw [bind, bindLoop_eq, List.nil_append]
  exact if_pos hfails

/-! ## What is asked of it -/

/-- The call succeeds exactly where every address does, and then adds one listening socket for
each, in order; otherwise it names those that failed, and leaves the sockets as they were. -/
structure Atomic (server : TcpServer Addr) (addrs : List (BindAttempt Addr)) : Prop where
  ret_iff : (server.bind addrs []).ret = true ↔ ∀ a ∈ addrs, a.ok = true
  success : (server.bind addrs []).ret = true →
    (server.bind addrs []).server.socks = server.socks ++ addrs.map BindAttempt.socket
  failure : (server.bind addrs []).ret = false →
    (server.bind addrs []).fails = failing addrs ∧
      (server.bind addrs []).server.socks = server.socks

theorem bind_ret_iff : (server.bind addrs []).ret = true ↔ ∀ a ∈ addrs, a.ok = true := by
  constructor
  · intro hret
    by_contra h
    rw [bind_of_fails h] at hret
    cases hret
  · intro h
    rw [bind_of_all h]

/-- A single address is bound exactly where it succeeds. -/
theorem bindOne_iff (a : BindAttempt Addr) : (server.bindOne a).1 = true ↔ a.ok = true := by
  rw [bindOne, bind_ret_iff, List.forall_mem_singleton]

/-- **When a call is atomic**: all its addresses succeed, or no earlier call has left a socket. -/
theorem bind_atomic_iff :
    server.Atomic addrs ↔ (∀ a ∈ addrs, a.ok = true) ∨ server.socks = [] := by
  by_cases h : ∀ a ∈ addrs, a.ok = true
  · have hrun : server.bind addrs [] = _ := bind_of_all h
    refine iff_of_true ⟨bind_ret_iff, fun _ => by rw [hrun], fun hret => ?_⟩ (.inl h)
    rw [hrun] at hret
    cases hret
  · have hrun : server.bind addrs [] = _ := bind_of_fails h
    rw [or_iff_right h]
    constructor
    · intro hatomic
      have hsocks := (hatomic.failure (by rw [hrun])).2
      rw [hrun] at hsocks
      exact hsocks.symm
    · intro hempty
      refine ⟨bind_ret_iff, fun hret => ?_, fun _ => ?_⟩
      · rw [hrun] at hret
        cases hret
      · rw [hrun, hempty]
        exact ⟨rfl, rfl⟩

/-- A server with a socket for one address, and a call for another that is in use. -/
theorem bind_not_atomic :
    let server : TcpServer Nat := ⟨[⟨7, some 80, true⟩]⟩
    server.bind [⟨8000, 8, false, true⟩] [] = ⟨false, ⟨[]⟩, [8000]⟩ ∧
      ¬ server.Atomic [⟨8000, 8, false, true⟩] := by
  refine ⟨by decide, fun h => ?_⟩
  exact absurd (h.failure (by decide)).2 (by decide)

end TcpServer
end Sylar
