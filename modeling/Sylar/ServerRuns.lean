import Sylar.Interleaving
import Sylar.TcpServer
import Mathlib.Data.List.Perm.Basic
import Mathlib.Algebra.BigOperators.Group.List.Basic

/-! # A server that is started and stopped

`TcpServer::start` schedules `startAccept` for each of the sockets, and `stop` a task that closes
and forgets them.  `startAccept` looks at `m_isStop` between two calls of `accept`, and schedules
`handleClient` for what it accepts.  The tasks run in any order and come between each other at each
of these points; the calls of the server come between them as well.

**`server_runs`**: what is accepted is handled, once; and where the server is started only when
nothing is left of an earlier run, a server that runs has one loop for each socket that it had when
it was started, and no socket is accepted on once the task of `stop` has run.  **`stopped_rests`**:
behind a `stop`, and without another `start`, no more connections are accepted than loops were in
`accept`, and all loops come to their end. -/
namespace Sylar.TcpServer
open Interleaving

/-! ## The code -/

/-- A socket that was accepted, where, and the timeout it was given. -/
structure Client where
  ptr : SocketPtr
  listener : SocketPtr
  recvTimeout : Nat
  deriving DecidableEq, Repr

/-- Where a `startAccept` is: in the queue of `m_acceptWorker`, in front of a look at `m_isStop`,
or in `accept`. -/
inductive LoopPhase
  | scheduled
  | checking
  | accepting
  deriving DecidableEq, Repr

/-- A `startAccept( sock )` -/
structure AcceptLoop where
  sock : SocketPtr
  phase : LoopPhase
  deriving DecidableEq, Repr

/-- A server and its tasks: the calls of `startAccept`, the tasks of `stop` that have not run, and
those of `handleClient` that have not run and that have. -/
structure Live (Addr : Type) where
  server : TcpServer Addr
  isStop : Bool
  recvTimeout : Nat
  /-- The sockets that the tasks of `stop` have closed. -/
  closed : List SocketPtr
  loops : List AcceptLoop
  stopTasks : Nat
  accepted : List Client
  pending : List Client
  handled : List Client
  deriving DecidableEq

/-- A call of the server, or a part of a task; the tasks have numbers. -/
inductive LiveAction (Addr : Type)
  | bind (addrs : List (BindAttempt Addr))
  | setRecvTimeout (val : Nat)
  | start
  | stop
  /-- The task of a `stop`. -/
  | runStop
  | begin (k : Nat)
  /-- `while ( !m_isStop )` -/
  | check (k : Nat)
  /-- `accept`, which returns a socket or not, and what is done with the socket. -/
  | accept (k : Nat) (ret : Option SocketPtr)
  | handleClient (k : Nat)

namespace Live
variable {Addr : Type} (s : Live Addr)

/-- `TcpServer::TcpServer` -/
def create (recvTimeout : Nat) : Live Addr where
  server := ⟨[]⟩
  isStop := true
  recvTimeout := recvTimeout
  closed := []
  loops := []
  stopTasks := 0
  accepted := []
  pending := []
  handled := []

/-- The addresses of the sockets in `m_socks`. -/
def ptrs : List SocketPtr := s.server.socks.map Socket.ptr

/-- The sockets that `CreateTCP` makes have addresses of their own. -/
def Fresh (addrs : List (BindAttempt Addr)) : Prop :=
  (addrs.map BindAttempt.ptr).Nodup ∧
    ∀ a ∈ addrs, a.ptr ∉ s.ptrs ∧ a.ptr ∉ s.closed ∧ a.ptr ∉ s.loops.map AcceptLoop.sock

instance (addrs : List (BindAttempt Addr)) : Decidable (s.Fresh addrs) :=
  inferInstanceAs (Decidable (_ ∧ ∀ a ∈ addrs, _))

/-- `start` -/
def start : Live Addr :=
  if !s.isStop then s
  else { s with isStop := false, loops := s.loops ++ s.ptrs.map fun p => ⟨p, .scheduled⟩ }

/-- `stop` -/
def stop : Live Addr := { s with isStop := true, stopTasks := s.stopTasks + 1 }

/-- The task of `stop`. -/
def runStop : Live Addr :=
  { s with closed := s.closed ++ s.ptrs, server := ⟨[]⟩, stopTasks := s.stopTasks - 1 }

/-- A client is given its timeout, and `handleClient` is scheduled. -/
def welcome (ptr listener : SocketPtr) : Live Addr :=
  let client := { ptr, listener, recvTimeout := s.recvTimeout }
  { s with accepted := s.accepted ++ [client], pending := s.pending ++ [client] }

/-- Loop `k` is in this phase. -/
def setPhase (k : Nat) (sock : SocketPtr) (phase : LoopPhase) : Live Addr :=
  { s with loops := s.loops.set k ⟨sock, phase⟩ }

def step (s : Live Addr) : LiveAction Addr → Option (Live Addr)
  | .bind addrs =>
    if s.Fresh addrs then some { s with server := (s.server.bind addrs []).server } else none
  | .setRecvTimeout val => some { s with recvTimeout := val }
  | .start => some s.start
  | .stop => some s.stop
  | .runStop => if s.stopTasks = 0 then none else some s.runStop
  | .begin k =>
    match s.loops[k]? with
    | some ⟨sock, .scheduled⟩ => some (s.setPhase k sock .checking)
    | _ => none
  | .check k =>
    match s.loops[k]? with
    | some ⟨sock, .checking⟩ =>
      if s.isStop then some { s with loops := s.loops.eraseIdx k }
      else some (s.setPhase k sock .accepting)
    | _ => none
  | .accept k ret =>
    match s.loops[k]?, ret with
    | some ⟨sock, .accepting⟩, none => some (s.setPhase k sock .checking)
    | some ⟨sock, .accepting⟩, some ptr =>
      -- nothing is accepted on a socket that is closed, and a new socket has an address of its own
      if sock ∈ s.closed ∨ ptr ∈ s.accepted.map Client.ptr then none
      else some ((s.welcome ptr sock).setPhase k sock .checking)
    | _, _ => none
  | .handleClient k =>
    match s.pending[k]? with
    | some client =>
      some { s with pending := s.pending.eraseIdx k, handled := s.handled ++ [client] }
    | none => none

/-- The machine of one server, from its construction. -/
def machine (recvTimeout : Nat) : Machine (Live Addr) (LiveAction Addr) where
  init s := s = create recvTimeout
  step := step

/-! ## Every client is handled once -/

/-- The clients that were accepted are those that are handled and those that will be. -/
structure Conserved (s : Live Addr) : Prop where
  clients : s.accepted.Perm (s.handled ++ s.pending)
  distinct : (s.accepted.map Client.ptr).Nodup

variable {s} {t : Live Addr} {a : LiveAction Addr}

/-- What a step does to the clients: nothing, or one more is accepted, or one of them is
handled. -/
theorem step_clients (h : step s a = some t) :
    (t.accepted = s.accepted ∧ t.pending = s.pending ∧ t.handled = s.handled) ∨
      (∃ client, client.ptr ∉ s.accepted.map Client.ptr ∧ client.listener ∉ s.closed ∧
        client.recvTimeout = s.recvTimeout ∧ t.accepted = s.accepted ++ [client] ∧
        t.pending = s.pending ++ [client] ∧ t.handled = s.handled) ∨
      ∃ k client, s.pending[k]? = some client ∧ t.accepted = s.accepted ∧
        t.pending = s.pending.eraseIdx k ∧ t.handled = s.handled ++ [client] := by
  cases a with
  | bind addrs =>
    simp only [step] at h
    split at h
    · cases h; exact .inl ⟨rfl, rfl, rfl⟩
    · cases h
  | setRecvTimeout val => cases h; exact .inl ⟨rfl, rfl, rfl⟩
  | start =>
    cases h
    rw [start]
    split <;> exact .inl ⟨rfl, rfl, rfl⟩
  | stop => cases h; exact .inl ⟨rfl, rfl, rfl⟩
  | runStop =>
    simp only [step] at h
    split at h
    · cases h
    · cases h; exact .inl ⟨rfl, rfl, rfl⟩
  | begin k =>
    simp only [step] at h
    split at h
    · cases h; exact .inl ⟨rfl, rfl, rfl⟩
    · cases h
  | check k =>
    simp only [step] at h
    split at h
    · split at h <;> (cases h; exact .inl ⟨rfl, rfl, rfl⟩)
    · cases h
  | accept k ret =>
    simp only [step] at h
    split at h
    · cases h; exact .inl ⟨rfl, rfl, rfl⟩
    · rename_i sock ptr _
      split at h
      · cases h
      · rename_i hnew
        cases h
        rw [not_or] at hnew
        exact .inr (.inl ⟨⟨ptr, sock, s.recvTimeout⟩, hnew.2, hnew.1, rfl, rfl, rfl, rfl⟩)
    · cases h
  | handleClient k =>
    simp only [step] at h
    split at h
    · rename_i client hk
      cases h
      exact .inr (.inr ⟨k, client, hk, rfl, rfl, rfl⟩)
    · cases h

theorem Conserved.step (h : Conserved s) (hst : step s a = some t) : Conserved t := by
  rcases step_clients hst with ⟨hacc, hpend, hhand⟩ |
    ⟨client, hnew, -, -, hacc, hpend, hhand⟩ | ⟨k, client, hk, hacc, hpend, hhand⟩
  · exact ⟨by rw [hacc, hpend, hhand]; exact h.clients, by rw [hacc]; exact h.distinct⟩
  · constructor
    · rw [hacc, hpend, hhand, ← List.append_assoc]
      exact h.clients.append_right [client]
    · rw [hacc, List.map_append, List.nodup_append]
      refine ⟨h.distinct, List.nodup_singleton _, ?_⟩
      rintro x hx y hy rfl
      obtain rfl := List.mem_singleton.mp hy
      exact hnew hx
  · refine ⟨?_, by rw [hacc]; exact h.distinct⟩
    obtain ⟨hlt, rfl⟩ := List.getElem?_eq_some_iff.mp hk
    have hone : (s.handled ++ [s.pending[k]] ++ s.pending.eraseIdx k).Perm
        (s.handled ++ s.pending) := by
      rw [List.append_assoc]
      exact (List.getElem_cons_eraseIdx_perm hlt).append_left s.handled
    rw [hacc, hpend, hhand]
    exact h.clients.trans hone.symm

/-! ## One loop for each socket -/

/-- A loop that goes on keeps its socket. -/
theorem socks_setPhase {k : Nat} {sock : SocketPtr} {phase : LoopPhase}
    (hk : s.loops[k]? = some ⟨sock, phase⟩) (next : LoopPhase) :
    (s.setPhase k sock next).loops.map AcceptLoop.sock = s.loops.map AcceptLoop.sock := by
  have hsock : (s.loops.map AcceptLoop.sock)[k]? = some sock := by
    rw [List.getElem?_map, hk, Option.map_some]
  obtain ⟨hlt, -⟩ := List.getElem?_eq_some_iff.mp hsock
  show (s.loops.set k ⟨sock, next⟩).map AcceptLoop.sock = _
  rw [List.map_set]
  refine List.ext_getElem? fun j => ?_
  rw [List.getElem?_set, if_pos hlt]
  split
  · rename_i hj
    rw [← hj, hsock]
  · rfl

/-- What a step does to the rest of the server: a call of `bind`, a `start` of a server that is
stopped, a `stop`, its task; a loop that ends; or nothing but a phase of a loop. -/
theorem step_loops (h : step s a = some t) :
    (∃ addrs, a = .bind addrs ∧ s.Fresh addrs ∧
        t = { s with server := (s.server.bind addrs []).server }) ∨
      (a = .start ∧ s.isStop = true ∧ t = { s with
        isStop := false, loops := s.loops ++ s.ptrs.map fun p => ⟨p, .scheduled⟩ }) ∨
      (a = .stop ∧ t = s.stop) ∨ (a = .runStop ∧ s.stopTasks ≠ 0 ∧ t = s.runStop) ∨
      (s.isStop = true ∧ (∃ k, t = { s with loops := s.loops.eraseIdx k })) ∨
      (t.server = s.server ∧ t.isStop = s.isStop ∧ t.closed = s.closed ∧
        t.stopTasks = s.stopTasks ∧ t.loops.map AcceptLoop.sock = s.loops.map AcceptLoop.sock) := by
  cases a with
  | bind addrs =>
    simp only [step] at h
    split at h
    · rename_i hfresh
      exact .inl ⟨addrs, rfl, hfresh, (Option.some.inj h).symm⟩
    · cases h
  | setRecvTimeout val =>
    cases h
    exact .inr (.inr (.inr (.inr (.inr ⟨rfl, rfl, rfl, rfl, rfl⟩))))
  | start =>
    cases h
    rw [start]
    split
    · exact .inr (.inr (.inr (.inr (.inr ⟨rfl, rfl, rfl, rfl, rfl⟩))))
    · rename_i hstop
      exact .inr (.inl ⟨rfl, by simpa using hstop, rfl⟩)
  | stop =>
    cases h
    exact .inr (.inr (.inl ⟨rfl, rfl⟩))
  | runStop =>
    simp only [step] at h
    split at h
    · cases h
    · rename_i hne
      exact .inr (.inr (.inr (.inl ⟨rfl, hne, (Option.some.inj h).symm⟩)))
  | begin k =>
    simp only [step] at h
    split at h
    · rename_i sock hk
      cases h
      exact .inr (.inr (.inr (.inr (.inr ⟨rfl, rfl, rfl, rfl, socks_setPhase hk .checking⟩))))
    · cases h
  | check k =>
    simp only [step] at h
    split at h
    · rename_i sock hk
      split at h
      · rename_i hstop
        exact .inr (.inr (.inr (.inr (.inl ⟨hstop, k, (Option.some.inj h).symm⟩))))
      · cases h
        exact .inr (.inr (.inr (.inr (.inr ⟨rfl, rfl, rfl, rfl, socks_setPhase hk .accepting⟩))))
    · cases h
  | accept k ret =>
    simp only [step] at h
    split at h
    · rename_i sock hk
      cases h
      exact .inr (.inr (.inr (.inr (.inr ⟨rfl, rfl, rfl, rfl, socks_setPhase hk .checking⟩))))
    · rename_i sock ptr hk
      split at h
      · cases h
      · cases h
        exact .inr (.inr (.inr (.inr (.inr ⟨rfl, rfl, rfl, rfl, socks_setPhase hk .checking⟩))))
    · cases h
  | handleClient k =>
    simp only [step] at h
    split at h
    · cases h
      exact .inr (.inr (.inr (.inr (.inr ⟨rfl, rfl, rfl, rfl, rfl⟩))))
    · cases h

/-- The server is not started while something of an earlier run is left, and no call of `bind`
that fails takes the sockets away from the loops. -/
def Careful (s : Live Addr) : LiveAction Addr → Prop
  | .start => s.isStop = true → s.loops = [] ∧ s.stopTasks = 0
  | .bind addrs => (∀ a ∈ addrs, a.ok = true) ∨ s.loops = []
  | _ => True

instance (s : Live Addr) (a : LiveAction Addr) : Decidable (s.Careful a) :=
  match a with
  | .start => inferInstanceAs (Decidable (_ → _ ∧ _))
  | .bind addrs => inferInstanceAs (Decidable ((∀ a ∈ addrs, _) ∨ _))
  | .setRecvTimeout _ | .stop | .runStop | .begin _ | .check _ | .accept _ _
  | .handleClient _ => isTrue trivial

/-- The sockets of the loops, those of the server, and those that are closed. -/
structure Served (s : Live Addr) : Prop where
  single : (s.loops.map AcceptLoop.sock).Nodup
  distinct : (s.closed ++ s.ptrs).Nodup
  known : ∀ p ∈ s.loops.map AcceptLoop.sock, p ∈ s.closed ++ s.ptrs
  running : s.isStop = false → s.stopTasks = 0 ∧ s.loops.map AcceptLoop.sock <+: s.ptrs
  rested : s.isStop = true → s.stopTasks = 0 →
    ∀ p ∈ s.loops.map AcceptLoop.sock, p ∈ s.closed

theorem Served.create (recvTimeout : Nat) : Served (create recvTimeout : Live Addr) :=
  ⟨List.nodup_nil, List.nodup_nil, nofun, nofun, nofun⟩

/-- The sockets of the server behind a call of `bind`. -/
theorem ptrs_bind (s : Live Addr) (addrs : List (BindAttempt Addr)) :
    ((s.server.bind addrs []).server.socks.map Socket.ptr) =
      if ∀ a ∈ addrs, a.ok = true then s.ptrs ++ addrs.map BindAttempt.ptr else [] := by
  by_cases hok : ∀ a ∈ addrs, a.ok = true
  · rw [if_pos hok, bind_of_all hok, List.map_append, List.map_map]
    rfl
  · rw [if_neg hok, bind_of_fails hok]
    rfl

theorem Served.bind (h : Served s) {addrs : List (BindAttempt Addr)} (hfresh : s.Fresh addrs)
    (hok : (∀ a ∈ addrs, a.ok = true) ∨ s.loops = []) :
    Served { s with server := (s.server.bind addrs []).server } := by
  have hptrs := s.ptrs_bind addrs
  by_cases hall : ∀ a ∈ addrs, a.ok = true
  · rw [if_pos hall] at hptrs
    have hprefix : s.closed ++ (s.ptrs ++ addrs.map BindAttempt.ptr) =
        s.closed ++ s.ptrs ++ addrs.map BindAttempt.ptr := (List.append_assoc ..).symm
    refine ⟨h.single, ?_, fun p hp => ?_, fun hrun => ⟨(h.running hrun).1, ?_⟩, h.rested⟩
    · show (s.closed ++ (s.server.bind addrs []).server.socks.map Socket.ptr).Nodup
      rw [hptrs, hprefix, List.nodup_append]
      refine ⟨h.distinct, hfresh.1, ?_⟩
      rintro p hp q hq rfl
      obtain ⟨a, ha, rfl⟩ := List.mem_map.mp hq
      obtain ⟨hserver, hclosed, -⟩ := hfresh.2 a ha
      rcases List.mem_append.mp hp with hp | hp
      · exact hclosed hp
      · exact hserver hp
    · show p ∈ s.closed ++ (s.server.bind addrs []).server.socks.map Socket.ptr
      rw [hptrs, hprefix]
      exact List.mem_append_left _ (h.known p hp)
    · show _ <+: (s.server.bind addrs []).server.socks.map Socket.ptr
      rw [hptrs]
      exact (h.running hrun).2.trans (List.prefix_append ..)
  · -- `m_socks` is cleared, and there is no loop to know of it
    have hnone : s.loops = [] := hok.resolve_left hall
    rw [if_neg hall] at hptrs
    refine ⟨h.single, ?_, ?_, fun hrun => ⟨(h.running hrun).1, ?_⟩, h.rested⟩
    · show (s.closed ++ (s.server.bind addrs []).server.socks.map Socket.ptr).Nodup
      rw [hptrs, List.append_nil]
      exact (List.nodup_append.mp h.distinct).1
    · show ∀ p ∈ s.loops.map AcceptLoop.sock, _
      rw [hnone]
      nofun
    · show s.loops.map AcceptLoop.sock <+: _
      rw [hnone]
      exact List.nil_prefix

theorem Served.step (h : Served s) (hok : s.Careful a) (hst : step s a = some t) : Served t := by
  rcases step_loops hst with ⟨addrs, rfl, hfresh, rfl⟩ | ⟨rfl, hstop, rfl⟩ | ⟨rfl, rfl⟩ |
    ⟨rfl, hne, rfl⟩ | ⟨hstop, k, rfl⟩ | ⟨hserver, hisStop, hclosed, htasks, hsocks⟩
  · exact h.bind hfresh hok
  · -- every socket has a loop, and no others have
    obtain ⟨hloops, htasks⟩ := hok hstop
    have hsocks : (s.loops ++ s.ptrs.map fun p => (⟨p, .scheduled⟩ : AcceptLoop)).map
        AcceptLoop.sock = s.ptrs := by
      rw [hloops, List.nil_append, List.map_map]
      exact List.map_id _
    refine ⟨?_, h.distinct, ?_, fun _ => ⟨htasks, ?_⟩, nofun⟩
    · show ((s.loops ++ _).map AcceptLoop.sock).Nodup
      rw [hsocks]
      exact (List.nodup_append.mp h.distinct).2.1
    · show ∀ p ∈ (s.loops ++ _).map AcceptLoop.sock, _
      rw [hsocks]
      exact fun p hp => List.mem_append_right _ hp
    · show (s.loops ++ _).map AcceptLoop.sock <+: s.ptrs
      rw [hsocks]
  · exact ⟨h.single, h.distinct, h.known, nofun, fun _ htasks => nomatch htasks⟩
  · have hstopped : s.isStop = true := by
      by_contra hrun
      exact hne (h.running (Bool.not_eq_true _ ▸ hrun)).1
    refine ⟨h.single, ?_, fun p hp => ?_, fun hrun => ?_, fun _ _ => h.known⟩
    · show (s.closed ++ s.ptrs ++ []).Nodup
      rw [List.append_nil]
      exact h.distinct
    · exact List.mem_append_left _ (h.known p hp)
    · exact absurd (hstopped.symm.trans hrun) Bool.false_ne_true.symm
  · have hsub : ((s.loops.eraseIdx k).map AcceptLoop.sock).Sublist
        (s.loops.map AcceptLoop.sock) := (List.eraseIdx_sublist ..).map _
    refine ⟨h.single.sublist hsub, h.distinct, fun p hp => h.known p (hsub.subset hp),
      fun hrun => ?_, fun hstopped htasks p hp => h.rested hstopped htasks p (hsub.subset hp)⟩
    exact absurd (hstop.symm.trans hrun) Bool.false_ne_true.symm
  · have hptrs : t.ptrs = s.ptrs := by rw [ptrs, hserver, ptrs]
    constructor
    · rw [hsocks]
      exact h.single
    · rw [hclosed, hptrs]
      exact h.distinct
    · rw [hsocks, hclosed, hptrs]
      exact h.known
    · rw [hisStop, htasks, hsocks, hptrs]
      exact h.running
    · rw [hisStop, htasks, hsocks, hclosed]
      exact h.rested

/-- The sockets of a server that the step starts. -/
def starts (s : Live Addr) : LiveAction Addr → Option (List SocketPtr)
  | .start => if s.isStop then some s.ptrs else none
  | _ => none

/-- The sockets that the server had when it was last started. -/
def lastStart (tr : List (Live Addr × LiveAction Addr)) : List SocketPtr :=
  (tr.filterMap fun p => p.1.starts p.2).getLast?.getD []

theorem lastStart_snoc (tr : List (Live Addr × LiveAction Addr)) :
    lastStart (tr ++ [(s, a)]) = (s.starts a).getD (lastStart tr) := by
  rw [lastStart, List.filterMap_append]
  cases hstarts : s.starts a with
  | none => simp [hstarts, lastStart]
  | some ptrs => simp [hstarts]

/-- A step from which a server is running starts it, or it was running and the loops stay for
their sockets. -/
theorem step_running (hst : step s a = some t) (hrun : t.isStop = false) :
    (a = .start ∧ s.isStop = true ∧
      t.loops.map AcceptLoop.sock = s.loops.map AcceptLoop.sock ++ s.ptrs) ∨
      (s.starts a = none ∧ s.isStop = false ∧
        t.loops.map AcceptLoop.sock = s.loops.map AcceptLoop.sock) := by
  rcases step_loops hst with ⟨addrs, rfl, -, rfl⟩ | ⟨rfl, hstop, rfl⟩ | ⟨rfl, rfl⟩ | ⟨rfl, -, rfl⟩ |
    ⟨hstop, k, rfl⟩ | ⟨-, hisStop, -, -, hsocks⟩
  · exact .inr ⟨rfl, hrun, rfl⟩
  · refine .inl ⟨rfl, hstop, ?_⟩
    show (s.loops ++ s.ptrs.map fun p => (⟨p, .scheduled⟩ : AcceptLoop)).map AcceptLoop.sock = _
    rw [List.map_append, List.map_map]
    exact congrArg _ (List.map_id _)
  · cases hrun
  · exact .inr ⟨rfl, hrun, rfl⟩
  · exact absurd (hstop.symm.trans hrun) Bool.false_ne_true.symm
  · have hrunning : s.isStop = false := hisStop ▸ hrun
    refine .inr ⟨?_, hrunning, hsocks⟩
    cases a with
    | start => exact if_neg (by rw [hrunning]; exact Bool.false_ne_true)
    | _ => rfl

/-- What a maintainer relies on: clients are neither lost nor handled twice; no socket has two
loops; while the server runs it has a loop for each socket that it had when it was started, which
are the first of those it has; and once it is stopped and the task of `stop` has run, nothing is
accepted. -/
structure Reliable (tr : List (Live Addr × LiveAction Addr)) (s : Live Addr) : Prop where
  conserved : Conserved s
  single : (s.loops.map AcceptLoop.sock).Nodup
  serving : s.isStop = false →
    s.loops.map AcceptLoop.sock = lastStart tr ∧ lastStart tr <+: s.ptrs
  deaf : s.isStop = true → s.stopTasks = 0 → ∀ k ptr, step s (.accept k (some ptr)) = none

theorem Served.deaf (h : Served s) (hstop : s.isStop = true) (htasks : s.stopTasks = 0) (k : Nat)
    (ptr : SocketPtr) : Live.step s (.accept k (some ptr)) = none := by
  simp only [Live.step]
  split
  · rename_i hnone
    cases hnone
  · rename_i sock _ hk hptr
    have hmem : sock ∈ s.loops.map AcceptLoop.sock :=
      List.mem_map.mpr ⟨_, List.mem_of_getElem? hk, rfl⟩
    exact if_pos (.inl (h.rested hstop htasks sock hmem))
  · rfl

/-- The loops of a server that runs are those of its last start. -/
theorem serving {recvTimeout : Nat} {tr : List (Live Addr × LiveAction Addr)}
    (hrun : (machine recvTimeout).Run tr s) (hok : ∀ p ∈ tr, p.1.Careful p.2)
    (hrunning : s.isStop = false) : s.loops.map AcceptLoop.sock = lastStart tr := by
  induction hrun with
  | init h =>
    obtain rfl := h
    cases hrunning
  | @step tr s t a _ hst ih =>
    rw [lastStart_snoc]
    rcases step_running hst hrunning with ⟨rfl, hstop, hsocks⟩ | ⟨hnone, hbefore, hsocks⟩
    · -- nothing is left of an earlier run
      have hcareful : s.Careful .start :=
        hok _ (List.mem_append_right _ (List.mem_singleton_self _))
      rw [hsocks, (hcareful hstop).1, starts, if_pos hstop]
      rfl
    · rw [hsocks, hnone]
      exact ih (fun p hp => hok p (List.mem_append_left _ hp)) hbefore

/-- **The runs of a server.**  Clients are conserved in all of them; the rest is for those where
the server is started at rest. -/
theorem server_runs {recvTimeout : Nat} {tr : List (Live Addr × LiveAction Addr)}
    (hrun : (machine recvTimeout).Run tr s) :
    Conserved s ∧ ((∀ p ∈ tr, p.1.Careful p.2) → Reliable tr s) := by
  have hconserved : Conserved s := by
    refine hrun.invariant (fun _ _ => True) ?_ (fun _ _ _ h _ hst => h.step hst)
      fun _ _ => trivial
    rintro _ rfl
    exact ⟨List.Perm.refl _, List.nodup_nil⟩
  refine ⟨hconserved, fun hok => ?_⟩
  have hserved : Served s := by
    refine hrun.invariant Careful ?_ (fun _ _ _ h hok hst => h.step hok hst) hok
    rintro _ rfl
    exact Served.create recvTimeout
  refine ⟨hconserved, hserved.single, fun hrunning => ?_, hserved.deaf⟩
  have hsocks := serving hrun hok hrunning
  exact ⟨hsocks, hsocks ▸ (hserved.running hrunning).2⟩

/-- A server that is bound and started has a loop for its socket, and handles the client that is
accepted there; once it is stopped, and its socket closed, it accepts none. -/
theorem server_runs_one :
    (∃ (tr : List (Live Nat × LiveAction Nat)) (s : Live Nat), (machine 1000).Run tr s ∧
      s.isStop = false ∧ s.loops.map AcceptLoop.sock = [7] ∧ s.accepted = [⟨8, 7, 1000⟩] ∧
      s.accepted.Perm (s.handled ++ s.pending)) ∧
    ∃ (tr : List (Live Nat × LiveAction Nat)) (s : Live Nat), (machine 1000).Run tr s ∧
      s.closed = [7] ∧ s.loops.map AcceptLoop.sock = [7] ∧ step s (.accept 0 (some 9)) = none := by
  let served : List (LiveAction Nat) := [.bind [⟨80, 7, true, true⟩], .start, .begin 0, .check 0,
    .accept 0 (some 8), .handleClient 0, .check 0]
  have hserved := Machine.Run.of_exec_init (M := machine 1000) (s := create 1000) rfl served rfl
  have hstopped := Machine.Run.of_exec_init (M := machine 1000) (s := create 1000) rfl
    (served ++ [.stop, .runStop]) rfl
  have hreliable := (server_runs hserved).2 (by decide)
  have hdeaf := (server_runs hstopped).2 (by decide)
  exact ⟨⟨_, _, hserved, rfl, (hreliable.serving rfl).1, rfl, hreliable.conserved.clients⟩,
    _, _, hstopped, rfl, rfl, hdeaf.deaf rfl rfl 0 9⟩

/-! ## Behind a `stop` -/

/-- How many steps of its own a loop of a server that is stopped takes at most. -/
def stepsLeft : LoopPhase → Nat
  | .scheduled => 2
  | .checking => 1
  | .accepting => 2

/-- How many connections it accepts at most. -/
def acceptsLeft : LoopPhase → Nat
  | .accepting => 1
  | _ => 0

/-- The sum over the loops. -/
def total (s : Live Addr) (f : LoopPhase → Nat) : Nat := (s.loops.map fun l => f l.phase).sum

/-- A step of a loop. -/
def ofLoop : LiveAction Addr → Bool
  | .begin _ => true
  | .check _ => true
  | .accept _ _ => true
  | _ => false

section Total
variable (f : LoopPhase → Nat) {k : Nat} {sock : SocketPtr} {phase : LoopPhase}

/-- One loop ends. -/
theorem total_eraseIdx (hk : s.loops[k]? = some ⟨sock, phase⟩) :
    ({ s with loops := s.loops.eraseIdx k } : Live Addr).total f + f phase = s.total f := by
  obtain ⟨hlt, hx⟩ := List.getElem?_eq_some_iff.mp hk
  have hperm := ((List.getElem_cons_eraseIdx_perm hlt).map fun l => f l.phase).sum_eq
  rw [List.map_cons, List.sum_cons, hx] at hperm
  show ((s.loops.eraseIdx k).map fun l => f l.phase).sum + f phase =
    (s.loops.map fun l => f l.phase).sum
  rw [← hperm, Nat.add_comm]

/-- One loop is in another phase. -/
theorem total_setPhase (hk : s.loops[k]? = some ⟨sock, phase⟩) (next : LoopPhase) :
    (s.setPhase k sock next).total f + f phase = s.total f + f next := by
  have herase : ((s.loops.eraseIdx k).map fun l => f l.phase).sum + f phase = s.total f :=
    total_eraseIdx f hk
  obtain ⟨hlt, -⟩ := List.getElem?_eq_some_iff.mp hk
  have hperm := ((List.set_perm_cons_eraseIdx hlt ⟨sock, next⟩).map fun l => f l.phase).sum_eq
  rw [List.map_cons, List.sum_cons] at hperm
  show ((s.loops.set k ⟨sock, next⟩).map fun l => f l.phase).sum + f phase = _
  rw [hperm, ← herase, Nat.add_assoc, Nat.add_comm]

/-- A loop that comes to its test has a step less to take. -/
theorem total_checking {phase : LoopPhase} (hk : s.loops[k]? = some ⟨sock, phase⟩)
    (hphase : phase ≠ .checking) :
    (s.setPhase k sock .checking).total acceptsLeft + acceptsLeft phase = s.total acceptsLeft ∧
      1 + (s.setPhase k sock .checking).total stepsLeft = s.total stepsLeft := by
  have haccepts := total_setPhase acceptsLeft hk .checking
  have hsteps := total_setPhase stepsLeft hk .checking
  have htwo : stepsLeft phase = 2 := by
    cases phase with
    | checking => exact absurd rfl hphase
    | _ => rfl
  refine ⟨haccepts, ?_⟩
  rw [htwo, show stepsLeft .checking = 1 from rfl] at hsteps
  omega

end Total

/-- A step of a server that is stopped and is not started. -/
theorem step_stopped (hstop : s.isStop = true) (hne : a ≠ .start) (h : step s a = some t) :
    t.isStop = true ∧
      t.accepted.length + t.total acceptsLeft ≤ s.accepted.length + s.total acceptsLeft ∧
      (if ofLoop a then 1 else 0) + t.total stepsLeft ≤ s.total stepsLeft := by
  cases a with
  | start => exact absurd rfl hne
  | bind addrs =>
    simp only [step] at h
    split at h
    · cases h; exact ⟨hstop, Nat.le_refl _, Nat.le_of_eq (Nat.zero_add _)⟩
    · cases h
  | setRecvTimeout val => cases h; exact ⟨hstop, Nat.le_refl _, Nat.le_of_eq (Nat.zero_add _)⟩
  | stop => cases h; exact ⟨rfl, Nat.le_refl _, Nat.le_of_eq (Nat.zero_add _)⟩
  | runStop =>
    simp only [step] at h
    split at h
    · cases h
    · cases h; exact ⟨hstop, Nat.le_refl _, Nat.le_of_eq (Nat.zero_add _)⟩
  | handleClient k =>
    simp only [step] at h
    split at h
    · cases h; exact ⟨hstop, Nat.le_refl _, Nat.le_of_eq (Nat.zero_add _)⟩
    · cases h
  | begin k =>
    simp only [step] at h
    split at h
    · rename_i sock hk
      cases h
      obtain ⟨haccepts, hsteps⟩ := total_checking hk nofun
      exact ⟨hstop, Nat.add_le_add_left (Nat.le_of_eq haccepts) _, Nat.le_of_eq hsteps⟩
    · cases h
  | check k =>
    simp only [step] at h
    split at h
    · rename_i sock hk
      rw [if_pos hstop] at h
      cases h
      refine ⟨hstop, Nat.add_le_add_left (Nat.le_of_eq (total_eraseIdx acceptsLeft hk)) _, ?_⟩
      rw [← total_eraseIdx stepsLeft hk, Nat.add_comm]
      rfl
    · cases h
  | accept k ret =>
    simp only [step] at h
    split at h
    · rename_i sock hk
      cases h
      obtain ⟨haccepts, hsteps⟩ := total_checking hk nofun
      refine ⟨hstop, Nat.add_le_add_left ?_ _, Nat.le_of_eq hsteps⟩
      exact Nat.le_trans (Nat.le_add_right ..) (Nat.le_of_eq haccepts)
    · rename_i sock ptr hk
      split at h
      · cases h
      cases h
      obtain ⟨haccepts, hsteps⟩ := total_checking (s := s.welcome ptr sock) hk nofun
      refine ⟨hstop, ?_, Nat.le_of_eq hsteps⟩
      -- the connection that the loop had left
      show (s.accepted ++ [_]).length + _ ≤ s.accepted.length + (s.welcome ptr sock).total _
      rw [← haccepts, List.length_append, Nat.add_assoc]
      exact Nat.add_le_add_left (Nat.le_of_eq (Nat.add_comm ..)) _
    · cases h

/-- **A server that is stopped comes to rest**, in whatever order the steps come: together its
loops accept no more connections than loops were in `accept`, and take no more steps than two for
each of them. -/
theorem stopped_rests {recvTimeout : Nat} (hstop : s.isStop = true) {as : List (LiveAction Addr)}
    (hne : ∀ a ∈ as, a ≠ .start) (h : (machine recvTimeout).exec s as = some t) :
    t.isStop = true ∧
      t.accepted.length + t.total acceptsLeft ≤ s.accepted.length + s.total acceptsLeft ∧
      (as.filter ofLoop).length + t.total stepsLeft ≤ s.total stepsLeft := by
  induction as generalizing s with
  | nil =>
    obtain rfl : s = t := Option.some.inj h
    exact ⟨hstop, Nat.le_refl _, Nat.le_of_eq (Nat.zero_add _)⟩
  | cons a as ih =>
    obtain ⟨u, hu, hrest⟩ := Option.bind_eq_some_iff.mp h
    obtain ⟨hstopped, haccepts, hsteps⟩ := step_stopped hstop (hne a (List.mem_cons_self ..)) hu
    obtain ⟨hstopped', haccepts', hsteps'⟩ :=
      ih hstopped (fun b hb => hne b (List.mem_cons_of_mem _ hb)) hrest
    refine ⟨hstopped', haccepts'.trans haccepts, ?_⟩
    rw [List.filter_cons]
    split
    · rename_i hloop
      rw [if_pos hloop] at hsteps
      rw [List.length_cons]
      omega
    · omega

section Examples

/-- A server with a loop for its socket, in `accept`. -/
def servingOne : Live Nat where
  server := ⟨[⟨7, some 80, true⟩]⟩
  isStop := false
  recvTimeout := 1000
  closed := []
  loops := [⟨7, .accepting⟩]
  stopTasks := 0
  accepted := []
  pending := []
  handled := []

/-- It is stopped, accepts one more client, and handles it. -/
theorem stopped_rests_one :
    ∃ t, (machine 1000).exec servingOne.stop
        [.accept 0 (some 8), .runStop, .check 0, .handleClient 0] = some t ∧
      t.accepted.length + t.total acceptsLeft ≤ 1 ∧ 2 + t.total stepsLeft ≤ 2 := by
  have hrun : (machine 1000).exec servingOne.stop
      [.accept 0 (some 8), .runStop, .check 0, .handleClient 0] =
        some { servingOne.stop.runStop with
          loops := []
          accepted := [⟨8, 7, 1000⟩]
          handled := [⟨8, 7, 1000⟩] } := rfl
  obtain ⟨-, haccepts, hsteps⟩ := stopped_rests (by decide)
    (by simp only [List.forall_mem_cons]; exact ⟨nofun, nofun, nofun, nofun, nofun⟩) hrun
  exact ⟨_, hrun, haccepts, hsteps⟩

end Examples

end Live
end Sylar.TcpServer
