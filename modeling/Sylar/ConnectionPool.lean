import Sylar.Interleaving
import Mathlib.Logic.Function.Basic
import Mathlib.Data.BitVec

/-! # The connection pool of `http_connection.cpp`

`getConnection` takes the first usable connection from the list `conns_` and deletes those in
front of it that are not; where it finds none it makes one.  `ReleasePtr` is the deleter of the
pointer that was handed out: it puts the connection back at the end of the list, or deletes it.

Nothing writes `createTime_`.  So the test of `getConnection`, which throws out a connection
when `createTime_ + maxAliveTime_` is *after* the clock, compares `maxAliveTime_` itself with
the clock, and `ReleasePtr` does the same with `>=`.  `maxSize_` is in no test.

`clientMachine` runs sequences of calls, each at one value of the clock.
**`limits_hold_iff`** says in which of them the limits of the pool hold throughout. -/
namespace Sylar.Http
open Interleaving

/-- The address of an `HttpConnection`. -/
abbrev ConnPtr := Nat

/-- `HttpConnection`, with `isConnected()`.  `born` is the clock at its construction: the source
does not keep it. -/
structure HttpConnection where
  createTime : Nat := 0
  request : Nat := 0
  connected : Bool := true
  born : Nat
  deriving DecidableEq, Repr

/-- The limits that a pool is constructed with. -/
structure PoolLimits where
  maxSize : Nat
  maxAliveTime : Nat
  maxRequest : Nat
  maxAliveTime_lt : maxAliveTime < 2 ^ 32

/-- `HttpConnectionPool`, and what its connections look like in memory.  `live` are those that
are not deleted.  `total_` is an integer: each live connection takes memory, so that there are
not 2^31 of them. -/
structure HttpConnectionPool where
  conns : List ConnPtr
  total : Int
  live : Finset ConnPtr
  mem : ConnPtr → HttpConnection

namespace HttpConnectionPool
variable (limits : PoolLimits)

/-- The constructor. -/
def new (mem : ConnPtr → HttpConnection) : HttpConnectionPool where
  conns := []
  total := 0
  live := ∅
  mem := mem

/-- `createTime_ + maxAliveTime_` -/
def deadline (conn : HttpConnection) : Nat := (conn.createTime + limits.maxAliveTime) % 2 ^ 64

/-- The test of `getConnection`. -/
def expiredInGet (conn : HttpConnection) (now : Nat) : Bool := now < deadline limits conn

/-- The test of `ReleasePtr`. -/
def expiredInRelease (conn : HttpConnection) (now : Nat) : Bool := now ≤ deadline limits conn

/-- The `while` loop of `getConnection` over `conns_`: `invald_conns`, `ptr`, and what is left
of the list. -/
def takeValid (mem : ConnPtr → HttpConnection) (now : Nat) :
    List ConnPtr → List ConnPtr × Option ConnPtr × List ConnPtr
  | [] => ([], none, [])
  | c :: conns =>
    if !(mem c).connected || expiredInGet limits (mem c) now then
      let (invalid, ptr, rest) := takeValid mem now conns
      (c :: invalid, ptr, rest)
    else ([], some c, conns)

/-- `new HttpConnection( sock )` at address `c`, whose socket has just been connected. -/
def construct (p : HttpConnectionPool) (c : ConnPtr) (now : Nat) : HttpConnectionPool :=
  { p with live := insert c p.live, mem := Function.update p.mem c { born := now } }

/-- `delete c` -/
def delete (p : HttpConnectionPool) (c : ConnPtr) : HttpConnectionPool :=
  { p with live := p.live.erase c }

/-- `getConnection` behind the deletions: `ptr` is handed out, or a connection is made.  `sock` is
what comes of connecting: the address of the new connection, or `none` for a failure. -/
def handOut (p : HttpConnectionPool) (now : Nat) :
    Option ConnPtr → Option ConnPtr → Option ConnPtr × HttpConnectionPool
  | some c, _ => (some c, p)
  | none, none => (none, p)
  | none, some c =>
    let p := p.construct c now
    (some c, { p with total := p.total + 1 })

/-- `getConnection`: the pointer that it returns. -/
def getConnection (p : HttpConnectionPool) (now : Nat) (sock : Option ConnPtr) :
    Option ConnPtr × HttpConnectionPool :=
  let (invalid, ptr, rest) := takeValid limits p.mem now p.conns
  let p := invalid.foldl delete { p with conns := rest }
  handOut { p with total := p.total - invalid.length } now ptr sock

/-- The connection behind `++ptr->request_`. -/
def countRequest (p : HttpConnectionPool) (c : ConnPtr) : HttpConnectionPool :=
  { p with mem := Function.update p.mem c { p.mem c with request := (p.mem c).request + 1 } }

/-- The test of `ReleasePtr` whether the connection is given up. -/
def givenUp (conn : HttpConnection) (now : Nat) : Bool :=
  !conn.connected || expiredInRelease limits conn now || limits.maxRequest ≤ conn.request

/-- `ReleasePtr` -/
def releasePtr (p : HttpConnectionPool) (c : ConnPtr) (now : Nat) : HttpConnectionPool :=
  let p := p.countRequest c
  if givenUp limits (p.mem c) now then { p.delete c with total := p.total - 1 }
  else { p with conns := p.conns ++ [c] }

/-! ## What the loop finds -/

section TakeValid
variable {limits} {mem : ConnPtr → HttpConnection} {now : Nat} {conns invalid rest : List ConnPtr}
  {ptr : Option ConnPtr}

/-- The loop cuts the list: unusable connections, the one it stops at, and the rest. -/
theorem takeValid_eq (h : takeValid limits mem now conns = (invalid, ptr, rest)) :
    conns = invalid ++ (ptr.toList ++ rest) ∧ (ptr = none → rest = []) ∧
      ∀ c, ptr = some c → (mem c).connected = true := by
  induction conns generalizing invalid with
  | nil =>
    cases h
    exact ⟨rfl, fun _ => rfl, by rintro _ ⟨⟩⟩
  | cons c conns ih =>
    rw [takeValid] at h
    by_cases hskip : (!(mem c).connected || expiredInGet limits (mem c) now) = true
    · rw [if_pos hskip] at h
      cases h
      obtain ⟨hcut, hrest, hptr⟩ := ih rfl
      refine ⟨?_, hrest, hptr⟩
      rw [List.cons_append, ← hcut]
    · rw [if_neg hskip] at h
      cases h
      refine ⟨rfl, by rintro ⟨⟩, ?_⟩
      rintro _ ⟨⟩
      simp only [Bool.or_eq_true, Bool.not_eq_true', not_or, Bool.not_eq_false] at hskip
      exact hskip.1

/-- No connection has a creation time: the loop stops at the first that is connected if the
clock has reached `maxAliveTime_`, and nowhere before that. -/
theorem takeValid_ptr (hcreated : ∀ c ∈ conns, (mem c).createTime = 0) :
    (takeValid limits mem now conns).2.1 =
      if limits.maxAliveTime ≤ now then conns.find? fun c => (mem c).connected else none := by
  induction conns with
  | nil => simp [takeValid]
  | cons c conns ih =>
    have hc := hcreated c (List.mem_cons_self ..)
    have hlt := limits.maxAliveTime_lt
    have hdeadline : deadline limits (mem c) = limits.maxAliveTime := by
      rw [deadline, hc]
      omega
    have hrest := ih fun d hd => hcreated d (List.mem_cons_of_mem c hd)
    rw [takeValid, List.find?_cons]
    by_cases hreached : limits.maxAliveTime ≤ now
    · have hexpired : expiredInGet limits (mem c) now = false := by
        rw [expiredInGet, hdeadline, decide_eq_false_iff_not]
        omega
      rw [if_pos hreached] at hrest
      rw [hexpired, if_pos hreached]
      cases hconn : (mem c).connected
      · exact hrest
      · rfl
    · have hexpired : expiredInGet limits (mem c) now = true := by
        rw [expiredInGet, hdeadline, decide_eq_true_iff]
        omega
      rw [if_neg hreached] at hrest
      rw [hexpired, Bool.or_true, if_pos rfl, if_neg hreached]
      exact hrest

end TakeValid

/-- A member that an assignment to one object leaves alone. -/
theorem member_update {β : Type} (member : HttpConnection → β) {mem : ConnPtr → HttpConnection}
    {c : ConnPtr} {conn : HttpConnection} (h : member conn = member (mem c)) (d : ConnPtr) :
    member (Function.update mem c conn d) = member (mem d) := by
  by_cases hdc : d = c
  · rw [hdc, Function.update_self, h]
  · rw [Function.update_of_ne hdc]

theorem foldl_delete (p : HttpConnectionPool) (cs : List ConnPtr) :
    cs.foldl delete p = { p with live := p.live \ cs.toFinset } := by
  induction cs generalizing p with
  | nil => simp
  | cons c cs ih =>
    rw [List.foldl_cons, ih, List.toFinset_cons]
    simp only [delete, Finset.sdiff_insert, Finset.erase_sdiff_comm]

/-- `getConnection`, by what its loop finds. -/
theorem getConnection_eq {limits : PoolLimits} {p : HttpConnectionPool} {now : Nat}
    {invalid rest : List ConnPtr} {ptr : Option ConnPtr}
    (h : takeValid limits p.mem now p.conns = (invalid, ptr, rest))
    (sock : Option ConnPtr) :
    getConnection limits p now sock = handOut { p with
      conns := rest, total := p.total - invalid.length,
      live := p.live \ invalid.toFinset } now ptr sock := by
  simp only [getConnection, h, foldl_delete]

end HttpConnectionPool

/-! ## Sequences of calls -/

/-- The pool, and the connections that are lent: one entry for each `shared_ptr` that was handed
out and is still held. -/
structure Client where
  pool : HttpConnectionPool
  lent : List ConnPtr

/-- The calls, each with the clock it reads, and the loss of a connection. -/
inductive Call
  | get (now : Nat) (sock : Option ConnPtr)
  | release (c : ConnPtr) (now : Nat)
  | disconnect (c : ConnPtr)
  deriving DecidableEq

/-- The clock that a call reads. -/
def Call.clock : Call → Option Nat
  | .get now _ => some now
  | .release _ now => some now
  | .disconnect _ => none

namespace Client
open HttpConnectionPool
variable (limits : PoolLimits)

/-- A connection is made at an address that no other has, and only a lent one is released. -/
def step (s : Client) : Call → Option Client
  | .get now sock =>
    if ∀ c ∈ sock, c ∉ s.pool.live then
      let (ptr, pool) := getConnection limits s.pool now sock
      some { pool := pool, lent := ptr.toList ++ s.lent }
    else none
  | .release c now =>
    if c ∈ s.lent then
      some { pool := releasePtr limits s.pool c now, lent := s.lent.erase c }
    else none
  | .disconnect c =>
    let gone := { s.pool.mem c with connected := false }
    some { s with pool := { s.pool with mem := Function.update s.pool.mem c gone } }

/-- Any sequence of calls on a new pool. -/
def clientMachine : Machine Client Call where
  init s := (∃ mem, s.pool = HttpConnectionPool.new mem) ∧ s.lent = []
  step := step limits

/-- What every sequence of calls keeps. -/
structure Steady (s : Client) : Prop where
  nodup : (s.pool.conns ++ s.lent).Nodup
  live_iff : ∀ c, c ∈ s.pool.live ↔ c ∈ s.pool.conns ++ s.lent
  total_eq : s.pool.total = s.pool.conns.length + s.lent.length
  created : ∀ c ∈ s.pool.live, (s.pool.mem c).createTime = 0
  served : ∀ c ∈ s.pool.conns, (s.pool.mem c).request < limits.maxRequest

/-- The limits hold of one call: of the connection that it hands out, of the two tests for the
connections there are, and of their number behind it. -/
structure MeetsLimits (s : Client) (a : Call) : Prop where
  handed : ∀ now sock c pool, a = .get now sock →
    getConnection limits s.pool now sock = (some c, pool) →
    (pool.mem c).connected = true ∧ now < (pool.mem c).born + limits.maxAliveTime ∧
      (pool.mem c).request < limits.maxRequest
  agree : ∀ now, a.clock = some now → ∀ c ∈ s.pool.live,
    expiredInGet limits (s.pool.mem c) now = expiredInRelease limits (s.pool.mem c) now
  size : ∀ t, step limits s a = some t → t.pool.total ≤ limits.maxSize

/-- The connection of the list that is handed out: the first connected one, where the clock has
reached `maxAliveTime_`. -/
def reused (s : Client) (now : Nat) : Option ConnPtr :=
  if limits.maxAliveTime ≤ now then s.pool.conns.find? fun c => (s.pool.mem c).connected else none

/-- One that is reused is younger than `maxAliveTime_`; where none is, and connecting succeeds,
`maxAliveTime_` and `maxRequest_` are not 0 and fewer than `maxSize_` connections are lent. -/
def HandsOutInTime (s : Client) (now : Nat) : Option ConnPtr → Option ConnPtr → Prop
  | some c, _ => now < (s.pool.mem c).born + limits.maxAliveTime
  | none, some _ =>
    0 < limits.maxAliveTime ∧ 0 < limits.maxRequest ∧ s.lent.length < limits.maxSize
  | none, none => True

/-- The clock is not at `maxAliveTime_` while there is a connection, and what is handed out is
handed out in time. -/
def InTime (s : Client) : Call → Prop
  | .get now sock =>
    (s.pool.live.Nonempty → now ≠ limits.maxAliveTime) ∧
      HandsOutInTime limits s now (reused limits s now) sock
  | .release _ now => now ≠ limits.maxAliveTime
  | .disconnect _ => True

/-! ## What every sequence keeps -/

namespace Steady
variable {limits} {s : Client}

/-- Connections at the front of the list are deleted. -/
theorem drop (h : Steady limits s) {invalid keep : List ConnPtr}
    (hcut : s.pool.conns = invalid ++ keep) :
    Steady limits { s with pool := { s.pool with
      conns := keep, total := s.pool.total - invalid.length,
      live := s.pool.live \ invalid.toFinset } } := by
  have hnodup := h.nodup
  have hlive := h.live_iff
  have htotal := h.total_eq
  rw [hcut, List.append_assoc, List.nodup_append] at hnodup
  obtain ⟨-, hkeep, hdisjoint⟩ := hnodup
  constructor
  case nodup => exact hkeep
  case live_iff =>
    intro c
    rw [Finset.mem_sdiff, hlive, hcut, List.append_assoc, List.mem_append, List.mem_toFinset]
    refine ⟨fun hc => hc.1.resolve_left hc.2, fun hc => ⟨Or.inr hc, fun hgone => ?_⟩⟩
    exact hdisjoint c hgone c hc rfl
  case total_eq =>
    rw [hcut, List.length_append] at htotal
    show s.pool.total - invalid.length = keep.length + s.lent.length
    omega
  case created => exact fun c hc => h.created c (Finset.mem_sdiff.mp hc).1
  case served => exact fun c hc => h.served c (by rw [hcut]; exact List.mem_append_right _ hc)

/-- The first connection of the list is lent. -/
theorem lend (h : Steady limits s) {c : ConnPtr} {rest : List ConnPtr}
    (hcut : s.pool.conns = c :: rest) :
    Steady limits { pool := { s.pool with conns := rest }, lent := c :: s.lent } := by
  have hperm : List.Perm (rest ++ c :: s.lent) (s.pool.conns ++ s.lent) := by
    rw [hcut]
    exact List.perm_middle
  have htotal := h.total_eq
  constructor
  case nodup => exact hperm.nodup_iff.mpr h.nodup
  case live_iff => exact fun d => (h.live_iff d).trans hperm.mem_iff.symm
  case total_eq =>
    rw [hcut, List.length_cons] at htotal
    show s.pool.total = rest.length + (c :: s.lent).length
    rw [List.length_cons]
    omega
  case created => exact h.created
  case served => exact fun d hd => h.served d (by rw [hcut]; exact List.mem_cons_of_mem c hd)

/-- A connection is made, and lent. -/
theorem make (h : Steady limits s) {c : ConnPtr} (hc : c ∉ s.pool.live) (now : Nat) :
    Steady limits {
      pool := { s.pool.construct c now with total := s.pool.total + 1 }, lent := c :: s.lent } := by
  have hfresh : c ∉ s.pool.conns ++ s.lent := fun hmem => hc ((h.live_iff c).mpr hmem)
  have hperm : List.Perm (s.pool.conns ++ c :: s.lent) (c :: (s.pool.conns ++ s.lent)) :=
    List.perm_middle
  have htotal := h.total_eq
  constructor
  case nodup => exact hperm.nodup_iff.mpr (List.nodup_cons.mpr ⟨hfresh, h.nodup⟩)
  case live_iff =>
    intro d
    exact Finset.mem_insert.trans <| (or_congr Iff.rfl (h.live_iff d)).trans <|
      List.mem_cons.symm.trans hperm.mem_iff.symm
  case total_eq =>
    show s.pool.total + 1 = s.pool.conns.length + (c :: s.lent).length
    rw [List.length_cons]
    omega
  case created =>
    intro d hd
    show (Function.update s.pool.mem c { born := now } d).createTime = 0
    by_cases hdc : d = c
    · rw [hdc, Function.update_self]
    · rw [Function.update_of_ne hdc]
      exact h.created d (Finset.mem_of_mem_insert_of_ne hd hdc)
  case served =>
    intro d hd
    have hdc : d ≠ c := by
      rintro rfl
      exact hfresh (List.mem_append_left _ hd)
    show (Function.update s.pool.mem c { born := now } d).request < _
    rw [Function.update_of_ne hdc]
    exact h.served d hd

/-- Only members of the objects change that the invariant does not bound. -/
theorem remember (h : Steady limits s) {mem : ConnPtr → HttpConnection}
    (hcreated : ∀ c, (mem c).createTime = (s.pool.mem c).createTime)
    (hserved : ∀ c ∈ s.pool.conns, (mem c).request = (s.pool.mem c).request) :
    Steady limits { s with pool := { s.pool with mem := mem } } where
  nodup := h.nodup
  live_iff := h.live_iff
  total_eq := h.total_eq
  created c hc := (hcreated c).trans (h.created c hc)
  served c hc := by
    show (mem c).request < _
    rw [hserved c hc]
    exact h.served c hc

/-- A lent connection is given up. -/
theorem giveUp (h : Steady limits s) {c : ConnPtr} (hc : c ∈ s.lent) :
    Steady limits {
      pool := { s.pool.delete c with total := s.pool.total - 1 }, lent := s.lent.erase c } := by
  have hnodup := List.nodup_append.mp h.nodup
  have hidle : c ∉ s.pool.conns := fun hmem => hnodup.2.2 c hmem c hc rfl
  have htotal := h.total_eq
  have hlen := List.length_erase_of_mem hc
  have hpos := List.length_pos_of_mem hc
  constructor
  case nodup =>
    show (s.pool.conns ++ s.lent.erase c).Nodup
    rw [← List.erase_append_right _ hidle]
    exact h.nodup.erase c
  case live_iff =>
    intro d
    show d ∈ s.pool.live.erase c ↔ d ∈ s.pool.conns ++ s.lent.erase c
    rw [Finset.mem_erase, h.live_iff, ← List.erase_append_right _ hidle, h.nodup.mem_erase_iff]
  case total_eq =>
    show s.pool.total - 1 = s.pool.conns.length + (s.lent.erase c).length
    omega
  case created => exact fun d hd => h.created d (Finset.mem_of_mem_erase hd)
  case served => exact h.served

/-- A lent connection goes back into the list. -/
theorem putBack (h : Steady limits s) {c : ConnPtr} (hc : c ∈ s.lent)
    (hserved : (s.pool.mem c).request < limits.maxRequest) :
    Steady limits {
      pool := { s.pool with conns := s.pool.conns ++ [c] }, lent := s.lent.erase c } := by
  have hperm : List.Perm (s.pool.conns ++ [c] ++ s.lent.erase c) (s.pool.conns ++ s.lent) := by
    rw [List.append_assoc]
    exact (List.perm_cons_erase hc).symm.append_left s.pool.conns
  have htotal := h.total_eq
  have hlen := List.length_erase_of_mem hc
  have hpos := List.length_pos_of_mem hc
  constructor
  case nodup => exact hperm.nodup_iff.mpr h.nodup
  case live_iff => exact fun d => (h.live_iff d).trans hperm.mem_iff.symm
  case total_eq =>
    show s.pool.total = (s.pool.conns ++ [c]).length + (s.lent.erase c).length
    rw [List.length_append, List.length_singleton]
    omega
  case created => exact h.created
  case served =>
    intro d hd
    rcases List.mem_append.mp hd with hd | hd
    · exact h.served d hd
    · rw [List.mem_singleton.mp hd]
      exact hserved

theorem init (h : (clientMachine limits).init s) : Steady limits s := by
  obtain ⟨pool, lent⟩ := s
  obtain ⟨⟨mem, hpool⟩, hlent⟩ := h
  obtain rfl : pool = _ := hpool
  obtain rfl : lent = _ := hlent
  constructor
  case nodup => exact List.nodup_nil
  case live_iff => exact fun c => by simp [HttpConnectionPool.new]
  case total_eq => rfl
  case created => exact fun c hc => absurd hc (Finset.notMem_empty c)
  case served => exact fun c hc => absurd hc List.not_mem_nil

/-- **One call**, by what its loop finds or by its test. -/
theorem step (h : Steady limits s) {a : Call} {t : Client}
    (hstep : Client.step limits s a = some t) : Steady limits t := by
  cases a with
  | get now sock =>
    rw [Client.step] at hstep
    split at hstep
    · rename_i hfresh
      rcases htake : takeValid limits s.pool.mem now s.pool.conns with ⟨invalid, ptr, rest⟩
      obtain ⟨hcut, -, -⟩ := takeValid_eq htake
      have hdrop := h.drop hcut
      rw [getConnection_eq htake] at hstep
      cases ptr with
      | some c =>
        obtain rfl := Option.some.inj hstep
        exact hdrop.lend rfl
      | none =>
        cases sock with
        | none =>
          obtain rfl := Option.some.inj hstep
          exact hdrop
        | some c =>
          obtain rfl := Option.some.inj hstep
          exact hdrop.make (fun hc => hfresh c rfl (Finset.mem_sdiff.mp hc).1) now
    · cases hstep
  | release c now =>
    rw [Client.step] at hstep
    split at hstep
    · rename_i hc
      obtain rfl := Option.some.inj hstep
      have hidle : c ∉ s.pool.conns :=
        fun hmem => (List.nodup_append.mp h.nodup).2.2 c hmem c hc rfl
      have hcounted : Steady limits { s with pool := s.pool.countRequest c } := by
        refine h.remember (member_update HttpConnection.createTime rfl) fun d hd => ?_
        rw [Function.update_of_ne]
        rintro rfl
        exact hidle hd
      rw [releasePtr]
      dsimp only
      split
      · exact hcounted.giveUp hc
      · rename_i hkept
        refine hcounted.putBack hc ?_
        simp only [givenUp, Bool.or_eq_true, decide_eq_true_eq, not_or, Nat.not_le] at hkept
        exact hkept.2
    · cases hstep
  | disconnect c =>
    obtain rfl := Option.some.inj hstep
    exact h.remember (member_update HttpConnection.createTime (by rfl))
      fun d _ => member_update HttpConnection.request (by rfl) d

theorem run {tr : List (Client × Call)} (hrun : (clientMachine limits).Run tr s) :
    Steady limits s :=
  hrun.invariant (fun _ _ => True) (fun _ => Steady.init)
    (fun _ _ _ h _ hstep => h.step hstep) fun _ _ => trivial

/-! ## The limits -/

theorem deadline_eq (h : Steady limits s) {c : ConnPtr} (hc : c ∈ s.pool.live) :
    deadline limits (s.pool.mem c) = limits.maxAliveTime := by
  have hlt := limits.maxAliveTime_lt
  rw [deadline, h.created c hc]
  omega

/-- The two tests differ where the clock is exactly at `maxAliveTime_`. -/
theorem agree_iff (h : Steady limits s) (now : Nat) :
    (∀ c ∈ s.pool.live, expiredInGet limits (s.pool.mem c) now =
      expiredInRelease limits (s.pool.mem c) now) ↔
      (s.pool.live.Nonempty → now ≠ limits.maxAliveTime) := by
  have hone : ∀ c ∈ s.pool.live, expiredInGet limits (s.pool.mem c) now =
      expiredInRelease limits (s.pool.mem c) now ↔ now ≠ limits.maxAliveTime := by
    intro c hc
    rw [expiredInGet, expiredInRelease, h.deadline_eq hc, decide_eq_decide]
    omega
  constructor
  · rintro hall ⟨c, hc⟩
    exact (hone c hc).mp (hall c hc)
  · exact fun hne c hc => (hone c hc).mpr (hne ⟨c, hc⟩)

/-- The loop finds the first connected one where the clock has reached `maxAliveTime_`. -/
theorem found (h : Steady limits s) {now : Nat} {invalid rest : List ConnPtr}
    {ptr : Option ConnPtr}
    (htake : takeValid limits s.pool.mem now s.pool.conns = (invalid, ptr, rest)) :
    ptr = reused limits s now := by
  have hcreated : ∀ c ∈ s.pool.conns, (s.pool.mem c).createTime = 0 := fun c hc =>
    h.created c ((h.live_iff c).mpr (List.mem_append_left _ hc))
  exact (congrArg (fun r => r.2.1) htake).symm.trans (takeValid_ptr hcreated)

/-- A call of `getConnection`, by what it returns. -/
theorem meetsLimits_get (h : Steady limits s) {now : Nat} {sock ptr : Option ConnPtr}
    {pool : HttpConnectionPool} (hfresh : ∀ c ∈ sock, c ∉ s.pool.live)
    (hget : getConnection limits s.pool now sock = (ptr, pool)) :
    MeetsLimits limits s (.get now sock) ↔
      (∀ c ∈ ptr, (pool.mem c).connected = true ∧
        now < (pool.mem c).born + limits.maxAliveTime ∧
        (pool.mem c).request < limits.maxRequest) ∧
      (s.pool.live.Nonempty → now ≠ limits.maxAliveTime) ∧ pool.total ≤ limits.maxSize := by
  have hstep : Client.step limits s (.get now sock) =
      some { pool := pool, lent := ptr.toList ++ s.lent } := by
    rw [Client.step, if_pos hfresh, hget]
  constructor
  · intro hm
    refine ⟨fun c hc => ?_, (h.agree_iff now).mp (hm.agree now rfl), hm.size _ hstep⟩
    obtain rfl : ptr = some c := hc
    exact hm.handed now sock c pool rfl hget
  · rintro ⟨hhanded, hne, htotal⟩
    constructor
    case handed =>
      rintro _ _ c _ ⟨⟩ heq
      cases hget.symm.trans heq
      exact hhanded c rfl
    case agree =>
      rintro _ ⟨⟩
      exact (h.agree_iff now).mpr hne
    case size =>
      intro u hu
      obtain rfl := Option.some.inj (hstep.symm.trans hu)
      exact htotal

/-- The connection that `getConnection` makes is as young as can be. -/
theorem made_iff (mem : ConnPtr → HttpConnection) (c : ConnPtr) (now : Nat) :
    (∀ d ∈ some c, (Function.update mem c { born := now } d).connected = true ∧
      now < (Function.update mem c { born := now } d).born + limits.maxAliveTime ∧
      (Function.update mem c { born := now } d).request < limits.maxRequest) ↔
      0 < limits.maxAliveTime ∧ 0 < limits.maxRequest := by
  constructor
  · intro hall
    obtain ⟨-, hyoung, hserved⟩ := hall c rfl
    rw [Function.update_self] at hyoung hserved
    exact ⟨Nat.lt_add_right_iff_pos.mp hyoung, hserved⟩
  · rintro ⟨halive, hrequest⟩ _ ⟨⟩
    rw [Function.update_self]
    exact ⟨rfl, Nat.lt_add_right_iff_pos.mpr halive, hrequest⟩

theorem meetsLimits_get_iff (h : Steady limits s) (hsize : s.pool.total ≤ limits.maxSize)
    {now : Nat} {sock : Option ConnPtr} (hfresh : ∀ c ∈ sock, c ∉ s.pool.live) :
    MeetsLimits limits s (.get now sock) ↔ InTime limits s (.get now sock) := by
  rcases htake : takeValid limits s.pool.mem now s.pool.conns with ⟨invalid, ptr, rest⟩
  obtain ⟨hcut, hrest, hconn⟩ := takeValid_eq htake
  have hget := getConnection_eq htake sock
  have htotal := h.total_eq
  have hfewer : s.pool.total - invalid.length ≤ limits.maxSize := by omega
  rw [hcut, List.length_append] at htotal
  rw [InTime, ← h.found htake]
  cases ptr with
  | some c =>
    -- a connection of the list is handed out: its age is not tested
    have hserved := h.served c (by rw [hcut]; simp)
    rw [h.meetsLimits_get hfresh hget]
    constructor
    · exact fun ⟨hhanded, hne, _⟩ => ⟨hne, (hhanded c rfl).2.1⟩
    · rintro ⟨hne, hyoung⟩
      refine ⟨?_, hne, hfewer⟩
      rintro _ ⟨⟩
      exact ⟨hconn c rfl, hyoung, hserved⟩
  | none =>
    obtain rfl := hrest rfl
    cases sock with
    | none =>
      rw [h.meetsLimits_get hfresh hget]
      constructor
      · exact fun ⟨_, hne, _⟩ => ⟨hne, trivial⟩
      · exact fun ⟨hne, _⟩ => ⟨by rintro _ ⟨⟩, hne, hfewer⟩
    | some c =>
      -- a connection is made: none is left in the list, the others are lent
      have hmore : s.pool.total - invalid.length + 1 ≤ (limits.maxSize : Int) ↔
          s.lent.length < limits.maxSize := by
        simp only [Option.toList_none, List.nil_append, List.length_nil] at htotal
        omega
      rw [h.meetsLimits_get hfresh hget]
      constructor
      · rintro ⟨hhanded, hne, htotal'⟩
        obtain ⟨halive, hrequest⟩ := (made_iff s.pool.mem c now).mp hhanded
        exact ⟨hne, halive, hrequest, hmore.mp htotal'⟩
      · rintro ⟨hne, halive, hrequest, hroom⟩
        exact ⟨(made_iff s.pool.mem c now).mpr ⟨halive, hrequest⟩, hne, hmore.mpr hroom⟩

/-- A connection that comes back makes no more of them. -/
theorem total_releasePtr_le (p : HttpConnectionPool) (c : ConnPtr) (now : Nat) :
    (releasePtr limits p c now).total ≤ p.total := by
  rw [releasePtr]
  dsimp only
  split
  · show p.total - 1 ≤ p.total
    omega
  · exact Int.le_refl _

theorem meetsLimits_release_iff (h : Steady limits s) (hsize : s.pool.total ≤ limits.maxSize)
    {c : ConnPtr} (hc : c ∈ s.lent) (now : Nat) :
    MeetsLimits limits s (.release c now) ↔ InTime limits s (.release c now) := by
  have hlive : s.pool.live.Nonempty := ⟨c, (h.live_iff c).mpr (List.mem_append_right _ hc)⟩
  constructor
  · exact fun hm => (h.agree_iff now).mp (hm.agree now rfl) hlive
  · intro hne
    constructor
    case handed => rintro _ _ _ _ ⟨⟩
    case agree =>
      rintro _ ⟨⟩
      exact (h.agree_iff now).mpr fun _ => hne
    case size =>
      intro u hu
      rw [Client.step, if_pos hc] at hu
      obtain rfl := Option.some.inj hu
      exact (total_releasePtr_le s.pool c now).trans hsize

/-- **When the limits hold of one call**, of a pool that keeps them so far. -/
theorem meetsLimits_iff (h : Steady limits s) (hsize : s.pool.total ≤ limits.maxSize) {a : Call}
    {t : Client} (hstep : Client.step limits s a = some t) :
    MeetsLimits limits s a ↔ InTime limits s a := by
  cases a with
  | get now sock =>
    rw [Client.step] at hstep
    split at hstep
    · rename_i hfresh
      exact h.meetsLimits_get_iff hsize hfresh
    · cases hstep
  | release c now =>
    rw [Client.step] at hstep
    split at hstep
    · rename_i hc
      exact h.meetsLimits_release_iff hsize hc now
    · cases hstep
  | disconnect c =>
    refine iff_of_true ⟨by rintro _ _ _ _ ⟨⟩, by rintro _ ⟨⟩, ?_⟩ trivial
    intro u hu
    obtain rfl := Option.some.inj hu
    exact hsize

end Steady

/-- The number of connections is within its limit where all calls so far met the limits. -/
theorem total_le {tr : List (Client × Call)} {s : Client} (hrun : (clientMachine limits).Run tr s)
    (hall : ∀ p ∈ tr, MeetsLimits limits p.1 p.2) : s.pool.total ≤ limits.maxSize := by
  cases hrun with
  | init h =>
    obtain ⟨mem, hpool⟩ := h.1
    rw [hpool]
    exact Int.natCast_nonneg _
  | step hrun hstep =>
    exact (hall _ (List.mem_append_right _ (List.mem_singleton_self _))).size _ hstep

/-- **The limits of the pool over sequences of calls.**  All calls meet them exactly where each
is made in time. -/
theorem limits_hold_iff {tr : List (Client × Call)} {s : Client}
    (hrun : (clientMachine limits).Run tr s) :
    (∀ p ∈ tr, MeetsLimits limits p.1 p.2) ↔ ∀ p ∈ tr, InTime limits p.1 p.2 := by
  induction hrun with
  | init _ => exact iff_of_true (by rintro _ ⟨⟩) (by rintro _ ⟨⟩)
  | @step tr s t a hrun hstep ih =>
    rw [List.forall_mem_append, List.forall_mem_append, List.forall_mem_singleton,
      List.forall_mem_singleton, ← ih]
    refine and_congr_right fun hall => ?_
    exact (Steady.run hrun).meetsLimits_iff (total_le limits hrun hall) hstep

/-- One connection at most, for three seconds and five requests. -/
def threeSeconds : PoolLimits where
  maxSize := 1
  maxAliveTime := 3000
  maxRequest := 5
  maxAliveTime_lt := by decide

/-- A client of a new pool. -/
def fresh : Client where
  pool := HttpConnectionPool.new fun _ => { born := 0 }
  lent := []

/-- A connection that is reused after two seconds. -/
theorem limits_hold_iff_reused : ∃ tr s, (clientMachine threeSeconds).Run tr s ∧
    tr.map Prod.snd = [.get 5000 (some 0), .release 0 6000, .get 7000 none] ∧
    ∀ p ∈ tr, MeetsLimits threeSeconds p.1 p.2 := by
  have hinit : (clientMachine threeSeconds).init fresh := ⟨⟨_, rfl⟩, rfl⟩
  have hrun : (clientMachine threeSeconds).Run _ _ :=
    Machine.Run.of_exec_init hinit [.get 5000 (some 0), .release 0 6000, .get 7000 none] rfl
  refine ⟨_, _, hrun, rfl, (limits_hold_iff threeSeconds hrun).mpr ?_⟩
  have hlimit : ∀ now, now ≠ 3000 → now ≠ threeSeconds.maxAliveTime := fun _ h => h
  have hmade : 0 < threeSeconds.maxAliveTime ∧ 0 < threeSeconds.maxRequest ∧
      ([] : List ConnPtr).length < threeSeconds.maxSize := by decide
  have hyoung : 7000 < 5000 + threeSeconds.maxAliveTime := by decide
  exact List.forall_mem_cons.mpr ⟨⟨fun _ => hlimit 5000 (by decide), hmade⟩,
    List.forall_mem_cons.mpr ⟨hlimit 6000 (by decide), List.forall_mem_singleton.mpr
      ⟨fun _ => hlimit 7000 (by decide), hyoung⟩⟩⟩

/-- The same connection is handed out when it is fifteen minutes old. -/
theorem stale_connection_handed_out : ∃ tr s, (clientMachine threeSeconds).Run tr s ∧
    ¬ ∀ p ∈ tr, MeetsLimits threeSeconds p.1 p.2 := by
  have hinit : (clientMachine threeSeconds).init fresh := ⟨⟨_, rfl⟩, rfl⟩
  have hrun : (clientMachine threeSeconds).Run _ _ :=
    Machine.Run.of_exec_init hinit [.get 5000 (some 0), .release 0 6000, .get 905000 none] rfl
  refine ⟨_, _, hrun, fun hall => ?_⟩
  have hlast := hall _ (List.mem_cons_of_mem _ (List.mem_cons_of_mem _ (List.mem_cons_self ..)))
  have hyoung := (hlast.handed 905000 none 0 _ rfl rfl).2.1
  exact absurd hyoung (by decide)

end Client
end Sylar.Http
