import Sylar.ConnectionPool

/-! # Threads that share a connection pool

`getConnection` and `ReleasePtr` as the threads run them: `conns_` is used under the mutex, and
the deletions, `total_` and the connecting are outside it.  A step is one section of the mutex,
one deletion, one update of `total_`, or one call of the system.

At any time a connection has one owner: the list, a holder, or the thread that has just taken it
out of one of these or made it (`Owned.once`); `total_` differs from the number of connections
by what the threads have still to add or subtract (`Owned.total_eq`).  **`pool_owned`** is what
remains of this where no operation is in progress.  `get_alone` and `release_alone` say that an
operation that nothing interrupts is `getConnection` or `ReleasePtr` as one function. -/
namespace Sylar.Http
open Interleaving HttpConnectionPool

/-- Where a thread is in the two operations. -/
inductive PoolPc
  | idle
  /-- `getConnection` before its section, with the clock it has read. -/
  | locking (now : Nat)
  /-- Behind the section: what is still to be deleted, the size of `invald_conns`, and `ptr`. -/
  | deleting (todo : List ConnPtr) (size : Nat) (ptr : Option ConnPtr)
  /-- `ptr` is null. -/
  | connecting
  /-- Before `++total_`. -/
  | counting (c : ConnPtr)
  /-- Before the `shared_ptr` is returned. -/
  | returning (c : ConnPtr)
  /-- `ReleasePtr` before its test. -/
  | releasing (c : ConnPtr)
  | dropping (c : ConnPtr)
  /-- Before `--pool->total_`. -/
  | uncounting
  /-- `ReleasePtr` before its section. -/
  | keeping (c : ConnPtr)
  deriving DecidableEq, Repr

/-- The pool, what is lent, and the threads. -/
structure SharedPool (Thread : Type) where
  pool : HttpConnectionPool
  lent : List ConnPtr
  pc : Thread → PoolPc

/-- The steps of the threads, and the loss of a connection. -/
inductive PoolAction (Thread : Type)
  | getConnection (w : Thread) (now : Nat)
  /-- The last holder of a connection gives it back. -/
  | release (w : Thread) (c : ConnPtr)
  /-- The test of `ReleasePtr`, at this clock. -/
  | test (w : Thread) (now : Nat)
  /-- What comes of connecting, and the clock then. -/
  | connect (w : Thread) (sock : Option ConnPtr) (now : Nat)
  /-- The next step of a thread that has only one. -/
  | run (w : Thread)
  | disconnect (c : ConnPtr)
  deriving DecidableEq

namespace SharedPool
variable {Thread : Type} [DecidableEq Thread]

/-- Thread `w` goes on to `pc` with this pool. -/
def goOn (s : SharedPool Thread) (w : Thread) (pool : HttpConnectionPool) (pc : PoolPc) :
    SharedPool Thread :=
  { s with pool := pool, pc := Function.update s.pc w pc }

variable (limits : PoolLimits)

/-- The next step of a thread that has only one. -/
def runStep (s : SharedPool Thread) (w : Thread) : Option (SharedPool Thread) :=
  match s.pc w with
  | .locking now =>
    let (invalid, ptr, rest) := takeValid limits s.pool.mem now s.pool.conns
    some (s.goOn w { s.pool with conns := rest } (.deleting invalid invalid.length ptr))
  | .deleting (c :: todo) size ptr => some (s.goOn w (s.pool.delete c) (.deleting todo size ptr))
  | .deleting [] size ptr =>
    let pool := { s.pool with total := s.pool.total - size }
    match ptr with
    | some c => some (s.goOn w pool (.returning c))
    | none => some (s.goOn w pool .connecting)
  | .counting c => some (s.goOn w { s.pool with total := s.pool.total + 1 } (.returning c))
  | .returning c => some { s.goOn w s.pool .idle with lent := c :: s.lent }
  | .dropping c => some (s.goOn w (s.pool.delete c) .uncounting)
  | .uncounting => some (s.goOn w { s.pool with total := s.pool.total - 1 } .idle)
  | .keeping c => some (s.goOn w { s.pool with conns := s.pool.conns ++ [c] } .idle)
  | .idle | .connecting | .releasing _ => none

def step (s : SharedPool Thread) : PoolAction Thread → Option (SharedPool Thread)
  | .getConnection w now =>
    if s.pc w = .idle then some (s.goOn w s.pool (.locking now)) else none
  | .release w c =>
    if s.pc w = .idle ∧ c ∈ s.lent then
      some { s.goOn w s.pool (.releasing c) with lent := s.lent.erase c }
    else none
  | .test w now =>
    match s.pc w with
    | .releasing c =>
      let pool := s.pool.countRequest c
      some (s.goOn w pool (if givenUp limits (pool.mem c) now then .dropping c else .keeping c))
    | _ => none
  | .connect w sock now =>
    if s.pc w = .connecting ∧ ∀ c ∈ sock, c ∉ s.pool.live then
      match sock with
      | none => some (s.goOn w s.pool .idle)
      | some c => some (s.goOn w (s.pool.construct c now) (.counting c))
    else none
  | .run w => s.runStep limits w
  | .disconnect c =>
    let gone := { s.pool.mem c with connected := false }
    some { s with pool := { s.pool with mem := Function.update s.pool.mem c gone } }

end SharedPool

/-- Any interleaving of the threads' operations on a new pool. -/
def poolMachine (Thread : Type) [DecidableEq Thread] (limits : PoolLimits) :
    Machine (SharedPool Thread) (PoolAction Thread) where
  init s := (∃ mem, s.pool = HttpConnectionPool.new mem) ∧ s.lent = [] ∧ ∀ w, s.pc w = .idle
  step := SharedPool.step limits

/-! ## Ownership -/

namespace PoolPc

/-- The connections that a thread owns here: they are in no list, and nobody else has them. -/
def held : PoolPc → List ConnPtr
  | .deleting todo _ ptr => ptr.toList ++ todo
  | .counting c | .returning c | .releasing c | .dropping c | .keeping c => [c]
  | .idle | .locking _ | .connecting | .uncounting => []

/-- What `total_` counts here beyond the connections there are. -/
def surplus : PoolPc → Int
  | .deleting todo size _ => size - todo.length
  | .counting _ => -1
  | .uncounting => 1
  | .idle | .locking _ | .connecting | .returning _ | .releasing _ | .dropping _ | .keeping _ => 0

end PoolPc

namespace SharedPool
variable {Thread : Type} [Fintype Thread] [DecidableEq Thread] {limits : PoolLimits}
  {s : SharedPool Thread}

/-- How often a connection is owned. -/
def owners (s : SharedPool Thread) (c : ConnPtr) : Nat :=
  s.pool.conns.count c + s.lent.count c + ∑ w, (s.pc w).held.count c

/-- **The invariant**: each connection there is has one owner, and one that is deleted, or not
made yet, has none. -/
structure Owned (s : SharedPool Thread) : Prop where
  once : ∀ c, s.owners c = if c ∈ s.pool.live then 1 else 0
  total_eq : s.pool.total = s.pool.live.card + ∑ w, (s.pc w).surplus

namespace Owned

omit [DecidableEq Thread] in
/-- What a thread owns is there. -/
theorem live_of_held (h : Owned s) {w : Thread} {c : ConnPtr} (hc : c ∈ (s.pc w).held) :
    c ∈ s.pool.live := by
  by_contra hgone
  have honce := h.once c
  rw [if_neg hgone, owners, Nat.add_eq_zero_iff, Finset.sum_eq_zero_iff] at honce
  exact List.count_eq_zero.mp (honce.2 w (Finset.mem_univ w)) hc

/-- One thread moves: connections come from where they go, but for one that is made or deleted,
and `total_` keeps the difference. -/
theorem move (h : Owned s) {w : Thread} {v : PoolPc} {pool : HttpConnectionPool}
    {lent : List ConnPtr}
    (howners : ∀ c, pool.conns.count c + lent.count c + v.held.count c +
        (if c ∈ s.pool.live then 1 else 0) =
      s.pool.conns.count c + s.lent.count c + (s.pc w).held.count c +
        if c ∈ pool.live then 1 else 0)
    (htotal : pool.total + (s.pc w).surplus + s.pool.live.card =
      s.pool.total + v.surplus + pool.live.card) :
    Owned { s.goOn w pool v with lent := lent } where
  once c := by
    have honce := h.once c
    have hsum := sum_update (fun l => l.held.count c) s.pc w v
    have hlocal := howners c
    rw [owners] at honce ⊢
    show pool.conns.count c + lent.count c +
      ∑ u, (Function.update s.pc w v u).held.count c = if c ∈ pool.live then 1 else 0
    omega
  total_eq := by
    have hsum := sum_update PoolPc.surplus s.pc w v
    have hbefore := h.total_eq
    show pool.total = pool.live.card + ∑ u, (Function.update s.pc w v u).surplus
    omega

/-- A move that neither makes nor deletes a connection. -/
theorem pass (h : Owned s) {w : Thread} {v : PoolPc} {pool : HttpConnectionPool}
    {lent : List ConnPtr} (hlive : pool.live = s.pool.live)
    (howners : ∀ c, pool.conns.count c + lent.count c + v.held.count c =
      s.pool.conns.count c + s.lent.count c + (s.pc w).held.count c)
    (htotal : pool.total + (s.pc w).surplus = s.pool.total + v.surplus) :
    Owned { s.goOn w pool v with lent := lent } := by
  refine h.move (fun c => ?_) ?_
  · rw [hlive, howners c]
  · rw [hlive, htotal]

/-- A thread deletes a connection that it owns. -/
theorem delete (h : Owned s) {w : Thread} {v : PoolPc} {c : ConnPtr}
    (hheld : List.Perm (s.pc w).held (c :: v.held))
    (hsurplus : v.surplus = (s.pc w).surplus + 1) : Owned (s.goOn w (s.pool.delete c) v) := by
  have hc : c ∈ s.pool.live := h.live_of_held (hheld.mem_iff.mpr (List.mem_cons_self ..))
  refine h.move (fun d => ?_) ?_
  · have hcount := hheld.count_eq d
    rw [List.count_cons] at hcount
    show s.pool.conns.count d + s.lent.count d + v.held.count d +
        (if d ∈ s.pool.live then 1 else 0) =
      s.pool.conns.count d + s.lent.count d + (s.pc w).held.count d +
        if d ∈ s.pool.live.erase c then 1 else 0
    by_cases hdc : d = c
    · subst hdc
      rw [if_pos hc, if_neg (Finset.notMem_erase d _), hcount, if_pos (beq_self_eq_true d)]
      omega
    · have hne : ¬ (c == d) = true := fun heq => hdc (beq_iff_eq.mp heq).symm
      rw [if_neg hne, Nat.add_zero] at hcount
      simp only [Finset.mem_erase, ne_eq, hdc, not_false_eq_true, true_and, hcount]
  · have hcard := Finset.card_erase_add_one hc
    show s.pool.total + (s.pc w).surplus + s.pool.live.card =
      s.pool.total + v.surplus + (s.pool.live.erase c).card
    omega

/-- A connection is made at an address that no other has. -/
theorem make (h : Owned s) {w : Thread} {c : ConnPtr} (hpc : s.pc w = .connecting)
    (hc : c ∉ s.pool.live) (now : Nat) :
    Owned (s.goOn w (s.pool.construct c now) (.counting c)) := by
  refine h.move (fun d => ?_) ?_
  · rw [hpc]
    show s.pool.conns.count d + s.lent.count d + [c].count d +
        (if d ∈ s.pool.live then 1 else 0) =
      s.pool.conns.count d + s.lent.count d + 0 + if d ∈ insert c s.pool.live then 1 else 0
    by_cases hdc : d = c
    · subst hdc
      rw [if_neg hc, if_pos (Finset.mem_insert_self d _), List.count_singleton_self]
    · rw [List.count_singleton, if_neg fun heq => hdc (beq_iff_eq.mp heq).symm]
      simp only [Finset.mem_insert, hdc, false_or]
  · have hcard := Finset.card_insert_of_notMem hc
    rw [hpc]
    show s.pool.total + 0 + s.pool.live.card = s.pool.total + -1 + (insert c s.pool.live).card
    omega

theorem init (hinit : (poolMachine Thread limits).init s) : Owned s := by
  obtain ⟨pool, lent, pc⟩ := s
  obtain ⟨⟨mem, hpool⟩, hlent, hidle⟩ := hinit
  obtain rfl : pool = _ := hpool
  obtain rfl : lent = _ := hlent
  obtain rfl : pc = fun _ => .idle := funext hidle
  constructor
  case once =>
    intro c
    simp [owners, HttpConnectionPool.new, PoolPc.held]
  case total_eq => simp [HttpConnectionPool.new, PoolPc.surplus]

/-- **The next step of a thread**: one case for each place where it can be. -/
theorem runStep (h : Owned s) {w : Thread} {t : SharedPool Thread}
    (hstep : s.runStep limits w = some t) : Owned t := by
  rw [SharedPool.runStep] at hstep
  cases hpc : s.pc w with
  | locking now =>
    rw [hpc] at hstep
    rcases htake : takeValid limits s.pool.mem now s.pool.conns with ⟨invalid, ptr, rest⟩
    simp only [htake] at hstep
    obtain rfl := Option.some.inj hstep
    refine h.pass rfl (fun c => ?_) ?_
    · rw [hpc, (takeValid_eq htake).1]
      simp only [PoolPc.held, List.count_append, List.count_nil]
      omega
    · rw [hpc]
      show s.pool.total + 0 = s.pool.total + ((invalid.length : Int) - invalid.length)
      omega
  | deleting todo size ptr =>
    rw [hpc] at hstep
    cases todo with
    | cons c todo =>
      obtain rfl := Option.some.inj hstep
      refine h.delete ?_ ?_
      · rw [hpc]
        exact List.perm_middle
      · rw [hpc]
        show (size : Int) - todo.length = size - (c :: todo).length + 1
        rw [List.length_cons]
        omega
    | nil =>
      have htotal : s.pool.total - size + ((size : Int) - 0) = s.pool.total + 0 := by omega
      cases ptr with
      | some c =>
        obtain rfl := Option.some.inj hstep
        exact h.pass rfl (fun d => by rw [hpc]; rfl) (by rw [hpc]; exact htotal)
      | none =>
        obtain rfl := Option.some.inj hstep
        exact h.pass rfl (fun d => by rw [hpc]; rfl) (by rw [hpc]; exact htotal)
  | counting c =>
    rw [hpc] at hstep
    obtain rfl := Option.some.inj hstep
    refine h.pass rfl (fun d => by rw [hpc]; rfl) ?_
    rw [hpc]
    show s.pool.total + 1 + -1 = s.pool.total + 0
    omega
  | returning c =>
    rw [hpc] at hstep
    obtain rfl := Option.some.inj hstep
    refine h.pass rfl (fun d => ?_) (by rw [hpc]; rfl)
    rw [hpc]
    simp only [PoolPc.held, List.count_cons, List.count_nil]
    omega
  | dropping c =>
    rw [hpc] at hstep
    obtain rfl := Option.some.inj hstep
    exact h.delete (by rw [hpc]; rfl) (by rw [hpc]; rfl)
  | uncounting =>
    rw [hpc] at hstep
    obtain rfl := Option.some.inj hstep
    refine h.pass rfl (fun d => by rw [hpc]; rfl) ?_
    rw [hpc]
    show s.pool.total - 1 + 1 = s.pool.total + 0
    omega
  | keeping c =>
    rw [hpc] at hstep
    obtain rfl := Option.some.inj hstep
    refine h.pass rfl (fun d => ?_) (by rw [hpc]; rfl)
    rw [hpc]
    simp only [PoolPc.held, List.count_append, List.count_nil]
    omega
  | idle => rw [hpc] at hstep; cases hstep
  | connecting => rw [hpc] at hstep; cases hstep
  | releasing c => rw [hpc] at hstep; cases hstep

theorem step (h : Owned s) {a : PoolAction Thread} {t : SharedPool Thread}
    (hstep : SharedPool.step limits s a = some t) : Owned t := by
  cases a with
  | getConnection w now =>
    rw [SharedPool.step] at hstep
    split at hstep
    · rename_i hpc
      obtain rfl := Option.some.inj hstep
      exact h.pass rfl (fun d => by rw [hpc]; rfl) (by rw [hpc]; rfl)
    · cases hstep
  | release w c =>
    rw [SharedPool.step] at hstep
    split at hstep
    · rename_i hlent
      obtain ⟨hpc, hc⟩ := hlent
      obtain rfl := Option.some.inj hstep
      refine h.pass rfl (fun d => ?_) (by rw [hpc]; rfl)
      have hcount := (List.perm_cons_erase hc).count_eq d
      rw [List.count_cons] at hcount
      rw [hpc]
      simp only [PoolPc.held, List.count_cons, List.count_nil]
      omega
    · cases hstep
  | test w now =>
    simp only [SharedPool.step] at hstep
    split at hstep
    · rename_i c hpc
      obtain rfl := Option.some.inj hstep
      refine h.pass rfl (fun d => ?_) ?_
      · rw [hpc]
        split <;> rfl
      · rw [hpc]
        split <;> rfl
    · cases hstep
  | connect w sock now =>
    simp only [SharedPool.step] at hstep
    split at hstep
    · rename_i hready
      obtain ⟨hpc, hfresh⟩ := hready
      cases sock with
      | none =>
        obtain rfl := Option.some.inj hstep
        exact h.pass rfl (fun d => by rw [hpc]; rfl) (by rw [hpc]; rfl)
      | some c =>
        obtain rfl := Option.some.inj hstep
        exact h.make hpc (hfresh c rfl) now
    · cases hstep
  | run w => exact h.runStep hstep
  | disconnect c =>
    obtain rfl := Option.some.inj hstep
    exact ⟨h.once, h.total_eq⟩

theorem reachable (hs : (poolMachine Thread limits).Reachable s) : Owned s :=
  hs.invariant (fun _ => init) fun _ _ _ h hstep => h.step hstep

end Owned

/-- **Ownership where no operation is in progress.**  Each connection there is is in the list
once and not lent, or lent once and not in the list; what is in the list or lent is there; and
`total_` is the number of connections. -/
theorem pool_owned (hs : (poolMachine Thread limits).Reachable s) (hidle : ∀ w, s.pc w = .idle) :
    (∀ c ∈ s.pool.live, s.pool.conns.count c = 1 ∧ s.lent.count c = 0 ∨
      s.pool.conns.count c = 0 ∧ s.lent.count c = 1) ∧
    (∀ c ∈ s.pool.conns, c ∈ s.pool.live) ∧ (∀ c ∈ s.lent, c ∈ s.pool.live) ∧
    s.pool.total = s.pool.live.card := by
  have h := Owned.reachable hs
  have hheld : ∀ c, ∑ w, (s.pc w).held.count c = 0 := fun c =>
    Finset.sum_eq_zero fun w _ => by rw [hidle w]; rfl
  have hsurplus : ∑ w, (s.pc w).surplus = 0 :=
    Finset.sum_eq_zero fun w _ => by rw [hidle w]; rfl
  have hones : ∀ c, s.pool.conns.count c + s.lent.count c = if c ∈ s.pool.live then 1 else 0 := by
    intro c
    have honce := h.once c
    rwa [owners, hheld, Nat.add_zero] at honce
  have hthere : ∀ c, 0 < s.pool.conns.count c + s.lent.count c → c ∈ s.pool.live := by
    intro c hpos
    by_contra hgone
    have hone := hones c
    rw [if_neg hgone] at hone
    omega
  refine ⟨fun c hc => ?_, fun c hc => ?_, fun c hc => ?_, ?_⟩
  · have hone := hones c
    rw [if_pos hc] at hone
    omega
  · exact hthere c (Nat.add_pos_left (List.count_pos_iff.mpr hc) _)
  · exact hthere c (Nat.add_pos_right _ (List.count_pos_iff.mpr hc))
  · have htotal := h.total_eq
    rwa [hsurplus, add_zero] at htotal

/-- Two threads make a connection each; the first puts its own back while the second is still
to count its one. -/
theorem pool_owned_two : ∃ s : SharedPool (Fin 2),
    (poolMachine (Fin 2) Client.threeSeconds).Reachable s ∧ s.pool.conns = [0] ∧ s.lent = [1] ∧
      s.pool.total = s.pool.live.card := by
  have hinit : (poolMachine (Fin 2) Client.threeSeconds).init
      { pool := HttpConnectionPool.new fun _ => { born := 0 }, lent := [], pc := fun _ => .idle } :=
    ⟨⟨_, rfl⟩, rfl, fun _ => rfl⟩
  obtain ⟨s, hrun, hs⟩ := Machine.Run.of_exec_any hinit [
      .getConnection 0 5000, .run 0, .getConnection 1 5000, .run 0, .run 1,
      .connect 0 (some 0) 5001, .run 1, .connect 1 (some 1) 5002, .run 0, .run 0, .release 0 0,
      .test 0 6000, .run 0, .run 1, .run 1]
    (fun s => decide (s.pool.conns = [0] ∧ s.lent = [1] ∧ ∀ w, s.pc w = .idle)) (by decide)
  obtain ⟨hconns, hlent, hidle⟩ := of_decide_eq_true hs
  exact ⟨s, ⟨_, hrun⟩, hconns, hlent, (pool_owned ⟨_, hrun⟩ hidle).2.2.2⟩

/-! ## Operations that nothing interrupts -/

omit [Fintype Thread] in
@[simp] theorem goOn_goOn (w : Thread) (pool pool' : HttpConnectionPool) (pc pc' : PoolPc) :
    (s.goOn w pool pc).goOn w pool' pc' = s.goOn w pool' pc' := by
  simp [goOn]

omit [Fintype Thread] in
@[simp] theorem goOn_pc (w : Thread) (pool : HttpConnectionPool) (pc : PoolPc) :
    (s.goOn w pool pc).pc w = pc :=
  Function.update_self ..

omit [Fintype Thread] in
/-- The deletions one after the other. -/
theorem exec_deletions (w : Thread) (pool : HttpConnectionPool) (todo : List ConnPtr) (size : Nat)
    (ptr : Option ConnPtr) (later : List (PoolAction Thread)) :
    (poolMachine Thread limits).exec (s.goOn w pool (.deleting todo size ptr))
        (List.replicate todo.length (.run w) ++ later) =
      (poolMachine Thread limits).exec
        (s.goOn w (todo.foldl HttpConnectionPool.delete pool) (.deleting [] size ptr)) later := by
  induction todo generalizing pool with
  | nil => rfl
  | cons c todo ih =>
    have hstep : (poolMachine Thread limits).step (s.goOn w pool (.deleting (c :: todo) size ptr))
        (.run w) = some (s.goOn w (pool.delete c) (.deleting todo size ptr)) := by
      simp only [poolMachine, SharedPool.step, runStep, goOn_pc, goOn_goOn]
      rfl
    rw [List.length_cons, List.replicate_succ, List.cons_append, Machine.exec_cons hstep]
    exact ih (pool.delete c)

omit [Fintype Thread] in
theorem goOn_idle {w : Thread} (hidle : s.pc w = .idle) (pool : HttpConnectionPool) :
    s.goOn w pool .idle = { s with pool := pool } := by
  rw [goOn, Function.update_eq_self_iff.mpr hidle.symm]

omit [Fintype Thread] in
/-- The steps of `getConnection` up to the one behind the deletions. -/
theorem exec_front {w : Thread} {now : Nat} {invalid rest : List ConnPtr} {ptr : Option ConnPtr}
    (hidle : s.pc w = .idle)
    (htake : takeValid limits s.pool.mem now s.pool.conns = (invalid, ptr, rest))
    (later : List (PoolAction Thread)) :
    (poolMachine Thread limits).exec s
        (.getConnection w now :: .run w :: (List.replicate invalid.length (.run w) ++ later)) =
      (poolMachine Thread limits).exec
        (s.goOn w (invalid.foldl HttpConnectionPool.delete { s.pool with conns := rest })
          (.deleting [] invalid.length ptr)) later := by
  have hstart : (poolMachine Thread limits).step s (.getConnection w now) =
      some (s.goOn w s.pool (.locking now)) := if_pos hidle
  have hsection : (poolMachine Thread limits).step (s.goOn w s.pool (.locking now)) (.run w) =
      some (s.goOn w { s.pool with conns := rest } (.deleting invalid invalid.length ptr)) := by
    show runStep limits _ w = _
    rw [runStep, goOn_pc]
    have hsame : takeValid limits (s.goOn w s.pool (.locking now)).pool.mem now
        (s.goOn w s.pool (.locking now)).pool.conns = (invalid, ptr, rest) := htake
    simp only [hsame]
    exact congrArg some (goOn_goOn ..)
  rw [Machine.exec_cons hstart, Machine.exec_cons hsection, exec_deletions]

omit [Fintype Thread] in
/-- The last step of `getConnection`. -/
theorem exec_returning {w : Thread} (hidle : s.pc w = .idle) (pool : HttpConnectionPool)
    (c : ConnPtr) :
    (poolMachine Thread limits).exec (s.goOn w pool (.returning c)) [.run w] =
      some { pool := pool, lent := c :: s.lent, pc := s.pc } := by
  have hstep : (poolMachine Thread limits).step (s.goOn w pool (.returning c)) (.run w) =
      some { s with pool := pool, lent := c :: s.lent } := by
    show runStep limits _ w = _
    rw [runStep, goOn_pc, goOn_goOn, goOn_idle hidle]
    rfl
  rw [Machine.exec_cons hstep]
  rfl

omit [Fintype Thread] in
/-- **`getConnection`** by one thread. -/
theorem get_alone (w : Thread) (now : Nat) (sock : Option ConnPtr) (hidle : s.pc w = .idle)
    (hsock : ∀ c ∈ sock, c ∉ s.pool.live) :
    ∃ as, (poolMachine Thread limits).exec s as = some {
      pool := (HttpConnectionPool.getConnection limits s.pool now sock).2
      lent := (HttpConnectionPool.getConnection limits s.pool now sock).1.toList ++ s.lent
      pc := s.pc } := by
  rcases htake : takeValid limits s.pool.mem now s.pool.conns with ⟨invalid, ptr, rest⟩
  let pool := invalid.foldl HttpConnectionPool.delete { s.pool with conns := rest }
  let counted := { pool with total := pool.total - invalid.length }
  have hget : HttpConnectionPool.getConnection limits s.pool now sock =
      handOut counted now ptr sock := by
    rw [HttpConnectionPool.getConnection, htake]
  -- the steps up to the one behind `total_ -= invald_conns.size()`
  have hfront : ∀ pc, runStep limits (s.goOn w pool (.deleting [] invalid.length ptr)) w =
      some (s.goOn w counted pc) → ∀ later, (poolMachine Thread limits).exec s
        (.getConnection w now :: .run w ::
          (List.replicate invalid.length (.run w) ++ .run w :: later)) =
      (poolMachine Thread limits).exec (s.goOn w counted pc) later := by
    intro pc hpc later
    rw [exec_front hidle htake, Machine.exec_cons hpc]
  rw [hget]
  cases ptr with
  | some c =>
    refine ⟨_, (hfront (.returning c) ?_ [.run w]).trans (exec_returning hidle counted c)⟩
    rw [runStep, goOn_pc]
    exact congrArg some (goOn_goOn ..)
  | none =>
    have hnone := hfront .connecting (by
      rw [runStep, goOn_pc]
      exact congrArg some (goOn_goOn ..))
    cases sock with
    | none =>
      have hfail : (poolMachine Thread limits).step (s.goOn w counted .connecting)
          (.connect w none now) = some { s with pool := counted } := by
        rw [← goOn_idle hidle]
        simp only [poolMachine, SharedPool.step, goOn_pc, goOn_goOn]
        exact if_pos ⟨trivial, by rintro _ ⟨⟩⟩
      refine ⟨_, (hnone [.connect w none now]).trans ?_⟩
      rw [Machine.exec_cons hfail]
      rfl
    | some c =>
      have hfresh : c ∉ counted.live := by
        intro hc
        refine hsock c rfl ?_
        have hlive : counted.live = s.pool.live \ invalid.toFinset :=
          congrArg HttpConnectionPool.live (foldl_delete _ invalid)
        rw [hlive] at hc
        exact (Finset.mem_sdiff.mp hc).1
      have hmake : (poolMachine Thread limits).step (s.goOn w counted .connecting)
          (.connect w (some c) now) = some (s.goOn w (counted.construct c now) (.counting c)) := by
        simp only [poolMachine, SharedPool.step, goOn_pc, goOn_goOn]
        exact if_pos ⟨trivial, by rintro _ ⟨⟩; exact hfresh⟩
      have hcount : (poolMachine Thread limits).step
          (s.goOn w (counted.construct c now) (.counting c)) (.run w) =
          some (s.goOn w { counted.construct c now with total := counted.total + 1 }
            (.returning c)) := by
        show runStep limits _ w = _
        rw [runStep, goOn_pc]
        exact congrArg some (goOn_goOn ..)
      refine ⟨_, (hnone [.connect w (some c) now, .run w, .run w]).trans ?_⟩
      rw [Machine.exec_cons hmake, Machine.exec_cons hcount, exec_returning hidle]
      rfl

omit [Fintype Thread] in
/-- **`ReleasePtr`** by one thread. -/
theorem release_alone (w : Thread) (c : ConnPtr) (now : Nat) (hidle : s.pc w = .idle)
    (hc : c ∈ s.lent) :
    ∃ as, (poolMachine Thread limits).exec s as = some {
      pool := HttpConnectionPool.releasePtr limits s.pool c now
      lent := s.lent.erase c
      pc := s.pc } := by
  let given := { s with lent := s.lent.erase c }
  let pool := s.pool.countRequest c
  have hidle' : given.pc w = .idle := hidle
  have hstart : (poolMachine Thread limits).step s (.release w c) =
      some (given.goOn w s.pool (.releasing c)) := if_pos ⟨hidle, hc⟩
  have htest : (poolMachine Thread limits).step (given.goOn w s.pool (.releasing c))
      (.test w now) = some (given.goOn w pool
        (if givenUp limits (pool.mem c) now then .dropping c else .keeping c)) := by
    simp only [poolMachine, SharedPool.step, goOn_pc]
    exact congrArg some (goOn_goOn ..)
  have hrelease : HttpConnectionPool.releasePtr limits s.pool c now =
      if givenUp limits (pool.mem c) now then { pool.delete c with total := pool.total - 1 }
      else { pool with conns := pool.conns ++ [c] } := rfl
  rw [hrelease]
  by_cases hgiven : givenUp limits (pool.mem c) now = true
  · rw [if_pos hgiven] at htest ⊢
    have hdrop : (poolMachine Thread limits).step (given.goOn w pool (.dropping c)) (.run w) =
        some (given.goOn w (pool.delete c) .uncounting) := by
      show runStep limits _ w = _
      rw [runStep, goOn_pc]
      exact congrArg some (goOn_goOn ..)
    have hlast : (poolMachine Thread limits).step (given.goOn w (pool.delete c) .uncounting)
        (.run w) = some { given with
          pool := { pool.delete c with total := pool.total - 1 } } := by
      show runStep limits _ w = _
      rw [runStep, goOn_pc, ← goOn_idle hidle']
      exact congrArg some (goOn_goOn ..)
    refine ⟨[.release w c, .test w now, .run w, .run w], ?_⟩
    rw [Machine.exec_cons hstart, Machine.exec_cons htest, Machine.exec_cons hdrop,
      Machine.exec_cons hlast]
    rfl
  · rw [if_neg hgiven] at htest ⊢
    have hkeep : (poolMachine Thread limits).step (given.goOn w pool (.keeping c)) (.run w) =
        some { given with pool := { pool with conns := pool.conns ++ [c] } } := by
      show runStep limits _ w = _
      rw [runStep, goOn_pc, ← goOn_idle hidle']
      exact congrArg some (goOn_goOn ..)
    refine ⟨[.release w c, .test w now, .run w], ?_⟩
    rw [Machine.exec_cons hstart, Machine.exec_cons htest, Machine.exec_cons hkeep]
    rfl

end SharedPool

end Sylar.Http
