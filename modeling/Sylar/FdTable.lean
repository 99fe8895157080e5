import Sylar.Interleaving

/-! # The table of fd contexts

`m_fdContexts` is a vector of pointers, indexed by fd.  Two kinds of section touch
it: under the read lock `addEvent`, `delEvent`, `cancelEvent` and `cancelAll` test
the size and read an entry; under the write lock `addEvent` resizes to `fd * 1.5`
and reads the entry.  Between the test and the resize other threads run, so the
resize goes by a stale test, and `vector::resize` also shrinks.

`tableMachine` interleaves these sections, for any threads and fds.  A context is
its address, so that an entry that is dropped and allocated again is another one;
`registered` remembers every context that had an event registered, with its fd.

`Kept` is the invariant: every registered context, and every one a thread holds
between its two sections, is in the table at its fd.  **`table_grows_iff`** says
when it lasts: exactly as long as no resize goes below the size it finds. -/
namespace Sylar
open Interleaving

/-- `contextResize( size )`: entries from the new size on are dropped, missing ones
are filled, `new i` at index `i`. -/
def contextResize {α : Type} (new : Nat → α) (table : List α) (size : Nat) : List α :=
  table.take size ++ (List.range' table.length (size - table.length)).map new

section Resize
variable {α : Type} {new : Nat → α} {table : List α} {size : Nat}

@[simp]
theorem length_contextResize : (contextResize new table size).length = size := by
  simp [contextResize]
  omega

theorem contextResize_of_le (h : table.length ≤ size) :
    contextResize new table size =
      table ++ (List.range' table.length (size - table.length)).map new := by
  rw [contextResize]
  rw [List.take_of_length_le h]

/-- A resize keeps the table exactly when it does not go below its size. -/
theorem prefix_contextResize_iff :
    table <+: contextResize new table size ↔ table.length ≤ size := by
  constructor
  · intro h
    have := h.length_le
    rwa [length_contextResize] at this
  · intro h
    rw [contextResize_of_le h]
    exact List.prefix_append ..

end Resize

/-- The address of an `FdContext`. -/
abbrev CtxPtr := Nat

/-- Where a thread is: outside; after a size test that failed; or with a context in
hand, before the section under the context's mutex. -/
inductive TablePhase
  | outside
  | growing (fd : Nat)
  | found (fd : Nat) (ctx : CtxPtr)
  deriving DecidableEq, Repr

/-- The table, the allocator, the threads, and the contexts that ever had an event
registered. -/
structure FdTable (Thread : Type) where
  fdContexts : List CtxPtr
  next : CtxPtr
  phase : Thread → TablePhase
  registered : List (Nat × CtxPtr)

/-- The sections of the operations on the table. -/
inductive TableAction (Thread : Type)
  /-- `addEvent`: the size test and the read of the entry, under the read lock. -/
  | lookup (t : Thread) (fd : Nat)
  /-- `addEvent`: `contextResize` and the read of the entry, under the write lock. -/
  | resize (t : Thread)
  /-- `addEvent` registers an event on the context in hand, under its mutex. -/
  | register (t : Thread)
  /-- The section under the context's mutex ends without a registration. -/
  | leave (t : Thread)
  /-- `cancelEvent`, `cancelAll`: the test and the read of the entry. -/
  | cancel (t : Thread) (fd : Nat)
  /-- `delEvent`: the same with `<` for `<=` in the test. -/
  | delete (t : Thread) (fd : Nat)

variable {Thread : Type} [DecidableEq Thread]

namespace FdTable

/-- `fd * 1.5`, converted to an integer. -/
def growTarget (fd : Nat) : Nat := fd * 3 / 2

/-- The table that a resize makes; new contexts come from the allocator. -/
def grown (s : FdTable Thread) (fd : Nat) : List CtxPtr :=
  contextResize (fun i => s.next + i) s.fdContexts (growTarget fd)

def setPhase (s : FdTable Thread) (t : Thread) (p : TablePhase) : FdTable Thread :=
  { s with phase := Function.update s.phase t p }

def step (s : FdTable Thread) : TableAction Thread → Option (FdTable Thread)
  | .lookup t fd =>
    if s.phase t = .outside then
      match s.fdContexts[fd]? with
      | some ctx => some (s.setPhase t (.found fd ctx))
      | none => some (s.setPhase t (.growing fd))
    else none
  | .resize t =>
    match s.phase t with
    | .growing fd =>
      ((s.grown fd)[fd]?).map fun ctx =>
        { s.setPhase t (.found fd ctx) with
          fdContexts := s.grown fd, next := s.next + growTarget fd }
    | _ => none
  | .register t =>
    match s.phase t with
    | .found fd ctx =>
      some { s.setPhase t .outside with registered := (fd, ctx) :: s.registered }
    | _ => none
  | .leave t =>
    match s.phase t with
    | .found _ _ => some (s.setPhase t .outside)
    | _ => none
  | .cancel t fd =>
    if s.phase t = .outside then
      match s.fdContexts[fd]? with
      | some ctx => some (s.setPhase t (.found fd ctx))
      | none => some s
    else none
  | .delete t fd =>
    if s.phase t = .outside then
      if s.fdContexts.length < fd then some s
      -- at `fd == size` the read is out of bounds, and the step is not enabled
      else (s.fdContexts[fd]?).map fun ctx => s.setPhase t (.found fd ctx)
    else none

/-- The fd that a section reads the table at, and what it finds there. -/
def finds (s : FdTable Thread) : TableAction Thread → Option (Nat × Option CtxPtr)
  | .lookup _ fd => some (fd, s.fdContexts[fd]?)
  | .resize t =>
    match s.phase t with
    | .growing fd => some (fd, (s.grown fd)[fd]?)
    | _ => none
  | .cancel _ fd => some (fd, s.fdContexts[fd]?)
  | .delete _ fd => some (fd, s.fdContexts[fd]?)
  | .register _ => none
  | .leave _ => none

/-- The resize, if the step is one, does not go below the size it finds. -/
def ResizesUp (s : FdTable Thread) : TableAction Thread → Prop
  | .resize t => ∀ fd, s.phase t = .growing fd → s.fdContexts.length ≤ growTarget fd
  | _ => True

/-- A table as the constructor of `IOManager` leaves it. -/
def Initial (s : FdTable Thread) : Prop :=
  s.fdContexts = contextResize id [] 32 ∧ (∀ t, s.phase t = .outside) ∧ s.registered = []

/-- Every context that had an event registered is in the table at its fd. -/
def Reaches (s : FdTable Thread) : Prop :=
  ∀ fd ctx, (fd, ctx) ∈ s.registered → s.fdContexts[fd]? = some ctx

/-- A section that reads the table at the fd of a registered context finds it. -/
def FindsRegistered (s : FdTable Thread) (a : TableAction Thread) : Prop :=
  ∀ fd found ctx, s.finds a = some (fd, found) → (fd, ctx) ∈ s.registered → found = some ctx

end FdTable

/-- Any threads that use one table. -/
def tableMachine (Thread : Type) [DecidableEq Thread] :
    Machine (FdTable Thread) (TableAction Thread) where
  init := FdTable.Initial
  step := FdTable.step

namespace FdTable
variable {s s' : FdTable Thread} {a : TableAction Thread}

/-- **What a step does to the table**: it is a resize by the fd of a growing thread,
or leaves the table alone. -/
theorem step_table (h : s.step a = some s') :
    (∃ t fd, a = .resize t ∧ s.phase t = .growing fd ∧ s'.fdContexts = s.grown fd) ∨
      (s.ResizesUp a ∧ s'.fdContexts = s.fdContexts) := by
  cases a with
  | lookup t fd =>
    refine Or.inr ⟨trivial, ?_⟩
    simp only [step] at h
    split at h
    · split at h <;> cases h <;> rfl
    · cases h
  | resize t =>
    simp only [step] at h
    split at h
    · rename_i fd hp
      obtain ⟨ctx, -, rfl⟩ := Option.map_eq_some_iff.mp h
      exact Or.inl ⟨t, fd, rfl, hp, rfl⟩
    · cases h
  | register t =>
    refine Or.inr ⟨trivial, ?_⟩
    simp only [step] at h
    split at h <;> cases h
    rfl
  | leave t =>
    refine Or.inr ⟨trivial, ?_⟩
    simp only [step] at h
    split at h <;> cases h
    rfl
  | cancel t fd =>
    refine Or.inr ⟨trivial, ?_⟩
    simp only [step] at h
    split at h
    · split at h <;> cases h <;> rfl
    · cases h
  | delete t fd =>
    refine Or.inr ⟨trivial, ?_⟩
    simp only [step] at h
    split at h
    · split at h
      · obtain rfl := Option.some.inj h
        rfl
      · obtain ⟨ctx, -, rfl⟩ := Option.map_eq_some_iff.mp h
        rfl
    · cases h

/-- **A step loses no entry exactly when it does not shrink the table.** -/
theorem step_grows_iff (h : s.step a = some s') :
    s.fdContexts <+: s'.fdContexts ↔ s.ResizesUp a := by
  rcases step_table h with ⟨t, fd, rfl, hp, htable⟩ | ⟨hok, htable⟩
  · rw [htable]
    refine prefix_contextResize_iff.trans ⟨?_, fun hok => hok fd hp⟩
    intro hle fd' hp'
    rw [hp] at hp'
    cases hp'
    exact hle
  · rw [htable]
    exact iff_of_true (List.prefix_refl _) hok

/-- **The invariant**: what is registered, and what a thread has in hand, is in the
table at its fd. -/
structure Kept (s : FdTable Thread) : Prop where
  registered : s.Reaches
  found : ∀ t fd ctx, s.phase t = .found fd ctx → s.fdContexts[fd]? = some ctx

namespace Kept

omit [DecidableEq Thread] in
theorem init (h : Initial s) : Kept s := by
  obtain ⟨-, hphase, hreg⟩ := h
  refine ⟨fun fd ctx hmem => ?_, fun t fd ctx hp => ?_⟩
  · rw [hreg] at hmem
    cases hmem
  · rw [hphase t] at hp
    cases hp

/-- Entries stay at their index in a table that grows. -/
theorem getElem?_of_prefix {l l' : List CtxPtr} (h : l <+: l') {i : Nat} {ctx : CtxPtr}
    (hi : l[i]? = some ctx) : l'[i]? = some ctx := by
  obtain ⟨more, rfl⟩ := h
  rw [List.getElem?_append_left (List.getElem?_eq_some_iff.mp hi).1]
  exact hi

/-- A thread that moves to a phase whose context is in the grown table. -/
theorem setPhase (h : Kept s) {t : Thread} {p : TablePhase} {table : List CtxPtr}
    (hgrows : s.fdContexts <+: table)
    (hp : ∀ fd ctx, p = .found fd ctx → table[fd]? = some ctx) (next : CtxPtr) :
    Kept { s.setPhase t p with fdContexts := table, next } := by
  refine ⟨fun fd ctx hmem => getElem?_of_prefix hgrows (h.registered fd ctx hmem), ?_⟩
  intro u fd ctx hu
  by_cases hut : u = t
  · subst hut
    exact hp fd ctx (by simpa [FdTable.setPhase] using hu)
  · refine getElem?_of_prefix hgrows (h.found u fd ctx ?_)
    simpa [FdTable.setPhase, hut] using hu

theorem step (h : Kept s) (hok : s.ResizesUp a) (hst : s.step a = some s') : Kept s' := by
  cases a with
  | lookup t fd =>
    simp only [FdTable.step] at hst
    split at hst
    · split at hst
      · rename_i ctx hctx
        obtain rfl := Option.some.inj hst
        refine h.setPhase (List.prefix_refl _) ?_ _
        intro fd' ctx' heq
        cases heq
        exact hctx
      · obtain rfl := Option.some.inj hst
        exact h.setPhase (List.prefix_refl _) (fun fd' ctx' heq => by cases heq) _
    · cases hst
  | resize t =>
    simp only [FdTable.step] at hst
    split at hst
    · rename_i fd hp
      obtain ⟨ctx, hctx, rfl⟩ := Option.map_eq_some_iff.mp hst
      refine h.setPhase (prefix_contextResize_iff.mpr (hok fd hp)) ?_ _
      intro fd' ctx' heq
      cases heq
      exact hctx
    · cases hst
  | register t =>
    simp only [FdTable.step] at hst
    split at hst
    · rename_i fd ctx hp
      obtain rfl := Option.some.inj hst
      obtain ⟨hreg, hfound⟩ := h.setPhase (t := t) (p := .outside) (List.prefix_refl _)
        (fun fd' ctx' heq => by cases heq) s.next
      refine ⟨fun fd' ctx' hmem => ?_, hfound⟩
      -- the context registered now is the one the thread had in hand
      rcases List.mem_cons.mp hmem with heq | hmem
      · cases heq
        exact h.found t fd ctx hp
      · exact hreg fd' ctx' hmem
    · cases hst
  | leave t =>
    simp only [FdTable.step] at hst
    split at hst <;> cases hst
    exact h.setPhase (List.prefix_refl _) (fun fd' ctx' heq => by cases heq) _
  | cancel t fd =>
    simp only [FdTable.step] at hst
    split at hst
    · split at hst
      · rename_i ctx hctx
        obtain rfl := Option.some.inj hst
        refine h.setPhase (List.prefix_refl _) ?_ _
        intro fd' ctx' heq
        cases heq
        exact hctx
      · obtain rfl := Option.some.inj hst
        exact h
    · cases hst
  | delete t fd =>
    simp only [FdTable.step] at hst
    split at hst
    · split at hst
      · obtain rfl := Option.some.inj hst
        exact h
      · obtain ⟨ctx, hctx, rfl⟩ := Option.map_eq_some_iff.mp hst
        refine h.setPhase (List.prefix_refl _) ?_ _
        intro fd' ctx' heq
        cases heq
        exact hctx
    · cases hst

omit [DecidableEq Thread] in
/-- What a section finds at the fd of a registered context is that context. -/
theorem findsRegistered (h : Kept s) (hok : s.ResizesUp a) : s.FindsRegistered a := by
  intro fd found ctx hfinds hmem
  have hctx := h.registered fd ctx hmem
  cases a with
  | lookup t fd' =>
    cases hfinds
    exact hctx
  | resize t =>
    simp only [finds] at hfinds
    split at hfinds
    · rename_i fd' hp
      cases hfinds
      exact getElem?_of_prefix (prefix_contextResize_iff.mpr (hok fd hp)) hctx
    · cases hfinds
  | register t => cases hfinds
  | leave t => cases hfinds
  | cancel t fd' =>
    cases hfinds
    exact hctx
  | delete t fd' =>
    cases hfinds
    exact hctx

end Kept

/-- **When the table only grows.**  In a run no step loses an entry of the table,
every context that had an event registered stays in the table at its fd, and every
section that looks there finds it, exactly when every resize in the run goes to a
size that is at least the one it finds. -/
theorem table_grows_iff {tr : List (FdTable Thread × TableAction Thread)}
    (hrun : (tableMachine Thread).Run tr s) :
    ((∀ p ∈ tr, ∀ t, p.1.step p.2 = some t → p.1.fdContexts <+: t.fdContexts) ∧
      (∀ u ∈ Machine.visits tr s, u.Reaches) ∧ ∀ p ∈ tr, p.1.FindsRegistered p.2) ↔
      ∀ p ∈ tr, p.1.ResizesUp p.2 := by
  constructor
  · rintro ⟨hgrows, -, -⟩ p hp
    obtain ⟨-, -, -, t, ht⟩ := hrun.mem_trace hp
    exact (step_grows_iff ht).mp (hgrows p hp t ht)
  · intro hok
    have hstep : ∀ (s : FdTable Thread) a s', Kept s → s.ResizesUp a →
        (tableMachine Thread).step s a = some s' → Kept s' := fun s a s' h hr hst => h.step hr hst
    have hmem : ∀ p ∈ tr, Kept p.1 := fun p hp =>
      hrun.invariant_mem _ (fun _ => Kept.init) hstep hok hp
    refine ⟨fun p hp t ht => (step_grows_iff ht).mpr (hok p hp), ?_, ?_⟩
    · intro u hu
      exact (hrun.invariant_visits _ (fun _ => Kept.init) hstep hok u hu).registered
    · intro p hp
      exact (hmem p hp).findsRegistered (hok p hp)

/-- A table of 32 contexts, before any thread. -/
def constructed : FdTable (Fin 2) :=
  { fdContexts := contextResize id [] 32, next := 32, phase := fun _ => .outside, registered := [] }

theorem constructed_initial : (tableMachine (Fin 2)).init constructed :=
  ⟨rfl, fun _ => rfl, rfl⟩

instance (s : FdTable Thread) (a : TableAction Thread) : Decidable (s.ResizesUp a) :=
  match a with
  | .resize t =>
    match h : s.phase t with
    | .growing fd => decidable_of_iff (s.fdContexts.length ≤ growTarget fd)
        ⟨fun hle fd' hp => by rw [h] at hp; cases hp; exact hle, fun hall => hall fd h⟩
    | .outside => isTrue fun fd hp => by rw [h] at hp; cases hp
    | .found _ _ => isTrue fun fd hp => by rw [h] at hp; cases hp
  | .lookup _ _ => isTrue trivial
  | .register _ => isTrue trivial
  | .leave _ => isTrue trivial
  | .cancel _ _ => isTrue trivial
  | .delete _ _ => isTrue trivial

/-- One thread grows the table for fd 40 and registers there. -/
theorem table_grows_iff_one :
    ∃ tr s, (tableMachine (Fin 2)).Run tr s ∧ s.registered.length = 1 ∧
      (∀ p ∈ tr, ∀ t, p.1.step p.2 = some t → p.1.fdContexts <+: t.fdContexts) ∧
      (∀ u ∈ Machine.visits tr s, u.Reaches) ∧ ∀ p ∈ tr, p.1.FindsRegistered p.2 := by
  obtain ⟨s, hrun, hs⟩ := Machine.Run.of_exec_any constructed_initial
    [.lookup 0 40, .resize 0, .register 0] (fun s => s.registered.length == 1) (by decide)
  exact ⟨_, s, hrun, by simpa using hs, (table_grows_iff hrun).mpr (by decide)⟩

/-- Two threads find the table too short, for fds 32 and 50.  The second grows it to
75 and registers; the first then cuts it to 48. -/
theorem stale_resize_shrinks :
    ∃ tr s, (tableMachine (Fin 2)).Run tr s ∧ ¬ s.Reaches ∧
      ¬ ∀ p ∈ tr, ∀ t, p.1.step p.2 = some t → p.1.fdContexts <+: t.fdContexts := by
  obtain ⟨s, hrun, hs⟩ := Machine.Run.of_exec_any constructed_initial
    [.lookup 0 32, .lookup 1 50, .resize 1, .register 1, .resize 0]
    (fun s => decide ((50, 82) ∈ s.registered) && decide (s.fdContexts.length = 48))
    (by decide +kernel)
  obtain ⟨hmem, hlen⟩ : (50, 82) ∈ s.registered ∧ s.fdContexts.length = 48 := by simpa using hs
  refine ⟨_, s, hrun, fun hreach => ?_, fun hgrows => ?_⟩
  · have := (List.getElem?_eq_some_iff.mp (hreach 50 82 hmem)).1
    omega
  · refine absurd (fun p hp => ?_) (by decide : ¬ ∀ p ∈ (tableMachine (Fin 2)).traceOf constructed
      [.lookup 0 32, .lookup 1 50, .resize 1, .register 1, .resize 0], p.1.ResizesUp p.2)
    obtain ⟨-, -, -, t, ht⟩ := hrun.mem_trace hp
    exact (step_grows_iff ht).mp (hgrows p hp t ht)

end FdTable
end Sylar
