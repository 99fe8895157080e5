import Sylar.Interleaving
import Sylar.HookFcntl

/-! # One context for each descriptor

`FdManager` has a vector of pointers to contexts, with 64 entries, and an fd is the index.
`get` looks under the read lock, and where it is to create a context it does so in a second
section, under the write lock.  Neither section makes the vector longer, and the second one
does not look again.

`machine` interleaves these sections and those of `del`, for any threads and fds, and keeps a
log of what the calls returned, in the order of their last sections, with the last one first.

**`mapLike_iff_passes`**: the log is that of a map exactly when no `get( fd, true )` has an fd
from the size of the vector on, and no context is created where there is one already. -/
namespace Sylar
open Interleaving

/-- The address of an `FdCtx`. -/
abbrev FdCtxPtr := Nat

/-- What a call did. -/
inductive FdEvent
  /-- `get( fd, auto_create )` returned `ctx`. -/
  | got (fd : Nat) (autoCreate : Bool) (ctx : Option FdCtxPtr)
  | deleted (fd : Nat)
  /-- `m_datas[fd]` was read behind the end. -/
  | outOfRange (fd : Nat)
  deriving DecidableEq, Repr

/-! ## The log of a map -/

namespace FdEvent

/-- Some `get` on `fd` returned `c`, and `fd` was not deleted since. -/
def Returned (fd : Nat) (c : FdCtxPtr) : List FdEvent → Prop
  | [] => False
  | .got fd' _ ctx :: log => (fd' = fd ∧ ctx = some c) ∨ Returned fd c log
  | .deleted fd' :: log => fd' ≠ fd ∧ Returned fd c log
  | .outOfRange _ :: log => Returned fd c log

/-- What a map does next: a `get` returns the context that there is, and where there is none
it makes one if it is to, and else returns null. -/
def Fits (log : List FdEvent) : FdEvent → Prop
  | .got fd autoCreate ctx =>
    (∀ c, Returned fd c log → ctx = some c) ∧
      ((∀ c, ¬ Returned fd c log) → (ctx ≠ none ↔ autoCreate = true))
  | .deleted _ => True
  | .outOfRange _ => False

/-- **The log is that of a map from descriptors to contexts.** -/
def MapLike : List FdEvent → Prop
  | [] => True
  | e :: log => MapLike log ∧ Fits log e

variable {log earlier later between : List FdEvent} {fd : Nat} {c : FdCtxPtr}
  {ctx : Option FdCtxPtr} {autoCreate auto : Bool}

theorem Returned.append (h : Returned fd c log) (hdel : .deleted fd ∉ later) :
    Returned fd c (later ++ log) := by
  induction later with
  | nil => exact h
  | cons e later ih =>
    have hrest := ih fun hmem => hdel (List.mem_cons_of_mem _ hmem)
    cases e with
    | got fd' auto ctx => exact .inr hrest
    | deleted fd' =>
      refine ⟨fun heq => hdel ?_, hrest⟩
      rw [heq]
      exact List.mem_cons_self
    | outOfRange fd' => exact hrest

theorem MapLike.of_append (h : MapLike (later ++ log)) : MapLike log := by
  induction later with
  | nil => exact h
  | cons e later ih => exact ih h.1

/-- Between two `del( fd )` every `get` on `fd` behind one that returned a context returns
the same. -/
theorem MapLike.got_same
    (h : MapLike (later ++ .got fd auto ctx :: (between ++ .got fd autoCreate (some c) :: earlier)))
    (hdel : .deleted fd ∉ between) : ctx = some c := by
  have hfits := h.of_append.2
  have hret : Returned fd c (.got fd autoCreate (some c) :: earlier) := .inl ⟨rfl, rfl⟩
  exact hfits.1 c (hret.append hdel)

/-- `get( fd, true )` returns a context. -/
theorem MapLike.got_auto (h : MapLike (later ++ .got fd true ctx :: earlier)) : ctx ≠ none := by
  obtain ⟨hsame, hnew⟩ := h.of_append.2
  by_cases hret : ∃ c, Returned fd c earlier
  · obtain ⟨c, hret⟩ := hret
    rw [hsame c hret]
    exact Option.some_ne_none c
  · push Not at hret
    exact (hnew hret).mpr rfl

/-- `get( fd, false )` returns null when there is no context. -/
theorem MapLike.got_null (h : MapLike (later ++ .got fd false ctx :: earlier))
    (hnone : ∀ c, ¬ Returned fd c earlier) : ctx = none := by
  by_contra hctx
  exact Bool.false_ne_true ((h.of_append.2.2 hnone).mp hctx)

end FdEvent

/-! ## The sections -/

/-- Where a thread is: outside, or between the two sections of a `get`. -/
inductive GetPhase
  | outside
  | creating (fd : Nat)
  deriving DecidableEq, Repr

/-- `FdManager`, its contexts, the threads, and the log. -/
structure FdManager (Thread : Type) where
  datas : List (Option FdCtxPtr)
  heap : FdCtxPtr → Option FdCtx
  next : FdCtxPtr
  phase : Thread → GetPhase
  log : List FdEvent

inductive FdManagerAction (Thread : Type)
  /-- `get( fd, auto_create )` up to the end of the read lock. -/
  | lookup (t : Thread) (fd : Nat) (autoCreate : Bool)
  /-- The rest of the `get`, under the write lock; the answers of `fstat` and of
  `fcntl_f( fd, F_GETFL )` are for the constructor of the context. -/
  | create (t : Thread) (stat : Option Bool) (kernel : Flags)
  | del (t : Thread) (fd : Nat)
  deriving DecidableEq

namespace FdManager
open FdEvent
variable {Thread : Type} [DecidableEq Thread]

def emit (s : FdManager Thread) (e : FdEvent) : FdManager Thread := { s with log := e :: s.log }

/-- The first section of `get`. -/
def lookup (s : FdManager Thread) (t : Thread) (fd : Nat) (autoCreate : Bool) :
    FdManager Thread :=
  if s.datas.length ≤ fd ∧ autoCreate = false then s.emit (.got fd autoCreate none)
  else
    match s.datas[fd]? with
    | none => s.emit (.outOfRange fd)
    | some data =>
      if data.isSome || !autoCreate then s.emit (.got fd autoCreate data)
      else { s with phase := Function.update s.phase t (.creating fd) }

/-- The second section of `get`. -/
def create (s : FdManager Thread) (t : Thread) (fd : Nat) (stat : Option Bool)
    (kernel : Flags) : FdManager Thread :=
  { datas := s.datas.set fd (some s.next)
    heap := Function.update s.heap s.next (some (FdCtx.new fd stat kernel).1)
    next := s.next + 1
    phase := Function.update s.phase t .outside
    log := .got fd true (some s.next) :: s.log }

def del (s : FdManager Thread) (fd : Nat) : FdManager Thread :=
  if s.datas.length ≤ fd then s.emit (.deleted fd)
  else { s.emit (.deleted fd) with datas := s.datas.set fd none }

def step (s : FdManager Thread) : FdManagerAction Thread → Option (FdManager Thread)
  | .lookup t fd autoCreate =>
    if s.phase t = .outside then some (s.lookup t fd autoCreate) else none
  | .create t stat kernel =>
    match s.phase t with
    | .creating fd => some (s.create t fd stat kernel)
    | .outside => none
  | .del t fd => if s.phase t = .outside then some (s.del fd) else none

/-- An `FdManager` as the constructor leaves it. -/
def machine (Thread : Type) [DecidableEq Thread] :
    Machine (FdManager Thread) (FdManagerAction Thread) where
  init s := s.datas = List.replicate 64 none ∧ (∀ t, s.phase t = .outside) ∧ s.log = []
  step := step

/-- The context of an fd. -/
def ctx (s : FdManager Thread) (fd : Nat) : Option FdCtxPtr := (s.datas[fd]?).join

/-- **The section finds what it relies on**: an entry for the fd, and no context where it
puts one. -/
def Passes (s : FdManager Thread) : FdManagerAction Thread → Prop
  | .lookup _ fd autoCreate => autoCreate = true → fd < s.datas.length
  | .create t _ _ => ∀ fd, s.phase t = .creating fd → s.ctx fd = none
  | .del _ _ => True

variable {s s' : FdManager Thread} {a : FdManagerAction Thread} {t : Thread} {fd : Nat}
  {autoCreate : Bool}

/-- What the first section does. -/
theorem lookup_cases (s : FdManager Thread) (t : Thread) (fd : Nat) (autoCreate : Bool) :
    (autoCreate = true ∧ s.datas.length ≤ fd ∧
        s.lookup t fd autoCreate = s.emit (.outOfRange fd)) ∨
      ((s.ctx fd ≠ none ∨ autoCreate = false) ∧
        s.lookup t fd autoCreate = s.emit (.got fd autoCreate (s.ctx fd))) ∨
      (autoCreate = true ∧ fd < s.datas.length ∧ s.lookup t fd autoCreate =
        { s with phase := Function.update s.phase t (.creating fd) }) := by
  rw [lookup, ctx]
  by_cases hlen : s.datas.length ≤ fd
  · rw [List.getElem?_eq_none hlen]
    by_cases hauto : autoCreate = true
    · exact .inl ⟨hauto, hlen, if_neg fun h => by simp [hauto] at h⟩
    · rw [Bool.not_eq_true] at hauto
      exact .inr (.inl ⟨.inr hauto, if_pos ⟨hlen, hauto⟩⟩)
  · have hlt : fd < s.datas.length := by omega
    rw [if_neg fun h => hlen h.1, List.getElem?_eq_getElem hlt]
    right
    by_cases hfound : (s.datas[fd].isSome || !autoCreate) = true
    · left
      refine ⟨?_, if_pos hfound⟩
      rcases Bool.or_eq_true_iff.mp hfound with hsome | hauto
      · exact .inl (Option.isSome_iff_ne_none.mp hsome)
      · exact .inr (by simpa using hauto)
    · right
      have hauto : autoCreate = true := by
        by_contra hauto
        exact hfound (by simp [hauto])
      exact ⟨hauto, hlt, if_neg hfound⟩

/-- **What a step is**: a section of a thread that is where the section begins. -/
theorem step_cases (hst : s.step a = some s') :
    (∃ t fd autoCreate, a = .lookup t fd autoCreate ∧ s.phase t = .outside ∧
        s' = s.lookup t fd autoCreate) ∨
      (∃ t stat kernel fd, a = .create t stat kernel ∧ s.phase t = .creating fd ∧
        s' = s.create t fd stat kernel) ∨
      ∃ t fd, a = .del t fd ∧ s.phase t = .outside ∧ s' = s.del fd := by
  cases a with
  | lookup t fd autoCreate =>
    rw [step] at hst
    split at hst
    · rename_i hphase
      exact .inl ⟨t, fd, autoCreate, rfl, hphase, (Option.some.inj hst).symm⟩
    · cases hst
  | create t stat kernel =>
    rw [step] at hst
    split at hst
    · rename_i fd hphase
      exact .inr (.inl ⟨t, stat, kernel, fd, rfl, hphase, (Option.some.inj hst).symm⟩)
    · cases hst
  | del t fd =>
    rw [step] at hst
    split at hst
    · rename_i hphase
      exact .inr (.inr ⟨t, fd, rfl, hphase, (Option.some.inj hst).symm⟩)
    · cases hst

/-- What is made for one fd is nothing to the others. -/
theorem create_ctx (s : FdManager Thread) (t : Thread) (fd : Nat) (stat : Option Bool)
    (kernel : Flags) (x : Nat) :
    (s.create t fd stat kernel).ctx x =
      if x = fd ∧ fd < s.datas.length then some s.next else s.ctx x := by
  show ((s.datas.set fd (some s.next))[x]?).join = _
  by_cases hx : x = fd
  · subst hx
    by_cases hlen : x < s.datas.length
    · rw [List.getElem?_set_self hlen, if_pos ⟨rfl, hlen⟩]
      rfl
    · rw [List.set_eq_of_length_le (by omega), if_neg fun h => hlen h.2]
      rfl
  · rw [List.getElem?_set_ne (Ne.symm hx), if_neg fun h => hx h.1]
    rfl

/-! ## The vector and the log -/

section Log
omit [DecidableEq Thread]

theorem del_ctx (s : FdManager Thread) (fd x : Nat) :
    (s.del fd).ctx x = if x = fd then none else s.ctx x := by
  rw [del]
  by_cases hlen : s.datas.length ≤ fd
  · rw [if_pos hlen]
    show s.ctx x = _
    split
    · rename_i hx
      rw [ctx, hx, List.getElem?_eq_none hlen]
      rfl
    · rfl
  · rw [if_neg hlen]
    show ((s.datas.set fd none)[x]?).join = _
    by_cases hx : x = fd
    · subst hx
      rw [List.getElem?_set_self (by omega), if_pos rfl]
      rfl
    · rw [List.getElem?_set_ne (Ne.symm hx), if_neg hx]
      rfl

theorem del_log (s : FdManager Thread) (fd : Nat) : (s.del fd).log = .deleted fd :: s.log := by
  rw [del]
  split <;> rfl

@[simp]
theorem del_length (s : FdManager Thread) (fd : Nat) :
    (s.del fd).datas.length = s.datas.length := by
  rw [del]
  split
  · rfl
  · exact List.length_set

@[simp]
theorem del_phase (s : FdManager Thread) (fd : Nat) : (s.del fd).phase = s.phase := by
  rw [del]
  split <;> rfl

@[simp]
theorem del_next (s : FdManager Thread) (fd : Nat) : (s.del fd).next = s.next := by
  rw [del]
  split <;> rfl

@[simp]
theorem del_heap (s : FdManager Thread) (fd : Nat) : (s.del fd).heap = s.heap := by
  rw [del]
  split <;> rfl

/-- The vector has the contexts that the log says, and a thread that is to create one has an
entry for it. -/
structure Tracks (s : FdManager Thread) : Prop where
  returned : ∀ fd c, Returned fd c s.log ↔ s.ctx fd = some c
  creating : ∀ t fd, s.phase t = .creating fd → fd < s.datas.length
  fresh : ∀ fd c, s.ctx fd = some c → c < s.next
  logged : MapLike s.log

theorem Tracks.fits_got_iff (h : s.Tracks) (fd : Nat) (autoCreate : Bool)
    (r : Option FdCtxPtr) :
    Fits s.log (.got fd autoCreate r) ↔
      (s.ctx fd ≠ none → r = s.ctx fd) ∧ (s.ctx fd = none → (r ≠ none ↔ autoCreate = true)) := by
  have hsome : (∀ c, Returned fd c s.log → r = some c) ↔ (s.ctx fd ≠ none → r = s.ctx fd) := by
    constructor
    · intro hall hne
      obtain ⟨c, hc⟩ := Option.ne_none_iff_exists'.mp hne
      rw [hc]
      exact hall c ((h.returned fd c).mpr hc)
    · intro hr c hc
      have hctx := (h.returned fd c).mp hc
      rw [hr (by simp [hctx]), hctx]
  have hnone : (∀ c, ¬ Returned fd c s.log) ↔ s.ctx fd = none := by
    rw [Option.eq_none_iff_forall_ne_some]
    exact forall_congr' fun c => not_congr (h.returned fd c)
  rw [Fits, hsome, hnone]

/-- A `get` that returns what is in the vector. -/
theorem Tracks.emit_got (h : s.Tracks) (hfound : s.ctx fd ≠ none ∨ autoCreate = false) :
    (s.emit (.got fd autoCreate (s.ctx fd))).Tracks := by
  refine ⟨fun x c => ?_, h.creating, h.fresh, h.logged, ?_⟩
  · show (fd = x ∧ s.ctx fd = some c) ∨ Returned x c s.log ↔ s.ctx x = some c
    rw [h.returned]
    constructor
    · rintro (⟨rfl, hc⟩ | hc)
      · exact hc
      · exact hc
    · exact .inr
  · rw [h.fits_got_iff]
    refine ⟨fun _ => rfl, fun hnone => ?_⟩
    rcases hfound with hne | hauto
    · exact absurd hnone hne
    · simp [hnone, hauto]

theorem Tracks.del (h : s.Tracks) (fd : Nat) : (s.del fd).Tracks := by
  constructor
  · intro x c
    rw [del_log, del_ctx]
    show fd ≠ x ∧ Returned x c s.log ↔ _
    rw [h.returned]
    by_cases hx : x = fd
    · simp [hx]
    · simp [hx, Ne.symm hx]
  · intro u x hx
    rw [del_phase] at hx
    rw [del_length]
    exact h.creating u x hx
  · intro x c
    rw [del_ctx, del_next]
    split
    · nofun
    · exact h.fresh x c
  · rw [del_log]
    exact ⟨h.logged, trivial⟩

/-- A second context for an fd is not what a map returns. -/
theorem Tracks.create_fits (h : s.Tracks) (hfits : Fits s.log (.got fd true (some s.next))) :
    s.ctx fd = none := by
  by_contra hne
  obtain ⟨c, hc⟩ := Option.ne_none_iff_exists'.mp hne
  have hsame := ((h.fits_got_iff fd true (some s.next)).mp hfits).1 hne
  rw [hc] at hsame
  -- a new context is none of those that were made
  have hlt := h.fresh fd c hc
  have heq : s.next = c := Option.some.inj hsame
  rw [heq] at hlt
  exact Nat.lt_irrefl c hlt

end Log

/-- A context that is created where there is none. -/
theorem Tracks.create (h : s.Tracks) (hfd : fd < s.datas.length) (hnone : s.ctx fd = none)
    (stat : Option Bool) (kernel : Flags) : (s.create t fd stat kernel).Tracks := by
  constructor
  · intro x c
    rw [create_ctx]
    show (fd = x ∧ some s.next = some c) ∨ Returned x c s.log ↔ _
    rw [h.returned]
    by_cases hx : x = fd
    · subst hx
      simp [hnone, hfd]
    · simp [hx, Ne.symm hx]
  · intro u x hx
    show x < (s.datas.set fd (some s.next)).length
    rw [List.length_set]
    by_cases hu : u = t
    · rw [hu] at hx
      simp [FdManager.create] at hx
    · exact h.creating u x (by simpa [FdManager.create, hu] using hx)
  · intro x c
    rw [create_ctx]
    split
    · rintro ⟨⟩
      exact Nat.lt_succ_self _
    · intro hc
      exact Nat.lt_succ_of_lt (h.fresh x c hc)
  · refine ⟨h.logged, (h.fits_got_iff fd true _).mpr ⟨fun hne => absurd hnone hne, ?_⟩⟩
    simp

theorem init_ctx (h : (machine Thread).init s) (fd : Nat) : s.ctx fd = none := by
  rw [ctx, h.1, List.getElem?_replicate]
  split <;> rfl

theorem Tracks.init (h : (machine Thread).init s) : s.Tracks := by
  obtain ⟨-, hphase, hlog⟩ := id h
  refine ⟨fun fd c => ?_, fun t fd ht => ?_, fun fd c hc => ?_, ?_⟩
  · rw [hlog, init_ctx h]
    exact iff_of_false id nofun
  · rw [hphase t] at ht
    cases ht
  · rw [init_ctx h] at hc
    cases hc
  · rw [hlog]
    trivial

/-- A thread that is to create a context for an fd with an entry. -/
theorem Tracks.setPhase (h : s.Tracks) (hfd : fd < s.datas.length) :
    ({ s with phase := Function.update s.phase t (.creating fd) } : FdManager Thread).Tracks := by
  refine ⟨h.returned, fun u x hx => ?_, h.fresh, h.logged⟩
  by_cases hu : u = t
  · subst hu
    simp only [Function.update_self] at hx
    cases hx
    exact hfd
  · exact h.creating u x (by simpa [hu] using hx)

/-- A step that passes keeps the vector and the log together. -/
theorem Tracks.step (h : s.Tracks) (hpass : s.Passes a) (hst : s.step a = some s') :
    s'.Tracks := by
  rcases step_cases hst with ⟨t, fd, autoCreate, rfl, -, rfl⟩ |
    ⟨t, stat, kernel, fd, rfl, hphase, rfl⟩ | ⟨t, fd, rfl, -, rfl⟩
  · rcases s.lookup_cases t fd autoCreate with ⟨hauto, hlen, -⟩ | ⟨hfound, hs⟩ | ⟨-, hlt, hs⟩
    · -- the read behind the end is what the condition excludes
      exact absurd (hpass hauto) (Nat.not_lt.mpr hlen)
    · rw [hs]
      exact h.emit_got hfound
    · rw [hs]
      exact h.setPhase hlt
  · exact h.create (h.creating t fd hphase) (hpass fd hphase) stat kernel
  · exact h.del fd

/-- A step that does not pass leaves a log that is not that of a map. -/
theorem Tracks.passes (h : s.Tracks) (hst : s.step a = some s') (hlog : MapLike s'.log) :
    s.Passes a := by
  rcases step_cases hst with ⟨t, fd, autoCreate, rfl, -, rfl⟩ |
    ⟨t, stat, kernel, fd, rfl, hphase, rfl⟩ | ⟨t, fd, rfl, -, rfl⟩
  · intro hauto
    by_contra hlen
    rcases s.lookup_cases t fd autoCreate with ⟨-, -, hs⟩ | ⟨hfound, -⟩ | ⟨-, hlt, -⟩
    · rw [hs] at hlog
      exact hlog.2
    · -- there is no context behind the end
      rcases hfound with hne | hfalse
      · exact hne (by rw [ctx, List.getElem?_eq_none (Nat.not_lt.mp hlen)]; rfl)
      · rw [hauto] at hfalse
        cases hfalse
    · exact hlen hlt
  · intro fd' hphase'
    -- the log has this context as the first one of its fd
    obtain rfl : fd = fd' := GetPhase.creating.inj (hphase.symm.trans hphase')
    exact h.create_fits hlog.2
  · trivial

/-- **What the calls return is what a map would return, in every state of a run, exactly when
every section of it finds what it relies on.** -/
theorem mapLike_iff_passes {tr : List (FdManager Thread × FdManagerAction Thread)}
    (hrun : (machine Thread).Run tr s) :
    (∀ u ∈ Machine.visits tr s, MapLike u.log) ↔ ∀ p ∈ tr, p.1.Passes p.2 :=
  hrun.visits_iff Passes (fun _ h => Tracks.init h) (fun _ h => h.logged)
    (fun _ _ _ h hpass hst => h.step hpass hst) (fun _ _ _ h hst hlog => h.passes hst hlog)

/-- A manager that nothing has been done with, for threads with numbers. -/
def idle : FdManager Nat where
  datas := List.replicate 64 none
  heap _ := none
  next := 0
  phase _ := .outside
  log := []

theorem idle_init : (machine Nat).init idle := ⟨rfl, fun _ => rfl, rfl⟩

/-- One thread makes a context, another one finds it, and it is deleted. -/
theorem mapLike_iff_passes_two :
    let as : List (FdManagerAction Nat) := [.lookup 0 3 true, .create 0 (some true) 2,
      .lookup 1 3 true, .del 1 3, .lookup 0 3 false, .lookup 0 100 false]
    ∃ s, (machine Nat).Run ((machine Nat).traceOf idle as) s ∧
      ((∀ u ∈ Machine.visits ((machine Nat).traceOf idle as) s, MapLike u.log) ↔
        ∀ p ∈ (machine Nat).traceOf idle as, p.1.Passes p.2) := by
  intro as
  have hrun := Machine.Run.of_exec_init idle_init as rfl
  exact ⟨_, hrun, mapLike_iff_passes hrun⟩

/-- The fd behind the last entry; and two threads that both found no context for one fd. -/
theorem get_not_mapLike :
    (∃ tr s, (machine Nat).Run tr s ∧ .outOfRange 64 ∈ s.log) ∧
      ∃ tr s, (machine Nat).Run tr s ∧
        s.log = [.got 3 true (some 1), .got 3 true (some 0)] := by
  constructor
  · exact ⟨_, _, Machine.Run.of_exec_init idle_init [.lookup 0 64 true] rfl,
      List.mem_singleton_self _⟩
  · exact ⟨_, _, Machine.Run.of_exec_init idle_init [.lookup 0 3 true, .lookup 1 3 true,
      .create 0 (some true) 2, .create 1 (some true) 2] rfl, rfl⟩

/-! ## Whose a context is -/

/-- The contexts in the vector are allocated, and have the fd that they are at. -/
def Owned (s : FdManager Thread) : Prop :=
  ∀ fd c, s.ctx fd = some c → c < s.next ∧ ∃ x, s.heap c = some x ∧ x.fd = fd

theorem fdCtx_new_fd (fd : Nat) (stat : Option Bool) (kernel : Flags) :
    (FdCtx.new fd stat kernel).1.fd = fd := rfl

theorem Owned.create (h : s.Owned) (t : Thread) (fd : Nat) (stat : Option Bool)
    (kernel : Flags) : (s.create t fd stat kernel).Owned := by
  intro x c
  rw [create_ctx]
  split
  · rename_i hx
    rintro ⟨⟩
    rw [hx.1]
    exact ⟨Nat.lt_succ_self _, _, Function.update_self .., fdCtx_new_fd fd stat kernel⟩
  · intro hc
    obtain ⟨hlt, y, hy, hfd⟩ := h x c hc
    refine ⟨Nat.lt_succ_of_lt hlt, y, ?_, hfd⟩
    exact (Function.update_of_ne (Nat.ne_of_lt hlt) ..).trans hy

theorem Owned.step (h : s.Owned) (hst : s.step a = some s') : s'.Owned := by
  rcases step_cases hst with ⟨t, fd, autoCreate, -, -, rfl⟩ |
    ⟨t, stat, kernel, fd, -, -, rfl⟩ | ⟨t, fd, -, -, rfl⟩
  · rcases s.lookup_cases t fd autoCreate with ⟨-, -, hs⟩ | ⟨-, hs⟩ | ⟨-, -, hs⟩
    all_goals
      rw [hs]
      exact h
  · exact h.create t fd stat kernel
  · intro x c
    rw [del_ctx, del_next, del_heap]
    split
    · nofun
    · exact h x c

/-- No context is that of two descriptors, in any run. -/
theorem ctx_injective (hs : (machine Thread).Reachable s) {fd fd' : Nat} {c : FdCtxPtr}
    (hc : s.ctx fd = some c) (hc' : s.ctx fd' = some c) : fd = fd' := by
  have howned : s.Owned := hs.invariant
    (fun s h fd c hc => by rw [init_ctx h] at hc; cases hc) fun _ _ _ h hst => h.step hst
  obtain ⟨-, x, hx, rfl⟩ := howned fd c hc
  obtain ⟨-, y, hy, rfl⟩ := howned fd' c hc'
  rw [hx] at hy
  rw [Option.some.inj hy]

end FdManager
end Sylar
