import Sylar.Interleaving

/-! # Lock guards

`ScopedLockImpl`, `ReadScopedLockImpl` and `WriteScopedLockImpl` are one guard with
three ways to acquire.  The constructor acquires; `lock()` and `unlock()` act only
when `m_locked` says that they have something to do; the destructor releases
without looking at `m_locked`.

Two views of a guard:

* alone, it is the list of calls its mutex receives over its lifetime
  (`guardCalls`), which should alternate between acquire and release and end with a
  release (`Balanced`);
* among others, it is a member of the stack of guards a thread has on the mutex.
  `guardMachine` interleaves the guards of any number of threads on one mutex.  A
  release that the mutex receives from a thread that does not hold it ends whatever
  section is open, as it does in `CASLock` and in a plain `pthread_mutex_t`.  What a
  `pthread_rwlock_t` does with one is left open by its documentation, and is not
  modelled: the theorem is about runs without such a release, and the run of
  `destructor_releases_again` has `ScopedLockImpl` guards.

`Agrees` is the invariant: the mutex and the guards count the same sections.  It is
kept by every step but the destruction of a guard that is not locked
(`Agrees.step`), and **`guard_releases_own_iff`** puts the two views together: both
promises hold when no guard meets its destructor unlocked. -/
namespace Sylar
open Interleaving

/-- The member functions of the mutexes that guards call. -/
inductive Call
  | lock | rdlock | wrlock | unlock
  deriving DecidableEq, Repr

/-- The three guard templates. -/
inductive GuardKind
  | scopedLock | readScopedLock | writeScopedLock
  deriving DecidableEq, Repr

namespace GuardKind

/-- The call with which a guard takes its mutex. -/
def acquire : GuardKind → Call
  | scopedLock => .lock
  | readScopedLock => .rdlock
  | writeScopedLock => .wrlock

/-- Whether the section of the guard excludes all others. -/
def exclusive : GuardKind → Bool
  | readScopedLock => false
  | _ => true

end GuardKind

/-- A guard: which template it is, and `m_locked`. -/
structure Guard where
  kind : GuardKind
  locked : Bool
  deriving DecidableEq, Repr

/-- The calls a user can make on a guard. -/
inductive GuardOp
  | lock | unlock
  deriving DecidableEq, Repr

namespace Guard

/-- The constructor: the guard, and the call it makes on the mutex. -/
def new (kind : GuardKind) : Guard × Option Call :=
  ({ kind, locked := true }, some kind.acquire)

def lock (g : Guard) : Guard × Option Call :=
  if !g.locked then ({ g with locked := true }, some g.kind.acquire) else (g, none)

def unlock (g : Guard) : Guard × Option Call :=
  if g.locked then ({ g with locked := false }, some .unlock) else (g, none)

/-- The destructor releases whatever `m_locked` says. -/
def destroy (_ : Guard) : Option Call := some .unlock

def apply (g : Guard) : GuardOp → Guard × Option Call
  | .lock => g.lock
  | .unlock => g.unlock

/-- The guard after a sequence of calls. -/
def after (g : Guard) : List GuardOp → Guard
  | [] => g
  | op :: ops => (g.apply op).1.after ops

/-- What the mutex receives from here to the end of the destructor. -/
def calls (g : Guard) : List GuardOp → List Call
  | [] => g.destroy.toList
  | op :: ops => (g.apply op).2.toList ++ (g.apply op).1.calls ops

end Guard

/-- What the mutex receives over the lifetime of a guard. -/
def guardCalls (kind : GuardKind) (ops : List GuardOp) : List Call :=
  (Guard.new kind).2.toList ++ (Guard.new kind).1.calls ops

/-- Acquire and release in strict alternation, an acquire first and a release last. -/
inductive Balanced (acquire : Call) : List Call → Prop
  | once : Balanced acquire [acquire, .unlock]
  | again {l : List Call} : Balanced acquire l → Balanced acquire (acquire :: .unlock :: l)

/-! ## One guard -/

theorem Balanced.two_le_length {acquire : Call} {l : List Call} (h : Balanced acquire l) :
    2 ≤ l.length := by
  cases h with
  | once => exact Nat.le_refl 2
  | again _ => exact Nat.le_add_left ..

theorem Balanced.again_iff {acquire : Call} {l : List Call} (hl : l ≠ []) :
    Balanced acquire (acquire :: .unlock :: l) ↔ Balanced acquire l := by
  constructor
  · intro h
    cases h with
    | once => exact absurd rfl hl
    | again h => exact h
  · exact Balanced.again

theorem Guard.calls_ne_nil (g : Guard) (ops : List GuardOp) : g.calls ops ≠ [] := by
  induction ops generalizing g with
  | nil => exact List.cons_ne_nil Call.unlock []
  | cons op ops ih =>
    intro h
    exact ih _ (List.append_eq_nil_iff.mp h).2

theorem GuardKind.acquire_ne_unlock (kind : GuardKind) : kind.acquire ≠ .unlock := by
  cases kind <;> decide

/-- **What a call on a guard can do**: nothing, open its section, or close it. -/
theorem Guard.apply_cases (g : Guard) (op : GuardOp) :
    g.apply op = (g, none) ∨
    (g.locked = false ∧ g.apply op = ({ g with locked := true }, some g.kind.acquire)) ∨
    (g.locked = true ∧ g.apply op = ({ g with locked := false }, some .unlock)) := by
  cases op with
  | lock =>
    by_cases hg : g.locked = true
    · exact Or.inl (by simp [Guard.apply, Guard.lock, hg])
    · exact Or.inr (Or.inl ⟨by simpa using hg, by simp [Guard.apply, Guard.lock, hg]⟩)
  | unlock =>
    by_cases hg : g.locked = true
    · exact Or.inr (Or.inr ⟨hg, by simp [Guard.apply, Guard.unlock, hg]⟩)
    · exact Or.inl (by simp [Guard.apply, Guard.unlock, hg])

/-- The calls still to come, with the acquire that is open, are balanced exactly
when the destructor finds the guard locked. -/
theorem Guard.calls_balanced_iff (g : Guard) (ops : List GuardOp) :
    Balanced g.kind.acquire ((if g.locked then [g.kind.acquire] else []) ++ g.calls ops) ↔
      (g.after ops).locked = true := by
  induction ops generalizing g with
  | nil =>
    by_cases hg : g.locked = true
    · rw [if_pos hg]
      exact iff_of_true Balanced.once hg
    · rw [if_neg hg]
      refine iff_of_false ?_ hg
      intro h
      exact absurd h.two_le_length (by simp [Guard.calls, Guard.destroy])
  | cons op ops ih =>
    have hnext := ih (g.apply op).1
    rw [Guard.after, Guard.calls]
    rcases g.apply_cases op with h | ⟨hg, h⟩ | ⟨hg, h⟩
    · rw [h] at hnext ⊢
      exact hnext
    · rw [h] at hnext ⊢
      simpa [hg] using hnext
    · -- the open section is closed: one full round in front of the rest
      rw [h] at hnext ⊢
      rw [← hnext]
      simpa [hg] using Balanced.again_iff (Guard.calls_ne_nil { g with locked := false } ops)

theorem Guard.after_append (g : Guard) (ops : List GuardOp) (op : GuardOp) :
    g.after (ops ++ [op]) = ((g.after ops).apply op).1 := by
  induction ops generalizing g with
  | nil => rfl
  | cons a ops ih => exact ih _

/-- The destructor finds the guard unlocked when the last call on it was `unlock()`. -/
theorem Guard.after_new_locked (kind : GuardKind) (ops : List GuardOp) :
    ((Guard.new kind).1.after ops).locked = true ↔ ops.getLast? ≠ some .unlock := by
  rcases List.eq_nil_or_concat ops with rfl | ⟨pre, op, rfl⟩
  · simp [Guard.after, Guard.new]
  · rw [List.concat_eq_append, Guard.after_append, List.getLast?_concat]
    cases op <;> simp only [Guard.apply, Guard.lock, Guard.unlock] <;> split <;> simp_all

theorem guardCalls_balanced_iff (kind : GuardKind) (ops : List GuardOp) :
    Balanced kind.acquire (guardCalls kind ops) ↔ ops.getLast? ≠ some .unlock :=
  (Guard.calls_balanced_iff (Guard.new kind).1 ops).trans (Guard.after_new_locked kind ops)

/-! ## A mutex -/

variable {Thread : Type} [DecidableEq Thread]

/-- A mutex: the thread that has it exclusively, and the threads that share it, one
entry for each shared section. -/
structure Mutex (Thread : Type) where
  writer : Option Thread
  readers : List Thread
  deriving DecidableEq

namespace Mutex

/-- A release by `t`.  An exclusive section is ended whoever opened it, as `CASLock`
ends it; a thread without a shared section of its own ends another one's. -/
def release (m : Mutex Thread) (t : Thread) : Mutex Thread :=
  match m.writer with
  | some _ => { m with writer := none }
  | none => { m with readers := if t ∈ m.readers then m.readers.erase t else m.readers.tail }

/-- A call by `t`; an acquire that has to wait is not enabled. -/
def call (m : Mutex Thread) (t : Thread) : Call → Option (Mutex Thread)
  | .lock | .wrlock =>
    if m.writer = none ∧ m.readers = [] then some { m with writer := some t } else none
  | .rdlock => if m.writer = none then some { m with readers := t :: m.readers } else none
  | .unlock => some (m.release t)

/-- `t` is inside a section of its own. -/
def Holds (m : Mutex Thread) (t : Thread) : Prop := m.writer = some t ∨ t ∈ m.readers

end Mutex

/-! ## Guards of many threads on one mutex -/

/-- The mutex, and each thread's guards on it, the youngest first. -/
structure GuardState (Thread : Type) where
  mutex : Mutex Thread
  stack : Thread → List Guard

/-- A thread constructs a guard, calls a member of its `i`-th, or leaves the scope
of its youngest. -/
inductive GuardAction (Thread : Type)
  | construct (t : Thread) (kind : GuardKind)
  | call (t : Thread) (i : Nat) (op : GuardOp)
  | destroy (t : Thread)

namespace GuardState

/-- No guard, and the mutex free. -/
def fresh : GuardState Thread :=
  { mutex := { writer := none, readers := [] }, stack := fun _ => [] }

/-- The thread that moves, its guards afterwards, and its call on the mutex. -/
def move (s : GuardState Thread) :
    GuardAction Thread → Option (Thread × List Guard × Option Call)
  | .construct t kind => some (t, (Guard.new kind).1 :: s.stack t, (Guard.new kind).2)
  | .call t i op =>
    ((s.stack t)[i]?).map fun g => (t, (s.stack t).set i (g.apply op).1, (g.apply op).2)
  | .destroy t =>
    match s.stack t with
    | [] => none
    | g :: rest => some (t, rest, g.destroy)

def step (s : GuardState Thread) (a : GuardAction Thread) : Option (GuardState Thread) :=
  (s.move a).bind fun (t, guards, call) =>
    (match call with
      | none => some s.mutex
      | some c => s.mutex.call t c).map fun mutex =>
        { mutex, stack := Function.update s.stack t guards }

/-- The step, if it releases the mutex, is the step of a thread that holds it. -/
def ReleasesOwn (s : GuardState Thread) (a : GuardAction Thread) : Prop :=
  ∀ t guards, s.move a = some (t, guards, some .unlock) → s.mutex.Holds t

/-- No section overlaps a write section: beside a locked exclusive guard there is no
other locked guard, in any thread. -/
def WriteSectionsDisjoint (s : GuardState Thread) : Prop :=
  ∀ (t t' : Thread) (i i' : Nat) (g g' : Guard),
    (s.stack t)[i]? = some g → g.locked = true → g.kind.exclusive = true →
    (s.stack t')[i']? = some g' → g'.locked = true → t = t' ∧ i = i'

/-- The guard whose scope ends is locked. -/
def DestroysLocked (s : GuardState Thread) : GuardAction Thread → Prop
  | .destroy t => ∀ g ∈ (s.stack t).head?, g.locked = true
  | _ => True

end GuardState

/-- Any number of threads with guards on one mutex. -/
def guardMachine (Thread : Type) [DecidableEq Thread] :
    Machine (GuardState Thread) (GuardAction Thread) where
  init s := s = GuardState.fresh
  step := GuardState.step

/-! ## The sections that guards account for -/

/-- The open sections of a kind among some guards. -/
def sections (exclusive : Bool) (guards : List Guard) : Nat :=
  guards.countP fun g : Guard => g.locked && (g.kind.exclusive == exclusive)

theorem sections_cons (e : Bool) (g : Guard) (l : List Guard) :
    sections e (g :: l) =
      sections e l + (g.locked && (g.kind.exclusive == e)).toNat := by
  rw [sections]
  rw [List.countP_cons]
  cases g.locked && (g.kind.exclusive == e) <;> rfl

theorem sections_set {e : Bool} {l : List Guard} {i : Nat} {g : Guard} (h : l[i]? = some g)
    (g' : Guard) :
    sections e (l.set i g') + (g.locked && (g.kind.exclusive == e)).toNat =
      sections e l + (g'.locked && (g'.kind.exclusive == e)).toNat := by
  induction l generalizing i with
  | nil => simp at h
  | cons x l ih =>
    cases i with
    | zero =>
      obtain rfl : x = g := by simpa using h
      rw [List.set_cons_zero, sections_cons, sections_cons]
      omega
    | succ i =>
      have := ih (i := i) (by simpa using h)
      rw [List.set_cons_succ, sections_cons, sections_cons]
      omega

theorem sections_pos {e : Bool} {l : List Guard} {i : Nat} {g : Guard} (h : l[i]? = some g)
    (hg : g.locked = true) (he : g.kind.exclusive = e) : 0 < sections e l := by
  have := sections_set (e := e) h { g with locked := false }
  simp [hg, he] at this
  omega

/-- Two open sections of a kind at different places are counted twice. -/
theorem sections_two {e : Bool} {l : List Guard} {i j : Nat} {g g' : Guard}
    (hi : l[i]? = some g) (hg : g.locked = true) (he : g.kind.exclusive = e)
    (hj : l[j]? = some g') (hg' : g'.locked = true) (he' : g'.kind.exclusive = e)
    (hne : i ≠ j) : 1 < sections e l := by
  -- close the first section; the second is still there
  have hset := sections_set (e := e) hi { g with locked := false }
  have hrest : (l.set i { g with locked := false })[j]? = some g' := by
    rw [List.getElem?_set_ne hne]
    exact hj
  have := sections_pos hrest hg' he'
  simp [hg, he] at hset
  omega

/-- How a thread's guards account for its call on the mutex: no call leaves their
sections as they are, an acquire opens one, a release closes one. -/
inductive Accounts (before after : List Guard) : Option Call → Prop
  | silent : (∀ e, sections e after = sections e before) → Accounts before after none
  | opens (kind : GuardKind) :
      (∀ e, sections e after = sections e before + Bool.toNat (kind.exclusive == e)) →
      Accounts before after (some kind.acquire)
  | closes (kind : GuardKind) :
      (∀ e, sections e before = sections e after + (kind.exclusive == e).toNat) →
      Accounts before after (some .unlock)

omit [DecidableEq Thread] in
/-- **Every step but the destruction of an unlocked guard is accounted for.** -/
theorem GuardState.move_accounts {s : GuardState Thread} {a : GuardAction Thread} {t : Thread}
    {guards : List Guard} {call : Option Call} (hok : s.DestroysLocked a)
    (h : s.move a = some (t, guards, call)) : Accounts (s.stack t) guards call := by
  cases a with
  | construct u kind =>
    cases h
    exact .opens kind fun e => by simp [sections_cons, Guard.new]
  | call u i op =>
    obtain ⟨g, hg, heq⟩ := Option.map_eq_some_iff.mp h
    cases heq
    have hset := fun e => sections_set (e := e) hg (g.apply op).1
    rcases g.apply_cases op with h | ⟨hl, h⟩ | ⟨hl, h⟩
    · rw [h] at hset ⊢
      exact .silent fun e => Nat.add_right_cancel (hset e)
    · rw [h] at hset ⊢
      refine .opens g.kind fun e => ?_
      simpa [hl] using hset e
    · rw [h] at hset ⊢
      refine .closes g.kind fun e => ?_
      simpa [hl] using (hset e).symm
  | destroy u =>
    simp only [GuardState.move] at h
    split at h
    · cases h
    · rename_i g rest hs
      cases h
      have hl : g.locked = true := hok g (by rw [hs]; rfl)
      rw [hs]
      exact .closes g.kind fun e => by simp [sections_cons, hl]

/-- **The invariant**: the mutex and the guards count the same sections, and no
section is shared while another is exclusive. -/
structure Agrees (s : GuardState Thread) : Prop where
  writing : ∀ t, sections true (s.stack t) = if s.mutex.writer = some t then 1 else 0
  reading : ∀ t, sections false (s.stack t) = s.mutex.readers.count t
  exclusive : s.mutex.writer ≠ none → s.mutex.readers = []

namespace Agrees
variable {s s' : GuardState Thread} {a : GuardAction Thread}

theorem init : (guardMachine Thread).init s → Agrees s := by
  rintro rfl
  exact ⟨fun _ => rfl, fun _ => rfl, fun _ => rfl⟩

/-- A thread with an open exclusive section has the mutex. -/
theorem writer_of_pos (h : Agrees s) {t : Thread} (ht : 0 < sections true (s.stack t)) :
    s.mutex.writer = some t := by
  rw [h.writing t] at ht
  by_contra hne
  rw [if_neg hne] at ht
  exact absurd ht (Nat.lt_irrefl 0)

/-- A thread with an open section of its own holds the mutex. -/
theorem holds (h : Agrees s) {t : Thread} {kind : GuardKind}
    (ht : 0 < sections kind.exclusive (s.stack t)) : s.mutex.Holds t := by
  cases hk : kind.exclusive with
  | true =>
    rw [hk] at ht
    exact Or.inl (h.writer_of_pos ht)
  | false =>
    rw [hk, h.reading t] at ht
    exact Or.inr (List.count_pos_iff.mp ht)

theorem disjoint (h : Agrees s) : s.WriteSectionsDisjoint := by
  intro t t' i i' g g' hi hg he hi' hg'
  have hw := h.writer_of_pos (sections_pos hi hg he)
  have he' : g'.kind.exclusive = true := by
    -- a shared section would be counted by the mutex, which has none
    by_contra hne
    have hpos := sections_pos hi' hg' (by simpa using hne)
    rw [h.reading t', h.exclusive (by simp [hw])] at hpos
    exact absurd hpos (Nat.lt_irrefl 0)
  have hw' := h.writer_of_pos (sections_pos hi' hg' he')
  obtain rfl : t = t' := by simpa [hw] using hw'
  refine ⟨rfl, ?_⟩
  by_contra hne
  have htwo := sections_two hi hg he hi' hg' he' hne
  rw [h.writing t, if_pos hw] at htwo
  exact absurd htwo (Nat.lt_irrefl 1)

/-- Only the thread that moves is looked at: the mutex keeps what it knows of the
others. -/
theorem of_move (h : Agrees s) {t : Thread} {m : Mutex Thread} {guards : List Guard}
    (hwriting : sections true guards = if m.writer = some t then 1 else 0)
    (hreading : sections false guards = m.readers.count t)
    (hothers : ∀ u, u ≠ t → (m.writer = some u ↔ s.mutex.writer = some u) ∧
      m.readers.count u = s.mutex.readers.count u)
    (hexclusive : m.writer ≠ none → m.readers = []) :
    Agrees { mutex := m, stack := Function.update s.stack t guards } := by
  refine ⟨fun u => ?_, fun u => ?_, hexclusive⟩
  · by_cases hu : u = t
    · subst hu
      simpa using hwriting
    · simp only [Function.update_of_ne hu, h.writing u, (hothers u hu).1]
  · by_cases hu : u = t
    · subst hu
      simpa using hreading
    · simp only [Function.update_of_ne hu, h.reading u, (hothers u hu).2]

theorem acquire (h : Agrees s) {t : Thread} {kind : GuardKind} {m : Mutex Thread}
    {guards : List Guard} (hm : s.mutex.call t kind.acquire = some m)
    (hacc : ∀ e, sections e guards = sections e (s.stack t) + (kind.exclusive == e).toNat) :
    Agrees { mutex := m, stack := Function.update s.stack t guards } := by
  by_cases hk : kind.exclusive = true
  · -- the mutex was free, and is now the thread's
    have hfree : (s.mutex.writer = none ∧ s.mutex.readers = []) ∧
        m = { s.mutex with writer := some t } := by
      cases kind with
      | readScopedLock => cases hk
      | scopedLock => simpa [Mutex.call, GuardKind.acquire, eq_comm] using hm
      | writeScopedLock => simpa [Mutex.call, GuardKind.acquire, eq_comm] using hm
    obtain ⟨⟨hw, hr⟩, rfl⟩ := hfree
    refine h.of_move ?_ ?_ (fun u hu => ⟨?_, rfl⟩) fun _ => hr
    · rw [hacc, h.writing t, hw, hk]
      simp
    · rw [hacc, h.reading t, hk]
      simp
    · simp [hw, Ne.symm hu]
  · have hread : s.mutex.writer = none ∧ m = { s.mutex with readers := t :: s.mutex.readers } := by
      cases kind with
      | readScopedLock => simpa [Mutex.call, GuardKind.acquire, eq_comm] using hm
      | scopedLock => exact absurd rfl hk
      | writeScopedLock => exact absurd rfl hk
    obtain ⟨hw, rfl⟩ := hread
    refine h.of_move ?_ ?_ (fun u hu => ⟨Iff.rfl, ?_⟩) fun hne => absurd hw hne
    · rw [hacc, h.writing t]
      simp [hk]
    · rw [hacc, h.reading t, List.count_cons_self]
      simp [hk]
    · exact List.count_cons_of_ne (Ne.symm hu)

theorem release (h : Agrees s) {t : Thread} {kind : GuardKind} {guards : List Guard}
    (hacc : ∀ e, sections e (s.stack t) = sections e guards + (kind.exclusive == e).toNat) :
    Agrees { mutex := s.mutex.release t, stack := Function.update s.stack t guards } := by
  by_cases hk : kind.exclusive = true
  · have hwriting := hacc true
    have hreading := hacc false
    have hw := h.writer_of_pos (t := t) (by rw [hwriting, hk]; simp)
    rw [h.writing t, if_pos hw, hk] at hwriting
    rw [h.reading t, h.exclusive (by simp [hw]), hk] at hreading
    simp only [Mutex.release, hw]
    refine h.of_move ?_ ?_ (fun u hu => ⟨?_, rfl⟩) fun hne => absurd rfl hne
    · simpa using hwriting.symm
    · rw [h.exclusive (by simp [hw])]
      simpa using hreading.symm
    · simp [hw, Ne.symm hu]
  · have hwriting := hacc true
    have hreading := hacc false
    have hmem : t ∈ s.mutex.readers := by
      rw [← List.count_pos_iff, ← h.reading t, hreading]
      simp [hk]
    have hw : s.mutex.writer = none := by
      by_contra hne
      rw [h.exclusive hne] at hmem
      cases hmem
    simp only [Mutex.release, hw, if_pos hmem]
    refine h.of_move ?_ ?_ (fun u hu => ⟨by simp [hw], ?_⟩) fun hne => absurd rfl hne
    · rw [h.writing t, hw] at hwriting
      simpa [hk] using hwriting.symm
    · rw [h.reading t] at hreading
      rw [List.count_erase_self]
      simp [hk] at hreading
      omega
    · exact List.count_erase_of_ne hu

/-- **The mutex follows the guards**: a step that is accounted for keeps the
invariant. -/
theorem step (h : Agrees s) (hok : s.DestroysLocked a) (hst : s.step a = some s') :
    Agrees s' := by
  obtain ⟨⟨t, guards, call⟩, hmove, hst⟩ := Option.bind_eq_some_iff.mp hst
  obtain ⟨m, hm, rfl⟩ := Option.map_eq_some_iff.mp hst
  cases s.move_accounts hok hmove with
  | silent hacc =>
    obtain rfl := Option.some.inj hm
    refine h.of_move ?_ ?_ (fun u _ => ⟨Iff.rfl, rfl⟩) h.exclusive
    · rw [hacc, h.writing t]
    · rw [hacc, h.reading t]
  | opens kind hacc => exact h.acquire hm hacc
  | closes kind hacc =>
    obtain rfl := Option.some.inj hm
    exact h.release hacc

/-- Every release that is accounted for is the thread's own. -/
theorem releasesOwn (h : Agrees s) (hok : s.DestroysLocked a) : s.ReleasesOwn a := by
  intro t guards hmove
  generalize hcall : some Call.unlock = call at hmove
  cases s.move_accounts hok hmove with
  | silent _ => cases hcall
  | opens kind _ => exact absurd (Option.some.inj hcall).symm kind.acquire_ne_unlock
  | closes kind hacc =>
    refine @holds _ _ _ h t kind ?_
    rw [hacc]
    simp

end Agrees

/-- **When guards release exactly what they acquired.**  Alone, a guard's calls are
balanced exactly when the last call made on it before its destruction is not
`unlock()`; among others, in every run in which no scope ends on an unlocked guard
every release is by a thread that holds the mutex, and no section overlaps a write
section. -/
theorem guard_releases_own_iff (kind : GuardKind) (ops : List GuardOp) (Thread : Type)
    [DecidableEq Thread] :
    (Balanced kind.acquire (guardCalls kind ops) ↔ ops.getLast? ≠ some .unlock) ∧
    ∀ tr (s : GuardState Thread),
      (guardMachine Thread).Run tr s → (∀ p ∈ tr, p.1.DestroysLocked p.2) →
      (∀ p ∈ tr, p.1.ReleasesOwn p.2) ∧ ∀ u ∈ Machine.visits tr s, u.WriteSectionsDisjoint := by
  refine ⟨guardCalls_balanced_iff kind ops, ?_⟩
  intro tr s hrun hok
  have hstep : ∀ (s : GuardState Thread) a s', Agrees s → s.DestroysLocked a →
      (guardMachine Thread).step s a = some s' → Agrees s' :=
    fun s a s' h hd hst => h.step hd hst
  have hmem : ∀ p ∈ tr, Agrees p.1 := fun p hp =>
    hrun.invariant_mem _ (fun _ => Agrees.init) hstep hok hp
  constructor
  · intro p hp
    exact (hmem p hp).releasesOwn (hok p hp)
  · intro u hu
    exact (hrun.invariant_visits _ (fun _ => Agrees.init) hstep hok u hu).disjoint

instance (s : GuardState Thread) (a : GuardAction Thread) : Decidable (s.DestroysLocked a) :=
  match a with
  | .destroy t => inferInstanceAs (Decidable (∀ g ∈ (s.stack t).head?, g.locked = true))
  | .construct _ _ => isTrue trivial
  | .call _ _ _ => isTrue trivial

/-- A thread unlocks and relocks its guard, then leaves its scope; another one comes
after it. -/
theorem guard_releases_own_iff_relocked :
    ∃ tr s, (guardMachine (Fin 2)).Run tr s ∧ tr.length = 5 ∧
      (∀ p ∈ tr, p.1.ReleasesOwn p.2) ∧ ∀ u ∈ Machine.visits tr s, u.WriteSectionsDisjoint := by
  have hrun := @Machine.Run.of_exec_init _ _ (guardMachine (Fin 2)) .fresh _ rfl
    [.construct 0 .writeScopedLock, .call 0 0 .unlock, .call 0 0 .lock, .destroy 0,
      .construct 1 .writeScopedLock] rfl
  exact ⟨_, _, hrun, rfl, (guard_releases_own_iff .writeScopedLock [] (Fin 2)).2 _ _ hrun
    (by decide)⟩

/-- A lock released by `unlock()` is released again by the destructor, while another
thread has the mutex: a third section then overlaps the second. -/
theorem destructor_releases_again :
    ¬ Balanced Call.lock (guardCalls .scopedLock [.unlock]) ∧
    ∃ tr s, (guardMachine (Fin 2)).Run tr s ∧ (∃ p ∈ tr, ¬ p.1.ReleasesOwn p.2) ∧
      ¬ s.WriteSectionsDisjoint := by
  constructor
  · intro h
    cases h with
    | again h => exact absurd h.two_le_length (by decide)
  · have hrun := @Machine.Run.of_exec_init _ _ (guardMachine (Fin 2)) .fresh _ rfl
      [.construct 0 .scopedLock, .call 0 0 .unlock, .construct 1 .scopedLock, .destroy 0,
        .construct 0 .scopedLock] rfl
    refine ⟨_, _, hrun, ⟨_, List.mem_cons_of_mem _ (List.mem_cons_of_mem _
      (List.mem_cons_of_mem _ (List.mem_cons_self ..))), ?_⟩, ?_⟩
    · intro hown
      have hholds := hown 0 [] rfl
      rw [Mutex.Holds] at hholds
      exact absurd hholds (by decide)
    · intro hdisjoint
      have h := hdisjoint 0 1 0 0 _ _ rfl rfl rfl rfl rfl
      exact absurd h.1 (by decide)

end Sylar
