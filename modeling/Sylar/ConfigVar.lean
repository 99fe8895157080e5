import Sylar.Interleaving

/-! # Listeners of a configuration variable

`ConfigVar::setValue` calls the listeners under the read lock and stores the value under the
write lock, in two sections.  What another call does between them comes too early for the store
and too late for the listeners: they are told the old value twice, and the last value they are
told need not be the last that is stored (`two_settings_diverge`).

**`consistent_iff`**: the listeners are told one change after the other, and at last the value
that is stored, exactly where no call that changes the value begins between the two sections of
another. -/
namespace Sylar.Config
open Interleaving

/-! ## The variable -/

/-- `ConfigVar`, with what each listener in `m_cbs` has been told, and what it has written to
the variable it keeps up to date. -/
structure ConfigVar (Listener T C : Type) where
  val : T
  seen : Listener → List (T × T)
  cache : Listener → C

namespace ConfigVar
variable {Listener T C : Type} (conv : Listener → T → C)

/-- The listeners are called, one after the other. -/
def callListeners (var : ConfigVar Listener T C) (val : T) : ConfigVar Listener T C :=
  { var with
    seen := fun l => var.seen l ++ [(var.val, val)]
    cache := fun l => conv l val }

def store (var : ConfigVar Listener T C) (val : T) : ConfigVar Listener T C :=
  { var with val := val }

/-- `ConfigVar::setValue` -/
def setValue [DecidableEq T] (var : ConfigVar Listener T C) (val : T) :
    ConfigVar Listener T C :=
  if val = var.val then var else (var.callListeners conv val).store val

end ConfigVar

/-! ## Threads that set it -/

/-- A variable, and what the threads that are between the two sections have to store. -/
structure SharedVar (Thread Listener T C : Type) where
  var : ConfigVar Listener T C
  pending : Thread → Option T

/-- A section of `setValue`. -/
inductive SetAction (Thread T : Type)
  | callListeners (w : Thread) (val : T)
  | store (w : Thread)
  deriving DecidableEq

namespace SharedVar
variable {Thread Listener T C : Type} [DecidableEq Thread] [DecidableEq T]
variable (conv : Listener → T → C)

def step (s : SharedVar Thread Listener T C) :
    SetAction Thread T → Option (SharedVar Thread Listener T C)
  | .callListeners w val =>
    if s.pending w ≠ none then none
    else if val = s.var.val then some s
    else
      some {
        var := s.var.callListeners conv val
        pending := Function.update s.pending w (some val) }
  | .store w =>
    (s.pending w).map fun val =>
      { var := s.var.store val, pending := Function.update s.pending w none }

end SharedVar

/-- Any interleaving of the threads' sections, from a variable whose listeners have just been
registered, each after it was given the value. -/
def setMachine (Thread : Type) {Listener T C : Type} [DecidableEq Thread] [DecidableEq T]
    (conv : Listener → T → C) (start : T) :
    Machine (SharedVar Thread Listener T C) (SetAction Thread T) where
  init s :=
    s.var.val = start ∧ (∀ l, s.var.seen l = []) ∧ (∀ l, s.var.cache l = conv l start) ∧
      ∀ w, s.pending w = none
  step := SharedVar.step conv

/-! ## Chains of changes -/

section Chains
variable {T : Type}

/-- Each old value is the new value before it, the first one the value at the start. -/
def Chained (start : T) : List (T × T) → Prop
  | [] => True
  | (old, new) :: changes => old = start ∧ Chained new changes

/-- The last new value. -/
def latestNew (start : T) : List (T × T) → T
  | [] => start
  | (_, new) :: changes => latestNew new changes

theorem latestNew_snoc (start : T) (changes : List (T × T)) (old new : T) :
    latestNew start (changes ++ [(old, new)]) = new := by
  induction changes generalizing start with
  | nil => rfl
  | cons change changes ih => exact ih change.2

theorem chained_snoc {start : T} {changes : List (T × T)} {old new : T} :
    Chained start (changes ++ [(old, new)]) ↔
      Chained start changes ∧ old = latestNew start changes := by
  induction changes generalizing start with
  | nil => exact and_comm
  | cons change changes ih => exact (and_congr_right fun _ => ih).trans and_assoc.symm

end Chains

/-! ## Consistent listeners -/

namespace SharedVar
variable {Thread Listener T C : Type} {conv : Listener → T → C} {start : T} {l : Listener}

/-- No call is between its sections. -/
def Quiet (s : SharedVar Thread Listener T C) : Prop := ∀ w, s.pending w = none

/-- What the listener was told is a chain, and leads to the value when all calls have finished;
what the listener keeps is then the value too. -/
structure Consistent (conv : Listener → T → C) (start : T) (l : Listener)
    (s : SharedVar Thread Listener T C) : Prop where
  chained : Chained start (s.var.seen l)
  latest : s.Quiet → latestNew start (s.var.seen l) = s.var.val
  cached : s.Quiet → s.var.cache l = conv l s.var.val

/-- A call that changes the value begins when no other call is between its sections. -/
def Undisturbed (s : SharedVar Thread Listener T C) : SetAction Thread T → Prop
  | .callListeners _ val => val = s.var.val ∨ s.Quiet
  | .store _ => True

/-- The listener is where the value is, or where the only pending call will bring it. -/
structure InStep (conv : Listener → T → C) (start : T) (l : Listener)
    (s : SharedVar Thread Listener T C) : Prop where
  chained : Chained start (s.var.seen l)
  cached : s.var.cache l = conv l (latestNew start (s.var.seen l))
  ahead : s.Quiet ∧ latestNew start (s.var.seen l) = s.var.val ∨
    ∃ w, s.pending w = some (latestNew start (s.var.seen l)) ∧
      (∀ u, u ≠ w → s.pending u = none) ∧ latestNew start (s.var.seen l) ≠ s.var.val

theorem InStep.consistent {s : SharedVar Thread Listener T C} (h : s.InStep conv start l) :
    s.Consistent conv start l := by
  have hlatest : s.Quiet → latestNew start (s.var.seen l) = s.var.val := by
    intro hquiet
    rcases h.ahead with ⟨-, hval⟩ | ⟨w, hw, -⟩
    · exact hval
    · rw [hquiet w] at hw
      cases hw
  exact ⟨h.chained, hlatest, fun hquiet => h.cached.trans (congrArg (conv l) (hlatest hquiet))⟩

variable [DecidableEq Thread] [DecidableEq T]

/-- A call that nothing interrupts is `setValue`. -/
theorem set_alone {s : SharedVar Thread Listener T C} {w : Thread} (hidle : s.pending w = none)
    {val : T} (hval : val ≠ s.var.val) :
    (setMachine Thread conv start).exec s [.callListeners w val, .store w] =
      some { s with var := s.var.setValue conv val } := by
  have hfirst : (setMachine Thread conv start).step s (.callListeners w val) =
      some { var := s.var.callListeners conv val
             pending := Function.update s.pending w (some val) } := by
    show SharedVar.step conv s (.callListeners w val) = _
    rw [step, if_neg (not_not.mpr hidle), if_neg hval]
  have hpending : Function.update (Function.update s.pending w (some val)) w none = s.pending := by
    rw [Function.update_idem, ← hidle, Function.update_eq_self]
  rw [Machine.exec_cons hfirst, Machine.exec, ConfigVar.setValue, if_neg hval]
  show (Option.map _ (Function.update s.pending w (some val) w)).bind _ = _
  rw [Function.update_self, Option.map_some, Option.bind_some, hpending]
  rfl

/-- What a section of a call does. -/
theorem step_cases {s t : SharedVar Thread Listener T C} {a : SetAction Thread T}
    (h : s.step conv a = some t) :
    (∃ w, a = .callListeners w s.var.val ∧ t = s) ∨
    (∃ w val, a = .callListeners w val ∧ val ≠ s.var.val ∧ s.pending w = none ∧
      t = { var := s.var.callListeners conv val
            pending := Function.update s.pending w (some val) }) ∨
    (∃ w val, a = .store w ∧ s.pending w = some val ∧
      t = { var := s.var.store val, pending := Function.update s.pending w none }) := by
  cases a with
  | callListeners w val =>
    rw [step] at h
    split at h
    · cases h
    rename_i hidle
    split at h
    · rename_i hsame
      cases h
      exact .inl ⟨w, by rw [hsame], rfl⟩
    · rename_i hne
      cases h
      exact .inr (.inl ⟨w, val, rfl, hne, not_not.mp hidle, rfl⟩)
  | store w =>
    obtain ⟨val, hval, rfl⟩ := Option.map_eq_some_iff.mp h
    exact .inr (.inr ⟨w, val, rfl, hval, rfl⟩)

/-- A call that is not disturbed keeps the listener in step. -/
theorem InStep.step {s t : SharedVar Thread Listener T C} {a : SetAction Thread T}
    (h : s.InStep conv start l) (hok : s.Undisturbed a) (hst : s.step conv a = some t) :
    t.InStep conv start l := by
  obtain ⟨w, rfl, rfl⟩ | ⟨w, val, rfl, hne, -, rfl⟩ | ⟨w, val, rfl, hw, rfl⟩ := step_cases hst
  · exact h
  · have hquiet : s.Quiet := hok.resolve_left hne
    have hval : latestNew start (s.var.seen l) = s.var.val := by
      rcases h.ahead with ⟨-, hval⟩ | ⟨u, hu, -⟩
      · exact hval
      · rw [hquiet u] at hu
        cases hu
    have hlatest := latestNew_snoc start (s.var.seen l) s.var.val val
    constructor
    case chained => exact chained_snoc.mpr ⟨h.chained, hval.symm⟩
    case cached => exact congrArg (conv l) hlatest.symm
    case ahead =>
      refine .inr ⟨w, ?_, fun u hu => ?_, ?_⟩
      · exact (Function.update_self ..).trans (congrArg some hlatest.symm)
      · exact (Function.update_of_ne hu ..).trans (hquiet u)
      · exact fun heq => hne (hlatest.symm.trans heq)
  · -- the only pending call is the one that stores
    rcases h.ahead with ⟨hquiet, -⟩ | ⟨u, hu, hothers, -⟩
    · rw [hquiet w] at hw
      cases hw
    have huw : w = u := by
      by_contra hne
      rw [hothers w hne] at hw
      cases hw
    subst huw
    constructor
    case chained => exact h.chained
    case cached => exact h.cached
    case ahead =>
      refine .inl ⟨fun v => ?_, ?_⟩
      · rcases eq_or_ne v w with rfl | hv
        · exact Function.update_self ..
        · exact (Function.update_of_ne hv ..).trans (hothers v hv)
      · exact Option.some_inj.mp (hu.symm.trans hw)

/-- A call that is disturbed tells the listener the old value again. -/
theorem InStep.undisturbed {s t : SharedVar Thread Listener T C} {a : SetAction Thread T}
    (h : s.InStep conv start l) (hst : s.step conv a = some t) (ht : t.Consistent conv start l) :
    s.Undisturbed a := by
  obtain ⟨w, rfl, rfl⟩ | ⟨w, val, rfl, -, -, rfl⟩ | ⟨w, val, rfl, -⟩ := step_cases hst
  · exact .inl rfl
  · rcases h.ahead with ⟨hquiet, -⟩ | ⟨-, -, -, hne⟩
    · exact .inr hquiet
    · exact absurd (chained_snoc.mp ht.chained).2.symm hne
  · exact trivial

/-- **When the notifications are consistent**: in every run, exactly where no call that changes
the value begins between the sections of another. -/
theorem consistent_iff {tr : List (SharedVar Thread Listener T C × SetAction Thread T)}
    {s : SharedVar Thread Listener T C} (hrun : (setMachine Thread conv start).Run tr s)
    (l : Listener) :
    (∀ u ∈ Machine.visits tr s, u.Consistent conv start l) ↔ ∀ p ∈ tr, p.1.Undisturbed p.2 := by
  refine hrun.visits_iff (I := InStep conv start l) Undisturbed ?_ (fun _ => InStep.consistent)
    (fun _ _ _ h hok hst => h.step hok hst) (fun _ _ _ h hst ht => h.undisturbed hst ht)
  rintro u ⟨hval, hseen, hcache, hquiet⟩
  have hlatest : latestNew start (u.var.seen l) = start := by rw [hseen l]; rfl
  constructor
  case chained => rw [hseen l]; exact trivial
  case cached => rw [hlatest, hcache l]
  case ahead => exact .inl ⟨hquiet, hlatest.trans hval.symm⟩

section Examples

instance [Fintype Thread] (s : SharedVar Thread Listener T C) : Decidable s.Quiet :=
  inferInstanceAs (Decidable (∀ w, s.pending w = none))

instance [Fintype Thread] (s : SharedVar Thread Listener T C) (a : SetAction Thread T) :
    Decidable (s.Undisturbed a) :=
  match a with
  | .callListeners _ val => inferInstanceAs (Decidable (val = s.var.val ∨ s.Quiet))
  | .store _ => instDecidableTrue

/-- The listener that keeps `s_connect_timeout`, a `uint64_t`. -/
def connectTimeout (_ : Unit) (new : Int) : Nat := (new % 2 ^ 64).toNat

/-- The variable behind the registration of that listener, with two threads. -/
def registered (start : Int) : SharedVar Bool Unit Int Nat where
  var := { val := start, seen := fun _ => [], cache := fun l => connectTimeout l start }
  pending _ := none

theorem registered_init (start : Int) : (setMachine Bool connectTimeout start).init
    (registered start) :=
  ⟨rfl, fun _ => rfl, fun _ => rfl, fun _ => rfl⟩

/-- Two threads that set the variable one after the other. -/
theorem consistent_iff_in_turn : ∃ tr s, (setMachine Bool connectTimeout 5000).Run tr s ∧
    s.var.val = 2000 ∧ ∀ u ∈ Machine.visits tr s, u.Consistent connectTimeout 5000 () := by
  obtain ⟨s, hrun, hval⟩ := Machine.Run.of_exec_any (registered_init 5000)
    [.callListeners true 1000, .store true, .callListeners false 2000, .store false]
    (fun s => s.var.val == 2000) (by decide)
  exact ⟨_, s, hrun, beq_iff_eq.mp hval, (consistent_iff hrun ()).mpr (by decide)⟩

/-- Two threads that set it at the same time: the listener is told of 5000 twice, and what it
keeps is not the value when both have finished. -/
theorem two_settings_diverge : ∃ tr s, (setMachine Bool connectTimeout 5000).Run tr s ∧
    s.Quiet ∧ ¬ s.Consistent connectTimeout 5000 () ∧ s.var.seen () = [(5000, 1000), (5000, 2000)] ∧
      s.var.cache () = 2000 ∧ s.var.val = 1000 := by
  obtain ⟨s, hrun, hs⟩ := Machine.Run.of_exec_any (registered_init 5000)
    [.callListeners true 1000, .callListeners false 2000, .store false, .store true]
    (fun s => decide (s.Quiet ∧ s.var.seen () = [(5000, 1000), (5000, 2000)] ∧
      s.var.cache () = 2000 ∧ s.var.val = 1000)) (by decide)
  obtain ⟨hquiet, hseen, hcache, hval⟩ := of_decide_eq_true hs
  refine ⟨_, s, hrun, hquiet, fun h => ?_, hseen, hcache, hval⟩
  have hcached := h.cached hquiet
  rw [hcache, hval] at hcached
  exact absurd hcached (by decide)

end Examples

end SharedVar

end Sylar.Config
