import Mathlib.Algebra.BigOperators.Group.Finset.Basic
import Mathlib.Algebra.BigOperators.Ring.Finset
import Mathlib.Data.Fintype.BigOperators
import Mathlib.Tactic.Abel

/-! # Interleavings of labelled steps

A `Machine` is a set of initial states and a partial step function: `step s a`
is `some t` when action `a` is enabled in `s` and leads to `t`.  Nondeterminism
— which thread moves, what the environment answers — is in the choice of the
action.  A **run** (`Machine.Run`) is recorded with its trace, the list of
`(state, action)` pairs it went through, so that a condition on the steps of a
run is a condition on the members of its trace.

The rules used by every development over a machine:

* `Run.invariant`: what holds initially and is kept by every step that meets a
  condition holds at the end of every run whose steps all meet it;
* `Run.invariant_visits`: it holds in every state that such a run visits;
* `Run.split`, `Run.mem_trace`: the states of a trace are reached by runs of their own;
* `Run.balance`: a quantity is the sum of what the steps of the run gained, less what
  they lost;
* `Run.of_exec`: an executable replay of a list of actions is a run.

The second part counts the processes whose local state satisfies a predicate
(`countOf`), for the counters that programs keep of their own threads. -/
namespace Interleaving

/-- A machine: initial states, and a partial step for every action. -/
structure Machine (State Action : Type) where
  /-- The initial states. -/
  init : State → Prop
  /-- The state an action leads to, `none` when it is not enabled. -/
  step : State → Action → Option State

namespace Machine
variable {State Action : Type} (M : Machine State Action)

/-- `M.Run tr s`: a run that started in an initial state, took the steps of
`tr` in order, and is now in `s`. -/
inductive Run : List (State × Action) → State → Prop
  | init {s : State} : M.init s → Run [] s
  | step {tr : List (State × Action)} {s t : State} {a : Action} :
      Run tr s → M.step s a = some t → Run (tr ++ [(s, a)]) t

/-- Some run ends in `s`. -/
def Reachable (s : State) : Prop := ∃ tr, M.Run tr s

variable {M}

/-- **The invariant rule, under a condition on the steps.** -/
theorem Run.invariant {I : State → Prop} (ok : State → Action → Prop)
    (hinit : ∀ s, M.init s → I s)
    (hstep : ∀ s a t, I s → ok s a → M.step s a = some t → I t)
    {tr : List (State × Action)} {s : State} (hrun : M.Run tr s)
    (hok : ∀ p ∈ tr, ok p.1 p.2) : I s := by
  induction hrun with
  | init h => exact hinit _ h
  | @step tr s t a _ hst ih =>
    have hprev : I s := ih fun p hp => hok p (List.mem_append_left _ hp)
    exact hstep s a t hprev (hok (s, a) (by simp)) hst

/-- The invariant rule, for every reachable state. -/
theorem Reachable.invariant {I : State → Prop} (hinit : ∀ s, M.init s → I s)
    (hstep : ∀ s a t, I s → M.step s a = some t → I t) {s : State}
    (hs : M.Reachable s) : I s := by
  obtain ⟨tr, hrun⟩ := hs
  exact hrun.invariant (fun _ _ => True) hinit
    (fun s a t hi _ h => hstep s a t hi h) (fun _ _ => trivial)

/-- A run up to one of its steps: what it did before is a run of its own, and the step
recorded there was enabled. -/
theorem Run.split {tr : List (State × Action)} {s : State} (hrun : M.Run tr s)
    {p : State × Action} (hp : p ∈ tr) :
    ∃ tr₁ tr₂, tr = tr₁ ++ p :: tr₂ ∧ M.Run tr₁ p.1 ∧ ∃ t, M.step p.1 p.2 = some t := by
  induction hrun with
  | init _ => cases hp
  | @step tr s t a hrun hst ih =>
    rcases List.mem_append.mp hp with hp | hp
    · obtain ⟨tr₁, tr₂, rfl, hrun₁, hen⟩ := ih hp
      exact ⟨tr₁, tr₂ ++ [(s, a)], by simp, hrun₁, hen⟩
    · rw [List.mem_singleton] at hp
      subst hp
      exact ⟨tr, [], rfl, hrun, t, hst⟩

/-- Every state a run went through is the end of a run whose trace is part of
the longer one, and the step recorded there was enabled. -/
theorem Run.mem_trace {tr : List (State × Action)} {s : State} (hrun : M.Run tr s)
    {p : State × Action} (hp : p ∈ tr) :
    ∃ tr₁, M.Run tr₁ p.1 ∧ (∀ q ∈ tr₁, q ∈ tr) ∧ ∃ t, M.step p.1 p.2 = some t := by
  obtain ⟨tr₁, tr₂, rfl, hrun₁, hen⟩ := hrun.split hp
  exact ⟨tr₁, hrun₁, fun q hq => List.mem_append_left _ hq, hen⟩

/-- What holds initially and is kept by the steps that meet a condition holds
in every state that a run of such steps went through. -/
theorem Run.invariant_mem {I : State → Prop} (ok : State → Action → Prop)
    (hinit : ∀ s, M.init s → I s)
    (hstep : ∀ s a t, I s → ok s a → M.step s a = some t → I t)
    {tr : List (State × Action)} {s : State} (hrun : M.Run tr s)
    (hok : ∀ p ∈ tr, ok p.1 p.2) {p : State × Action} (hp : p ∈ tr) : I p.1 := by
  obtain ⟨tr₁, hrun₁, hsub, -⟩ := hrun.mem_trace hp
  exact hrun₁.invariant ok hinit hstep fun q hq => hok q (hsub q hq)

/-- The states a run went through, the last one included. -/
def visits (tr : List (State × Action)) (s : State) : List State := tr.map Prod.fst ++ [s]

/-- What holds initially and is kept by the steps that meet a condition holds
in every state that a run of such steps visits. -/
theorem Run.invariant_visits {I : State → Prop} (ok : State → Action → Prop)
    (hinit : ∀ s, M.init s → I s)
    (hstep : ∀ s a t, I s → ok s a → M.step s a = some t → I t)
    {tr : List (State × Action)} {s : State} (hrun : M.Run tr s)
    (hok : ∀ p ∈ tr, ok p.1 p.2) : ∀ u ∈ visits tr s, I u := by
  intro u hu
  rcases List.mem_append.mp hu with hu | hu
  · obtain ⟨p, hp, rfl⟩ := List.mem_map.mp hu
    exact hrun.invariant_mem ok hinit hstep hok hp
  · rw [List.mem_singleton.mp hu]
    exact hrun.invariant ok hinit hstep hok

omit M in
theorem visits_snoc (tr : List (State × Action)) (s t : State) (a : Action) :
    visits (tr ++ [(s, a)]) t = visits tr s ++ [t] := by
  simp [visits]

/-- **Exact conditions.**  If a step from a good state leads to a good state
exactly when it meets the condition, then a run visits only good states exactly
when all its steps meet the condition. -/
theorem Run.invariant_iff {I : State → Prop} (ok : State → Action → Prop)
    (hinit : ∀ s, M.init s → I s)
    (hstep : ∀ s a t, I s → M.step s a = some t → (I t ↔ ok s a))
    {tr : List (State × Action)} {s : State} (hrun : M.Run tr s) :
    (∀ u ∈ visits tr s, I u) ↔ ∀ p ∈ tr, ok p.1 p.2 := by
  induction hrun with
  | @init s h => simpa [visits] using hinit s h
  | @step tr s t a _ hst ih =>
    rw [visits_snoc]
    constructor
    · intro hall p hp
      have hpre : ∀ u ∈ visits tr s, I u := fun u hu => hall u (List.mem_append_left _ hu)
      rcases List.mem_append.mp hp with hp | hp
      · exact ih.mp hpre p hp
      · rw [List.mem_singleton] at hp
        subst hp
        exact (hstep s a t (hpre s (by simp [visits])) hst).mp (hall t (by simp))
    · intro hall u hu
      have hpre := ih.mpr fun p hp => hall p (List.mem_append_left _ hp)
      rcases List.mem_append.mp hu with hu | hu
      · exact hpre u hu
      · rw [List.mem_singleton] at hu
        subst hu
        exact (hstep s a u (hpre s (by simp [visits])) hst).mpr (hall (s, a) (by simp))

/-- Exact conditions, for what an invariant gives: a run visits only states that are good
exactly when all its steps meet the condition, if from a state of the invariant such a step
leads to one of the invariant, and no other step leads to a good state. -/
theorem Run.visits_iff {I good : State → Prop} (ok : State → Action → Prop)
    (hinit : ∀ s, M.init s → I s) (hgood : ∀ s, I s → good s)
    (hkeep : ∀ s a t, I s → ok s a → M.step s a = some t → I t)
    (hbreak : ∀ s a t, I s → M.step s a = some t → good t → ok s a)
    {tr : List (State × Action)} {s : State} (hrun : M.Run tr s) :
    (∀ u ∈ visits tr s, good u) ↔ ∀ p ∈ tr, ok p.1 p.2 := by
  constructor
  · intro hall
    induction hrun with
    | init _ => intro p hp; cases hp
    | @step tr s t a hrun hst ih =>
      rw [visits_snoc] at hall
      have hpre := ih fun u hu => hall u (List.mem_append_left _ hu)
      have hs : I s := hrun.invariant ok hinit hkeep hpre
      intro p hp
      rcases List.mem_append.mp hp with hp | hp
      · exact hpre p hp
      · rw [List.mem_singleton.mp hp]
        exact hbreak s a t hs hst (hall t (by simp))
  · intro hok u hu
    exact hgood u (hrun.invariant_visits ok hinit hkeep hok u hu)

/-! ## Conserved quantities -/

/-- The sum over the steps of a trace. -/
def tally (gain : State → Action → Nat) (tr : List (State × Action)) : Nat :=
  (tr.map fun p => gain p.1 p.2).sum

@[simp]
theorem tally_nil (gain : State → Action → Nat) : tally gain [] = 0 := rfl

theorem tally_snoc (gain : State → Action → Nat) (tr : List (State × Action)) (s : State)
    (a : Action) : tally gain (tr ++ [(s, a)]) = tally gain tr + gain s a := by
  simp [tally]

/-- **The balance of a run**: a quantity that is zero at first, and that every step
changes by what it gains and what it loses, is what the run gained and did not lose. -/
theorem Run.balance (q : State → Nat) (gain loss : State → Action → Nat)
    (ok : State → Action → Prop) (hinit : ∀ s, M.init s → q s = 0)
    (hstep : ∀ tr s a t, M.Run tr s → (∀ p ∈ tr, ok p.1 p.2) → ok s a → M.step s a = some t →
      q t + loss s a = q s + gain s a)
    {tr : List (State × Action)} {s : State} (hrun : M.Run tr s)
    (hok : ∀ p ∈ tr, ok p.1 p.2) : q s + tally loss tr = tally gain tr := by
  induction hrun with
  | init h => simpa using hinit _ h
  | @step tr s t a hrun hst ih =>
    have hprev : ∀ p ∈ tr, ok p.1 p.2 := fun p hp => hok p (List.mem_append_left _ hp)
    have := hstep tr s a t hrun hprev (hok (s, a) (by simp)) hst
    have := ih hprev
    rw [tally_snoc, tally_snoc]
    omega

/-! ## Replaying a list of actions -/

variable (M)

/-- The state after a list of actions, if each is enabled in its turn. -/
def exec (s : State) : List Action → Option State
  | [] => some s
  | a :: as => (M.step s a).bind fun t => exec t as

/-- The trace of a replay. -/
def traceOf (s : State) : List Action → List (State × Action)
  | [] => []
  | a :: as => (s, a) :: ((M.step s a).map fun t => traceOf t as).getD []

variable {M}

theorem exec_cons {s t : State} {a : Action} (h : M.step s a = some t) (as : List Action) :
    M.exec s (a :: as) = M.exec t as := by
  rw [exec, h, Option.bind_some]

theorem Run.of_exec {tr : List (State × Action)} {s t : State} (hrun : M.Run tr s)
    {as : List Action} (h : M.exec s as = some t) : M.Run (tr ++ M.traceOf s as) t := by
  induction as generalizing tr s with
  | nil =>
    obtain rfl : s = t := by simpa [exec] using h
    simpa [traceOf] using hrun
  | cons a as ih =>
    obtain ⟨u, hu, hrest⟩ := Option.bind_eq_some_iff.mp h
    have := ih (hrun.step hu) hrest
    simpa [traceOf, hu] using this

/-- A replay from an initial state is a run. -/
theorem Run.of_exec_init {s t : State} (hs : M.init s) (as : List Action)
    (h : M.exec s as = some t) : M.Run (M.traceOf s as) t := by
  simpa using (Run.init hs).of_exec h

/-- A replay that ends in a state with a decidable property, as a run. -/
theorem Run.of_exec_any {s : State} (hs : M.init s) (as : List Action) (P : State → Bool)
    (h : (M.exec s as).any P = true) : ∃ t, M.Run (M.traceOf s as) t ∧ P t = true := by
  cases he : M.exec s as with
  | none => rw [he] at h; cases h
  | some t =>
    rw [he] at h
    exact ⟨t, Run.of_exec_init hs as he, by simpa using h⟩

end Machine

/-! ## Steps that may fail

A program that is a function into `Except` is a machine whose actions are
enabled when the function completes. -/

section Failing
variable {ε α β : Type}

/-- A bind that succeeds went through a success of its first part. -/
theorem bind_ok {x : Except ε α} {f : α → Except ε β} {b : β}
    (h : (x >>= f) = .ok b) : ∃ a, x = .ok a ∧ f a = .ok b := by
  cases x with
  | error e => cases h
  | ok a => exact ⟨a, rfl, h⟩

theorem map_ok {x : Except ε α} {f : α → β} {b : β}
    (h : x.map f = .ok b) : ∃ a, x = .ok a ∧ f a = b := by
  cases x with
  | error e => cases h
  | ok a => exact ⟨a, rfl, by simpa [Except.map] using h⟩

theorem toOption_eq_some {x : Except ε α} {a : α} : x.toOption = some a ↔ x = .ok a := by
  cases x <;> simp [Except.toOption]

/-- The machine of a failing step function. -/
def Machine.ofExcept {State Action : Type} (init : State → Prop)
    (step : State → Action → Except ε State) : Machine State Action where
  init := init
  step s a := (step s a).toOption

theorem Machine.ofExcept_step {State Action : Type} {init : State → Prop}
    {step : State → Action → Except ε State} {s t : State} {a : Action} :
    (Machine.ofExcept init step).step s a = some t ↔ step s a = .ok t :=
  toOption_eq_some

end Failing

/-! ## Counting processes -/

section Counting
variable {P : Type} [Fintype P] [DecidableEq P] {Local : Type}

/-- How many processes have a local state satisfying `p`. -/
def countOf (p : Local → Bool) (f : P → Local) : Nat :=
  ∑ w, (p (f w)).toNat

omit [DecidableEq P] in
theorem countOf_eq_zero {p : Local → Bool} {f : P → Local} :
    countOf p f = 0 ↔ ∀ w, p (f w) = false := by
  simp [countOf, Finset.sum_eq_zero_iff]

omit [DecidableEq P] in
theorem countOf_pos {p : Local → Bool} {f : P → Local} {w : P} (h : p (f w) = true) :
    0 < countOf p f :=
  Nat.pos_of_ne_zero fun h0 => by simp [countOf_eq_zero.mp h0 w] at h

/-- One process moves: a sum over the processes loses its old part and gains the new. -/
theorem sum_update {A : Type} [AddCommMonoid A] (q : Local → A) (f : P → Local) (w : P)
    (v : Local) : ∑ u, q (Function.update f w v u) + q (f w) = ∑ u, q (f u) + q v := by
  have key : ∀ g : P → Local, ∑ u, q (g u) = q (g w) + ∑ u ∈ Finset.univ.erase w, q (g u) :=
    fun g => (Finset.add_sum_erase _ (fun u => q (g u)) (Finset.mem_univ w)).symm
  have hrest : ∑ u ∈ Finset.univ.erase w, q (Function.update f w v u) =
      ∑ u ∈ Finset.univ.erase w, q (f u) := by
    refine Finset.sum_congr rfl fun u hu => ?_
    rw [Function.update_of_ne (Finset.ne_of_mem_erase hu)]
  rw [key (Function.update f w v), key f, hrest, Function.update_self]
  abel

/-- One process moves: the count loses the old local state and gains the new. -/
theorem countOf_update (p : Local → Bool) (f : P → Local) (w : P) (v : Local) :
    countOf p (Function.update f w v) + (p (f w)).toNat = countOf p f + (p v).toNat :=
  sum_update (fun l => (p l).toNat) f w v

end Counting
end Interleaving
