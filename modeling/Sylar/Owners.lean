import Mathlib.Data.Finset.Basic

/-! # One owner for each resource

A system hands out resources, and each process holds at most one.  `Exact` says that the
resources that were handed out are held, each by one process.  A resource comes in when a process
that holds none takes one that was not handed out (`Exact.take`), and goes when its holder gives
it back (`Exact.give`). -/
namespace Owners
variable {P R : Type} [DecidableEq P] [DecidableEq R]

/-- What was handed out is what is held, and nothing is held twice. -/
structure Exact (holds : P → Option R) (out : Finset R) : Prop where
  out_of_held : ∀ {p r}, holds p = some r → r ∈ out
  unique : ∀ {p q r}, holds p = some r → holds q = some r → p = q
  held_of_out : ∀ {r}, r ∈ out → ∃ p, holds p = some r

variable {holds : P → Option R} {out : Finset R} {p : P} {r : R}

omit [DecidableEq P] [DecidableEq R] in
theorem Exact.empty : Exact (fun _ : P => (none : Option R)) ∅ :=
  ⟨nofun, nofun, fun h => absurd h (Finset.notMem_empty _)⟩

omit [DecidableEq R] in
/-- A process goes on with what it holds. -/
theorem Exact.keep (h : Exact holds out) {x : Option R} (hx : holds p = x) :
    Exact (Function.update holds p x) out := by
  rw [← hx, Function.update_eq_self]
  exact h

theorem Exact.take (h : Exact holds out) (hp : holds p = none) (hr : r ∉ out) :
    Exact (Function.update holds p (some r)) (insert r out) := by
  have hold : ∀ {q x}, Function.update holds p (some r) q = some x →
      (q = p ∧ x = r) ∨ (q ≠ p ∧ holds q = some x) := by
    intro q x hq
    by_cases hqp : q = p
    · subst hqp
      rw [Function.update_self] at hq
      exact .inl ⟨rfl, (Option.some.inj hq).symm⟩
    · exact .inr ⟨hqp, by rwa [Function.update_of_ne hqp] at hq⟩
  constructor
  · intro q x hq
    rcases hold hq with ⟨-, rfl⟩ | ⟨-, hheld⟩
    · exact Finset.mem_insert_self ..
    · exact Finset.mem_insert_of_mem (h.out_of_held hheld)
  · intro q q' x hq hq'
    rcases hold hq with ⟨hqp, hx⟩ | ⟨-, hheld⟩
    · rcases hold hq' with ⟨hqp', -⟩ | ⟨-, hheld'⟩
      · rw [hqp, hqp']
      · exact absurd (h.out_of_held hheld') (by rwa [hx])
    · rcases hold hq' with ⟨-, hx⟩ | ⟨-, hheld'⟩
      · exact absurd (h.out_of_held hheld) (by rwa [hx])
      · exact h.unique hheld hheld'
  · intro x hx
    rcases Finset.mem_insert.mp hx with rfl | hx
    · exact ⟨p, Function.update_self ..⟩
    · obtain ⟨q, hq⟩ := h.held_of_out hx
      have hqp : q ≠ p := by
        rintro rfl
        rw [hp] at hq
        cases hq
      exact ⟨q, by rwa [Function.update_of_ne hqp]⟩

theorem Exact.give (h : Exact holds out) (hp : holds p = some r) :
    Exact (Function.update holds p none) (out.erase r) := by
  have hold : ∀ {q x}, Function.update holds p none q = some x → q ≠ p ∧ holds q = some x := by
    intro q x hq
    by_cases hqp : q = p
    · subst hqp
      rw [Function.update_self] at hq
      cases hq
    · exact ⟨hqp, by rwa [Function.update_of_ne hqp] at hq⟩
  constructor
  · intro q x hq
    obtain ⟨hqp, hq⟩ := hold hq
    refine Finset.mem_erase.mpr ⟨?_, h.out_of_held hq⟩
    rintro rfl
    exact hqp (h.unique hq hp)
  · intro q q' x hq hq'
    exact h.unique (hold hq).2 (hold hq').2
  · intro x hx
    obtain ⟨hne, hx⟩ := Finset.mem_erase.mp hx
    obtain ⟨q, hq⟩ := h.held_of_out hx
    have hqp : q ≠ p := by
      rintro rfl
      exact hne (Option.some.inj (hq.symm.trans hp))
    exact ⟨q, by rwa [Function.update_of_ne hqp]⟩

end Owners
