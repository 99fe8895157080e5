import Sylar.TimerExpiry

/-! # The callbacks of the expired timers

One call of `listExpiredCb` on a set that is not empty.  Where the split falls depends on the
address of the probe `now_timer` among the timers that are due right now, and the loop behind
`lower_bound` makes up for it: `Valid.listExpiredLocked_eq` has the section as a loop over
the timers that are due.

The loop re-inserts a timer that recurs while others are still to come.  These are out of the
set by then, so the loop does to each timer what its turn does (`expire_timer`), whatever the
others are, and a period of zero is no exception.  **`listExpiredCb_exact`** says what the
caller gets and what is left. -/
namespace Sylar

/-- A timer behind its turn. -/
def Timer.fired (now : Nat) (v : Timer) : Timer :=
  if v.recurring then { v with next := add64 now v.ms } else { v with cb := none }

namespace TimerManager
variable {m : TimerManager} {now : Nat}

/-- The turn of a timer changes its object and no other. -/
theorem expire_turn (m : TimerManager) (now : Nat) (e : TimerId) (l : List TimerId) :
    ∃ m₁ : TimerManager, m₁.timer = Function.update m.timer e ((m.timer e).fired now) ∧
      expire now m (e :: l) = ((expire now m₁ l).1, (m.timer e).cb :: (expire now m₁ l).2) := by
  rw [expire, Timer.fired]
  by_cases hrec : (m.timer e).recurring = true
  · rw [if_pos hrec, if_pos hrec]
    exact ⟨_, rfl, rfl⟩
  · rw [if_neg hrec, if_neg hrec]
    exact ⟨_, rfl, rfl⟩

/-- The callbacks, in the order of the loop. -/
theorem expire_cbs {l : List TimerId} (hnodup : l.Nodup) :
    (expire now m l).2 = l.map fun id => (m.timer id).cb := by
  induction l generalizing m with
  | nil => rfl
  | cons e l ih =>
    obtain ⟨he, hl⟩ := List.nodup_cons.mp hnodup
    obtain ⟨m₁, htimer, hexpire⟩ := expire_turn m now e l
    rw [hexpire, List.map_cons, ih hl, htimer]
    refine congrArg _ (List.map_congr_left fun id hid => ?_)
    have hne : id ≠ e := fun heq => he (heq ▸ hid)
    rw [Function.update_of_ne hne]

/-- **Each timer of the loop has its turn, and no other object changes.** -/
theorem expire_timer {l : List TimerId} (hnodup : l.Nodup) (x : TimerId) :
    (expire now m l).1.timer x = if x ∈ l then (m.timer x).fired now else m.timer x := by
  induction l generalizing m with
  | nil => rfl
  | cons e l ih =>
    obtain ⟨he, hl⟩ := List.nodup_cons.mp hnodup
    obtain ⟨m₁, htimer, hexpire⟩ := expire_turn m now e l
    rw [hexpire, ih hl, htimer]
    by_cases hx : x = e
    · rw [hx, if_neg he, if_pos (List.mem_cons_self ..), Function.update_self]
    · rw [Function.update_of_ne hx]
      simp only [List.mem_cons, hx, false_or]

/-- **What `listExpiredCb` does**, on every set that is not empty, at every time, and whatever
the addresses are.  The callbacks are those of the timers that are due, one for each, in the
order of their deadlines; of these a timer that recurs is in the set once, with a new
deadline, and the others are out of it, without a callback; nothing else is touched. -/
theorem listExpiredCb_exact (h : m.Valid) (hne : m.timers ≠ []) (now : Nat) (addr : TimerId) :
    ∃ (m' : TimerManager) (cbs : List (Option CallbackId)) (due : List TimerId),
      m.listExpiredCb now addr = some (m', cbs) ∧
      due.Nodup ∧ (∀ id, id ∈ due ↔ id ∈ m.timers ∧ m.Due now id) ∧
      due.Pairwise (fun a b => (m.timer a).next ≤ (m.timer b).next) ∧
      cbs = due.map (fun id => (m.timer id).cb) ∧
      (∀ id ∈ due,
        if (m.timer id).recurring then
          m'.timers.count id = 1 ∧
            m'.timer id = { m.timer id with next := add64 now (m.timer id).ms }
        else id ∉ m'.timers ∧ m'.timer id = { m.timer id with cb := none }) ∧
      ∀ id, id ∉ due → (id ∈ m'.timers ↔ id ∈ m.timers) ∧ m'.timer id = m.timer id := by
  have hhas : m.hasTimer = true := by
    rw [hasTimer, Bool.not_eq_true']
    exact List.isEmpty_eq_false_iff.mpr hne
  obtain ⟨⟨m', cbs⟩, hrun⟩ :=
    Option.isSome_iff_exists.mp (listExpiredLocked_isSome hhas now addr)
  have heq := h.listExpiredLocked_eq hrun
  have hmem := fun x => (@Valid.mem_listExpiredLocked m m' x now addr h cbs hrun).1
  have hnodup' := (h.listExpiredLocked hrun).ordered.nodup
  have hdue : ∀ id, id ∈ m.timers.filter (fun x => decide (m.Due now x)) ↔
      id ∈ m.timers ∧ m.Due now id := by
    intro id
    rw [List.mem_filter, decide_eq_true_iff]
  have hord := h.ordered.sublist
    (List.filter_sublist (p := fun x => decide (m.Due now x)) (l := m.timers))
  generalize m.timers.filter (fun x => decide (m.Due now x)) = due at heq hdue hord
  have htimer := fun x => @expire_timer
    { m with
      previouseTime := now
      timers := m.timers.filter fun x => !decide (m.Due now x) } now due hord.nodup x
  have hcbs := @expire_cbs
    { m with
      previouseTime := now
      timers := m.timers.filter fun x => !decide (m.Due now x) } now due hord.nodup
  rw [← heq] at htimer hcbs
  refine ⟨m', cbs, due, ?_, hord.nodup, hdue, ?_, hcbs, fun id hid => ?_, fun id hid => ?_⟩
  · rw [listExpiredCb, if_pos hhas, hrun]
  · exact hord.imp fun hlt => next_le_of_key_le (le_of_lt hlt)
  · have hfired : m'.timer id = (m.timer id).fired now := (htimer id).trans (if_pos hid)
    obtain ⟨hin, hnow⟩ := (hdue id).mp hid
    rw [hfired, Timer.fired]
    by_cases hrec : (m.timer id).recurring = true
    · rw [if_pos hrec, if_pos hrec]
      exact ⟨List.count_eq_one_of_mem hnodup' ((hmem id).mpr ⟨hin, fun _ => hrec⟩), rfl⟩
    · rw [if_neg hrec, if_neg hrec]
      exact ⟨fun hin' => hrec (((hmem id).mp hin').2 hnow), rfl⟩
  · refine ⟨?_, (htimer id).trans (if_neg hid)⟩
    rw [hmem id]
    exact and_iff_left_of_imp fun hin hnow => absurd ((hdue id).mpr ⟨hin, hnow⟩) hid

/-- Three timers, two of them at one deadline, with a free address between theirs. -/
def three : TimerManager :=
  { timers := [3, 6, 5]
    timer := fun id =>
      if id = 5 then ⟨false, 90, 1090, some 9⟩ else ⟨id == 3, 50, 1050, some (id + 4)⟩
    allocated := fun id => id == 3 || id == 5 || id == 6
    tickled := false
    previouseTime := 1000 }

theorem three_valid : three.Valid where
  ordered := by
    rw [OrderedSet.Ordered]
    simp only [three, key, Prod.Lex.toLex_lt_toLex, List.pairwise_cons]
    simp
  allocated := by decide

theorem listExpiredCb_exact_three :
    ∃ (m' : TimerManager) (cbs : List (Option CallbackId)) (due : List TimerId),
      three.allocated 4 = false ∧ three.listExpiredCb 1050 4 = some (m', cbs) ∧
      (∀ id, id ∈ due ↔ id ∈ three.timers ∧ three.Due 1050 id) ∧
      cbs = due.map (fun id => (three.timer id).cb) := by
  obtain ⟨m', cbs, due, hrun, -, hdue, -, hcbs, -⟩ :=
    listExpiredCb_exact three_valid (by decide) 1050 4
  exact ⟨m', cbs, due, rfl, hrun, hdue, hcbs⟩

end TimerManager
end Sylar
