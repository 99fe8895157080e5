import Mathlib.Data.List.Infix

/-! # Lines in front of a body

A head of lines, each ended by a pair of characters, then an empty line, then the rest.  Where
no line is empty or has the pair inside, there is one way only to take such a text apart
(`Framed.unique`): what a reader finds is what was written. -/
namespace Lines
variable {α : Type} (cr lf : α)

/-- The pair that ends a line is inside. -/
def Broken (l : List α) : Prop := [cr, lf] <:+: l

/-- The lines, each with its end. -/
def unlines (lines : List (List α)) : List α := lines.flatMap (· ++ [cr, lf])

@[simp] theorem unlines_nil : unlines cr lf [] = [] := rfl

@[simp] theorem unlines_cons (l : List α) (lines : List (List α)) :
    unlines cr lf (l :: lines) = l ++ cr :: lf :: unlines cr lf lines := by
  simp [unlines]

@[simp] theorem unlines_append (xs ys : List (List α)) :
    unlines cr lf (xs ++ ys) = unlines cr lf xs ++ unlines cr lf ys := by
  simp [unlines]

/-- The text is these lines, an empty one, and the rest. -/
structure Framed (text : List α) (lines : List (List α)) (rest : List α) : Prop where
  eq : text = unlines cr lf lines ++ cr :: lf :: rest
  plain : ∀ l ∈ lines, l ≠ [] ∧ ¬ Broken cr lf l

variable {cr lf}

theorem not_broken_nil : ¬ Broken cr lf [] := by
  intro h
  cases List.infix_nil.mp h

theorem not_broken_of_not_mem {l : List α} (h : cr ∉ l) : ¬ Broken cr lf l := by
  intro hin
  exact h (hin.subset (List.mem_cons_self ..))

theorem broken_append_of_not_mem {a b : List α} (h : cr ∉ a) :
    Broken cr lf (a ++ b) ↔ Broken cr lf b := by
  induction a with
  | nil => rfl
  | cons x a ih =>
    rw [List.mem_cons, not_or] at h
    rw [Broken, List.cons_append, List.infix_cons_iff, List.cons_prefix_cons]
    exact (or_iff_right fun hx => h.1 hx.1).trans (ih h.2)

/-- Where the second part does not begin in the middle of the pair. -/
theorem broken_append {a b : List α} (h : ∀ c, b.head? = some c → c ≠ lf) :
    Broken cr lf (a ++ b) ↔ Broken cr lf a ∨ Broken cr lf b := by
  induction a with
  | nil => exact (or_iff_right not_broken_nil).symm
  | cons x a ih =>
    rw [Broken, Broken, List.cons_append, List.infix_cons_iff, List.infix_cons_iff, or_assoc]
    refine or_congr ?_ ih
    rw [List.cons_prefix_cons, List.cons_prefix_cons]
    refine and_congr_right fun _ => ?_
    cases a with
    | nil =>
      cases b with
      | nil => rfl
      | cons y b =>
        have hy : lf ≠ y := (h y rfl).symm
        simp [hy]
    | cons y a => simp

/-- A line is the text up to the first pair. -/
theorem line_unique (hne : cr ≠ lf) {l l' x x' : List α} (hl : ¬ Broken cr lf l)
    (hl' : ¬ Broken cr lf l') (h : l ++ cr :: lf :: x = l' ++ cr :: lf :: x') :
    l = l' ∧ x = x' := by
  -- a line that is longer would have the pair inside
  have hshort : ∀ {m y y' : List α}, ¬ Broken cr lf m → cr :: lf :: y = m ++ cr :: lf :: y' →
      m = [] := by
    intro m y y' hm heq
    cases m with
    | nil => rfl
    | cons a m =>
      obtain ⟨ha, htail⟩ := List.cons.inj heq
      cases m with
      | nil => exact absurd (List.cons.inj htail).1.symm hne
      | cons b m =>
        have hb := (List.cons.inj htail).1
        exact absurd ⟨[], m, by rw [ha, hb]; rfl⟩ hm
  induction l generalizing l' with
  | nil =>
    obtain rfl := hshort hl' h
    exact ⟨rfl, (List.cons.inj (List.cons.inj h).2).2⟩
  | cons a l ih =>
    cases l' with
    | nil => cases hshort hl h.symm
    | cons b l' =>
      obtain ⟨rfl, htail⟩ := List.cons.inj h
      have hrest : ∀ {m : List α}, ¬ Broken cr lf (a :: m) → ¬ Broken cr lf m := fun hm hin =>
        hm (hin.trans (List.suffix_cons a _).isInfix)
      obtain ⟨rfl, hx⟩ := ih (hrest hl) (hrest hl') htail
      exact ⟨rfl, hx⟩

/-- **What is read is determined.** -/
theorem Framed.unique (hne : cr ≠ lf) {text : List α} {lines lines' : List (List α)}
    {rest rest' : List α} (h : Framed cr lf text lines rest)
    (h' : Framed cr lf text lines' rest') : lines = lines' ∧ rest = rest' := by
  have heq := h.eq.symm.trans h'.eq
  have hplain := h.plain
  have hplain' := h'.plain
  clear h h'
  induction lines generalizing lines' with
  | nil =>
    cases lines' with
    | nil => exact ⟨rfl, (List.cons.inj (List.cons.inj heq).2).2⟩
    | cons l' lines' =>
      obtain ⟨hl', hbroken'⟩ := hplain' l' (List.mem_cons_self ..)
      rw [unlines_cons, List.append_assoc] at heq
      exact absurd (line_unique hne (l := []) not_broken_nil hbroken' heq).1.symm hl'
  | cons l lines ih =>
    obtain ⟨hl, hbroken⟩ := hplain l (List.mem_cons_self ..)
    rw [unlines_cons, List.append_assoc] at heq
    cases lines' with
    | nil =>
      have hempty : l ++ cr :: lf :: (unlines cr lf lines ++ cr :: lf :: rest) =
          [] ++ cr :: lf :: rest' := heq
      exact absurd (line_unique hne hbroken not_broken_nil hempty).1 hl
    | cons l' lines' =>
      obtain ⟨-, hbroken'⟩ := hplain' l' (List.mem_cons_self ..)
      rw [unlines_cons, List.append_assoc] at heq
      obtain ⟨rfl, hrest⟩ := line_unique hne hbroken hbroken' heq
      obtain ⟨rfl, rfl⟩ := ih hrest (fun x hx => hplain x (List.mem_cons_of_mem _ hx))
        fun x hx => hplain' x (List.mem_cons_of_mem _ hx)
      exact ⟨rfl, rfl⟩

end Lines
