import Mathlib.Data.List.Basic

/-! # Streams that arrive in segments

A consumer takes a stream a segment at a time: `feed s x` is its state after segment `x`.
`feedAll` is its state after a list of segments.

A consumer may depend on where the stream is cut.  A **seam** says where it may be cut: it
is a condition on the state that the segments so far have led to, and on what is left of
the stream.  If a cut at a seam is not noticed (`Resumes`), then neither are any number of
them: segments that meet at seams are as good as the whole stream (`feedAll_flatten`), and
any two lists of them that make up the same stream lead to the same state
(`feedAll_eq_of_flatten`). -/
namespace Segments
variable {State α : Type} (feed : State → List α → State)

/-- The state after a list of segments. -/
def feedAll (s : State) (segments : List (List α)) : State := segments.foldl feed s

@[simp] theorem feedAll_nil (s : State) : feedAll feed s [] = s := rfl

@[simp] theorem feedAll_cons (s : State) (x : List α) (segments : List (List α)) :
    feedAll feed s (x :: segments) = feedAll feed (feed s x) segments := rfl

/-- The segments meet at seams: none is empty, and each but the last leads to a state in
which the stream that is left may be cut off. -/
def AtSeams (seam : State → List α → Prop) : State → List (List α) → Prop
  | _, [] => True
  | s, x :: segments =>
    x ≠ [] ∧ (segments ≠ [] → seam (feed s x) segments.flatten) ∧
      AtSeams seam (feed s x) segments

instance decidableAtSeams [DecidableEq α] (seam : State → List α → Prop)
    [∀ s rest, Decidable (seam s rest)] :
    (s : State) → (segments : List (List α)) → Decidable (AtSeams feed seam s segments)
  | _, [] => .isTrue trivial
  | s, x :: segments =>
    have := decidableAtSeams seam (feed s x) segments
    inferInstanceAs (Decidable (x ≠ [] ∧ (segments ≠ [] → seam (feed s x) segments.flatten) ∧
      AtSeams feed seam (feed s x) segments))

/-- A cut at a seam is not noticed, in the states that satisfy `inv`. -/
structure Resumes (inv : State → Prop) (seam : State → List α → Prop) : Prop where
  keeps : ∀ {s x}, inv s → x ≠ [] → inv (feed s x)
  resumes : ∀ {s x y}, inv s → x ≠ [] → y ≠ [] → seam (feed s x) y →
    feed s (x ++ y) = feed (feed s x) y

variable {feed} {inv : State → Prop} {seam : State → List α → Prop}

theorem AtSeams.flatten_ne_nil {s : State} {segments : List (List α)}
    (h : AtSeams feed seam s segments) (hne : segments ≠ []) : segments.flatten ≠ [] := by
  cases segments with
  | nil => exact absurd rfl hne
  | cons x segments =>
    intro hnil
    exact h.1 (List.append_eq_nil_iff.mp hnil).1

/-- **Segments that meet at seams lead where the whole stream leads.** -/
theorem Resumes.feedAll_flatten (hres : Resumes feed inv seam) {s : State}
    {segments : List (List α)} (hinv : inv s) (hne : segments ≠ [])
    (h : AtSeams feed seam s segments) : feedAll feed s segments = feed s segments.flatten := by
  induction segments generalizing s with
  | nil => exact absurd rfl hne
  | cons x segments ih =>
    obtain ⟨hx, hseam, hrest⟩ := h
    rcases eq_or_ne segments [] with rfl | hmore
    · simp
    · rw [feedAll_cons, ih (hres.keeps hinv hx) hmore hrest, List.flatten_cons]
      exact (hres.resumes hinv hx (hrest.flatten_ne_nil hmore) (hseam hmore)).symm

/-- Segments meet at seams if every prefix of them, as one segment, ends at a seam; this is for
seams that are still there in a shorter stream. -/
theorem Resumes.atSeams_of_prefixes (hres : Resumes feed inv seam)
    (hshorter : ∀ s x y, seam s (x ++ y) → seam s x) {s : State} {segments : List (List α)}
    (hinv : inv s) (hne : ∀ x ∈ segments, x ≠ [])
    (h : ∀ xs ys, segments = xs ++ ys → xs ≠ [] → ys ≠ [] →
      seam (feed s xs.flatten) ys.flatten) : AtSeams feed seam s segments := by
  induction segments generalizing s with
  | nil => exact trivial
  | cons x segments ih =>
    have hx : x ≠ [] := hne x (List.mem_cons_self ..)
    have hne' : ∀ y ∈ segments, y ≠ [] := fun y hy => hne y (List.mem_cons_of_mem _ hy)
    have hseam : segments ≠ [] → seam (feed s x) segments.flatten := by
      intro hmore
      have hfirst := h [x] segments rfl (List.cons_ne_nil x _) hmore
      rwa [List.flatten_singleton] at hfirst
    refine ⟨hx, hseam, ih (hres.keeps hinv hx) hne' fun xs ys heq hxs hys => ?_⟩
    have hmore : segments ≠ [] := by
      rw [heq]
      exact List.append_ne_nil_of_left_ne_nil hxs ys
    have hxs' : xs.flatten ≠ [] := by
      obtain ⟨y, zs, rfl⟩ := List.exists_cons_of_ne_nil hxs
      have hy : y ≠ [] := hne' y (by rw [heq]; exact List.mem_cons_self ..)
      exact List.append_ne_nil_of_left_ne_nil hy _
    have hcut := h (x :: xs) ys (by rw [heq]; rfl) (List.cons_ne_nil x _) hys
    have hfirst := hseam hmore
    rw [heq, List.flatten_append] at hfirst
    rwa [List.flatten_cons, hres.resumes hinv hx hxs' (hshorter _ _ _ hfirst)] at hcut

/-- The first of the segments meet at seams, too. -/
theorem AtSeams.left (hshorter : ∀ s x y, seam s (x ++ y) → seam s x) {s : State}
    {xs ys : List (List α)} (h : AtSeams feed seam s (xs ++ ys)) : AtSeams feed seam s xs := by
  induction xs generalizing s with
  | nil => exact trivial
  | cons x xs ih =>
    rw [List.cons_append] at h
    obtain ⟨hx, hseam, hrest⟩ := h
    refine ⟨hx, fun hmore => ?_, ih hrest⟩
    have hlong := hseam (List.append_ne_nil_of_left_ne_nil hmore ys)
    rw [List.flatten_append] at hlong
    exact hshorter _ _ _ hlong

/-- **Two lists of segments of one stream lead to the same state.** -/
theorem Resumes.feedAll_eq_of_flatten (hres : Resumes feed inv seam) {s : State}
    {xs ys : List (List α)} (hinv : inv s) (hxs : AtSeams feed seam s xs)
    (hys : AtSeams feed seam s ys) (heq : xs.flatten = ys.flatten) :
    feedAll feed s xs = feedAll feed s ys := by
  rcases eq_or_ne xs [] with rfl | hx
  · rcases eq_or_ne ys [] with rfl | hy
    · rfl
    · exact absurd heq.symm (hys.flatten_ne_nil hy)
  · rcases eq_or_ne ys [] with rfl | hy
    · exact absurd heq (hxs.flatten_ne_nil hx)
    · rw [hres.feedAll_flatten hinv hx hxs, hres.feedAll_flatten hinv hy hys, heq]

end Segments
