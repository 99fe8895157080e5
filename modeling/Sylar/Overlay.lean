import Mathlib.Data.List.Basic

/-! # Writing a range into a block of cells

`overlay xs off src n` is `xs` after the `n` cells from `off` on have been
written, cell `off + j` with `src j`: a `memcpy` of `n` cells into the block,
seen as a function of the whole block.  Cells outside the range keep their
value, and a range that leaves the block is cut off at its end.

The lemmas say how an overlay splits at the boundary of two consecutive blocks,
which is what a copy loop over a chain of blocks does piece by piece. -/
namespace Overlay
variable {α : Type}

/-- `xs` with the cells `[off, off + n)` replaced by `src 0, …, src (n - 1)`. -/
def overlay (xs : List α) (off : Nat) (src : Nat → α) (n : Nat) : List α :=
  xs.mapIdx fun i x => if off ≤ i ∧ i < off + n then src (i - off) else x

@[simp] theorem length_overlay (xs : List α) (off : Nat) (src : Nat → α) (n : Nat) :
    (overlay xs off src n).length = xs.length := by
  simp [overlay]

theorem getElem?_overlay (xs : List α) (off : Nat) (src : Nat → α) (n i : Nat) :
    (overlay xs off src n)[i]? =
      (xs[i]?).map fun x => if off ≤ i ∧ i < off + n then src (i - off) else x := by
  simp [overlay]

@[simp] theorem overlay_zero (xs : List α) (off : Nat) (src : Nat → α) :
    overlay xs off src 0 = xs := by
  refine List.ext_getElem? fun i => ?_
  have hno : ¬ (off ≤ i ∧ i < off + 0) := by omega
  rw [getElem?_overlay]
  simp only [hno, if_false, Option.map_id']

theorem overlay_congr {xs : List α} {off n : Nat} {src src' : Nat → α}
    (h : ∀ j < n, src j = src' j) : overlay xs off src n = overlay xs off src' n := by
  refine List.ext_getElem? fun i => ?_
  rw [getElem?_overlay, getElem?_overlay]
  refine congrArg (fun f => (xs[i]?).map f) (funext fun x => ?_)
  split
  · rename_i hi
    exact h (i - off) (by omega)
  · rfl

/-- Two overlays of one range inside the block agree only if their sources do. -/
theorem overlay_eq_iff {xs : List α} {off n : Nat} {src src' : Nat → α}
    (hin : off + n ≤ xs.length) :
    overlay xs off src n = overlay xs off src' n ↔ ∀ j < n, src j = src' j := by
  refine ⟨fun h j hj => ?_, overlay_congr⟩
  have hcell := congrArg (fun l => l[off + j]?) h
  have hlt : off + j < xs.length := by omega
  simp only [getElem?_overlay, List.getElem?_eq_getElem hlt, Option.map_some,
    Option.some.injEq] at hcell
  rw [if_pos (by omega), if_pos (by omega)] at hcell
  simpa using hcell

/-- Two ranges that meet are one range. -/
theorem overlay_overlay {xs : List α} {off m n : Nat} {src : Nat → α} :
    overlay (overlay xs off src m) (off + m) (fun j => src (m + j)) n =
      overlay xs off src (m + n) := by
  refine List.ext_getElem? fun i => ?_
  rw [getElem?_overlay, getElem?_overlay, getElem?_overlay, Option.map_map]
  refine congrArg (fun f => (xs[i]?).map f) (funext fun x => ?_)
  show (if off + m ≤ i ∧ i < off + m + n then src (m + (i - (off + m)))
    else if off ≤ i ∧ i < off + m then src (i - off) else x) = _
  by_cases hsecond : off + m ≤ i ∧ i < off + m + n
  · have hidx : m + (i - (off + m)) = i - off := by omega
    rw [if_pos hsecond, if_pos (by omega), hidx]
  · rw [if_neg hsecond]
    by_cases hfirst : off ≤ i ∧ i < off + m
    · rw [if_pos hfirst, if_pos (by omega)]
    · rw [if_neg hfirst, if_neg (by omega)]

/-- A range that ends inside the first of two blocks leaves the second alone. -/
theorem overlay_append_left {xs ys : List α} {off n : Nat} {src : Nat → α}
    (h : off + n ≤ xs.length) :
    overlay (xs ++ ys) off src n = overlay xs off src n ++ ys := by
  refine List.ext_getElem? fun i => ?_
  rw [getElem?_overlay]
  rcases Nat.lt_or_ge i xs.length with hi | hi
  · rw [List.getElem?_append_left hi, List.getElem?_append_left (by simpa using hi),
      getElem?_overlay]
  · rw [List.getElem?_append_right hi, List.getElem?_append_right (by simpa using hi),
      length_overlay]
    have hno : ¬ (off ≤ i ∧ i < off + n) := by omega
    simp [hno]

/-- A range that runs over the boundary of two blocks fills the first from `off`
on and goes on at the beginning of the second. -/
theorem overlay_append_right {xs ys : List α} {off n : Nat} {src : Nat → α}
    (hoff : off ≤ xs.length) (h : xs.length ≤ off + n) :
    overlay (xs ++ ys) off src n =
      overlay xs off src (xs.length - off) ++
        overlay ys 0 (fun j => src (xs.length - off + j)) (n - (xs.length - off)) := by
  refine List.ext_getElem? fun i => ?_
  rw [getElem?_overlay]
  rcases Nat.lt_or_ge i xs.length with hi | hi
  · rw [List.getElem?_append_left hi, List.getElem?_append_left (by simpa using hi),
      getElem?_overlay]
    refine congrArg (fun f => (xs[i]?).map f) (funext fun x => ?_)
    have hiff : (off ≤ i ∧ i < off + n) ↔ (off ≤ i ∧ i < off + (xs.length - off)) := by omega
    simp only [hiff]
  · rw [List.getElem?_append_right hi, List.getElem?_append_right (by simpa using hi),
      getElem?_overlay, length_overlay]
    refine congrArg (fun f => (ys[i - xs.length]?).map f) (funext fun x => ?_)
    have hiff : (off ≤ i ∧ i < off + n) ↔
        (0 ≤ i - xs.length ∧ i - xs.length < 0 + (n - (xs.length - off))) := by omega
    have hidx : i - off = xs.length - off + (i - xs.length - 0) := by omega
    simp only [hiff, hidx]

/-- A range that starts behind the first of two blocks leaves the first alone. -/
theorem overlay_append_behind {xs ys : List α} {off n : Nat} {src : Nat → α} :
    overlay (xs ++ ys) (xs.length + off) src n = xs ++ overlay ys off src n := by
  refine List.ext_getElem? fun i => ?_
  rw [getElem?_overlay]
  rcases Nat.lt_or_ge i xs.length with hi | hi
  · rw [List.getElem?_append_left hi, List.getElem?_append_left hi]
    have hno : ¬ (xs.length + off ≤ i ∧ i < xs.length + off + n) := by omega
    simp [hno]
  · rw [List.getElem?_append_right hi, List.getElem?_append_right hi, getElem?_overlay]
    refine congrArg (fun f => (ys[i - xs.length]?).map f) (funext fun x => ?_)
    have hiff : (xs.length + off ≤ i ∧ i < xs.length + off + n) ↔
        (off ≤ i - xs.length ∧ i - xs.length < off + n) := by omega
    have hidx : i - (xs.length + off) = i - xs.length - off := by omega
    simp only [hiff, hidx]

/-! ## Reading a range -/

/-- The `n` cells of the block from `off` on; less where the block ends. -/
def window (xs : List α) (off n : Nat) : List α := (xs.drop off).take n

@[simp] theorem window_zero (xs : List α) (off : Nat) : window xs off 0 = [] := rfl

theorem length_window (xs : List α) (off n : Nat) :
    (window xs off n).length = min n (xs.length - off) := by
  rw [window, List.length_take, List.length_drop]

theorem getElem?_window (xs : List α) (off n j : Nat) :
    (window xs off n)[j]? = if j < n then xs[off + j]? else none := by
  rw [window, List.getElem?_take, List.getElem?_drop]

/-- Two ranges are the same when their cells are. -/
theorem window_eq_iff {xs ys : List α} {off off' n : Nat} :
    window xs off n = window ys off' n ↔ ∀ j < n, xs[off + j]? = ys[off' + j]? := by
  constructor
  · intro h j hj
    have hcell := congrArg (fun l => l[j]?) h
    simp only [getElem?_window, if_pos hj] at hcell
    exact hcell
  · intro h
    refine List.ext_getElem? fun j => ?_
    rw [getElem?_window, getElem?_window]
    by_cases hj : j < n
    · rw [if_pos hj, if_pos hj, h j hj]
    · rw [if_neg hj, if_neg hj]

theorem take_window (xs : List α) {off m n : Nat} (h : m ≤ n) :
    (window xs off n).take m = window xs off m := by
  rw [window, List.take_take, Nat.min_eq_left h, window]

theorem drop_window (xs : List α) (off m n : Nat) :
    (window xs off n).drop m = window xs (off + m) (n - m) := by
  rw [window, window, List.drop_take, List.drop_drop]

/-- A range in the first block. -/
theorem window_append_left {xs ys : List α} {off n : Nat} (h : off + n ≤ xs.length) :
    window (xs ++ ys) off n = window xs off n := by
  rw [window, List.drop_append_of_le_length (by omega), List.take_append_of_le_length, window]
  rw [List.length_drop]
  omega

/-- A range over the boundary of two blocks. -/
theorem window_append_right {xs ys : List α} {off n : Nat} (hoff : off ≤ xs.length)
    (hn : xs.length - off ≤ n) :
    window (xs ++ ys) off n =
      window xs off (xs.length - off) ++ window ys 0 (n - (xs.length - off)) := by
  have hlen : (xs.drop off).length = xs.length - off := List.length_drop
  have hall : ∀ m, xs.length - off ≤ m → (xs.drop off).take m = xs.drop off :=
    fun m hm => List.take_of_length_le (by rw [hlen]; exact hm)
  rw [window, List.drop_append_of_le_length hoff, List.take_append, hlen, hall n hn, window,
    hall _ (Nat.le_refl _), window, List.drop_zero]

/-- A range behind the first block. -/
theorem window_append_behind {xs ys : List α} {off n : Nat} :
    window (xs ++ ys) (xs.length + off) n = window ys off n := by
  rw [window, List.drop_append, List.drop_of_length_le (by omega), List.nil_append,
    Nat.add_sub_cancel_left, window]

/-- Reading the range that was written. -/
theorem window_overlay {xs : List α} {off n : Nat} {src : Nat → α} (h : off + n ≤ xs.length) :
    window (overlay xs off src n) off n = (List.range n).map src := by
  refine List.ext_getElem? fun j => ?_
  rw [getElem?_window, List.getElem?_map]
  by_cases hj : j < n
  · have hcell : off + j < xs.length := by omega
    rw [if_pos hj, getElem?_overlay, List.getElem?_range hj, List.getElem?_eq_getElem hcell,
      Option.map_some, Option.map_some, if_pos (by omega), Nat.add_sub_cancel_left]
  · rw [if_neg hj, List.getElem?_eq_none (by rw [List.length_range]; omega), Option.map_none]

end Overlay
