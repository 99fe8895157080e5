import Sylar.SocketStream

/-! # `readFixSize` and `writeFixSize`

`stream.cpp` has the loop four times: to read and to write, on a buffer and on a byte array.
The forms differ in where the next bytes are.  A form on a buffer counts an `offset`; on a byte
array the call itself moves the position, over what it transferred.  `Place` has the one or
the other, and in it the pairs of a place and a length that were passed on, and the places
that were transferred.

The results of the calls are a sequence that does not end, so that what the loop does not do
in time it does not do at all.

A result of -1 is a `size_t` in the loop.  It is not `<= 0` there, and the loop goes on, one
place back.  **`fixSize_iff`** says for which lengths and results the loop does what it is for
(`Meets`). -/
namespace Sylar
open Interleaving

namespace Stream

/-- Where the loop is: the place of the next call, the calls so far, and the places of the
bytes that were transferred. -/
structure Place where
  offset : Nat
  calls : List (Nat × Nat)
  moved : List Nat
  deriving DecidableEq, Repr

/-- A call that returns `ret`, and has transferred as many bytes if it is positive. -/
def transfer (advance : Nat → Int → Nat) (p : Place) (left : Nat) (ret : Int) :
    Except Fault (Int × Place) :=
  .ok (ret, {
    offset := advance p.offset ret
    calls := p.calls ++ [(p.offset, left)]
    moved := p.moved ++ List.range' p.offset ret.toNat })

/-- `offset += len`.  Where the loop returns instead, `len` is zero. -/
def bufferAdvance (offset : Nat) (ret : Int) : Nat := (offset + sizeOf ret) % 2 ^ 64

/-- The position of a byte array, behind a call that transferred `ret` bytes or none. -/
def positionAdvance (position : Nat) (ret : Int) : Nat := position + ret.toNat

section Forms
variable (length : Nat) (results : List Int)

/-- `readFixSize( buffer, length )` -/
def readFixSizeBuffer : Except Fault (Transfer Place) :=
  loop (transfer bufferAdvance) length { offset := 0, calls := [], moved := [] } results

/-- `writeFixSize( buffer, length )` -/
def writeFixSizeBuffer : Except Fault (Transfer Place) :=
  loop (transfer bufferAdvance) length { offset := 0, calls := [], moved := [] } results

/-- `readFixSize( ba, length )` -/
def readFixSize (position : Nat) : Except Fault (Transfer Place) :=
  loop (transfer positionAdvance) length { offset := position, calls := [], moved := [] } results

/-- `writeFixSize( ba, length )` -/
def writeFixSize (position : Nat) : Except Fault (Transfer Place) :=
  loop (transfer positionAdvance) length { offset := position, calls := [], moved := [] } results

end Forms

/-- The four of them; those on a byte array start at its position. -/
inductive FixSize
  | readBuffer | writeBuffer
  | readByteArray (position : Nat) | writeByteArray (position : Nat)
  deriving DecidableEq, Repr

namespace FixSize

def start : FixSize → Nat
  | readBuffer | writeBuffer => 0
  | readByteArray position | writeByteArray position => position

def advance : FixSize → Nat → Int → Nat
  | readBuffer | writeBuffer => bufferAdvance
  | readByteArray _ | writeByteArray _ => positionAdvance

def loop (length : Nat) (results : List Int) : FixSize → Except Fault (Transfer Place)
  | readBuffer => readFixSizeBuffer length results
  | writeBuffer => writeFixSizeBuffer length results
  | readByteArray position => readFixSize length results position
  | writeByteArray position => writeFixSize length results position

theorem loop_eq (f : FixSize) (length : Nat) (results : List Int) :
    f.loop length results = Stream.loop (transfer f.advance) length
      { offset := f.start, calls := [], moved := [] } results := by
  cases f <;> rfl

variable (f : FixSize) (length : Nat) (results : Nat → Int)

/-- The loop behind its first `n` turns. -/
def run (n : Nat) : Except Fault (Transfer Place) := f.loop length ((List.range n).map results)

/-- The bytes that the first `k` results count. -/
def total (results : Nat → Int) : Nat → Nat
  | 0 => 0
  | k + 1 => total results k + (results k).toNat

/-- Each call returns an `int`: 0, -1, or a number of bytes up to what it was asked for. -/
def Answers : Prop :=
  ∀ n t, f.run length results n = .ok t → t.ret = none →
    results n = 0 ∨ results n = -1 ∨ (0 < results n ∧ results n ≤ t.left ∧ results n < 2 ^ 31)

/-- What the loop is for.  It returns the length exactly if so many bytes are counted, and else
a result that is not positive; such a result is the last one and is returned.  Every call is
inside the range, and what is transferred is the beginning of the range, in order. -/
structure Transferred (t : Transfer Place) (value : Int) : Prop where
  full : value = length ↔ total results t.state.calls.length = length
  short : value ≠ length → ∃ k < t.state.calls.length, results k ≤ 0
  stops : ∀ k < t.state.calls.length, results k ≤ 0 →
    k + 1 = t.state.calls.length ∧ value = results k
  inside : ∀ c ∈ t.state.calls, f.start ≤ c.1 ∧ c.1 + c.2 ≤ f.start + length
  moved : t.state.moved = List.range' f.start (total results t.state.calls.length)

/-- The loop ends, and has done what it is for. -/
def Meets : Prop :=
  ∃ n t value, f.run length results n = .ok t ∧ t.ret = some value ∧
    f.Transferred length results t value

/-- The first result that is not positive, if it comes before all bytes are counted, is not -1;
and if all bytes are counted, an `int` can say so.  The exception is the largest `size_t`,
where -1 as the first result is as good as all bytes. -/
def StopsWell : Prop :=
  (∀ k, (∀ j < k, 0 < results j) → total results k < length → results k = -1 →
    k = 0 ∧ length = 2 ^ 64 - 1) ∧
  ∀ k, (∀ j < k, 0 < results j) → total results k = length → length < 2 ^ 31

/-! ## Turns -/

section Turns
variable {f length results} {n k : Nat} {t u : Transfer Place} {value : Int}

theorem run_succ (h : f.run length results n = .ok t) :
    f.run length results (n + 1) = turn (transfer f.advance) length t (results n) := by
  rw [run, loop_eq] at h ⊢
  rw [List.range_succ, List.map_append, List.map_singleton]
  exact loop_snoc h _

/-- A turn that is not behind the end has one more call. -/
theorem turn_calls {ret : Int} (h : turn (transfer f.advance) length t ret = .ok u) :
    t.state.calls.length ≤ u.state.calls.length ∧
      (t.ret = none → u.state.calls.length = t.state.calls.length + 1) := by
  rcases hret : t.ret with _ | value
  · have hcall : u.state.calls = t.state.calls ++ [(t.state.offset, t.left)] := by
      rw [turn, hret] at h
      simp only [transfer, bind, Except.bind, pure, Except.pure] at h
      split at h
      · obtain rfl := Except.ok.inj h
        rfl
      · obtain rfl := Except.ok.inj h
        rfl
    rw [hcall, List.length_append]
    exact ⟨Nat.le_add_right _ _, fun _ => rfl⟩
  · rw [turn_returned hret] at h
    obtain rfl := Except.ok.inj h
    exact ⟨Nat.le_refl _, fun h => absurd h (Option.some_ne_none value)⟩

theorem run_ok (n : Nat) : ∃ t, f.run length results n = .ok t := by
  induction n with
  | zero =>
    rw [run, loop_eq]
    exact ⟨_, rfl⟩
  | succ n ih =>
    obtain ⟨t, ht⟩ := ih
    rw [run_succ ht]
    rcases hret : t.ret with _ | value
    · rw [turn, hret]
      simp only [transfer, bind, Except.bind, pure, Except.pure]
      split
      · exact ⟨_, rfl⟩
      · exact ⟨_, rfl⟩
    · exact ⟨t, turn_returned hret _⟩

/-- Behind the end nothing changes. -/
theorem run_returned (h : f.run length results n = .ok t) (hret : t.ret = some value)
    (hle : n ≤ k) : f.run length results k = .ok t := by
  induction k, hle using Nat.le_induction with
  | base => exact h
  | succ k _ ih => rw [run_succ ih, turn_returned hret]

theorem run_calls_le (h : f.run length results n = .ok t) (hle : n ≤ k)
    (hu : f.run length results k = .ok u) : t.state.calls.length ≤ u.state.calls.length := by
  induction k, hle using Nat.le_induction generalizing u with
  | base =>
    obtain rfl := Except.ok.inj (h.symm.trans hu)
    exact Nat.le_refl _
  | succ k _ ih =>
    obtain ⟨v, hv⟩ := @run_ok f length results k
    rw [run_succ hv] at hu
    exact Nat.le_trans (ih hv) (turn_calls hu).1

/-- The end is the same wherever one looks. -/
theorem run_unique {value' : Int} (h : f.run length results n = .ok t) (hret : t.ret = some value)
    (hu : f.run length results k = .ok u) (hret' : u.ret = some value') : t = u := by
  rcases Nat.le_total n k with hle | hle
  · exact Except.ok.inj ((run_returned h hret hle).symm.trans hu)
  · exact Except.ok.inj (h.symm.trans (run_returned hu hret' hle))

end Turns

/-! ## As long as the results are positive -/

section Positive
variable {f length results} {k : Nat} (hlength : length < 2 ^ 64)

/-- The loop behind `k` results that are positive. -/
def behind (f : FixSize) (length : Nat) (results : Nat → Int) (k : Nat) : Transfer Place where
  state := {
    offset := f.start + total results k
    calls := (List.range k).map fun i => (f.start + total results i, length - total results i)
    moved := List.range' f.start (total results k) }
  left := length - total results k
  ret := if length - total results k = 0 then some (intOf length) else none

theorem total_mono {m n : Nat} (h : m ≤ n) : total results m ≤ total results n := by
  induction n, h using Nat.le_induction with
  | base => exact Nat.le_refl _
  | succ n _ ih => exact Nat.le_trans ih (Nat.le_add_right ..)

theorem total_lt {m n : Nat} (hpos : ∀ j < n, 0 < results j) (h : m < n) :
    total results m < total results n := by
  have hm := hpos m h
  have hmono : total results (m + 1) ≤ total results n := total_mono h
  rw [total] at hmono
  omega

include hlength

/-- The place moves over the bytes, and does not wrap. -/
theorem advance_eq {m : Nat} {ret : Int} (hret : 0 < ret) (hfit : m + ret.toNat ≤ length) :
    f.advance (f.start + m) ret = f.start + (m + ret.toNat) := by
  have hbuffer : bufferAdvance (0 + m) ret = 0 + (m + ret.toNat) := by
    rw [bufferAdvance, sizeOf]
    omega
  have hposition : ∀ p, positionAdvance (p + m) ret = p + (m + ret.toNat) :=
    fun p => Nat.add_assoc ..
  cases f with
  | readBuffer | writeBuffer => exact hbuffer
  | readByteArray p | writeByteArray p => exact hposition p

theorem run_positive (hpos : ∀ j < k, 0 < results j) (hle : total results k ≤ length) :
    f.run length results k = .ok (f.behind length results k) := by
  induction k with
  | zero =>
    rw [run, loop_eq]
    rfl
  | succ k ih =>
    have hk := hpos k (Nat.lt_succ_self k)
    have hprefix : ∀ j < k, 0 < results j := fun j hj => hpos j (Nat.lt_succ_of_lt hj)
    rw [total] at hle
    have hrun := ih hprefix (by omega)
    have hcall : (results k : Int) = ((results k).toNat : Int) := by omega
    have hret : (f.behind length results k).ret = none := if_neg (by omega)
    rw [run_succ hrun, turn_moves hret (by show length - _ < _; omega)
      (by omega : 1 ≤ (results k).toNat) (by show _ ≤ length - _; omega)
      (by rw [transfer, ← hcall])]
    have hadvance : f.advance (f.start + total results k) (results k) =
        f.start + total results (k + 1) := advance_eq hlength hk hle
    have hleft : length - total results k - (results k).toNat =
        length - total results (k + 1) := by
      rw [total]
      omega
    have hmoved : List.range' f.start (total results k) ++
        List.range' (f.start + total results k) (results k).toNat =
          List.range' f.start (total results (k + 1)) := by
      rw [total, ← List.range'_append, Nat.one_mul]
    have hcalls : ((List.range k).map fun i =>
        (f.start + total results i, length - total results i)) ++
          [(f.start + total results k, length - total results k)] =
        (List.range (k + 1)).map fun i =>
          (f.start + total results i, length - total results i) := by
      rw [List.range_succ, List.map_append, List.map_singleton]
    simp only [behind, hadvance, hleft, hmoved, hcalls]

/-- All bytes are counted, or a result is not positive. -/
theorem exists_stop (hres : f.Answers length results) :
    ∃ k, (∀ j < k, 0 < results j) ∧ total results k ≤ length ∧
      (total results k = length ∨
        total results k < length ∧ (results k = 0 ∨ results k = -1)) := by
  by_contra hnone
  have hlive : ∀ n, (∀ j < n, 0 < results j) ∧ total results n < length ∧
      n ≤ total results n := by
    intro n
    induction n with
    | zero =>
      refine ⟨nofun, ?_, Nat.le_refl 0⟩
      by_contra hzero
      have hzero : length = 0 := Nat.eq_zero_of_le_zero (Nat.not_lt.mp hzero)
      exact hnone ⟨0, nofun, Nat.zero_le _, Or.inl hzero.symm⟩
    | succ n ih =>
      obtain ⟨hpos, hlt, hn⟩ := ih
      have hrun := @run_positive f length results n hlength hpos (Nat.le_of_lt hlt)
      have hret : (f.behind length results n).ret = none := if_neg (by omega)
      rcases hres n _ hrun hret with hstop | hstop | ⟨hnpos, hle, -⟩
      · exact absurd ⟨n, hpos, Nat.le_of_lt hlt, Or.inr ⟨hlt, Or.inl hstop⟩⟩ hnone
      · exact absurd ⟨n, hpos, Nat.le_of_lt hlt, Or.inr ⟨hlt, Or.inr hstop⟩⟩ hnone
      · have hle : results n ≤ ((length - total results n : Nat) : Int) := hle
        have hnext : ∀ j < n + 1, 0 < results j := by
          intro j hj
          rcases Nat.lt_succ_iff_lt_or_eq.mp hj with hj | rfl
          · exact hpos j hj
          · exact hnpos
        have htotal : total results (n + 1) = total results n + (results n).toNat := rfl
        refine ⟨hnext, ?_, by omega⟩
        by_contra hfull
        exact hnone ⟨n + 1, hnext, by omega, Or.inl (by omega)⟩
  have := hlive length
  omega

/-- The calls behind `k` positive results are inside the range. -/
theorem behind_inside (hle : total results k ≤ length) :
    ∀ c ∈ (f.behind length results k).state.calls,
      f.start ≤ c.1 ∧ c.1 + c.2 ≤ f.start + length := by
  intro c hc
  obtain ⟨i, hi, rfl⟩ := List.mem_map.mp hc
  have hmono : total results i ≤ total results k :=
    total_mono (Nat.le_of_lt (List.mem_range.mp hi))
  show f.start ≤ f.start + total results i ∧
    f.start + total results i + (length - total results i) ≤ f.start + length
  omega

end Positive

/-! ## The three ends -/

section Ends
variable {f length results} {k : Nat} (hlength : length < 2 ^ 64)
variable (hpos : ∀ j < k, 0 < results j)

theorem intOf_eq_iff {n : Nat} : intOf n = n ↔ n < 2 ^ 31 := by
  constructor
  · intro h
    have hlt : intOf n < ((2 ^ 32 : Nat) + 1) / 2 := Int.bmod_lt (Nat.two_pow_pos 32)
    omega
  · intro h
    exact Int.bmod_eq_of_le (by omega) (by omega)

/-- No result before `results i` is not positive. -/
theorem le_of_stop {i : Nat} (hi : ∀ j < i, 0 < results j) (hstop : results k ≤ 0) : i ≤ k := by
  by_contra hlt
  have := hi k (Nat.not_le.mp hlt)
  omega

include hpos hlength

/-- All bytes are counted. -/
theorem meets_full (hfull : total results k = length) :
    f.Meets length results ↔ StopsWell length results := by
  have hle : total results k ≤ length := Nat.le_of_eq hfull
  have hrun := @run_positive f length results k hlength hpos hle
  have hret : (f.behind length results k).ret = some (intOf length) := if_pos (by omega)
  have hcalls : (f.behind length results k).state.calls.length = k := by simp [behind]
  have hwell : StopsWell length results ↔ length < 2 ^ 31 := by
    refine ⟨fun h => h.2 k hpos hfull, fun h => ⟨fun i hi hlt hstop => ?_, fun _ _ _ => h⟩⟩
    rcases Nat.lt_or_ge i k with hik | hki
    · have := hpos i hik
      omega
    · have hmono : total results k ≤ total results i := total_mono hki
      omega
  rw [hwell, ← intOf_eq_iff]
  constructor
  · rintro ⟨n, t, value, ht, hvalue, hdone⟩
    obtain rfl := run_unique hrun hret ht hvalue
    obtain rfl := Option.some.inj (hret.symm.trans hvalue)
    refine hdone.full.mpr ?_
    rw [hcalls, hfull]
  · intro hvalue
    refine ⟨k, _, _, hrun, hret, ?_, fun hne => absurd hvalue hne, ?_,
      behind_inside hlength hle, ?_⟩
    · rw [hcalls]
      exact iff_of_true hvalue hfull
    · intro i hi hstop
      rw [hcalls] at hi
      have := hpos i hi
      omega
    · rw [hcalls]
      rfl

/-- The loop behind one more call, whose result is not positive. -/
def stopped (f : FixSize) (length : Nat) (results : Nat → Int) (k left : Nat)
    (ret : Option Int) : Transfer Place where
  state := {
    offset := f.advance (f.start + total results k) (results k)
    calls := (f.behind length results k).state.calls ++
      [(f.start + total results k, length - total results k)]
    moved := List.range' f.start (total results k) }
  left := left
  ret := ret

omit hlength hpos in
theorem length_stopped (left : Nat) (ret : Option Int) :
    (f.stopped length results k left ret).state.calls.length = k + 1 := by
  simp [stopped, behind]

/-- To return it there is what the loop is for. -/
theorem transferred_stopped (hshort : total results k < length) (hstop : results k ≤ 0)
    (left : Nat) (ret : Option Int) :
    f.Transferred length results (f.stopped length results k left ret) (results k) := by
  have htotal : total results (k + 1) = total results k := by
    rw [total]
    omega
  refine ⟨?_, fun _ => ?_, fun i hi hi0 => ?_, ?_, ?_⟩
  · rw [length_stopped, htotal]
    exact iff_of_false (by omega) (by omega)
  · rw [length_stopped]
    exact ⟨k, Nat.lt_succ_self k, hstop⟩
  · rw [length_stopped] at hi ⊢
    have hki : k ≤ i := by
      by_contra hlt
      have := hpos i (Nat.not_le.mp hlt)
      omega
    obtain rfl : i = k := by omega
    exact ⟨rfl, rfl⟩
  · intro c hc
    rcases List.mem_append.mp hc with hc | hc
    · exact behind_inside hlength (Nat.le_of_lt hshort) c hc
    · obtain rfl := List.mem_singleton.mp hc
      show f.start ≤ f.start + total results k ∧
        f.start + total results k + (length - total results k) ≤ f.start + length
      omega
  · rw [length_stopped, htotal]
    rfl

omit hlength in
/-- Where a result that is not positive comes before all bytes are counted, only the first one
matters. -/
theorem stopsWell_iff (hshort : total results k < length) (hstop : results k ≤ 0) :
    StopsWell length results ↔ (results k = -1 → k = 0 ∧ length = 2 ^ 64 - 1) := by
  constructor
  · exact fun h => h.1 k hpos hshort
  · intro h
    refine ⟨fun i hi hlt herror => ?_, fun i hi hfull => ?_⟩
    · have hik := le_of_stop hi hstop
      have hki := le_of_stop hpos (by omega : results i ≤ 0)
      obtain rfl : i = k := Nat.le_antisymm hik hki
      exact h herror
    · have hik : total results i ≤ total results k := total_mono (le_of_stop hi hstop)
      omega

/-- The first result that is not positive is zero. -/
theorem meets_zero (hshort : total results k < length) (hzero : results k = 0) :
    f.Meets length results ↔ StopsWell length results := by
  have hrun := @run_positive f length results k hlength hpos (Nat.le_of_lt hshort)
  have hret : (f.behind length results k).ret = none := if_neg (by omega)
  have hsize : sizeOf (results k) = 0 := by rw [hzero]; rfl
  have hvalue : intOf 0 = results k := by rw [hzero]; rfl
  have hnone : List.range' (f.start + total results k) (results k).toNat = [] := by
    rw [hzero]
    rfl
  have hnext : f.run length results (k + 1) =
      .ok (f.stopped length results k (length - total results k) (some (results k))) := by
    rw [run_succ hrun, turn, hret]
    simp only [transfer, bind, Except.bind, pure, Except.pure, hsize, if_true, hnone, behind,
      List.append_nil, stopped, hvalue]
  refine iff_of_true ⟨k + 1, _, _, hnext, rfl, ?_⟩ ?_
  · exact transferred_stopped hlength hpos hshort (Int.le_of_eq hzero) _ _
  · rw [stopsWell_iff hpos hshort (Int.le_of_eq hzero), hzero]
    intro herror
    omega

/-- It is -1. -/
theorem meets_error (hshort : total results k < length) (herror : results k = -1) :
    f.Meets length results ↔ StopsWell length results := by
  have hstop : results k ≤ 0 := by omega
  have hrun := @run_positive f length results k hlength hpos (Nat.le_of_lt hshort)
  have hret : (f.behind length results k).ret = none := if_neg (by omega)
  have hsize : sizeOf (results k) = 2 ^ 64 - 1 := by rw [herror]; rfl
  have hnone : List.range' (f.start + total results k) (results k).toNat = [] := by
    rw [herror]
    rfl
  have hback : (length - total results k + 2 ^ 64 - (2 ^ 64 - 1)) % 2 ^ 64 =
      (length - total results k + 1) % 2 ^ 64 := by omega
  have hnext : f.run length results (k + 1) =
      .ok (f.stopped length results k ((length - total results k + 1) % 2 ^ 64)
        (if (length - total results k + 1) % 2 ^ 64 = 0 then some (intOf length) else none)) := by
    rw [run_succ hrun, turn, hret]
    simp only [transfer, bind, Except.bind, pure, Except.pure, hsize, hnone, behind,
      List.append_nil, stopped, hback]
    rfl
  rw [stopsWell_iff hpos hshort hstop, forall_prop_of_true herror]
  by_cases hlast : (length - total results k + 1) % 2 ^ 64 = 0
  · -- `left` wraps to zero, and the length is -1 as an `int`
    have hmax : length = 2 ^ 64 - 1 ∧ total results k = 0 := by omega
    have hzero : k = 0 := by
      rcases Nat.eq_zero_or_pos k with hk | hk
      · exact hk
      · have := total_lt hpos hk
        omega
    rw [if_pos hlast] at hnext
    have hvalue : intOf length = results k := by
      rw [hmax.1, herror]
      rfl
    rw [hvalue] at hnext
    exact iff_of_true ⟨k + 1, _, _, hnext, rfl, transferred_stopped hlength hpos hshort hstop _ _⟩
      ⟨hzero, hmax.1⟩
  · rw [if_neg hlast] at hnext
    refine iff_of_false ?_ ?_
    · rintro ⟨n, t, value, ht, hvalue, hdone⟩
      -- the loop has made another call
      have hmore : k + 1 + 1 ≤ n := by
        by_contra hle
        have heq := run_returned ht hvalue (by omega : n ≤ k + 1)
        obtain rfl := Except.ok.inj (heq.symm.trans hnext)
        cases hvalue
      obtain ⟨u, hu⟩ := @run_ok f length results (k + 1 + 1)
      have hturn := hu
      rw [run_succ hnext] at hturn
      have hcount := (turn_calls hturn).2 rfl
      rw [length_stopped] at hcount
      have hcalls := run_calls_le hu hmore ht
      have := (hdone.stops k (by omega) hstop).1
      omega
    · rintro ⟨rfl, hmax⟩
      rw [total] at hlast
      omega

end Ends

/-- **When the loop does what it is for**, in each of the four forms. -/
theorem fixSize_iff (f : FixSize) {length : Nat} (hlength : length < 2 ^ 64)
    {results : Nat → Int} (hres : f.Answers length results) :
    f.Meets length results ↔ StopsWell length results := by
  obtain ⟨k, hpos, -, hfull | ⟨hshort, hstop | hstop⟩⟩ := exists_stop hlength hres
  · exact meets_full hlength hpos hfull
  · exact meets_zero hlength hpos hshort hstop
  · exact meets_error hlength hpos hshort hstop

/-- Two of three bytes, and then the end of the stream. -/
theorem fixSize_iff_two : readBuffer.Meets 3 fun n => if n = 0 then 2 else 0 := by
  refine (fixSize_iff readBuffer (by decide) ?_).mpr ⟨fun k _ _ h => ?_, fun _ _ _ => by decide⟩
  · intro n t ht hret
    cases n with
    | zero =>
      cases ht
      exact Or.inr (Or.inr (by decide))
    | succ n => exact Or.inl rfl
  · have h : (if k = 0 then (2 : Int) else 0) = -1 := h
    by_cases hk : k = 0
    · rw [if_pos hk] at h
      cases h
    · rw [if_neg hk] at h
      cases h

/-- A socket that is not connected: the second call starts before the buffer. -/
theorem readFixSize_goes_back :
    (readBuffer.Answers 1 fun _ => -1) ∧ (¬ readBuffer.Meets 1 fun _ => -1) ∧
      (readBuffer.run 1 (fun _ => -1) 2).map (fun t => (t.ret, t.state.calls)) =
        .ok (none, [(0, 1), (2 ^ 64 - 1, 2)]) := by
  refine ⟨fun _ _ _ _ => Or.inr (Or.inl rfl), fun h => ?_, by decide +kernel⟩
  have hwell := (@meets_error readBuffer 1 (fun _ => -1) 0 (by decide) nofun Nat.one_pos rfl).mp h
  have hmax := (hwell.1 0 nofun Nat.one_pos rfl).2
  omega

end FixSize
end Stream
end Sylar
