import Sylar.Address
import Sylar.BitCount
import Mathlib.Algebra.BigOperators.Fin

/-! # The prefix length of an interface

`GetInterfaceAddress` reports with each address how many bits its netmask has.  `CountBytes`
counts them, and despite its name it counts ones: it clears the lowest one of the word until none
is left.

**`prefix_length`**: that ends for every word of every type, with the number of its ones, and so
the netmask of a prefix gives its length, in whatever order its bytes are. -/
namespace Sylar
open BitCount
variable {w : Nat}

/-! ## The loop -/

/-- `value &= value - 1`, for a type of `w` bits.  A type that is narrower than `int` is promoted,
and what is assigned is made narrow again. -/
def CountBytes.round (value : BitVec w) : BitVec w :=
  let promoted := value.setWidth (max w 32)
  (promoted &&& (promoted - 1)).setWidth w

/-- The promotion changes nothing. -/
theorem CountBytes.round_eq {value : BitVec w} (h : value ≠ 0#w) :
    CountBytes.round value = clearLowest value := by
  have hle : w ≤ max w 32 := Nat.le_max_left w 32
  have hwide : (value.setWidth (max w 32)).toNat = value.toNat := BitVec.toNat_setWidth_of_le hle
  have hne : value.setWidth (max w 32) ≠ 0#(max w 32) := by
    intro hzero
    refine h (BitVec.eq_of_toNat_eq ?_)
    rw [← hwide, hzero, BitVec.toNat_ofNat, BitVec.toNat_ofNat, Nat.zero_mod, Nat.zero_mod]
  have hand : value.toNat &&& (value.toNat - 1) < 2 ^ w :=
    Nat.lt_of_le_of_lt Nat.and_le_left value.isLt
  refine BitVec.eq_of_toNat_eq ?_
  show ((value.setWidth (max w 32) &&& (value.setWidth (max w 32) - 1#(max w 32))).setWidth
    w).toNat = _
  rw [BitVec.toNat_setWidth, BitVec.toNat_and, toNat_sub_one hne, hwide, clearLowest,
    BitVec.toNat_and, toNat_sub_one h, Nat.mod_eq_of_lt hand]

theorem CountBytes.toNat_round_lt {value : BitVec w} (h : value ≠ 0#w) :
    (CountBytes.round value).toNat < value.toNat := by
  have hpos : value.toNat ≠ 0 := fun hz => h (BitVec.eq_of_toNat_eq (by simpa))
  have hle : (clearLowest value).toNat ≤ value.toNat - 1 := by
    rw [clearLowest, BitVec.toNat_and, toNat_sub_one h]
    exact Nat.and_le_right
  rw [CountBytes.round_eq h]
  omega

def CountBytes.loop (value : BitVec w) (result : BitVec 32) : BitVec 32 :=
  if value = 0#w then result
  else CountBytes.loop (CountBytes.round value) (result + 1)
termination_by value.toNat
decreasing_by exact CountBytes.toNat_round_lt ‹_›

/-- `CountBytes` -/
def CountBytes (value : BitVec w) : BitVec 32 := CountBytes.loop value 0

theorem CountBytes.loop_eq (value : BitVec w) (result : BitVec 32) :
    CountBytes.loop value result = result + BitVec.ofNat 32 (ones value).card := by
  induction value, result using CountBytes.loop.induct with
  | case1 result =>
    rw [CountBytes.loop, if_pos rfl, ones_eq_empty_iff.mpr rfl, Finset.card_empty,
      BitVec.add_zero]
  | case2 value result hne ih =>
    -- one round counts 1 and takes one place away
    rw [CountBytes.loop, if_neg hne, ih, CountBytes.round_eq hne, ← card_ones_clearLowest hne,
      BitVec.add_assoc, Nat.add_comm, BitVec.ofNat_add]
    rfl

theorem CountBytes_eq (value : BitVec w) :
    CountBytes value = BitVec.ofNat 32 (ones value).card := by
  rw [CountBytes, CountBytes.loop_eq, BitVec.ofNat_eq_ofNat, BitVec.zero_add]

/-- The rounds of the loop are those of the trick without the promotion. -/
theorem CountBytes.iterate_round (n : Nat) (value : BitVec w) :
    CountBytes.round^[n] value = clearLowest^[n] value := by
  induction n generalizing value with
  | zero => rfl
  | succ n ih =>
    rw [Function.iterate_succ_apply, Function.iterate_succ_apply, ih]
    by_cases h : value = 0#w
    · rw [h, clearLowest_zero, CountBytes.round]
      show clearLowest^[n] (BitVec.setWidth w (BitVec.setWidth (max w 32) 0#w &&& _)) = _
      rw [BitVec.setWidth_zero, BitVec.zero_and, BitVec.setWidth_zero]
    · rw [CountBytes.round_eq h]

/-! ## The interfaces -/

def AF_UNSPEC : BitVec 32 := 0

/-- `ifaddrs`, an entry of the list that `getifaddrs` makes: by the family of `ifa_addr`, the
address and the netmask. -/
inductive Ifaddrs
  | inet (ifa_name : List UInt8) (ifa_addr ifa_netmask : SockaddrIn)
  | inet6 (ifa_name : List UInt8) (ifa_addr ifa_netmask : SockaddrIn6)
  | other (ifa_name : List UInt8) (sa_family : BitVec 16)

/-- `IPAddress`, of one of its two classes. -/
abbrev IPAddress := IPv4Address ⊕ IPv6Address

namespace Ifaddrs

def ifa_name : Ifaddrs → List UInt8
  | inet name _ _ => name
  | inet6 name _ _ => name
  | other name _ => name

/-- `ifa_addr->sa_family` -/
def sa_family : Ifaddrs → BitVec 16
  | inet .. => AF_INET
  | inet6 .. => AF_INET6
  | other _ family => family

/-- `addr`, as the `switch` makes it. -/
def addr : Ifaddrs → Option IPAddress
  | inet _ addr _ => some (.inl addr)
  | inet6 _ addr _ => some (.inr addr)
  | other .. => none

/-- `prefix_len`, as the `switch` makes it. -/
def prefix_len : Ifaddrs → BitVec 32
  | inet _ _ netmask => CountBytes netmask.s_addr
  | inet6 _ _ netmask =>
    (List.finRange 16).foldl (fun prefixLen i => prefixLen + CountBytes (netmask.s6_addr i)) 0
  | other .. => BitVec.allOnes 32

end Ifaddrs

/-- `GetInterfaceAddress`, on the list that `getifaddrs` made: what it inserts, one after the
other. -/
def GetInterfaceAddress (family : BitVec 32) :
    List Ifaddrs → List (List UInt8 × IPAddress × BitVec 32)
  | [] => []
  | next :: results =>
    if family ≠ AF_UNSPEC ∧ family ≠ next.sa_family.setWidth 32 then
      GetInterfaceAddress family results
    else match next.addr with
      | none => GetInterfaceAddress family results
      | some addr =>
        (next.ifa_name, addr, next.prefix_len) :: GetInterfaceAddress family results

/-- What is inserted is the address of an entry, with what was counted for it. -/
theorem mem_GetInterfaceAddress {family : BitVec 32} {entries : List Ifaddrs}
    {inserted : List UInt8 × IPAddress × BitVec 32} :
    inserted ∈ GetInterfaceAddress family entries ↔
      ∃ next ∈ entries, (family = AF_UNSPEC ∨ family = next.sa_family.setWidth 32) ∧
        next.addr = some inserted.2.1 ∧ inserted.1 = next.ifa_name ∧
        inserted.2.2 = next.prefix_len := by
  induction entries with
  | nil => simp [GetInterfaceAddress]
  | cons next results ih =>
    rw [GetInterfaceAddress]
    split
    case isTrue hskip =>
      rw [ih, List.exists_mem_cons_iff]
      refine ⟨Or.inr, ?_⟩
      rintro (⟨hfamily, -⟩ | h)
      · exact absurd hfamily (by rw [not_or]; exact hskip)
      · exact h
    case isFalse hkeep =>
      have hfamily : family = AF_UNSPEC ∨ family = next.sa_family.setWidth 32 := by
        rwa [not_and_or, not_not, not_not] at hkeep
      split
      case h_1 hnone =>
        rw [ih, List.exists_mem_cons_iff, hnone]
        simp
      case h_2 addr hsome =>
        rw [List.mem_cons, ih, List.exists_mem_cons_iff, hsome]
        refine or_congr_left ?_
        constructor
        · rintro rfl
          exact ⟨hfamily, rfl, rfl, rfl⟩
        · rintro ⟨-, haddr, hname, hlen⟩
          obtain ⟨name, a, len⟩ := inserted
          cases haddr
          cases hname
          cases hlen
          rfl

/-! ## Netmasks -/

/-- The order of its bytes makes no difference to a word. -/
theorem card_ones_byteswap (h : 8 ∣ w) (v : BitVec w) :
    (ones (byteswap v)).card = (ones v).card := by
  -- the bytes are counted from the other end, and a bit keeps its place in its byte
  refine card_ones_of_places (fun i => 8 * (w / 8 - 1 - i / 8) + i % 8) ?_ ?_ ?_
  · intro i hi
    exact getLsbD_byteswap h v hi
  · intro i hi j hj hplace
    have hbyte : i / 8 < w / 8 := Nat.div_lt_div_of_lt_of_dvd h hi
    have hbyte' : j / 8 < w / 8 := Nat.div_lt_div_of_lt_of_dvd h hj
    omega
  · intro j hj
    have hbyte : j / 8 < w / 8 := Nat.div_lt_div_of_lt_of_dvd h hj
    exact ⟨8 * (w / 8 - 1 - j / 8) + j % 8, by omega, by omega⟩

theorem foldl_CountBytes {α : Type} (bytes : α → BitVec w) (l : List α) (start : BitVec 32) :
    l.foldl (fun prefixLen i => prefixLen + CountBytes (bytes i)) start =
      start + BitVec.ofNat 32 (l.map fun i => (ones (bytes i)).card).sum := by
  induction l generalizing start with
  | nil => exact (BitVec.add_zero start).symm
  | cons i l ih =>
    rw [List.foldl_cons, ih, CountBytes_eq, List.map_cons, List.sum_cons, BitVec.ofNat_add,
      BitVec.add_assoc]

/-- A prefix, one byte after the other. -/
theorem sum_min_eight (p n : Nat) : ∑ i : Fin n, min 8 (p - 8 * i) = min (8 * n) p := by
  induction n with
  | zero => rw [Fin.sum_univ_zero, Nat.mul_zero, Nat.zero_min]
  | succ n ih =>
    rw [Fin.sum_univ_castSucc]
    simp only [Fin.val_castSucc, Fin.val_last]
    rw [ih]
    omega

/-- The netmask has the ones of a prefix of this length, in some order of its bytes: those of an
IPv4 address may be in the order of the host or in the other. -/
def Ifaddrs.MaskOf (p : Nat) : Ifaddrs → Prop
  | inet _ _ netmask => p ≤ 32 ∧
    ((∀ i < 32, netmask.s_addr.getMsbD i = decide (i < p)) ∨
      ∀ i < 32, (byteswap netmask.s_addr).getMsbD i = decide (i < p))
  | inet6 _ _ netmask => p ≤ 128 ∧ ∃ order : Equiv.Perm (Fin 16), ∀ byte : Fin 16, ∀ i < 8,
    (netmask.s6_addr (order byte)).getMsbD i = decide (8 * byte.val + i < p)
  | other .. => False

theorem Ifaddrs.prefix_len_eq {p : Nat} {next : Ifaddrs} (h : next.MaskOf p) :
    next.prefix_len = BitVec.ofNat 32 p := by
  cases next with
  | inet name addr netmask =>
    obtain ⟨hp, horder⟩ := h
    show CountBytes netmask.s_addr = _
    rw [CountBytes_eq]
    refine congrArg _ ?_
    rcases horder with hmask | hmask
    · exact card_ones_of_getMsbD hp hmask
    · rw [← card_ones_byteswap (by decide)]
      exact card_ones_of_getMsbD hp hmask
  | inet6 name addr netmask =>
    obtain ⟨hp, order, hmask⟩ := h
    have hbyte : ∀ byte, (ones (netmask.s6_addr (order byte))).card = min 8 (p - 8 * byte) := by
      intro byte
      refine card_ones_of_getMsbD (Nat.min_le_left _ _) fun i hi => ?_
      rw [hmask byte i hi]
      exact decide_eq_decide.mpr (by omega)
    -- the sum is taken in the order of the prefix
    rw [Ifaddrs.prefix_len, foldl_CountBytes, ← Fin.sum_univ_def, ← Equiv.sum_comp order,
      BitVec.ofNat_eq_ofNat, BitVec.zero_add]
    refine congrArg _ ?_
    rw [Finset.sum_congr rfl fun byte _ => hbyte byte, sum_min_eight]
    exact Nat.min_eq_right hp
  | other name family => exact h.elim

theorem Ifaddrs.addr_of_maskOf {p : Nat} {next : Ifaddrs} (h : next.MaskOf p) :
    ∃ addr, next.addr = some addr := by
  cases next with
  | inet name addr netmask => exact ⟨_, rfl⟩
  | inet6 name addr netmask => exact ⟨_, rfl⟩
  | other name family => exact h.elim

theorem Ifaddrs.le_of_maskOf {p : Nat} {next : Ifaddrs} (h : next.MaskOf p) : p ≤ 128 := by
  cases next with
  | inet name addr netmask => exact h.1.trans (by decide)
  | inet6 name addr netmask => exact h.1
  | other name family => exact h.elim

/-- **`CountBytes` counts the ones of every word, in as many rounds, and an entry whose netmask is
made of a prefix is reported with the length of the prefix.** -/
theorem prefix_length :
    (∀ (w : Nat) (value : BitVec w),
      (∀ n, CountBytes.round^[n] value = 0#w ↔ (ones value).card ≤ n) ∧
      CountBytes value = BitVec.ofNat 32 (ones value).card ∧
      (w < 2 ^ 32 → (CountBytes value).toNat = (ones value).card)) ∧
    ∀ (family : BitVec 32) (entries : List Ifaddrs), ∀ next ∈ entries, ∀ p, next.MaskOf p →
      next.prefix_len.toNat = p ∧
      (family = AF_UNSPEC ∨ family = next.sa_family.setWidth 32 →
        ∃ addr, next.addr = some addr ∧
          (next.ifa_name, addr, next.prefix_len) ∈ GetInterfaceAddress family entries) := by
  refine ⟨fun w value => ⟨fun n => ?_, CountBytes_eq value, fun hw => ?_⟩, ?_⟩
  · rw [CountBytes.iterate_round, iterate_clearLowest_eq_zero_iff]
  · have hcard := card_ones_le value
    -- there are no more ones than places, so the count does not wrap
    rw [CountBytes_eq, BitVec.toNat_ofNat, Nat.mod_eq_of_lt (by omega)]
  · intro family entries next hnext p hmask
    have hp := Ifaddrs.le_of_maskOf hmask
    refine ⟨?_, fun hfamily => ?_⟩
    · rw [Ifaddrs.prefix_len_eq hmask, BitVec.toNat_ofNat, Nat.mod_eq_of_lt (by omega)]
    · obtain ⟨addr, haddr⟩ := Ifaddrs.addr_of_maskOf hmask
      exact ⟨addr, haddr, mem_GetInterfaceAddress.mpr ⟨next, hnext, hfamily, haddr, rfl, rfl⟩⟩

/-- The netmask 255.255.240.0, as it is in the memory of a little-endian host. -/
theorem prefix_length_twenty :
    (Ifaddrs.inet [] ⟨AF_INET, 0, 0⟩ ⟨AF_INET, 0, 0x00f0ffff⟩).prefix_len.toNat = 20 := by
  have hmask : (Ifaddrs.inet [] ⟨AF_INET, 0, 0⟩ ⟨AF_INET, 0, 0x00f0ffff⟩).MaskOf 20 :=
    ⟨by decide, Or.inr (by decide)⟩
  exact (prefix_length.2 0 _ _ (List.mem_singleton.mpr rfl) 20 hmask).1

end Sylar
