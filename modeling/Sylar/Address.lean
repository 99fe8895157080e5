import Sylar.BitMasks
import Sylar.FlatStore

/-! # Subnets

The members of `IPv4Address` and `IPv6Address` that compute with the length of a prefix make a
mask of the bits behind the prefix (`CreateMask`).  For the broadcast address these are set; for
the mask of the subnet they are complemented; and for the address of the network they should be
cleared, but everything else is.

**`ipv4_subnet_iff`** and **`ipv6_subnet_iff`** say for which addresses and prefixes all three
are right. -/
namespace Sylar
open Interleaving BitMasks

/-- What has no defined behaviour in the code. -/
inductive AddressFault
  /-- An `int` is shifted by its width or more. -/
  | fullShift
  /-- `s6_addr` is used behind its end. -/
  | outOfBounds
  deriving DecidableEq, Repr

/-- `CreateMask<T>`, for a type of `w` bits.  The shift is one of an `int`, whatever `T` is, and
its amount is a `size_t`. -/
def CreateMask (w : Nat) (bits : BitVec 32) : Except AddressFault (BitVec w) :=
  let amount := (BitVec.ofNat 64 w - bits.setWidth 64).toNat
  if 32 ≤ amount then .error .fullShift
  else .ok (((1#32 <<< amount) - 1#32).setWidth w)

/-- `byteswapOnLittleEndian` -/
def byteswapOnLittleEndian {w : Nat} (t : BitVec w) : BitVec w :=
  match hostOrder with
  | .little => byteswap t
  | .big => t

def AF_INET : BitVec 16 := 2

def AF_INET6 : BitVec 16 := 10

/-! ## `IPv4Address` -/

/-- `sockaddr_in`.  Port and address are in network order. -/
structure SockaddrIn where
  sin_family : BitVec 16
  sin_port : BitVec 16
  s_addr : BitVec 32
  deriving DecidableEq, Repr

/-- `IPv4Address`, whose only member is `m_addr`. -/
abbrev IPv4Address := SockaddrIn

namespace IPv4Address

def broadcastAddress (m_addr : IPv4Address) (prefixLen : BitVec 32) :
    Except AddressFault (Option IPv4Address) :=
  if 32 < prefixLen.toNat then .ok none
  else do
    let mask ← CreateMask 32 prefixLen
    return some { m_addr with s_addr := m_addr.s_addr ||| byteswapOnLittleEndian mask }

def networdAddress (m_addr : IPv4Address) (prefixLen : BitVec 32) :
    Except AddressFault (Option IPv4Address) :=
  if 32 < prefixLen.toNat then .ok none
  else do
    let mask ← CreateMask 32 prefixLen
    -- these are the bits that are to be cleared
    return some { m_addr with s_addr := m_addr.s_addr &&& byteswapOnLittleEndian mask }

/-- `subnetMask`, which does not look at the length. -/
def subnetMask (prefixLen : BitVec 32) : Except AddressFault (Option IPv4Address) := do
  let mask ← CreateMask 32 prefixLen
  return some { sin_family := AF_INET, sin_port := 0, s_addr := ~~~byteswapOnLittleEndian mask }

/-- A bit of an address, from the top of its value in the order of the host. -/
def bit (a : IPv4Address) (i : Nat) : Bool := (byteswapOnLittleEndian a.s_addr).getMsbD i

end IPv4Address

/-! ## `IPv6Address` -/

/-- `sockaddr_in6` -/
structure SockaddrIn6 where
  sin6_family : BitVec 16
  sin6_port : BitVec 16
  sin6_flowinfo : BitVec 32
  s6_addr : Fin 16 → BitVec 8
  sin6_scope_id : BitVec 32
  deriving DecidableEq

/-- `IPv6Address`, whose only member is `m_addr`. -/
abbrev IPv6Address := SockaddrIn6

namespace IPv6Address

/-- `s6_addr[i] = f( s6_addr[i] )` -/
def modify (a : IPv6Address) (i : Nat) (f : BitVec 8 → BitVec 8) :
    Except AddressFault IPv6Address :=
  if h : i < 16 then
    .ok { a with s6_addr := Function.update a.s6_addr ⟨i, h⟩ (f (a.s6_addr ⟨i, h⟩)) }
  else .error .outOfBounds

/-- A loop that stores `c` in `count` bytes from `s6_addr[i]` on. -/
def storeLoop (c : BitVec 8) : Nat → Nat → IPv6Address → Except AddressFault IPv6Address
  | 0, _, a => .ok a
  | count + 1, i, a => do
    let a ← a.modify i fun _ => c
    storeLoop c count (i + 1) a

def broadcastAddress (m_addr : IPv6Address) (prefixLen : BitVec 32) :
    Except AddressFault IPv6Address := do
  let mask ← CreateMask 8 (prefixLen % 8)
  let baddr ← m_addr.modify (prefixLen.toNat / 8) (· ||| mask)
  storeLoop 0xff (16 - (prefixLen.toNat / 8 + 1)) (prefixLen.toNat / 8 + 1) baddr

def networdAddress (m_addr : IPv6Address) (prefixLen : BitVec 32) :
    Except AddressFault IPv6Address := do
  let mask ← CreateMask 8 (prefixLen % 8)
  let baddr ← m_addr.modify (prefixLen.toNat / 8) (· &&& mask)
  storeLoop 0x00 (16 - (prefixLen.toNat / 8 + 1)) (prefixLen.toNat / 8 + 1) baddr

/-- `memset( &subnet, 0, sizeof( subnet ) )` and the family. -/
def blank : IPv6Address where
  sin6_family := AF_INET6
  sin6_port := 0
  sin6_flowinfo := 0
  s6_addr := fun _ => 0
  sin6_scope_id := 0

def subnetMask (prefixLen : BitVec 32) : Except AddressFault IPv6Address := do
  let mask ← CreateMask 8 (prefixLen % 8)
  let subnet ← blank.modify (prefixLen.toNat / 8) fun _ => ~~~mask
  storeLoop 0xff (prefixLen.toNat / 8) 0 subnet

/-- A bit of an address, from the top of its first byte on. -/
def bit (a : IPv6Address) (i : Fin 128) : Bool :=
  (a.s6_addr ⟨i / 8, by omega⟩).getMsbD (i % 8)

end IPv6Address

/-! ## The masks -/

section Masks
variable {w : Nat} {bits : BitVec 32}

theorem amount_of_le (hw : w < 2 ^ 64) (h : bits.toNat ≤ w) :
    (BitVec.ofNat 64 w - bits.setWidth 64).toNat = w - bits.toNat := by
  have hwide : (bits.setWidth 64).toNat = bits.toNat :=
    BitVec.toNat_setWidth_of_le (by decide)
  have hle : bits.setWidth 64 ≤ BitVec.ofNat 64 w := by
    rw [BitVec.le_def, hwide, BitVec.toNat_ofNat, Nat.mod_eq_of_lt hw]
    exact h
  rw [BitVec.toNat_sub_of_le hle, hwide, BitVec.toNat_ofNat, Nat.mod_eq_of_lt hw]

/-- A mask of what is behind a prefix, where there is less of it than an `int` has. -/
theorem CreateMask_of_lt (hw : w ≤ 32) (h : bits.toNat ≤ w) (hshift : w - bits.toNat < 32) :
    CreateMask w bits = .ok (lowOnes w (w - bits.toNat)) := by
  rw [CreateMask, amount_of_le (by omega) h, if_neg (by omega), one_shiftLeft_sub_one hshift,
    setWidth_lowOnes hw]

/-- A length that is larger than the type makes the amount wrap around. -/
theorem amount_of_lt (hw : w ≤ 32) (h : w < bits.toNat) :
    32 ≤ (BitVec.ofNat 64 w - bits.setWidth 64).toNat := by
  have hwide : (bits.setWidth 64).toNat = bits.toNat :=
    BitVec.toNat_setWidth_of_le (by decide)
  have hbits := bits.isLt
  rw [BitVec.toNat_sub, hwide, BitVec.toNat_ofNat]
  omega

theorem CreateMask_32_zero : CreateMask 32 0 = .error .fullShift := by decide

theorem CreateMask_of_gt (hw : w ≤ 32) (h : w < bits.toNat) :
    CreateMask w bits = .error .fullShift := by
  rw [CreateMask, if_pos (amount_of_lt hw h)]

end Masks

section Swap
variable {w : Nat}

/-- The bytes change places, and keep their bits. -/
theorem getLsbD_byteswap (h : 8 ∣ w) (v : BitVec w) {j : Nat} (hj : j < w) :
    (byteswap v).getLsbD j = v.getLsbD (8 * (w / 8 - 1 - j / 8) + j % 8) := by
  have hbyte : j / 8 < w / 8 := Nat.div_lt_div_of_lt_of_dvd h hj
  have hlen : (hostBytes v).length = w / 8 := length_hostBytes v
  rw [byteswap, getLsbD_ofHostBytes, List.getElem?_reverse (by omega), hlen,
    hostBytes_getElem? v _ (by omega), Option.getD_some, BitVec.getLsbD_extractLsb',
    decide_eq_true hj, decide_eq_true (Nat.mod_lt j (by decide)), Bool.true_and, Bool.true_and]

theorem byteswap_not (h : 8 ∣ w) (v : BitVec w) : byteswap (~~~v) = ~~~byteswap v := by
  refine BitVec.eq_of_getLsbD_eq fun j hj => ?_
  have hbyte : j / 8 < w / 8 := Nat.div_lt_div_of_lt_of_dvd h hj
  have hplace : 8 * (w / 8 - 1 - j / 8) + j % 8 < w := by omega
  rw [BitVec.getLsbD_not, getLsbD_byteswap h _ hj, getLsbD_byteswap h _ hj, BitVec.getLsbD_not,
    decide_eq_true hj, decide_eq_true hplace]

theorem byteswapOnLittleEndian_ne_zero (h : 8 ∣ w) {v : BitVec w} (hv : v ≠ 0) :
    byteswapOnLittleEndian v ≠ 0 := by
  intro hzero
  have hnone : ∀ j < w, (byteswap v).getLsbD j = false := by
    intro j _
    have heq : byteswap v = 0#w := hzero
    rw [heq, BitVec.getLsbD_zero]
  refine hv ?_
  rw [← byteswap_byteswap h v]
  refine BitVec.eq_of_getLsbD_eq fun j hj => ?_
  have hbyte : j / 8 < w / 8 := Nat.div_lt_div_of_lt_of_dvd h hj
  rw [getLsbD_byteswap h _ hj, hnone _ (by omega)]
  exact BitVec.getLsbD_zero.symm

end Swap

/-! ## Subnets of IPv4 -/

namespace IPv4Address
variable {a : IPv4Address} {p : BitVec 32}

/-- The bits behind a prefix, in network order. -/
def hostMask (p : BitVec 32) : BitVec 32 := byteswapOnLittleEndian (lowOnes 32 (32 - p.toNat))

/-- The mask of the subnet has the bits of the prefix, and no other; there is none for a prefix
that is too long. -/
def MaskRight (p : BitVec 32) : Prop :=
  if p.toNat ≤ 32 then
    ∃ mask, subnetMask p = .ok (some mask) ∧ ∀ i < 32, mask.bit i = decide (i < p.toNat)
  else subnetMask p = .ok none

/-- What is asked of `broadcastAddress` and `networdAddress`: the value that is made of the
address and the mask; the same from there, and from every address of the subnet. -/
def AddressRight (op : IPv4Address → BitVec 32 → Except AddressFault (Option IPv4Address))
    (value : BitVec 32 → BitVec 32 → BitVec 32) (a : IPv4Address) (p : BitVec 32) : Prop :=
  if p.toNat ≤ 32 then
    ∃ mask r, subnetMask p = .ok (some mask) ∧ op a p = .ok (some r) ∧
      r.s_addr = value a.s_addr mask.s_addr ∧ op r p = .ok (some r) ∧
      ∀ b : IPv4Address, b.s_addr &&& mask.s_addr = a.s_addr &&& mask.s_addr →
        ∃ r' : IPv4Address, op b p = .ok (some r') ∧ r'.s_addr = r.s_addr
  else op a p = .ok none

def BroadcastRight : IPv4Address → BitVec 32 → Prop :=
  AddressRight broadcastAddress fun a mask => a ||| ~~~mask

def NetworkRight : IPv4Address → BitVec 32 → Prop :=
  AddressRight networdAddress fun a mask => a &&& mask

/-- All three functions are right. -/
structure SubnetRight (a : IPv4Address) (p : BitVec 32) : Prop where
  mask : MaskRight p
  broadcast : BroadcastRight a p
  network : NetworkRight a p

/-! ### What the functions return -/

theorem subnetMask_ok (hpos : 0 < p.toNat) (hle : p.toNat ≤ 32) :
    subnetMask p = .ok (some ⟨AF_INET, 0, ~~~hostMask p⟩) := by
  rw [subnetMask, CreateMask_of_lt (by decide) hle (by omega)]
  rfl

theorem broadcastAddress_ok (hpos : 0 < p.toNat) (hle : p.toNat ≤ 32) (a : IPv4Address) :
    a.broadcastAddress p = .ok (some { a with s_addr := a.s_addr ||| hostMask p }) := by
  rw [broadcastAddress, if_neg (Nat.not_lt.mpr hle), CreateMask_of_lt (by decide) hle (by omega)]
  rfl

theorem networdAddress_ok (hpos : 0 < p.toNat) (hle : p.toNat ≤ 32) (a : IPv4Address) :
    a.networdAddress p = .ok (some { a with s_addr := a.s_addr &&& hostMask p }) := by
  rw [networdAddress, if_neg (Nat.not_lt.mpr hle), CreateMask_of_lt (by decide) hle (by omega)]
  rfl

theorem subnetMask_zero : subnetMask 0 = .error .fullShift := by
  rw [subnetMask, CreateMask_32_zero]
  rfl

theorem subnetMask_long (h : 32 < p.toNat) : subnetMask p = .error .fullShift := by
  rw [subnetMask, CreateMask_of_gt (by decide) h]
  rfl

/-- With no prefix at all nothing is right. -/
theorem not_addressRight_zero
    {op : IPv4Address → BitVec 32 → Except AddressFault (Option IPv4Address)}
    {value : BitVec 32 → BitVec 32 → BitVec 32} : ¬ AddressRight op value a 0 := by
  rintro ⟨mask, r, hmask, -⟩
  rw [subnetMask_zero] at hmask
  cases hmask

theorem maskRight_iff : MaskRight p ↔ 0 < p.toNat ∧ p.toNat ≤ 32 := by
  rw [MaskRight]
  by_cases hle : p.toNat ≤ 32
  · rw [if_pos hle]
    rcases Nat.eq_zero_or_pos p.toNat with hzero | hpos
    · obtain rfl : p = 0 := BitVec.eq_of_toNat_eq hzero
      refine iff_of_false ?_ (by omega)
      rintro ⟨mask, hmask, -⟩
      rw [subnetMask_zero] at hmask
      cases hmask
    · refine iff_of_true ⟨_, subnetMask_ok hpos hle, fun i hi => ?_⟩ ⟨hpos, hle⟩
      show (byteswap (~~~byteswap (lowOnes 32 (32 - p.toNat)))).getMsbD i = _
      rw [byteswap_not (by decide), byteswap_byteswap (by decide), BitVec.getMsbD_not,
        getMsbD_lowOnes (by omega) hi, decide_eq_true hi, Bool.true_and, ← decide_not]
      exact decide_eq_decide.mpr (by omega)
  · rw [if_neg hle, subnetMask_long (by omega)]
    exact iff_of_false (by intro h; cases h) (by omega)

theorem broadcastRight_iff : BroadcastRight a p ↔ p ≠ 0 := by
  rcases Nat.eq_zero_or_pos p.toNat with hzero | hpos
  · obtain rfl : p = 0 := BitVec.eq_of_toNat_eq hzero
    exact iff_of_false not_addressRight_zero fun h => h rfl
  have hne : p ≠ 0 := by
    rintro rfl
    exact absurd hpos (by decide)
  refine iff_of_true ?_ hne
  rw [BroadcastRight, AddressRight]
  by_cases hle : p.toNat ≤ 32
  · rw [if_pos hle]
    refine ⟨_, _, subnetMask_ok hpos hle, broadcastAddress_ok hpos hle a, ?_, ?_, ?_⟩
    · rw [BitVec.not_not]
    · rw [broadcastAddress_ok hpos hle]
      dsimp only
      rw [BitVec.or_assoc, BitVec.or_self]
    · intro b hb
      exact ⟨_, broadcastAddress_ok hpos hle b, or_eq_or_of_and_not hb⟩
  · rw [if_neg hle, broadcastAddress, if_pos (by omega)]

theorem networkRight_iff : NetworkRight a p ↔ 32 < p.toNat ∨ p = 32 ∧ a.s_addr = 0 := by
  rcases Nat.eq_zero_or_pos p.toNat with hzero | hpos
  · obtain rfl : p = 0 := BitVec.eq_of_toNat_eq hzero
    exact iff_of_false not_addressRight_zero (by simp)
  rw [NetworkRight, AddressRight]
  by_cases hle : p.toNat ≤ 32
  · rw [if_pos hle]
    constructor
    · rintro ⟨mask, r, hmask, hr, hvalue, -, hsame⟩
      obtain rfl := Option.some.inj (Except.ok.inj ((subnetMask_ok hpos hle).symm.trans hmask))
      obtain rfl := Option.some.inj (Except.ok.inj ((networdAddress_ok hpos hle a).symm.trans hr))
      have ha : a.s_addr = 0 := and_eq_and_not_iff.mp hvalue
      refine .inr ⟨?_, ha⟩
      -- the last address of the subnet has another result
      obtain ⟨r', hr', heq⟩ := hsame { a with s_addr := hostMask p } (by
        rw [ha, BitVec.and_not_self]
        exact BitVec.zero_and.symm)
      obtain rfl := Option.some.inj (Except.ok.inj ((networdAddress_ok hpos hle _).symm.trans hr'))
      have hnone : hostMask p = 0 := by
        have hself : hostMask p &&& hostMask p = a.s_addr &&& hostMask p := heq
        rw [BitVec.and_self, ha] at hself
        exact hself.trans BitVec.zero_and
      by_contra hne
      have hlt : p.toNat ≠ 32 := fun h => hne (BitVec.eq_of_toNat_eq h)
      exact byteswapOnLittleEndian_ne_zero (by decide)
        (lowOnes_ne_zero (by omega) (by omega)) hnone
    · rintro (hlong | ⟨rfl, ha⟩)
      · omega
      · have hnone : hostMask 32 = 0 := by decide
        refine ⟨_, _, subnetMask_ok hpos hle, networdAddress_ok hpos hle a, ?_, ?_, ?_⟩
        · rw [ha]
          exact BitVec.zero_and.trans BitVec.zero_and.symm
        · rw [networdAddress_ok hpos hle]
          dsimp only
          rw [BitVec.and_assoc, BitVec.and_self]
        · intro b hb
          refine ⟨_, networdAddress_ok hpos hle b, ?_⟩
          rw [hnone]
          exact BitVec.and_zero.trans BitVec.and_zero.symm
  · rw [if_neg hle, networdAddress, if_pos (by omega)]
    exact iff_of_true rfl (.inl (by omega))

/-- **When the three functions are right**, for every address and every length of a prefix: only
for 0.0.0.0 and the prefix 32.  `subnetMask` is right for the prefixes 1 to 32,
`broadcastAddress` but for the prefix 0; `networdAddress` keeps what it should clear. -/
theorem ipv4_subnet_iff (a : IPv4Address) (p : BitVec 32) :
    (SubnetRight a p ↔ p = 32 ∧ a.s_addr = 0) ∧
      (MaskRight p ↔ 0 < p.toNat ∧ p.toNat ≤ 32) ∧ (BroadcastRight a p ↔ p ≠ 0) ∧
      (NetworkRight a p ↔ 32 < p.toNat ∨ p = 32 ∧ a.s_addr = 0) := by
  refine ⟨⟨?_, ?_⟩, maskRight_iff, broadcastRight_iff, networkRight_iff⟩
  · rintro ⟨hmask, -, hnetwork⟩
    exact (networkRight_iff.mp hnetwork).resolve_left (Nat.not_lt.mpr (maskRight_iff.mp hmask).2)
  · rintro ⟨rfl, ha⟩
    exact ⟨maskRight_iff.mpr (by decide), broadcastRight_iff.mpr (by decide),
      networkRight_iff.mpr (.inr ⟨rfl, ha⟩)⟩

/-- The network of 192.168.1.5 with the prefix 24 is said to be 0.0.0.5; and with the prefix 0 a
shift by the full width is evaluated. -/
theorem network_of_host :
    let a : IPv4Address := ⟨AF_INET, 0, byteswapOnLittleEndian 0xc0a80105⟩
    a.networdAddress 24 = .ok (some { a with s_addr := byteswapOnLittleEndian 0x00000005 }) ∧
      ¬ SubnetRight a 24 ∧ subnetMask 0 = .error .fullShift ∧ ¬ SubnetRight a 0 := by
  refine ⟨by decide, ?_, by decide, ?_⟩
  · rintro ⟨-, -, mask, r, hmask, hr, hvalue, -⟩
    obtain rfl := Option.some.inj (Except.ok.inj
      ((subnetMask_ok (p := 24) (by decide) (by decide)).symm.trans hmask))
    obtain rfl := Option.some.inj (Except.ok.inj
      ((networdAddress_ok (p := 24) (by decide) (by decide) _).symm.trans hr))
    exact absurd hvalue (by decide)
  · rintro ⟨-, hbroadcast, -⟩
    exact not_addressRight_zero hbroadcast

end IPv4Address

/-! ## Subnets of IPv6 -/

namespace IPv6Address
variable {a : IPv6Address} {p : BitVec 32}

theorem modify_ok {i : Nat} (h : i < 16) (f : BitVec 8 → BitVec 8) :
    a.modify i f =
      .ok { a with s6_addr := fun j => if j.val = i then f (a.s6_addr j) else a.s6_addr j } := by
  rw [modify, dif_pos h]
  refine congrArg (fun bytes => Except.ok { a with s6_addr := bytes }) (funext fun j => ?_)
  by_cases hj : j.val = i
  · subst hj
    rw [if_pos rfl, Function.update_self]
  · rw [if_neg hj, Function.update_of_ne fun heq => hj (congrArg Fin.val heq)]

theorem storeLoop_ok {count i : Nat} (h : i + count ≤ 16) (c : BitVec 8) (a : IPv6Address) :
    storeLoop c count i a = .ok { a with
      s6_addr := fun j => if i ≤ j.val ∧ j.val < i + count then c else a.s6_addr j } := by
  induction count generalizing i a with
  | zero =>
    refine congrArg (fun bytes => Except.ok { a with s6_addr := bytes }) (funext fun j => ?_)
    rw [if_neg (by omega)]
  | succ count ih =>
    rw [storeLoop, modify_ok (by omega)]
    show storeLoop c count (i + 1) _ = _
    rw [ih (by omega)]
    refine congrArg (fun bytes => Except.ok { a with s6_addr := bytes }) (funext fun j => ?_)
    dsimp only
    split_ifs <;> first | rfl | omega

/-- The bits behind the prefix in the byte in which it ends. -/
def hostBits (p : BitVec 32) : BitVec 8 := lowOnes 8 (8 - p.toNat % 8)

theorem CreateMask_byte (p : BitVec 32) : CreateMask 8 (p % 8) = .ok (hostBits p) := by
  have hmod : (p % 8).toNat = p.toNat % 8 := rfl
  rw [CreateMask_of_lt (by decide) (by omega) (by omega), hmod]
  rfl

/-- What a function does: one value in front of the byte in which the prefix ends, one for it, and
one behind it. -/
def split (a : IPv6Address) (p : BitVec 32) (front last : Fin 16 → BitVec 8) (back : BitVec 8) :
    IPv6Address :=
  { a with
    s6_addr := fun j =>
      if j.val < p.toNat / 8 then front j else if j.val = p.toNat / 8 then last j else back }

theorem subnetMask_ok (h : p.toNat < 128) :
    subnetMask p = .ok (blank.split p (fun _ => 0xff) (fun _ => ~~~hostBits p) 0) := by
  rw [subnetMask, CreateMask_byte]
  show (blank.modify _ _).bind _ = _
  rw [modify_ok (by omega)]
  show storeLoop _ _ _ _ = _
  rw [storeLoop_ok (by omega)]
  refine congrArg (fun bytes => Except.ok { blank with s6_addr := bytes }) (funext fun j => ?_)
  dsimp only
  split_ifs <;> first | rfl | omega

/-- The two passes over the bytes of an address differ in what they make of the byte in which the
prefix ends, and in what they store behind it. -/
theorem pass_ok (h : p.toNat < 128) (a : IPv6Address) (f : BitVec 8 → BitVec 8) (c : BitVec 8) :
    (do let baddr ← a.modify (p.toNat / 8) f
        storeLoop c (16 - (p.toNat / 8 + 1)) (p.toNat / 8 + 1) baddr) =
      .ok (a.split p a.s6_addr (fun j => f (a.s6_addr j)) c) := by
  rw [modify_ok (by omega)]
  show storeLoop _ _ _ _ = _
  rw [storeLoop_ok (by omega)]
  refine congrArg (fun bytes => Except.ok { a with s6_addr := bytes }) (funext fun j => ?_)
  dsimp only
  split_ifs <;> first | rfl | omega

theorem broadcastAddress_ok (h : p.toNat < 128) (a : IPv6Address) :
    a.broadcastAddress p =
      .ok (a.split p a.s6_addr (fun j => a.s6_addr j ||| hostBits p) 0xff) := by
  rw [broadcastAddress, CreateMask_byte]
  exact pass_ok h a (· ||| hostBits p) 0xff

theorem networdAddress_ok (h : p.toNat < 128) (a : IPv6Address) :
    a.networdAddress p =
      .ok (a.split p a.s6_addr (fun j => a.s6_addr j &&& hostBits p) 0x00) := by
  rw [networdAddress, CreateMask_byte]
  exact pass_ok h a (· &&& hostBits p) 0x00

/-- A byte that is not there is asked for when the prefix is the whole address. -/
theorem modify_outOfBounds (h : 128 ≤ p.toNat) (a : IPv6Address) (f : BitVec 8 → BitVec 8) :
    a.modify (p.toNat / 8) f = .error .outOfBounds := by
  rw [modify, dif_neg (by omega)]

theorem subnetMask_long (h : 128 ≤ p.toNat) : subnetMask p = .error .outOfBounds := by
  rw [subnetMask, CreateMask_byte]
  show (blank.modify _ _).bind _ = _
  rw [modify_outOfBounds h]
  rfl

theorem broadcastAddress_long (h : 128 ≤ p.toNat) (a : IPv6Address) :
    a.broadcastAddress p = .error .outOfBounds := by
  rw [broadcastAddress, CreateMask_byte]
  show (a.modify _ _).bind _ = _
  rw [modify_outOfBounds h]
  rfl

theorem networdAddress_long (h : 128 ≤ p.toNat) (a : IPv6Address) :
    a.networdAddress p = .error .outOfBounds := by
  rw [networdAddress, CreateMask_byte]
  show (a.modify _ _).bind _ = _
  rw [modify_outOfBounds h]
  rfl

/-! ### Bits -/

theorem getMsbD_hostBits {i : Nat} (hi : i < 8) :
    (hostBits p).getMsbD i = decide (p.toNat % 8 ≤ i) := by
  rw [hostBits, getMsbD_lowOnes (by omega) hi]
  exact decide_eq_decide.mpr (by omega)

theorem getMsbD_ones {i : Nat} (hi : i < 8) : (0xff : BitVec 8).getMsbD i = true := by
  show (lowOnes 8 8).getMsbD i = true
  rw [getMsbD_lowOnes (by decide) hi]
  exact decide_eq_true (by omega)

/-- The result is the address `base` but for its bytes, whose bits are given. -/
def BitsRight (result : Except AddressFault IPv6Address) (base : IPv6Address)
    (value : Fin 128 → Bool) : Prop :=
  ∃ r, result = .ok r ∧ r = { base with s6_addr := r.s6_addr } ∧ ∀ i, r.bit i = value i

def MaskRight (p : BitVec 32) : Prop :=
  BitsRight (subnetMask p) blank fun i => decide (i.val < p.toNat)

def BroadcastRight (a : IPv6Address) (p : BitVec 32) : Prop :=
  BitsRight (a.broadcastAddress p) a fun i => if i.val < p.toNat then a.bit i else true

def NetworkRight (a : IPv6Address) (p : BitVec 32) : Prop :=
  BitsRight (a.networdAddress p) a fun i => if i.val < p.toNat then a.bit i else false

/-- All three functions are right. -/
structure SubnetRight (a : IPv6Address) (p : BitVec 32) : Prop where
  mask : MaskRight p
  broadcast : BroadcastRight a p
  network : NetworkRight a p

theorem bit_split (front last : Fin 16 → BitVec 8) (back : BitVec 8) (i : Fin 128) :
    (a.split p front last back).bit i =
      if i.val / 8 < p.toNat / 8 then (front ⟨i / 8, by omega⟩).getMsbD (i % 8)
      else if i.val / 8 = p.toNat / 8 then (last ⟨i / 8, by omega⟩).getMsbD (i % 8)
      else back.getMsbD (i % 8) := by
  rw [bit, split]
  dsimp only
  split_ifs <;> rfl

theorem not_bitsRight_error (e : AddressFault) (base : IPv6Address) (value : Fin 128 → Bool) :
    ¬ BitsRight (.error e) base value := by
  rintro ⟨r, hr, -⟩
  cases hr

theorem maskRight_iff : MaskRight p ↔ p.toNat < 128 := by
  rw [MaskRight]
  by_cases h : p.toNat < 128
  · refine iff_of_true ⟨_, subnetMask_ok h, rfl, fun i => ?_⟩ h
    have hlt : i.val % 8 < 8 := Nat.mod_lt _ (by decide)
    rw [bit_split]
    show _ = decide (i.val < p.toNat)
    split_ifs with hfront hlast
    · rw [getMsbD_ones hlt]
      exact (decide_eq_true (by omega)).symm
    · rw [BitVec.getMsbD_not, getMsbD_hostBits hlt, decide_eq_true hlt, Bool.true_and,
        ← decide_not]
      exact decide_eq_decide.mpr (by omega)
    · rw [decide_eq_false (by omega)]
      exact BitVec.getMsbD_zero
  · rw [subnetMask_long (by omega)]
    exact iff_of_false (not_bitsRight_error _ _ _) h

theorem broadcastRight_iff : BroadcastRight a p ↔ p.toNat < 128 := by
  rw [BroadcastRight]
  by_cases h : p.toNat < 128
  · refine iff_of_true ⟨_, broadcastAddress_ok h a, rfl, fun i => ?_⟩ h
    have hlt : i.val % 8 < 8 := Nat.mod_lt _ (by decide)
    rw [bit_split]
    show _ = if i.val < p.toNat then a.bit i else true
    split_ifs with hfront hp hlast hp
    · rfl
    · omega
    · rw [BitVec.getMsbD_or, getMsbD_hostBits hlt, decide_eq_false (by omega), Bool.or_false]
      rfl
    · rw [BitVec.getMsbD_or, getMsbD_hostBits hlt, decide_eq_true (by omega), Bool.or_true]
    · omega
    · exact getMsbD_ones hlt
  · rw [broadcastAddress_long (by omega)]
    exact iff_of_false (not_bitsRight_error _ _ _) h

/-- In the byte in which the prefix ends the bits of the prefix are cleared and the others are
kept. -/
theorem bit_network (i : Fin 128) :
    (a.split p a.s6_addr (fun j => a.s6_addr j &&& hostBits p) 0x00).bit i =
      if i.val / 8 < p.toNat / 8 then a.bit i
      else if i.val / 8 = p.toNat / 8 then a.bit i && decide (p.toNat ≤ i.val) else false := by
  have hlt : i.val % 8 < 8 := Nat.mod_lt _ (by decide)
  rw [bit_split]
  split_ifs with hfront hlast
  · rfl
  · rw [BitVec.getMsbD_and, getMsbD_hostBits hlt]
    exact congrArg (a.bit i && ·) (decide_eq_decide.mpr (by omega))
  · exact BitVec.getMsbD_zero

theorem byte_eq_zero_iff (k : Fin 16) :
    a.s6_addr k = 0 ↔ ∀ i : Fin 128, i.val / 8 = k.val → a.bit i = false := by
  constructor
  · intro hzero i hi
    have hindex : (⟨i / 8, by omega⟩ : Fin 16) = k := Fin.ext hi
    rw [bit, hindex, hzero]
    exact BitVec.getMsbD_zero
  · intro hbits
    refine BitVec.eq_of_getMsbD_eq fun j hj => ?_
    have hindex : (8 * k.val + j) / 8 = k.val := by omega
    have hmod : (8 * k.val + j) % 8 = j := by omega
    have hbit := hbits ⟨8 * k.val + j, by omega⟩ hindex
    simp only [bit, hindex, hmod] at hbit
    exact hbit.trans BitVec.getMsbD_zero.symm

theorem networkRight_iff :
    NetworkRight a p ↔ ∃ h : p.toNat < 128, a.s6_addr ⟨p.toNat / 8, by omega⟩ = 0 := by
  rw [NetworkRight]
  by_cases h : p.toNat < 128
  · rw [exists_prop_of_true h, byte_eq_zero_iff]
    constructor
    · rintro ⟨r, hr, -, hbits⟩ i hlast
      obtain rfl := Except.ok.inj ((networdAddress_ok h a).symm.trans hr)
      replace hlast : i.val / 8 = p.toNat / 8 := hlast
      have hbit : _ = if i.val < p.toNat then a.bit i else false :=
        (bit_network i).symm.trans (hbits i)
      rw [if_neg (by omega), if_pos hlast] at hbit
      by_cases hp : i.val < p.toNat
      · rw [decide_eq_false (by omega), Bool.and_false, if_pos hp] at hbit
        exact hbit.symm
      · rw [decide_eq_true (by omega), Bool.and_true, if_neg hp] at hbit
        exact hbit
    · intro hclear
      refine ⟨_, networdAddress_ok h a, rfl, fun i => ?_⟩
      rw [bit_network]
      show _ = if i.val < p.toNat then a.bit i else false
      by_cases hlast : i.val / 8 = p.toNat / 8
      · rw [if_neg (by omega), if_pos hlast, hclear i hlast, Bool.false_and, ite_self]
      · rw [if_neg hlast]
        exact if_congr (by omega) rfl rfl
  · rw [networdAddress_long (by omega)]
    exact iff_of_false (not_bitsRight_error _ _ _) fun ⟨hlt, _⟩ => h hlt

/-- **When the three functions are right**, for every address and every length of a prefix.  The
byte in which a prefix of all 128 bits ends is behind the address; `networdAddress` clears the
bits of the prefix in this byte, and not the others. -/
theorem ipv6_subnet_iff (a : IPv6Address) (p : BitVec 32) :
    (SubnetRight a p ↔ ∃ h : p.toNat < 128, a.s6_addr ⟨p.toNat / 8, by omega⟩ = 0) ∧
      (MaskRight p ↔ p.toNat < 128) ∧ (BroadcastRight a p ↔ p.toNat < 128) ∧
      (NetworkRight a p ↔ ∃ h : p.toNat < 128, a.s6_addr ⟨p.toNat / 8, by omega⟩ = 0) := by
  refine ⟨⟨fun h => networkRight_iff.mp h.network, fun h => ?_⟩, maskRight_iff,
    broadcastRight_iff, networkRight_iff⟩
  exact ⟨maskRight_iff.mpr h.1, broadcastRight_iff.mpr h.1, networkRight_iff.mpr h⟩

/-- The network of ff00:: with the prefix 4 is said to be f00::; and with the prefix 128 the byte
behind the address is used, by all three. -/
theorem network_of_multicast :
    let a : IPv6Address := { blank with s6_addr := fun j => if j = 0 then 0xff else 0 }
    (a.networdAddress 4).map (fun r => r.s6_addr 0) = .ok 0x0f ∧ ¬ SubnetRight a 4 ∧
      subnetMask 128 = .error .outOfBounds ∧ a.broadcastAddress 128 = .error .outOfBounds ∧
      a.networdAddress 128 = .error .outOfBounds ∧ ¬ SubnetRight a 128 := by
  intro a
  refine ⟨?_, fun h => ?_, subnetMask_long (by decide), broadcastAddress_long (by decide) a,
    networdAddress_long (by decide) a, fun h => ?_⟩
  · rw [networdAddress_ok (by decide)]
    exact congrArg Except.ok (by decide)
  · obtain ⟨_, hbyte⟩ := networkRight_iff.mp h.network
    have hfirst : a.s6_addr 0 = 0 := hbyte
    exact absurd hfirst (by decide)
  · exact absurd (maskRight_iff.mp h.mask) (by decide)

end IPv6Address

end Sylar
