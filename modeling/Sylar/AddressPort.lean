import Sylar.AddressText

/-! # The port of an address

A port is given as a `uint32_t`.  The bytes of this variable are swapped, and what is assigned to
the 16 bits of `sin_port` are its lower two bytes, which after the swap are those that were the
upper two; `getPort` swaps 16 bits.

**`port_round_trip_iff`**: a port below 65536 comes back only if it is zero, whichever way it is
given to an address of either class. -/
namespace Sylar

/-- `sin_port = byteswapOnLittleEndian( port )` -/
def portField (port : BitVec 32) : BitVec 16 := (byteswapOnLittleEndian port).setWidth 16

/-- `byteswapOnLittleEndian( sin_port )`, as a `uint32_t`. -/
def portOfField (sin_port : BitVec 16) : BitVec 32 :=
  (byteswapOnLittleEndian sin_port).setWidth 32

namespace IPv4Address

/-- `IPv4Address( address, port )` -/
def ofAddress (address port : BitVec 32) : IPv4Address where
  sin_family := AF_INET
  sin_port := portField port
  s_addr := byteswapOnLittleEndian address

/-- `IPv4Address::Create`; `inet_pton` has what it stores for a text that it takes. -/
def Create (inet_pton : List Char → Option (BitVec 32)) (address : List Char) (port : BitVec 32) :
    Option IPv4Address :=
  let rt := { ofAddress 0 0 with sin_port := portField port }
  match inet_pton address with
  | some sin_addr => some { rt with s_addr := sin_addr }
  | none => none

def getPort (a : IPv4Address) : BitVec 32 := portOfField a.sin_port

def setPort (a : IPv4Address) (val : BitVec 32) : IPv4Address :=
  { a with sin_port := portField val }

/-- What `insert` writes before the colon. -/
def hostText (s_addr : BitVec 32) : List Char :=
  let addr := byteswapOnLittleEndian s_addr
  let part (shift : Nat) := Nat.toDigits 10 ((addr >>> shift) &&& 0xff).toNat
  part 24 ++ '.' :: part 16 ++ '.' :: part 8 ++ '.' :: Nat.toDigits 10 (addr &&& 0xff).toNat

def insert (a : IPv4Address) : List Char :=
  hostText a.s_addr ++ ':' :: Nat.toDigits 10 (byteswapOnLittleEndian a.sin_port).toNat

/-- The address has the host `s_addr` and the port `p`. -/
structure HasPort (a : IPv4Address) (s_addr p : BitVec 32) : Prop where
  getPort : a.getPort = p
  network : hostBytes a.sin_port = [UInt8.ofNat (p.toNat / 256), UInt8.ofNat (p.toNat % 256)]
  host : a.s_addr = s_addr
  text : a.insert = hostText s_addr ++ ':' :: Nat.toDigits 10 p.toNat

end IPv4Address

namespace IPv6Address

/-- `IPv6Address( address, port )` -/
def ofAddress (address : Fin 16 → BitVec 8) (port : BitVec 32) : IPv6Address :=
  { blank with sin6_port := portField port, s6_addr := address }

/-- `IPv6Address::Create` -/
def Create (inet_pton : List Char → Option (Fin 16 → BitVec 8)) (address : List Char)
    (port : BitVec 32) : Option IPv6Address :=
  let rt := { blank with sin6_port := portField port }
  match inet_pton address with
  | some sin6_addr => some { rt with s6_addr := sin6_addr }
  | none => none

def getPort (a : IPv6Address) : BitVec 32 := portOfField a.sin6_port

def setPort (a : IPv6Address) (v : BitVec 32) : IPv6Address :=
  { a with sin6_port := portField v }

/-- The address has the host `s6_addr` and the port `p`. -/
structure HasPort (a : IPv6Address) (s6_addr : Fin 16 → BitVec 8) (p : BitVec 32) : Prop where
  getPort : a.getPort = p
  network : hostBytes a.sin6_port = [UInt8.ofNat (p.toNat / 256), UInt8.ofNat (p.toNat % 256)]
  host : a.s6_addr = s6_addr
  text : a.insert = '[' :: hostText { blank with s6_addr } ++ ']' :: ':' :: Nat.toDigits 10 p.toNat

end IPv6Address

/-! ## What is left of a port -/

/-- The lower two bytes of a swapped port are its upper two. -/
theorem portField_of_lt {p : BitVec 32} (h : p.toNat < 65536) : portField p = 0 := by
  refine BitVec.eq_of_getLsbD_eq fun j hj => ?_
  have hbit : (byteswap p).getLsbD j = p.getLsbD (8 * (3 - j / 8) + j % 8) :=
    getLsbD_byteswap (by decide) p (by omega)
  have hzero : p.getLsbD (8 * (3 - j / 8) + j % 8) = false := by
    -- the bit comes from behind the sixteenth one
    have hpow : 2 ^ 16 ≤ 2 ^ (8 * (3 - j / 8) + j % 8) :=
      Nat.pow_le_pow_right (by decide) (by omega)
    exact Nat.testBit_lt_two_pow (Nat.lt_of_lt_of_le h hpow)
  show (BitVec.setWidth 16 (byteswap p)).getLsbD j = (0#16).getLsbD j
  rw [BitVec.getLsbD_setWidth, hbit, hzero, Bool.and_false, BitVec.getLsbD_zero]

theorem portOfField_zero : portOfField 0 = 0 := by decide

/-- `( addr >> 8 * k ) & 0xff` -/
theorem shift_and_ofHostBytes (bs : List UInt8) {k : Nat} {b : UInt8} (hk : k < 4)
    (hb : bs[k]? = some b) :
    ((ofHostBytes 32 bs >>> (8 * k)) &&& 0xff).toNat = b.toNat := by
  have hmask : (0xff : BitVec 32) = BitMasks.lowOnes 32 8 := by decide
  have heq : (ofHostBytes 32 bs >>> (8 * k)) &&& 0xff = b.toBitVec.setWidth 32 := by
    refine BitVec.eq_of_getLsbD_eq fun j hj => ?_
    rw [hmask, BitVec.getLsbD_and, BitMasks.getLsbD_lowOnes, BitVec.getLsbD_ushiftRight,
      getLsbD_ofHostBytes, BitVec.getLsbD_setWidth, decide_eq_true hj, Bool.true_and, Bool.true_and]
    by_cases hlow : j < 8
    · rw [(by omega : (8 * k + j) / 8 = k), (by omega : (8 * k + j) % 8 = j), hb,
        decide_eq_true hlow, decide_eq_true (by omega : 8 * k + j < 32), Option.getD_some,
        Bool.and_true, Bool.true_and]
    · rw [decide_eq_false hlow, Bool.and_false, BitVec.getLsbD_of_ge _ _ (by omega)]
  rw [heq, BitVec.toNat_setWidth_of_le (by decide)]
  rfl

/-- The text has the bytes of the address, as they are in memory. -/
theorem IPv4Address.hostText_bytes (b0 b1 b2 b3 : UInt8) :
    hostText (ofHostBytes 32 [b0, b1, b2, b3]) =
      Nat.toDigits 10 b0.toNat ++ '.' :: Nat.toDigits 10 b1.toNat ++
        '.' :: Nat.toDigits 10 b2.toNat ++ '.' :: Nat.toDigits 10 b3.toNat := by
  have hswap : byteswapOnLittleEndian (ofHostBytes 32 [b0, b1, b2, b3]) =
      ofHostBytes 32 [b3, b2, b1, b0] := byteswap_ofHostBytes rfl
  have h0 : ((ofHostBytes 32 [b3, b2, b1, b0] >>> 24) &&& 0xff).toNat = b0.toNat :=
    shift_and_ofHostBytes _ (by decide : 3 < 4) rfl
  have h1 : ((ofHostBytes 32 [b3, b2, b1, b0] >>> 16) &&& 0xff).toNat = b1.toNat :=
    shift_and_ofHostBytes _ (by decide : 2 < 4) rfl
  have h2 : ((ofHostBytes 32 [b3, b2, b1, b0] >>> 8) &&& 0xff).toNat = b2.toNat :=
    shift_and_ofHostBytes _ (by decide : 1 < 4) rfl
  have h3 : (ofHostBytes 32 [b3, b2, b1, b0] &&& 0xff).toNat = b3.toNat := by
    have hnone := shift_and_ofHostBytes [b3, b2, b1, b0] (by decide : 0 < 4) rfl
    rwa [Nat.mul_zero, BitVec.ushiftRight_zero] at hnone
  rw [hostText, hswap]
  dsimp only
  rw [h0, h1, h2, h3]

/-- Whatever the host, a port below 65536 is the port of the address only if it is zero. -/
theorem IPv4Address.hasPort_iff {a : IPv4Address} {p s_addr : BitVec 32} (hp : p.toNat < 65536)
    (hport : a.sin_port = portField p) (hhost : a.s_addr = s_addr) :
    a.HasPort s_addr p ↔ p = 0 := by
  rw [portField_of_lt hp] at hport
  constructor
  · intro h
    rw [← h.getPort, IPv4Address.getPort, hport, portOfField_zero]
  · rintro rfl
    refine ⟨?_, ?_, hhost, ?_⟩
    · rw [IPv4Address.getPort, hport, portOfField_zero]
    · rw [hport]
      decide
    · rw [insert, hport, hhost]
      rfl

theorem IPv6Address.hasPort_iff {a : IPv6Address} {s6_addr : Fin 16 → BitVec 8} {p : BitVec 32}
    (hp : p.toNat < 65536) (hport : a.sin6_port = portField p) (hhost : a.s6_addr = s6_addr) :
    a.HasPort s6_addr p ↔ p = 0 := by
  rw [portField_of_lt hp] at hport
  constructor
  · intro h
    rw [← h.getPort, IPv6Address.getPort, hport, portOfField_zero]
  · rintro rfl
    refine ⟨?_, ?_, hhost, ?_⟩
    · rw [IPv6Address.getPort, hport, portOfField_zero]
    · rw [hport]
      decide
    · have hwords : a.words = words { blank with s6_addr } := by
        rw [words, words, hhost]
      rw [insert, hport, hostText, hwords]
      rfl

/-- **A port below 65536 is kept by an address only if it is zero**, given to the constructor, to
`Create` or to `setPort`. -/
theorem port_round_trip_iff (p : BitVec 32) (hp : p.toNat < 65536) :
    (∀ address : BitVec 32,
      (IPv4Address.ofAddress address p).HasPort (byteswapOnLittleEndian address) p ↔ p = 0) ∧
    (∀ inet_pton text s_addr a, inet_pton text = some s_addr →
      IPv4Address.Create inet_pton text p = some a → (a.HasPort s_addr p ↔ p = 0)) ∧
    (∀ a : IPv4Address, (a.setPort p).HasPort a.s_addr p ↔ p = 0) ∧
    (∀ address : Fin 16 → BitVec 8, (IPv6Address.ofAddress address p).HasPort address p ↔ p = 0) ∧
    (∀ inet_pton text s6_addr a, inet_pton text = some s6_addr →
      IPv6Address.Create inet_pton text p = some a → (a.HasPort s6_addr p ↔ p = 0)) ∧
    ∀ a : IPv6Address, (a.setPort p).HasPort a.s6_addr p ↔ p = 0 := by
  refine ⟨fun address => IPv4Address.hasPort_iff hp rfl rfl, ?_,
    fun a => IPv4Address.hasPort_iff hp rfl rfl, fun address => IPv6Address.hasPort_iff hp rfl rfl,
    ?_, fun a => IPv6Address.hasPort_iff hp rfl rfl⟩
  · intro inet_pton text s_addr a hpton hcreate
    rw [IPv4Address.Create, hpton] at hcreate
    cases hcreate
    exact IPv4Address.hasPort_iff hp rfl rfl
  · intro inet_pton text s6_addr a hpton hcreate
    rw [IPv6Address.Create, hpton] at hcreate
    cases hcreate
    exact IPv6Address.hasPort_iff hp rfl rfl

/-- The port 80 comes back as 0, and 0 as itself. -/
theorem port_round_trip_eighty :
    ¬ (IPv4Address.ofAddress 0x7f000001 80).HasPort (byteswapOnLittleEndian 0x7f000001) 80 ∧
      (IPv4Address.ofAddress 0x7f000001 80).getPort = 0 ∧
      (IPv4Address.ofAddress 0x7f000001 0).HasPort (byteswapOnLittleEndian 0x7f000001) 0 := by
  refine ⟨fun h => ?_, by decide, ((port_round_trip_iff 0 (by decide)).1 0x7f000001).mpr rfl⟩
  exact absurd (((port_round_trip_iff 80 (by decide)).1 0x7f000001).mp h) (by decide)

/-- What is to listen at 127.0.0.1:80 listens at port 0. -/
theorem port_eighty_lost :
    ¬ (∀ address p : BitVec 32,
      p.toNat < 65536 → (IPv4Address.ofAddress address p).getPort = p) := by
  intro h
  have hlost : (IPv4Address.ofAddress 0x7f000001 80).getPort = 0 := by decide
  rw [h 0x7f000001 80 (by decide)] at hlost
  exact absurd hlost (by decide)

end Sylar
