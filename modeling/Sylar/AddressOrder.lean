import Sylar.LexCompare
import Sylar.Address

/-! # The order of addresses

`operator<` compares two addresses as memory, over the shorter of their lengths, and takes the
shorter one to be the smaller where they agree.  The length is that of the class, but for
`UnixAddress`, which has it in a member that `setAddrLen` sets to anything.

**`address_order`**: this is the order of the byte strings, of any classes and lengths. -/
namespace Sylar
open LexCompare

/-- `AF_UNIX` -/
def AF_UNIX : BitVec 16 := 1

/-- An object of one of the classes of `Address`: its `m_addr`, byte by byte, and the `m_length`
of a `UnixAddress`.  Where that is too large, what is behind `m_addr` is looked at. -/
inductive Address
  | ipv4 (m_addr : Fin 16 → UInt8)
  | ipv6 (m_addr : Fin 28 → UInt8)
  | unix (m_addr : Fin 110 → UInt8) (m_length : BitVec 32) (behind : Nat → UInt8)
  | unknown (m_addr : Fin 16 → UInt8)

/-- The memory of an object, with what is behind it. -/
def objectBytes {n : Nat} (m_addr : Fin n → UInt8) (behind : Nat → UInt8) (i : Nat) : UInt8 :=
  if h : i < n then m_addr ⟨i, h⟩ else behind (i - n)

namespace Address

/-- What is at `getAddr()`. -/
def getAddr : Address → Nat → UInt8
  | ipv4 m_addr => objectBytes m_addr fun _ => 0
  | ipv6 m_addr => objectBytes m_addr fun _ => 0
  | unix m_addr _ behind => objectBytes m_addr behind
  | unknown m_addr => objectBytes m_addr fun _ => 0

/-- `getAddrLen` -/
def getAddrLen : Address → BitVec 32
  | ipv4 _ => 16
  | ipv6 _ => 28
  | unix _ m_length _ => m_length
  | unknown _ => 16

/-- `memcmp`, which compares as `unsigned char` where the two first differ. -/
def memcmp (lhs rhs : Nat → UInt8) (n : Nat) : Ordering :=
  compareFirst (fun i => (lhs i).toFin) (fun i => (rhs i).toFin) n

/-- `operator<` -/
def operatorLt (a rhs : Address) : Bool :=
  let minLen := min a.getAddrLen.toNat rhs.getAddrLen.toNat
  match memcmp a.getAddr rhs.getAddr minLen with
  | .lt => true
  | .gt => false
  | .eq => a.getAddrLen.ult rhs.getAddrLen

/-- `operator==` -/
def operatorEq (a rhs : Address) : Bool :=
  a.getAddrLen == rhs.getAddrLen && memcmp a.getAddr rhs.getAddr a.getAddrLen.toNat == .eq

/-- `operator!=` -/
def operatorNe (a rhs : Address) : Bool := !a.operatorEq rhs

/-- The byte string of an address. -/
def bytes (a : Address) : List (Fin 256) :=
  window (fun i => (a.getAddr i).toFin) a.getAddrLen.toNat

theorem operatorLt_eq (a b : Address) : a.operatorLt b = decide (a.bytes < b.bytes) := by
  rw [Bool.eq_iff_iff, decide_eq_true_iff, bytes, bytes, window_lt_iff, operatorLt, memcmp]
  cases compareFirst (fun i => (a.getAddr i).toFin) (fun i => (b.getAddr i).toFin)
    (min a.getAddrLen.toNat b.getAddrLen.toNat) with
  | lt => simp
  | gt => simp
  | eq => simp [BitVec.ult]

theorem operatorEq_eq (a b : Address) : a.operatorEq b = decide (a.bytes = b.bytes) := by
  rw [Bool.eq_iff_iff, decide_eq_true_iff, bytes, bytes, window_eq_iff, operatorEq, memcmp,
    Bool.and_eq_true, beq_iff_eq, beq_iff_eq, BitVec.toNat_eq]

/-- A length within the object keeps what is behind it out. -/
theorem bytes_unix_of_le {m_addr : Fin 110 → UInt8} {m_length : BitVec 32}
    (h : m_length.toNat ≤ 110) (behind behind' : Nat → UInt8) :
    (unix m_addr m_length behind).bytes = (unix m_addr m_length behind').bytes := by
  refine window_congr fun i hi => ?_
  have hin : i < 110 := Nat.lt_of_lt_of_le hi h
  simp only [getAddr, objectBytes, dif_pos hin]

end Address

/-! ## How a `UnixAddress` gets its length -/

namespace UnixAddress
variable (behind : Nat → UInt8)

/-- `m_addr` of a `UnixAddress`, of its family and the bytes of its `sun_path`. -/
def sockaddrUn (sun_path : Nat → UInt8) (i : Fin 110) : UInt8 :=
  if h : i.val < 2 then (hostBytes AF_UNIX).get ⟨i.val, h⟩ else sun_path (i.val - 2)

/-- `UnixAddress()` -/
def ofDefault : Address := .unix (sockaddrUn fun _ => 0) (2 + 107) behind

/-- `UnixAddress( path )`; what is thrown is `none`. -/
def ofPath (path : List UInt8) : Option Address :=
  let size := BitVec.ofNat 32 (path.length + 1)
  let length := if path.head? = some 0 then size - 1 else size
  if 108 < length.toNat then none
  else
    -- the terminator of `c_str` may be among what is copied
    let sun_path i := if i < length.toNat then path.getD i 0 else 0
    some (.unix (sockaddrUn sun_path) (length + 2) behind)

/-- `setAddrLen` -/
def setAddrLen (val : BitVec 32) : Address → Address
  | .unix m_addr _ behind => .unix m_addr val behind
  | a => a

/-- What is constructed has its length within the object, so that its string is its own. -/
theorem bytes_ofPath {path : List UInt8} {a : Address} (h : ofPath behind path = some a)
    (behind' : Nat → UInt8) : ∃ b, ofPath behind' path = some b ∧ b.bytes = a.bytes := by
  rw [ofPath] at h ⊢
  generalize (if path.head? = some 0 then BitVec.ofNat 32 (path.length + 1) - 1
    else BitVec.ofNat 32 (path.length + 1)) = length at h ⊢
  dsimp only at h ⊢
  split at h
  case isTrue => cases h
  case isFalse hle =>
    cases h
    rw [if_neg hle]
    exact ⟨_, rfl, Address.bytes_unix_of_le (by bv_omega) _ _⟩

end UnixAddress

/-- **The order of addresses is that of their byte strings**: it is a strict total order, and
what is neither smaller nor larger is equal. -/
theorem address_order :
    (∀ a b : Address, (a.operatorLt b = true ↔ a.bytes < b.bytes) ∧
      (a.operatorEq b = true ↔ a.bytes = b.bytes) ∧ a.operatorNe b = !a.operatorEq b) ∧
    (∀ a : Address, a.operatorLt a = false) ∧
    (∀ a b c : Address, a.operatorLt b = true → b.operatorLt c = true → a.operatorLt c = true) ∧
    (∀ a b : Address,
      (a.operatorLt b = true ∧ b.operatorLt a = false ∧ a.operatorEq b = false) ∨
      (a.operatorLt b = false ∧ b.operatorLt a = true ∧ a.operatorEq b = false) ∨
      (a.operatorLt b = false ∧ b.operatorLt a = false ∧ a.operatorEq b = true)) ∧
    ∀ a b c : Address, a.operatorEq b = true →
      a.operatorLt c = b.operatorLt c ∧ c.operatorLt a = c.operatorLt b ∧
        a.operatorEq c = b.operatorEq c := by
  refine ⟨fun a b => ?_, ?_⟩
  · rw [Address.operatorNe, Address.operatorLt_eq, Address.operatorEq_eq]
    exact ⟨decide_eq_true_iff, decide_eq_true_iff, rfl⟩
  -- from here on it is about byte strings only
  simp only [Address.operatorLt_eq, Address.operatorEq_eq, decide_eq_true_iff,
    decide_eq_false_iff_not]
  refine ⟨fun a => lt_irrefl _, fun a b c => lt_trans, fun a b => ?_, fun a b c h => ?_⟩
  · rcases lt_trichotomy a.bytes b.bytes with hlt | heq | hgt
    · exact Or.inl ⟨hlt, hlt.not_gt, hlt.ne⟩
    · rw [heq]
      exact Or.inr (Or.inr ⟨lt_irrefl _, lt_irrefl _, rfl⟩)
    · exact Or.inr (Or.inl ⟨hgt.not_gt, hgt, hgt.ne'⟩)
  · rw [h]
    exact ⟨rfl, rfl, rfl⟩

/-- Three lengths of one object: each string is the beginning of the next one. -/
theorem address_order_lengths :
    let a (m_length : BitVec 32) := Address.unix (fun _ => 0) m_length fun _ => 0
    (a 2).operatorLt (a 5) = true :=
  address_order.2.2.1 _ (.unix (fun _ => 0) 3 fun _ => 0) _ (by decide) (by decide)

end Sylar
