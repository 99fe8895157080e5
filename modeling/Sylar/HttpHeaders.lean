import Mathlib.Data.List.TakeWhile
import Sylar.HttpMessage
import Sylar.OrderedMap

/-! # The header maps of `http.h`

`HttpRequest` and `HttpResponse` keep their headers in a `std::map` whose keys are compared by
`CaseInsensitiveLess`.  Its `operator()` returns the `int` of `strcasecmp` as a `bool`, which is
true whenever the keys differ, not only when the first is less.

So two keys that differ are each less than the other, and the comparison is a strict weak order
on some keys only if all of them are equal ignoring case: **`caseless_iff`**.  There a
search finds what was last set. -/
namespace Sylar.Http
open OrderedMap

/-! ## `CaseInsensitiveLess` -/

/-- The C string of a `std::string`, in lower case. -/
def lowered (s : Bytes) : Bytes := (s.takeWhile (· != 0)).map tolower

/-- The difference of the first bytes that differ; behind its last byte a string has a zero. -/
def byteDifference : Bytes → Bytes → Int
  | [], [] => 0
  | [], b :: _ => -b.toNat
  | a :: _, [] => a.toNat
  | a :: as, b :: bs => if a = b then byteDifference as bs else a.toNat - b.toNat

/-- `strcasecmp( lhs.c_str(), rhs.c_str() )` -/
def strcasecmp (lhs rhs : Bytes) : Int := byteDifference (lowered lhs) (lowered rhs)

/-- `CaseInsensitiveLess::operator()`: an `int` is converted to a `bool`. -/
def caseInsensitiveLess (lhs rhs : Bytes) : Bool := strcasecmp lhs rhs ≠ 0

/-- Equal ignoring case. -/
def SameIgnoringCase (a b : Bytes) : Prop := a.map tolower = b.map tolower

/-! ## The maps -/

/-- `std::map<std::string, std::string, CaseInsensitiveLess>`, with `erase` and the order in which
a loop goes over its entries. -/
class StdMap (M : Type) extends HeaderMap M where
  erase : M → Bytes → M
  entries : M → List (Bytes × Bytes)

/-- The operations that change or search a map. -/
def StdMap.ops (M : Type) [StdMap M] : Ops M Bytes Bytes where
  empty := HeaderMap.empty
  assign := HeaderMap.assign
  erase := StdMap.erase
  find := HeaderMap.find

section Messages
variable {M : Type} [StdMap M]

def HttpRequest.delHeader (r : HttpRequest M) (key : Bytes) : HttpRequest M :=
  { r with headers := StdMap.erase r.headers key }

def HttpResponse.getHeader (r : HttpResponse M) (key default : Bytes) : Bytes :=
  (HeaderMap.find r.headers key).getD default

def HttpResponse.delHeader (r : HttpResponse M) (key : Bytes) : HttpResponse M :=
  { r with headers := StdMap.erase r.headers key }

/-- A call of `setHeader` or `delHeader`. -/
abbrev HeaderCall := Update Bytes Bytes

def HttpRequest.call (r : HttpRequest M) : HeaderCall → HttpRequest M
  | .set key val => r.setHeader key val
  | .del key => r.delHeader key

def HttpResponse.call (r : HttpResponse M) : HeaderCall → HttpResponse M
  | .set key val => r.setHeader key val
  | .del key => r.delHeader key

/-- Both classes hand their calls to the map. -/
theorem HttpRequest.headers_calls (r : HttpRequest M) (calls : List HeaderCall) :
    (calls.foldl HttpRequest.call r).headers = (StdMap.ops M).run r.headers calls := by
  induction calls generalizing r with
  | nil => rfl
  | cons c calls ih =>
    rw [List.foldl_cons, ih]
    cases c <;> rfl

theorem HttpResponse.headers_calls (r : HttpResponse M) (calls : List HeaderCall) :
    (calls.foldl HttpResponse.call r).headers = (StdMap.ops M).run r.headers calls := by
  induction calls generalizing r with
  | nil => rfl
  | cons c calls ih =>
    rw [List.foldl_cons, ih]
    cases c <;> rfl

end Messages

/-! ## Keys that are equal ignoring case -/

theorem tolower_eq_zero (c : UInt8) : tolower c = 0 ↔ c = 0 := by
  rw [tolower]
  split
  case isFalse => rfl
  case isTrue h =>
    have hA : 65 ≤ c.toNat := UInt8.le_iff_toNat_le.mp h.1
    have hZ : c.toNat ≤ 90 := UInt8.le_iff_toNat_le.mp h.2
    rw [← UInt8.toNat_inj, ← UInt8.toNat_inj, UInt8.toNat_add]
    have h32 : (32 : UInt8).toNat = 32 := rfl
    have h0 : (0 : UInt8).toNat = 0 := rfl
    omega

theorem byteDifference_eq_zero {a b : Bytes} (ha : ∀ c ∈ a, c ≠ 0) (hb : ∀ c ∈ b, c ≠ 0) :
    byteDifference a b = 0 ↔ a = b := by
  have hpos : ∀ c : UInt8, c ≠ 0 → (c.toNat : Int) ≠ 0 := by
    intro c hc h0
    exact hc (UInt8.toNat_inj.mp (Int.ofNat_eq_zero.mp h0))
  induction a generalizing b with
  | nil =>
    cases b with
    | nil => exact iff_of_true rfl rfl
    | cons c b =>
      refine iff_of_false (fun h => ?_) (List.cons_ne_nil c b).symm
      exact hpos c (hb c (List.mem_cons_self ..)) (Int.neg_eq_zero.mp h)
  | cons c a ih =>
    have hc := ha c (List.mem_cons_self ..)
    cases b with
    | nil => exact iff_of_false (hpos c hc) (List.cons_ne_nil c a)
    | cons d b =>
      rw [byteDifference, List.cons_eq_cons]
      by_cases hcd : c = d
      · have hrest := ih (fun x hx => ha x (List.mem_cons_of_mem c hx))
          fun x hx => hb x (List.mem_cons_of_mem d hx)
        rw [if_pos hcd]
        exact hrest.trans (and_iff_right hcd).symm
      · rw [if_neg hcd]
        refine iff_of_false (fun h => hcd ?_) fun h => hcd h.1
        exact UInt8.toNat_inj.mp (by omega)

theorem lowered_ne_zero (s : Bytes) : ∀ c ∈ lowered s, c ≠ 0 := by
  intro c hc
  obtain ⟨d, hd, rfl⟩ := List.mem_map.mp hc
  have hd0 : d ≠ 0 := by simpa using List.mem_takeWhile_imp hd
  exact fun h => hd0 ((tolower_eq_zero d).mp h)

/-- The comparison says that two C strings differ, ignoring case. -/
theorem caseInsensitiveLess_eq_false {a b : Bytes} :
    caseInsensitiveLess a b = false ↔ lowered a = lowered b := by
  rw [caseInsensitiveLess, decide_eq_false_iff_not, ne_eq, not_not]
  exact byteDifference_eq_zero (lowered_ne_zero a) (lowered_ne_zero b)

theorem caseInsensitiveLess_comm (a b : Bytes) :
    caseInsensitiveLess a b = caseInsensitiveLess b a := by
  cases h : caseInsensitiveLess b a with
  | false => exact caseInsensitiveLess_eq_false.mpr (caseInsensitiveLess_eq_false.mp h).symm
  | true =>
    rw [← Bool.not_eq_false, caseInsensitiveLess_eq_false] at h ⊢
    exact fun heq => h heq.symm

theorem SameIgnoringCase.lowered {a b : Bytes} (h : SameIgnoringCase a b) :
    Http.lowered a = Http.lowered b := by
  have hlower : ∀ s : Bytes, Http.lowered s = (s.map tolower).takeWhile (· != 0) := by
    intro s
    rw [List.takeWhile_map, Http.lowered]
    refine congrArg (List.map tolower) (congrArg (s.takeWhile ·) (funext fun c => ?_))
    rw [Function.comp_apply, Bool.eq_iff_iff, bne_iff_ne, bne_iff_ne]
    exact not_congr (tolower_eq_zero c).symm
  rw [hlower, hlower, h]

/-- The headers are a map that ignores the case of its keys, as far as keys in `S` are used: the
comparison is a strict weak order in which the equivalent keys are those that are equal ignoring
case, and a search finds what was last set under such a key and not deleted since. -/
structure Caseless (M : Type) [StdMap M] (S : Set Bytes) : Prop where
  order : StrictWeakOn caseInsensitiveLess S
  equiv_iff : ∀ a ∈ S, ∀ b ∈ S, equiv caseInsensitiveLess a b = true ↔ SameIgnoringCase a b
  request : ∀ calls : List HeaderCall, (∀ c ∈ calls, c.key ∈ S) → ∀ k ∈ S, ∀ default : Bytes,
    (calls.foldl HttpRequest.call ({ headers := HeaderMap.empty } : HttpRequest M)).getHeader k
      default = (latest (fun key => key.map tolower = k.map tolower) none calls).getD default
  response : ∀ calls : List HeaderCall, (∀ c ∈ calls, c.key ∈ S) → ∀ k ∈ S, ∀ default : Bytes,
    (calls.foldl HttpResponse.call ({ headers := HeaderMap.empty } : HttpResponse M)).getHeader k
      default = (latest (fun key => key.map tolower = k.map tolower) none calls).getD default

/-- **When the headers are such a map**: as far as only keys are used that are equal ignoring
case. -/
theorem caseless_iff {M : Type} [StdMap M] (hmap : (StdMap.ops M).Lawful caseInsensitiveLess)
    (S : Set Bytes) : Caseless M S ↔ ∀ a ∈ S, ∀ b ∈ S, SameIgnoringCase a b := by
  constructor
  · intro h a ha b hb
    -- each of two keys that differ would be less than the other
    have hnot : caseInsensitiveLess a b = false := by
      by_contra hlt
      rw [Bool.not_eq_false] at hlt
      have hgt := h.order.asymm a ha b hb hlt
      rw [caseInsensitiveLess_comm, hlt] at hgt
      cases hgt
    refine (h.equiv_iff a ha b hb).mp ?_
    rw [equiv, caseInsensitiveLess_comm b a, hnot]
    rfl
  · intro hsame
    have hnot : ∀ a ∈ S, ∀ b ∈ S, caseInsensitiveLess a b = false := fun a ha b hb =>
      caseInsensitiveLess_eq_false.mpr (hsame a ha b hb).lowered
    have hequiv : ∀ a ∈ S, ∀ b ∈ S, equiv caseInsensitiveLess a b = true := by
      intro a ha b hb
      rw [equiv, hnot a ha b hb, hnot b hb a ha]
      rfl
    have horder : StrictWeakOn caseInsensitiveLess S := by
      constructor
      case irrefl => exact fun a ha => hnot a ha a ha
      case asymm => exact fun a ha b hb _ => hnot b hb a ha
      case trans =>
        intro a ha b hb _ _ hab _
        rw [hnot a ha b hb] at hab
        cases hab
      case equiv_trans => exact fun a ha _ _ c hc _ _ => hequiv a ha c hc
    have hfind : ∀ calls : List HeaderCall, (∀ c ∈ calls, c.key ∈ S) → ∀ k ∈ S,
        HeaderMap.find ((StdMap.ops M).run HeaderMap.empty calls) k =
          latest (fun key => key.map tolower = k.map tolower) none calls := by
      intro calls hkeys k hk
      refine (hmap.find_run horder hkeys hk).trans (latest_congr fun c hc => ?_)
      rw [hequiv _ (hkeys c hc) k hk, eq_comm, decide_eq_true_iff]
      exact hsame _ (hkeys c hc) k hk
    constructor
    case order => exact horder
    case equiv_iff => exact fun a ha b hb => iff_of_true (hequiv a ha b hb) (hsame a ha b hb)
    case request =>
      intro calls hkeys k hk default
      rw [HttpRequest.getHeader, HttpRequest.headers_calls, hfind calls hkeys k hk]
    case response =>
      intro calls hkeys k hk default
      rw [HttpResponse.getHeader, HttpResponse.headers_calls, hfind calls hkeys k hk]

/-- A header map as the list of its entries. -/
def EntryList := List (Bytes × Bytes)

instance : StdMap EntryList where
  empty := (listOps caseInsensitiveLess).empty
  assign := (listOps caseInsensitiveLess).assign
  erase := (listOps caseInsensitiveLess).erase
  find := (listOps caseInsensitiveLess).find
  entries m := m

theorem entryList_lawful : (StdMap.ops EntryList).Lawful caseInsensitiveLess := listOps_lawful

/-- One header, under names that differ in case. -/
theorem caseless_iff_host : Caseless EntryList {s | SameIgnoringCase s (bytes "Host")} :=
  (caseless_iff entryList_lawful _).mpr fun _ ha _ hb => Eq.trans ha (Eq.symm hb)

/-- `Host` is less than `Server`, and `Server` less than `Host`. -/
theorem host_server_not_ordered : ¬ Caseless EntryList Set.univ := by
  intro h
  have hgt := h.order.asymm (bytes "Host") trivial (bytes "Server") trivial (by decide +kernel)
  exact absurd hgt (by decide +kernel)

end Sylar.Http
