import Sylar.HttpUrl
import Mathlib.Data.List.Basic

/-! # Splitting a host string

`Address::LookUp` takes the node and the service for `getaddrinfo` out of one string.  It looks
for an address in brackets, and if there is none for a colon; a second colon is to mean that there
is no service.

**`lookUpSplit_iff`**: for which strings it makes what it should, and that it never looks outside
of the string. -/
namespace Sylar
open Http (chr)

/-- What has no defined behaviour in the code. -/
inductive LookUpFault
  /-- A byte behind the terminator is read. -/
  | outOfBounds
  deriving DecidableEq, Repr

/-- A byte that is behind `host.c_str()`: of the string, or its terminator. -/
def readAt (host : List UInt8) (i : Nat) : Except LookUpFault UInt8 :=
  match (host ++ [0])[i]? with
  | some b => .ok b
  | none => .error .outOfBounds

/-- `memchr`, on `n` bytes from the `i`-th on; what it returns is where the byte is. -/
def memchr (host : List UInt8) (c : UInt8) : Nat → Nat → Except LookUpFault (Option Nat)
  | 0, _ => .ok none
  | n + 1, i => do
    let b ← readAt host i
    if b = c then return some i else memchr host c n (i + 1)

/-- The part of `LookUp` for a string that starts with a bracket: `node` and `service`. -/
def scanBracket (host : List UInt8) : Except LookUpFault (List UInt8 × Option Nat) :=
  if host ≠ [] ∧ host.head? = some (chr '[') then do
    match ← memchr host (chr ']') (host.length - 1) 1 with
    | some endipv6 =>
      let b ← readAt host (endipv6 + 1)
      let service := if b = chr ':' then some (endipv6 + 2) else none
      return ((host.drop 1).take (endipv6 - 1), service)
    | none => return ([], none)
  else return ([], none)

/-- The part for a colon, where `node` is empty. -/
def scanColon (host : List UInt8) : Except LookUpFault (List UInt8 × Option Nat) := do
  match ← memchr host (chr ':') host.length 0 with
  | some service =>
    match ← memchr host (chr ':') (host.length - service - 1) (service + 1) with
    -- `service` is not taken back
    | some _ => return ([], some service)
    | none => return (host.take service, some (service + 1))
  | none => return ([], none)

/-- `LookUp`: the node and the service that are passed on, the service as the text from the
pointer on. -/
def lookUpSplit (host : List UInt8) : Except LookUpFault (List UInt8 × Option (List UInt8)) := do
  let bracket ← scanBracket host
  let (node, service) ← (if bracket.1 = [] then scanColon host else .ok bracket)
  let node := if node = [] then host else node
  return (node, service.map fun offset => host.drop offset)

/-! ## Looking for a byte -/

theorem readAt_append {front back : List UInt8} {b : UInt8} :
    readAt (front ++ b :: back) front.length = .ok b := by
  have hget : (front ++ b :: back ++ [0])[front.length]? = some b := by
    rw [List.append_assoc, List.getElem?_append_right (Nat.le_refl _), Nat.sub_self]
    rfl
  rw [readAt, hget]

theorem readAt_length (host : List UInt8) : readAt host host.length = .ok 0 := by
  rw [readAt, List.getElem?_concat_length]

theorem memchr_of_notMem {c : UInt8} {b : List UInt8} (h : c ∉ b) (front back : List UInt8) :
    memchr (front ++ (b ++ back)) c b.length front.length = .ok none := by
  induction b generalizing front with
  | nil => rfl
  | cons x b ih =>
    rw [List.mem_cons, not_or] at h
    have hrest := ih h.2 (front ++ [x])
    rw [List.append_assoc, List.length_append, List.length_singleton] at hrest
    rw [List.length_cons, memchr, List.cons_append, readAt_append]
    exact (if_neg (Ne.symm h.1)).trans hrest

theorem memchr_of_append {c : UInt8} {b : List UInt8} (h : c ∉ b) {n : Nat} (hn : b.length < n)
    (front back : List UInt8) :
    memchr (front ++ (b ++ c :: back)) c n front.length = .ok (some (front.length + b.length)) := by
  induction b generalizing front n with
  | nil =>
    obtain ⟨m, rfl⟩ : ∃ m, n = m + 1 := ⟨n - 1, by rw [List.length_nil] at hn; omega⟩
    rw [memchr, List.nil_append, readAt_append]
    exact if_pos rfl
  | cons x b ih =>
    rw [List.length_cons] at hn
    obtain ⟨m, rfl⟩ : ∃ m, n = m + 1 := ⟨n - 1, by omega⟩
    rw [List.mem_cons, not_or] at h
    have hrest := ih h.2 (by omega : b.length < m) (front ++ [x])
    rw [List.append_assoc, List.length_append, List.length_singleton] at hrest
    rw [memchr, List.cons_append, readAt_append, List.length_cons,
      (by omega : front.length + (b.length + 1) = front.length + 1 + b.length)]
    exact (if_neg (Ne.symm h.1)).trans hrest

/-! ## Kinds of strings -/

/-- There is a group in brackets at the beginning, which is not empty. -/
def Grouped (host : List UInt8) : Prop :=
  ∃ h t, h ≠ [] ∧ chr ']' ∉ h ∧ host = chr '[' :: h ++ chr ']' :: t

theorem scanBracket_grouped {h : List UInt8} (t : List UInt8) (hmem : chr ']' ∉ h) :
    scanBracket (chr '[' :: h ++ chr ']' :: t) =
      .ok (h, if t.head? = some (chr ':') then some (h.length + 3) else none) := by
  have hfind : memchr (chr '[' :: h ++ chr ']' :: t) (chr ']')
      ((chr '[' :: h ++ chr ']' :: t).length - 1) 1 = .ok (some (1 + h.length)) :=
    memchr_of_append hmem (by simp) [chr '['] t
  have hread : readAt (chr '[' :: h ++ chr ']' :: t) (1 + h.length + 1) = .ok (t.head?.getD 0) := by
    cases t with
    | nil =>
      have hend := readAt_length (chr '[' :: h ++ [chr ']'])
      rwa [List.length_append, List.length_cons, List.length_singleton,
        Nat.add_comm h.length] at hend
    | cons b t =>
      have hnext : readAt (chr '[' :: h ++ [chr ']'] ++ b :: t) (chr '[' :: h ++ [chr ']']).length =
          .ok b := readAt_append
      rw [List.length_append, List.length_cons, List.length_singleton, Nat.add_comm h.length,
        List.append_assoc] at hnext
      exact hnext
  have htext : ((chr '[' :: h ++ chr ']' :: t).drop 1).take (1 + h.length - 1) = h := by
    rw [Nat.add_sub_cancel_left, List.cons_append, List.drop_one, List.tail_cons, List.take_left]
  have hcolon : t.head?.getD 0 = chr ':' ↔ t.head? = some (chr ':') := by
    cases t with
    | nil => decide
    | cons b t => simp
  rw [scanBracket, if_pos ⟨by simp, rfl⟩, hfind]
  show (readAt (chr '[' :: h ++ chr ']' :: t) (1 + h.length + 1) >>= _) = _
  rw [hread]
  show Except.ok (List.take (1 + h.length - 1) _, _) = _
  rw [htext]
  simp only [hcolon, (by omega : 1 + h.length + 2 = h.length + 3)]

theorem scanBracket_of_not_grouped {host : List UInt8} (h : ¬ Grouped host) :
    ∃ service, scanBracket host = .ok ([], service) := by
  by_cases hopen : host ≠ [] ∧ host.head? = some (chr '[')
  · obtain ⟨tail, rfl⟩ : ∃ tail, host = chr '[' :: tail := by
      cases host with
      | nil => exact absurd rfl hopen.1
      | cons b tail => exact ⟨tail, by rw [Option.some.inj hopen.2]⟩
    -- without a closing bracket `endipv6` is null
    by_cases hclose : chr ']' ∈ tail
    · obtain ⟨group, t, rfl, hgroup⟩ := List.eq_append_cons_of_mem hclose
      have hempty : group = [] := by
        by_contra hne
        exact h ⟨group, t, hne, hgroup, rfl⟩
      subst hempty
      -- the group is empty, and so is the node, whatever is behind it
      have hfind : memchr (chr '[' :: ([] ++ chr ']' :: t)) (chr ']')
          ((chr '[' :: ([] ++ chr ']' :: t)).length - 1) 1 = .ok (some 1) :=
        memchr_of_append List.not_mem_nil (by simp) [chr '['] t
      obtain ⟨b, hread⟩ : ∃ b, readAt (chr '[' :: ([] ++ chr ']' :: t)) 2 = .ok b := by
        cases t with
        | nil => exact ⟨0, rfl⟩
        | cons b t => exact ⟨b, rfl⟩
      rw [scanBracket, if_pos hopen, hfind]
      refine ⟨if b = chr ':' then some 3 else none, ?_⟩
      show (readAt (chr '[' :: ([] ++ chr ']' :: t)) 2 >>= _) = _
      rw [hread]
      rfl
    · have hfind := memchr_of_notMem hclose [chr '['] []
      rw [List.append_nil] at hfind
      rw [scanBracket, if_pos hopen]
      refine ⟨none, ?_⟩
      show (memchr ([chr '['] ++ tail) (chr ']') tail.length [chr '['].length >>= _) = _
      rw [hfind]
      rfl
  · rw [scanBracket, if_neg hopen]
    exact ⟨none, rfl⟩

theorem scanColon_none {host : List UInt8} (h : chr ':' ∉ host) :
    scanColon host = .ok ([], none) := by
  have hfind := memchr_of_notMem h [] []
  rw [List.append_nil, List.nil_append] at hfind
  rw [scanColon]
  show (memchr host (chr ':') host.length ([] : List UInt8).length >>= _) = _
  rw [hfind]
  rfl

/-- The scan from a colon on, for a second one. -/
theorem scanColon_of_append {h s : List UInt8} (hh : chr ':' ∉ h) :
    scanColon (h ++ chr ':' :: s) =
      .ok (if chr ':' ∈ s then ([], some h.length) else (h, some (h.length + 1))) := by
  have hfind : memchr (h ++ chr ':' :: s) (chr ':') (h ++ chr ':' :: s).length 0 =
      .ok (some (0 + h.length)) := memchr_of_append hh (by simp) [] s
  have hsplit : h ++ chr ':' :: s = (h ++ [chr ':']) ++ s := by
    rw [List.append_assoc]
    rfl
  have hlen : (h ++ chr ':' :: s).length - h.length - 1 = s.length := by
    rw [List.length_append, List.length_cons]
    omega
  have hfront : (h ++ [chr ':']).length = h.length + 1 := by
    rw [List.length_append, List.length_singleton]
  rw [scanColon, hfind, Nat.zero_add]
  show (memchr (h ++ chr ':' :: s) (chr ':') ((h ++ chr ':' :: s).length - h.length - 1)
    (h.length + 1) >>= _) = _
  rw [hlen, hsplit, ← hfront]
  by_cases hs : chr ':' ∈ s
  · obtain ⟨b, rest, rfl, hb⟩ := List.eq_append_cons_of_mem hs
    rw [memchr_of_append hb (by simp), if_pos hs]
    rfl
  · have hnone := memchr_of_notMem hs (h ++ [chr ':']) []
    rw [List.append_nil] at hnone
    rw [hnone, if_neg hs]
    show Except.ok (List.take h.length (h ++ [chr ':'] ++ s), _) = _
    rw [List.append_assoc, List.take_left, hfront]

/-! ## What is passed on -/

theorem lookUpSplit_grouped {h t : List UInt8} (hne : h ≠ []) (hmem : chr ']' ∉ h) :
    lookUpSplit (chr '[' :: h ++ chr ']' :: t) =
      .ok (h, if t.head? = some (chr ':') then some t.tail else none) := by
  rw [lookUpSplit, scanBracket_grouped t hmem]
  show ((if h = [] then scanColon _ else Except.ok _) >>= _) = _
  rw [if_neg hne]
  show Except.ok (if h = [] then _ else h, Option.map _ _) = _
  rw [if_neg hne]
  cases t with
  | nil => rfl
  | cons b t =>
    by_cases hb : b = chr ':'
    · have hdrop : (chr '[' :: h ++ chr ']' :: b :: t).drop (h.length + 3) = t := by
        rw [List.cons_append, List.drop_succ_cons, List.drop_append, Nat.add_sub_cancel_left,
          List.drop_eq_nil_of_le (Nat.le_add_right _ 2)]
        rfl
      rw [List.head?_cons, if_pos (congrArg some hb), if_pos (congrArg some hb), Option.map_some,
        hdrop, List.tail_cons]
    · rw [List.head?_cons, if_neg (fun heq => hb (Option.some.inj heq)),
        if_neg (fun heq => hb (Option.some.inj heq)), Option.map_none]

theorem lookUpSplit_of_not_grouped {host : List UInt8} (h : ¬ Grouped host)
    {found : List UInt8 × Option Nat} (hfound : scanColon host = .ok found) :
    lookUpSplit host =
      .ok (if found.1 = [] then host else found.1, found.2.map fun offset => host.drop offset) := by
  obtain ⟨service, hscan⟩ := scanBracket_of_not_grouped h
  rw [lookUpSplit, hscan]
  show (scanColon host >>= _) = _
  rw [hfound]
  rfl

section Colons
variable {host h s : List UInt8}

theorem lookUpSplit_noColon (hgroup : ¬ Grouped host) (hcolon : chr ':' ∉ host) :
    lookUpSplit host = .ok (host, none) := by
  rw [lookUpSplit_of_not_grouped hgroup (scanColon_none hcolon), if_pos rfl]
  rfl

theorem lookUpSplit_oneColon (hgroup : ¬ Grouped (h ++ chr ':' :: s)) (hh : chr ':' ∉ h)
    (hs : chr ':' ∉ s) :
    lookUpSplit (h ++ chr ':' :: s) =
      .ok (if h = [] then h ++ chr ':' :: s else h, some s) := by
  have hdrop : (h ++ chr ':' :: s).drop (h.length + 1) = s := by
    rw [List.drop_append, Nat.add_sub_cancel_left, List.drop_eq_nil_of_le (Nat.le_succ _)]
    rfl
  have hscan := scanColon_of_append (s := s) hh
  rw [if_neg hs] at hscan
  rw [lookUpSplit_of_not_grouped hgroup hscan, Option.map_some, hdrop]

/-- With a second colon the whole string is the node, but the service is what is from the first
colon on. -/
theorem lookUpSplit_manyColons (hgroup : ¬ Grouped (h ++ chr ':' :: s)) (hh : chr ':' ∉ h)
    (hs : chr ':' ∈ s) :
    lookUpSplit (h ++ chr ':' :: s) = .ok (h ++ chr ':' :: s, some (chr ':' :: s)) := by
  have hscan := scanColon_of_append (s := s) hh
  rw [if_pos hs] at hscan
  rw [lookUpSplit_of_not_grouped hgroup hscan, if_pos rfl, Option.map_some, List.drop_left]

theorem count_split (hh : chr ':' ∉ h) :
    (h ++ chr ':' :: s).count (chr ':') = s.count (chr ':') + 1 := by
  rw [List.count_append, List.count_eq_zero_of_not_mem hh, List.count_cons_self, Nat.zero_add]

/-- A string with a colon is split at the first one. -/
theorem exists_split (hcount : host.count (chr ':') ≠ 0) :
    ∃ h s, host = h ++ chr ':' :: s ∧ chr ':' ∉ h :=
  List.eq_append_cons_of_mem (List.count_pos_iff.mp (Nat.pos_of_ne_zero hcount))

/-- Every string is split, and nothing outside of it is read. -/
theorem exists_lookUpSplit (host : List UInt8) : ∃ found, lookUpSplit host = .ok found := by
  by_cases hgroup : Grouped host
  · obtain ⟨group, t, hne, hmem, rfl⟩ := hgroup
    exact ⟨_, lookUpSplit_grouped hne hmem⟩
  · by_cases hcolon : chr ':' ∈ host
    · obtain ⟨h, s, rfl, hh⟩ := List.eq_append_cons_of_mem hcolon
      by_cases hs : chr ':' ∈ s
      · exact ⟨_, lookUpSplit_manyColons hgroup hh hs⟩
      · exact ⟨_, lookUpSplit_oneColon hgroup hh hs⟩
    · exact ⟨_, lookUpSplit_noColon hgroup hcolon⟩

end Colons

/-! ## What is asked for -/

/-- The string is `[h]`, or `[h]:s`, with a group that is not empty. -/
def Bracketed (host h : List UInt8) (service : Option (List UInt8)) : Prop :=
  h ≠ [] ∧ chr ']' ∉ h ∧
    ((host = chr '[' :: h ++ [chr ']'] ∧ service = none) ∨
      ∃ s, host = chr '[' :: h ++ chr ']' :: chr ':' :: s ∧ service = some s)

/-- The node and the service that are asked for, where there are such. -/
inductive Expected (host : List UInt8) : List UInt8 → Option (List UInt8) → Prop
  | bracketed {h : List UInt8} {service : Option (List UInt8)} :
    Bracketed host h service → Expected host h service
  | single {h s : List UInt8} :
    (∀ group service, ¬ Bracketed host group service) → h ≠ [] → chr ':' ∉ h → chr ':' ∉ s →
    host = h ++ chr ':' :: s → Expected host h (some s)
  | bare : chr '[' ∉ host → chr ']' ∉ host → host.count (chr ':') ≠ 1 → Expected host host none

/-- No brackets, and more than one colon. -/
def BareColons (host : List UInt8) : Prop :=
  chr '[' ∉ host ∧ chr ']' ∉ host ∧ 2 ≤ host.count (chr ':')

/-- One colon, and a group in brackets that something else comes behind. -/
def Trailing (host : List UInt8) : Prop :=
  host.count (chr ':') = 1 ∧ ∃ h b t, h ≠ [] ∧ chr ']' ∉ h ∧ b ≠ chr ':' ∧
    host = chr '[' :: h ++ chr ']' :: b :: t

theorem not_grouped_of_notMem {host : List UInt8} (h : chr '[' ∉ host) : ¬ Grouped host := by
  rintro ⟨group, t, -, -, rfl⟩
  exact h (List.mem_cons_self)

/-- There is one group. -/
theorem group_unique {g g' t t' : List UInt8} (hg : chr ']' ∉ g) (hg' : chr ']' ∉ g')
    (h : chr '[' :: g ++ chr ']' :: t = chr '[' :: g' ++ chr ']' :: t') : g = g' ∧ t = t' := by
  rw [List.cons_append, List.cons_append, List.cons_inj_right] at h
  have hsplit := congrArg (List.splitOn (chr ']')) h
  rw [List.splitOn_append_cons_self_of_not_mem hg,
    List.splitOn_append_cons_self_of_not_mem hg'] at hsplit
  obtain rfl := (List.cons_eq_cons.mp hsplit).1
  exact ⟨rfl, List.tail_eq_of_cons_eq (List.append_cancel_left h)⟩

theorem Bracketed.group {host g g' t : List UInt8} {service : Option (List UInt8)}
    (h : Bracketed host g service) (hg' : chr ']' ∉ g')
    (hhost : host = chr '[' :: g' ++ chr ']' :: t) :
    t = [] ∨ t.head? = some (chr ':') := by
  obtain ⟨-, hg, ⟨heq, -⟩ | ⟨s, heq, -⟩⟩ := h
  · exact Or.inl (group_unique hg' hg (hhost.symm.trans heq)).2
  · rw [(group_unique hg' hg (hhost.symm.trans heq)).2]
    exact Or.inr rfl

theorem lookUpSplit_bracketed {host h : List UInt8} {service : Option (List UInt8)}
    (hbracketed : Bracketed host h service) : lookUpSplit host = .ok (h, service) := by
  obtain ⟨hne, hmem, ⟨rfl, rfl⟩ | ⟨s, rfl, rfl⟩⟩ := hbracketed
  · exact lookUpSplit_grouped hne hmem
  · exact lookUpSplit_grouped hne hmem

/-- **What is asked for is passed on, except for strings without brackets that have more than one
colon, and for strings with one colon and something else behind a group**; and nothing outside of
the string is read. -/
theorem lookUpSplit_iff (host : List UInt8) :
    (∃ found, lookUpSplit host = .ok found) ∧
    ((∀ node service, Expected host node service → lookUpSplit host = .ok (node, service)) ↔
      ¬ BareColons host ∧ ¬ Trailing host) := by
  refine ⟨exists_lookUpSplit host, fun hright => ⟨?_, ?_⟩, ?_⟩
  · rintro ⟨hopen, hclose, hcount⟩
    have hexpected := hright host none (.bare hopen hclose (by omega))
    obtain ⟨h, s, rfl, hh⟩ := exists_split (by omega : host.count (chr ':') ≠ 0)
    rw [count_split hh] at hcount
    have hs : chr ':' ∈ s := List.count_pos_iff.mp (by omega)
    rw [lookUpSplit_manyColons (not_grouped_of_notMem hopen) hh hs] at hexpected
    cases hexpected
  · rintro ⟨hcount, group, b, t, hne, hmem, hb, hhost⟩
    obtain ⟨h, s, hsplit, hh⟩ := exists_split (by omega : host.count (chr ':') ≠ 0)
    have hs : chr ':' ∉ s := by
      rw [hsplit, count_split hh] at hcount
      exact List.count_eq_zero.mp (by omega)
    have hh0 : h ≠ [] := by
      rintro rfl
      have hhead := hhost.symm.trans hsplit
      cases hhead
    have hnone : ∀ g service, ¬ Bracketed host g service := by
      intro g service hbracketed
      rcases hbracketed.group hmem hhost with hnil | hcolon
      · cases hnil
      · exact hb (Option.some.inj hcolon)
    have hexpected := hright h (some s) (.single hnone hh0 hh hs hsplit)
    rw [hhost, lookUpSplit_grouped hne hmem, List.head?_cons,
      if_neg (fun heq => hb (Option.some.inj heq))] at hexpected
    cases hexpected
  · rintro ⟨hbare, htrailing⟩ node service hexpected
    cases hexpected with
    | bracketed hbracketed => exact lookUpSplit_bracketed hbracketed
    | @single h s hnone hne hh hs hsplit =>
      have hgroup : ¬ Grouped host := by
        rintro ⟨group, t, hgroup, hmem, hhost⟩
        cases t with
        | nil => exact hnone group none ⟨hgroup, hmem, Or.inl ⟨hhost, rfl⟩⟩
        | cons b t =>
          by_cases hb : b = chr ':'
          · subst hb
            exact hnone group (some t) ⟨hgroup, hmem, Or.inr ⟨t, hhost, rfl⟩⟩
          · refine htrailing ⟨?_, group, b, t, hgroup, hmem, hb, hhost⟩
            rw [hsplit, count_split hh, List.count_eq_zero_of_not_mem hs]
      subst hsplit
      rw [lookUpSplit_oneColon hgroup hh hs, if_neg hne]
    | bare hopen hclose hcount =>
      have hcolon : chr ':' ∉ host := by
        intro hmem
        have hpos := List.count_pos_iff.mpr hmem
        exact hbare ⟨hopen, hclose, by omega⟩
      exact lookUpSplit_noColon (not_grouped_of_notMem hopen) hcolon

/-- The service of `::1` is the address itself. -/
theorem lookUpSplit_loopback :
    ¬ (∀ host node service, Expected host node service →
      lookUpSplit host = .ok (node, service)) := by
  intro h
  have hexpected := h [58, 58, 49] [58, 58, 49] none (.bare (by decide) (by decide) (by decide))
  have hcode : lookUpSplit [58, 58, 49] = .ok ([58, 58, 49], some [58, 58, 49]) := by decide
  rw [hcode] at hexpected
  cases hexpected

end Sylar
