import Sylar.UrlScan

/-! # What the URL parser reads of an authority

`http_parse_host` goes over the authority once more and finds the user, the host and the port in
it.  Of a host in brackets it records what is between them.

**`hostEnd_text`**, **`hostEnd_cases`**: an authority that gets through is a user, a host and a
port with their delimiters, and these are what is recorded. -/
namespace Sylar.Http

/-! ## The transition function -/

section Table
variable (ch : UInt8)

theorem hostStart_char : parseHostChar .hostStart ch =
    if ch = chr '[' then .hostV6Start else if isHostChar ch then .host else .dead := rfl

theorem host_char : parseHostChar .host ch =
    if isHostChar ch then .host else if ch = chr ':' then .hostPortStart else .dead := rfl

theorem hostV6End_char : parseHostChar .hostV6End ch =
    if ch = chr ':' then .hostPortStart else .dead := rfl

theorem hostPort_char : parseHostChar .hostPort ch = if isNum ch then .hostPort else .dead := rfl

theorem hostPortStart_char :
    parseHostChar .hostPortStart ch = if isNum ch then .hostPort else .dead := rfl

theorem userinfo_char : parseHostChar .userinfo ch =
    if ch = chr '@' then .hostStart else if isUserinfoChar ch then .userinfo else .dead := rfl

theorem userinfoStart_char : parseHostChar .userinfoStart ch = parseHostChar .userinfo ch := rfl

theorem isV6Char_iff : isV6Char ch = true ↔ isHex ch = true ∨ ch = chr ':' ∨ ch = chr '.' := by
  rw [isV6Char, Bool.or_eq_true, Bool.or_eq_true, beq_iff_eq, beq_iff_eq, or_assoc]

theorem isZoneChar_iff :
    isZoneChar ch = true ↔ isAlphanum ch = true ∨ (bytes "%.-_~").contains ch = true := by
  rw [isZoneChar, Bool.or_eq_true]

theorem hostV6Start_char : parseHostChar .hostV6Start ch =
    if isV6Char ch then .hostV6 else .dead := by
  simp [parseHostChar, isV6Char_iff]

theorem hostV6_char : parseHostChar .hostV6 ch =
    if ch = chr ']' then .hostV6End
    else if isV6Char ch then .hostV6 else if ch = chr '%' then .hostV6ZoneStart else .dead := by
  simp [parseHostChar, isV6Char_iff]

theorem hostV6Zone_char : parseHostChar .hostV6Zone ch =
    if ch = chr ']' then .hostV6End else if isZoneChar ch then .hostV6Zone else .dead := by
  simp only [parseHostChar, isZoneChar_iff]

theorem hostV6ZoneStart_char : parseHostChar .hostV6ZoneStart ch =
    if isZoneChar ch then .hostV6Zone else .dead := by
  simp only [parseHostChar, isZoneChar_iff]

end Table

/-! ## The loop -/

/-- The loop of `http_parse_host` and the check of the state that it ends in. -/
def parseHostEnd (s : HostState) (u : Url) (i : Nat) (buf : Bytes) : Option Url :=
  match parseHostLoop s u i buf with
  | none => none
  | some (u, s) =>
    if s ∈ [HostState.hostStart, .hostV6Start, .hostV6, .hostV6ZoneStart, .hostV6Zone,
        .hostPortStart, .userinfo, .userinfoStart] then none
    else some u

section Loop
variable {s s' : HostState} {u v : Url} {i j n : Nat} {ch : UInt8} {buf rest : Bytes}

theorem hostEnd_dead (h : parseHostChar s ch = .dead) :
    parseHostEnd s u i (ch :: rest) = none := by
  rw [parseHostEnd, parseHostLoop, if_pos h]

theorem hostEnd_cons (h : parseHostChar s ch = s') (hlive : s' ≠ .dead) :
    parseHostEnd s u i (ch :: rest) = parseHostEnd s' (recordHost s s' u i) (i + 1) rest := by
  subst h
  rw [parseHostEnd, parseHostLoop, if_neg hlive]
  rfl

/-- A host that has been reset is recorded where the run begins. -/
theorem recordHost_host (hset : u.fieldSet .host = true) (hlen : u.len .host = 0) :
    recordHost .hostStart .host u i = u.span .host i 1 := by
  rw [recordHost, Url.span, if_neg Nat.one_ne_zero]
  simp [Url.grow, hlen, hset]

theorem recordHost_hostV6 (hset : u.fieldSet .host = true) (hlen : u.len .host = 0) :
    recordHost .hostV6Start .hostV6 u i = u.span .host i 1 := by
  rw [recordHost, Url.span, if_neg Nat.one_ne_zero]
  simp [Url.grow, hlen, hset]

/-! ### The port -/

def portText : Option Bytes → Bytes := delimited (chr ':')

/-- A port that is given has a digit. -/
def ValidPort (port : Option Bytes) : Prop := ∀ d ∈ port, d ≠ [] ∧ ∀ ch ∈ d, isNum ch = true

theorem hostEnd_digits {d : Bytes} (h : ∀ ch ∈ d, isNum ch = true) :
    parseHostEnd .hostPort (u.span .port i (n + 1)) j d =
      some (u.span .port i (n + 1 + d.length)) := by
  induction d generalizing n j with
  | nil => rfl
  | cons c d ih =>
    rw [List.forall_mem_cons] at h
    have hrecord : recordHost .hostPort .hostPort (u.span .port i (n + 1)) j =
        u.span .port i (n + 2) := Url.grow_span u .port i n
    rw [hostEnd_cons (by rw [hostPort_char, if_pos h.1]) (by decide), hrecord, ih h.2,
      List.length_cons, (by omega : n + 1 + 1 + d.length = n + 1 + (d.length + 1))]

theorem hostEnd_digits_cases (h : parseHostEnd .hostPort u j buf = some v) :
    ∀ ch ∈ buf, isNum ch = true := by
  induction buf generalizing u j with
  | nil => simp
  | cons c buf ih =>
    by_cases hc : isNum c = true
    · rw [hostEnd_cons (by rw [hostPort_char, if_pos hc]) (by decide)] at h
      exact List.forall_mem_cons.mpr ⟨hc, ih h⟩
    · rw [hostEnd_dead (by rw [hostPort_char, if_neg hc])] at h
      cases h

/-- What follows a host is nothing or a port. -/
theorem hostEnd_port {port : Option Bytes} (hs : s = .host ∨ s = .hostV6End)
    (hport : ValidPort port) :
    parseHostEnd s u j (portText port) = some (u.span .port (j + 1) (port.getD []).length) := by
  have hcolon : parseHostChar s (chr ':') = .hostPortStart := by
    rcases hs with rfl | rfl
    · decide
    · decide
  cases port with
  | none =>
    rcases hs with rfl | rfl
    · rfl
    · rfl
  | some d =>
    obtain ⟨hne, hall⟩ := hport d rfl
    cases d with
    | nil => exact absurd rfl hne
    | cons c d =>
      rw [List.forall_mem_cons] at hall
      have hrest := hostEnd_digits (u := u) (i := j + 1) (n := 0) (j := j + 1 + 1) hall.2
      rw [portText, delimited, hostEnd_cons hcolon (by decide),
        hostEnd_cons (by rw [hostPortStart_char, if_pos hall.1]) (by decide)]
      refine hrest.trans ?_
      rw [Option.getD_some, List.length_cons, (by omega : 0 + 1 + d.length = d.length + 1)]

theorem hostEnd_portStart_cases (h : parseHostEnd .hostPortStart u j buf = some v) :
    ValidPort (some buf) := by
  rintro d ⟨⟩
  cases buf with
  | nil => cases h
  | cons c buf =>
    by_cases hc : isNum c = true
    · rw [hostEnd_cons (by rw [hostPortStart_char, if_pos hc]) (by decide)] at h
      exact ⟨by simp, List.forall_mem_cons.mpr ⟨hc, hostEnd_digits_cases h⟩⟩
    · rw [hostEnd_dead (by rw [hostPortStart_char, if_neg hc])] at h
      cases h

theorem hostEnd_port_cases (hs : s = .host ∨ s = .hostV6End)
    (h : parseHostEnd s u j buf = some v)
    (hchar : s = .host → ∀ ch ∈ buf.head?, isHostChar ch = false) :
    ∃ port, buf = portText port ∧ ValidPort port := by
  cases buf with
  | nil => exact ⟨none, rfl, by simp [ValidPort]⟩
  | cons c buf =>
    by_cases hc : c = chr ':'
    · have hcolon : parseHostChar s c = .hostPortStart := by
        rw [hc]
        rcases hs with rfl | rfl
        · decide
        · decide
      rw [hostEnd_cons hcolon (by decide)] at h
      exact ⟨some buf, by rw [hc]; rfl, hostEnd_portStart_cases h⟩
    · have hdead : parseHostChar s c = .dead := by
        rcases hs with rfl | rfl
        · rw [host_char, if_neg hc, hchar rfl c rfl]
          rfl
        · rw [hostV6End_char, if_neg hc]
      rw [hostEnd_dead hdead] at h
      cases h

/-! ### The host -/

theorem hostEnd_name {name : Bytes} {port : Option Bytes}
    (h : ∀ ch ∈ name, isHostChar ch = true) (hport : ValidPort port) :
    parseHostEnd .host (u.span .host i (n + 1)) j (name ++ portText port) =
      some ((u.span .host i (n + 1 + name.length)).span .port (j + name.length + 1)
        (port.getD []).length) := by
  induction name generalizing n j with
  | nil => exact hostEnd_port (.inl rfl) hport
  | cons c name ih =>
    rw [List.forall_mem_cons] at h
    have hrecord : recordHost .host .host (u.span .host i (n + 1)) j = u.span .host i (n + 2) :=
      Url.grow_span u .host i n
    rw [List.cons_append, hostEnd_cons (by rw [host_char, if_pos h.1]) (by decide), hrecord, ih h.2,
      List.length_cons, (by omega : n + 1 + 1 + name.length = n + 1 + (name.length + 1)),
      (by omega : j + 1 + name.length = j + (name.length + 1))]

theorem hostEnd_name_cases (h : parseHostEnd .host u j buf = some v) :
    ∃ name port, buf = name ++ portText port ∧ (∀ ch ∈ name, isHostChar ch = true) ∧
      ValidPort port := by
  induction buf generalizing u j with
  | nil => exact ⟨[], none, rfl, by simp, by simp [ValidPort]⟩
  | cons c buf ih =>
    cases hc : isHostChar c with
    | true =>
      rw [hostEnd_cons (by rw [host_char, if_pos hc]) (by decide)] at h
      obtain ⟨name, port, rfl, hname, hport⟩ := ih h
      exact ⟨c :: name, port, rfl, List.forall_mem_cons.mpr ⟨hc, hname⟩, hport⟩
    | false =>
      obtain ⟨port, hbuf, hport⟩ := hostEnd_port_cases (.inl rfl) h (by simp [hc])
      exact ⟨[], port, hbuf, by simp, hport⟩

/-- A byte between brackets. -/
def isLiteralChar (ch : UInt8) : Bool := isV6Char ch || isZoneChar ch

/-- The states between brackets, from the second byte on. -/
def isLiteral (s : HostState) : Bool :=
  s == .hostV6 || s == .hostV6ZoneStart || s == .hostV6Zone

theorem isLiteral_cases (hs : isLiteral s = true) :
    s = .hostV6 ∨ s = .hostV6ZoneStart ∨ s = .hostV6Zone := by
  simp only [isLiteral, Bool.or_eq_true, beq_iff_eq, or_assoc] at hs
  exact hs

/-- Between brackets a byte is part of the host, or closes it. -/
theorem literal_char (hs : isLiteral s = true) (c : UInt8) :
    parseHostChar s c = .dead ∨ (c = chr ']' ∧ parseHostChar s c = .hostV6End) ∨
      (isLiteralChar c = true ∧ isLiteral (parseHostChar s c) = true ∧
        ∀ u i, recordHost s (parseHostChar s c) u i = u.grow .host) := by
  have hpercent : isLiteralChar (chr '%') = true := by decide
  have hzone : isZoneChar c = true → isLiteralChar c = true := fun h => by
    rw [isLiteralChar, h, Bool.or_true]
  rcases isLiteral_cases hs with rfl | rfl | rfl
  · rw [hostV6_char]
    by_cases hclose : c = chr ']'
    · exact .inr (.inl ⟨hclose, if_pos hclose⟩)
    rw [if_neg hclose]
    by_cases hv6 : isV6Char c = true
    · rw [if_pos hv6]
      exact .inr (.inr ⟨by rw [isLiteralChar, hv6]; rfl, rfl, fun _ _ => rfl⟩)
    rw [if_neg hv6]
    by_cases hc : c = chr '%'
    · rw [if_pos hc]
      exact .inr (.inr ⟨by rwa [hc], rfl, fun _ _ => rfl⟩)
    · exact .inl (if_neg hc)
  · rw [hostV6ZoneStart_char]
    by_cases hc : isZoneChar c = true
    · rw [if_pos hc]
      exact .inr (.inr ⟨hzone hc, rfl, fun _ _ => rfl⟩)
    · exact .inl (if_neg hc)
  · rw [hostV6Zone_char]
    by_cases hclose : c = chr ']'
    · exact .inr (.inl ⟨hclose, if_pos hclose⟩)
    rw [if_neg hclose]
    by_cases hc : isZoneChar c = true
    · rw [if_pos hc]
      exact .inr (.inr ⟨hzone hc, rfl, fun _ _ => rfl⟩)
    · exact .inl (if_neg hc)

/-- Behind the first byte in brackets. -/
theorem hostEnd_literal (hs : isLiteral s = true)
    (h : parseHostEnd s (u.span .host i (n + 1)) j buf = some v) :
    ∃ inside port, buf = inside ++ chr ']' :: portText port ∧
      (∀ ch ∈ inside, isLiteralChar ch = true) ∧ ValidPort port ∧
      v = (u.span .host i (n + 1 + inside.length)).span .port (j + inside.length + 2)
        (port.getD []).length := by
  induction buf generalizing s n j with
  | nil =>
    rcases isLiteral_cases hs with rfl | rfl | rfl
    · cases h
    · cases h
    · cases h
  | cons c buf ih =>
    rcases literal_char hs c with hdead | ⟨rfl, hclose⟩ | ⟨hc, hnext, hrecord⟩
    · rw [hostEnd_dead hdead] at h
      cases h
    · -- the bracket that closes is not recorded
      have hkeep : recordHost s .hostV6End (u.span .host i (n + 1)) j = u.span .host i (n + 1) :=
        rfl
      rw [hostEnd_cons hclose (by decide), hkeep] at h
      obtain ⟨port, rfl, hport⟩ := hostEnd_port_cases (.inr rfl) h (by simp)
      rw [hostEnd_port (.inr rfl) hport, Option.some.injEq] at h
      exact ⟨[], port, rfl, by simp, hport, h.symm⟩
    · have hlive : parseHostChar s c ≠ .dead := by
        intro hdead
        rw [hdead] at hnext
        cases hnext
      rw [hostEnd_cons rfl hlive, hrecord, Url.grow_span] at h
      obtain ⟨inside, port, rfl, hinside, hport, rfl⟩ := ih hnext h
      refine ⟨c :: inside, port, rfl, List.forall_mem_cons.mpr ⟨hc, hinside⟩, hport, ?_⟩
      rw [List.length_cons, (by omega : n + 1 + 1 + inside.length = n + 1 + (inside.length + 1)),
        (by omega : j + 1 + inside.length + 2 = j + (inside.length + 1) + 2)]

end Loop

/-! ## The authority -/

def userText : Option Bytes → Bytes
  | none => []
  | some user => user ++ [chr '@']

/-- An authority; `host` is what is between the brackets of a host that has them. -/
structure Authority where
  user : Option Bytes
  bracketed : Bool
  host : Bytes
  port : Option Bytes

namespace Authority

/-- How far the host is behind the user. -/
def indent (a : Authority) : Nat := if a.bracketed then 1 else 0

def hostText (a : Authority) : Bytes :=
  if a.bracketed then chr '[' :: (a.host ++ [chr ']']) else a.host

def text (a : Authority) : Bytes := userText a.user ++ (a.hostText ++ portText a.port)

/-- The authority is of bytes that the parser lets through. -/
structure Valid (a : Authority) : Prop where
  user : ∀ x ∈ a.user, ∀ ch ∈ x, isUserinfoChar ch = true
  nonempty : a.host ≠ []
  host : ∀ ch ∈ a.host, if a.bracketed then isLiteralChar ch = true else isHostChar ch = true
  port : ValidPort a.port

/-- What is recorded of an authority that stands at `i`. -/
def mark (a : Authority) (u : Url) (i : Nat) : Url :=
  ((u.span .userinfo i (a.user.getD []).length).span .host
    (i + (userText a.user).length + a.indent) a.host.length).span .port
    (i + (userText a.user).length + a.hostText.length + 1) (a.port.getD []).length

end Authority

section Authority
variable {u v : Url} {i j n : Nat} {buf : Bytes}

/-- The host is on record, with no bytes yet. -/
structure HostReset (u : Url) : Prop where
  set : u.fieldSet .host = true
  len : u.len .host = 0

theorem hostEnd_host {a : Authority} (hu : HostReset u) (ha : a.Valid)
    (hplain : a.bracketed = false) :
    parseHostEnd .hostStart u j (a.hostText ++ portText a.port) =
      some ((u.span .host j a.host.length).span .port (j + a.hostText.length + 1)
        (a.port.getD []).length) := by
  obtain ⟨user, bracketed, host, port⟩ := a
  dsimp only at hplain
  subst hplain
  show parseHostEnd .hostStart u j (host ++ portText port) = _
  cases host with
  | nil => exact absurd rfl ha.nonempty
  | cons c name =>
    have hhost : ∀ ch ∈ c :: name, isHostChar ch = true := ha.host
    rw [List.forall_mem_cons] at hhost
    have hopen : c ≠ chr '[' := by
      rintro rfl
      exact absurd hhost.1 (by decide)
    have hrest := hostEnd_name (u := u) (i := j) (n := 0) (j := j + 1) hhost.2 ha.port
    rw [List.cons_append,
      hostEnd_cons (by rw [hostStart_char, if_neg hopen, if_pos hhost.1]) (by decide),
      recordHost_host hu.set hu.len]
    refine hrest.trans ?_
    show some ((u.span .host j (0 + 1 + name.length)).span .port (j + 1 + name.length + 1) _) =
      some ((u.span .host j (name.length + 1)).span .port (j + (name.length + 1) + 1) _)
    rw [(by omega : 0 + 1 + name.length = name.length + 1),
      (by omega : j + 1 + name.length + 1 = j + (name.length + 1) + 1)]

theorem hostEnd_host_cases (hu : HostReset u) (h : parseHostEnd .hostStart u j buf = some v) :
    ∃ a : Authority, a.user = none ∧ a.Valid ∧ buf = a.hostText ++ portText a.port ∧
      v = (u.span .host (j + a.indent) a.host.length).span .port (j + a.hostText.length + 1)
        (a.port.getD []).length := by
  match buf, h with
  | [], h => cases h
  | c :: buf, h =>
    by_cases hopen : c = chr '['
    · -- the bracket itself is not recorded
      have hkeep : recordHost .hostStart .hostV6Start u j = u := rfl
      rw [hostEnd_cons (by rw [hostStart_char, if_pos hopen]) (by decide), hkeep] at h
      match buf, h with
      | [], h => cases h
      | c' :: buf, h =>
        by_cases hv6 : isV6Char c' = true
        · rw [hostEnd_cons (by rw [hostV6Start_char, if_pos hv6]) (by decide),
            recordHost_hostV6 hu.set hu.len] at h
          obtain ⟨inside, port, rfl, hinside, hport, rfl⟩ := hostEnd_literal (n := 0) rfl h
          have hhost : ∀ ch ∈ c' :: inside, isLiteralChar ch = true :=
            List.forall_mem_cons.mpr ⟨by rw [isLiteralChar, hv6]; rfl, hinside⟩
          refine ⟨⟨none, true, c' :: inside, port⟩, rfl, ⟨by simp, by simp, hhost, hport⟩, ?_, ?_⟩
          · rw [hopen]
            simp [Authority.hostText]
          · have hlen : (Authority.hostText ⟨none, true, c' :: inside, port⟩).length =
                inside.length + 3 := by simp [Authority.hostText]
            rw [hlen, Authority.indent, if_pos rfl, List.length_cons,
              (by omega : 0 + 1 + inside.length = inside.length + 1),
              (by omega : j + 1 + 1 + inside.length + 2 = j + (inside.length + 3) + 1)]
        · rw [hostEnd_dead (by rw [hostV6Start_char, if_neg hv6])] at h
          cases h
    · by_cases hc : isHostChar c = true
      · have hnext := h
        rw [hostEnd_cons (by rw [hostStart_char, if_neg hopen, if_pos hc]) (by decide)] at hnext
        obtain ⟨name, port, rfl, hname, hport⟩ := hostEnd_name_cases hnext
        have hhost : ∀ ch ∈ c :: name, isHostChar ch = true :=
          List.forall_mem_cons.mpr ⟨hc, hname⟩
        have ha : Authority.Valid ⟨none, false, c :: name, port⟩ :=
          ⟨by simp, by simp, hhost, hport⟩
        refine ⟨⟨none, false, c :: name, port⟩, rfl, ha, rfl, ?_⟩
        -- what is recorded of a host without brackets is known from its text
        have hv := hostEnd_host (j := j) hu ha rfl
        exact Option.some.inj (h.symm.trans hv)
      · rw [hostEnd_dead (by rw [hostStart_char, if_neg hopen, if_neg hc])] at h
        cases h

/-! ### The user -/

theorem hostEnd_userinfo {user rest : Bytes} (h : ∀ ch ∈ user, isUserinfoChar ch = true) :
    parseHostEnd .userinfo (u.span .userinfo i (n + 1)) j (user ++ chr '@' :: rest) =
      parseHostEnd .hostStart (u.span .userinfo i (n + 1 + user.length)) (j + user.length + 1)
        rest := by
  induction user generalizing n j with
  | nil => exact hostEnd_cons (by decide) (by decide)
  | cons c user ih =>
    rw [List.forall_mem_cons] at h
    have hat : c ≠ chr '@' := by
      rintro rfl
      exact absurd h.1 (by decide)
    have hrecord : recordHost .userinfo .userinfo (u.span .userinfo i (n + 1)) j =
        u.span .userinfo i (n + 2) := Url.grow_span u .userinfo i n
    rw [List.cons_append,
      hostEnd_cons (by rw [userinfo_char, if_neg hat, if_pos h.1]) (by decide), hrecord, ih h.2,
      List.length_cons, (by omega : n + 1 + 1 + user.length = n + 1 + (user.length + 1)),
      (by omega : j + 1 + user.length + 1 = j + (user.length + 1) + 1)]

theorem hostEnd_user {user rest : Bytes} (h : ∀ ch ∈ user, isUserinfoChar ch = true) :
    parseHostEnd .userinfoStart u j (userText (some user) ++ rest) =
      parseHostEnd .hostStart (u.span .userinfo j user.length) (j + (userText (some user)).length)
        rest := by
  rw [userText, List.append_assoc, List.singleton_append, List.length_append, List.length_singleton]
  cases user with
  | nil => exact hostEnd_cons (by decide) (by decide)
  | cons c user =>
    rw [List.forall_mem_cons] at h
    have hat : c ≠ chr '@' := by
      rintro rfl
      exact absurd h.1 (by decide)
    have hrest : parseHostEnd .userinfo (u.span .userinfo j (0 + 1)) (j + 1)
        (user ++ chr '@' :: rest) = _ := hostEnd_userinfo h.2
    rw [List.cons_append, hostEnd_cons (by rw [userinfoStart_char, userinfo_char, if_neg hat,
      if_pos h.1]) (by decide)]
    refine hrest.trans ?_
    rw [List.length_cons, (by omega : 0 + 1 + user.length = user.length + 1),
      (by omega : j + 1 + user.length + 1 = j + (user.length + 1 + 1))]

theorem hostEnd_user_cases {s : HostState} (hs : s = .userinfo ∨ s = .userinfoStart)
    (h : parseHostEnd s u j buf = some v) :
    ∃ user rest, buf = userText (some user) ++ rest ∧ ∀ ch ∈ user, isUserinfoChar ch = true := by
  induction buf generalizing s u j with
  | nil =>
    rcases hs with rfl | rfl
    · cases h
    · cases h
  | cons c buf ih =>
    have hchar : parseHostChar s c = parseHostChar .userinfo c := by
      rcases hs with rfl | rfl
      · rfl
      · exact userinfoStart_char c
    rw [userinfo_char] at hchar
    by_cases hat : c = chr '@'
    · exact ⟨[], buf, by rw [hat]; rfl, by simp⟩
    rw [if_neg hat] at hchar
    by_cases hc : isUserinfoChar c = true
    · rw [if_pos hc] at hchar
      rw [hostEnd_cons hchar (by decide)] at h
      obtain ⟨user, rest, rfl, huser⟩ := ih (.inl rfl) h
      exact ⟨c :: user, rest, rfl, List.forall_mem_cons.mpr ⟨hc, huser⟩⟩
    · rw [hostEnd_dead (hchar.trans (if_neg hc))] at h
      cases h

/-! ### Both -/

/-- Where `http_parse_host` begins. -/
def hostEntry (foundAt : Bool) : HostState := if foundAt then .userinfoStart else .hostStart

theorem HostReset.span_userinfo (hu : HostReset u) : HostReset (u.span .userinfo i n) := by
  rw [Url.span]
  split
  · exact hu
  · exact ⟨by simp [hu.set], by simp [hu.len]⟩

/-- **What is recorded of an authority.** -/
theorem hostEnd_text {a : Authority} (hu : HostReset u) (ha : a.Valid)
    (hplain : a.bracketed = false) :
    parseHostEnd (hostEntry a.user.isSome) u i a.text = some (a.mark u i) := by
  have hindent : a.indent = 0 := by rw [Authority.indent, hplain, if_neg Bool.false_ne_true]
  rw [Authority.mark, Authority.text, hindent, Nat.add_zero]
  cases huser : a.user with
  | none => exact hostEnd_host hu ha hplain
  | some user =>
    show parseHostEnd .userinfoStart u i (userText (some user) ++ _) = _
    rw [hostEnd_user (ha.user user huser), hostEnd_host hu.span_userinfo ha hplain]
    rfl

/-- **What gets through is the text of an authority.** -/
theorem hostEnd_cases {foundAt : Bool} (hu : HostReset u)
    (h : parseHostEnd (hostEntry foundAt) u i buf = some v) :
    ∃ a : Authority, a.Valid ∧ a.user.isSome = foundAt ∧ buf = a.text ∧ v = a.mark u i := by
  cases foundAt with
  | false =>
    obtain ⟨a, huser, ha, rfl, rfl⟩ := hostEnd_host_cases hu h
    refine ⟨a, ha, by rw [huser]; rfl, ?_, ?_⟩
    · rw [Authority.text, huser]
      rfl
    · rw [Authority.mark, huser]
      rfl
  | true =>
    obtain ⟨user, rest, rfl, huser⟩ := hostEnd_user_cases (.inr rfl) h
    rw [hostEntry, if_pos rfl, hostEnd_user huser] at h
    obtain ⟨⟨_, bracketed, host, port⟩, rfl, ha, rfl, rfl⟩ :=
      hostEnd_host_cases hu.span_userinfo h
    refine ⟨⟨some user, bracketed, host, port⟩, ⟨?_, ha.nonempty, ha.host, ha.port⟩, rfl, rfl, rfl⟩
    rintro x ⟨⟩
    exact huser

end Authority

end Sylar.Http
