import Sylar.HttpUrl
import Mathlib.Data.List.Basic

/-! # What the first loop of the URL parser reads

The loop of `http_parser_parse_url` stays in a state for as long as the bytes are of one kind, and
what it records meanwhile is where the run begins and how long it is (`Url.span`).  So a URL that
gets through is made of runs.

**`lives_server`**, **`urlLoop_schema_cases`**: the pieces of a text that gets through.
**`urlLoop_tail`**, **`urlLoop_authority`**, **`urlLoop_scheme`**: what is recorded of such a
piece. -/
namespace Sylar.Http

/-! ## Kinds of bytes -/

/-- A byte of a query. -/
def isQueryChar (ch : UInt8) : Bool := isUrlChar ch || ch == chr '?'

/-- A byte of a fragment. -/
def isFragmentChar (ch : UInt8) : Bool := isUrlChar ch || ch == chr '?' || ch == chr '#'

/-- A byte of an authority, the `@` apart. -/
def isServerChar (ch : UInt8) : Bool := isUserinfoChar ch || ch == chr '[' || ch == chr ']'

/-- A byte of an address in brackets. -/
def isV6Char (ch : UInt8) : Bool := isHex ch || ch == chr ':' || ch == chr '.'

/-- A byte of a zone. -/
def isZoneChar (ch : UInt8) : Bool := isAlphanum ch || (bytes "%.-_~").contains ch

/-- A state has the transitions of `T` if it has them for the bytes that are no blanks, and a blank
leads to none. -/
theorem char_eq {s : State} {T : UInt8 → State}
    (hblank : T (chr ' ') = .dead ∧ T CR = .dead ∧ T LF = .dead ∧ T (chr '\t') = .dead ∧
      T 12 = .dead)
    (hother : ∀ ch, ¬ (ch = chr ' ' ∨ ch = CR ∨ ch = LF) → ¬ (ch = chr '\t' ∨ ch = 12) →
      parseUrlChar s ch = T ch) (ch : UInt8) : parseUrlChar s ch = T ch := by
  obtain ⟨hspace, hcr, hlf, htab, hff⟩ := hblank
  by_cases hfirst : ch = chr ' ' ∨ ch = CR ∨ ch = LF
  · rw [parseUrlChar, if_pos hfirst]
    rcases hfirst with rfl | rfl | rfl
    · exact hspace.symm
    · exact hcr.symm
    · exact hlf.symm
  by_cases hsecond : ch = chr '\t' ∨ ch = 12
  · rw [parseUrlChar, if_neg hfirst, if_pos hsecond]
    rcases hsecond with rfl | rfl
    · exact htab.symm
    · exact hff.symm
  · exact hother ch hfirst hsecond

theorem reqSchema_char : ∀ ch, parseUrlChar .reqSchema ch =
    if isAlpha ch then .reqSchema else if ch = chr ':' then .reqSchemaSlash else .dead := by
  refine char_eq (by decide) fun ch hfirst hsecond => ?_
  rw [parseUrlChar, if_neg hfirst, if_neg hsecond]

theorem reqSchemaSlash_char : ∀ ch, parseUrlChar .reqSchemaSlash ch =
    if ch = chr '/' then .reqSchemaSlashSlash else .dead := by
  refine char_eq (by decide) fun ch hfirst hsecond => ?_
  rw [parseUrlChar, if_neg hfirst, if_neg hsecond]

theorem reqSchemaSlashSlash_char : ∀ ch, parseUrlChar .reqSchemaSlashSlash ch =
    if ch = chr '/' then .reqServerStart else .dead := by
  refine char_eq (by decide) fun ch hfirst hsecond => ?_
  rw [parseUrlChar, if_neg hfirst, if_neg hsecond]

theorem reqSpacesBeforeUrl_char : ∀ ch, parseUrlChar .reqSpacesBeforeUrl ch =
    if isAlpha ch then .reqSchema
    else if ch = chr '/' ∨ ch = chr '*' then .reqPath else .dead := by
  refine char_eq (by decide) fun ch hfirst hsecond => ?_
  rw [parseUrlChar, if_neg hfirst, if_neg hsecond]
  dsimp only
  by_cases hpath : ch = chr '/' ∨ ch = chr '*'
  · have halpha : ¬ isAlpha ch = true := by
      rcases hpath with rfl | rfl
      · decide
      · decide
    rw [if_pos hpath, if_neg halpha, if_pos hpath]
  · rw [if_neg hpath, if_neg hpath]

theorem reqServer_char : ∀ ch, parseUrlChar .reqServer ch =
    if isServerChar ch then .reqServer
    else if ch = chr '@' then .reqServerWithAt
    else if ch = chr '/' then .reqPath
    else if ch = chr '?' then .reqQueryStringStart else .dead := by
  refine char_eq (by decide) fun ch hfirst hsecond => ?_
  rw [parseUrlChar, if_neg hfirst, if_neg hsecond]
  dsimp only
  by_cases hpath : ch = chr '/'
  · subst hpath
    decide
  by_cases hquery : ch = chr '?'
  · subst hquery
    decide
  by_cases hat : ch = chr '@'
  · subst hat
    decide
  simp only [hpath, hquery, hat, if_false, isServerChar, Bool.or_eq_true, beq_iff_eq, or_assoc]

theorem reqServerStart_char (ch : UInt8) :
    parseUrlChar .reqServerStart ch = parseUrlChar .reqServer ch := rfl

theorem reqServerWithAt_char : ∀ ch, parseUrlChar .reqServerWithAt ch =
    if ch = chr '@' then .dead else parseUrlChar .reqServer ch := by
  refine char_eq (by decide) fun ch hfirst hsecond => ?_
  rw [parseUrlChar, if_neg hfirst, if_neg hsecond, parseUrlChar, if_neg hfirst, if_neg hsecond]

theorem reqPath_char : ∀ ch, parseUrlChar .reqPath ch =
    if isUrlChar ch then .reqPath
    else if ch = chr '?' then .reqQueryStringStart
    else if ch = chr '#' then .reqFragmentStart else .dead := by
  refine char_eq (by decide) fun ch hfirst hsecond => ?_
  rw [parseUrlChar, if_neg hfirst, if_neg hsecond]

theorem reqQueryString_char : ∀ ch, parseUrlChar .reqQueryString ch =
    if isQueryChar ch then .reqQueryString
    else if ch = chr '#' then .reqFragmentStart else .dead := by
  refine char_eq (by decide) fun ch hfirst hsecond => ?_
  rw [parseUrlChar, if_neg hfirst, if_neg hsecond]
  dsimp only
  by_cases hurl : isUrlChar ch = true
  · rw [if_pos hurl, if_pos (by rw [isQueryChar, hurl, Bool.true_or])]
  · simp only [hurl, isQueryChar, Bool.false_or, beq_iff_eq]
    rfl

theorem reqQueryStringStart_char (ch : UInt8) :
    parseUrlChar .reqQueryStringStart ch = parseUrlChar .reqQueryString ch := rfl

theorem reqFragment_char : ∀ ch, parseUrlChar .reqFragment ch =
    if isFragmentChar ch then .reqFragment else .dead := by
  refine char_eq (by decide) fun ch hfirst hsecond => ?_
  rw [parseUrlChar, if_neg hfirst, if_neg hsecond]
  dsimp only
  by_cases hurl : isUrlChar ch = true
  · rw [if_pos hurl, if_pos (by rw [isFragmentChar, hurl]; rfl)]
  · simp only [hurl, isFragmentChar, Bool.false_or, Bool.or_eq_true, beq_iff_eq]
    rfl

theorem reqFragmentStart_char : ∀ ch, parseUrlChar .reqFragmentStart ch =
    if ch = chr '#' then .reqFragmentStart
    else if isFragmentChar ch then .reqFragment else .dead := by
  refine char_eq (by decide) fun ch hfirst hsecond => ?_
  rw [parseUrlChar, if_neg hfirst, if_neg hsecond]
  dsimp only
  by_cases hhash : ch = chr '#'
  · subst hhash
    decide
  by_cases hurl : isUrlChar ch = true
  · rw [if_pos hurl, if_neg hhash, if_pos (by rw [isFragmentChar, hurl]; rfl)]
  · simp only [hurl, hhash, isFragmentChar, Bool.false_or, Bool.or_eq_true, beq_iff_eq, or_false]
    rfl

/-! ## Runs -/

namespace Url

/-- The component stands at `i` and has `n` bytes; where it has none, it is not recorded. -/
def span (u : Url) (uf : UrlField) (i n : Nat) : Url :=
  if n = 0 then u
  else
    { u with
      fieldSet := Function.update u.fieldSet uf true
      off := Function.update u.off uf (i % 2 ^ 16)
      len := Function.update u.len uf (n % 2 ^ 16) }

theorem span_zero (u : Url) (uf : UrlField) (i : Nat) : u.span uf i 0 = u := if_pos rfl

theorem grow_span (u : Url) (uf : UrlField) (i n : Nat) :
    (u.span uf i (n + 1)).grow uf = u.span uf i (n + 2) := by
  rw [span, span, if_neg (Nat.succ_ne_zero n), if_neg (Nat.succ_ne_zero (n + 1)), grow]
  dsimp only
  rw [Function.update_self, Function.update_idem]
  have hlen : ((n + 1) % 2 ^ 16 + 1) % 2 ^ 16 = (n + 2) % 2 ^ 16 := by omega
  rw [hlen]

end Url

section Loop
variable {s s' : State} {old : Option UrlField} {uf : UrlField} {f : Bool} {u : Url} {i n j : Nat}
  {ch : UInt8} {rest : Bytes}

theorem urlLoop_dead (h : parseUrlChar s ch = .dead) :
    parseUrlLoop s old f u i (ch :: rest) = none := by
  rw [parseUrlLoop]
  exact if_pos h

/-- A delimiter. -/
theorem urlLoop_skip (h : parseUrlChar s ch = s') (hlive : s' ≠ .dead)
    (hs' : urlFieldOf s' = none) :
    parseUrlLoop s old f u i (ch :: rest) = parseUrlLoop s' old f u (i + 1) rest := by
  subst h
  have hat : (parseUrlChar s ch == .reqServerWithAt) = false := by
    rw [beq_eq_false_iff_ne]
    intro heq
    rw [heq] at hs'
    cases hs'
  rw [parseUrlLoop]
  dsimp only
  rw [if_neg hlive, hs', hat, Bool.or_false]

/-- The first byte of a component. -/
theorem urlLoop_enter (h : parseUrlChar s ch = s') (hs' : urlFieldOf s' = some uf)
    (hold : some uf ≠ old) :
    parseUrlLoop s old f u i (ch :: rest) =
      parseUrlLoop s' (some uf) (f || s' == .reqServerWithAt) (u.span uf i 1) (i + 1) rest := by
  subst h
  have hlive : parseUrlChar s ch ≠ .dead := by
    intro heq
    rw [heq] at hs'
    cases hs'
  rw [parseUrlLoop]
  dsimp only
  rw [if_neg hlive, hs']
  exact if_neg hold

/-- Another byte of it. -/
theorem urlLoop_grow (h : parseUrlChar s ch = s') (hs' : urlFieldOf s' = some uf) :
    parseUrlLoop s (some uf) f (u.span uf i (n + 1)) j (ch :: rest) =
      parseUrlLoop s' (some uf) (f || s' == .reqServerWithAt) (u.span uf i (n + 2)) (j + 1)
        rest := by
  subst h
  have hlive : parseUrlChar s ch ≠ .dead := by
    intro heq
    rw [heq] at hs'
    cases hs'
  rw [parseUrlLoop]
  dsimp only
  rw [if_neg hlive, hs', ← Url.grow_span]
  exact if_pos rfl

/-- A run of bytes that do not change the state. -/
theorem urlLoop_run {run : Bytes} (h : ∀ ch ∈ run, parseUrlChar s ch = s)
    (hs : urlFieldOf s = some uf) (hat : s ≠ .reqServerWithAt) :
    parseUrlLoop s (some uf) f (u.span uf i (n + 1)) j (run ++ rest) =
      parseUrlLoop s (some uf) f (u.span uf i (n + 1 + run.length)) (j + run.length) rest := by
  induction run generalizing n j with
  | nil => rfl
  | cons ch run ih =>
    rw [List.forall_mem_cons] at h
    have hflag : (f || s == .reqServerWithAt) = f := by
      rw [beq_eq_false_iff_ne.mpr hat, Bool.or_false]
    rw [List.cons_append, urlLoop_grow h.1 hs, hflag, ih h.2, List.length_cons,
      (by omega : n + 1 + 1 + run.length = n + 1 + (run.length + 1)),
      (by omega : j + 1 + run.length = j + (run.length + 1))]

end Loop

/-! ## Runs that get through -/

/-- The transition function does not leave the URL anywhere in the text. -/
def Lives (s : State) (buf : Bytes) : Prop := buf.foldl parseUrlChar s ≠ .dead

theorem foldl_dead (buf : Bytes) : buf.foldl parseUrlChar .dead = .dead := by
  induction buf with
  | nil => rfl
  | cons ch buf ih =>
    have hch : parseUrlChar .dead ch = .dead := by
      refine char_eq (T := fun _ => .dead) (by decide) (fun ch hfirst hsecond => ?_) ch
      rw [parseUrlChar, if_neg hfirst, if_neg hsecond]
    rw [List.foldl_cons, hch, ih]

theorem not_lives_dead (buf : Bytes) : ¬ Lives .dead buf := not_not_intro (foldl_dead buf)

theorem Lives.of_append {s : State} {run rest : Bytes} (h : Lives s (run ++ rest)) :
    Lives s run := by
  intro hrun
  rw [Lives, List.foldl_append, hrun] at h
  exact h (foldl_dead rest)

/-- What the loop accepts, the transition function accepts. -/
theorem lives_of_loop {s : State} {old : Option UrlField} {f : Bool} {u : Url} {i : Nat}
    {buf : Bytes} {r : Url × Bool} (hs : s ≠ .dead)
    (h : parseUrlLoop s old f u i buf = some r) : Lives s buf := by
  induction buf generalizing s old f u i with
  | nil => exact hs
  | cons ch buf ih =>
    by_cases hdead : parseUrlChar s ch = .dead
    · rw [urlLoop_dead hdead] at h
      cases h
    · rw [parseUrlLoop] at h
      dsimp only at h
      rw [if_neg hdead] at h
      split at h
      · exact ih hdead h
      · split at h
        · exact ih hdead h
        · exact ih hdead h

/-! ## Behind the authority -/

/-- A component with its delimiter, or nothing. -/
def delimited (d : UInt8) : Option Bytes → Bytes
  | none => []
  | some x => d :: x

def queryText : Option Bytes → Bytes := delimited (chr '?')

def fragmentText : Option Bytes → Bytes := delimited (chr '#')

/-- The delimiters at the beginning of a fragment, which are not part of it. -/
def hashes (x : Bytes) : Bytes := x.takeWhile (· == chr '#')

/-- The component of a fragment. -/
def unhashed (x : Bytes) : Bytes := x.dropWhile (· == chr '#')

/-- What is behind the authority. -/
structure UrlTail where
  path : Bytes
  query : Option Bytes
  fragment : Option Bytes

namespace UrlTail

def text (t : UrlTail) : Bytes := t.path ++ queryText t.query ++ fragmentText t.fragment

/-- The tail is written as the transition function has it; a fragment does not follow the authority
at once. -/
structure Valid (t : UrlTail) : Prop where
  path : t.path = [] ∨ ∃ rest, t.path = chr '/' :: rest ∧ ∀ ch ∈ rest, isUrlChar ch = true
  query : ∀ q ∈ t.query, ∀ ch ∈ q, isQueryChar ch = true
  fragment : ∀ x ∈ t.fragment, ∀ ch ∈ x, isFragmentChar ch = true
  fragmentless : t.path = [] → t.query = none → t.fragment = none

/-- What the loop records of a fragment whose delimiter is at `i`. -/
def markFragment (x : Option Bytes) (u : Url) (i : Nat) : Url :=
  u.span .fragment (i + 1 + (hashes (x.getD [])).length) (unhashed (x.getD [])).length

/-- What the loop records of a query whose delimiter is at `i`, and of what is behind it. -/
def markQuery (q x : Option Bytes) (u : Url) (i : Nat) : Url :=
  markFragment x (u.span .query (i + 1) (q.getD []).length) (i + (queryText q).length)

/-- What the loop records of a tail that stands at `i`. -/
def mark (t : UrlTail) (u : Url) (i : Nat) : Url :=
  markQuery t.query t.fragment (u.span .path i t.path.length) (i + t.path.length)

end UrlTail

section Lives
variable {buf : Bytes}

theorem lives_fragment (h : Lives .reqFragment buf) : ∀ ch ∈ buf, isFragmentChar ch = true := by
  induction buf with
  | nil => simp
  | cons c buf ih =>
    rw [Lives, List.foldl_cons, reqFragment_char] at h
    split at h
    case isTrue hc => exact List.forall_mem_cons.mpr ⟨hc, ih h⟩
    case isFalse => exact absurd h (not_lives_dead buf)

theorem lives_fragmentStart (h : Lives .reqFragmentStart buf) :
    ∀ ch ∈ buf, isFragmentChar ch = true := by
  induction buf with
  | nil => simp
  | cons c buf ih =>
    rw [Lives, List.foldl_cons, reqFragmentStart_char] at h
    split at h
    case isTrue hc =>
      have hchar : isFragmentChar c = true := by
        rw [hc]
        decide
      exact List.forall_mem_cons.mpr ⟨hchar, ih h⟩
    case isFalse =>
      split at h
      case isTrue hc => exact List.forall_mem_cons.mpr ⟨hc, lives_fragment h⟩
      case isFalse => exact absurd h (not_lives_dead buf)

theorem lives_query (h : Lives .reqQueryString buf) :
    ∃ q x, buf = q ++ fragmentText x ∧ (∀ ch ∈ q, isQueryChar ch = true) ∧
      ∀ y ∈ x, ∀ ch ∈ y, isFragmentChar ch = true := by
  induction buf with
  | nil => exact ⟨[], none, rfl, by simp, by simp⟩
  | cons c buf ih =>
    rw [Lives, List.foldl_cons, reqQueryString_char] at h
    split at h
    case isTrue hc =>
      obtain ⟨q, x, rfl, hq, hx⟩ := ih h
      exact ⟨c :: q, x, rfl, List.forall_mem_cons.mpr ⟨hc, hq⟩, hx⟩
    case isFalse =>
      split at h
      case isTrue hc =>
        refine ⟨[], some buf, by rw [hc]; rfl, by simp, ?_⟩
        rintro y ⟨⟩
        exact lives_fragmentStart h
      case isFalse => exact absurd h (not_lives_dead buf)

theorem lives_queryStart (h : Lives .reqQueryStringStart buf) : Lives .reqQueryString buf := by
  cases buf with
  | nil =>
    show State.reqQueryString ≠ .dead
    decide
  | cons c buf => rwa [Lives, List.foldl_cons, reqQueryStringStart_char] at h

theorem lives_path (h : Lives .reqPath buf) :
    ∃ p q x, buf = p ++ queryText q ++ fragmentText x ∧ (∀ ch ∈ p, isUrlChar ch = true) ∧
      (∀ y ∈ q, ∀ ch ∈ y, isQueryChar ch = true) ∧
        ∀ y ∈ x, ∀ ch ∈ y, isFragmentChar ch = true := by
  induction buf with
  | nil => exact ⟨[], none, none, rfl, by simp, by simp, by simp⟩
  | cons c buf ih =>
    rw [Lives, List.foldl_cons, reqPath_char] at h
    split at h
    case isTrue hc =>
      obtain ⟨p, q, x, rfl, hp, hq, hx⟩ := ih h
      exact ⟨c :: p, q, x, rfl, List.forall_mem_cons.mpr ⟨hc, hp⟩, hq, hx⟩
    case isFalse =>
      split at h
      case isTrue hc =>
        obtain ⟨q, x, rfl, hq, hx⟩ := lives_query (lives_queryStart h)
        refine ⟨[], some q, x, by rw [hc]; rfl, by simp, ?_, hx⟩
        rintro y ⟨⟩
        exact hq
      case isFalse =>
        split at h
        case isTrue hc =>
          refine ⟨[], none, some buf, by rw [hc]; rfl, by simp, by simp, ?_⟩
          rintro y ⟨⟩
          exact lives_fragmentStart h
        case isFalse => exact absurd h (not_lives_dead buf)

/-- The states in an authority. -/
def isServer (s : State) : Bool :=
  s == .reqServerStart || s == .reqServer || s == .reqServerWithAt

/-- A byte of an authority. -/
def isAuthorityChar (ch : UInt8) : Bool := isServerChar ch || ch == chr '@'

theorem isServer_cases {s : State} (hs : isServer s = true) :
    s = .reqServerStart ∨ s = .reqServer ∨ s = .reqServerWithAt := by
  simp only [isServer, Bool.or_eq_true, beq_iff_eq, or_assoc] at hs
  exact hs

theorem server_char {s : State} (hs : isServer s = true) {ch : UInt8}
    (hch : ch ≠ chr '@') : parseUrlChar s ch = parseUrlChar .reqServer ch := by
  rcases isServer_cases hs with rfl | rfl | rfl
  · exact reqServerStart_char ch
  · rfl
  · rw [reqServerWithAt_char, if_neg hch]

theorem server_authorityChar {s : State} (hs : isServer s = true) {ch : UInt8}
    (hch : isAuthorityChar ch = true) (hlive : parseUrlChar s ch ≠ .dead) :
    parseUrlChar s ch = if ch = chr '@' then .reqServerWithAt else .reqServer := by
  have hserver : parseUrlChar .reqServer (chr '@') = .reqServerWithAt := by decide
  by_cases hat : ch = chr '@'
  · subst hat
    rw [if_pos rfl]
    rcases isServer_cases hs with rfl | rfl | rfl
    · rw [reqServerStart_char, hserver]
    · exact hserver
    · exact absurd (by rw [reqServerWithAt_char, if_pos rfl]) hlive
  · rw [if_neg hat, server_char hs hat, reqServer_char, if_pos]
    rw [isAuthorityChar, beq_eq_false_iff_ne.mpr hat, Bool.or_false] at hch
    exact hch

/-- A byte of an authority goes on with the host. -/
theorem server_step {s : State} (hs : isServer s = true) {ch : UInt8}
    (hch : isAuthorityChar ch = true) (hlive : parseUrlChar s ch ≠ .dead) :
    isServer (parseUrlChar s ch) = true ∧ urlFieldOf (parseUrlChar s ch) = some .host ∧
      (parseUrlChar s ch == .reqServerWithAt) = (ch == chr '@') := by
  rw [server_authorityChar hs hch hlive]
  by_cases hat : ch = chr '@'
  · rw [if_pos hat, beq_iff_eq.mpr hat]
    exact ⟨rfl, rfl, rfl⟩
  · rw [if_neg hat, beq_eq_false_iff_ne.mpr hat]
    exact ⟨rfl, rfl, rfl⟩

theorem lives_server {s : State} (hs : isServer s = true) (h : Lives s buf) :
    ∃ auth t, buf = auth ++ UrlTail.text t ∧ t.Valid ∧ ∀ ch ∈ auth, isAuthorityChar ch = true := by
  induction buf generalizing s with
  | nil =>
    refine ⟨[], ⟨[], none, none⟩, rfl, ⟨.inl rfl, by simp, by simp, fun _ _ => rfl⟩, by simp⟩
  | cons c buf ih =>
    rw [Lives, List.foldl_cons] at h
    by_cases hauth : isAuthorityChar c = true
    · have hlive : parseUrlChar s c ≠ .dead := by
        intro hdead
        rw [hdead] at h
        exact not_lives_dead buf h
      obtain ⟨auth, t, rfl, ht, hall⟩ := ih (server_step hs hauth hlive).1 h
      exact ⟨c :: auth, t, rfl, ht, List.forall_mem_cons.mpr ⟨hauth, hall⟩⟩
    · -- the first byte that is not of an authority begins the tail
      rw [isAuthorityChar, Bool.or_eq_true, not_or, beq_iff_eq] at hauth
      rw [server_char hs hauth.2, reqServer_char, if_neg hauth.1, if_neg hauth.2] at h
      split at h
      case isTrue hc =>
        obtain ⟨p, q, x, rfl, hp, hq, hx⟩ := lives_path h
        exact ⟨[], ⟨c :: p, q, x⟩, rfl, ⟨.inr ⟨p, by rw [hc], hp⟩, hq, hx, by simp⟩, by simp⟩
      case isFalse =>
        split at h
        case isTrue hc =>
          obtain ⟨q, x, rfl, hq, hx⟩ := lives_query (lives_queryStart h)
          refine ⟨[], ⟨[], some q, x⟩, by rw [hc]; rfl, ⟨.inl rfl, ?_, hx, by simp⟩, by simp⟩
          rintro y ⟨⟩
          exact hq
        case isFalse => exact absurd h (not_lives_dead buf)

/-- The bytes of an authority leave the transition function in it, and the `@` apart they do not
lead to the state that is behind one. -/
theorem server_foldl {s : State} (hs : isServer s = true) {run : Bytes}
    (hrun : ∀ ch ∈ run, isServerChar ch = true) :
    isServer (run.foldl parseUrlChar s) = true ∧
      (s ≠ .reqServerWithAt → run.foldl parseUrlChar s ≠ .reqServerWithAt) := by
  induction run generalizing s with
  | nil => exact ⟨hs, id⟩
  | cons c run ih =>
    rw [List.forall_mem_cons] at hrun
    have hat : c ≠ chr '@' := by
      rintro rfl
      exact absurd hrun.1 (by decide)
    rw [List.foldl_cons, server_char hs hat, reqServer_char, if_pos hrun.1]
    obtain ⟨hserver, hnext⟩ := ih (s := .reqServer) rfl hrun.2
    exact ⟨hserver, fun _ => hnext (by decide)⟩

theorem urlLoop_delimiter {s s' : State} {d : UInt8} {old : Option UrlField} {f : Bool} {u : Url}
    {i : Nat} {r : Url × Bool} (hs : ∀ ch, parseUrlChar s ch = if ch = d then s' else .dead)
    (hlive : s' ≠ .dead) (hs' : urlFieldOf s' = none)
    (h : parseUrlLoop s old f u i buf = some r) :
    r = (u, f) ∨ ∃ rest, buf = d :: rest ∧ parseUrlLoop s' old f u (i + 1) rest = some r := by
  cases buf with
  | nil =>
    rw [parseUrlLoop, Option.some.injEq] at h
    exact .inl h.symm
  | cons c buf =>
    by_cases hc : c = d
    · rw [urlLoop_skip ((hs c).trans (if_pos hc)) hlive hs'] at h
      exact .inr ⟨buf, by rw [hc], h⟩
    · rw [urlLoop_dead ((hs c).trans (if_neg hc))] at h
      cases h

/-- A URL that begins with a letter has an authority behind `://`, or no host. -/
theorem urlLoop_schema_cases {f : Bool} {u : Url} {i : Nat} {r : Url × Bool}
    (h : parseUrlLoop .reqSchema (some .schema) f u i buf = some r) :
    r.1.fieldSet .host = u.fieldSet .host ∨
      ∃ run rest, buf = run ++ bytes "://" ++ rest ∧ (∀ ch ∈ run, isAlpha ch = true) ∧
        Lives .reqServerStart rest := by
  induction buf generalizing f u i with
  | nil =>
    cases h
    exact .inl rfl
  | cons c buf ih =>
    by_cases halpha : isAlpha c = true
    · have hc : parseUrlChar .reqSchema c = .reqSchema := by rw [reqSchema_char, if_pos halpha]
      -- a letter stays in the scheme
      rw [parseUrlLoop, hc] at h
      rcases ih h with hhost | ⟨run, rest, rfl, hrun, hrest⟩
      · exact .inl hhost
      · exact .inr ⟨c :: run, rest, rfl, List.forall_mem_cons.mpr ⟨halpha, hrun⟩, hrest⟩
    · by_cases hcolon : c = chr ':'
      · have hc : parseUrlChar .reqSchema c = .reqSchemaSlash := by
          rw [reqSchema_char, if_neg halpha, if_pos hcolon]
        -- behind the colon two slashes follow, or the text ends
        rw [urlLoop_skip hc (by decide) rfl] at h
        rcases urlLoop_delimiter reqSchemaSlash_char (by decide) rfl h with rfl | ⟨buf, rfl, h⟩
        · exact .inl rfl
        rcases urlLoop_delimiter reqSchemaSlashSlash_char (by decide) rfl h with
          rfl | ⟨rest, rfl, h⟩
        · exact .inl rfl
        · exact .inr ⟨[], rest, by rw [hcolon]; rfl, by simp, lives_of_loop (by decide) h⟩
      · rw [urlLoop_dead (by rw [reqSchema_char, if_neg halpha, if_neg hcolon])] at h
        cases h

end Lives

/-! ## What the loop records -/

section Mark
variable {old : Option UrlField} {f : Bool} {u : Url} {i n j : Nat}

theorem urlLoop_fragment {run : Bytes} (h : ∀ ch ∈ run, isFragmentChar ch = true) :
    parseUrlLoop .reqFragment (some .fragment) f (u.span .fragment i (n + 1)) j run =
      some (u.span .fragment i (n + 1 + run.length), f) := by
  have hself : ∀ ch ∈ run, parseUrlChar .reqFragment ch = .reqFragment := by
    intro ch hch
    rw [reqFragment_char, if_pos (h ch hch)]
  have hrun : parseUrlLoop .reqFragment (some .fragment) f (u.span .fragment i (n + 1)) j
      (run ++ []) = some (u.span .fragment i (n + 1 + run.length), f) :=
    urlLoop_run hself rfl (by decide)
  rwa [List.append_nil] at hrun

theorem urlLoop_fragmentStart {x : Bytes} (hold : some UrlField.fragment ≠ old)
    (h : ∀ ch ∈ x, isFragmentChar ch = true) :
    parseUrlLoop .reqFragmentStart old f u i x =
      some (u.span .fragment (i + (hashes x).length) (unhashed x).length, f) := by
  induction x generalizing i with
  | nil => rfl
  | cons c x ih =>
    rw [List.forall_mem_cons] at h
    by_cases hhash : c = chr '#'
    · -- more delimiters are passed over and leave no mark
      have hskip : parseUrlChar .reqFragmentStart c = .reqFragmentStart := by
        rw [reqFragmentStart_char, if_pos hhash]
      have hself : (c == chr '#') = true := beq_iff_eq.mpr hhash
      have hhashes : hashes (c :: x) = c :: hashes x := List.takeWhile_cons_of_pos hself
      have hunhashed : unhashed (c :: x) = unhashed x := List.dropWhile_cons_of_pos hself
      rw [urlLoop_skip hskip (by decide) rfl, ih h.2, hhashes, hunhashed, List.length_cons,
        (by omega : i + 1 + (hashes x).length = i + ((hashes x).length + 1))]
    · have henter : parseUrlChar .reqFragmentStart c = .reqFragment := by
        rw [reqFragmentStart_char, if_neg hhash, if_pos h.1]
      have hother : ¬ (c == chr '#') = true := mt beq_iff_eq.mp hhash
      have hhashes : hashes (c :: x) = [] := List.takeWhile_cons_of_neg hother
      have hunhashed : unhashed (c :: x) = c :: x := List.dropWhile_cons_of_neg hother
      rw [urlLoop_enter henter rfl hold, urlLoop_fragment h.2, hhashes, hunhashed, List.length_cons,
        Nat.add_comm x.length, List.length_nil, Nat.add_zero]
      simp

theorem urlLoop_fragmentText {s : State} {x : Option Bytes} (hold : some UrlField.fragment ≠ old)
    (hs : x = none ∨ parseUrlChar s (chr '#') = .reqFragmentStart)
    (h : ∀ y ∈ x, ∀ ch ∈ y, isFragmentChar ch = true) :
    parseUrlLoop s old f u i (fragmentText x) = some (UrlTail.markFragment x u i, f) := by
  cases x with
  | none => rfl
  | some y =>
    have hskip := hs.resolve_left (by simp)
    rw [fragmentText, delimited, urlLoop_skip hskip (by decide) rfl,
      urlLoop_fragmentStart hold (h y rfl)]
    rfl

theorem urlLoop_query {q : Bytes} {x : Option Bytes} (hq : ∀ ch ∈ q, isQueryChar ch = true)
    (hx : ∀ y ∈ x, ∀ ch ∈ y, isFragmentChar ch = true) :
    parseUrlLoop .reqQueryString (some .query) f (u.span .query i (n + 1)) j
        (q ++ fragmentText x) =
      some (UrlTail.markFragment x (u.span .query i (n + 1 + q.length)) (j + q.length), f) := by
  have hself : ∀ ch ∈ q, parseUrlChar .reqQueryString ch = .reqQueryString := by
    intro ch hch
    rw [reqQueryString_char, if_pos (hq ch hch)]
  rw [urlLoop_run hself rfl (by decide)]
  exact urlLoop_fragmentText (by decide) (.inr (by decide)) hx

theorem urlLoop_queryText {s : State} {q x : Option Bytes} (hold : some UrlField.query ≠ old)
    (hold' : some UrlField.fragment ≠ old)
    (hs : q = none ∨ parseUrlChar s (chr '?') = .reqQueryStringStart)
    (hs' : q = none → x = none ∨ parseUrlChar s (chr '#') = .reqFragmentStart)
    (hq : ∀ y ∈ q, ∀ ch ∈ y, isQueryChar ch = true)
    (hx : ∀ y ∈ x, ∀ ch ∈ y, isFragmentChar ch = true) :
    parseUrlLoop s old f u i (queryText q ++ fragmentText x) =
      some (UrlTail.markQuery q x u i, f) := by
  cases q with
  | none => exact urlLoop_fragmentText hold' (hs' rfl) hx
  | some q =>
    have hskip := hs.resolve_left (by simp)
    rw [queryText, delimited, List.cons_append, urlLoop_skip hskip (by decide) rfl]
    have hall := hq q rfl
    cases q with
    | nil =>
      rw [List.nil_append, urlLoop_fragmentText hold' (.inr (by decide)) hx]
      rfl
    | cons c q =>
      rw [List.forall_mem_cons] at hall
      have henter : parseUrlChar .reqQueryStringStart c = .reqQueryString := by
        rw [reqQueryStringStart_char, reqQueryString_char, if_pos hall.1]
      rw [List.cons_append, urlLoop_enter henter rfl hold]
      have hquery := urlLoop_query (f := f || State.reqQueryString == .reqServerWithAt) (u := u)
        (i := i + 1) (n := 0) (j := i + 1 + 1) hall.2 hx
      rw [hquery, UrlTail.markQuery, queryText, delimited, Option.getD_some, List.length_cons,
        List.length_cons, List.length_cons, (by omega : 0 + 1 + q.length = q.length + 1),
        (by omega : i + 1 + 1 + q.length = i + (q.length + 1 + 1))]
      simp

theorem urlLoop_path {p : Bytes} {q x : Option Bytes} (hp : ∀ ch ∈ p, isUrlChar ch = true)
    (hq : ∀ y ∈ q, ∀ ch ∈ y, isQueryChar ch = true)
    (hx : ∀ y ∈ x, ∀ ch ∈ y, isFragmentChar ch = true) :
    parseUrlLoop .reqPath (some .path) f (u.span .path i (n + 1)) j
        (p ++ (queryText q ++ fragmentText x)) =
      some (UrlTail.markQuery q x (u.span .path i (n + 1 + p.length)) (j + p.length), f) := by
  have hself : ∀ ch ∈ p, parseUrlChar .reqPath ch = .reqPath := by
    intro ch hch
    rw [reqPath_char, if_pos (hp ch hch)]
  rw [urlLoop_run hself rfl (by decide)]
  exact urlLoop_queryText (by decide) (by decide) (.inr (by decide)) (fun _ => .inr (by decide)) hq
    hx

/-- What the loop records behind an authority. -/
theorem urlLoop_tail {s : State} {t : UrlTail} (hs : isServer s = true)
    (hpath : some UrlField.path ≠ old) (hquery : some UrlField.query ≠ old)
    (hfragment : some UrlField.fragment ≠ old) (ht : t.Valid) :
    parseUrlLoop s old f u i t.text = some (t.mark u i, f) := by
  obtain ⟨path, query, fragment⟩ := t
  rw [UrlTail.text, List.append_assoc]
  rcases ht.path with hempty | ⟨p, hcons, hp⟩
  · dsimp only at hempty
    subst hempty
    have hstart : query = none ∨ parseUrlChar s (chr '?') = .reqQueryStringStart := by
      right
      rw [server_char hs (by decide)]
      decide
    rw [List.nil_append, urlLoop_queryText hquery hfragment hstart
      (fun h => .inl (ht.fragmentless rfl h)) ht.query ht.fragment]
    rfl
  · dsimp only at hcons
    subst hcons
    have henter : parseUrlChar s (chr '/') = .reqPath := by
      rw [server_char hs (by decide)]
      decide
    rw [List.cons_append, urlLoop_enter henter rfl hpath]
    have hrest := urlLoop_path (f := f || State.reqPath == .reqServerWithAt) (u := u) (i := i)
      (n := 0) (j := i + 1) hp ht.query ht.fragment
    rw [hrest, UrlTail.mark, List.length_cons, (by omega : 0 + 1 + p.length = p.length + 1),
      (by omega : i + 1 + p.length = i + (p.length + 1))]
    simp

theorem urlLoop_authority {s : State} {auth : Bytes} {t : UrlTail} (hs : isServer s = true)
    (hall : ∀ ch ∈ auth, isAuthorityChar ch = true) (hlive : Lives s auth) (ht : t.Valid) :
    parseUrlLoop s (some .host) f (u.span .host i (n + 1)) j (auth ++ t.text) =
      some (t.mark (u.span .host i (n + 1 + auth.length)) (j + auth.length),
        f || auth.contains (chr '@')) := by
  induction auth generalizing s f n j with
  | nil =>
    rw [List.nil_append, urlLoop_tail hs (by decide) (by decide) (by decide) ht]
    simp
  | cons c auth ih =>
    rw [List.forall_mem_cons] at hall
    have hc : parseUrlChar s c ≠ .dead := by
      intro hdead
      rw [Lives, List.foldl_cons, hdead] at hlive
      exact not_lives_dead auth hlive
    obtain ⟨hserver, hfield, hflag⟩ := server_step hs hall.1 hc
    rw [List.cons_append, urlLoop_grow rfl hfield, ih hserver hall.2 hlive, hflag, List.length_cons,
      (by omega : n + 1 + 1 + auth.length = n + 1 + (auth.length + 1)),
      (by omega : j + 1 + auth.length = j + (auth.length + 1)), List.contains_cons, Bool.or_assoc,
      BEq.comm]

theorem urlLoop_scheme {scheme rest : Bytes} (h : ∀ ch ∈ scheme, isAlpha ch = true) :
    parseUrlLoop .reqSchema (some .schema) f (u.span .schema i (n + 1)) j
        (scheme ++ (bytes "://" ++ rest)) =
      parseUrlLoop .reqServerStart (some .schema) f (u.span .schema i (n + 1 + scheme.length))
        (j + scheme.length + 3) rest := by
  have hself : ∀ ch ∈ scheme, parseUrlChar .reqSchema ch = .reqSchema := by
    intro ch hch
    rw [reqSchema_char, if_pos (h ch hch)]
  have hdelims : bytes "://" = [chr ':', chr '/', chr '/'] := rfl
  have hcolon : parseUrlChar .reqSchema (chr ':') = .reqSchemaSlash := by decide
  have hslash : parseUrlChar .reqSchemaSlash (chr '/') = .reqSchemaSlashSlash := by decide
  have hslash' : parseUrlChar .reqSchemaSlashSlash (chr '/') = .reqServerStart := by decide
  rw [urlLoop_run hself rfl (by decide), hdelims, List.cons_append, List.cons_append,
    List.cons_append, urlLoop_skip hcolon (by decide) rfl, urlLoop_skip hslash (by decide) rfl,
    urlLoop_skip hslash' (by decide) rfl, List.nil_append]

end Mark

end Sylar.Http
