import Sylar.Uri
import Sylar.UrlAuthority

/-! # The text of a URL and what the parser records of it

A URL with a scheme is `scheme://`, an authority and what is behind it (`UrlParts`).

**`parseUrl_text`**: of such a URL the parser records where its parts stand, with offsets of 16
bits.  **`exists_parts`**: every URL with a scheme that it accepts is one. -/
namespace Sylar.Http

/-! ## Records -/

namespace Url

/-- What is on record of a component that stands at `i` and has `n` bytes. -/
structure Records (u : Url) (uf : UrlField) (i n : Nat) : Prop where
  absent : n = 0 → u.fieldSet uf = false
  present : n ≠ 0 → u.fieldSet uf = true
  off : n ≠ 0 → u.off uf = i % 2 ^ 16
  len : n ≠ 0 → u.len uf = n % 2 ^ 16

section Records
variable {u : Url} {uf uf' : UrlField} {i j n m : Nat}

theorem records_init : init.Records uf i 0 :=
  ⟨fun _ => rfl, fun h => absurd rfl h, fun h => absurd rfl h, fun h => absurd rfl h⟩

/-- What is not on record. -/
theorem records_zero : u.Records uf i 0 ↔ u.fieldSet uf = false :=
  ⟨fun h => h.absent rfl,
    fun h => ⟨fun _ => h, fun h => absurd rfl h, fun h => absurd rfl h, fun h => absurd rfl h⟩⟩

theorem records_span (h : n = 0 → u.fieldSet uf = false) : (u.span uf i n).Records uf i n := by
  by_cases hn : n = 0
  · subst hn
    rw [span_zero]
    exact records_zero.mpr (h rfl)
  · rw [span, if_neg hn]
    exact ⟨fun h => absurd h hn, fun _ => Function.update_self .., fun _ => Function.update_self ..,
      fun _ => Function.update_self ..⟩

theorem Records.span (h : u.Records uf i n) (hne : uf ≠ uf') :
    (u.span uf' j m).Records uf i n := by
  by_cases hm : m = 0
  · rwa [hm, span_zero]
  · rw [Url.span, if_neg hm]
    refine ⟨fun hn => ?_, fun hn => ?_, fun hn => ?_, fun hn => ?_⟩
    · exact (Function.update_of_ne hne ..).trans (h.absent hn)
    · exact (Function.update_of_ne hne ..).trans (h.present hn)
    · exact (Function.update_of_ne hne ..).trans (h.off hn)
    · exact (Function.update_of_ne hne ..).trans (h.len hn)

/-- `http_parse_host` sets the length of the host to 0. -/
def resetHost (u : Url) : Url := { u with len := Function.update u.len .host 0 }

theorem Records.resetHost (h : u.Records uf i n) (hne : uf ≠ .host) :
    u.resetHost.Records uf i n :=
  ⟨h.absent, h.present, h.off, fun hn => (Function.update_of_ne hne ..).trans (h.len hn)⟩

theorem Records.mark_query {q x : Option Bytes} (h : u.Records uf i n) (hquery : uf ≠ .query)
    (hfragment : uf ≠ .fragment) : (UrlTail.markQuery q x u j).Records uf i n :=
  (h.span hquery).span hfragment

theorem Records.mark_tail {t : UrlTail} (h : u.Records uf i n) (hpath : uf ≠ .path)
    (hquery : uf ≠ .query) (hfragment : uf ≠ .fragment) : (t.mark u j).Records uf i n :=
  (h.span hpath).mark_query hquery hfragment

theorem Records.mark_authority {a : Authority} (h : u.Records uf i n) (huser : uf ≠ .userinfo)
    (hhost : uf ≠ .host) (hport : uf ≠ .port) : (a.mark u j).Records uf i n :=
  ((h.span huser).span hhost).span hport

/-- A component that is on record is read where it is said to stand. -/
theorem Records.field {text : Bytes} (h : u.Records uf i n) (hn : n < 2 ^ 16) :
    Uri.field u text uf = (text.drop (i % 2 ^ 16)).take n := by
  rw [Uri.field]
  by_cases hzero : n = 0
  · rw [h.absent hzero, hzero, if_neg Bool.false_ne_true, List.take_zero]
  · rw [h.present hzero, if_pos rfl, component, h.off hzero, h.len hzero, Nat.mod_eq_of_lt hn]

theorem Records.field_piece {a x b : Bytes} (h : u.Records uf a.length x.length)
    (ha : a.length < 2 ^ 16) (hx : x.length < 2 ^ 16) : Uri.field u (a ++ (x ++ b)) uf = x := by
  rw [h.field hx, Nat.mod_eq_of_lt ha, List.drop_left, List.take_left]

end Records

end Url

/-! ## The first loop -/

/-- A scheme is of letters. -/
structure ValidScheme (scheme : Bytes) : Prop where
  nonempty : scheme ≠ []
  alpha : ∀ ch ∈ scheme, isAlpha ch = true

/-- The bytes of an authority that the first loop lets through. -/
structure ValidServer (auth : Bytes) : Prop where
  nonempty : auth ≠ []
  chars : ∀ ch ∈ auth, isAuthorityChar ch = true
  lives : Lives .reqServerStart auth

section Loop
variable {scheme auth buf : Bytes} {t : UrlTail} {u : Url}

/-- What the first loop records of the text. -/
def loopMark (scheme auth : Bytes) (t : UrlTail) (u : Url) : Url :=
  t.mark ((u.span .schema 0 scheme.length).span .host (scheme.length + 3) auth.length)
    (scheme.length + 3 + auth.length)

theorem urlLoop_text (hscheme : ValidScheme scheme) (hauth : ValidServer auth) (ht : t.Valid) :
    parseUrlLoop .reqSpacesBeforeUrl none false u 0
        (scheme ++ (bytes "://" ++ (auth ++ t.text))) =
      some (loopMark scheme auth t u, auth.contains (chr '@')) := by
  obtain ⟨hne, halpha⟩ := hscheme
  obtain ⟨hne', hchars, hlives⟩ := hauth
  match scheme, auth with
  | [], _ => exact absurd rfl hne
  | _ :: _, [] => exact absurd rfl hne'
  | c :: scheme, c' :: auth =>
    rw [List.forall_mem_cons] at halpha hchars
    have hlive : parseUrlChar .reqServerStart c' ≠ .dead := by
      intro hdead
      rw [Lives, List.foldl_cons, hdead] at hlives
      exact not_lives_dead auth hlives
    have henter : parseUrlChar .reqSpacesBeforeUrl c = .reqSchema := by
      rw [reqSpacesBeforeUrl_char, if_pos halpha.1]
    obtain ⟨hserver, hfield, hflag⟩ := server_step (s := .reqServerStart) rfl hchars.1 hlive
    have hrun : parseUrlLoop .reqSchema (some .schema)
        (false || State.reqSchema == .reqServerWithAt) (u.span .schema 0 (0 + 1)) (0 + 1)
        (scheme ++ (bytes "://" ++ (c' :: auth ++ t.text))) = _ := urlLoop_scheme halpha.2
    have hstart : (false || State.reqSchema == .reqServerWithAt) = false := rfl
    rw [List.cons_append, urlLoop_enter henter rfl (by decide), hrun, List.cons_append,
      urlLoop_enter rfl hfield (by decide),
      urlLoop_authority (n := 0) hserver hchars.2 hlives ht, hstart, hflag, loopMark,
      List.length_cons, List.length_cons, List.contains_cons, BEq.comm (a := c'),
      (by omega : 0 + 1 + scheme.length = scheme.length + 1),
      (by omega : 0 + 1 + auth.length = auth.length + 1),
      (by omega : scheme.length + 1 + 3 + 1 + auth.length =
        scheme.length + 1 + 3 + (auth.length + 1)), Bool.false_or]

/-- The pieces of a URL that has a scheme and a host. -/
theorem urlLoop_cases {r : Url × Bool}
    (h : parseUrlLoop .reqSpacesBeforeUrl none false u 0 buf = some r)
    (hhost : u.fieldSet .host = false) (hset : r.1.fieldSet .host = true) :
    ∃ scheme auth t, ValidScheme scheme ∧ ValidServer auth ∧ UrlTail.Valid t ∧
      buf = scheme ++ (bytes "://" ++ (auth ++ t.text)) := by
  cases buf with
  | nil =>
    cases h
    rw [hhost] at hset
    cases hset
  | cons c buf =>
    by_cases halpha : isAlpha c = true
    · have henter : parseUrlChar .reqSpacesBeforeUrl c = .reqSchema := by
        rw [reqSpacesBeforeUrl_char, if_pos halpha]
      have hnext := h
      rw [urlLoop_enter henter rfl (by decide)] at hnext
      have hbase : (u.span .schema 0 1).fieldSet .host = false := hhost
      rcases urlLoop_schema_cases hnext with hr | ⟨scheme, rest, rfl, hscheme, hlives⟩
      · rw [hr, hbase] at hset
        cases hset
      obtain ⟨auth, t, rfl, ht, hauth⟩ := lives_server (s := .reqServerStart) rfl hlives
      have hvalid : ValidScheme (c :: scheme) :=
        ⟨by simp, List.forall_mem_cons.mpr ⟨halpha, hscheme⟩⟩
      -- without an authority there would be no host on record
      by_cases hne : auth = []
      · subst hne
        have hrun : parseUrlLoop .reqSchema (some .schema)
            (false || State.reqSchema == .reqServerWithAt) (u.span .schema 0 (0 + 1)) (0 + 1)
            (scheme ++ (bytes "://" ++ t.text)) = _ := urlLoop_scheme hscheme
        rw [List.nil_append, List.append_assoc, hrun,
          urlLoop_tail (s := .reqServerStart) rfl (by decide) (by decide) (by decide) ht,
          Option.some.injEq] at hnext
        subst hnext
        have hrecords : u.Records .host 0 0 := Url.records_zero.mpr hhost
        refine absurd hset (Bool.eq_false_iff.mp ?_)
        exact ((hrecords.span (by decide)).mark_tail (by decide) (by decide) (by decide)).absent rfl
      · exact ⟨c :: scheme, auth, t, hvalid, ⟨hne, hauth, hlives.of_append⟩, ht, by simp⟩
    · -- a text that begins with a path has no host either
      by_cases hpath : c = chr '/' ∨ c = chr '*'
      · have henter : parseUrlChar .reqSpacesBeforeUrl c = .reqPath := by
          rw [reqSpacesBeforeUrl_char, if_neg halpha, if_pos hpath]
        rw [urlLoop_enter henter rfl (by decide)] at h
        obtain ⟨p, q, x, rfl, hp, hq, hx⟩ := lives_path (lives_of_loop (by decide) h)
        have hrun := urlLoop_path (f := false || State.reqPath == .reqServerWithAt) (u := u)
          (i := 0) (n := 0) (j := 0 + 1) hp hq hx
        rw [List.append_assoc, hrun, Option.some.injEq] at h
        subst h
        have hrecords : u.Records .host 0 0 := Url.records_zero.mpr hhost
        refine absurd hset (Bool.eq_false_iff.mp ?_)
        exact ((hrecords.span (by decide)).mark_query (by decide) (by decide)).absent rfl
      · rw [urlLoop_dead (by rw [reqSpacesBeforeUrl_char, if_neg halpha, if_neg hpath])] at h
        cases h

end Loop

/-! ## The whole parser -/

/-- A URL with a scheme. -/
structure UrlParts where
  scheme : Bytes
  authority : Authority
  tail : UrlTail

namespace UrlParts

/-! ### Where the parts stand -/

def serverAt (p : UrlParts) : Nat := p.scheme.length + 3

def hostAt (p : UrlParts) : Nat :=
  p.serverAt + (userText p.authority.user).length + p.authority.indent

def portAt (p : UrlParts) : Nat :=
  p.serverAt + (userText p.authority.user).length + p.authority.hostText.length + 1

def pathAt (p : UrlParts) : Nat := p.serverAt + p.authority.text.length

def queryAt (p : UrlParts) : Nat := p.pathAt + p.tail.path.length + 1

def fragmentAt (p : UrlParts) : Nat :=
  p.pathAt + p.tail.path.length + (queryText p.tail.query).length + 1 +
    (hashes (p.tail.fragment.getD [])).length

/-- Every part of the URL is on record where it stands. -/
structure RecordedBy (p : UrlParts) (u : Url) : Prop where
  scheme : u.Records .schema 0 p.scheme.length
  user : u.Records .userinfo p.serverAt (p.authority.user.getD []).length
  host : u.Records .host p.hostAt p.authority.host.length
  port : u.Records .port p.portAt (p.authority.port.getD []).length
  path : u.Records .path p.pathAt p.tail.path.length
  query : u.Records .query p.queryAt (p.tail.query.getD []).length
  fragment : u.Records .fragment p.fragmentAt (unhashed (p.tail.fragment.getD [])).length

def text (p : UrlParts) : Bytes := p.scheme ++ (bytes "://" ++ (p.authority.text ++ p.tail.text))

structure Valid (p : UrlParts) : Prop where
  scheme : ValidScheme p.scheme
  authority : p.authority.Valid
  tail : p.tail.Valid

end UrlParts

/-- The check of the port at the end of `http_parser_parse_url`. -/
def checkPort (buf : Bytes) (u : Url) : Option Url :=
  if u.fieldSet .port then
    match portOf 0 (u.component .port buf) with
    | none => none
    | some v => some { u with port := v }
  else some u

section LoopMark
variable {scheme auth : Bytes} {t : UrlTail} {uf : UrlField} {i : Nat}

theorem loopMark_schema :
    (loopMark scheme auth t Url.init).Records .schema 0 scheme.length :=
  ((Url.records_span fun _ => rfl).span (by decide)).mark_tail (by decide) (by decide) (by decide)

/-- A component that the first loop does not look for. -/
theorem loopMark_absent (huf : uf = .userinfo ∨ uf = .port) :
    (loopMark scheme auth t Url.init).Records uf i 0 := by
  rcases huf with rfl | rfl
  · exact ((Url.records_init.span (by decide)).span (by decide)).mark_tail (by decide) (by decide)
      (by decide)
  · exact ((Url.records_init.span (by decide)).span (by decide)).mark_tail (by decide) (by decide)
      (by decide)

/-- Nothing of the tail is on record in front of it. -/
theorem server_absent (huf : uf = .path ∨ uf = .query ∨ uf = .fragment) :
    ((Url.init.span .schema 0 scheme.length).span .host (scheme.length + 3)
      auth.length).Records uf i 0 := by
  rcases huf with rfl | rfl | rfl
  · exact (Url.records_init.span (by decide)).span (by decide)
  · exact (Url.records_init.span (by decide)).span (by decide)
  · exact (Url.records_init.span (by decide)).span (by decide)

theorem loopMark_host :
    (loopMark scheme auth t Url.init).Records .host (scheme.length + 3) auth.length := by
  have habsent : (Url.init.span .schema 0 scheme.length).Records .host 0 0 :=
    Url.records_init.span (by decide)
  exact (Url.records_span fun _ => habsent.absent rfl).mark_tail (by decide) (by decide) (by decide)

theorem loopMark_path : (loopMark scheme auth t Url.init).Records .path
    (scheme.length + 3 + auth.length) t.path.length :=
  (Url.records_span fun _ => (server_absent (i := 0) (.inl rfl)).absent rfl).mark_query (by decide)
    (by decide)

theorem loopMark_query : (loopMark scheme auth t Url.init).Records .query
    (scheme.length + 3 + auth.length + t.path.length + 1) (t.query.getD []).length := by
  have habsent : (((Url.init.span .schema 0 scheme.length).span .host (scheme.length + 3)
      auth.length).span .path (scheme.length + 3 + auth.length) t.path.length).Records .query 0 0 :=
    (server_absent (.inr (.inl rfl))).span (by decide)
  exact (Url.records_span fun _ => habsent.absent rfl).span (by decide)

theorem loopMark_fragment : (loopMark scheme auth t Url.init).Records .fragment
    (scheme.length + 3 + auth.length + t.path.length + (queryText t.query).length + 1 +
      (hashes (t.fragment.getD [])).length) (unhashed (t.fragment.getD [])).length := by
  refine Url.records_span fun _ => ?_
  exact (((server_absent (i := 0) (.inr (.inr rfl))).span (by decide)).span (by decide)).absent rfl

end LoopMark

section Parse
variable {scheme auth : Bytes} {t : UrlTail} {u v : Url}

theorem parseHost_eq {buf : Bytes} {foundAt : Bool} : parseHost buf u foundAt =
    parseHostEnd (hostEntry foundAt) u.resetHost (u.off .host) (u.component .host buf) := rfl

/-- The parser on a text of these pieces: only the second loop can fail, and the check of the
port. -/
theorem parseUrl_pieces (hscheme : ValidScheme scheme) (hauth : ValidServer auth) (ht : t.Valid)
    (hat : scheme.length + 3 < 2 ^ 16) (hlen : auth.length < 2 ^ 16) :
    parseUrl (scheme ++ (bytes "://" ++ (auth ++ t.text))) false Url.init =
      (parseHostEnd (hostEntry (auth.contains (chr '@')))
        (loopMark scheme auth t Url.init).resetHost (scheme.length + 3) auth).bind
          (checkPort (scheme ++ (bytes "://" ++ (auth ++ t.text)))) := by
  have hne : scheme ++ (bytes "://" ++ (auth ++ t.text)) ≠ [] :=
    List.append_ne_nil_of_left_ne_nil hscheme.nonempty _
  have hloop := urlLoop_text (u := Url.init) hscheme hauth ht
  have hinit : { Url.init with port := 0, fieldSet := fun _ => false } = Url.init := rfl
  have hhost : (loopMark scheme auth t Url.init).Records .host _ _ := loopMark_host
  have hnonzero : auth.length ≠ 0 := mt List.length_eq_zero_iff.mp hauth.nonempty
  rw [parseUrl, if_neg hne]
  dsimp only
  rw [hinit, if_neg Bool.false_ne_true, hloop]
  dsimp only
  -- the host is on record, so the authority is gone over once more, from its own offset
  rw [if_neg (fun h => h.2 (hhost.present hnonzero)), if_pos (hhost.present hnonzero), parseHost_eq,
    hhost.off hnonzero, Nat.mod_eq_of_lt hat, Url.component, hhost.off hnonzero,
    hhost.len hnonzero, Nat.mod_eq_of_lt hat, Nat.mod_eq_of_lt hlen, ← List.append_assoc,
    (by rw [List.length_append]; rfl : scheme.length + 3 = (scheme ++ bytes "://").length),
    List.drop_left, List.take_left]
  cases hend : parseHostEnd (hostEntry (auth.contains (chr '@')))
      (loopMark scheme auth t Url.init).resetHost (scheme ++ bytes "://").length auth with
  | none => rfl
  | some u =>
    dsimp only
    rw [if_neg (fun h => Bool.false_ne_true h.1)]
    rfl

theorem hostReset_loopMark (hauth : ValidServer auth) :
    HostReset (loopMark scheme auth t Url.init).resetHost := by
  have hnonzero : auth.length ≠ 0 := mt List.length_eq_zero_iff.mp hauth.nonempty
  exact ⟨loopMark_host.present hnonzero, by simp [Url.resetHost]⟩

/-- What the two loops leave on record. -/
theorem recordedBy_mark {p : UrlParts} (hp : p.authority.Valid) : p.RecordedBy
    (p.authority.mark (loopMark p.scheme p.authority.text p.tail Url.init).resetHost
      p.serverAt) where
  scheme := (loopMark_schema.resetHost (by decide)).mark_authority (by decide) (by decide)
    (by decide)
  user := by
    have habsent : (loopMark p.scheme p.authority.text p.tail Url.init).resetHost.Records
        .userinfo 0 0 := (loopMark_absent (.inl rfl)).resetHost (by decide)
    exact ((Url.records_span fun _ => habsent.absent rfl).span (by decide)).span (by decide)
  host := by
    have hnonzero : p.authority.host.length ≠ 0 := mt List.length_eq_zero_iff.mp hp.nonempty
    exact (Url.records_span fun h => absurd h hnonzero).span (by decide)
  port := by
    have habsent : (loopMark p.scheme p.authority.text p.tail Url.init).resetHost.Records
        .port 0 0 := (loopMark_absent (.inr rfl)).resetHost (by decide)
    refine Url.records_span fun _ => ?_
    exact ((habsent.span (by decide)).span (by decide)).absent rfl
  path := (loopMark_path.resetHost (by decide)).mark_authority (by decide) (by decide) (by decide)
  query := (loopMark_query.resetHost (by decide)).mark_authority (by decide) (by decide) (by decide)
  fragment := (loopMark_fragment.resetHost (by decide)).mark_authority (by decide) (by decide)
    (by decide)

theorem checkPort_recordedBy {p : UrlParts} {buf : Bytes} (h : p.RecordedBy u)
    (hcheck : checkPort buf u = some v) : p.RecordedBy v := by
  rw [checkPort] at hcheck
  split at hcheck
  · split at hcheck
    · cases hcheck
    · cases hcheck
      -- `port` is not a record of a component
      exact ⟨⟨h.scheme.1, h.scheme.2, h.scheme.3, h.scheme.4⟩,
        ⟨h.user.1, h.user.2, h.user.3, h.user.4⟩, ⟨h.host.1, h.host.2, h.host.3, h.host.4⟩,
        ⟨h.port.1, h.port.2, h.port.3, h.port.4⟩, ⟨h.path.1, h.path.2, h.path.3, h.path.4⟩,
        ⟨h.query.1, h.query.2, h.query.3, h.query.4⟩,
        ⟨h.fragment.1, h.fragment.2, h.fragment.3, h.fragment.4⟩⟩
  · cases hcheck
    exact h

theorem isServerChar_of_userinfo {ch : UInt8} (h : isUserinfoChar ch = true) :
    isServerChar ch = true := by
  rw [isServerChar, h, Bool.true_or, Bool.true_or]

theorem isServerChar_of_alphanum {ch : UInt8} (h : isAlphanum ch = true) :
    isServerChar ch = true :=
  isServerChar_of_userinfo (by rw [isUserinfoChar, h]; rfl)

theorem isServerChar_of_num {ch : UInt8} (h : isNum ch = true) : isServerChar ch = true :=
  isServerChar_of_alphanum (by rw [isAlphanum, h, Bool.or_true])

theorem isServerChar_of_host {ch : UInt8} (h : isHostChar ch = true) :
    isServerChar ch = true := by
  rw [isHostChar, Bool.or_eq_true, Bool.or_eq_true, beq_iff_eq, beq_iff_eq] at h
  rcases h with (h | rfl) | rfl
  · exact isServerChar_of_alphanum h
  · decide
  · decide

theorem isServerChar_of_hex {ch : UInt8} (h : isHex ch = true) : isServerChar ch = true := by
  rw [isHex, Bool.or_eq_true] at h
  rcases h with h | h
  · exact isServerChar_of_num h
  · rw [Bool.and_eq_true, decide_eq_true_iff, decide_eq_true_iff] at h
    have hz : lower ch ≤ chr 'z' := UInt8.le_trans h.2 (by decide)
    refine isServerChar_of_alphanum ?_
    rw [isAlphanum, isAlpha, decide_eq_true h.1, decide_eq_true hz]
    rfl

theorem isServerChar_of_literal {ch : UInt8} (h : isLiteralChar ch = true) :
    isServerChar ch = true := by
  have hmarks : ∀ ch ∈ [chr '%', chr '.', chr '-', chr '_', chr '~'],
      isServerChar ch = true := by
    simp only [List.forall_mem_cons]
    exact ⟨by decide, by decide, by decide, by decide, by decide, by simp⟩
  rw [isLiteralChar, Bool.or_eq_true, isV6Char_iff, isZoneChar_iff] at h
  rcases h with (h | rfl | rfl) | h | h
  · exact isServerChar_of_hex h
  · decide
  · decide
  · exact isServerChar_of_alphanum h
  · exact hmarks ch (List.contains_iff_mem.mp h)

theorem isAuthorityChar_of_server {ch : UInt8} (h : isServerChar ch = true) :
    isAuthorityChar ch = true := by
  rw [isAuthorityChar, h, Bool.true_or]

theorem contains_userText {user : Option Bytes} {rest : Bytes}
    (hrest : ∀ ch ∈ rest, isServerChar ch = true) :
    (userText user ++ rest).contains (chr '@') = user.isSome := by
  have hat : chr '@' ∉ rest := fun h => absurd (hrest _ h) (by decide)
  cases user with
  | none => simpa [userText] using hat
  | some user => simp [userText]

/-- What the parser takes for an authority. -/
theorem validServer_userText {user : Option Bytes} {rest : Bytes}
    (huser : ∀ x ∈ user, ∀ ch ∈ x, isUserinfoChar ch = true) (hne : rest ≠ [])
    (hrest : ∀ ch ∈ rest, isServerChar ch = true) : ValidServer (userText user ++ rest) := by
  have hlive : ∀ {s : State}, isServer s = true → s ≠ .dead := by
    rintro s hs rfl
    cases hs
  have hchars : ∀ ch ∈ rest, isAuthorityChar ch = true := fun ch hch =>
    isAuthorityChar_of_server (hrest ch hch)
  refine ⟨List.append_ne_nil_of_right_ne_nil _ hne, ?_, ?_⟩
  · rw [List.forall_mem_append, and_iff_left hchars]
    cases user with
    | none => simp [userText]
    | some x =>
      rw [userText, List.forall_mem_append, List.forall_mem_singleton]
      refine ⟨fun ch hch => ?_, by decide⟩
      exact isAuthorityChar_of_server (isServerChar_of_userinfo (huser x rfl ch hch))
  · cases user with
    | none => exact hlive (server_foldl rfl hrest).1
    | some x =>
      have hx : ∀ ch ∈ x, isServerChar ch = true := fun ch hch =>
        isServerChar_of_userinfo (huser x rfl ch hch)
      obtain ⟨hserver, hat⟩ := server_foldl (s := .reqServerStart) rfl hx
      have hnext : parseUrlChar (x.foldl parseUrlChar .reqServerStart) (chr '@') =
          .reqServerWithAt := by
        rcases isServer_cases hserver with heq | heq | heq
        · rw [heq]
          decide
        · rw [heq]
          decide
        · exact absurd heq (hat (by decide))
      rw [Lives, List.foldl_append, userText, List.foldl_append, List.foldl_cons, List.foldl_nil,
        hnext]
      exact hlive (server_foldl rfl hrest).1

theorem portText_server {port : Option Bytes} (h : ValidPort port) :
    ∀ ch ∈ portText port, isServerChar ch = true := by
  cases port with
  | none => simp [portText, delimited]
  | some d =>
    rw [portText, delimited, List.forall_mem_cons]
    exact ⟨by decide, fun ch hch => isServerChar_of_num ((h d rfl).2 ch hch)⟩

theorem Authority.Valid.host_server {a : Authority} (ha : a.Valid) :
    ∀ ch ∈ a.host, isServerChar ch = true := by
  intro ch hch
  have hhost := ha.host ch hch
  split at hhost
  · exact isServerChar_of_literal hhost
  · exact isServerChar_of_host hhost

theorem Authority.Valid.server {a : Authority} (ha : a.Valid) :
    ∀ ch ∈ a.hostText ++ portText a.port, isServerChar ch = true := by
  rw [List.forall_mem_append]
  refine ⟨?_, portText_server ha.port⟩
  rw [Authority.hostText]
  split
  · rw [List.forall_mem_cons, List.forall_mem_append, List.forall_mem_singleton]
    exact ⟨by decide, ha.host_server, by decide⟩
  · exact ha.host_server

theorem Authority.Valid.hostText_ne_nil {a : Authority} (ha : a.Valid) : a.hostText ≠ [] := by
  rw [Authority.hostText]
  split
  · simp
  · exact ha.nonempty

theorem Authority.Valid.validServer {a : Authority} (ha : a.Valid) : ValidServer a.text :=
  validServer_userText ha.user (List.append_ne_nil_of_left_ne_nil ha.hostText_ne_nil _) ha.server

/-- What gets through among texts of these pieces. -/
theorem parseUrl_pieces_cases (hscheme : ValidScheme scheme) (hauth : ValidServer auth)
    (ht : t.Valid) (hat : scheme.length + 3 < 2 ^ 16) (hlen : auth.length < 2 ^ 16)
    (h : parseUrl (scheme ++ (bytes "://" ++ (auth ++ t.text))) false Url.init = some u) :
    ∃ a v, a.Valid ∧ auth = Authority.text a ∧ UrlParts.RecordedBy ⟨scheme, a, t⟩ v ∧
      checkPort (scheme ++ (bytes "://" ++ (auth ++ t.text))) v = some u := by
  rw [parseUrl_pieces hscheme hauth ht hat hlen, Option.bind_eq_some_iff] at h
  obtain ⟨v, hv, hcheck⟩ := h
  obtain ⟨a, ha, -, rfl, rfl⟩ := hostEnd_cases (hostReset_loopMark hauth) hv
  exact ⟨a, _, ha, rfl, recordedBy_mark (p := ⟨scheme, a, t⟩) ha, hcheck⟩

/-- **What the parser records of a URL.** -/
theorem parseUrl_text {p : UrlParts} (hp : p.Valid) (hplain : p.authority.bracketed = false)
    (hat : p.serverAt < 2 ^ 16) (hlen : p.authority.text.length < 2 ^ 16) :
    ∃ u, p.RecordedBy u ∧ parseUrl p.text false Url.init = checkPort p.text u := by
  have hauth := hp.authority.validServer
  have hflag : p.authority.text.contains (chr '@') = p.authority.user.isSome :=
    contains_userText hp.authority.server
  have hreset : HostReset (loopMark p.scheme p.authority.text p.tail Url.init).resetHost :=
    hostReset_loopMark hauth
  have hend := hostEnd_text (i := p.serverAt) hreset hp.authority hplain
  refine ⟨_, recordedBy_mark hp.authority, ?_⟩
  rw [UrlParts.text, parseUrl_pieces hp.scheme hauth hp.tail hat hlen, hflag]
  exact congrArg (Option.bind · _) hend

/-- Without a host there is no scheme in a URL that is accepted. -/
theorem parseUrl_host {buf : Bytes} (h : parseUrl buf false Url.init = some u)
    (hschema : u.fieldSet .schema = true) :
    ∃ r, parseUrlLoop .reqSpacesBeforeUrl none false Url.init 0 buf = some r ∧
      r.1.fieldSet .host = true := by
  have hinit : { Url.init with port := 0, fieldSet := fun _ => false } = Url.init := rfl
  have hne : buf ≠ [] := by
    rintro rfl
    cases h
  rw [parseUrl, if_neg hne] at h
  dsimp only at h
  rw [hinit, if_neg Bool.false_ne_true] at h
  cases hloop : parseUrlLoop .reqSpacesBeforeUrl none false Url.init 0 buf with
  | none =>
    rw [hloop] at h
    cases h
  | some r =>
    refine ⟨r, rfl, ?_⟩
    obtain ⟨v, foundAt⟩ := r
    rw [hloop] at h
    dsimp only at h ⊢
    by_contra hhost
    rw [if_neg hhost] at h
    by_cases hset : v.fieldSet .schema = true
    · rw [if_pos ⟨hset, hhost⟩] at h
      cases h
    · rw [if_neg (fun hand => hset hand.1)] at h
      dsimp only at h
      rw [if_neg (fun hand => Bool.false_ne_true hand.1)] at h
      have hsame : u.fieldSet = v.fieldSet := by
        split at h
        · split at h
          · cases h
          · cases h
            rfl
        · cases h
          rfl
      rw [hsame] at hschema
      exact hset hschema

/-- **A URL with a scheme that the parser accepts has these parts.** -/
theorem exists_parts {buf : Bytes} (h : parseUrl buf false Url.init = some u)
    (hschema : u.fieldSet .schema = true) (hlen : buf.length < 2 ^ 16) :
    ∃ (p : UrlParts) (v : Url), p.Valid ∧ buf = p.text ∧ p.RecordedBy v ∧
      checkPort p.text v = some u := by
  obtain ⟨r, hloop, hhost⟩ := parseUrl_host h hschema
  obtain ⟨scheme, auth, t, hscheme, hauth, ht, rfl⟩ := urlLoop_cases hloop rfl hhost
  have hdelims : (bytes "://").length = 3 := rfl
  simp only [List.length_append, hdelims] at hlen
  obtain ⟨a, v, ha, rfl, hrecords, hcheck⟩ :=
    parseUrl_pieces_cases hscheme hauth ht (by omega) (by omega) h
  exact ⟨⟨scheme, a, t⟩, v, ⟨hscheme, ha, ht⟩, rfl, hrecords, hcheck⟩

end Parse

end Sylar.Http
