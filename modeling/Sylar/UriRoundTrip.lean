import Sylar.UriParts
import Sylar.UrlUnique

/-! # Printing and parsing a URI

`toString` puts the components together without the brackets of a host, with `:0` and `/` where a
port or a path is missing, and the parser records where components begin in 16 bits.

**`uri_round_trip_iff`**: what is printed is read again as it was exactly when the host is of the
bytes of a name, so that it needs no brackets, and the components of the printed text begin in the
first 65536 bytes. -/
namespace Sylar
open Http

/-- What is printed of the URI is accepted, with the same components. -/
def Uri.RoundTrip (uri : Uri) : Prop :=
  ∃ uri' : Uri, Uri.Create uri.toString = .ok (some uri') ∧ uri'.scheme_ = uri.scheme_ ∧
    uri'.userInfo_ = uri.userInfo_ ∧ uri'.host_ = uri.host_ ∧ uri'.getPort = uri.getPort ∧
    uri'.getPath = uri.getPath ∧ uri'.query_ = uri.query_ ∧ uri'.fragment_ = uri.fragment_

namespace Http.UrlParts
variable (p : UrlParts)

/-! ## The condition -/

/-- The port that the URL gives, or the one that its scheme implies. -/
def portNumber : Nat :=
  match p.authority.port with
  | none => (Uri.implicitPort p.scheme).toNat
  | some d => natOfDigits 0 d

/-- The bytes of a printed port, with its colon; the port that the scheme implies is left out. -/
def portWidth : Nat :=
  if (p.scheme = bytes "http" ∨ p.scheme = bytes "ws") ∧ p.portNumber = 80 ∨
      p.scheme = bytes "https" ∧ p.portNumber = 443 then 0
  else 1 + (Nat.toDigits 10 p.portNumber).length

/-- The bytes of a component and of its delimiter. -/
def width (x : Bytes) : Nat := if x = [] then 0 else x.length + 1

/-- Where the path begins without brackets and with the port that is printed. -/
def printedPathAt : Nat :=
  p.serverAt + width (p.authority.user.getD []) + p.authority.host.length + p.portWidth

/-- Where the query begins; the path has a byte at least. -/
def printedQueryAt : Nat := p.printedPathAt + max 1 p.tail.path.length + 1

def printedFragmentAt : Nat :=
  p.printedPathAt + max 1 p.tail.path.length + width (p.tail.query.getD []) + 1

/-- A component that begins at `i` is read where its offset of 16 bits says: beyond 65535 that is
at the beginning of the text, where the same bytes stand by chance only. -/
def Reads (i : Nat) (x : Bytes) : Prop :=
  x = [] ∨ i < 2 ^ 16 ∨ ((p.scheme ++ bytes "://").drop (i - 2 ^ 16)).take x.length = x

/-- The components of the printed text are read where they begin. -/
structure Fits : Prop where
  path : p.printedPathAt < 2 ^ 16
  query : p.Reads p.printedQueryAt (p.tail.query.getD [])
  fragment : p.Reads p.printedFragmentAt (unhashed (p.tail.fragment.getD []))

/-! ## What is printed -/

/-- The URI of a URL of these parts. -/
def uri : Uri where
  scheme_ := p.scheme
  userInfo_ := p.authority.user.getD []
  host_ := p.authority.host
  path_ := p.tail.path
  query_ := p.tail.query.getD []
  fragment_ := unhashed (p.tail.fragment.getD [])
  port_ := p.portValue

/-- `Uri::Create` on a URL of these parts. -/
theorem Create_uri {p : UrlParts} {u : Url} (hvalid : ValidPort p.authority.port)
    (hfits : p.PortFits) (h : p.RecordedBy u)
    (hparse : parseUrl p.text false Url.init = checkPort p.text u)
    (hlen : p.text.length < 2 ^ 16) : Uri.Create p.text = .ok (some p.uri) := by
  have hle := (stands_path (p := p)).le
  rw [Create_text hvalid hfits h hparse (by omega), field_path h (by omega) (by omega),
    field_query h hlen, field_fragment h hlen]
  rfl

/-- A component that is printed with its delimiter, unless it is empty. -/
def given (x : Bytes) : Option Bytes := if x = [] then none else some x

def printedPort : Option Bytes :=
  if p.uri.isDefaultPort then none else some ((Nat.toDigits 10 p.portNumber).map chr)

/-- The parts of the text that `toString` returns. -/
def printed : UrlParts where
  scheme := p.scheme
  authority :=
    { user := given (p.authority.user.getD [])
      bracketed := false
      host := p.authority.host
      port := p.printedPort }
  tail :=
    { path := p.uri.getPath
      query := given (p.tail.query.getD [])
      fragment := given (unhashed (p.tail.fragment.getD [])) }

variable {p} {x : Bytes}

theorem getD_given : (given x).getD [] = x := by
  rw [given]
  split
  case isTrue hx => exact hx.symm
  case isFalse => rfl

theorem mem_given {y : Bytes} (h : y ∈ given x) : y = x := by
  rw [given] at h
  split at h
  · cases h
  · cases h
    rfl

theorem userText_given : userText (given x) = x ++ (if x = [] then [] else bytes "@") := by
  rw [given]
  split
  case isTrue hx => rw [hx]; rfl
  case isFalse => rfl

theorem delimited_given (d : UInt8) :
    delimited d (given x) = (if x = [] then [] else [d]) ++ x := by
  rw [given]
  split
  case isTrue hx => rw [hx]; rfl
  case isFalse => rfl

theorem portValue_eq : p.portValue = (p.portNumber : Int) := by
  rw [portValue, portNumber]
  cases p.authority.port with
  | some d => rfl
  | none =>
    show Uri.implicitPort p.scheme = _
    rw [Uri.implicitPort]
    split
    · rfl
    · split
      · rfl
      · rfl

theorem printed_text : p.uri.toString = p.printed.text := by
  have hport : (if p.uri.isDefaultPort then [] else bytes ":" ++ stdToString p.uri.port_) =
      portText p.printedPort := by
    have hvalue : p.uri.port_ = (p.portNumber : Int) := portValue_eq
    rw [printedPort, hvalue]
    split
    · rfl
    · rfl
  rw [Uri.toString, hport]
  simp only [text, Authority.text, Authority.hostText, UrlTail.text, printed, userText_given,
    queryText, fragmentText, delimited_given, List.append_assoc]
  rfl

theorem isDefaultPort_iff : p.uri.isDefaultPort = true ↔
    (p.scheme = bytes "http" ∨ p.scheme = bytes "ws") ∧ p.portNumber = 80 ∨
      p.scheme = bytes "https" ∧ p.portNumber = 443 := by
  have hvalue : p.uri.port_ = (p.portNumber : Int) := portValue_eq
  have hscheme : p.uri.scheme_ = p.scheme := rfl
  rw [Uri.isDefaultPort, hvalue, hscheme]
  have hother : p.scheme = bytes "https" → ¬ (p.scheme = bytes "http" ∨ p.scheme = bytes "ws") := by
    intro heq
    rw [heq]
    decide
  by_cases hhttp : p.scheme = bytes "http" ∨ p.scheme = bytes "ws"
  · rw [if_pos hhttp, decide_eq_true_iff]
    constructor
    · exact fun h => .inl ⟨hhttp, Int.ofNat.inj h⟩
    · rintro (⟨-, h⟩ | ⟨hhttps, -⟩)
      · exact congrArg Int.ofNat h
      · exact absurd hhttp (hother hhttps)
  · rw [if_neg hhttp]
    by_cases hhttps : p.scheme = bytes "https"
    · rw [if_pos hhttps, decide_eq_true_iff]
      constructor
      · exact fun h => .inr ⟨hhttps, Int.ofNat.inj h⟩
      · rintro (⟨h, -⟩ | ⟨-, h⟩)
        · exact absurd h hhttp
        · exact congrArg Int.ofNat h
    · rw [if_neg hhttps]
      simp [hhttp, hhttps]

theorem length_printedPort : (portText p.printedPort).length = p.portWidth := by
  rw [printedPort, portWidth]
  by_cases hdefault : p.uri.isDefaultPort = true
  · rw [if_pos hdefault, if_pos (isDefaultPort_iff.mp hdefault)]
    rfl
  · rw [if_neg hdefault, if_neg (mt isDefaultPort_iff.mpr hdefault), portText, delimited,
      List.length_cons, List.length_map, Nat.add_comm]

/-- The port that is left out is the one that the scheme implies. -/
theorem printed_portValue : p.printed.portValue = p.portValue := by
  have hport : p.printed.authority.port = p.printedPort := rfl
  have hscheme : p.printed.scheme = p.scheme := rfl
  rw [portValue_eq (p := p), portValue, hport, hscheme, printedPort]
  by_cases hdefault : p.uri.isDefaultPort = true
  · rw [if_pos hdefault]
    dsimp only
    rcases isDefaultPort_iff.mp hdefault with ⟨hhttp, hnumber⟩ | ⟨hhttps, hnumber⟩
    · rw [hnumber, Uri.implicitPort, if_pos hhttp]
      rfl
    · rw [hnumber, hhttps]
      decide
  · rw [if_neg hdefault]
    dsimp only
    rw [natOfDigits_toDigits]

theorem length_getPath : p.uri.getPath.length = max 1 p.tail.path.length := by
  have hpath : p.uri.path_ = p.tail.path := rfl
  rw [Uri.getPath, hpath]
  split
  case isTrue hempty =>
    rw [hempty]
    rfl
  case isFalse hne =>
    have hpos := List.length_pos_iff.mpr hne
    omega

theorem length_userText_given : (userText (given x)).length = width x := by
  rw [userText_given, width]
  split
  case isTrue hx => rw [hx]; rfl
  case isFalse => exact List.length_append

theorem length_delimited_given (d : UInt8) : (delimited d (given x)).length = width x := by
  rw [delimited_given, width]
  split
  case isTrue hx => rw [hx]; rfl
  case isFalse => rw [List.length_append, Nat.add_comm]; rfl

theorem printed_serverAt : p.printed.serverAt = p.serverAt := rfl

theorem printed_pathAt : p.printed.pathAt = p.printedPathAt := by
  rw [pathAt, printedPathAt, printed_serverAt, ← length_printedPort, ← length_userText_given,
    Authority.text, List.length_append, List.length_append, Nat.add_assoc, Nat.add_assoc]
  rfl

theorem printed_queryAt : p.printed.queryAt = p.printedQueryAt := by
  rw [queryAt, printedQueryAt, printed_pathAt, ← length_getPath]
  rfl

theorem hashes_unhashed : hashes (unhashed x) = [] := by
  induction x with
  | nil => rfl
  | cons c x ih =>
    by_cases hself : (c == chr '#') = true
    · have hskip : unhashed (c :: x) = unhashed x := List.dropWhile_cons_of_pos hself
      rw [hskip, ih]
    · have hkeep : unhashed (c :: x) = c :: x := List.dropWhile_cons_of_neg hself
      rw [hkeep]
      exact List.takeWhile_cons_of_neg hself

theorem unhashed_unhashed : unhashed (unhashed x) = unhashed x := by
  have happend := hashes_append_unhashed (unhashed x)
  rwa [hashes_unhashed, List.nil_append] at happend

theorem printed_fragmentAt : p.printed.fragmentAt = p.printedFragmentAt := by
  have hfragment : p.printed.tail.fragment.getD [] = unhashed (p.tail.fragment.getD []) :=
    getD_given
  rw [fragmentAt, printedFragmentAt, printed_pathAt, ← length_getPath,
    ← length_delimited_given (chr '?'), hfragment, hashes_unhashed]
  rfl

/-! ## What is printed is a URL -/

/-- A host that needs no brackets. -/
def Plain (p : UrlParts) : Prop := ∀ ch ∈ p.authority.host, isHostChar ch = true

theorem getPath_cons (hp : p.tail.Valid) :
    ∃ rest, p.uri.getPath = chr '/' :: rest ∧ ∀ ch ∈ rest, isUrlChar ch = true := by
  have hpath : p.uri.path_ = p.tail.path := rfl
  rw [Uri.getPath, hpath]
  rcases hp.path with hempty | ⟨rest, hcons, hall⟩
  · rw [if_pos hempty]
    exact ⟨[], rfl, by simp⟩
  · rw [if_neg (by simp [hcons])]
    exact ⟨rest, hcons, hall⟩

theorem printed_tail_valid (hp : p.tail.Valid) : p.printed.tail.Valid where
  path := .inr (getPath_cons hp)
  query := by
    intro q hq
    rw [mem_given hq]
    cases hquery : p.tail.query with
    | none => simp
    | some q => exact hp.query q hquery
  fragment := by
    intro y hy
    rw [mem_given hy]
    cases hfragment : p.tail.fragment with
    | none => simp [unhashed]
    | some x =>
      exact fun ch hch => hp.fragment x hfragment ch ((List.dropWhile_sublist _).subset hch)
  fragmentless := by
    intro hempty
    obtain ⟨rest, hcons, -⟩ := getPath_cons hp
    cases hcons.symm.trans hempty

theorem printed_user_valid (hp : p.authority.Valid) :
    ∀ x ∈ p.printed.authority.user, ∀ ch ∈ x, isUserinfoChar ch = true := by
  intro x hx
  rw [mem_given hx]
  cases huser : p.authority.user with
  | none => simp
  | some user => exact hp.user user huser

theorem printed_port_valid : ValidPort p.printed.authority.port := by
  have hport : p.printed.authority.port = p.printedPort := rfl
  rw [hport, printedPort]
  split
  · simp [ValidPort]
  · exact validPort_toDigits p.portNumber

theorem printed_valid (hp : p.Valid) (hplain : p.Plain) : p.printed.Valid where
  scheme := hp.scheme
  authority := ⟨printed_user_valid hp.authority, hp.authority.nonempty, hplain, printed_port_valid⟩
  tail := printed_tail_valid hp.tail

/-- The printed port is read as the number that it is. -/
theorem portNumber_le (hfits : p.PortFits) : p.portNumber ≤ 0xffff := by
  rw [portNumber]
  cases hport : p.authority.port with
  | none =>
    show (Uri.implicitPort p.scheme).toNat ≤ 0xffff
    rw [Uri.implicitPort]
    split
    · decide
    · split
      · decide
      · decide
  | some d => exact hfits d hport

theorem printed_portFits (hfits : p.PortFits) : p.printed.PortFits := by
  intro d hd
  have hport : p.printed.authority.port = p.printedPort := rfl
  rw [hport, printedPort] at hd
  split at hd
  · cases hd
  · cases hd
    rw [natOfDigits_toDigits]
    exact portNumber_le hfits

/-! ## Offsets of the printed text -/

/-- Printing adds at most `:0` in front of the path. -/
theorem portWidth_le (hp : p.authority.Valid) :
    p.portWidth ≤ (portText p.authority.port).length + 2 := by
  rw [portWidth]
  split
  · exact Nat.zero_le _
  case isFalse hdefault =>
    cases hport : p.authority.port with
    | none =>
      have hnumber : p.portNumber = (Uri.implicitPort p.scheme).toNat := by rw [portNumber, hport]
      have hzero : p.portNumber = 0 := by
        rw [hnumber, Uri.implicitPort]
        split
        case isTrue hhttp =>
          refine absurd (.inl ⟨hhttp, ?_⟩) hdefault
          rw [hnumber, Uri.implicitPort, if_pos hhttp]
          rfl
        case isFalse hhttp =>
          split
          case isTrue hhttps =>
            refine absurd (.inr ⟨hhttps, ?_⟩) hdefault
            rw [hnumber, Uri.implicitPort, if_neg hhttp, if_pos hhttps]
            rfl
          case isFalse => rfl
      rw [hzero]
      decide
    | some d =>
      obtain ⟨hne, hall⟩ := hp.port d hport
      have hnumber : p.portNumber = natOfDigits 0 d := by rw [portNumber, hport]
      have hdigits := length_toDigits_le hne hall
      rw [hnumber, portText, delimited, List.length_cons]
      omega

theorem width_le_user (o : Option Bytes) : width (o.getD []) ≤ (userText o).length := by
  cases o with
  | none => exact le_rfl
  | some x =>
    rw [Option.getD_some, width, userText, List.length_append, List.length_singleton]
    split
    · exact Nat.zero_le _
    · exact le_rfl

theorem width_le_delimited (d : UInt8) (o : Option Bytes) :
    width (o.getD []) ≤ (delimited d o).length := by
  cases o with
  | none => exact le_rfl
  | some x =>
    rw [Option.getD_some, width, delimited, List.length_cons]
    split
    · exact Nat.zero_le _
    · exact le_rfl

theorem length_host_le (a : Authority) : a.host.length ≤ a.hostText.length := by
  rw [Authority.hostText]
  split
  · rw [List.length_cons, List.length_append]
    omega
  · exact le_rfl

theorem printedPathAt_le (hp : p.authority.Valid) : p.printedPathAt ≤ p.pathAt + 2 := by
  have huser := width_le_user p.authority.user
  have hhost := length_host_le p.authority
  have hport := portWidth_le hp
  rw [printedPathAt, pathAt, Authority.text, List.length_append, List.length_append]
  omega

theorem printedQueryAt_le (hp : p.authority.Valid) : p.printedQueryAt ≤ p.queryAt + 3 := by
  have hpath := printedPathAt_le hp
  rw [printedQueryAt, queryAt]
  omega

theorem printedFragmentAt_le (hp : p.authority.Valid) :
    p.printedFragmentAt ≤ p.fragmentAt + 3 := by
  have hpath := printedPathAt_le hp
  have hquery : width (p.tail.query.getD []) ≤ (queryText p.tail.query).length :=
    width_le_delimited _ _
  rw [printedFragmentAt, fragmentAt]
  omega

/-- A component is read where its offset of 16 bits says. -/
theorem field_iff_reads {u : Url} {uf : UrlField} {i : Nat} (h : u.Records uf i x.length)
    (hstands : x ≠ [] → p.Stands i x) (hlen : x ≠ [] → x.length < 2 ^ 16)
    (hend : x ≠ [] → i + x.length ≤ 2 ^ 16 + 3) :
    Uri.field u p.text uf = x ↔ p.Reads i x := by
  by_cases hx : x = []
  · subst hx
    refine iff_of_true ?_ (.inl rfl)
    rw [h.field (by decide)]
    exact List.take_zero
  · by_cases hi : i < 2 ^ 16
    · exact iff_of_true (field_stands h (hstands hx) hi (hlen hx)) (.inr (.inl hi))
    · have hbound := hend hx
      have hpos := List.length_pos_iff.mpr hx
      -- it goes at most three bytes beyond, so that what is read ends within `scheme://`
      have hmod : i % 2 ^ 16 = i - 2 ^ 16 := by omega
      have hfront : (p.scheme ++ bytes "://").length = p.scheme.length + 3 := List.length_append
      rw [h.field (hlen hx), hmod, Reads, or_iff_right hx, or_iff_right hi, text,
        ← List.append_assoc, List.drop_append_of_le_length (by omega),
        List.take_append_of_le_length]
      rw [List.length_drop]
      omega

/-! ## What is read of the printed text -/

/-- The printed text with the authority that the parser finds in it. -/
def reread (p : UrlParts) (a : Authority) : UrlParts := ⟨p.scheme, a, p.printed.tail⟩

section Reread
variable {a : Authority} {u : Url}

theorem reread_text (ha : a.text = p.printed.authority.text) :
    (p.reread a).text = p.printed.text := by
  rw [text, text, reread, ha]
  rfl

theorem reread_pathAt (ha : a.text = p.printed.authority.text) :
    (p.reread a).pathAt = p.printedPathAt := by
  rw [← printed_pathAt, pathAt, pathAt, reread, ha]
  rfl

theorem reread_queryAt (ha : a.text = p.printed.authority.text) :
    (p.reread a).queryAt = p.printedQueryAt := by
  rw [← printed_queryAt, queryAt, queryAt, reread_pathAt ha, printed_pathAt]
  rfl

theorem reread_fragmentAt (ha : a.text = p.printed.authority.text) :
    (p.reread a).fragmentAt = p.printedFragmentAt := by
  rw [← printed_fragmentAt, fragmentAt, fragmentAt, reread_pathAt ha, printed_pathAt]
  rfl

variable (hp : p.authority.Valid) (hlen : p.text.length < 2 ^ 16)
  (ha : a.text = p.printed.authority.text) (h : (p.reread a).RecordedBy u)
include hp hlen ha h

theorem reread_query : Uri.field u p.printed.text .query = p.uri.query_ ↔
    p.Reads p.printedQueryAt p.uri.query_ := by
  have hrecords : u.Records .query _ (p.printed.tail.query.getD []).length := h.query
  have hquery : p.printed.tail.query.getD [] = p.uri.query_ := getD_given
  have hle := printedQueryAt_le hp
  have hend : p.uri.query_ ≠ [] → p.queryAt + p.uri.query_.length ≤ p.text.length := by
    intro hne
    cases hq : p.tail.query with
    | none => exact absurd (by rw [uri, hq]; rfl) hne
    | some q =>
      have hsome : p.uri.query_ = q := by rw [uri, hq]; rfl
      rw [hsome]
      exact (stands_query hq).le
  have hstands : p.uri.query_ ≠ [] → (p.reread a).Stands (p.reread a).queryAt p.uri.query_ :=
    fun hne => stands_query (if_neg hne)
  rw [hquery] at hrecords
  have hiff := field_iff_reads hrecords hstands (fun hne => by have := hend hne; omega)
    (fun hne => by have := hend hne; rw [reread_queryAt ha]; omega)
  rwa [reread_text ha, reread_queryAt ha] at hiff

theorem reread_fragment : Uri.field u p.printed.text .fragment = p.uri.fragment_ ↔
    p.Reads p.printedFragmentAt p.uri.fragment_ := by
  have hrecords : u.Records .fragment _ (unhashed (p.printed.tail.fragment.getD [])).length :=
    h.fragment
  have hfragment : unhashed (p.printed.tail.fragment.getD []) = p.uri.fragment_ := by
    have hgiven : p.printed.tail.fragment.getD [] = unhashed (p.tail.fragment.getD []) := getD_given
    rw [hgiven, unhashed_unhashed]
    rfl
  have hle := printedFragmentAt_le hp
  have hend : p.uri.fragment_ ≠ [] →
      p.fragmentAt + p.uri.fragment_.length ≤ p.text.length := by
    intro hne
    cases hx : p.tail.fragment with
    | none => exact absurd (by rw [uri, hx]; rfl) hne
    | some x =>
      have hsome : p.uri.fragment_ = unhashed x := by rw [uri, hx]; rfl
      rw [hsome]
      exact (stands_fragment hx).le
  have hstands : p.uri.fragment_ ≠ [] →
      (p.reread a).Stands (p.reread a).fragmentAt p.uri.fragment_ := by
    intro hne
    have hsome : (p.reread a).tail.fragment = some p.uri.fragment_ := if_neg hne
    have hself : unhashed p.uri.fragment_ = p.uri.fragment_ := unhashed_unhashed
    rw [← hself]
    exact stands_fragment hsome
  rw [hfragment] at hrecords
  have hiff := field_iff_reads hrecords hstands (fun hne => by have := hend hne; omega)
    (fun hne => by have := hend hne; rw [reread_fragmentAt ha]; omega)
  rwa [reread_text ha, reread_fragmentAt ha] at hiff

end Reread

/-! ## Both directions -/

/-- A path that begins beyond the 16 bits is read at the scheme, so that it is none. -/
theorem wrapped_path {u : Url} {i n : Nat} (hscheme : ValidScheme p.scheme)
    (h : u.Records .path i n) (hn : n < 2 ^ 16) (hpos : n ≠ 0) (hlarge : 2 ^ 16 ≤ i)
    (hsmall : i ≤ 2 ^ 16 + 1) :
    ∃ ch rest, Uri.field u p.text .path = ch :: rest ∧ ch ≠ chr '/' := by
  have halpha : ∀ ch, isAlpha ch = true → ch ≠ chr '/' := by
    rintro ch hch rfl
    exact absurd hch (by decide)
  have hdelims : bytes "://" = [chr ':', chr '/', chr '/'] := rfl
  obtain ⟨m, rfl⟩ := Nat.exists_eq_succ_of_ne_zero hpos
  obtain ⟨hne, hall⟩ := hscheme
  rw [h.field hn, text]
  obtain ⟨c, scheme, hs⟩ := List.exists_cons_of_ne_nil hne
  rw [hs] at hall ⊢
  have hc := halpha c (hall c List.mem_cons_self)
  rcases (by omega : i = 2 ^ 16 ∨ i = 2 ^ 16 + 1) with rfl | rfl
  · exact ⟨c, _, rfl, hc⟩
  · -- one byte on there is the second letter, or the colon behind the only one
    cases scheme with
    | nil => exact ⟨chr ':', _, rfl, by decide⟩
    | cons c' scheme => exact ⟨c', _, rfl, halpha c' (hall c' (by simp))⟩

theorem open_notMem_host (hp : p.authority.Valid) : chr '[' ∉ p.authority.host := by
  intro hmem
  have hhost := hp.host _ hmem
  split at hhost
  · exact absurd hhost (by decide)
  · exact absurd hhost (by decide)

theorem printed_server (hp : p.authority.Valid) :
    ∀ ch ∈ p.authority.host ++ portText p.printedPort, isServerChar ch = true :=
  List.forall_mem_append.mpr ⟨hp.host_server, portText_server printed_port_valid⟩

/-- In the printed text the parser finds the user that was printed, and no brackets. -/
theorem reread_authority {a : Authority} (hp : p.authority.Valid) (ha : a.Valid)
    (htext : a.text = p.printed.authority.text) :
    a.user = p.printed.authority.user ∧ a.bracketed = false := by
  obtain ⟨huser, hrest⟩ := userText_append_inj htext ha.user (printed_user_valid hp) ha.server
    (printed_server hp)
  refine ⟨huser, ?_⟩
  by_contra hbracketed
  have hopen : a.hostText = chr '[' :: (a.host ++ [chr ']']) :=
    if_pos (Bool.not_eq_false _ ▸ hbracketed)
  have hhost : a.hostText ++ portText a.port = p.authority.host ++ portText p.printedPort := hrest
  rw [hopen] at hhost
  obtain ⟨c, host, hcons⟩ := List.exists_cons_of_ne_nil hp.nonempty
  rw [hcons, List.cons_append, List.cons_append, List.cons.injEq] at hhost
  refine open_notMem_host hp ?_
  rw [hcons, hhost.1]
  exact List.mem_cons_self

section RoundTrip
variable (hp : p.Valid) (hlen : p.text.length < 2 ^ 16)
include hp hlen

/-- A URI whose host needs no brackets is read as it was, as far as its offsets fit. -/
theorem roundTrip_of_fits (hport : p.PortFits) (hplain : p.Plain) (hfits : p.Fits) :
    p.uri.RoundTrip := by
  have hprinted := printed_valid hp hplain
  have hat : p.printed.pathAt < 2 ^ 16 := by
    rw [printed_pathAt]
    exact hfits.path
  have hauth : p.printed.serverAt + p.printed.authority.text.length < 2 ^ 16 := hat
  -- the printed text is a URL again, and is read as one
  obtain ⟨u, hrecords, hparse⟩ := parseUrl_text hprinted rfl (by omega) (by omega)
  have hcreate := Create_text printed_port_valid (printed_portFits hport) hrecords hparse hat
  have hpathLength : p.printed.tail.path.length < 2 ^ 16 := by
    have hle := stands_path (p := p).le
    have hgetPath : p.printed.tail.path.length = _ := length_getPath (p := p)
    omega
  have hpath := field_path hrecords hat hpathLength
  have hquery := (reread_query hp.authority hlen rfl hrecords).mpr hfits.query
  have hfragment := (reread_fragment hp.authority hlen rfl hrecords).mpr hfits.fragment
  refine ⟨_, (congrArg Uri.Create printed_text).trans hcreate, rfl, getD_given, rfl, ?_, ?_, hquery,
    hfragment⟩
  · rw [Uri.getPort, Uri.getPort, printed_portValue]
    rfl
  · obtain ⟨rest, hcons, -⟩ := getPath_cons hp.tail
    have hne : ¬ p.printed.tail.path = [] := fun hempty => by cases hcons.symm.trans hempty
    rw [Uri.getPath, hpath, if_neg hne]
    rfl

/-- What is read again as it was has a host without brackets and offsets that fit. -/
theorem fits_of_roundTrip (h : p.uri.RoundTrip) : p.Plain ∧ p.Fits := by
  obtain ⟨uri', hcreate, -, -, hhost, -, hpath, hquery, hfragment⟩ := h
  rw [printed_text] at hcreate
  obtain ⟨v, hparse, -, hhost', hpath', hquery', hfragment'⟩ := Create_fields hcreate
  have hserver : ValidServer p.printed.authority.text :=
    validServer_userText (printed_user_valid hp.authority)
      (List.append_ne_nil_of_left_ne_nil hp.authority.nonempty _) (printed_server hp.authority)
  have hle := (stands_path (p := p)).le
  have hgrow := printedPathAt_le hp.authority
  have hat : p.printedPathAt = p.serverAt + p.printed.authority.text.length := printed_pathAt.symm
  have hschemeLength : 0 < p.scheme.length := List.length_pos_iff.mpr hp.scheme.nonempty
  have hserverAt : p.serverAt = p.scheme.length + 3 := rfl
  have hpathAt : p.serverAt ≤ p.pathAt := Nat.le_add_right _ _
  obtain ⟨a, w, ha, htext, hrecords, hcheck⟩ := parseUrl_pieces_cases hp.scheme hserver
    (printed_tail_valid hp.tail) (by omega) (by omega) hparse
  have hread : (p.reread a).RecordedBy v := checkPort_recordedBy hrecords hcheck
  obtain ⟨huser, hplain⟩ := reread_authority hp.authority ha htext.symm
  refine ⟨?_, ?_, ?_, ?_⟩
  · -- what the parser takes for a host without brackets is a name
    have hstart : (p.reread a).hostAt = p.serverAt + width (p.authority.user.getD []) := by
      rw [hostAt, reread, Authority.indent, hplain, huser, ← length_userText_given]
      rfl
    have hwidth := width_le_user p.authority.user
    have hhostAt : p.hostAt = p.serverAt + (userText p.authority.user).length +
        p.authority.indent := rfl
    have hname := hostAt_le (p := p)
    have hnonempty := List.length_pos_iff.mpr hp.authority.nonempty
    have hreadName := hostAt_le (p := p.reread a)
    rw [reread_pathAt htext.symm] at hreadName
    have hfield := field_host hread (by omega) (by omega)
    rw [reread_text htext.symm] at hfield
    have hsame : p.authority.host = a.host := hhost.symm.trans (hhost'.trans hfield)
    intro ch hch
    rw [hsame] at hch
    have hchar := ha.host ch hch
    rwa [hplain, if_neg Bool.false_ne_true] at hchar
  · by_contra hlarge
    -- a path behind the 16 bits is read from within `scheme://`, and does not begin with a slash
    have hat' := reread_pathAt htext.symm
    have hlength : (p.reread a).tail.path.length = _ := length_getPath (p := p)
    obtain ⟨ch, rest, hread', hch⟩ := wrapped_path (p := p.reread a) hp.scheme hread.path (by omega)
      (by omega) (by omega) (by omega)
    obtain ⟨rest', hcons, -⟩ := getPath_cons hp.tail
    rw [reread_text htext.symm, ← hpath'] at hread'
    rw [hcons, Uri.getPath, hread', if_neg (by simp), List.cons.injEq] at hpath
    exact hch hpath.1
  · exact (reread_query hp.authority hlen htext.symm hread).mp (hquery'.symm.trans hquery)
  · exact (reread_fragment hp.authority hlen htext.symm hread).mp (hfragment'.symm.trans hfragment)

end RoundTrip

end Http.UrlParts

/-! ## Every URL -/

/-- **Printing and parsing a URI.**  A URL of less than 65536 bytes with a scheme that is accepted
is the text of its parts, and what is printed of its URI is read again with the same components
exactly when the host needs no brackets and the components of the printed text are read where they
begin. -/
theorem uri_round_trip_iff {url : Bytes} {uri : Uri} (hlen : url.length < 2 ^ 16)
    (hcreate : Uri.Create url = .ok (some uri)) (hscheme : uri.scheme_ ≠ []) :
    (∃ p : UrlParts, p.Valid ∧ p.text = url) ∧
      ∀ p : UrlParts, p.Valid → p.text = url → (uri.RoundTrip ↔ p.Plain ∧ p.Fits) := by
  obtain ⟨v, hparse, hfield, -⟩ := UrlParts.Create_fields hcreate
  have hset : v.fieldSet .schema = true := by
    by_contra hunset
    rw [hfield, Uri.field, if_neg hunset] at hscheme
    exact hscheme rfl
  obtain ⟨p, u, hp, rfl, hrecords, hcheck⟩ := exists_parts hparse hset hlen
  refine ⟨⟨p, hp, rfl⟩, fun p' hp' htext => ?_⟩
  -- a URL has one such reading
  obtain rfl : p' = p := UrlParts.text_inj hp' hp htext
  have hplace : p'.pathAt < 2 ^ 16 := by
    have hle := (UrlParts.stands_path (p := p')).le
    omega
  have hport := UrlParts.portFits_of_check hp.authority.port hrecords hplace hcheck
  have huri : Uri.Create p'.text = .ok (some p'.uri) :=
    UrlParts.Create_uri hp.authority.port hport hrecords (hparse.trans hcheck.symm) hlen
  rw [hcreate, Except.ok.injEq, Option.some.injEq] at huri
  subst huri
  refine ⟨UrlParts.fits_of_roundTrip hp hlen, ?_⟩
  rintro ⟨hplain, hfits⟩
  exact UrlParts.roundTrip_of_fits hp hlen hport hplain hfits

/-- A URL with every component. -/
theorem uri_round_trip_iff_every :
    (∃ p : UrlParts, p.Valid ∧ p.text = bytes "https://root@sylar.top:8080/a?b#c") ∧
      ∀ p : UrlParts, p.Valid → p.text = bytes "https://root@sylar.top:8080/a?b#c" →
        (Uri.RoundTrip
          { scheme_ := bytes "https", userInfo_ := bytes "root", host_ := bytes "sylar.top",
            path_ := bytes "/a", query_ := bytes "b", fragment_ := bytes "c", port_ := 8080 } ↔
          p.Plain ∧ p.Fits) :=
  uri_round_trip_iff (by decide) (by decide +kernel) (by decide)

/-- The host `::1` is printed without its brackets, and so the text is refused. -/
theorem uri_brackets_lost :
    (bytes "http://[::1]/").length < 2 ^ 16 ∧
      ∃ uri : Uri, Uri.Create (bytes "http://[::1]/") = .ok (some uri) ∧ uri.scheme_ ≠ [] ∧
        Uri.Create uri.toString = .ok none ∧ ¬ uri.RoundTrip := by
  have hprinted : Uri.Create (Uri.toString
      { scheme_ := bytes "http", host_ := bytes "::1", path_ := bytes "/", port_ := 80 }) =
        .ok none := by decide +kernel
  refine ⟨by decide, _, by decide +kernel, by decide, hprinted, ?_⟩
  rintro ⟨uri', hcreate, -⟩
  cases hprinted.symm.trans hcreate

end Sylar
