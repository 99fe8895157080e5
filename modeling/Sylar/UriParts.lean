import Sylar.UriPort

/-! # The components of a URL

`Uri::Create` takes each component from where the parser says that it stands.  Where the offset
fits into 16 bits that is the part of the URL.

**`Create_text`**: what `Uri::Create` returns for a URL of given parts. -/
namespace Sylar
open Http

namespace Http
namespace UrlParts
variable {p : UrlParts} {u : Url}

/-- The part stands in the text at `i`. -/
def Stands (p : UrlParts) (i : Nat) (x : Bytes) : Prop :=
  ∃ front back, p.text = front ++ (x ++ back) ∧ front.length = i

theorem field_stands {uf : UrlField} {i : Nat} {x : Bytes} (h : u.Records uf i x.length)
    (hx : p.Stands i x) (hi : i < 2 ^ 16) (hlen : x.length < 2 ^ 16) :
    Uri.field u p.text uf = x := by
  obtain ⟨front, back, htext, rfl⟩ := hx
  rw [htext]
  exact h.field_piece hi hlen

theorem length_delims : (bytes "://").length = 3 := rfl

theorem stands_scheme : p.Stands 0 p.scheme :=
  ⟨[], bytes "://" ++ (p.authority.text ++ p.tail.text), rfl, rfl⟩

theorem stands_user : p.Stands p.serverAt (p.authority.user.getD []) := by
  have hfront : (p.scheme ++ bytes "://").length = p.serverAt := List.length_append
  cases huser : p.authority.user with
  | none =>
    refine ⟨p.scheme ++ bytes "://", p.authority.text ++ p.tail.text, ?_, hfront⟩
    simp [text]
  | some user =>
    refine ⟨p.scheme ++ bytes "://",
      chr '@' :: (p.authority.hostText ++ portText p.authority.port ++ p.tail.text), ?_, hfront⟩
    simp [text, Authority.text, huser, userText]

theorem stands_host : p.Stands p.hostAt p.authority.host := by
  cases hbracketed : p.authority.bracketed with
  | false =>
    refine ⟨p.scheme ++ (bytes "://" ++ userText p.authority.user),
      portText p.authority.port ++ p.tail.text, ?_, ?_⟩
    · simp [text, Authority.text, Authority.hostText, hbracketed]
    · simp [hostAt, serverAt, Authority.indent, hbracketed, length_delims]
      omega
  | true =>
    refine ⟨p.scheme ++ (bytes "://" ++ (userText p.authority.user ++ [chr '['])),
      chr ']' :: (portText p.authority.port ++ p.tail.text), ?_, ?_⟩
    · simp [text, Authority.text, Authority.hostText, hbracketed]
    · simp [hostAt, serverAt, Authority.indent, hbracketed, length_delims]
      omega

theorem stands_path : p.Stands p.pathAt p.tail.path := by
  refine ⟨p.scheme ++ (bytes "://" ++ p.authority.text),
    queryText p.tail.query ++ fragmentText p.tail.fragment, ?_, ?_⟩
  · simp [text, UrlTail.text]
  · simp [pathAt, serverAt, length_delims]
    omega

theorem stands_query {q : Bytes} (hq : p.tail.query = some q) : p.Stands p.queryAt q := by
  refine ⟨p.scheme ++ (bytes "://" ++ (p.authority.text ++ (p.tail.path ++ [chr '?']))),
    fragmentText p.tail.fragment, ?_, ?_⟩
  · simp [text, UrlTail.text, hq, queryText, delimited]
  · simp [queryAt, pathAt, serverAt, length_delims]
    omega

theorem hashes_append_unhashed (x : Bytes) : hashes x ++ unhashed x = x :=
  List.takeWhile_append_dropWhile

theorem stands_fragment {x : Bytes} (hx : p.tail.fragment = some x) :
    p.Stands p.fragmentAt (unhashed x) := by
  refine ⟨p.scheme ++ (bytes "://" ++ (p.authority.text ++ (p.tail.path ++
    (queryText p.tail.query ++ chr '#' :: hashes x)))), [], ?_, ?_⟩
  · simp [text, UrlTail.text, hx, fragmentText, delimited, hashes_append_unhashed]
  · simp [fragmentAt, pathAt, serverAt, length_delims, hx]
    omega

/-! ## Lengths -/

theorem Stands.le {i : Nat} {x : Bytes} (h : p.Stands i x) : i + x.length ≤ p.text.length := by
  obtain ⟨front, back, htext, rfl⟩ := h
  rw [htext, List.length_append, List.length_append]
  omega

theorem hostAt_le : p.hostAt + p.authority.host.length ≤ p.pathAt := by
  rw [hostAt, pathAt, Authority.indent, Authority.text, Authority.hostText]
  split
  · simp
    omega
  · simp
    omega

theorem length_user_le (o : Option Bytes) : (o.getD []).length ≤ (userText o).length := by
  cases o with
  | none => exact le_rfl
  | some x => simp [userText]

theorem serverAt_le : p.serverAt + (p.authority.user.getD []).length ≤ p.hostAt := by
  have huser := length_user_le p.authority.user
  rw [hostAt]
  omega

theorem portAt_le {d : Bytes} (hd : p.authority.port = some d) :
    p.portAt + d.length ≤ p.pathAt := by
  rw [portAt, pathAt, Authority.text, hd]
  simp [portText, delimited]
  omega

/-! ## What is read of a component -/

section Fields
variable (h : p.RecordedBy u)
include h

theorem field_scheme (hplace : p.pathAt < 2 ^ 16) : Uri.field u p.text .schema = p.scheme := by
  have hle : p.scheme.length ≤ p.pathAt := by
    rw [pathAt, serverAt]
    omega
  exact field_stands h.scheme stands_scheme (by decide) (by omega)

theorem field_user (hplace : p.pathAt < 2 ^ 16) :
    Uri.field u p.text .userinfo = p.authority.user.getD [] := by
  have hserver := serverAt_le (p := p)
  have hhost := hostAt_le (p := p)
  exact field_stands h.user stands_user (by omega) (by omega)

theorem field_host (hplace : p.hostAt < 2 ^ 16) (hlen : p.authority.host.length < 2 ^ 16) :
    Uri.field u p.text .host = p.authority.host :=
  field_stands h.host stands_host hplace hlen

theorem field_path (hplace : p.pathAt < 2 ^ 16) (hlen : p.tail.path.length < 2 ^ 16) :
    Uri.field u p.text .path = p.tail.path :=
  field_stands h.path stands_path hplace hlen

theorem field_query (hlen : p.text.length < 2 ^ 16) :
    Uri.field u p.text .query = p.tail.query.getD [] := by
  have hrecords := h.query
  cases hq : p.tail.query with
  | none =>
    rw [hq] at hrecords
    rw [hrecords.field (by decide)]
    exact List.take_zero
  | some q =>
    have hle := (stands_query hq).le
    rw [hq] at hrecords
    exact field_stands hrecords (stands_query hq) (by omega) (by rw [Option.getD_some]; omega)

theorem field_fragment (hlen : p.text.length < 2 ^ 16) :
    Uri.field u p.text .fragment = unhashed (p.tail.fragment.getD []) := by
  have hrecords := h.fragment
  cases hx : p.tail.fragment with
  | none =>
    rw [hx] at hrecords
    rw [hrecords.field (by decide)]
    exact List.take_zero
  | some x =>
    have hle := (stands_fragment hx).le
    rw [hx] at hrecords
    exact field_stands hrecords (stands_fragment hx) (by omega) (by rw [Option.getD_some]; omega)

end Fields

/-! ## `Uri::Create` -/

/-- The port that the URL gives, or the one that its scheme implies. -/
def portValue (p : UrlParts) : Int :=
  match p.authority.port with
  | none => Uri.implicitPort p.scheme
  | some d => natOfDigits 0 d

/-- A port that is given is at most 65535. -/
def PortFits (p : UrlParts) : Prop := ∀ d ∈ p.authority.port, natOfDigits 0 d ≤ 0xffff

theorem portFits_of_check {v : Url} (hvalid : ValidPort p.authority.port) (h : p.RecordedBy u)
    (hplace : p.pathAt < 2 ^ 16) (hcheck : checkPort p.text u = some v) : p.PortFits := by
  intro d hd
  have hle := portAt_le hd
  by_contra hlarge
  rw [checkPort_some h hd (hvalid d hd).1 (by omega) (by omega), if_neg hlarge] at hcheck
  cases hcheck

/-- **What `Uri::Create` returns.** -/
theorem Create_text (hvalid : ValidPort p.authority.port) (hfits : p.PortFits)
    (h : p.RecordedBy u) (hparse : parseUrl p.text false Url.init = checkPort p.text u)
    (hplace : p.pathAt < 2 ^ 16) : Uri.Create p.text = .ok (some
      { scheme_ := p.scheme
        userInfo_ := p.authority.user.getD []
        host_ := p.authority.host
        path_ := Uri.field u p.text .path
        query_ := Uri.field u p.text .query
        fragment_ := Uri.field u p.text .fragment
        port_ := p.portValue }) := by
  have hhost := hostAt_le (p := p)
  have hscheme := field_scheme h hplace
  have huser := field_user h hplace
  have hname := field_host h (by omega) (by omega)
  rw [Uri.Create, hparse, portValue]
  cases hd : p.authority.port with
  | none =>
    have habsent := h.port
    rw [hd] at habsent
    rw [checkPort_none h hd]
    dsimp only
    rw [habsent.absent rfl, hscheme, huser, hname]
    rfl
  | some d =>
    have hle := portAt_le hd
    obtain ⟨hne, hall⟩ := hvalid d hd
    obtain ⟨hset, hcomponent⟩ := component_port h hd hne (by omega) (by omega)
    -- the value of the port is no record of a component
    have hfield : ∀ k uf, Uri.field { u with port := k } p.text uf = Uri.field u p.text uf :=
      fun _ _ => rfl
    have hnumber : ∀ k, stoi (Url.component { u with port := k } .port p.text) =
        .ok (natOfDigits 0 d : Int) := by
      intro k
      rw [← stoi_digits hne hall (hfits d hd)]
      exact congrArg stoi hcomponent
    rw [checkPort_some h hd hne (by omega) (by omega), if_pos (hfits d hd)]
    dsimp only
    simp only [hset, if_true, hnumber, hfield, hscheme, huser, hname]
    rfl

/-- What `Uri::Create` returns has been read where the parser says. -/
theorem Create_fields {url : Bytes} {uri : Uri} (h : Uri.Create url = .ok (some uri)) :
    ∃ v, parseUrl url false Url.init = some v ∧ uri.scheme_ = Uri.field v url .schema ∧
      uri.host_ = Uri.field v url .host ∧ uri.path_ = Uri.field v url .path ∧
      uri.query_ = Uri.field v url .query ∧ uri.fragment_ = Uri.field v url .fragment := by
  rw [Uri.Create] at h
  split at h
  · cases h
  case h_2 v hv =>
    refine ⟨v, hv, ?_⟩
    cases hport : (if v.fieldSet .port = true then stoi (v.component .port url)
        else .ok (Uri.implicitPort (Uri.field v url .schema))) with
    | error e =>
      rw [hport] at h
      cases h
    | ok port =>
      rw [hport] at h
      cases h
      exact ⟨rfl, rfl, rfl, rfl, rfl⟩

end UrlParts
end Http

end Sylar
