import Sylar.UrlText

/-! # The parts of a URL are determined

Each part ends at a byte that it cannot have itself.

**`UrlParts.text_inj`**: a URL is not the text of other parts. -/
namespace Sylar.Http

/-! ## Runs and delimiters -/

/-- A run ends where the first byte of another kind stands. -/
theorem run_inj {P : UInt8 → Bool} {x x' y y' : Bytes} (h : x ++ y = x' ++ y')
    (hx : ∀ ch ∈ x, P ch = true) (hx' : ∀ ch ∈ x', P ch = true) (hy : ∀ ch ∈ y.head?, P ch = false)
    (hy' : ∀ ch ∈ y'.head?, P ch = false) : x = x' ∧ y = y' := by
  have hstop : ∀ {z : Bytes}, (∀ ch ∈ z.head?, P ch = false) → z.takeWhile P = [] := by
    intro z hz
    cases z with
    | nil => rfl
    | cons c z => exact List.takeWhile_cons_of_neg (by rw [hz c rfl]; exact Bool.false_ne_true)
  -- the longest beginning of this kind is the run
  have hrun := congrArg (List.takeWhile P) h
  rw [List.takeWhile_append_of_pos hx, List.takeWhile_append_of_pos hx', hstop hy, hstop hy',
    List.append_nil, List.append_nil] at hrun
  subst hrun
  exact ⟨rfl, List.append_cancel_left h⟩

/-- The only `@` is the one behind a user. -/
theorem userText_append_inj {o o' : Option Bytes} {r r' : Bytes}
    (h : userText o ++ r = userText o' ++ r') (ho : ∀ x ∈ o, ∀ ch ∈ x, isUserinfoChar ch = true)
    (ho' : ∀ x ∈ o', ∀ ch ∈ x, isUserinfoChar ch = true)
    (hr : ∀ ch ∈ r, isServerChar ch = true) (hr' : ∀ ch ∈ r', isServerChar ch = true) :
    o = o' ∧ r = r' := by
  have hat : ∀ {x : Bytes}, (∀ ch ∈ x, isUserinfoChar ch = true) → chr '@' ∉ x := fun hx hmem =>
    absurd (hx _ hmem) (by decide)
  have hat' : ∀ {x : Bytes}, (∀ ch ∈ x, isServerChar ch = true) → chr '@' ∉ x := fun hx hmem =>
    absurd (hx _ hmem) (by decide)
  cases o with
  | none =>
    cases o' with
    | none => exact ⟨rfl, h⟩
    | some y =>
      refine absurd ?_ (hat' hr)
      have hr : r = userText (some y) ++ r' := h
      simp [hr, userText]
  | some x =>
    cases o' with
    | none =>
      refine absurd ?_ (hat' hr')
      have hr' : userText (some x) ++ r = r' := h
      simp [← hr', userText]
    | some y =>
      rw [userText, userText, List.append_assoc, List.append_assoc, List.singleton_append,
        List.singleton_append] at h
      obtain ⟨rfl, -, hrest⟩ :=
        (List.append_cons_inj_of_notMem (hat (ho x rfl)) (hat' hr)).mp h
      exact ⟨rfl, hrest⟩

theorem delimited_inj {d : UInt8} {o o' : Option Bytes} (h : delimited d o = delimited d o') :
    o = o' := by
  cases o with
  | none =>
    cases o' with
    | none => rfl
    | some y => cases h
  | some x =>
    cases o' with
    | none => cases h
    | some y => exact congrArg some (List.cons.inj h).2

theorem head_delimited {d : UInt8} {o : Option Bytes} {ch : UInt8}
    (h : ch ∈ (delimited d o).head?) : ch = d := by
  cases o with
  | none => cases h
  | some x => exact (Option.some.inj h).symm

theorem head_queryText {q x : Option Bytes} {ch : UInt8}
    (h : ch ∈ (queryText q ++ fragmentText x).head?) : ch = chr '?' ∨ ch = chr '#' := by
  cases q with
  | none => exact .inr (head_delimited h)
  | some q => exact .inl (Option.some.inj h).symm

/-! ## The parts -/

theorem head_tailText {t : UrlTail} (ht : t.Valid) {ch : UInt8} (h : ch ∈ t.text.head?) :
    isAuthorityChar ch = false := by
  obtain ⟨path, query, fragment⟩ := t
  rcases ht.path with hempty | ⟨rest, hcons, -⟩
  · dsimp only at hempty
    subst hempty
    cases query with
    | none =>
      cases fragment with
      | none => cases h
      | some x => cases ht.fragmentless rfl rfl
    | some q =>
      cases h
      decide
  · dsimp only at hcons
    subst hcons
    cases h
    decide

theorem UrlTail.text_inj {t t' : UrlTail} (ht : t.Valid) (ht' : t'.Valid)
    (h : t.text = t'.text) : t = t' := by
  have hurl : ∀ ch, isUrlChar ch = true → (ch != chr '?' && ch != chr '#') = true := by
    intro ch hch
    rw [isUrlChar, Bool.and_eq_true, Bool.and_eq_true] at hch
    rw [hch.1.2, hch.2]
    rfl
  have hquery : ∀ ch, isQueryChar ch = true → (ch != chr '#') = true := by
    intro ch hch
    rw [isQueryChar, Bool.or_eq_true, beq_iff_eq] at hch
    rcases hch with hch | rfl
    · exact (Bool.and_eq_true _ _ ▸ hurl ch hch).2
    · decide
  have hpath : ∀ {t : UrlTail}, t.Valid →
      ∀ ch ∈ t.path, (ch != chr '?' && ch != chr '#') = true := by
    intro t ht
    rcases ht.path with hempty | ⟨rest, hcons, hall⟩
    · simp [hempty]
    · rw [hcons, List.forall_mem_cons]
      exact ⟨by decide, fun ch hch => hurl ch (hall ch hch)⟩
  have hstop : ∀ {q x : Option Bytes}, ∀ ch ∈ (queryText q ++ fragmentText x).head?,
      (ch != chr '?' && ch != chr '#') = false := by
    intro q x ch hch
    rcases head_queryText hch with rfl | rfl
    · decide
    · decide
  have hstop' : ∀ {x : Option Bytes}, ∀ ch ∈ (fragmentText x).head?, (ch != chr '#') = false := by
    intro x ch hch
    rw [head_delimited hch]
    decide
  rw [text, text, List.append_assoc, List.append_assoc] at h
  -- the path ends at the first `?` or `#`
  obtain ⟨hsame, hrest⟩ := run_inj h (hpath ht) (hpath ht') hstop hstop
  obtain ⟨path, query, fragment⟩ := t
  obtain ⟨path', query', fragment'⟩ := t'
  dsimp only at hsame hrest
  subst hsame
  cases query with
  | none =>
    cases query' with
    | none => rw [delimited_inj hrest]
    | some q' =>
      have hhead : chr '?' ∈ (fragmentText fragment).head? := congrArg List.head? hrest
      exact absurd (head_delimited hhead) (by decide)
  | some q =>
    cases query' with
    | none =>
      have hhead : chr '?' ∈ (fragmentText fragment').head? := congrArg List.head? hrest.symm
      exact absurd (head_delimited hhead) (by decide)
    | some q' =>
      -- the query ends at the first `#`
      obtain ⟨rfl, hfragment⟩ := run_inj (List.cons.inj hrest).2
        (fun ch hch => hquery ch (ht.query q rfl ch hch))
        (fun ch hch => hquery ch (ht'.query q' rfl ch hch)) hstop' hstop'
      rw [delimited_inj hfragment]

/-- An authority shows whether its host is in brackets. -/
theorem Authority.bracketed_eq {a : Authority} (ha : a.Valid) (rest : Bytes) :
    a.bracketed = ((a.hostText ++ rest).head? == some (chr '[')) := by
  have hhost := ha.host
  rw [hostText]
  cases hbracketed : a.bracketed with
  | true => rfl
  | false =>
    obtain ⟨c, name, hcons⟩ := List.exists_cons_of_ne_nil ha.nonempty
    rw [hcons, hbracketed, List.forall_mem_cons] at hhost
    rw [hcons, if_neg Bool.false_ne_true, List.cons_append, List.head?_cons, eq_comm,
      beq_eq_false_iff_ne]
    rintro ⟨⟩
    exact absurd hhost.1 (by decide)

theorem Authority.hostText_inj {a a' : Authority} (ha : a.Valid) (ha' : a'.Valid)
    (h : a.hostText ++ portText a.port = a'.hostText ++ portText a'.port) :
    a.bracketed = a'.bracketed ∧ a.host = a'.host ∧ a.port = a'.port := by
  have hbracketed : a.bracketed = a'.bracketed := by
    rw [bracketed_eq ha (portText a.port), bracketed_eq ha' (portText a'.port), h]
  have hhost := ha.host
  have hhost' := ha'.host
  refine ⟨hbracketed, ?_⟩
  rw [hostText, hostText, ← hbracketed] at h
  rw [← hbracketed] at hhost'
  cases hcase : a.bracketed with
  | true =>
    rw [hcase] at h hhost hhost'
    rw [if_pos rfl, if_pos rfl, List.cons_append, List.cons_append, List.append_assoc,
      List.append_assoc] at h
    -- between the brackets there is no bracket
    have hclose : ∀ {rest : Bytes}, ∀ ch ∈ ([chr ']'] ++ rest).head?, isLiteralChar ch = false := by
      rintro rest ch ⟨⟩
      decide
    obtain ⟨hname, hport⟩ := run_inj (List.cons.inj h).2 hhost hhost' hclose hclose
    exact ⟨hname, delimited_inj (List.append_cancel_left hport)⟩
  | false =>
    rw [hcase] at h hhost hhost'
    have hcolon : ∀ {o : Option Bytes}, ∀ ch ∈ (portText o).head?, isHostChar ch = false := by
      intro o ch hch
      rw [head_delimited hch]
      decide
    obtain ⟨hname, hport⟩ := run_inj h hhost hhost' hcolon hcolon
    exact ⟨hname, delimited_inj hport⟩

theorem Authority.text_inj {a a' : Authority} (ha : a.Valid) (ha' : a'.Valid)
    (h : a.text = a'.text) : a = a' := by
  obtain ⟨huser, hrest⟩ := userText_append_inj h ha.user ha'.user ha.server ha'.server
  obtain ⟨hbracketed, hhost, hport⟩ := hostText_inj ha ha' hrest
  obtain ⟨user, bracketed, host, port⟩ := a
  obtain ⟨user', bracketed', host', port'⟩ := a'
  dsimp only at huser hbracketed hhost hport
  rw [huser, hbracketed, hhost, hport]

/-- **A URL has no other parts.** -/
theorem UrlParts.text_inj {p p' : UrlParts} (hp : p.Valid) (hp' : p'.Valid)
    (h : p.text = p'.text) : p = p' := by
  have hcolon : ∀ {rest : Bytes}, ∀ ch ∈ (bytes "://" ++ rest).head?, isAlpha ch = false := by
    rintro rest ch ⟨⟩
    decide
  obtain ⟨hscheme, hrest⟩ := run_inj h hp.scheme.alpha hp'.scheme.alpha hcolon hcolon
  obtain ⟨hauthority, htail⟩ := run_inj (List.append_cancel_left hrest)
    hp.authority.validServer.chars hp'.authority.validServer.chars
    (fun ch hch => head_tailText hp.tail hch) (fun ch hch => head_tailText hp'.tail hch)
  obtain ⟨scheme, authority, tail⟩ := p
  obtain ⟨scheme', authority', tail'⟩ := p'
  have hauth : authority = authority' := Authority.text_inj hp.authority hp'.authority hauthority
  have ht : tail = tail' := UrlTail.text_inj hp.tail hp'.tail htail
  dsimp only at hscheme
  rw [hscheme, hauth, ht]

end Sylar.Http
