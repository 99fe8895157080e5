import Mathlib.Data.List.Infix
import Sylar.HttpHeaderLines
import Sylar.UriPort

/-! # The headers that change the parser

`http_parser` reads the names and the values that it knows one character at a time, beside the
ones it does not know.  A name that it does not know, with any value, changes nothing that
lasts (`header_ordinary`); of the others this module has the three that the messages of this
library are framed with: `connection`, `content-length` and `transfer-encoding`.

What lasts of a parser is its `core`: the rest is for the line that is being read. -/
namespace Sylar.Http
namespace HttpParser

/-- The parser without what is kept for the line that is being read. -/
def core (p : HttpParser) : HttpParser :=
  { p with index := 0, headerState := .general, state := .startReq, nread := 0 }

/-! ## Words -/

/-- A character of a word, the part `x` of which has been matched: it is over, or it goes on, or
the character is another. -/
theorem matchWord_spec {p : HttpParser} {word : String} {x : Bytes} {c : UInt8}
    (hlen : word.length < 2 ^ 5) (hx : x <+: bytes word) (hne : x ≠ bytes word)
    (hindex : p.index + 1 = x.length) (hs missed hit : HeaderState) :
    p.matchWord word c hs missed hit = ({ p with index := x.length },
      if x ++ [c] = bytes word then hit else if x ++ [c] <+: bytes word then hs else missed) := by
  obtain ⟨y, hy⟩ := hx
  obtain ⟨d, y, rfl⟩ := List.exists_cons_of_ne_nil (l := y) (by
    rintro rfl
    exact hne (by rw [← hy, List.append_nil]))
  have hwlen : word.length = x.length + (y.length + 1) := by
    have h := congrArg List.length hy
    simpa [bytes, String.length_toList] using h.symm
  have hmod : (p.index + 1) % 2 ^ 5 = x.length := by
    rw [hindex]
    exact Nat.mod_eq_of_lt (by omega)
  have hget : (bytes word).getD x.length 0 = d := by
    rw [← hy]
    simp
  unfold matchWord
  rw [hmod]
  dsimp only
  rw [hget]
  by_cases hcd : c = d
  · subst hcd
    have hprefix : x ++ [c] <+: bytes word := ⟨y, by rw [← hy]; simp⟩
    rw [if_neg (by simp; omega), if_pos hprefix]
    cases y with
    | nil =>
      rw [if_pos (by rw [hwlen]; simp), if_pos hy]
    | cons e y =>
      have hlong : x ++ [c] ≠ bytes word := by
        rw [← hy]
        simp
      rw [if_neg (by rw [hwlen]; simp), if_neg hlong]
  · have hother : ¬ x ++ [c] <+: bytes word := by
      rw [← hy, List.prefix_append_right_inj]
      simp [hcd]
    have hother' : x ++ [c] ≠ bytes word := fun h => hother ⟨[], by rw [List.append_nil, h]⟩
    rw [if_pos (.inr hcd), if_neg hother', if_neg hother]

/-! ## Names that it does not know -/

/-- Part of a word. -/
def Within (word : String) (x : Bytes) : Prop := x <+: bytes word ∧ x ≠ bytes word

instance (word : String) (x : Bytes) : Decidable (Within word x) :=
  inferInstanceAs (Decidable (_ ∧ _))

/-- What has been read of a name, in lower case, in a header state. -/
def Reads : HeaderState → Bytes → Prop
  | .general, _ => True
  | .C, x => x = bytes "c"
  | .CO, x => x = bytes "co"
  | .CON, x => x = bytes "con"
  | .matchingConnection, x => Within "connection" x
  | .matchingProxyConnection, x => Within "proxy-connection" x
  | .matchingContentLength, x => Within "content-length" x
  | .matchingTransferEncoding, x => Within "transfer-encoding" x
  | .matchingUpgrade, x => Within "upgrade" x
  | .connection, x => x = bytes "connection" ∨ x = bytes "proxy-connection"
  | .contentLength, x => x = bytes "content-length"
  | .transferEncoding, x => x = bytes "transfer-encoding"
  | .upgrade, x => x = bytes "upgrade"
  | _, _ => False

/-- The parser `q` is `p` behind a part of a name. -/
structure Tracks (p : HttpParser) (x : Bytes) (q : HttpParser) : Prop where
  same : q = { p with
    index := q.index, headerState := q.headerState, usesTransferEncoding := q.usesTransferEncoding }
  reads : Reads q.headerState x
  index : q.headerState ≠ .general → q.index + 1 = x.length
  uses : q.usesTransferEncoding = p.usesTransferEncoding ∨ bytes "transfer-encoding" <+: x

theorem Tracks.start (p : HttpParser) (ch : UInt8) :
    p.Tracks [token ch] (p.nameStart ch) := by
  refine ⟨rfl, ?_, fun _ => rfl, .inl rfl⟩
  unfold nameStart
  dsimp only
  split_ifs with hc hp ht hu
  · rw [hc]
    rfl
  · rw [hp]
    show Within _ _
    decide
  · rw [ht]
    show Within _ _
    decide
  · rw [hu]
    show Within _ _
    decide
  · trivial

theorem matchWord_uses (q : HttpParser) (word : String) (c : UInt8) (hs missed hit : HeaderState) :
    (q.matchWord word c hs missed hit).1.usesTransferEncoding = q.usesTransferEncoding := by
  unfold matchWord
  dsimp only
  split_ifs <;> rfl

/-- A state in which a word is matched. -/
theorem Tracks.word {p q : HttpParser} {x : Bytes} (h : p.Tracks x q) {word : String}
    {m hit : HeaderState} (hm : q.headerState = m) (hgeneral : m ≠ .general)
    (hlen : word.length < 2 ^ 5) (hx : Within word x)
    (hwithin : ∀ y, Within word y → Reads m y) (hhit : Reads hit (bytes word)) {c : UInt8}
    {uses : Bool} (huses : uses = q.usesTransferEncoding ∨ x ++ [c] = bytes "transfer-encoding") :
    p.Tracks (x ++ [c]) { (q.matchWord word c m .general hit).1 with
      headerState := (q.matchWord word c m .general hit).2, usesTransferEncoding := uses } := by
  have hindex := h.index (by rw [hm]; exact hgeneral)
  rw [matchWord_spec hlen hx.1 hx.2 hindex]
  refine ⟨?_, ?_, fun _ => by simp, ?_⟩
  · rw [h.same]
  · dsimp only
    split_ifs with hend hmore
    · rw [hend]
      exact hhit
    · exact hwithin _ ⟨hmore, hend⟩
    · trivial
  · rcases huses with rfl | huses
    · exact h.uses.imp_right fun hpre => hpre.trans (List.prefix_append x [c])
    · exact .inr (by rw [huses])

theorem Tracks.char {p q : HttpParser} {x : Bytes} (h : p.Tracks x q) {ch : UInt8}
    (hch : token ch ≠ 0) : p.Tracks (x ++ [token ch]) (q.fieldChar ch) := by
  have hspace : ch ≠ chr ' ' := by
    rintro rfl
    exact hch (by decide)
  have huses : q.usesTransferEncoding = p.usesTransferEncoding ∨
      bytes "transfer-encoding" <+: x ++ [token ch] :=
    h.uses.imp_right fun hpre => hpre.trans (List.prefix_append x _)
  have hreads := h.reads
  have hsame := h.same
  -- a state that has no word to go on with
  have hgeneral : ∀ q' : HttpParser, q'.headerState = .general →
      q' = { q with index := q'.index, headerState := q'.headerState } →
      p.Tracks (x ++ [token ch]) q' := by
    intro q' hq' heq
    refine ⟨?_, by rw [hq']; trivial, fun hne => absurd hq' hne, ?_⟩
    · rw [heq, hsame]
    · rw [heq]
      exact huses
  -- the letters that `connection` and `content-length` begin with
  have hletter : ∀ (word : String) (st : HeaderState), x = bytes word → word.length < 31 →
      q.headerState ≠ .general → Reads st (x ++ [token ch]) →
      p.Tracks (x ++ [token ch]) { q with index := (q.index + 1) % 2 ^ 5, headerState := st } := by
    intro word st hx hlen hne hst
    have hxlen : x.length = word.length := by
      rw [hx, bytes, List.length_map, String.length_toList]
    have hindex := h.index hne
    have hmod : (q.index + 1) % 2 ^ 5 = q.index + 1 := Nat.mod_eq_of_lt (by omega)
    refine ⟨?_, hst, fun _ => ?_, huses⟩
    · rw [hsame]
    · show (q.index + 1) % 2 ^ 5 + 1 = _
      rw [hmod, hindex, List.length_append, List.length_singleton]
  unfold fieldChar
  cases hst : q.headerState
  all_goals rw [hst] at hreads
  all_goals dsimp only
  case C =>
    have hx : x = bytes "c" := hreads
    refine hletter "c" _ hx (by decide) (by rw [hst]; decide) ?_
    split_ifs with ho
    · rw [hx, ho]
      rfl
    · trivial
  case CO =>
    have hx : x = bytes "co" := hreads
    refine hletter "co" _ hx (by decide) (by rw [hst]; decide) ?_
    split_ifs with ho
    · rw [hx, ho]
      rfl
    · trivial
  case CON =>
    have hx : x = bytes "con" := hreads
    refine hletter "con" _ hx (by decide) (by rw [hst]; decide) ?_
    split_ifs with hn ht
    · rw [hx, hn]
      show Within _ _
      decide
    · rw [hx, ht]
      show Within _ _
      decide
    · trivial
  case matchingConnection =>
    have hhit : Reads .connection (bytes "connection") := .inl rfl
    exact h.word hst (by decide) (by decide) hreads (fun _ hy => hy) hhit
      (.inl (matchWord_uses ..))
  case matchingProxyConnection =>
    have hhit : Reads .connection (bytes "proxy-connection") := .inr rfl
    exact h.word hst (by decide) (by decide) hreads (fun _ hy => hy) hhit
      (.inl (matchWord_uses ..))
  case matchingContentLength =>
    have hhit : Reads .contentLength (bytes "content-length") := rfl
    exact h.word hst (by decide) (by decide) hreads (fun _ hy => hy) hhit
      (.inl (matchWord_uses ..))
  case matchingUpgrade =>
    have hhit : Reads .upgrade (bytes "upgrade") := rfl
    exact h.word hst (by decide) (by decide) hreads (fun _ hy => hy) hhit
      (.inl (matchWord_uses ..))
  case matchingTransferEncoding =>
    have hhit : Reads .transferEncoding (bytes "transfer-encoding") := rfl
    split_ifs with hend
    · refine h.word hst (by decide) (by decide) hreads (fun _ hy => hy) hhit (.inr ?_)
      have hindex := h.index (by rw [hst]; decide)
      rw [matchWord_spec (by decide) hreads.1 hreads.2 hindex] at hend
      by_contra hne
      dsimp only at hend
      rw [if_neg hne] at hend
      split_ifs at hend
    · exact h.word hst (by decide) (by decide) hreads (fun _ hy => hy) hhit
        (.inl (matchWord_uses ..))
  case connection | contentLength | transferEncoding | upgrade =>
    rw [if_pos hspace]
    exact hgeneral _ rfl rfl
  case general => exact hgeneral q hst rfl
  -- no name leads to the others
  all_goals exact hreads.elim

theorem Tracks.chars {p q : HttpParser} {x name : Bytes} (h : p.Tracks x q)
    (hname : ∀ ch ∈ name, token ch ≠ 0) :
    p.Tracks (x ++ name.map token) (name.foldl fieldChar q) := by
  induction name generalizing x q with
  | nil => simpa using h
  | cons ch name ih =>
    rw [List.forall_mem_cons] at hname
    have hrest := ih (h.char hname.1) hname.2
    rwa [List.append_assoc, List.singleton_append, ← List.map_cons] at hrest

/-- **What is known of the parser behind a name.** -/
theorem tracks_readName (p : HttpParser) {name : Bytes} (hne : name ≠ [])
    (hname : ∀ ch ∈ name, token ch ≠ 0) : p.Tracks (name.map token) (p.readName name) := by
  obtain ⟨ch, name, rfl⟩ := List.exists_cons_of_ne_nil hne
  rw [List.forall_mem_cons] at hname
  exact (Tracks.start p ch).chars hname.2

/-- The names that nothing depends on.  One that begins with `transfer-encoding` is not among
them: the parser remembers it before it has seen that the name goes on. -/
structure Ordinary (name : Bytes) : Prop where
  ne : name ≠ []
  token : ∀ ch ∈ name, token ch ≠ 0
  unknown : name.map Http.token ∉ [bytes "connection", bytes "proxy-connection",
    bytes "content-length", bytes "upgrade"]
  encoding : ¬ bytes "transfer-encoding" <+: name.map Http.token

/-- The characters of a value. -/
def isTextChar (ch : UInt8) : Bool := isHeaderChar ch && ch != CR && ch != LF

theorem isTextChar_iff {ch : UInt8} :
    isTextChar ch = true ↔ isHeaderChar ch = true ∧ ch ≠ CR ∧ ch ≠ LF := by
  simp [isTextChar, and_assoc]

theorem valueLoop_run (p : HttpParser) {value : Bytes}
    (h : ∀ ch ∈ value, isTextChar ch = true) {k : Nat} (hk : value.length < k) :
    p.valueLoop .general (some k) (value ++ [CR]) = (p, .general, value.length, .cr) := by
  induction value generalizing k with
  | nil =>
    have hzero : ¬ some k = some 0 := by simp; omega
    rw [List.nil_append, valueLoop, valueByte, if_neg hzero, if_pos rfl]
    rfl
  | cons ch value ih =>
    rw [List.forall_mem_cons] at h
    obtain ⟨htext, hcr, hlf⟩ := isTextChar_iff.mp h.1
    rw [List.length_cons] at hk
    have hzero : ¬ some k = some 0 := by simp; omega
    have hbyte : p.valueByte .general (some k) ch = .go p .general (some (k - 1)) := by
      rw [valueByte, if_neg hzero, if_neg hcr, if_neg hlf, if_neg (by simp [htext])]
    rw [List.cons_append, valueLoop, hbyte]
    dsimp only
    rw [ih h.2 (by omega), List.length_cons]

/-- A value of an ordinary header. -/
theorem valueLoop_general (p : HttpParser) {value : Bytes}
    (h : ∀ ch ∈ value, isTextChar ch = true) (hlen : value.length < maxHeaderSize) :
    p.valueLoop .general none (value ++ [CR]) = (p, .general, value.length, .cr) := by
  cases value with
  | nil => rfl
  | cons ch value =>
    rw [List.forall_mem_cons] at h
    obtain ⟨htext, hcr, hlf⟩ := isTextChar_iff.mp h.1
    have hbyte : p.valueByte .general none ch = .go p .general (some (maxHeaderSize - 1)) := by
      rw [valueByte, if_neg (by simp), if_neg hcr, if_neg hlf, if_neg (by simp [htext]), if_pos rfl]
    rw [List.length_cons] at hlen ⊢
    rw [List.cons_append, valueLoop, hbyte]
    dsimp only
    rw [valueLoop_run p h.2 (by omega)]

/-- The header states that are left behind where a value begins. -/
def unknownName : HeaderState → Bool
  | .general | .C | .CO | .CON => true
  | .matchingConnection | .matchingProxyConnection | .matchingContentLength => true
  | .matchingTransferEncoding | .matchingUpgrade => true
  | _ => false

theorem Ordinary.unknownName {name : Bytes} (h : Ordinary name) {st : HeaderState}
    (hst : Reads st (name.map Http.token)) : unknownName st = true := by
  have hnot := h.unknown
  simp only [List.mem_cons, List.not_mem_nil, or_false, not_or] at hnot
  obtain ⟨hconn, hproxy, hlen, hup⟩ := hnot
  cases st
  case connection => exact absurd hst (not_or.mpr ⟨hconn, hproxy⟩)
  case contentLength => exact absurd hst hlen
  case upgrade => exact absurd hst hup
  case transferEncoding =>
    refine absurd ?_ h.encoding
    rw [show name.map Http.token = bytes "transfer-encoding" from hst]
  all_goals first
    | rfl
    | exact hst.elim

theorem readValue_unknown {p : HttpParser} (h : unknownName p.headerState = true) {value : Bytes}
    (hvalue : ∀ ch ∈ value, isTextChar ch = true) (hlen : value.length < maxHeaderSize) :
    ∃ q, p.readValue value = some q ∧ q.core = p.core ∧ headerDoneFlags q = p.flags := by
  cases value with
  | nil =>
    have hne : p.headerState ≠ .contentLength := by
      intro heq
      rw [heq] at h
      cases h
    refine ⟨p, if_neg hne, rfl, ?_⟩
    unfold headerDoneFlags
    split
    all_goals first
      | rfl
      | (rename_i heq; rw [heq] at h; cases h)
  | cons ch value =>
    have hstart : p.valueStart ch = some
        { p with state := .headerValue, index := 0, headerState := .general } := by
      obtain ⟨type, flags, state, headerState⟩ := p
      cases headerState
      all_goals first
        | rfl
        | cases h
    rw [List.forall_mem_cons] at hvalue
    rw [List.length_cons] at hlen
    refine ⟨{ p with state := .headerValue, index := 0, headerState := .general }, ?_, rfl, rfl⟩
    rw [readValue, hstart]
    dsimp only
    rw [valueLoop_general _ hvalue.2 (by omega)]
    dsimp only
    rw [if_pos rfl]

/-- **A header that the parser does not know changes nothing that lasts.** -/
theorem header_ordinary (p : HttpParser) {name value : Bytes} (hname : Ordinary name)
    (hvalue : ∀ ch ∈ value, isTextChar ch = true) (hlen : value.length < maxHeaderSize) :
    ∃ q, p.header name value = some q ∧ q.core = p.core := by
  have htracks := p.tracks_readName hname.ne hname.token
  have huses := htracks.uses.resolve_right hname.encoding
  obtain ⟨q, hq, hcore, hflags⟩ :=
    readValue_unknown (hname.unknownName htracks.reads) hvalue hlen
  refine ⟨_, by rw [header, hq, Option.map_some], ?_⟩
  have hkept : (p.readName name).core = p.core := by
    rw [htracks.same, huses]
    rfl
  have hpflags : (p.readName name).flags = q.flags := (congrArg HttpParser.flags hcore).symm
  rw [hflags, hpflags, ← hkept, ← hcore]
  rfl

/-! ## Names that it knows -/

/-- The rest of a word, in the state that matches it.  `finish` is what else is done at its
end. -/
theorem foldl_word (word : String) {m : HeaderState} (hit : HeaderState)
    (finish : HttpParser → HttpParser) (hlen : word.length < 2 ^ 5)
    (hchar : ∀ q ch, q.headerState = m → fieldChar q ch =
      finish { (q.matchWord word (token ch) m .general hit).1 with
        headerState := (q.matchWord word (token ch) m .general hit).2 })
    (hfinish : ∀ q, q.headerState = m → finish q = q) {p : HttpParser} {x rest : Bytes}
    (hp : p.headerState = m) (hindex : p.index + 1 = x.length)
    (hrest : ∀ ch ∈ rest, token ch = ch) (hne : rest ≠ []) (hword : x ++ rest = bytes word) :
    rest.foldl fieldChar p = finish { p with index := word.length - 1, headerState := hit } := by
  induction rest generalizing p x with
  | nil => exact absurd rfl hne
  | cons ch rest ih =>
    rw [List.forall_mem_cons] at hrest
    have hlength := congrArg List.length hword
    rw [List.length_append, List.length_cons, bytes, List.length_map, String.length_toList]
      at hlength
    have hx : x <+: bytes word := ⟨ch :: rest, hword⟩
    have hxne : x ≠ bytes word := by
      rw [← hword]
      simp
    have hmore : x ++ [ch] <+: bytes word := ⟨rest, by rw [← hword]; simp⟩
    rw [List.foldl_cons, hchar p ch hp, hrest.1, matchWord_spec hlen hx hxne hindex]
    dsimp only
    cases rest with
    | nil =>
      have hxlen : word.length - 1 = x.length := by
        rw [List.length_nil] at hlength
        omega
      rw [if_pos hword, List.foldl_nil, hxlen]
    | cons d rest =>
      have hend : x ++ [ch] ≠ bytes word := by
        rw [← hword]
        simp
      rw [if_neg hend, if_pos hmore, hfinish _ rfl]
      refine (ih (x := x ++ [ch]) rfl ?_ hrest.2 (List.cons_ne_nil d rest) ?_).trans rfl
      · simp
      · rw [← hword]
        simp

theorem nameStart_c (p : HttpParser) :
    p.nameStart (chr 'c') = { p with index := 0, headerState := .C } := by
  rw [nameStart, if_pos (by decide)]

/-- The letters that `connection` and `content-length` begin with. -/
theorem foldl_con (p : HttpParser) :
    (bytes "on").foldl fieldChar (p.nameStart (chr 'c')) =
      { p with index := 2, headerState := .CON } := by
  have hon : bytes "on" = [chr 'o', chr 'n'] := by decide
  rw [hon, nameStart_c]
  rfl

theorem readName_connection (p : HttpParser) :
    p.readName (bytes "connection") = { p with index := 9, headerState := .connection } := by
  have hsplit : bytes "connection" = chr 'c' :: (bytes "on" ++ chr 'n' :: bytes "ection") := by
    decide
  have hn : fieldChar { p with index := 2, headerState := .CON } (chr 'n') =
      { p with index := 3, headerState := .matchingConnection } := rfl
  rw [hsplit, readName, List.foldl_append, foldl_con, List.foldl_cons, hn]
  exact foldl_word "connection" .connection id (x := bytes "conn") (by decide)
    (fun q ch hq => by unfold fieldChar; rw [hq]; rfl) (fun _ _ => rfl) rfl rfl
    (forall_of_all (by decide)) (by decide) (by decide)

theorem readName_contentLength (p : HttpParser) :
    p.readName (bytes "content-length") =
      { p with index := 13, headerState := .contentLength } := by
  have hsplit : bytes "content-length" =
      chr 'c' :: (bytes "on" ++ chr 't' :: bytes "ent-length") := by
    decide
  have ht : fieldChar { p with index := 2, headerState := .CON } (chr 't') =
      { p with index := 3, headerState := .matchingContentLength } := rfl
  rw [hsplit, readName, List.foldl_append, foldl_con, List.foldl_cons, ht]
  exact foldl_word "content-length" .contentLength id (x := bytes "cont") (by decide)
    (fun q ch hq => by unfold fieldChar; rw [hq]; rfl) (fun _ _ => rfl) rfl rfl
    (forall_of_all (by decide)) (by decide) (by decide)

theorem readName_transferEncoding (p : HttpParser) :
    p.readName (bytes "transfer-encoding") =
      { p with index := 16, headerState := .transferEncoding, usesTransferEncoding := true } := by
  have hsplit : bytes "transfer-encoding" = chr 't' :: bytes "ransfer-encoding" := by decide
  have hstart : p.nameStart (chr 't') =
      { p with index := 0, headerState := .matchingTransferEncoding } := by
    rw [nameStart, if_neg (by decide), if_neg (by decide), if_pos (by decide)]
  rw [hsplit, readName, hstart]
  refine (foldl_word "transfer-encoding" .transferEncoding
    (fun q =>
      if q.headerState = .transferEncoding then { q with usesTransferEncoding := true } else q)
    (x := bytes "t") (m := .matchingTransferEncoding) (by decide) (fun q ch hq => ?_)
    (fun q hq => ?_) rfl rfl (forall_of_all (by decide)) (by decide) (by decide)).trans rfl
  · unfold fieldChar
    rw [hq]
  · rw [hq]
    exact if_neg (by decide)

/-! ## Values that it knows -/

/-- A character of a value in a state other than `h_general`. -/
theorem valueByte_known {p : HttpParser} {hs : HeaderState} {ch : UInt8}
    (hhs : hs ≠ .general) (hch : isTextChar ch = true) :
    p.valueByte hs none ch =
      match p.valueChar hs ch with
      | (p, hs, some e) => .stop p hs (.bad e)
      | (p, hs, none) => .go p hs none := by
  obtain ⟨htext, hcr, hlf⟩ := isTextChar_iff.mp hch
  rw [valueByte, if_neg (by simp), if_neg hcr, if_neg hlf, if_neg (by simp [htext])]
  exact if_neg hhs

/-- The rest of a word, in the state that matches it. -/
theorem valueLoop_word {word : String} {m missed hit : HeaderState} (hlen : word.length < 2 ^ 5)
    (hm : m ≠ .general)
    (hchar : ∀ q : HttpParser, ∀ ch, q.valueChar m ch =
      ((q.matchWord word (lower ch) m missed hit).1, (q.matchWord word (lower ch) m missed hit).2,
        none)) {p : HttpParser} {x rest : Bytes} (hindex : p.index + 1 = x.length)
    (hrest : ∀ ch ∈ rest, isTextChar ch = true ∧ lower ch = ch) (hne : rest ≠ [])
    (hword : x ++ rest = bytes word) :
    p.valueLoop m none (rest ++ [CR]) =
      ({ p with index := word.length - 1 }, hit, rest.length, .cr) := by
  induction rest generalizing p x with
  | nil => exact absurd rfl hne
  | cons ch rest ih =>
    rw [List.forall_mem_cons] at hrest
    have hlength := congrArg List.length hword
    rw [List.length_append, List.length_cons, bytes, List.length_map, String.length_toList]
      at hlength
    have hx : x <+: bytes word := ⟨ch :: rest, hword⟩
    have hxne : x ≠ bytes word := by
      rw [← hword]
      simp
    have hmore : x ++ [ch] <+: bytes word := ⟨rest, by rw [← hword]; simp⟩
    rw [List.cons_append, valueLoop, valueByte_known hm hrest.1.1, hchar, hrest.1.2,
      matchWord_spec hlen hx hxne hindex]
    dsimp only
    cases rest with
    | nil =>
      have hxlen : word.length - 1 = x.length := by
        rw [List.length_nil] at hlength
        omega
      rw [if_pos hword, hxlen]
      rfl
    | cons d rest =>
      have hend : x ++ [ch] ≠ bytes word := by
        rw [← hword]
        simp
      rw [if_neg hend, if_pos hmore, ih (x := x ++ [ch]) (by simp) hrest.2 (List.cons_ne_nil d rest)
        (by rw [← hword]; simp)]
      rfl

/-- A value that is a word, the first character of which `valueStart` has looked at. -/
theorem readValue_word {word : String} {m missed hit : HeaderState} {ch : UInt8} {rest : Bytes}
    (hword : ch :: rest = bytes word) (hlen : word.length < 2 ^ 5) (hm : m ≠ .general)
    (hchar : ∀ q : HttpParser, ∀ ch, q.valueChar m ch =
      ((q.matchWord word (lower ch) m missed hit).1, (q.matchWord word (lower ch) m missed hit).2,
        none)) {p : HttpParser}
    (hstart : p.valueStart ch = some { p with state := .headerValue, index := 0, headerState := m })
    (hrest : ∀ ch ∈ rest, isTextChar ch = true ∧ lower ch = ch) (hne : rest ≠ []) :
    p.readValue (bytes word) =
      some { p with state := .headerValue, index := word.length - 1, headerState := hit } := by
  rw [← hword, readValue, hstart]
  dsimp only
  rw [valueLoop_word (x := [ch]) hlen hm hchar rfl hrest hne hword]
  dsimp only
  rw [if_pos rfl]

/-- What `connection` is set to. -/
def connectionValue (close : Bool) : Bytes := if close then bytes "close" else bytes "keep-alive"

/-- The flag that `connection` sets. -/
def connectionFlags (f : Flags) (close : Bool) : Flags :=
  if close then { f with connectionClose := true } else { f with connectionKeepAlive := true }

theorem header_connection (p : HttpParser) (close : Bool) :
    ∃ q, p.header (bytes "connection") (connectionValue close) = some q ∧
      q.core = { p with flags := connectionFlags p.flags close }.core := by
  rw [header, readName_connection]
  cases close with
  | true =>
    have hword : chr 'c' :: bytes "lose" = bytes "close" := by decide
    refine ⟨_, congrArg (Option.map _) (readValue_word (m := .matchingConnectionClose) hword
      (by decide) (by decide) (fun _ _ => rfl) rfl (forall_of_all (by decide)) (by decide)), rfl⟩
  | false =>
    have hword : chr 'k' :: bytes "eep-alive" = bytes "keep-alive" := by decide
    refine ⟨_, congrArg (Option.map _) (readValue_word (m := .matchingConnectionKeepAlive) hword
      (by decide) (by decide) (fun _ _ => rfl) rfl (forall_of_all (by decide)) (by decide)), rfl⟩

theorem header_chunked (p : HttpParser) :
    ∃ q, p.header (bytes "transfer-encoding") (bytes "chunked") = some q ∧
      q.core = { p with
        flags := { p.flags with chunked := true }, usesTransferEncoding := true }.core := by
  have hword : chr 'c' :: bytes "hunked" = bytes "chunked" := by decide
  rw [header, readName_transferEncoding]
  refine ⟨_, congrArg (Option.map _) (readValue_word (m := .matchingTransferEncodingChunked) hword
    (by decide) (by decide) (fun _ _ => rfl) rfl (forall_of_all (by decide)) (by decide)), rfl⟩

theorem isTextChar_of_isNum {ch : UInt8} (h : isNum ch = true) : isTextChar ch = true := by
  have hrange := isNum_iff.mp h
  have hctl : (31 : UInt8) < ch :=
    UInt8.lt_iff_toNat_lt.mpr (Nat.lt_of_lt_of_le (by decide) hrange.1)
  have hne : ∀ c : UInt8, isNum c = false → ch ≠ c := by
    rintro c hc rfl
    rw [h] at hc
    cases hc
  have hdel := hne 127 (by decide)
  exact isTextChar_iff.mpr
    ⟨by simp [isHeaderChar, hctl, hdel], hne CR (by decide), hne LF (by decide)⟩

/-- The digits of a length. -/
theorem valueLoop_digits {p : HttpParser} {digits : Bytes}
    (h : ∀ ch ∈ digits, isNum ch = true)
    (hmax : natOfDigits p.contentLength digits + 10 ≤ ullongMax) :
    p.valueLoop .contentLengthNum none (digits ++ [CR]) =
      ({ p with contentLength := natOfDigits p.contentLength digits }, .contentLengthNum,
        digits.length, .cr) := by
  induction digits generalizing p with
  | nil => rfl
  | cons ch digits ih =>
    rw [List.forall_mem_cons] at h
    rw [natOfDigits_cons] at hmax ⊢
    have hle := le_natOfDigits (p.contentLength * 10 + digit ch) digits
    have hspace : ch ≠ chr ' ' := by
      rintro rfl
      exact absurd h.1 (by decide)
    have hmod : (p.contentLength * 10 + digit ch) % 2 ^ 64 = p.contentLength * 10 + digit ch := by
      refine Nat.mod_eq_of_lt ?_
      rw [ullongMax] at hmax
      omega
    have hchar : p.valueChar .contentLengthNum ch =
        ({ p with contentLength := p.contentLength * 10 + digit ch }, .contentLengthNum, none) := by
      unfold valueChar
      dsimp only
      rw [if_neg hspace, if_neg (not_not.mpr h.1), if_neg (by omega), hmod]
    rw [List.cons_append, valueLoop, valueByte_known (by decide) (isTextChar_of_isNum h.1), hchar]
    dsimp only
    rw [ih h.2 hmax]
    rfl

theorem header_contentLength (p : HttpParser) {digits : Bytes} (hne : digits ≠ [])
    (h : ∀ ch ∈ digits, isNum ch = true) (hmax : natOfDigits 0 digits + 10 ≤ ullongMax)
    (hlen : p.flags.contentlength = false) :
    ∃ q, p.header (bytes "content-length") digits = some q ∧
      q.core = { p with
        flags := { p.flags with contentlength := true }
        contentLength := natOfDigits 0 digits }.core := by
  obtain ⟨ch, digits, rfl⟩ := List.exists_cons_of_ne_nil hne
  rw [List.forall_mem_cons] at h
  rw [natOfDigits_cons, Nat.zero_mul, Nat.zero_add] at hmax ⊢
  have hstart : { p with index := 13, headerState := .contentLength : HttpParser }.valueStart ch =
      some { p with
        state := .headerValue, index := 0, headerState := .contentLengthNum
        flags := { p.flags with contentlength := true }, contentLength := digit ch } := by
    unfold valueStart onHeaderValueStart
    dsimp only [Ctx.goto, Ctx.mark]
    rw [if_neg (not_not.mpr h.1), if_neg (by rw [hlen]; decide)]
  rw [header, readName_contentLength, readValue, hstart]
  dsimp only
  rw [valueLoop_digits h.2 hmax]
  dsimp only
  rw [if_pos rfl, Option.map_some]
  exact ⟨_, rfl, rfl⟩

end HttpParser

end Sylar.Http
