import Mathlib.Data.List.Flatten
import Sylar.HttpDump
import Sylar.HttpRequestLine

/-! # What `dump` writes, read by the parser

The target of a request is read back in its parts (`HttpRequest.Addressed.onUrl`).

**`Runs.framed`**: over the lines that `dump` writes for the headers, and over the body that it
announces, the parser goes to the end of the message, and the callbacks get what was written,
but for the blanks in front of a value. -/
namespace Sylar.Http

/-! ## Whole messages -/

section Messages
variable {σ : Type} {s : Settings σ} {F : s.Calm}

theorem flush_bare (p : HttpParser) (u : σ) : flush s (Ctx.bare p u) = .next (Ctx.bare p u) := by
  unfold flush
  rw [callback_none rfl, callback_none rfl, callback_none rfl, callback_none rfl, callback_none rfl]

/-- No mark is set where a call begins between messages. -/
theorem enter_between {p : HttpParser} (hst : p.state.betweenMessages = true) (u : σ) :
    Ctx.enter p u = Ctx.bare p u := by
  refine Ctx.ext_marks rfl rfl fun m => openMarks_none ?_
  generalize p.state = st at hst
  cases st
  all_goals first
    | (cases hst; done)
    | (cases m <;> rfl)

/-- A call that is given what a run goes over, between messages. -/
theorem Runs.execute {p q : HttpParser} {u v : σ} {text : Bytes}
    (h : Runs F (Ctx.bare p u) text (Ctx.bare q v)) (hst : p.state.betweenMessages = true)
    (herr : p.httpErrno = none) (hne : text ≠ []) :
    execute s (p, u) text = ((q, v), text.length) := by
  rw [execute_eq u herr hne, enter_between hst, h.ran, Outcome.close, flush_bare]
  rfl

end Messages

/-- The callbacks for a request are calm. -/
def requestCalm (M : Type) [HeaderMap M] : (requestSettings M).Calm where
  toFragments := requestFragments M
  field x u := { u with field := x }
  value x u := { u with data := u.data.setHeader u.field x }
  notice n p u := ((requestSettings M).onNotify n p u).1
  finished u := u.finished
  onField _ _ _ := rfl
  onValue _ _ _ := rfl
  onNotice n _ _ := by cases n <;> rfl
  finished_body _ _ := rfl
  finished_status _ _ := rfl
  finished_field _ _ := rfl
  finished_value _ _ := rfl
  finished_notice n _ _ h := by
    cases n
    case messageComplete => exact absurd rfl h
    all_goals rfl
  messageBegin _ _ := rfl
  chunkHeader _ _ := rfl
  chunkComplete _ _ := rfl

/-! ## The target -/

section Target
variable {t : UrlTail}

/-- The loop over a target without a scheme and a host. -/
theorem urlLoop_target (ht : t.Valid) (hne : t.path ≠ []) (u : Url) :
    parseUrlLoop .reqSpacesBeforeUrl none false u 0 t.text = some (t.mark u 0, false) := by
  obtain ⟨path, query, fragment⟩ := t
  obtain ⟨p, hpath, hp⟩ := ht.path.resolve_left hne
  dsimp only at hpath
  subst hpath
  have henter : parseUrlChar .reqSpacesBeforeUrl (chr '/') = .reqPath := by decide
  rw [UrlTail.text, List.append_assoc, List.cons_append, urlLoop_enter henter rfl (by decide)]
  have hrest := urlLoop_path (f := false || State.reqPath == .reqServerWithAt) (u := u) (i := 0)
    (n := 0) (j := 0 + 1) hp ht.query ht.fragment
  rw [hrest, UrlTail.mark, List.length_cons, (by omega : 0 + 1 + p.length = p.length + 1),
    (by omega : 0 + (p.length + 1) = p.length + 1)]
  rfl

/-- The text of a target, behind its slash. -/
theorem target_lives (ht : t.Valid) (hne : t.path ≠ []) :
    ∃ text, t.text = chr '/' :: text ∧ Lives .reqPath text := by
  obtain ⟨p, hpath, -⟩ := ht.path.resolve_left hne
  have hloop := lives_of_loop (by decide) (urlLoop_target ht hne Url.init)
  have htext : t.text = chr '/' :: (p ++ queryText t.query ++ fragmentText t.fragment) := by
    rw [UrlTail.text, hpath]
    rfl
  rw [htext, Lives, List.foldl_cons] at hloop
  exact ⟨_, htext, hloop⟩

theorem target_absent {uf : UrlField} {i : Nat}
    (huf : uf = .schema ∨ uf = .host ∨ uf = .port) :
    (t.mark Url.init 0).Records uf i 0 := by
  rcases huf with rfl | rfl | rfl <;>
    exact Url.records_init.mark_tail (by decide) (by decide) (by decide)

theorem target_path : (t.mark Url.init 0).Records .path 0 t.path.length :=
  (Url.records_span fun _ => rfl).mark_query (by decide) (by decide)

theorem target_query :
    (t.mark Url.init 0).Records .query (0 + t.path.length + 1) (t.query.getD []).length := by
  have habsent : (Url.init.span .path 0 t.path.length).Records .query 0 0 :=
    Url.records_init.span (by decide)
  exact (Url.records_span fun _ => habsent.absent rfl).span (by decide)

theorem target_fragment : (t.mark Url.init 0).Records .fragment
    (0 + t.path.length + (queryText t.query).length + 1 + (hashes (t.fragment.getD [])).length)
    (unhashed (t.fragment.getD [])).length := by
  have habsent : ((Url.init.span .path 0 t.path.length).span .query (0 + t.path.length + 1)
      (t.query.getD []).length).Records .fragment 0 0 :=
    (Url.records_init.span (by decide)).span (by decide)
  exact Url.records_span fun _ => habsent.absent rfl

/-- What the parser of URLs records of a target. -/
theorem parseUrl_target (ht : t.Valid) (hne : t.path ≠ []) :
    parseUrl t.text false Url.init = some (t.mark Url.init 0) := by
  obtain ⟨text, htext, -⟩ := target_lives ht hne
  have hfull : t.text ≠ [] := by
    rw [htext]
    exact List.cons_ne_nil _ _
  have hinit : { Url.init with port := 0, fieldSet := fun _ => false } = Url.init := rfl
  have habsent : ∀ uf, uf = .schema ∨ uf = .host ∨ uf = .port →
      ¬ (t.mark Url.init 0).fieldSet uf = true := by
    intro uf huf
    rw [(target_absent (i := 0) huf).absent rfl]
    exact Bool.false_ne_true
  rw [parseUrl, if_neg hfull]
  dsimp only
  rw [hinit, if_neg Bool.false_ne_true, urlLoop_target ht hne]
  dsimp only
  rw [if_neg fun h => habsent .schema (.inl rfl) h.1, if_neg (habsent .host (.inr (.inl rfl)))]
  dsimp only
  rw [if_neg fun h => Bool.false_ne_true h.1, if_neg (habsent .port (.inr (.inr rfl)))]

end Target

/-- A part that is left out where it is empty. -/
def present (x : Bytes) : Option Bytes := if x = [] then none else some x

theorem getD_present (x : Bytes) : (present x).getD [] = x := by
  rw [present]
  split
  case isTrue h => rw [h]; rfl
  case isFalse => rfl

theorem eq_of_mem_present {x y : Bytes} (h : y ∈ present x) : x = y := by
  rw [← getD_present x, h]
  rfl

theorem delimited_present (d : UInt8) (x : Bytes) :
    delimited d (present x) = (if x = [] then [] else [d]) ++ x := by
  rw [present]
  split
  case isTrue h => rw [h]; rfl
  case isFalse => rfl

namespace HttpRequest
variable {M : Type} (r : HttpRequest M)

/-- The target of a request, in the parts that the parser of URLs has. -/
def tail : UrlTail where
  path := r.path
  query := present r.query
  fragment := present r.fragment

/-- The parts of the target are made of the characters that the parser takes for such parts. -/
structure Addressed : Prop where
  path : ∃ rest, r.path = chr '/' :: rest ∧ ∀ ch ∈ rest, isUrlChar ch = true
  query : ∀ ch ∈ r.query, isQueryChar ch = true
  fragment : ∀ ch ∈ r.fragment, isFragmentChar ch = true
  noHash : r.fragment.head? ≠ some (chr '#')
  short : r.tail.text.length < 2 ^ 16

variable {r}

theorem Addressed.valid (h : r.Addressed) : r.tail.Valid where
  path := .inr h.path
  query q hq := by
    rw [← eq_of_mem_present hq]
    exact h.query
  fragment x hx := by
    rw [← eq_of_mem_present hx]
    exact h.fragment
  fragmentless hpath := by
    obtain ⟨rest, heq, -⟩ := h.path
    have hnil : r.path = [] := hpath
    rw [heq] at hnil
    cases hnil

theorem Addressed.noHashes (h : r.Addressed) :
    hashes (r.tail.fragment.getD []) = [] ∧ unhashed (r.tail.fragment.getD []) = r.fragment := by
  have hget : r.tail.fragment.getD [] = r.fragment := getD_present r.fragment
  have hfirst := h.noHash
  rw [hget]
  cases hx : r.fragment with
  | nil => exact ⟨rfl, rfl⟩
  | cons c x =>
    rw [hx] at hfirst
    have hc : ¬ (c == chr '#') = true := by simpa using hfirst
    exact ⟨List.takeWhile_cons_of_neg hc, List.dropWhile_cons_of_neg hc⟩

theorem Addressed.path_ne (h : r.Addressed) : r.tail.path ≠ [] := by
  obtain ⟨rest, hpath, -⟩ := h.path
  rw [show r.tail.path = r.path from rfl, hpath]
  exact List.cons_ne_nil _ _

/-- The parts of the target, read where they are on record. -/
theorem Addressed.fields (h : r.Addressed) :
    Uri.field (r.tail.mark Url.init 0) r.tail.text .path = r.path ∧
      Uri.field (r.tail.mark Url.init 0) r.tail.text .query = r.query ∧
      Uri.field (r.tail.mark Url.init 0) r.tail.text .fragment = r.fragment := by
  obtain ⟨hno, hun⟩ := h.noHashes
  have hshort := h.short
  have hq : r.tail.query.getD [] = r.query := getD_present r.query
  have hquery : queryText r.tail.query = (if r.query = [] then [] else [chr '?']) ++ r.query :=
    delimited_present ..
  have hfragment : fragmentText r.tail.fragment =
      (if r.fragment = [] then [] else [chr '#']) ++ r.fragment := delimited_present ..
  have hpathRec : (r.tail.mark Url.init 0).Records .path 0 r.path.length := target_path
  have hqueryRec := target_query (t := r.tail)
  have hfragmentRec := target_fragment (t := r.tail)
  rw [hq, show r.tail.path = r.path from rfl] at hqueryRec
  rw [hno, hun, hquery, show r.tail.path = r.path from rfl] at hfragmentRec
  rw [UrlTail.text, hquery, hfragment, show r.tail.path = r.path from rfl] at hshort ⊢
  simp only [List.length_append] at hshort
  refine ⟨?_, ?_, ?_⟩
  · rw [List.append_assoc]
    exact hpathRec.field_piece (a := []) (by decide) (by omega)
  · rcases eq_or_ne r.query [] with hnil | hne
    · rw [hnil] at hqueryRec ⊢
      rw [hqueryRec.field (by decide), List.length_nil, List.take_zero]
    · rw [if_neg hne] at hshort ⊢
      have hmore : r.path ++ ([chr '?'] ++ r.query) ++
          ((if r.fragment = [] then [] else [chr '#']) ++ r.fragment) =
          (r.path ++ [chr '?']) ++ (r.query ++
            ((if r.fragment = [] then [] else [chr '#']) ++ r.fragment)) := by
        simp only [List.append_assoc]
      rw [hmore]
      refine Url.Records.field_piece ?_ ?_ (by omega)
      · rw [List.length_append]
        simpa using hqueryRec
      · rw [List.length_append]
        omega
  · rcases eq_or_ne r.fragment [] with hnil | hne
    · rw [hnil] at hfragmentRec ⊢
      rw [hfragmentRec.field (by decide), List.length_nil, List.take_zero]
    · rw [if_neg hne] at hshort ⊢
      have hmore : r.path ++ ((if r.query = [] then [] else [chr '?']) ++ r.query) ++
          ([chr '#'] ++ r.fragment) =
          (r.path ++ ((if r.query = [] then [] else [chr '?']) ++ r.query) ++ [chr '#']) ++
            (r.fragment ++ []) := by
        simp only [List.append_assoc, List.append_nil]
      rw [hmore]
      refine Url.Records.field_piece ?_ ?_ (by omega)
      · simpa [Nat.add_assoc] using hfragmentRec
      · simp only [List.length_append]
        omega

/-- What the callback for the URL makes of the target. -/
def addressedBy (r d : HttpRequest M) : HttpRequest M :=
  { d with path := r.path, query := r.query, fragment := r.fragment }

theorem Addressed.onUrl [HeaderMap M] (h : r.Addressed) {u : Parse (HttpRequest M)}
    (hquery : u.data.query = []) (hfragment : u.data.fragment = []) :
    onRequestUrlCb r.tail.text u = ({ u with data := r.addressedBy u.data }, 0) := by
  obtain ⟨hpath, hq, hx⟩ := h.fields
  have hne : r.path ≠ [] := h.path_ne
  unfold onRequestUrlCb
  rw [parseUrl_target h.valid h.path_ne]
  dsimp only
  unfold Uri.field at hpath hq hx
  generalize r.tail.mark Url.init 0 = url at hpath hq hx ⊢
  have hset : url.fieldSet .path = true := by
    by_contra hunset
    rw [if_neg hunset] at hpath
    exact hne hpath.symm
  rw [if_pos hset] at hpath ⊢
  cases hqset : url.fieldSet .query <;> cases hxset : url.fieldSet .fragment
  all_goals
    rw [hqset] at hq
    rw [hxset] at hx
    simp_all [addressedBy]

/-! ## The line -/

/-- The byte of a digit. -/
def digitByte (d : Nat) : UInt8 := UInt8.ofNat (48 + d)

theorem decimal_digit {d : Nat} (h : d ≤ 9) :
    decimal d = [digitByte d] ∧ isNum (digitByte d) = true ∧ digit (digitByte d) = d := by
  interval_cases d <;> decide

/-- What the line of a request is written from. -/
def line (r : HttpRequest M) (target : Bytes) : Line where
  method := r.method
  target := target
  major := digitByte (r.version >>> 4)
  minor := digitByte (r.version &&& 0x0F)

theorem version_unpack : ∀ v : Fin 256,
    ((v.val >>> 4) <<< 4 ||| (v.val &&& 0x0F)) % 2 ^ 8 = v.val := by
  decide +kernel

end HttpRequest

/-! ## The lines of the headers -/

namespace HttpParser

theorem headers_append (p : HttpParser) (a b : List HeaderLine) :
    p.headers (a ++ b) = (p.headers a).bind (·.headers b) := by
  induction a generalizing p with
  | nil => rfl
  | cons l a ih =>
    rw [List.cons_append, headers, headers, Option.bind_assoc]
    exact congrArg _ (funext fun q => ih q)

/-- Headers that the parser does not know change nothing that lasts. -/
theorem headers_ordinary (p : HttpParser) {lines : List HeaderLine}
    (h : ∀ l ∈ lines, Ordinary l.name ∧ (∀ ch ∈ l.value, isTextChar ch = true) ∧
      l.value.length < maxHeaderSize) :
    ∃ q, p.headers lines = some q ∧ q.core = p.core := by
  induction lines generalizing p with
  | nil => exact ⟨p, rfl, rfl⟩
  | cons l lines ih =>
    rw [List.forall_mem_cons] at h
    obtain ⟨r, hr, hrcore⟩ := p.header_ordinary h.1.1 h.1.2.1 h.1.2.2
    obtain ⟨q, hq, hqcore⟩ := ih r h.2
    exact ⟨q, by rw [headers, hr, Option.bind_some, hq], hqcore.trans hrcore⟩

end HttpParser

open HttpParser (Ordinary isTextChar isTextChar_iff connectionValue connectionFlags)

/-- The line of a header, of which blanks in front of the value are no part. -/
def entryLine (e : Bytes × Bytes) : HeaderLine where
  name := e.1
  blanks := e.2.takeWhile isBlank
  value := e.2.dropWhile isBlank

/-- The line for the connection. -/
def connectionLine (close : Bool) : HeaderLine where
  name := bytes "connection"
  blanks := [chr ' ']
  value := connectionValue close

/-- The line for a length. -/
def lengthLine (n : Nat) : HeaderLine where
  name := bytes "content-length"
  blanks := [chr ' ']
  value := decimal n

/-- A header that is read as it was written, but for the blanks: its name is none that messages
are framed with, so it is not `connection`, `proxy-connection`, `content-length` or `upgrade`, in
any case, and does not begin with `transfer-encoding`. -/
structure Readable (e : Bytes × Bytes) : Prop where
  name : Ordinary e.1
  value : ∀ ch ∈ e.2, isTextChar ch = true

theorem Readable.valid {e : Bytes × Bytes} (h : Readable e) : (entryLine e).Valid where
  name_ne := h.name.ne
  name := h.name.token
  blanks _ hch := List.mem_takeWhile_imp hch
  value ch hch := by
    have hmem : ch ∈ e.2 := List.dropWhile_subset _ (List.mem_of_mem_head? hch)
    have hhead := List.head?_dropWhile_not isBlank e.2
    have hfirst : (e.2.dropWhile isBlank).head? = some ch := hch
    rw [hfirst] at hhead
    exact ⟨hhead, (isTextChar_iff.mp (h.value ch hmem)).2⟩

theorem entryLine_text (e : Bytes × Bytes) :
    (entryLine e).text = e.1 ++ bytes ":" ++ e.2 ++ crlf := by
  have hcolon : bytes ":" = [chr ':'] := by decide
  have hcrlf : crlf = [CR, LF] := by decide
  have hvalue : e.2.takeWhile isBlank ++ (e.2.dropWhile isBlank ++ [CR, LF]) = e.2 ++ [CR, LF] := by
    rw [← List.append_assoc, List.takeWhile_append_dropWhile]
  rw [hcolon, hcrlf, HeaderLine.text, entryLine, List.append_assoc, hvalue, List.append_assoc _ e.2]

theorem connectionLine_text (close : Bool) :
    (connectionLine close).text = connectionText close ++ crlf := by
  cases close <;> decide

theorem lengthLine_text (n : Nat) :
    (lengthLine n).text = bytes "content-length: " ++ decimal n ++ crlf := by
  have hname : bytes "content-length: " = bytes "content-length" ++ [chr ':'] ++ [chr ' '] := by
    decide
  have hcrlf : crlf = [CR, LF] := by decide
  rw [HeaderLine.text, lengthLine, hname, hcrlf, List.append_assoc _ (decimal n)]

theorem decimal_eq (n : Nat) : decimal n = (Nat.toDigits 10 n).map chr := by
  rw [decimal, bytes, Nat.toString_eq_repr, Nat.toList_repr]

theorem decimal_isNum (n : Nat) : ∀ ch ∈ decimal n, isNum ch = true := by
  rw [decimal_eq]
  exact isNum_toDigits n

theorem decimal_value (n : Nat) : natOfDigits 0 (decimal n) = n := by
  rw [decimal_eq]
  exact natOfDigits_toDigits n

theorem decimal_ne (n : Nat) : decimal n ≠ [] := by
  rw [decimal_eq]
  exact mt List.map_eq_nil_iff.mp Nat.toDigits_ne_nil

theorem connectionLine_valid (close : Bool) : (connectionLine close).Valid where
  name_ne := (by decide : bytes "connection" ≠ [])
  name := forall_of_all (l := bytes "connection") (by decide)
  blanks := List.forall_mem_singleton.mpr (by decide)
  value ch hch := by
    cases close <;> cases hch <;> decide

theorem lengthLine_valid (n : Nat) : (lengthLine n).Valid where
  name_ne := (by decide : bytes "content-length" ≠ [])
  name := forall_of_all (l := bytes "content-length") (by decide)
  blanks := List.forall_mem_singleton.mpr (by decide)
  value ch hch := by
    have hnum := decimal_isNum n ch (List.mem_of_mem_head? hch)
    have hne : ∀ c, isNum c = false → ch ≠ c := by
      rintro c hc rfl
      rw [hnum] at hc
      cases hc
    refine ⟨?_, (isTextChar_iff.mp (HttpParser.isTextChar_of_isNum hnum)).2⟩
    simp [isBlank, hne (chr ' ') (by decide), hne (chr '\t') (by decide)]

/-- The lines that `dump` writes for the headers that are stored, and for those that it adds. -/
def headerLines (close : Bool) (stored : List (Bytes × Bytes)) (body : Bytes) : List HeaderLine :=
  connectionLine close :: (stored.map entryLine ++
    if body = [] then [] else [lengthLine body.length])

/-- What the parser keeps of these lines. -/
def HttpParser.framed (p : HttpParser) (close : Bool) (body : Bytes) : HttpParser :=
  if body = [] then { p with flags := connectionFlags p.flags close }
  else
    { p with
      flags := { connectionFlags p.flags close with contentlength := true }
      contentLength := body.length }

theorem headerLines_valid {close : Bool} {stored : List (Bytes × Bytes)} {body : Bytes}
    (h : ∀ e ∈ stored, Readable e) : ∀ l ∈ headerLines close stored body, l.Valid := by
  rw [headerLines, List.forall_mem_cons, List.forall_mem_append, List.forall_mem_map]
  refine ⟨connectionLine_valid close, fun e he => (h e he).valid, ?_⟩
  split
  · exact List.forall_mem_nil _
  · exact List.forall_mem_singleton.mpr (lengthLine_valid _)

/-- Lines of entries that fit are those of ordinary headers. -/
theorem entryLines_ordinary {stored : List (Bytes × Bytes)} (h : ∀ e ∈ stored, Readable e)
    (hshort : ((stored.map entryLine).flatMap HeaderLine.text).length ≤ maxHeaderSize) :
    ∀ l ∈ stored.map entryLine, Ordinary l.name ∧ (∀ ch ∈ l.value, isTextChar ch = true) ∧
      l.value.length < maxHeaderSize := by
  rw [List.forall_mem_map]
  intro e he
  refine ⟨(h e he).name, fun ch hch => (h e he).value ch (List.dropWhile_subset _ hch), ?_⟩
  have hmem : List.Sublist [entryLine e] (stored.map entryLine) :=
    List.singleton_sublist.mpr (List.mem_map_of_mem he)
  have hle := (hmem.flatMap HeaderLine.text).length_le
  rw [List.flatMap_singleton, HeaderLine.text] at hle
  simp only [List.length_append, List.length_cons, List.length_nil] at hle
  omega

/-- What the lines of the headers make of the parser. -/
theorem headers_framed (p : HttpParser) {close : Bool} {stored : List (Bytes × Bytes)}
    {body : Bytes} (h : ∀ e ∈ stored, Readable e)
    (hshort : ((headerLines close stored body).flatMap HeaderLine.text).length ≤ maxHeaderSize)
    (hbody : body.length + 10 ≤ ullongMax) (hlen : p.flags.contentlength = false) :
    ∃ q, p.headers (headerLines close stored body) = some q ∧
      q.core = (p.framed close body).core := by
  obtain ⟨r, hr, hrcore⟩ := p.header_connection close
  have hfits : ((stored.map entryLine).flatMap HeaderLine.text).length ≤ maxHeaderSize := by
    rw [headerLines, List.flatMap_cons, List.flatMap_append, List.length_append,
      List.length_append] at hshort
    omega
  obtain ⟨t, ht, htcore⟩ := r.headers_ordinary (entryLines_ordinary h hfits)
  have hkept := htcore.trans hrcore
  have hlines : p.headers (connectionLine close :: stored.map entryLine) = some t := by
    rw [HttpParser.headers, show p.header (connectionLine close).name (connectionLine close).value =
      some r from hr, Option.bind_some, ht]
  rw [headerLines, ← List.cons_append, HttpParser.headers_append, hlines, Option.bind_some,
    HttpParser.framed]
  by_cases hempty : body = []
  · rw [if_pos hempty, if_pos hempty]
    exact ⟨t, rfl, hkept⟩
  · have hfree : t.flags.contentlength = false := by
      have hflags : t.flags = connectionFlags p.flags close := congrArg HttpParser.flags hkept
      rw [hflags]
      cases close <;> exact hlen
    obtain ⟨q, hq, hqcore⟩ := t.header_contentLength (decimal_ne body.length)
      (decimal_isNum body.length) (by rw [decimal_value]; exact hbody) hfree
    have hmore : t.headers [lengthLine body.length] = some q := by
      rw [HttpParser.headers, show t.header (lengthLine body.length).name
        (lengthLine body.length).value = some q from hq]
      rfl
    rw [if_neg hempty, if_neg hempty, hmore]
    refine ⟨q, rfl, ?_⟩
    have hfields : ({ t with
        flags := { t.flags with contentlength := true }
        contentLength := natOfDigits 0 (decimal body.length) } : HttpParser).core =
        { t.core with
          flags := { t.core.flags with contentlength := true }
          contentLength := natOfDigits 0 (decimal body.length) } := rfl
    rw [hqcore, hfields, hkept, decimal_value]
    rfl

/-! ## The headers and the body -/

section Framed
variable {σ : Type} {s : Settings σ} {F : s.Calm} {p : HttpParser} {close : Bool} {body : Bytes}

/-- A parser behind a first line, which has not read a header. -/
structure HttpParser.Unread (p : HttpParser) : Prop where
  flags : p.flags = {}
  uses : p.usesTransferEncoding = false
  length : p.contentLength = ullongMax
  noError : p.httpErrno = none
  noConnect : p.method ≠ .connect

/-- What the end of the headers depends on. -/
structure HttpParser.Sized (p : HttpParser) (body : Bytes) : Prop extends p.Settled where
  notChunked : p.flags.chunked = false
  uses : p.usesTransferEncoding = false
  noError : p.httpErrno = none
  length : p.contentLength = if body = [] then ullongMax else body.length

theorem HttpParser.Sized.of_core {p q : HttpParser} (h : p.Sized body) (hq : q.core = p.core) :
    q.Sized body := by
  have hcore : p.core.Sized body := ⟨⟨h.trailing, h.skipbody, h.noUpgrade, h.oneLength⟩,
    h.notChunked, h.uses, h.noError, h.length⟩
  rw [← hq] at hcore
  exact ⟨⟨hcore.trailing, hcore.skipbody, hcore.noUpgrade, hcore.oneLength⟩, hcore.notChunked,
    hcore.uses, hcore.noError, hcore.length⟩

/-- A parser that has been told of a length, or of none. -/
theorem HttpParser.Unread.told (hp : p.Unread) {f : Flags} {n : Nat}
    (htrailing : f.trailing = false) (hskip : f.skipbody = false) (hup : f.upgrade = false)
    (hchunked : f.chunked = false) (hn : n = if body = [] then ullongMax else body.length) :
    HttpParser.Sized { p with flags := f, contentLength := n } body where
  trailing := htrailing
  skipbody := hskip
  noUpgrade := by
    have hmethod : (p.method == .connect) = false := beq_eq_false_iff_ne.mpr hp.noConnect
    unfold asksUpgrade
    dsimp only
    rw [hup, if_neg fun h => Bool.false_ne_true h.1, hmethod]
  oneLength := by
    unfold refusesLength
    dsimp only
    rw [hp.uses, Bool.false_and, Bool.false_and]
  notChunked := hchunked
  uses := hp.uses
  noError := hp.noError
  length := hn

theorem HttpParser.Unread.sized (hp : p.Unread) : (p.framed close body).Sized body := by
  unfold HttpParser.framed
  rw [hp.flags]
  split
  case isTrue hempty =>
    have hn : p.contentLength = if body = [] then ullongMax else body.length := by
      rw [if_pos hempty, hp.length]
    cases close
    · exact hp.told rfl rfl rfl rfl hn
    · exact hp.told rfl rfl rfl rfl hn
  case isFalse hne =>
    have hn : body.length = if body = [] then ullongMax else body.length := by rw [if_neg hne]
    cases close
    · exact hp.told rfl rfl rfl rfl hn
    · exact hp.told rfl rfl rfl rfl hn

/-- The user behind a body. -/
def Settings.Calm.given (F : s.Calm) (body : Bytes) (u : σ) : σ :=
  if body = [] then u else F.body body u

/-- The empty line, and the body that is announced. -/
theorem Runs.ending {c : Ctx σ} {u : σ} (hc : c.AtLine F p u) (hp : p.Sized body)
    (heof : body = [] → p.messageNeedsEof = false) (hbody : body.length + 10 ≤ ullongMax)
    (hn : p.nread + 2 ≤ maxHeaderSize) :
    ∃ q : HttpParser, ∃ k : Nat, q.core = { p with contentLength := k }.core ∧
      Runs F c ([CR, LF] ++ body) (Ctx.bare (q.atState q.newMessage 0)
        (F.completed q (F.given body (F.headed p u)))) := by
  have hlen := hp.length
  unfold Settings.Calm.given
  by_cases hempty : body = []
  · rw [if_pos hempty] at hlen ⊢
    have hrun := Runs.complete hc hp.toSettled hn hp.notChunked hp.uses
      (.inr ⟨hlen, heof hempty⟩)
    rw [hempty, List.append_nil]
    exact ⟨p, p.contentLength, rfl, hrun⟩
  · rw [if_neg hempty] at hlen ⊢
    have hpos := List.length_pos_of_ne_nil hempty
    have hhead := Runs.toBody hc hp.toSettled hn hp.notChunked hp.uses (by omega) (by omega)
    have hin : (Ctx.bare p (F.headed p u)).Inside F :=
      ⟨(F.finished_notice _ _ _ (by decide)).trans hc.inside'.unfinished, hc.inside'.noUpgrade⟩
    exact ⟨{ p with contentLength := 0 }, 0, rfl,
      hhead.trans (Runs.body hin hlen hempty hp.noError)⟩

section Headers
variable {u : σ} {n : Nat} {stored : List (Bytes × Bytes)} (hp : p.Unread)
  (hin : (Ctx.bare p u).Inside F) (hstored : ∀ e ∈ stored, Readable e)
  (hbody : body.length + 10 ≤ ullongMax)
  (hn : n + ((headerLines close stored body).flatMap HeaderLine.text).length + 2 ≤ maxHeaderSize)
include hp hin hstored hbody hn

/-- The lines of the headers. -/
theorem Runs.readHeaders : ∃ q d, q.core = (p.framed close body).core ∧
    q.nread + 2 ≤ maxHeaderSize ∧
    Runs F (Ctx.bare (p.atState .headerFieldStart n) u)
      ((headerLines close stored body).flatMap HeaderLine.text) d ∧
    d.AtLine F q ((headerLines close stored body).foldl F.line u) := by
  have hframed : ∃ q, p.headers (headerLines close stored body) = some q ∧
      q.core = (p.framed close body).core :=
    headers_framed p hstored (by omega) hbody (by rw [hp.flags])
  obtain ⟨q, hq, hcore⟩ := hframed
  obtain ⟨d, hlines, hd⟩ := Runs.lines (Ctx.AtLine.first hin n) (headerLines_valid hstored) hq
    (by omega)
  exact ⟨q.atState .headerFieldStart
    (n + ((headerLines close stored body).flatMap HeaderLine.text).length), d, hcore, hn, hlines,
    hd⟩

/-- **The lines of the headers, the empty line, and the body that is announced.** -/
theorem Runs.framed (heof : body = [] → (p.framed close body).messageNeedsEof = false) :
    ∃ q q' : HttpParser, ∃ k : Nat, q.core = (p.framed close body).core ∧
      q'.core = { p.framed close body with contentLength := k }.core ∧
      Runs F (Ctx.bare (p.atState .headerFieldStart n) u)
        ((headerLines close stored body).flatMap HeaderLine.text ++ ([CR, LF] ++ body))
        (Ctx.bare (q'.atState q'.newMessage 0) (F.completed q' (F.given body
          (F.headed q ((headerLines close stored body).foldl F.line u))))) := by
  obtain ⟨q, d, hcore, hroom, hlines, hd⟩ := Runs.readHeaders hp hin hstored hbody hn
  have hneeds : body = [] → q.messageNeedsEof = false := by
    intro hempty
    have hkept : q.core.messageNeedsEof = (p.framed close body).core.messageNeedsEof := by
      rw [hcore]
    exact hkept.trans (heof hempty)
  obtain ⟨q', k, hq', hover⟩ := Runs.ending hd (hp.sized.of_core hcore) hneeds hbody hroom
  refine ⟨q, q', k, hcore, hq'.trans ?_, hlines.trans hover⟩
  exact congrArg (fun r : HttpParser => { r with contentLength := k }) hcore

/-- The lines of the headers and the empty line, up to a body. -/
theorem Runs.announced (hne : body ≠ []) :
    ∃ (q : HttpParser) (v : σ), q.contentLength = body.length ∧
      Runs F (Ctx.bare (p.atState .headerFieldStart n) u)
        ((headerLines close stored body).flatMap HeaderLine.text ++ [CR, LF])
        (Ctx.bare (q.atState .bodyIdentity 0) v) := by
  obtain ⟨q, d, hcore, hroom, hlines, hd⟩ := Runs.readHeaders hp hin hstored hbody hn
  have hsized := hp.sized.of_core hcore
  have hlen := hsized.length
  have hpos := List.length_pos_of_ne_nil hne
  rw [if_neg hne] at hlen
  have hempty := Runs.toBody hd hsized.toSettled hroom hsized.notChunked hsized.uses (by omega)
    (by omega)
  exact ⟨q, _, hlen, hlines.trans hempty⟩

end Headers

end Framed

end Sylar.Http
