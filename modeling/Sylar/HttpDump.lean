import Sylar.HttpServer
import Sylar.Lines

/-! # What `dump` writes

A message goes out as a line, the lines of its headers, an empty line and the body.  `dump` puts
the headers together from two sources: the map, and the members that say whether the connection
is closed and what the body is.

Of the map both `dump` leave out `connection`, and neither leaves out `content-length`; and that
of a response writes no body.  **`response_dump_iff`** and **`request_dump_iff`** say which
messages a reader gets back all the same. -/
namespace Sylar.Http
open Lines

/-! ## The code -/

/-- `HttpMethodToString`: `HTTP_METHOD_MAP` has the first five methods. -/
def httpMethodToString : Method → Bytes
  | .delete => bytes "DELETE"
  | .get => bytes "GET"
  | .head => bytes "HEAD"
  | .post => bytes "POST"
  | .put => bytes "PUT"
  | _ => bytes "<unknown>"

/-- The version of a message. -/
def versionText (version : Nat) : Bytes :=
  bytes "HTTP/" ++ decimal (version >>> 4) ++ bytes "." ++ decimal (version &&& 0x0F)

/-- The line that says whether the connection is closed. -/
def connectionText (close : Bool) : Bytes :=
  bytes "connection: " ++ (if close then bytes "close" else bytes "keep-alive")

/-- The line for the length of a body, where there is one. -/
def lengthTexts (body : Bytes) : List Bytes :=
  if body = [] then [] else [bytes "content-length: " ++ decimal body.length]

namespace HttpRequest
variable {M : Type} [StdMap M] (r : HttpRequest M)

omit [StdMap M] in
def requestLine : Bytes :=
  httpMethodToString r.method ++ bytes " " ++ r.path ++ (if r.query = [] then [] else bytes "?") ++
    r.query ++ (if r.fragment = [] then [] else bytes "#") ++ r.fragment ++ bytes " " ++
    versionText r.version

/-- `HttpRequest::dump` -/
def dump : Bytes :=
  r.requestLine ++ crlf ++ (connectionText r.close ++ crlf) ++
    (((StdMap.entries r.headers).filter fun e => !strcasecmpEq e.1 (bytes "connection")).flatMap
      fun e => e.1 ++ bytes ":" ++ e.2 ++ crlf) ++
    (if r.body ≠ [] then
      bytes "content-length: " ++ decimal r.body.length ++ crlf ++ crlf ++ r.body
    else crlf)

end HttpRequest

/-! ## What is asked of a message -/

/-- What is before the first colon of a line. -/
def nameOf (line : Bytes) : Bytes := line.takeWhile (· ≠ chr ':')

/-- The line has this name, ignoring case. -/
def Named (name line : Bytes) : Bool := strcasecmpEq (nameOf line) name

/-- The message is a first line, the lines of the stored headers, a line for the connection and
one for the length of the body if there is one, all of them once, then an empty line and the
body; no other line has the name of one of these two. -/
def Delimited (out first : Bytes) (stored : List Bytes) (close : Bool) (body : Bytes) : Prop :=
  ∃ lines, Framed CR LF out (first :: lines) body ∧
    lines.Perm (stored ++ connectionText close :: lengthTexts body) ∧
    lines.filter (Named (bytes "connection")) = [connectionText close] ∧
    lines.filter (Named (bytes "content-length")) = lengthTexts body

/-- The headers have no end of line in them. -/
def PlainHeaders (entries : List (Bytes × Bytes)) : Prop :=
  ∀ e ∈ entries, ∀ c ∈ e.1 ++ e.2, c ≠ CR ∧ c ≠ LF

theorem plainHeaders_nil : PlainHeaders [] := by
  intro e he
  cases he

/-- The name of a header that `dump` leaves out, or that no reader takes for one of the two that
it adds. -/
def Harmless (key : Bytes) : Prop :=
  strcasecmpEq key (bytes "connection") = true ∨
    Named (bytes "connection") key = false ∧ Named (bytes "content-length") key = false

namespace HttpResponse
variable {M : Type} [StdMap M] (r : HttpResponse M)

omit [StdMap M] in
/-- The status line, without its end. -/
def statusText : Bytes :=
  versionText r.version ++ bytes " " ++ decimal r.status ++ bytes " " ++
    (if r.reason = [] then httpStatusToString r.status else r.reason)

/-- The line of a header. -/
def headerText (e : Bytes × Bytes) : Bytes := e.1 ++ bytes ": " ++ e.2

/-- The lines of the headers that are not `connection`. -/
def storedTexts : List Bytes :=
  ((StdMap.entries r.headers).filter fun e => !strcasecmpEq e.1 (bytes "connection")).map
    headerText

/-- A reader gets the response. -/
def SelfDelimiting : Prop :=
  Delimited r.dump r.statusText r.storedTexts r.close r.body

end HttpResponse

namespace HttpRequest
variable {M : Type} [StdMap M] (r : HttpRequest M)

/-- The line of a header. -/
def headerText (e : Bytes × Bytes) : Bytes := e.1 ++ bytes ":" ++ e.2

/-- The lines of the headers that are neither `connection` nor `content-length`. -/
def storedTexts : List Bytes :=
  ((StdMap.entries r.headers).filter fun e => !strcasecmpEq e.1 (bytes "connection") &&
    !strcasecmpEq e.1 (bytes "content-length")).map headerText

/-- A reader gets the request. -/
def SelfDelimiting : Prop :=
  Delimited r.dump r.requestLine r.storedTexts r.close r.body

end HttpRequest

/-! ## Lines without an end inside -/

theorem CR_ne_LF : CR ≠ LF := by decide

/-- No byte of the text is one of the two that end a line. -/
def Plain (s : Bytes) : Prop := ∀ c ∈ s, c ≠ CR ∧ c ≠ LF

instance (s : Bytes) : Decidable (Plain s) :=
  List.decidableBAll (fun c => c ≠ CR ∧ c ≠ LF) s

instance (entries : List (Bytes × Bytes)) : Decidable (PlainHeaders entries) :=
  List.decidableBAll (fun e : Bytes × Bytes => Plain (e.1 ++ e.2)) entries

theorem Plain.append {a b : Bytes} (ha : Plain a) (hb : Plain b) : Plain (a ++ b) := by
  intro c hc
  rcases List.mem_append.mp hc with hc | hc
  · exact ha c hc
  · exact hb c hc

theorem Plain.not_broken {s : Bytes} (h : Plain s) : ¬ Broken CR LF s :=
  not_broken_of_not_mem fun hc => (h CR hc).1 rfl

/-- A text that begins with a plain one. -/
theorem Plain.broken_append {a : Bytes} (ha : Plain a) (b : Bytes) :
    Broken CR LF (a ++ b) ↔ Broken CR LF b :=
  broken_append_of_not_mem fun hc => (ha CR hc).1 rfl

/-- A literal is read as its characters, not decoded from its bytes. -/
theorem plain_ofList {l : List Char} (h : Plain (l.map chr)) : Plain (bytes (String.ofList l)) := by
  rw [bytes, String.toList_ofList]
  exact h

theorem plain_decimal (n : Nat) : Plain (decimal n) := by
  intro b hb
  obtain ⟨c, hc, rfl⟩ := List.mem_map.mp hb
  have hdigit : c.isDigit = true := by
    rw [Nat.toString_eq_repr, Nat.toList_repr] at hc
    exact Nat.isDigit_of_mem_toDigits (by decide) (by decide) hc
  have hrange : 48 ≤ c.toNat ∧ c.toNat ≤ 57 := by
    simpa [Char.isDigit, UInt32.le_iff_toNat_le] using hdigit
  have hchr : (chr c).toNat = c.toNat := by
    rw [chr, UInt8.toNat_ofNat', Nat.mod_eq_of_lt (by omega)]
  constructor
  · intro h
    rw [h] at hchr
    have h13 : CR.toNat = 13 := rfl
    omega
  · intro h
    rw [h] at hchr
    have h10 : LF.toNat = 10 := rfl
    omega

theorem plain_status (status : Nat) : Plain (httpStatusToString status) := by
  have hall : ∀ e ∈ httpStatusMap, Plain (bytes e.2) := by
    simp only [httpStatusMap, List.forall_mem_cons]
    repeat' apply And.intro
    case right => exact List.forall_mem_nil _
    all_goals exact plain_ofList (by decide)
  rw [httpStatusToString]
  cases hlookup : httpStatusMap.lookup status with
  | none => decide
  | some text =>
    obtain ⟨l, l', heq, -⟩ := List.lookup_eq_some_iff.mp hlookup
    refine hall (status, text) ?_
    rw [heq]
    simp

theorem plain_method (m : Method) : Plain (httpMethodToString m) := by
  cases m <;> decide

theorem plain_version (version : Nat) : Plain (versionText version) := by
  have hname : Plain (bytes "HTTP/") := by decide
  have hdot : Plain (bytes ".") := by decide
  exact ((hname.append (plain_decimal _)).append hdot).append (plain_decimal _)

theorem plain_connection (close : Bool) :
    connectionText close ≠ [] ∧ Plain (connectionText close) := by
  cases close <;> decide

theorem plain_lengths {body l : Bytes} (h : l ∈ lengthTexts body) : l ≠ [] ∧ Plain l := by
  rw [lengthTexts] at h
  split at h
  · cases h
  · obtain rfl := List.mem_singleton.mp h
    have hname : Plain (bytes "content-length: ") := by decide
    exact ⟨List.append_ne_nil_of_left_ne_nil (by decide) _, hname.append (plain_decimal _)⟩

/-- The line of a header, whatever stands between its two parts. -/
theorem plain_header {entries : List (Bytes × Bytes)} (h : PlainHeaders entries)
    {e : Bytes × Bytes} (he : e ∈ entries) {colon : Bytes} (hcolon : colon ≠ [])
    (hplain : Plain colon) : e.1 ++ colon ++ e.2 ≠ [] ∧ Plain (e.1 ++ colon ++ e.2) := by
  have hkey : Plain e.1 := fun c hc => h e he c (List.mem_append_left _ hc)
  have hvalue : Plain e.2 := fun c hc => h e he c (List.mem_append_right _ hc)
  refine ⟨?_, (hkey.append hplain).append hvalue⟩
  exact List.append_ne_nil_of_left_ne_nil (List.append_ne_nil_of_right_ne_nil _ hcolon) _

/-! ## Names of lines -/

theorem nameOf_append {a b : Bytes} (h : b.head? = some (chr ':')) :
    nameOf (a ++ b) = nameOf a := by
  obtain ⟨c, b, rfl⟩ := List.exists_cons_of_ne_nil (l := b) (by rintro rfl; cases h)
  obtain rfl := Option.some.inj h
  induction a with
  | nil => simp [nameOf]
  | cons x a ih =>
    rw [nameOf, nameOf] at ih ⊢
    rw [List.cons_append, List.takeWhile_cons, List.takeWhile_cons, ih]

/-- Stopping at the colon does not change a C string that has none. -/
theorem lowered_nameOf {s : Bytes} (h : chr ':' ∉ lowered s) : lowered (nameOf s) = lowered s := by
  induction s with
  | nil => rfl
  | cons c s ih =>
    rw [nameOf, List.takeWhile_cons]
    by_cases hzero : c = 0
    · subst hzero
      rfl
    · have hlow : lowered (c :: s) = tolower c :: lowered s := by
        rw [lowered, List.takeWhile_cons, if_pos (by simpa using hzero)]
        rfl
      rw [hlow, List.mem_cons, not_or] at h
      have hcolon : c ≠ chr ':' := by
        rintro rfl
        exact h.1 (by decide)
      have hlow' : lowered (c :: s.takeWhile (· ≠ chr ':')) =
          tolower c :: lowered (s.takeWhile (· ≠ chr ':')) := by
        rw [lowered, List.takeWhile_cons, if_pos (by simpa using hzero)]
        rfl
      rw [if_pos (by simpa using hcolon), hlow', hlow]
      exact congrArg _ (ih h.2)

/-- A key that is equal to a name has that name as a line. -/
theorem named_of_strcasecmpEq {name key : Bytes} (hname : chr ':' ∉ lowered name)
    (h : strcasecmpEq key name = true) : Named name key = true := by
  have heq : lowered key = lowered name := beq_iff_eq.mp h
  refine beq_iff_eq.mpr ?_
  show lowered (nameOf key) = lowered name
  rw [lowered_nameOf (by rw [heq]; exact hname), heq]

theorem connection_named (close : Bool) :
    Named (bytes "connection") (connectionText close) = true ∧
      Named (bytes "content-length") (connectionText close) = false := by
  cases close <;> decide

theorem lengths_named {body l : Bytes} (h : l ∈ lengthTexts body) :
    Named (bytes "connection") l = false ∧ Named (bytes "content-length") l = true := by
  rw [lengthTexts] at h
  split at h
  · cases h
  · obtain rfl := List.mem_singleton.mp h
    have hsplit : bytes "content-length: " = bytes "content-length" ++ bytes ": " := by
      decide
    rw [hsplit, List.append_assoc, Named, Named, nameOf_append rfl]
    decide

theorem filter_lengths (body : Bytes) :
    (lengthTexts body).filter (Named (bytes "connection")) = [] ∧
      (lengthTexts body).filter (Named (bytes "content-length")) = lengthTexts body := by
  constructor
  · rw [List.filter_eq_nil_iff]
    intro l hl
    rw [(lengths_named hl).1]
    decide
  · rw [List.filter_eq_self]
    exact fun l hl => (lengths_named hl).2

/-! ## A message that is framed -/

/-- What it takes for a message of these lines, with this behind them, to be read back. -/
theorem delimited_iff {out first rest body : Bytes} {stored lines : List Bytes} {close : Bool}
    (hout : out = unlines CR LF (first :: lines) ++ CR :: LF :: rest) (hfirst : first ≠ [])
    (hlines : ∀ l ∈ lines, l ≠ [] ∧ Plain l) :
    Delimited out first stored close body ↔ ¬ Broken CR LF first ∧ rest = body ∧
      lines.Perm (stored ++ connectionText close :: lengthTexts body) ∧
      lines.filter (Named (bytes "connection")) = [connectionText close] ∧
      lines.filter (Named (bytes "content-length")) = lengthTexts body := by
  have hframed : ¬ Broken CR LF first → Framed CR LF out (first :: lines) rest := by
    refine fun hbroken => ⟨hout, fun l hl => ?_⟩
    rcases List.mem_cons.mp hl with rfl | hl
    · exact ⟨hfirst, hbroken⟩
    · exact ⟨(hlines l hl).1, (hlines l hl).2.not_broken⟩
  constructor
  · rintro ⟨lines', hread, hlines'⟩
    -- the lines that are read are those that were written, as each has one reading
    have hbroken := (hread.plain first (List.mem_cons_self ..)).2
    obtain ⟨heq, hrest⟩ := (hframed hbroken).unique CR_ne_LF hread
    obtain rfl := (List.cons.inj heq).2
    exact ⟨hbroken, hrest, hlines'⟩
  · rintro ⟨hbroken, rfl, hlines'⟩
    exact ⟨lines, hframed hbroken, hlines'⟩

/-- The lines of headers of whose names none is one of the two. -/
def NoneNamed (stored : List Bytes) : Prop :=
  ∀ l ∈ stored, Named (bytes "connection") l = false ∧ Named (bytes "content-length") l = false

theorem noneNamed_iff {stored : List Bytes} :
    NoneNamed stored ↔ stored.filter (Named (bytes "connection")) = [] ∧
      stored.filter (Named (bytes "content-length")) = [] := by
  simp only [NoneNamed, List.filter_eq_nil_iff, Bool.not_eq_true, ← forall₂_and]

section Texts
variable {M : Type} [StdMap M] {headers : M}

/-- The lines of the headers that are written, where `text` is the line of one. -/
theorem noneNamed_texts {text : Bytes × Bytes → Bytes} (htext : ∀ e, nameOf (text e) = nameOf e.1) :
    NoneNamed (((StdMap.entries headers).filter fun e =>
      !strcasecmpEq e.1 (bytes "connection")).map text) ↔
      ∀ e ∈ StdMap.entries headers, Harmless e.1 := by
  have hnamed : ∀ name e, Named name (text e) = Named name e.1 := by
    intro name e
    rw [Named, htext, Named]
  constructor
  · intro h e he
    by_cases hconn : strcasecmpEq e.1 (bytes "connection") = true
    · exact .inl hconn
    · -- the header is written, so its name is that of a line
      have hmem := List.mem_map_of_mem (f := text)
        (List.mem_filter.mpr ⟨he, by simpa using hconn⟩ :
          e ∈ (StdMap.entries headers).filter fun e => !strcasecmpEq e.1 (bytes "connection"))
      have hline := h _ hmem
      rw [hnamed, hnamed] at hline
      exact .inr hline
  · intro h l hl
    obtain ⟨e, he, rfl⟩ := List.mem_map.mp hl
    obtain ⟨he, hconn⟩ := List.mem_filter.mp he
    rw [hnamed, hnamed]
    rcases h e he with hskip | hline
    · rw [hskip] at hconn
      cases hconn
    · exact hline

end Texts

/-! ## Responses -/

namespace HttpResponse
variable {M : Type} [StdMap M] (r : HttpResponse M)

theorem nameOf_headerText (e : Bytes × Bytes) : nameOf (headerText e) = nameOf e.1 := by
  rw [headerText, List.append_assoc]
  exact nameOf_append rfl

/-- The lines behind the status line. -/
def texts : List Bytes := r.storedTexts ++ connectionText r.close :: lengthTexts r.body

theorem dump_eq : r.dump = unlines CR LF (r.statusText :: r.texts) ++ CR :: LF :: [] := by
  have hcrlf : crlf = [CR, LF] := by decide
  have hstatus : r.statusLine = r.statusText ++ crlf := by
    simp only [statusLine, statusText, versionText, List.append_assoc]
  have hheaders : r.headerLines = unlines CR LF r.storedTexts := by
    rw [headerLines, storedTexts, unlines, List.flatMap_map, hcrlf]
    rfl
  have hconnection : r.connectionLine = connectionText r.close ++ crlf := rfl
  have hlength : r.lengthLine = unlines CR LF (lengthTexts r.body) ++ crlf := by
    rw [lengthLine, lengthTexts, hcrlf]
    by_cases hbody : r.body = []
    · rw [if_neg (not_not.mpr hbody), if_pos hbody]
      rfl
    · rw [if_pos hbody, if_neg hbody]
      simp
  rw [dump, hstatus, hheaders, hconnection, hlength, texts, hcrlf]
  simp

theorem plain_texts (h : PlainHeaders (StdMap.entries r.headers)) :
    ∀ l ∈ r.texts, l ≠ [] ∧ Plain l := by
  intro l hl
  rcases List.mem_append.mp hl with hl | hl
  · obtain ⟨e, he, rfl⟩ := List.mem_map.mp hl
    exact plain_header h (List.mem_filter.mp he).1 (by decide) (by decide)
  · rcases List.mem_cons.mp hl with rfl | hl
    · exact plain_connection r.close
    · exact plain_lengths hl

omit [StdMap M] in
theorem statusText_ne_nil : r.statusText ≠ [] := by
  have hname : bytes "HTTP/" ≠ [] := by decide
  simp [statusText, versionText, hname]

omit [StdMap M] in
theorem broken_statusText : Broken CR LF r.statusText ↔ Broken CR LF r.reason := by
  have hspace : Plain (bytes " ") := by decide
  have hfront := (((plain_version r.version).append hspace).append (plain_decimal r.status)).append
    hspace
  rw [statusText]
  by_cases hreason : r.reason = []
  · rw [if_pos hreason, hreason]
    exact iff_of_false (hfront.append (plain_status r.status)).not_broken not_broken_nil
  · rw [if_neg hreason, hfront.broken_append]

/-- **When a reader gets the response**: where it has no body, the reason has no end of line in
it, and no header that is written has the name of one of the two lines that are added. -/
theorem response_dump_iff (h : PlainHeaders (StdMap.entries r.headers)) :
    r.SelfDelimiting ↔ r.body = [] ∧ ¬ Broken CR LF r.reason ∧
      ∀ e ∈ StdMap.entries r.headers, Harmless e.1 := by
  rw [SelfDelimiting, delimited_iff r.dump_eq r.statusText_ne_nil (r.plain_texts h),
    r.broken_statusText, eq_comm (a := []), ← noneNamed_texts nameOf_headerText, ← storedTexts,
    noneNamed_iff, texts, List.filter_append, List.filter_append, List.filter_cons,
    List.filter_cons, if_pos (connection_named r.close).1,
    if_neg (by rw [(connection_named r.close).2]; decide), (filter_lengths r.body).1,
    (filter_lengths r.body).2, List.append_left_eq_self, List.append_left_eq_self]
  constructor
  · rintro ⟨hreason, hbody, -, hnone⟩
    exact ⟨hbody, hreason, hnone⟩
  · rintro ⟨hbody, hreason, hnone⟩
    exact ⟨hreason, hbody, List.Perm.refl _, hnone⟩

/-- A response with one header and no body. -/
theorem response_dump_server :
    ({ status := 404, headers := [(bytes "Server", bytes "sylar/1.0.0")] } :
      HttpResponse EntryList).SelfDelimiting := by
  refine (response_dump_iff _ ?_).mpr ⟨rfl, not_broken_nil, ?_⟩
  · decide
  · unfold Harmless
    decide

/-- A response with a body, which is announced and not written. -/
theorem response_dump_loses_body :
    ∃ r : HttpResponse EntryList, PlainHeaders (StdMap.entries r.headers) ∧
      r.body = bytes "hi" ∧ bytes "content-length: 2" ∈ r.texts ∧ ¬ r.SelfDelimiting := by
  have hplain : PlainHeaders (StdMap.entries (HeaderMap.empty : EntryList)) := plainHeaders_nil
  refine ⟨{ body := bytes "hi", headers := HeaderMap.empty }, hplain, rfl, by decide,
    fun h => ?_⟩
  have hrest := ((delimited_iff (dump_eq _) (statusText_ne_nil _) (plain_texts _ hplain)).mp h).2.1
  exact absurd hrest (by decide)

end HttpResponse

/-! ## Requests -/

namespace HttpRequest
variable {M : Type} [StdMap M] (r : HttpRequest M)

theorem nameOf_headerText (e : Bytes × Bytes) : nameOf (headerText e) = nameOf e.1 := by
  rw [headerText, List.append_assoc]
  exact nameOf_append rfl

/-- The lines of the headers that are not `connection`. -/
def writtenTexts : List Bytes :=
  ((StdMap.entries r.headers).filter fun e => !strcasecmpEq e.1 (bytes "connection")).map
    headerText

/-- The lines behind the request line. -/
def texts : List Bytes := connectionText r.close :: (r.writtenTexts ++ lengthTexts r.body)

theorem dump_eq : r.dump = unlines CR LF (r.requestLine :: r.texts) ++ CR :: LF :: r.body := by
  have hcrlf : crlf = [CR, LF] := by decide
  have hheaders : (((StdMap.entries r.headers).filter fun e =>
      !strcasecmpEq e.1 (bytes "connection")).flatMap
        fun e => e.1 ++ bytes ":" ++ e.2 ++ crlf) = unlines CR LF r.writtenTexts := by
    rw [writtenTexts, unlines, List.flatMap_map, hcrlf]
    rfl
  have hbody : (if r.body ≠ [] then
      bytes "content-length: " ++ decimal r.body.length ++ crlf ++ crlf ++ r.body else crlf) =
      unlines CR LF (lengthTexts r.body) ++ CR :: LF :: r.body := by
    rw [lengthTexts, hcrlf]
    by_cases hbody : r.body = []
    · rw [if_neg (not_not.mpr hbody), if_pos hbody, hbody]
      rfl
    · rw [if_pos hbody, if_neg hbody]
      simp
  rw [dump, hheaders, hbody, texts, hcrlf]
  simp

theorem plain_texts (h : PlainHeaders (StdMap.entries r.headers)) :
    ∀ l ∈ r.texts, l ≠ [] ∧ Plain l := by
  intro l hl
  rcases List.mem_cons.mp hl with rfl | hl
  · exact plain_connection r.close
  · rcases List.mem_append.mp hl with hl | hl
    · obtain ⟨e, he, rfl⟩ := List.mem_map.mp hl
      exact plain_header h (List.mem_filter.mp he).1 (by decide) (by decide)
    · exact plain_lengths hl

omit [StdMap M] in
theorem requestLine_ne_nil : r.requestLine ≠ [] := by
  have hspace : bytes " " ≠ [] := by decide
  simp [requestLine, hspace]

/-- A part of the request line that stands behind a mark, if there is anything in it. -/
theorem broken_marked {mark s t : Bytes} (hmark : Plain mark) (hne : mark ≠ [])
    (ht : ∀ c, t.head? = some c → c ≠ LF) :
    (Broken CR LF ((if s = [] then [] else mark) ++ s ++ t) ↔ Broken CR LF s ∨ Broken CR LF t) ∧
      ∀ c, ((if s = [] then [] else mark) ++ s ++ t).head? = some c → c ≠ LF := by
  -- an empty part has no mark, and what is behind it follows at once
  by_cases hs : s = []
  · subst hs
    exact ⟨(or_iff_right not_broken_nil).symm, ht⟩
  · rw [if_neg hs, List.append_assoc, hmark.broken_append, broken_append ht]
    refine ⟨Iff.rfl, fun c hc => ?_⟩
    cases mark with
    | nil => exact absurd rfl hne
    | cons m mark =>
      obtain rfl := Option.some.inj hc
      exact (hmark m (List.mem_cons_self ..)).2

omit [StdMap M] in
/-- The parts of the request line are set apart by characters that end no line. -/
theorem broken_requestLine : Broken CR LF r.requestLine ↔
    Broken CR LF r.path ∨ Broken CR LF r.query ∨ Broken CR LF r.fragment := by
  have hspace : Plain (bytes " ") := by decide
  have hversion : ∀ c, (bytes " " ++ versionText r.version).head? = some c → c ≠ LF := by
    intro c hc
    obtain rfl := Option.some.inj hc
    decide
  have hash : Plain (bytes "#") := by decide
  have question : Plain (bytes "?") := by decide
  -- from the end of the line to its beginning, as each part needs what is behind it
  obtain ⟨hfragment, hhash⟩ := broken_marked (s := r.fragment) hash (by decide) hversion
  obtain ⟨hquery, hmark⟩ := broken_marked (s := r.query) question (by decide) hhash
  have hparts : r.requestLine = httpMethodToString r.method ++ bytes " " ++ (r.path ++
      ((if r.query = [] then [] else bytes "?") ++ r.query ++
        ((if r.fragment = [] then [] else bytes "#") ++ r.fragment ++
          (bytes " " ++ versionText r.version)))) := by
    simp only [requestLine, List.append_assoc]
  rw [hparts, ((plain_method r.method).append hspace).broken_append,
    broken_append hmark, hquery, hfragment,
    or_iff_left (hspace.append (plain_version r.version)).not_broken]

/-- What is written is what is to be written, where no name of a header is one of the two. -/
theorem writtenTexts_eq (h : ∀ e ∈ StdMap.entries r.headers, Harmless e.1) :
    r.writtenTexts = r.storedTexts := by
  rw [writtenTexts, storedTexts]
  refine congrArg _ (List.filter_congr fun e he => ?_)
  rcases h e he with hskip | ⟨-, hname⟩
  · rw [hskip]
    rfl
  · -- a `content-length` of the map would be written under its name
    have hkey : strcasecmpEq e.1 (bytes "content-length") = false := by
      cases hkey : strcasecmpEq e.1 (bytes "content-length") with
      | false => rfl
      | true =>
        rw [named_of_strcasecmpEq (by decide) hkey] at hname
        cases hname
    rw [hkey, Bool.not_false, Bool.and_true]

/-- What it takes for the names of the two lines to be theirs alone. -/
theorem filter_texts :
    (r.texts.filter (Named (bytes "connection")) = [connectionText r.close] ∧
      r.texts.filter (Named (bytes "content-length")) = lengthTexts r.body) ↔
      ∀ e ∈ StdMap.entries r.headers, Harmless e.1 := by
  rw [← noneNamed_texts nameOf_headerText, ← writtenTexts, noneNamed_iff, texts, List.filter_cons,
    List.filter_cons, if_pos (connection_named r.close).1,
    if_neg (by rw [(connection_named r.close).2]; decide), List.filter_append,
    List.filter_append, (filter_lengths r.body).1, (filter_lengths r.body).2, List.append_nil,
    List.append_left_eq_self, List.cons_eq_cons, and_iff_right rfl]

/-- **When a reader gets the request**: where no part of the request line has an end of line in
it, and no header that is written has the name of one of the two lines that are added. -/
theorem request_dump_iff (h : PlainHeaders (StdMap.entries r.headers)) :
    r.SelfDelimiting ↔
      (¬ Broken CR LF r.path ∧ ¬ Broken CR LF r.query ∧ ¬ Broken CR LF r.fragment) ∧
        ∀ e ∈ StdMap.entries r.headers, Harmless e.1 := by
  rw [SelfDelimiting, delimited_iff r.dump_eq r.requestLine_ne_nil (r.plain_texts h),
    r.broken_requestLine, r.filter_texts, not_or, not_or]
  constructor
  · rintro ⟨hline, -, -, hnames⟩
    exact ⟨hline, hnames⟩
  · rintro ⟨hline, hnames⟩
    refine ⟨hline, rfl, ?_, hnames⟩
    rw [texts, writtenTexts_eq r hnames]
    exact List.perm_middle.symm

/-- A request with a body, and a header that is none of the two. -/
theorem request_dump_host :
    ({ method := .post, body := bytes "hi", headers := [(bytes "Host", bytes "sylar")] } :
      HttpRequest EntryList).SelfDelimiting := by
  refine (request_dump_iff _ ?_).mpr ⟨⟨?_, not_broken_nil, not_broken_nil⟩, ?_⟩
  · decide
  · exact Plain.not_broken (by decide)
  · unfold Harmless
    decide

/-- A request as the parser has it from the wire: it goes out with two lines for its length. -/
theorem parsed_request_two_lengths :
    ∃ r : HttpRequest EntryList,
      r = (HttpRequestParser.feed (.init EntryList)
        (bytes "POST / HTTP/1.1\r\nContent-Length: 2\r\n\r\nhi")).data ∧
      PlainHeaders (StdMap.entries r.headers) ∧
      r.texts = [bytes "connection: close", bytes "Content-Length:2", bytes "content-length: 2"] ∧
      ¬ r.SelfDelimiting := by
  refine ⟨_, rfl, ?_, by decide, fun h => ?_⟩
  · decide
  · have hplain : PlainHeaders (StdMap.entries (HttpRequestParser.feed (.init EntryList)
        (bytes "POST / HTTP/1.1\r\nContent-Length: 2\r\n\r\nhi")).data.headers) := by
      decide
    have hlengths := ((delimited_iff (dump_eq _) (requestLine_ne_nil _)
      (plain_texts _ hplain)).mp h).2.2.2.2
    exact absurd hlengths (by decide)

end HttpRequest

end Sylar.Http
