import Sylar.HttpHeaderWords

/-! # What is behind the headers

The empty line says what is next (`Runs.complete`, `Runs.toBody`, `Runs.toChunks`): nothing, a
body with a length, or chunks.

**`Runs.body`**: a body with a length is handed over as it is.  **`Runs.chunks`**: chunks are
handed over as what they are the pieces of, whatever the pieces are, and whatever is said about
them in front of them. -/
namespace Sylar.Http

section Bodies
variable {σ : Type} {s : Settings σ} {F : s.Calm}

theorem notify_calm (F : s.Calm) {c : Ctx σ} {n : Notice} {past : Bool} {k : Ctx σ → Flow σ} :
    c.notify s n past k = k { c with user := F.notice n c.parser c.user } := by
  unfold Ctx.notify
  rw [F.onNotice]
  exact if_pos rfl

/-! ## The empty line -/

/-- The headers ask for nothing but a message: there are no trailers, no upgrade, and not two
lengths. -/
structure HttpParser.Settled (p : HttpParser) : Prop where
  trailing : p.flags.trailing = false
  skipbody : p.flags.skipbody = false
  noUpgrade : asksUpgrade p = false
  oneLength : refusesLength p = false

/-- The user behind the headers. -/
def Settings.Calm.headed (F : s.Calm) (p : HttpParser) (u : σ) : σ :=
  F.notice .headersComplete (p.atState .headersDone (p.nread + 2)) u

/-- The user behind a message. -/
def Settings.Calm.completed (F : s.Calm) (p : HttpParser) (u : σ) : σ :=
  F.notice .messageComplete (p.atState p.newMessage 0) u

/-- The empty line, up to its last byte. -/
theorem Runs.lineEnd {c : Ctx σ} {p : HttpParser} {u : σ} (hc : c.AtLine F p u)
    (hn : p.nread + 1 ≤ maxHeaderSize) :
    Runs F c [CR] (Ctx.bare (p.atState .headersAlmostDone (p.nread + 1)) u) := by
  have hbyte : byteStep s (c.counted 1) CR =
      .next (Ctx.bare (p.atState .headersAlmostDone (p.nread + 1)) u) := by
    rw [hc.next CR (by decide) (by decide), onHeaderFieldStart, if_pos rfl]
    rfl
  exact Runs.oneByte hc.inside hc.oneByte (by rw [hc.nread]; exact hn) hbyte

theorem byteStep_headersAlmostDone {p : HttpParser} {u : σ} {n : Nat} (hp : p.Settled)
    (hup : p.upgrade = false) :
    byteStep s (Ctx.bare (p.atState .headersAlmostDone n) u) LF =
      onHeadersDone s (Ctx.bare (p.atState .headersDone n)
        (F.notice .headersComplete (p.atState .headersDone n) u)) LF := by
  have hasks : asksUpgrade (p.atState .headersAlmostDone n) = p.upgrade :=
    hp.noUpgrade.trans hup.symm
  have hrefuses : ¬ refusesLength (p.atState .headersAlmostDone n) = true := by
    rw [show refusesLength (p.atState .headersAlmostDone n) = false from hp.oneLength]
    decide
  have htrailing : ¬ (p.atState .headersAlmostDone n).flags.trailing = true := by
    rw [show (p.atState .headersAlmostDone n).flags.trailing = false from hp.trailing]
    decide
  show onHeadersAlmostDone s _ LF = _
  rw [onHeadersAlmostDone, if_neg (by decide)]
  refine (if_neg htrailing).trans ((if_neg hrefuses).trans ?_)
  dsimp only [Ctx.bare]
  rw [hasks, F.onNotice]
  rfl

theorem Runs.emptyLine {c : Ctx σ} {p q : HttpParser} {u v : σ} (hc : c.AtLine F p u)
    (hp : p.Settled) (hn : p.nread + 2 ≤ maxHeaderSize)
    (h : onHeadersDone s (Ctx.bare (p.atState .headersDone (p.nread + 2)) (F.headed p u)) LF =
      .next (Ctx.bare q v)) : Runs F c [CR, LF] (Ctx.bare q v) := by
  have hin : (Ctx.bare (p.atState .headersAlmostDone (p.nread + 1)) u).Inside F :=
    ⟨hc.inside'.unfinished, hc.inside'.noUpgrade⟩
  have hlast : Runs F (Ctx.bare (p.atState .headersAlmostDone (p.nread + 1)) u) [LF]
      (Ctx.bare q v) :=
    Runs.oneByte hin rfl hn ((byteStep_headersAlmostDone hp hc.inside'.noUpgrade).trans h)
  exact (Runs.lineEnd hc (by omega)).trans hlast

/-- What the empty line leads to, where there is no upgrade and no body is skipped. -/
theorem onHeadersDone_eq {p : HttpParser} (u : σ) (n : Nat) (hup : p.upgrade = false)
    (hskip : p.flags.skipbody = false) :
    onHeadersDone s (Ctx.bare (p.atState .headersDone n) u) LF =
      if p.flags.chunked then .next (Ctx.bare (p.atState .chunkSizeStart 0) u)
      else if p.usesTransferEncoding then
        if p.type = .request ∧ ¬ p.lenientHttpHeaders then
          .fail (Ctx.bare (p.atState .headersDone 0) u) .invalidTransferEncoding false
        else .next (Ctx.bare (p.atState .bodyIdentityEof 0) u)
      else if p.contentLength = 0 then completeMessage s (Ctx.bare (p.atState .headersDone 0) u)
      else if p.contentLength ≠ ullongMax then .next (Ctx.bare (p.atState .bodyIdentity 0) u)
      else if ¬ p.messageNeedsEof then completeMessage s (Ctx.bare (p.atState .headersDone 0) u)
      else .next (Ctx.bare (p.atState .bodyIdentityEof 0) u) := by
  have hnot : ∀ b : Bool, b = false → ¬ b = true := by
    rintro b rfl
    decide
  refine (if_neg (by decide)).trans ((if_neg fun h => hnot _ hup h.1).trans ?_)
  exact if_neg (hnot _ hskip)

theorem completeMessage_bare (F : s.Calm) (p : HttpParser) (u : σ) :
    completeMessage s (Ctx.bare (p.atState .headersDone 0) u) =
      .next (Ctx.bare (p.atState p.newMessage 0) (F.completed p u)) :=
  notify_calm F

section EmptyLine
variable {c : Ctx σ} {p : HttpParser} {u : σ} (hc : c.AtLine F p u) (hp : p.Settled)
  (hn : p.nread + 2 ≤ maxHeaderSize)
include hc hp hn

/-- The headers announce chunks. -/
theorem Runs.toChunks (hchunked : p.flags.chunked = true) :
    Runs F c [CR, LF] (Ctx.bare (p.atState .chunkSizeStart 0) (F.headed p u)) := by
  refine Runs.emptyLine hc hp hn ?_
  rw [onHeadersDone_eq (p := p) _ _ hc.inside'.noUpgrade hp.skipbody, if_pos hchunked]

/-- The headers announce a body with a length. -/
theorem Runs.toBody (hchunked : p.flags.chunked = false) (huses : p.usesTransferEncoding = false)
    (hzero : p.contentLength ≠ 0) (hmax : p.contentLength ≠ ullongMax) :
    Runs F c [CR, LF] (Ctx.bare (p.atState .bodyIdentity 0) (F.headed p u)) := by
  refine Runs.emptyLine hc hp hn ?_
  rw [onHeadersDone_eq (p := p) _ _ hc.inside'.noUpgrade hp.skipbody,
    if_neg (by rw [hchunked]; decide), if_neg (by rw [huses]; decide), if_neg hzero, if_pos hmax]

/-- The headers are all there is. -/
theorem Runs.complete (hchunked : p.flags.chunked = false) (huses : p.usesTransferEncoding = false)
    (hlen : p.contentLength = 0 ∨ p.contentLength = ullongMax ∧ p.messageNeedsEof = false) :
    Runs F c [CR, LF]
      (Ctx.bare (p.atState p.newMessage 0) (F.completed p (F.headed p u))) := by
  refine Runs.emptyLine hc hp hn ?_
  rw [onHeadersDone_eq (p := p) _ _ hc.inside'.noUpgrade hp.skipbody,
    if_neg (by rw [hchunked]; decide), if_neg (by rw [huses]; decide), completeMessage_bare F]
  rcases hlen with hzero | ⟨hmax, heof⟩
  · exact if_pos hzero
  · have hzero : p.contentLength ≠ 0 := by
      rw [hmax]
      decide
    rw [if_neg hzero, if_neg (not_not.mpr hmax), if_pos (by rw [heof]; decide)]

end EmptyLine

/-! ## A body with a length -/

/-- **A body that is as long as announced.** -/
theorem Runs.body {p : HttpParser} {u : σ} {body : Bytes} (hin : (Ctx.bare p u).Inside F)
    (hlen : p.contentLength = body.length) (hne : body ≠ []) (herr : p.httpErrno = none) :
    Runs F (Ctx.bare (p.atState .bodyIdentity 0) u) body
      (Ctx.bare ({ p with contentLength := 0 }.atState
          { p with contentLength := 0 : HttpParser }.newMessage 0)
        (F.completed { p with contentLength := 0 } (F.body body u))) := by
  have hpos : 0 < body.length := List.length_pos_of_ne_nil hne
  have hmarked : (Ctx.bare (p.atState .bodyIdentity 0) u).Marked :=
    Ctx.Clean.sized ⟨fun _ => rfl, herr⟩ (by show State.bodyIdentity ≠ .resStatus; decide)
      (by show 0 < p.contentLength; omega)
  constructor
  case goes =>
    intro rest
    have hfull : p.contentLength ≤ (body ++ rest).length := by simp [hlen]
    have hdone : onMessageDone s ((Ctx.bare (p.atState .bodyIdentity 0) u).bodyDone
        F.toFragments body) = .next (Ctx.bare ({ p with contentLength := 0 }.atState
          { p with contentLength := 0 : HttpParser }.newMessage 0)
        (F.completed { p with contentLength := 0 } (F.body body u))) := by
      refine (notify_calm F).trans ?_
      have hup : ¬ p.upgrade = true := by
        rw [show p.upgrade = false from hin.noUpgrade]
        decide
      exact if_neg hup
    rw [loop_bodyIdentity_full F.toFragments hmarked rfl hfull]
    have htake : (body ++ rest).take p.contentLength = body := by rw [hlen, List.take_left]
    have hdrop : (body ++ rest).drop p.contentLength = rest := by rw [hlen, List.drop_left]
    have hsame : (Ctx.bare (p.atState .bodyIdentity 0) u).parser.contentLength =
      p.contentLength := rfl
    rw [hsame, htake, hdrop, hdone]
    rfl
  case inside =>
    intro x y heq hy
    subst heq
    rcases eq_or_ne x [] with rfl | hx
    · exact ⟨_, rfl, hin.unfinished, hin.noUpgrade⟩
    · have hshort : x.length < p.contentLength := by
        have hypos := List.length_pos_of_ne_nil hy
        rw [hlen, List.length_append]
        omega
      exact ⟨_, loop_bodyIdentity_short rfl hx hshort, hin.unfinished, hin.noUpgrade⟩

/-! ## Chunks -/

/-- The number that some hexadecimal digits go on with. -/
def hexValue (v : Nat) (digits : Bytes) : Nat :=
  digits.foldl (fun v c => v * 16 + (unhex c).getD 0) v

theorem le_hexValue (v : Nat) (digits : Bytes) : v ≤ hexValue v digits := by
  induction digits generalizing v with
  | nil => exact le_rfl
  | cons c digits ih =>
    have hstep := ih (v * 16 + (unhex c).getD 0)
    rw [hexValue, List.foldl_cons]
    exact Nat.le_trans (by omega) hstep

/-- A chunk: its size as it is written, what is said behind the size, and the data. -/
structure Chunk where
  size : Bytes
  parameters : Bytes := []
  data : Bytes
  deriving DecidableEq

namespace Chunk

/-- The line in front of the data. -/
def line (c : Chunk) : Bytes := c.size ++ c.parameters ++ [CR, LF]

def text (c : Chunk) : Bytes := c.line ++ (c.data ++ [CR, LF])

/-- The line says how long the data is. -/
structure Valid (c : Chunk) : Prop where
  size_ne : c.size ≠ []
  size : ∀ ch ∈ c.size, unhex ch ≠ none
  value : hexValue 0 c.size = c.data.length
  small : c.data.length + 16 ≤ ullongMax
  first : ∀ ch ∈ c.parameters.head?, ch = chr ';' ∨ ch = chr ' '
  parameters : CR ∉ c.parameters
  short : c.line.length ≤ maxHeaderSize

end Chunk

/-- The rest of a size. -/
theorem Runs.sizeDigits {p : HttpParser} {u : σ} {n : Nat} {digits : Bytes}
    (hin : (Ctx.bare p u).Inside F) (h : ∀ ch ∈ digits, unhex ch ≠ none)
    (hmax : hexValue p.contentLength digits + 16 ≤ ullongMax)
    (hn : n + digits.length ≤ maxHeaderSize) :
    Runs F (Ctx.bare (p.atState .chunkSize n) u) digits
      (Ctx.bare ({ p with contentLength := hexValue p.contentLength digits }.atState .chunkSize
        (n + digits.length)) u) := by
  induction digits generalizing p n with
  | nil => exact .refl _
  | cons ch digits ih =>
    rw [List.forall_mem_cons] at h
    rw [List.length_cons] at hn ⊢
    obtain ⟨v, hv⟩ := Option.ne_none_iff_exists'.mp h.1
    have hnext : hexValue p.contentLength (ch :: digits) =
        hexValue (p.contentLength * 16 + v) digits := by
      rw [hexValue, hexValue, List.foldl_cons, hv]
      rfl
    rw [hnext] at hmax ⊢
    have hle := le_hexValue (p.contentLength * 16 + v) digits
    have hcr : ch ≠ CR := by
      rintro rfl
      exact h.1 (by decide)
    have hmod : (p.contentLength * 16 + v) % 2 ^ 64 = p.contentLength * 16 + v := by
      refine Nat.mod_eq_of_lt ?_
      rw [ullongMax] at hmax
      omega
    have hbyte : byteStep s ((Ctx.bare (p.atState .chunkSize n) u).counted 1) ch =
        .next (Ctx.bare ({ p with contentLength := p.contentLength * 16 + v }.atState .chunkSize
          (n + 1)) u) := by
      have hroom : ¬ (ullongMax - 16) / 16 < p.contentLength := by omega
      show onChunkSize _ ch = _
      rw [onChunkSize, if_neg hcr, hv]
      exact (if_neg hroom).trans (congrArg (fun k => Flow.next (Ctx.bare
        (HttpParser.atState { p with contentLength := k } .chunkSize (n + 1)) u)) hmod)
    have hin' : (Ctx.bare (p.atState .chunkSize n) u).Inside F := ⟨hin.unfinished, hin.noUpgrade⟩
    have hfirst := Runs.oneByte hin' rfl (by show n + 1 ≤ _; omega) hbyte
    have hrest := ih (p := { p with contentLength := p.contentLength * 16 + v }) (n := n + 1)
      ⟨hin.unfinished, hin.noUpgrade⟩ h.2 hmax (by omega)
    rw [show n + 1 + digits.length = n + (digits.length + 1) by omega] at hrest
    exact hfirst.trans hrest

theorem spells_parameters {parameters : Bytes} (h : CR ∉ parameters) :
    Spells s .chunkParameters ((parameters.map fun ch => (ch, .chunkParameters)) ++
      [(CR, .chunkSizeAlmostDone)]) := by
  induction parameters with
  | nil =>
    refine ⟨rfl, fun c hc => ?_, trivial⟩
    simp [byteStep, hc]
  | cons ch parameters ih =>
    rw [List.mem_cons, not_or] at h
    refine ⟨rfl, fun c hc => ?_, ih h.2⟩
    simp only [byteStep, hc]
    rw [if_neg (Ne.symm h.1)]
    exact congrArg Flow.next (Ctx.ext_marks (by rw [Ctx.goto, ← hc]) rfl fun _ => rfl)

/-- What is between a size and the end of its line. -/
theorem spells_behindSize {parameters : Bytes}
    (hfirst : ∀ ch ∈ parameters.head?, ch = chr ';' ∨ ch = chr ' ') (h : CR ∉ parameters) :
    ∃ path, path.map Prod.fst = parameters ++ [CR] ∧ Spells s .chunkSize path ∧
      landing .chunkSize path = .chunkSizeAlmostDone := by
  cases parameters with
  | nil =>
    refine ⟨[(CR, .chunkSizeAlmostDone)], rfl, ⟨rfl, fun c hc => ?_, trivial⟩, rfl⟩
    simp [byteStep, hc, onChunkSize]
  | cons ch parameters =>
    rw [List.mem_cons, not_or] at h
    refine ⟨(ch, .chunkParameters) :: ((parameters.map fun ch => (ch, .chunkParameters)) ++
      [(CR, .chunkSizeAlmostDone)]), by simp [Function.comp_def],
      ⟨rfl, fun c hc => ?_, spells_parameters h.2⟩, by simp [landing, List.getLast?_cons]⟩
    have hch := hfirst ch rfl
    have hunhex : unhex ch = none := by
      rcases hch with rfl | rfl <;> decide
    simp only [byteStep, hc, onChunkSize]
    rw [if_neg (Ne.symm h.1), hunhex]
    exact if_pos hch

/-- The line in front of the data, up to its last byte. -/
theorem Runs.sizeLine {p : HttpParser} {u : σ} (hin : (Ctx.bare p u).Inside F) {c : Chunk}
    {n : Nat} (hne : c.size ≠ []) (hsize : ∀ ch ∈ c.size, unhex ch ≠ none)
    (hvalue : hexValue 0 c.size = n) (hsmall : n + 16 ≤ ullongMax)
    (hfirst : ∀ ch ∈ c.parameters.head?, ch = chr ';' ∨ ch = chr ' ') (hcr : CR ∉ c.parameters)
    (hshort : c.line.length ≤ maxHeaderSize) :
    Runs F (Ctx.bare (p.atState .chunkSizeStart 0) u) (c.size ++ (c.parameters ++ [CR]))
      (Ctx.bare ({ p with contentLength := n }.atState .chunkSizeAlmostDone
        (c.line.length - 1)) u) := by
  obtain ⟨ch, digits, hc⟩ := List.exists_cons_of_ne_nil hne
  have hlen : c.line.length = digits.length + 1 + c.parameters.length + 2 := by
    simp only [Chunk.line, hc, List.length_append, List.length_cons, List.length_nil]
  rw [hlen] at hshort ⊢
  rw [hc] at hsize hvalue ⊢
  rw [List.forall_mem_cons] at hsize
  obtain ⟨v, hv⟩ := Option.ne_none_iff_exists'.mp hsize.1
  have hrest : hexValue v digits = n := by
    rw [← hvalue, hexValue, hexValue, List.foldl_cons, hv, Option.getD_some, Nat.zero_mul,
      Nat.zero_add]
  have hin' : (Ctx.bare (p.atState .chunkSizeStart 0) u).Inside F :=
    ⟨hin.unfinished, hin.noUpgrade⟩
  have hbyte : byteStep s ((Ctx.bare (p.atState .chunkSizeStart 0) u).counted 1) ch =
      .next (Ctx.bare ({ p with contentLength := v }.atState .chunkSize 1) u) := by
    simp only [byteStep, Ctx.bare, Ctx.counted, HttpParser.atState, hv]
  have hopen := Runs.oneByte hin' rfl (by show 0 + 1 ≤ _; omega) hbyte
  have hdigits := Runs.sizeDigits (F := F) (u := u) (p := { p with contentLength := v }) (n := 1)
    ⟨hin.unfinished, hin.noUpgrade⟩ hsize.2 (by rw [hrest]; exact hsmall) (by omega)
  obtain ⟨path, hpath, hspells, hland⟩ := spells_behindSize (s := s) hfirst hcr
  have hplen : path.length = c.parameters.length + 1 := by
    have h := congrArg List.length hpath
    simpa using h
  have hend := Runs.spells (F := F) (u := u) (p := { p with contentLength := n })
    (n := 1 + digits.length) hspells ⟨hin.unfinished, hin.noUpgrade⟩ (by omega)
  dsimp only at hdigits
  rw [hrest] at hdigits
  rw [hpath, hland, hplen] at hend
  have hsum : 1 + digits.length + (c.parameters.length + 1) =
      digits.length + 1 + c.parameters.length + 2 - 1 := by omega
  rw [hsum] at hend
  exact hopen.trans (hdigits.trans hend)

/-- The end of the line in front of some data. -/
theorem Runs.sizeEnd {p : HttpParser} {u : σ} {n : Nat} (hin : (Ctx.bare p u).Inside F)
    (hlen : p.contentLength ≠ 0) (hn : n + 1 ≤ maxHeaderSize) :
    Runs F (Ctx.bare (p.atState .chunkSizeAlmostDone n) u) [LF]
      (Ctx.bare (p.atState .chunkData 0) u) := by
  have hin' : (Ctx.bare (p.atState .chunkSizeAlmostDone n) u).Inside F :=
    ⟨hin.unfinished, hin.noUpgrade⟩
  refine Runs.oneByte (d := Ctx.bare (p.atState .chunkData 0) u) hin' rfl hn ?_
  show onChunkSizeAlmostDone s _ LF = _
  rw [onChunkSizeAlmostDone, if_neg (by decide)]
  dsimp only
  rw [if_neg (show ¬ ((Ctx.bare (p.atState .chunkSizeAlmostDone n) u).counted
    1).parser.contentLength = 0 from hlen), notify_calm F, F.chunkHeader]
  rfl

/-- The end of the line of the last chunk. -/
theorem Runs.lastEnd {p : HttpParser} {u : σ} {n : Nat} (hin : (Ctx.bare p u).Inside F)
    (hlen : p.contentLength = 0) (hn : n + 1 ≤ maxHeaderSize) :
    Runs F (Ctx.bare (p.atState .chunkSizeAlmostDone n) u) [LF]
      (Ctx.bare ({ p with flags := { p.flags with trailing := true } }.atState
        .headerFieldStart 0) u) := by
  have hin' : (Ctx.bare (p.atState .chunkSizeAlmostDone n) u).Inside F :=
    ⟨hin.unfinished, hin.noUpgrade⟩
  refine Runs.oneByte (d := Ctx.bare ({ p with
    flags := { p.flags with trailing := true } }.atState .headerFieldStart 0) u) hin' rfl hn ?_
  show onChunkSizeAlmostDone s _ LF = _
  rw [onChunkSizeAlmostDone, if_neg (by decide)]
  dsimp only
  rw [if_pos (show ((Ctx.bare (p.atState .chunkSizeAlmostDone n) u).counted 1).parser.contentLength
    = 0 from hlen), notify_calm F, F.chunkHeader]
  rfl

/-- The data of a chunk. -/
theorem Runs.chunkData {p : HttpParser} {u : σ} {data : Bytes} (hin : (Ctx.bare p u).Inside F)
    (hlen : p.contentLength = data.length) (hne : data ≠ []) (herr : p.httpErrno = none) :
    Runs F (Ctx.bare (p.atState .chunkData 0) u) data
      (Ctx.spanning .body data
        ({ p with contentLength := 0 }.atState .chunkDataAlmostDone 0) u) := by
  have hpos : 0 < data.length := List.length_pos_of_ne_nil hne
  have hmarked : (Ctx.bare (p.atState .chunkData 0) u).Marked :=
    Ctx.Clean.sized ⟨fun _ => rfl, herr⟩ (by show State.chunkData ≠ .resStatus; decide)
      (by show 0 < p.contentLength; omega)
  constructor
  case goes =>
    intro rest
    have hfull : p.contentLength ≤ (data ++ rest).length := by simp [hlen]
    have htake : (data ++ rest).take p.contentLength = data := by rw [hlen, List.take_left]
    have hdrop : (data ++ rest).drop p.contentLength = rest := by rw [hlen, List.drop_left]
    have hsame : (Ctx.bare (p.atState .chunkData 0) u).parser.contentLength =
      p.contentLength := rfl
    rw [loop_chunkData_full hmarked rfl hfull, hsame, htake, hdrop]
    rfl
  case inside =>
    intro x y heq hy
    subst heq
    rcases eq_or_ne x [] with rfl | hx
    · exact ⟨_, rfl, hin.unfinished, hin.noUpgrade⟩
    · have hshort : x.length < p.contentLength := by
        have hypos := List.length_pos_of_ne_nil hy
        rw [hlen, List.length_append]
        omega
      exact ⟨_, loop_chunkData_short rfl hx hshort, hin.unfinished, hin.noUpgrade⟩

/-- The end of the data of a chunk, which is then handed over. -/
theorem Runs.chunkEnd {p : HttpParser} {u : σ} (hin : (Ctx.bare p u).Inside F) (data : Bytes) :
    Runs F (Ctx.spanning .body data (p.atState .chunkDataAlmostDone 0) u) [CR, LF]
      (Ctx.bare (p.atState .chunkSizeStart 0) (F.body data u)) := by
  have hcr : Runs F (Ctx.spanning .body data (p.atState .chunkDataAlmostDone 0) u) [CR]
      (Ctx.bare (p.atState .chunkDataDone 0) (F.body data u)) := by
    have hspan : (Ctx.spanning .body data (p.atState .chunkDataDone 0) u).callback s .body [] true
        .next = .next (Ctx.bare (p.atState .chunkDataDone 0) (F.body data u)) := by
      refine callback_spanning ?_
      rw [List.append_nil]
      exact F.onBody ..
    have hin' : (Ctx.spanning .body data (p.atState .chunkDataAlmostDone 0) u).Inside F :=
      ⟨hin.unfinished, hin.noUpgrade⟩
    exact Runs.byte (d := Ctx.bare (p.atState .chunkDataDone 0) (F.body data u)) hin' fun tail =>
      congrArg (Prod.mk 0) hspan
  have hlf : Runs F (Ctx.bare (p.atState .chunkDataDone 0) (F.body data u)) [LF]
      (Ctx.bare (p.atState .chunkSizeStart 0) (F.body data u)) := by
    have hin' : (Ctx.bare (p.atState .chunkDataDone 0) (F.body data u)).Inside F :=
      ⟨(F.finished_body ..).trans hin.unfinished, hin.noUpgrade⟩
    refine Runs.byte (d := Ctx.bare (p.atState .chunkSizeStart 0) (F.body data u)) hin' fun tail =>
      congrArg (Prod.mk 0) ((notify_calm F).trans ?_)
    rw [F.chunkComplete]
    rfl
  exact hcr.trans hlf

/-- A chunk. -/
theorem Runs.chunk {p : HttpParser} {u : σ} {c : Chunk} (hin : (Ctx.bare p u).Inside F)
    (herr : p.httpErrno = none) (hc : c.Valid) (hne : c.data ≠ []) :
    Runs F (Ctx.bare (p.atState .chunkSizeStart 0) u) c.text
      (Ctx.bare ({ p with contentLength := 0 }.atState .chunkSizeStart 0) (F.body c.data u)) := by
  have hlen : c.line.length - 1 + 1 = c.line.length := by
    have hpos : 0 < c.line.length := by simp [Chunk.line]
    omega
  have hline := Runs.sizeLine (F := F) hin hc.size_ne hc.size hc.value hc.small hc.first
    hc.parameters hc.short
  have hend := Runs.sizeEnd (F := F) (u := u) (p := { p with contentLength := c.data.length })
    (n := c.line.length - 1) ⟨hin.unfinished, hin.noUpgrade⟩
    (List.length_pos_of_ne_nil hne).ne' (by rw [hlen]; exact hc.short)
  have hdata := Runs.chunkData (F := F) (u := u) (p := { p with contentLength := c.data.length })
    ⟨hin.unfinished, hin.noUpgrade⟩ rfl hne herr
  have hover := Runs.chunkEnd (F := F) (u := u) (p := { p with contentLength := 0 })
    ⟨hin.unfinished, hin.noUpgrade⟩ c.data
  have htext : c.text = (c.size ++ (c.parameters ++ [CR]) ++ [LF]) ++ (c.data ++ [CR, LF]) := by
    simp [Chunk.text, Chunk.line]
  rw [htext]
  exact (hline.trans hend).trans (hdata.trans hover)

/-- The user behind the data of a chunk. -/
def Settings.Calm.chunk (F : s.Calm) (u : σ) (c : Chunk) : σ := F.body c.data u

/-- Chunks with data, of whatever sizes. -/
theorem Runs.dataChunks {p : HttpParser} {u : σ} {chunks : List Chunk}
    (hin : (Ctx.bare p u).Inside F) (herr : p.httpErrno = none)
    (h : ∀ c ∈ chunks, c.Valid ∧ c.data ≠ []) :
    ∃ n, Runs F (Ctx.bare (p.atState .chunkSizeStart 0) u) (chunks.flatMap Chunk.text)
        (Ctx.bare ({ p with contentLength := n }.atState .chunkSizeStart 0)
          (chunks.foldl F.chunk u)) ∧
      F.finished (chunks.foldl F.chunk u) = false := by
  induction chunks generalizing p u with
  | nil => exact ⟨p.contentLength, .refl _, hin.unfinished⟩
  | cons c chunks ih =>
    rw [List.forall_mem_cons] at h
    have hfirst := Runs.chunk hin herr h.1.1 h.1.2
    obtain ⟨n, hrest, hfinished⟩ := ih (p := { p with contentLength := 0 }) (u := F.body c.data u)
      ⟨(F.finished_body ..).trans hin.unfinished, hin.noUpgrade⟩ herr h.2
    rw [List.flatMap_cons]
    exact ⟨n, hfirst.trans hrest, hfinished⟩

/-- The empty line behind the trailers. -/
theorem Runs.trailersEnd {c : Ctx σ} {p : HttpParser} {u : σ} (hc : c.AtLine F p u)
    (htrailing : p.flags.trailing = true) (hn : p.nread + 2 ≤ maxHeaderSize) :
    Runs F c [CR, LF] (Ctx.bare (p.atState p.newMessage (p.nread + 2))
      (F.notice .messageComplete (p.atState p.newMessage (p.nread + 2)) u)) := by
  have hin : (Ctx.bare (p.atState .headersAlmostDone (p.nread + 1)) u).Inside F :=
    ⟨hc.inside'.unfinished, hc.inside'.noUpgrade⟩
  have hup : ¬ p.upgrade = true := by
    rw [show p.upgrade = false from hc.inside'.noUpgrade]
    decide
  have hbyte : byteStep s ((Ctx.bare (p.atState .headersAlmostDone (p.nread + 1)) u).counted 1)
      LF = .next (Ctx.bare (p.atState p.newMessage (p.nread + 2))
        (F.notice .messageComplete (p.atState p.newMessage (p.nread + 2)) u)) := by
    show onHeadersAlmostDone s _ LF = _
    rw [onHeadersAlmostDone, if_neg (by decide)]
    refine (if_pos htrailing).trans ((notify_calm F).trans ?_)
    rw [F.chunkComplete]
    exact (notify_calm F).trans (if_neg hup)
  have hlast := Runs.oneByte hin rfl hn hbyte
  exact (Runs.lineEnd hc (by omega)).trans hlast

/-- The parser behind the last chunk. -/
def HttpParser.inTrailers (p : HttpParser) : HttpParser :=
  { p with contentLength := 0, flags := { p.flags with trailing := true } }

/-- A message in chunks, from the first chunk to the empty line behind the trailers. -/
def chunkedText (chunks : List Chunk) (last : Chunk) (trailers : List HeaderLine) : Bytes :=
  chunks.flatMap Chunk.text ++ (last.line ++ (trailers.flatMap HeaderLine.text ++ [CR, LF]))

/-- **A body in chunks**, however it is cut up, with anything behind the sizes, and trailers. -/
theorem Runs.chunks {p q : HttpParser} {u : σ} {chunks : List Chunk} {last : Chunk}
    {trailers : List HeaderLine} (hin : (Ctx.bare p u).Inside F) (herr : p.httpErrno = none)
    (h : ∀ c ∈ chunks, c.Valid ∧ c.data ≠ []) (hlast : last.Valid) (hempty : last.data = [])
    (htrailers : ∀ l ∈ trailers, l.Valid)
    (hq : p.inTrailers.headers trailers = some q) (htrailing : q.flags.trailing = true)
    (hn : (trailers.flatMap HeaderLine.text).length + 2 ≤ maxHeaderSize) :
    Runs F (Ctx.bare (p.atState .chunkSizeStart 0) u) (chunkedText chunks last trailers)
      (Ctx.bare (q.atState q.newMessage ((trailers.flatMap HeaderLine.text).length + 2))
        (F.notice .messageComplete
          (q.atState q.newMessage ((trailers.flatMap HeaderLine.text).length + 2))
          (trailers.foldl F.line (chunks.foldl F.chunk u)))) := by
  obtain ⟨n, hdata, hfinished⟩ := Runs.dataChunks hin herr h
  have hlen : last.line.length - 1 + 1 = last.line.length := by
    have hpos : 0 < last.line.length := by simp [Chunk.line]
    omega
  have hzero : hexValue 0 last.size = 0 := by rw [hlast.value, hempty, List.length_nil]
  have hline := Runs.sizeLine (F := F) (u := chunks.foldl F.chunk u)
    (p := { p with contentLength := n }) ⟨hfinished, hin.noUpgrade⟩ hlast.size_ne hlast.size hzero
    (by decide) hlast.first hlast.parameters hlast.short
  have hend := Runs.lastEnd (F := F) (u := chunks.foldl F.chunk u)
    (p := { p with contentLength := 0 }) (n := last.line.length - 1) ⟨hfinished, hin.noUpgrade⟩ rfl
    (by rw [hlen]; exact hlast.short)
  have hstart := Ctx.AtLine.first (F := F) (p := p.inTrailers) ⟨hfinished, hin.noUpgrade⟩ 0
  obtain ⟨d, hlines, hd⟩ := Runs.lines hstart htrailers hq (by omega)
  rw [Nat.zero_add] at hd
  have hover := Runs.trailersEnd hd htrailing hn
  have htext : chunkedText chunks last trailers = chunks.flatMap Chunk.text ++
      ((last.size ++ (last.parameters ++ [CR]) ++ [LF]) ++
        (trailers.flatMap HeaderLine.text ++ [CR, LF])) := by
    simp [chunkedText, Chunk.line]
  rw [htext]
  exact hdata.trans ((hline.trans hend).trans (hlines.trans hover))

end Bodies

end Sylar.Http
