import Sylar.HttpResume
import Sylar.Interleaving

/-! # The order of the callbacks

The users of `http_parser` fill in their messages from the callbacks, and they rely on the
order in which these come.  `Stage` says where a message is by its callbacks alone, and
`Stage.after` which callback may be next: a message begins with its start line, a header
has a name and then a value, the headers say how many bytes of body there are to be, and
the message is complete behind the last of them.

The parser keeps to it, however the bytes are cut and whatever the callbacks do
(`Settings.Follows.execute`): the callbacks of a stream are those of a run of `callbacks`, the
machine of the user, and the state of the parser tells the stage (`Ctx.Agrees`).  In such a
run a message is complete when it has the bytes that were announced (`run_settled`).
**`received_in_order`** says both of every stream. -/
namespace Sylar.Http

/-! ## What a user is told -/

/-- A callback, with what it is handed. -/
inductive Callback where
  | data (m : Mark) (p : HttpParser) (buf : Bytes)
  | notify (n : Notice) (p : HttpParser)

/-- Where a message is: in its start line, whose target or reason may have been handed over;
in the headers or in the trailer; so many bytes before its end; before the end of the
connection; between two chunks; so many bytes before the end of a chunk.  Behind an error
there is nothing. -/
inductive Stage where
  | idle
  | line (told : Bool)
  | name (late : Bool)
  | value (late : Bool)
  | rest (left : Nat)
  | untilEof
  | chunks
  | chunk (left : Nat)
  | trailer
  | stopped
  deriving DecidableEq, Repr

/-- What the bytes of a span may be.  A value that is longer than a header may be is not
looked at to its end. -/
def Mark.fits : Mark → Bytes → Prop
  | .headerField, x => ∀ ch ∈ x, token ch ≠ 0
  | .headerValue, x => x.length < maxHeaderSize → ∀ ch ∈ x, ch ≠ CR ∧ ch ≠ LF
  | .url, x => ∀ ch ∈ x, ch ≠ chr ' ' ∧ ch ≠ CR ∧ ch ≠ LF
  | .status, x => ∀ ch ∈ x, ch ≠ CR ∧ ch ≠ LF
  | .body, _ => True

instance (m : Mark) (x : Bytes) : Decidable (m.fits x) :=
  match m with
  | .headerField => inferInstanceAs (Decidable (∀ ch ∈ x, token ch ≠ 0))
  | .headerValue =>
    inferInstanceAs (Decidable (x.length < maxHeaderSize → ∀ ch ∈ x, ch ≠ CR ∧ ch ≠ LF))
  | .url => inferInstanceAs (Decidable (∀ ch ∈ x, ch ≠ chr ' ' ∧ ch ≠ CR ∧ ch ≠ LF))
  | .status => inferInstanceAs (Decidable (∀ ch ∈ x, ch ≠ CR ∧ ch ≠ LF))
  | .body => inferInstanceAs (Decidable True)

/-- How much is behind the headers. -/
def announced (p : HttpParser) : Stage :=
  let hasBody := p.flags.chunked ∨ (p.contentLength ≠ 0 ∧ p.contentLength ≠ ullongMax)
  if p.flags.skipbody ∨ (p.upgrade ∧ (p.method = .connect ∨ ¬ hasBody)) then .rest 0
  else if p.flags.chunked then .chunks
  else if p.usesTransferEncoding then .untilEof
  else if p.contentLength ≠ ullongMax then .rest p.contentLength
  else if p.messageNeedsEof then .untilEof
  else .rest 0

namespace Stage

/-- A header may begin here: in the headers, or in the trailer. -/
def fields : Stage → Option Bool
  | .line true => some false
  | .value late => some late
  | .trailer => some true
  | _ => none

/-- The stage behind the target or the reason. -/
def readLine : Stage → Option Stage
  | .line _ => some (.line true)
  | _ => none

/-- The stage behind a header name, which may be handed over in pieces. -/
def readName : Stage → Option Stage
  | .name late => some (.name late)
  | a => a.fields.map .name

/-- The stage behind a header value, which may be handed over in pieces. -/
def readValue : Stage → Option Stage
  | .name late | .value late => some (.value late)
  | _ => none

/-- The stage behind so many bytes of a body. -/
def readBody (n : Nat) : Stage → Option Stage
  | .rest left => if n ≤ left then some (.rest (left - n)) else none
  | .chunk left => if n ≤ left then some (.chunk (left - n)) else none
  | .untilEof => some .untilEof
  | _ => none

/-- The stage behind a span. -/
def read (a : Stage) : Mark → Bytes → Option Stage
  | .url, _ | .status, _ => a.readLine
  | .headerField, _ => a.readName
  | .headerValue, _ => a.readValue
  | .body, x => a.readBody x.length

/-- The stage behind a callback without data. -/
def note (a : Stage) (p : HttpParser) : Notice → Option Stage
  | .messageBegin => if a = .idle then some (.line false) else none
  | .headersComplete => if a.fields = some false then some (announced p) else none
  | .chunkHeader =>
    if a ≠ .chunks then none
    else if p.contentLength = 0 then some .trailer
    else some (.chunk p.contentLength)
  | .chunkComplete =>
    if a = .chunk 0 then some .chunks
    else if a.fields = some true then some (.rest 0)
    else none
  | .messageComplete => if a = .rest 0 ∨ a = .untilEof then some .idle else none

/-- The stage behind a callback that has returned, `none` where it may not be called.  The
value that `on_headers_complete` returns can say that there is no body. -/
def after (a : Stage) : Callback → Int → Option Stage
  | .data m _ x, ret =>
    if m.fits x then (a.read m x).map fun b => if ret = 0 then b else .stopped else none
  | .notify .headersComplete p, ret =>
    match headersCompleted p ret with
    | some q => a.note q .headersComplete
    | none => (a.note p .headersComplete).map fun _ => .stopped
  | .notify n p, ret => (a.note p n).map fun b => if ret = 0 then b else .stopped

end Stage

section Callbacks
variable {σ : Type}

/-- A call of a callback. -/
def Settings.call (s : Settings σ) (u : σ) : Callback → σ × Int
  | .data m p x => s.onData m p x u
  | .notify n p => s.onNotify n p u

/-- The callbacks follow a relation between the stages and the states of the user, as long as
they are called in order. -/
structure Settings.Follows (s : Settings σ) (R : Stage → σ → Prop) : Prop where
  call : ∀ {a b u} (call : Callback), R a u → a.after call (s.call u call).2 = some b →
    R b (s.call u call).1

/-- The machine of the user: it is called in order. -/
def callbacks (s : Settings σ) (u : σ) : Interleaving.Machine (Stage × σ) Callback where
  init st := st = (.idle, u)
  step st call := (st.1.after call (s.call st.2 call).2).map fun a => (a, (s.call st.2 call).1)

end Callbacks

theorem Mark.fits_append {m : Mark} {x y : Bytes} (hx : m.fits x) (hy : m.fits y) :
    m.fits (x ++ y) := by
  cases m with
  | body => trivial
  | headerField | url | status => exact List.forall_mem_append.mpr ⟨hx, hy⟩
  | headerValue =>
    intro hlen
    rw [List.length_append] at hlen
    exact List.forall_mem_append.mpr ⟨hx (by omega), hy (by omega)⟩

theorem Mark.fits_nil (m : Mark) : m.fits [] := by
  cases m with
  | body => trivial
  | headerField | url | status => exact List.forall_mem_nil _
  | headerValue => exact fun _ => List.forall_mem_nil _

theorem Stage.readName_eq {a : Stage} {late : Bool}
    (h : a.fields = some late ∨ a = .name late) : a.readName = some (.name late) := by
  rcases h with h | rfl
  · cases a with
    | name t => cases h
    | _ => exact congrArg (Option.map Stage.name) h
  · rfl

theorem Stage.readValue_eq {a : Stage} {late : Bool}
    (h : a = .name late ∨ a = .value late) : a.readValue = some (.value late) := by
  rcases h with rfl | rfl <;> rfl

theorem Stage.note_last {p : HttpParser} (h : p.contentLength = 0) :
    Stage.chunks.note p .chunkHeader = some .trailer := by
  simp [Stage.note, h]

theorem Stage.note_chunk {p : HttpParser} (h : p.contentLength ≠ 0) :
    Stage.chunks.note p .chunkHeader = some (.chunk p.contentLength) := by
  simp [Stage.note, h]

/-! ## What a state says of the stage -/

/-- The states by how much of the message they have seen. -/
inductive Part where
  | between
  | opening
  | text
  | opened
  | fields
  | name
  | named
  | value
  | valued
  | sizes
  | chunk
  | chunkEnd
  | chunkDone
  | identity
  | eof
  | passed
  deriving DecidableEq

/-- The part of a message that a state is in; no call ends in one that is `passed`. -/
def State.part : State → Part
  | .dead | .startReqOrRes | .startRes | .startReq => .between
  | .resOrRespH | .resH | .resHT | .resHTT | .resHTTP | .resHttpMajor | .resHttpDot
  | .resHttpMinor | .resHttpEnd | .resFirstStatusCode | .resStatusCode | .resStatusStart
  | .reqMethod | .reqSpacesBeforeUrl => .opening
  | .resStatus | .reqSchema | .reqSchemaSlash | .reqSchemaSlashSlash | .reqServerStart
  | .reqServer | .reqServerWithAt | .reqPath | .reqQueryStringStart | .reqQueryString
  | .reqFragmentStart | .reqFragment => .text
  | .resLineAlmostDone | .reqHttpStart | .reqHttpH | .reqHttpHT | .reqHttpHTT | .reqHttpHTTP
  | .reqHttpI | .reqHttpIC | .reqHttpMajor | .reqHttpDot | .reqHttpMinor | .reqHttpEnd
  | .reqLineAlmostDone => .opened
  | .headerFieldStart | .headersAlmostDone => .fields
  | .headerField => .name
  | .headerValueDiscardWs | .headerValueDiscardWsAlmostDone | .headerValueDiscardLws => .named
  | .headerValue => .value
  | .headerAlmostDone | .headerValueLws => .valued
  | .chunkSizeStart | .chunkSize | .chunkParameters | .chunkSizeAlmostDone => .sizes
  | .chunkData => .chunk
  | .chunkDataAlmostDone => .chunkEnd
  | .chunkDataDone => .chunkDone
  | .bodyIdentity => .identity
  | .bodyIdentityEof => .eof
  | .headerValueStart | .headersDone | .messageDone => .passed

/-- The stages that a part of a message stands for, where so many bytes of the body have not
been handed over yet. -/
def Part.meets (p : HttpParser) (pending : Nat) (a : Stage) : Part → Prop
  | .between => a = .idle
  | .opening => a = .line false ∧ p.flags.trailing = false
  | .text => (∃ told, a = .line told) ∧ p.flags.trailing = false
  | .opened => a = .line true ∧ p.flags.trailing = false
  | .fields => a.fields = some p.flags.trailing
  | .name => a.fields = some p.flags.trailing ∨ a = .name p.flags.trailing
  | .named => a = .name p.flags.trailing
  | .value => a = .name p.flags.trailing ∨ a = .value p.flags.trailing
  | .valued => a = .value p.flags.trailing
  | .sizes => a = .chunks
  | .chunk => a = .chunk (pending + p.contentLength)
  | .chunkEnd => a = .chunk pending
  | .chunkDone => a = .chunk 0
  | .identity => a = .rest (pending + p.contentLength)
  | .eof => a = .untilEof
  | .passed => False

section Agrees
variable {σ : Type}

/-- The bytes of the body that the next callback is to hand over. -/
def Ctx.pending (c : Ctx σ) : Nat := ((c.marks .body).getD []).length

/-- The state of the parser and the marks say where the message is. -/
structure Ctx.Agrees (c : Ctx σ) (a : Stage) : Prop where
  stage : c.parser.state.part.meets c.parser c.pending a
  spans : ∀ m, m ≠ .body → m.holds c.parser.state = true →
    ∃ span, c.marks m = some span ∧ m.fits span

/-- A user in a stage that the parser agrees with, once these bytes are behind `p`. -/
def Flow.Follows (R : Stage → σ → Prop) (seen : Bytes) : Flow σ → Prop
  | .next c => ∃ a, R a c.user ∧ (c.advance seen).Agrees a
  | .fail c _ _ => ∃ a, R a c.user
  | .exit c => R .idle c.user

variable {c : Ctx σ} {a : Stage}

@[simp] theorem Ctx.parser_advance (c : Ctx σ) (seen : Bytes) :
    (c.advance seen).parser = c.parser := rfl

theorem Ctx.pending_none (h : c.marks .body = none) : c.pending = 0 := by
  rw [pending, h]
  rfl

theorem Ctx.advance_none {m : Mark} (h : c.marks m = none) (seen : Bytes) :
    (c.advance seen).marks m = none := by
  simp [advance, h]

theorem Ctx.advance_some {m : Mark} {span : Bytes} (h : c.marks m = some span) (seen : Bytes) :
    (c.advance seen).marks m = some (span ++ seen) := by
  simp [advance, h]

/-- The states in which no span is open but that of a body. -/
def State.quiet (st : State) : Bool :=
  match st.part with
  | .text | .name | .value => false
  | _ => true

theorem State.quiet_holds {st : State} (h : st.quiet = true) {m : Mark} (hm : m ≠ .body) :
    m.holds st = false := by
  cases m with
  | body => exact absurd rfl hm
  | headerField | headerValue | url | status => cases st <;> first | rfl | cases h

theorem Ctx.agrees_quiet (hst : c.parser.state.quiet = true)
    (h : c.parser.state.part.meets c.parser c.pending a) : c.Agrees a where
  stage := h
  spans m hm hopen := by
    rw [State.quiet_holds hst hm] at hopen
    cases hopen

/-- Where one span is open, only that one counts. -/
theorem Ctx.agrees_span {m : Mark} {span : Bytes}
    (h : c.parser.state.part.meets c.parser c.pending a)
    (hst : m.holds c.parser.state = true) (hspan : c.marks m = some span) (hfits : m.fits span) :
    c.Agrees a where
  stage := h
  spans m' _ hopen := by
    obtain rfl := Mark.holds_unique hst hopen
    exact ⟨span, hspan, hfits⟩

theorem State.between_part {st : State} (h : st.betweenMessages = true) : st.part = .between := by
  cases st <;> first | rfl | cases h

theorem Ctx.agrees_between (h : c.parser.state.part = .between) : c.Agrees .idle := by
  refine agrees_quiet ?_ ?_
  · rw [State.quiet, h]
  · rw [h]
    rfl

end Agrees

/-! ## The macros -/

section Follows
variable {σ : Type} {s : Settings σ} {R : Stage → σ → Prop} {c : Ctx σ} {a b : Stage}
  {seen : Bytes}

/-- The stage behind a callback that may fail. -/
theorem Settings.Follows.data (hs : s.Follows R) (h : R a c.user) {m : Mark} {x : Bytes}
    (hfits : m.fits x) (hread : a.read m x = some b) :
    R (if (s.onData m c.parser x c.user).2 = 0 then b else .stopped)
      (s.onData m c.parser x c.user).1 := by
  refine hs.call (.data m c.parser x) h ?_
  show (if m.fits x then _ else none) = _
  rw [if_pos hfits, hread]
  rfl

theorem Settings.Follows.notified (hs : s.Follows R) (h : R a c.user) {n : Notice}
    (hn : n ≠ .headersComplete) (hnote : a.note c.parser n = some b) :
    R (if (s.onNotify n c.parser c.user).2 = 0 then b else .stopped)
      (s.onNotify n c.parser c.user).1 := by
  refine hs.call (.notify n c.parser) h ?_
  cases n with
  | headersComplete => exact absurd rfl hn
  | messageBegin | messageComplete | chunkHeader | chunkComplete =>
    simp only [Stage.after, hnote, Option.map_some]
    rfl

theorem follows_notify (hs : s.Follows R) (h : R a c.user) {n : Notice} {past : Bool}
    {k : Ctx σ → Flow σ} (hn : n ≠ .headersComplete) (hnote : a.note c.parser n = some b)
    (hk : ∀ u, R b u → (k { c with user := u }).Follows R seen) :
    (c.notify s n past k).Follows R seen := by
  have hcall := hs.notified h hn hnote
  unfold Ctx.notify
  dsimp only
  split
  · rename_i hret
    rw [if_pos hret] at hcall
    exact hk _ hcall
  · exact ⟨_, hcall⟩

theorem follows_callback (hs : s.Follows R) (h : R a c.user) {m : Mark} {span more : Bytes}
    {past : Bool} {k : Ctx σ → Flow σ} (hspan : c.marks m = some span)
    (hfits : m.fits (span ++ more)) (hread : a.read m (span ++ more) = some b)
    (hk : ∀ u, R b u →
      (k { c with user := u, marks := Function.update c.marks m none }).Follows R seen) :
    (c.callback s m more past k).Follows R seen := by
  have hcall := hs.data h hfits hread
  unfold Ctx.callback
  simp only [hspan]
  split
  · rename_i hret
    rw [if_pos hret] at hcall
    exact hk _ hcall
  · exact ⟨_, hcall⟩

theorem follows_count (h : R a c.user) {v : Nat} {k : Ctx σ → Flow σ}
    (hk : ∀ n, (k { c with parser := { c.parser with nread := n } }).Follows R seen) :
    (c.count v k).Follows R seen := by
  unfold Ctx.count
  dsimp only
  split
  · exact ⟨a, h⟩
  · exact hk _

/-- A byte behind which no span is open but that of a body. -/
theorem follows_quiet (h : R a c.user) (hst : c.parser.state.quiet = true)
    (hmeets : c.parser.state.part.meets c.parser (c.advance seen).pending a) :
    (Flow.next c).Follows R seen :=
  ⟨a, h, Ctx.agrees_quiet hst hmeets⟩

/-- A state that takes one kind of character, in the middle of a line. -/
theorem follows_expect (h : R a c.user) {ok : Bool} {e : Errno} {st : State}
    (hst : st.quiet = true) (hmeets : ∀ pending, st.part.meets c.parser pending a) :
    (c.expect ok e st).Follows R seen := by
  unfold Ctx.expect
  split
  · refine follows_quiet (c := c.goto st) h hst ?_
    have hm := hmeets ((c.goto st).advance seen).pending
    show st.part.meets { c.parser with state := st } _ a
    cases st <;> exact hm
  · exact ⟨a, h⟩

/-! ## The end of a message -/

theorem follows_between (h : R .idle c.user) (hst : c.parser.state.part = .between) :
    (Flow.next c).Follows R seen :=
  ⟨.idle, h, Ctx.agrees_between hst⟩

variable (hs : s.Follows R)
include hs

theorem onMessageDone_follows (h : R (.rest 0) c.user) : (onMessageDone s c).Follows R seen := by
  refine follows_notify hs (c := c.goto c.parser.newMessage) h (by decide) rfl fun u hu => ?_
  split
  · exact hu
  · exact follows_between hu (State.between_part (newMessage_between c.parser))

theorem completeMessage_follows (h : R (.rest 0) c.user) :
    (completeMessage s c).Follows R seen :=
  follows_notify hs (c := c.goto c.parser.newMessage) h (by decide) rfl fun _ hu =>
    follows_between hu (State.between_part (newMessage_between c.parser))

omit hs in
/-- The cases of `s_headers_done`. -/
theorem announced_cases (p : HttpParser) :
    announced p =
      if p.upgrade ∧ (p.method = .connect ∨ p.flags.skipbody ∨
          ¬ (p.flags.chunked || (0 < p.contentLength && p.contentLength ≠ ullongMax))) then .rest 0
      else if p.flags.skipbody then .rest 0
      else if p.flags.chunked then .chunks
      else if p.usesTransferEncoding then .untilEof
      else if p.contentLength = 0 then .rest 0
      else if p.contentLength ≠ ullongMax then .rest p.contentLength
      else if ¬ p.messageNeedsEof then .rest 0
      else .untilEof := by
  have hzero : (0 : Nat) ≠ ullongMax := by decide
  unfold announced
  grind

/-- What is to come behind the headers is what the user was told. -/
theorem onHeadersDone_follows (h : R (announced c.parser) c.user) (hbody : c.marks .body = none)
    (ch : UInt8) : (onHeadersDone s c ch).Follows R seen := by
  have hpending := Ctx.pending_none (c := c.advance seen) (Ctx.advance_none hbody seen)
  unfold onHeadersDone
  split
  · exact ⟨_, h⟩
  rw [announced_cases] at h
  dsimp only
  split
  · rename_i hup
    rw [if_pos hup] at h
    exact follows_notify hs (by exact h) (by decide) rfl fun _ hu => hu
  rename_i hup
  rw [if_neg hup] at h
  split
  · rename_i hskip
    rw [if_pos hskip] at h
    exact completeMessage_follows hs h
  rename_i hskip
  rw [if_neg hskip] at h
  split
  · rename_i hchunked
    rw [if_pos hchunked] at h
    exact follows_quiet (by exact h) rfl rfl
  rename_i hchunked
  rw [if_neg hchunked] at h
  split
  · rename_i huses
    rw [if_pos huses] at h
    split
    · exact ⟨_, h⟩
    · exact follows_quiet (by exact h) rfl rfl
  rename_i huses
  rw [if_neg huses] at h
  split
  · rename_i hlen
    rw [if_pos hlen] at h
    exact completeMessage_follows hs h
  rename_i hlen
  rw [if_neg hlen] at h
  split
  · rename_i hsome
    rw [if_pos hsome] at h
    refine follows_quiet (by exact h) rfl ?_
    show Stage.rest _ = .rest (Ctx.pending (c.advance seen) + c.parser.contentLength)
    rw [hpending, Nat.zero_add]
  rename_i hsome
  rw [if_neg hsome] at h
  split
  · rename_i heof
    rw [if_pos (by exact heof)] at h
    exact completeMessage_follows hs h
  · rename_i heof
    rw [if_neg (by exact heof)] at h
    exact follows_quiet (by exact h) rfl rfl

/-! ## Headers -/

theorem onHeadersAlmostDone_follows (h : R a c.user)
    (hfields : a.fields = some c.parser.flags.trailing) (hbody : c.marks .body = none)
    (ch : UInt8) : (onHeadersAlmostDone s c ch).Follows R seen := by
  unfold onHeadersAlmostDone
  split
  · exact ⟨a, h⟩
  split
  · rename_i htrailing
    rw [htrailing] at hfields
    refine follows_notify hs (b := .rest 0) (by exact h) (by decide) ?_ fun u hu =>
      onMessageDone_follows hs (by exact hu)
    have hne : a ≠ .chunk 0 := by
      rintro rfl
      cases hfields
    show (if a = .chunk 0 then _ else if a.fields = some true then _ else _) = _
    rw [if_neg hne, if_pos hfields]
  rename_i htrailing
  rw [Bool.eq_false_of_not_eq_true htrailing] at hfields
  dsimp only
  split
  · exact ⟨a, h⟩
  -- the callback is handed the parser as `s_headers_done` is to find it
  generalize hp : { c.parser with state := .headersDone, upgrade := asksUpgrade c.parser } = p
  have hcall := fun b => hs.call (b := b) (.notify .headersComplete p) h
  simp only [Stage.after, Stage.note, hfields, if_true] at hcall
  split
  · rename_i hret
    refine ⟨.stopped, hcall _ ?_⟩
    have hnone : headersCompleted p (s.call c.user (.notify .headersComplete p)).2 = none := hret
    rw [hnone]
    rfl
  · rename_i q hret
    have hsome : headersCompleted p (s.call c.user (.notify .headersComplete p)).2 = some q := hret
    refine onHeadersDone_follows hs (c := { c with parser := q, user := _ }) (hcall _ ?_) hbody ch
    rw [hsome]

omit hs in
/-- A span begins at this byte. -/
theorem follows_mark (h : R a c.user) (hclean : ∀ m, c.marks m = none) {d : Ctx σ} {m : Mark}
    (hd : d.marks = (c.mark m).marks) (hu : d.user = c.user)
    (hst : m.holds d.parser.state = true) (hfits : m.fits seen)
    (hmeets : ∀ pending, d.parser.state.part.meets d.parser pending a) :
    (Flow.next d).Follows R seen := by
  have hspan : (d.advance seen).marks m = some ([] ++ seen) := by
    refine Ctx.advance_some ?_ seen
    rw [hd, Ctx.mark_self, hclean]
    rfl
  exact ⟨a, hu ▸ h, Ctx.agrees_span (hmeets _) hst hspan hfits⟩

theorem onHeaderFieldStart_follows (h : R a c.user)
    (hfields : a.fields = some c.parser.flags.trailing) (hclean : ∀ m, c.marks m = none)
    (ch : UInt8) : (onHeaderFieldStart s c ch).Follows R [ch] := by
  unfold onHeaderFieldStart
  split
  · exact follows_quiet (by exact h) rfl hfields
  split
  · exact onHeadersAlmostDone_follows hs (by exact h) (by exact hfields) (by exact hclean .body) ch
  split
  · exact ⟨a, h⟩
  · rename_i htoken
    exact follows_mark h hclean rfl rfl rfl (List.forall_mem_singleton.mpr htoken) fun _ =>
      .inl hfields

omit hs in
theorem onHeaderValueStart_follows (h : R a c.user)
    (hph : a = .name c.parser.flags.trailing ∨ a = .value c.parser.flags.trailing)
    (hclean : ∀ m, c.marks m = none) {ch : UInt8} (hch : ch ≠ CR ∧ ch ≠ LF) :
    (onHeaderValueStart c ch).Follows R [ch] := by
  have hfits : Mark.headerValue.fits [ch] := fun _ => List.forall_mem_singleton.mpr hch
  unfold onHeaderValueStart
  dsimp only
  repeat' split
  all_goals first
    | exact ⟨a, h⟩
    | exact follows_mark h hclean rfl rfl rfl hfits fun _ => hph

omit hs in
theorem headerDoneFlags_trailing (p : HttpParser) :
    (headerDoneFlags p).trailing = p.flags.trailing := by
  unfold headerDoneFlags
  split <;> rfl

theorem onHeaderValueLws_follows (h : R (.value c.parser.flags.trailing) c.user)
    (hclean : ∀ m, c.marks m = none) (ch : UInt8) :
    (onHeaderValueLws s c ch).Follows R [ch] := by
  unfold onHeaderValueLws
  split
  · rename_i hblank
    have hch : ch ≠ CR ∧ ch ≠ LF := by rcases hblank with rfl | rfl <;> decide
    dsimp only
    split <;> exact onHeaderValueStart_follows (by exact h) (.inr rfl) (by exact hclean) hch
  · refine onHeaderFieldStart_follows hs (by exact h) ?_ (by exact hclean) ch
    show some c.parser.flags.trailing = some (headerDoneFlags c.parser).trailing
    rw [headerDoneFlags_trailing]

omit hs in
theorem onHeaderAlmostDone_follows (h : R (.value c.parser.flags.trailing) c.user) (ch : UInt8) :
    (onHeaderAlmostDone c ch).Follows R seen :=
  follows_expect h rfl fun _ => rfl

omit hs in
/-- No mark is left behind a callback for the only one. -/
theorem update_none {marks : Marks} {m : Mark} (h : ∀ m', m' ≠ m → marks m' = none) (m' : Mark) :
    Function.update marks m none m' = none := by
  rcases eq_or_ne m' m with rfl | hne
  · exact Function.update_self ..
  · exact (Function.update_of_ne hne ..).trans (h m' hne)

theorem onHeaderValueDiscardLws_follows (h : R (.name c.parser.flags.trailing) c.user)
    (hclean : ∀ m, c.marks m = none) (ch : UInt8) :
    (onHeaderValueDiscardLws s c ch).Follows R [ch] := by
  unfold onHeaderValueDiscardLws
  split
  · exact follows_quiet (by exact h) rfl rfl
  split
  · exact ⟨_, h⟩
  · -- the value is empty, and is handed over all the same
    dsimp only
    have hempty : (c.mark .headerValue).marks .headerValue = some [] := by
      rw [Ctx.mark_self, hclean]
      rfl
    refine follows_callback hs (b := .value c.parser.flags.trailing) (by exact h) (by exact hempty)
      (Mark.fits_nil _) rfl fun u hu => ?_
    refine onHeaderFieldStart_follows hs (by exact hu) ?_ (update_none fun m' hne => ?_) ch
    · show some c.parser.flags.trailing = some (headerDoneFlags c.parser).trailing
      rw [headerDoneFlags_trailing]
    · exact (Ctx.mark_of_ne _ hne).trans (hclean m')

/-! ## Start lines -/

theorem onResStatus_follows {told : Bool} {span : Bytes} (h : R (.line told) c.user)
    (hst : c.parser.state = .resStatus) (htrailing : c.parser.flags.trailing = false)
    (hspan : c.marks .status = some span) (hfits : Mark.status.fits span) (ch : UInt8) :
    (onResStatus s c ch).Follows R [ch] := by
  have hall : Mark.status.fits (span ++ []) := by rwa [List.append_nil]
  unfold onResStatus
  split
  · exact follows_callback hs (by exact h) (by exact hspan) hall rfl fun u hu =>
      follows_quiet (by exact hu) rfl ⟨rfl, htrailing⟩
  split
  · refine follows_callback hs (by exact h) (by exact hspan) hall rfl fun u hu =>
      follows_quiet (by exact hu) rfl ?_
    exact congrArg some htrailing.symm
  · rename_i hcr hlf
    refine ⟨_, h, Ctx.agrees_span ?_ ?_ (Ctx.advance_some hspan _) (Mark.fits_append hfits ?_)⟩
    · rw [Ctx.parser_advance, hst]
      exact ⟨⟨told, rfl⟩, htrailing⟩
    · rw [Ctx.parser_advance, hst]
      rfl
    · exact List.forall_mem_singleton.mpr ⟨hcr, hlf⟩

theorem onResStatusStart_follows (h : R (.line false) c.user)
    (htrailing : c.parser.flags.trailing = false) (hclean : ∀ m, c.marks m = none) (ch : UInt8) :
    (onResStatusStart s c ch).Follows R [ch] := by
  have hmark : (c.mark .status).marks .status = some [] := by
    rw [Ctx.mark_self, hclean]
    rfl
  unfold onResStatusStart
  dsimp only
  split
  · exact onResStatus_follows hs (by exact h) (by rfl) (by exact htrailing) (by exact hmark)
      (Mark.fits_nil _) ch
  · rename_i hch
    exact follows_mark h hclean rfl rfl rfl (List.forall_mem_singleton.mpr (not_or.mp hch))
      fun _ => ⟨⟨false, rfl⟩, htrailing⟩

theorem onStartReq_follows (h : R .idle c.user) (hst : c.parser.state.part = .between)
    (ch : UInt8) : (onStartReq s c ch).Follows R [ch] := by
  unfold onStartReq
  split
  · exact follows_between h hst
  dsimp only
  split
  · exact ⟨_, h⟩
  split
  · exact ⟨_, h⟩
  · exact follows_notify hs (by exact h) (by decide) rfl fun u hu =>
      follows_quiet (by exact hu) rfl ⟨rfl, rfl⟩

omit hs in
theorem onReqMethod_follows (h : R (.line false) c.user) (hst : c.parser.state = .reqMethod)
    (htrailing : c.parser.flags.trailing = false) (ch : UInt8) :
    (onReqMethod c ch).Follows R [ch] := by
  have hstay : ∀ (m : Method) (i : Nat),
      (Flow.next { c with parser := { c.parser with method := m, index := i } }).Follows R
        [ch] := by
    intro m i
    refine follows_quiet (by exact h) ?_ ?_
    · show c.parser.state.quiet = true
      rw [hst]
      rfl
    · show c.parser.state.part.meets { c.parser with method := m, index := i } _ _
      rw [hst]
      exact ⟨rfl, htrailing⟩
  unfold onReqMethod
  dsimp only
  split
  · exact ⟨_, h⟩
  split
  · exact follows_quiet (by exact h) rfl ⟨rfl, htrailing⟩
  split
  · exact hstay c.parser.method _
  split
  · split
    · exact ⟨_, h⟩
    · exact hstay _ _
  · exact ⟨_, h⟩

omit hs in
theorem parseUrlChar_fits {st : State} {ch : UInt8} (h : parseUrlChar st ch ≠ .dead) :
    Mark.url.fits [ch] := by
  refine List.forall_mem_singleton.mpr ?_
  unfold parseUrlChar at h
  split at h
  · exact absurd rfl h
  · rename_i hch
    exact ⟨fun h => hch (.inl h), fun h => hch (.inr (.inl h)), fun h => hch (.inr (.inr h))⟩

omit hs in
theorem inUrl_part {st : State} (h : st.inUrl = true) : st.part = .text := by
  cases st <;> first | rfl | cases h

omit hs in
theorem onUrlChar_follows {told : Bool} {span : Bytes} (h : R (.line told) c.user)
    (htrailing : c.parser.flags.trailing = false) (hspan : c.marks .url = some span)
    (hfits : Mark.url.fits span) (ch : UInt8) : (onUrlChar c ch).Follows R [ch] := by
  unfold onUrlChar
  dsimp only
  split
  · exact ⟨_, h⟩
  · rename_i hdead
    have hurl : (parseUrlChar c.parser.state ch).inUrl = true :=
      (parseUrlChar_inUrl _ ch).resolve_left hdead
    refine ⟨_, h, Ctx.agrees_span (m := .url) ?_ hurl (Ctx.advance_some hspan _)
      (Mark.fits_append hfits (parseUrlChar_fits hdead))⟩
    show (parseUrlChar c.parser.state ch).part.meets _ _ _
    rw [inUrl_part hurl]
    exact ⟨⟨told, rfl⟩, htrailing⟩

theorem onUrl_follows {told : Bool} {span : Bytes} (h : R (.line told) c.user)
    (htrailing : c.parser.flags.trailing = false) (hspan : c.marks .url = some span)
    (hfits : Mark.url.fits span) (ch : UInt8) : (onUrl s c ch).Follows R [ch] := by
  have hall : Mark.url.fits (span ++ []) := by rwa [List.append_nil]
  unfold onUrl
  split
  · exact follows_callback hs (by exact h) (by exact hspan) hall rfl fun u hu =>
      follows_quiet (by exact hu) rfl ⟨rfl, htrailing⟩
  split
  · -- a request of HTTP/0.9
    dsimp only
    split
    · exact follows_callback hs (by exact h) (by exact hspan) hall rfl fun u hu =>
        follows_quiet (by exact hu) rfl ⟨rfl, htrailing⟩
    · refine follows_callback hs (by exact h) (by exact hspan) hall rfl fun u hu =>
        follows_quiet (by exact hu) rfl ?_
      exact congrArg some htrailing.symm
  · exact onUrlChar_follows h htrailing hspan hfits ch

/-! ## Chunks -/

omit hs in
theorem onChunkSize_follows (h : R .chunks c.user) (hst : c.parser.state = .chunkSize)
    (ch : UInt8) : (onChunkSize c ch).Follows R [ch] := by
  unfold onChunkSize
  split
  · exact follows_quiet (by exact h) rfl rfl
  split
  · split
    · exact follows_quiet (by exact h) rfl rfl
    · exact ⟨_, h⟩
  split
  · exact ⟨_, h⟩
  · refine follows_quiet (by exact h) ?_ ?_
    · show c.parser.state.quiet = true
      rw [hst]
      rfl
    · show c.parser.state.part.meets _ _ _
      rw [hst]
      rfl

theorem onChunkSizeAlmostDone_follows (h : R .chunks c.user) (hclean : ∀ m, c.marks m = none)
    (ch : UInt8) : (onChunkSizeAlmostDone s c ch).Follows R [ch] := by
  unfold onChunkSizeAlmostDone
  split
  · exact ⟨_, h⟩
  dsimp only
  split
  · rename_i hzero
    exact follows_notify hs (by exact h) (by decide) (Stage.note_last hzero) fun u hu =>
      follows_quiet (by exact hu) (by rfl) (by rfl)
  · rename_i hzero
    have hpending := Ctx.pending_none (Ctx.advance_none (hclean .body) [ch])
    refine follows_notify hs (by exact h) (by decide) (Stage.note_chunk hzero) fun u hu =>
      follows_quiet (by exact hu) (by rfl) ?_
    show Stage.chunk _ = .chunk ((c.advance [ch]).pending + c.parser.contentLength)
    rw [hpending, Nat.zero_add]
    rfl

omit hs in
theorem onVersionDigit_follows {d : Ctx σ} (h : R a c.user)
    (hd : (Flow.next d).Follows R seen) (ch : UInt8) : (onVersionDigit c ch d).Follows R seen := by
  unfold onVersionDigit
  split
  · exact hd
  · exact ⟨a, h⟩

/-! ## One byte

A lemma for each part of a message, with a case for each of its states. -/

omit hs in
/-- No mark is set outside of a span. -/
theorem Ctx.Marked.none_of_part (h : c.Marked)
    (hpart : c.parser.state.part ∈ [Part.opening, .opened, .fields, .named, .valued, .sizes])
    (m : Mark) : c.marks m = none := by
  refine h.marks m ?_
  generalize c.parser.state = st at hpart
  cases st <;> first
    | exact absurd hpart (by decide)
    | cases m <;> rfl

theorem byteStep_between (h : R .idle c.user) (hpart : c.parser.state.part = .between)
    (ch : UInt8) : (byteStep s c ch).Follows R [ch] := by
  have hstay : (Flow.next c).Follows R [ch] := follows_between h hpart
  cases hst : c.parser.state <;> rw [hst] at hpart <;> cases hpart <;> simp only [byteStep, hst]
  case startReqOrRes =>
    split
    · exact hstay
    split
    · exact follows_notify hs (by exact h) (by decide) rfl fun u hu =>
        follows_quiet (by exact hu) rfl ⟨rfl, rfl⟩
    · exact onStartReq_follows hs (by exact h) (by rfl) ch
  case startRes =>
    split
    · exact hstay
    split
    · exact follows_notify hs (by exact h) (by decide) rfl fun u hu =>
        follows_quiet (by exact hu) rfl ⟨rfl, rfl⟩
    · exact ⟨_, h⟩
  case startReq => exact onStartReq_follows hs h (by rw [hst]; rfl) ch
  case dead =>
    split
    · exact hstay
    · exact ⟨_, h⟩

/-- The text of a start line, which is a span. -/
theorem byteStep_text (h : R a c.user) (hc : c.Agrees a) (hpart : c.parser.state.part = .text)
    (ch : UInt8) : (byteStep s c ch).Follows R [ch] := by
  have hstage := hc.stage
  rw [hpart] at hstage
  obtain ⟨⟨told, rfl⟩, htrailing⟩ := hstage
  have hspans := hc.spans
  cases hst : c.parser.state <;> rw [hst] at hpart hspans <;> cases hpart <;>
    simp only [byteStep, hst]
  case resStatus =>
    obtain ⟨span, hspan, hfits⟩ := hspans .status (by decide) rfl
    exact onResStatus_follows hs h hst htrailing hspan hfits ch
  case reqServer | reqServerWithAt | reqPath | reqQueryStringStart | reqQueryString
      | reqFragmentStart | reqFragment =>
    obtain ⟨span, hspan, hfits⟩ := hspans .url (by decide) rfl
    exact onUrl_follows hs h htrailing hspan hfits ch
  case reqSchema | reqSchemaSlash | reqSchemaSlashSlash | reqServerStart =>
    obtain ⟨span, hspan, hfits⟩ := hspans .url (by decide) rfl
    split
    · exact ⟨_, h⟩
    · exact onUrlChar_follows h htrailing hspan hfits ch

/-- A start line up to its text. -/
theorem byteStep_opening (h : R (.line false) c.user)
    (htrailing : c.parser.flags.trailing = false) (hclean : ∀ m, c.marks m = none)
    (hpart : c.parser.state.part = .opening) (ch : UInt8) : (byteStep s c ch).Follows R [ch] := by
  have hstay : (Flow.next c).Follows R [ch] :=
    follows_quiet h (by rw [State.quiet, hpart]) (by rw [hpart]; exact ⟨rfl, htrailing⟩)
  cases hst : c.parser.state <;> rw [hst] at hpart <;> cases hpart <;> simp only [byteStep, hst]
  case reqMethod => exact onReqMethod_follows h hst htrailing ch
  case resStatusStart => exact onResStatusStart_follows hs h htrailing hclean ch
  case reqSpacesBeforeUrl =>
    split
    · exact hstay
    · have hmark : (c.mark .url).marks .url = some [] := by
        rw [Ctx.mark_self, hclean]
        rfl
      split <;> exact onUrlChar_follows (by exact h) (by exact htrailing) (by exact hmark)
        (Mark.fits_nil _) ch
  case resStatusCode =>
    split
    · split
      · exact ⟨_, h⟩
      · exact follows_quiet (by exact h) rfl ⟨rfl, htrailing⟩
    split
    · exact follows_quiet (by exact h) rfl ⟨rfl, htrailing⟩
    split
    · exact onResStatusStart_follows hs (by exact h) (by exact htrailing) (by exact hclean) ch
    · exact ⟨_, h⟩
  case resFirstStatusCode =>
    split
    · exact follows_quiet (by exact h) rfl ⟨rfl, htrailing⟩
    split
    · exact hstay
    · exact ⟨_, h⟩
  case resOrRespH =>
    split
    · exact follows_quiet (by exact h) rfl ⟨rfl, htrailing⟩
    split
    · exact ⟨_, h⟩
    · exact follows_quiet (by exact h) rfl ⟨rfl, htrailing⟩
  case resHttpMajor | resHttpMinor =>
    refine onVersionDigit_follows h (follows_quiet (a := .line false) ?_ ?_ ?_) ch
    · exact h
    · rfl
    · exact ⟨rfl, htrailing⟩
  -- the others take one character of "HTTP/1.1"
  all_goals exact follows_expect h rfl fun _ => ⟨rfl, htrailing⟩

omit hs in
/-- A start line behind its text. -/
theorem byteStep_opened (h : R (.line true) c.user)
    (htrailing : c.parser.flags.trailing = false) (hpart : c.parser.state.part = .opened)
    (ch : UInt8) : (byteStep s c ch).Follows R [ch] := by
  have hstay : (Flow.next c).Follows R [ch] :=
    follows_quiet h (by rw [State.quiet, hpart]) (by rw [hpart]; exact ⟨rfl, htrailing⟩)
  have hfields : (Stage.line true).fields = some c.parser.flags.trailing :=
    congrArg some htrailing.symm
  cases hst : c.parser.state <;> rw [hst] at hpart <;> cases hpart <;> simp only [byteStep, hst]
  case reqHttpStart =>
    split
    · exact hstay
    split
    · exact follows_quiet (by exact h) rfl ⟨rfl, htrailing⟩
    split
    · exact follows_quiet (by exact h) rfl ⟨rfl, htrailing⟩
    · exact ⟨_, h⟩
  case reqHttpMajor | reqHttpMinor =>
    refine onVersionDigit_follows h (follows_quiet (a := .line true) ?_ ?_ ?_) ch
    · exact h
    · rfl
    · exact ⟨rfl, htrailing⟩
  case reqHttpEnd =>
    split
    · exact follows_quiet (by exact h) rfl ⟨rfl, htrailing⟩
    split
    · exact follows_quiet (by exact h) rfl hfields
    · exact ⟨_, h⟩
  case reqLineAlmostDone | resLineAlmostDone => exact follows_expect h rfl fun _ => hfields
  all_goals exact follows_expect h rfl fun _ => ⟨rfl, htrailing⟩

/-- Between the name of a header and its value. -/
theorem byteStep_named (h : R (.name c.parser.flags.trailing) c.user)
    (hclean : ∀ m, c.marks m = none) (hpart : c.parser.state.part = .named) (ch : UInt8) :
    (byteStep s c ch).Follows R [ch] := by
  have hstay : (Flow.next c).Follows R [ch] :=
    follows_quiet h (by rw [State.quiet, hpart]) (by rw [hpart]; rfl)
  cases hst : c.parser.state <;> rw [hst] at hpart <;> cases hpart <;> simp only [byteStep, hst]
  case headerValueDiscardWs =>
    split
    · exact hstay
    split
    · exact follows_quiet (by exact h) rfl rfl
    split
    · exact follows_quiet (by exact h) rfl rfl
    · rename_i hcr hlf
      exact onHeaderValueStart_follows h (.inl rfl) hclean ⟨hcr, hlf⟩
  case headerValueDiscardWsAlmostDone => exact follows_expect h rfl fun _ => rfl
  case headerValueDiscardLws => exact onHeaderValueDiscardLws_follows hs h hclean ch

theorem byteStep_fields (h : R a c.user) (ha : a.fields = some c.parser.flags.trailing)
    (hclean : ∀ m, c.marks m = none) (hpart : c.parser.state.part = .fields) (ch : UInt8) :
    (byteStep s c ch).Follows R [ch] := by
  cases hst : c.parser.state <;> rw [hst] at hpart <;> cases hpart <;> simp only [byteStep, hst]
  case headerFieldStart => exact onHeaderFieldStart_follows hs h ha hclean ch
  case headersAlmostDone => exact onHeadersAlmostDone_follows hs h ha (hclean .body) ch

theorem byteStep_valued (h : R (.value c.parser.flags.trailing) c.user)
    (hclean : ∀ m, c.marks m = none) (hpart : c.parser.state.part = .valued) (ch : UInt8) :
    (byteStep s c ch).Follows R [ch] := by
  cases hst : c.parser.state <;> rw [hst] at hpart <;> cases hpart <;> simp only [byteStep, hst]
  case headerAlmostDone => exact onHeaderAlmostDone_follows h ch
  case headerValueLws => exact onHeaderValueLws_follows hs h hclean ch

/-- The line in front of a chunk. -/
theorem byteStep_sizes (h : R .chunks c.user) (hclean : ∀ m, c.marks m = none)
    (hpart : c.parser.state.part = .sizes) (ch : UInt8) : (byteStep s c ch).Follows R [ch] := by
  have hstay : (Flow.next c).Follows R [ch] :=
    follows_quiet h (by rw [State.quiet, hpart]) (by rw [hpart]; rfl)
  cases hst : c.parser.state <;> rw [hst] at hpart <;> cases hpart <;> simp only [byteStep, hst]
  case chunkSizeStart =>
    split
    · exact ⟨_, h⟩
    · exact follows_quiet (by exact h) rfl rfl
  case chunkSize => exact onChunkSize_follows h hst ch
  case chunkParameters =>
    split
    · exact follows_quiet (by exact h) rfl rfl
    · exact hstay
  case chunkSizeAlmostDone => exact onChunkSizeAlmostDone_follows hs h hclean ch

/-- Behind the data of a chunk: what is pending of it is handed over. -/
theorem byteStep_chunkEnd (h : R (.chunk c.pending) c.user)
    (hpart : c.parser.state.part = .chunkEnd) (ch : UInt8) :
    (byteStep s c ch).Follows R [ch] := by
  cases hst : c.parser.state <;> rw [hst] at hpart <;> cases hpart
  simp only [byteStep, hst]
  split
  · exact ⟨_, h⟩
  cases hspan : c.marks .body with
  | none =>
    have hpending : c.pending = 0 := Ctx.pending_none hspan
    have hnone : (c.goto .chunkDataDone).callback s .body [] true .next =
        .next (c.goto .chunkDataDone) := by
      unfold Ctx.callback
      have hmark : (c.goto .chunkDataDone).marks .body = none := hspan
      rw [hmark]
    rw [hnone]
    exact follows_quiet (by exact h) rfl (congrArg Stage.chunk hpending)
  | some span =>
    have hpending : c.pending = span.length := by rw [Ctx.pending, hspan]; rfl
    refine follows_callback hs (b := .chunk 0) (by exact h) (by exact hspan) trivial ?_
      fun u hu => follows_quiet (by exact hu) rfl rfl
    rw [hpending]
    simp [Stage.read, Stage.readBody]

theorem byteStep_chunkDone (h : R (.chunk 0) c.user) (hpart : c.parser.state.part = .chunkDone)
    (ch : UInt8) : (byteStep s c ch).Follows R [ch] := by
  cases hst : c.parser.state <;> rw [hst] at hpart <;> cases hpart
  simp only [byteStep, hst]
  split
  · exact ⟨_, h⟩
  · exact follows_notify hs (by exact h) (by decide) rfl fun u hu =>
      follows_quiet (by exact hu) rfl rfl

/-- **A byte is behind the callbacks that it allows.** -/
theorem byteStep_follows (h : R a c.user) (hc : c.Agrees a) (hm : c.Marked) (ch : UInt8) :
    (byteStep s c ch).Follows R [ch] := by
  have hstage := hc.stage
  have hclean := hm.none_of_part
  cases hpart : c.parser.state.part <;> rw [hpart] at hstage hclean
  case between =>
    obtain rfl := hstage
    exact byteStep_between hs h hpart ch
  case text => exact byteStep_text hs h hc hpart ch
  case opening =>
    obtain ⟨rfl, htrailing⟩ := hstage
    exact byteStep_opening hs h htrailing (hclean (by decide)) hpart ch
  case opened =>
    obtain ⟨rfl, htrailing⟩ := hstage
    exact byteStep_opened h htrailing hpart ch
  case fields => exact byteStep_fields hs h hstage (hclean (by decide)) hpart ch
  case named =>
    obtain rfl := hstage
    exact byteStep_named hs h (hclean (by decide)) hpart ch
  case valued =>
    obtain rfl := hstage
    exact byteStep_valued hs h (hclean (by decide)) hpart ch
  case sizes =>
    obtain rfl := hstage
    exact byteStep_sizes hs h (hclean (by decide)) hpart ch
  case chunkEnd =>
    obtain rfl := hstage
    exact byteStep_chunkEnd hs h hpart ch
  case chunkDone =>
    obtain rfl := hstage
    exact byteStep_chunkDone hs h hpart ch
  case passed => exact hstage.elim
  case name | value | chunk | identity | eof =>
    -- these states have a loop of their own
    cases hst : c.parser.state <;> rw [hst] at hpart <;> cases hpart
    simp only [byteStep, hst]
    exact ⟨_, h⟩

/-! ## Names, values and bodies -/

omit hs in
theorem fieldLoop_fits (p : HttpParser) (buf : Bytes) :
    (p.fieldLoop buf).2.1 ≤ buf.length ∧
      Mark.headerField.fits (buf.take (p.fieldLoop buf).2.1) := by
  induction buf generalizing p with
  | nil => exact ⟨le_rfl, Mark.fits_nil _⟩
  | cons ch rest ih =>
    rw [HttpParser.fieldLoop]
    split
    · exact ⟨Nat.zero_le _, Mark.fits_nil _⟩
    · rename_i htoken
      obtain ⟨hle, hfits⟩ := ih (p.fieldChar ch)
      exact ⟨Nat.succ_le_succ hle, List.forall_mem_cons.mpr ⟨htoken, hfits⟩⟩

omit hs in
/-- Without a character that ends it the name goes on to the end of the buffer. -/
theorem fieldLoop_ran (p : HttpParser) (buf : Bytes) (h : (p.fieldLoop buf).2.2 = none) :
    (p.fieldLoop buf).2.1 = buf.length := by
  induction buf generalizing p with
  | nil => rfl
  | cons ch rest ih =>
    rw [HttpParser.fieldLoop] at h ⊢
    split at h
    · cases h
    · rename_i htoken
      rw [if_neg htoken]
      exact congrArg (· + 1) (ih _ h)

theorem headerFieldRun_follows (h : R a c.user) (hc : c.Agrees a)
    (hst : c.parser.state = .headerField) {buf : Bytes} (hbuf : buf ≠ []) :
    (headerFieldRun s c buf).2.Follows R (buf.take ((headerFieldRun s c buf).1 + 1)) := by
  have hstage := hc.stage
  obtain ⟨span, hspan, hfits⟩ := hc.spans .headerField (by decide) (by rw [hst]; rfl)
  rw [hst] at hstage
  have hsame := c.parser.fieldLoop_same buf
  have hname := (fieldLoop_fits c.parser buf).2
  have hran := fieldLoop_ran c.parser buf
  unfold headerFieldRun
  rcases hloop : c.parser.fieldLoop buf with ⟨q, n, stop⟩
  rw [hloop] at hsame hname hran
  have htrailing : q.flags.trailing = c.parser.flags.trailing := hsame.trailing
  have hstate : q.state = .headerField := hsame.state.trans hst
  cases stop with
  | none =>
    have hn : n - 1 + 1 = n := by
      have hlen : n = buf.length := hran rfl
      have hpos := List.length_pos_iff.mpr hbuf
      omega
    refine follows_count (by exact h) fun nread => ⟨a, h, ?_⟩
    refine Ctx.agrees_span (m := .headerField) ?_ ?_ (Ctx.advance_some hspan _)
      (Mark.fits_append hfits ?_)
    · show q.state.part.meets { q with nread := nread } _ a
      rw [hstate]
      show a.fields = some q.flags.trailing ∨ a = .name q.flags.trailing
      rw [htrailing]
      exact hstage
    · show Mark.headerField.holds q.state = true
      rw [hstate]
      rfl
    · rw [hn]
      exact hname
  | some ch =>
    dsimp only
    refine follows_count (by exact h) fun nread => ?_
    split
    · refine follows_callback hs (by exact h) (by exact hspan) (Mark.fits_append hfits hname)
        (Stage.readName_eq hstage) fun u hu => follows_quiet (by exact hu) rfl ?_
      show Stage.name _ = .name q.flags.trailing
      rw [htrailing]
    · exact ⟨a, h⟩

omit hs in
/-- A byte of a value is looked at unless the run in `h_general` is over. -/
theorem valueByte_fits {p q : HttpParser} {hs hs' : HeaderState} {run run' : Option Nat}
    {ch : UInt8} (hgo : p.valueByte hs run ch = .go q hs' run') (hrun : run ≠ some 0) :
    (ch ≠ CR ∧ ch ≠ LF) ∧ run.getD maxHeaderSize ≤ run'.getD maxHeaderSize + 1 := by
  unfold HttpParser.valueByte at hgo
  rw [if_neg hrun] at hgo
  split at hgo
  · cases hgo
  rename_i hcr
  split at hgo
  · cases hgo
  rename_i hlf
  refine ⟨⟨hcr, hlf⟩, ?_⟩
  split at hgo
  · cases hgo
  split at hgo
  · cases hgo
    simp only [Option.getD_some]
    omega
  split at hgo
  · cases hgo
    simp only [Option.getD_none, Option.getD_some]
    omega
  split at hgo <;> cases hgo
  exact Nat.le_succ _

omit hs in
/-- The bytes of a value are looked at for as long as a header may be. -/
theorem valueLoop_fits (p : HttpParser) (hs : HeaderState) (run : Option Nat) (buf : Bytes)
    (hrun : (p.valueLoop hs run buf).2.2.1 ≤ run.getD maxHeaderSize) :
    ∀ ch ∈ buf.take (p.valueLoop hs run buf).2.2.1, ch ≠ CR ∧ ch ≠ LF := by
  induction buf generalizing p hs run with
  | nil => exact fun _ hch => absurd hch (by simp [HttpParser.valueLoop])
  | cons ch rest ih =>
    rw [HttpParser.valueLoop] at hrun ⊢
    cases hbyte : p.valueByte hs run ch with
    | stop q hs' stop => exact fun _ hch => absurd hch (by simp)
    | go q hs' run' =>
      simp only [hbyte] at hrun ⊢
      have hne : run ≠ some 0 := by
        rintro rfl
        exact absurd hrun (by simp)
      obtain ⟨hch, hle⟩ := valueByte_fits hbyte hne
      have hrest : (q.valueLoop hs' run' rest).2.2.1 + 1 ≤ run.getD maxHeaderSize := hrun
      exact List.forall_mem_cons.mpr ⟨hch, ih q hs' run' (by omega)⟩

omit hs in
/-- Without a line end the value goes on to the end of the buffer. -/
theorem valueLoop_ran (p : HttpParser) (hs : HeaderState) (run : Option Nat) (buf : Bytes)
    (h : (p.valueLoop hs run buf).2.2.2 = .ran) : (p.valueLoop hs run buf).2.2.1 = buf.length := by
  induction buf generalizing p hs run with
  | nil => rfl
  | cons ch rest ih =>
    rw [HttpParser.valueLoop] at h ⊢
    cases hbyte : p.valueByte hs run ch with
    | stop q hs' stop =>
      -- the loop leaves at this byte for a reason of its own
      simp only [hbyte] at h
      subst h
      exact absurd hbyte (by
        unfold HttpParser.valueByte
        grind)
    | go q hs' run' =>
      simp only [hbyte] at h ⊢
      exact congrArg (· + 1) (ih q hs' run' h)

omit hs in
theorem valueLoop_le (p : HttpParser) (hs : HeaderState) (run : Option Nat) (buf : Bytes) :
    (p.valueLoop hs run buf).2.2.1 ≤ buf.length := by
  induction buf generalizing p hs run with
  | nil => exact le_rfl
  | cons ch rest ih =>
    rw [HttpParser.valueLoop]
    cases p.valueByte hs run ch with
    | stop q hs' stop => exact Nat.zero_le _
    | go q hs' run' => exact Nat.succ_le_succ (ih q hs' run')

theorem headerValueRun_follows (h : R a c.user) (hc : c.Agrees a)
    (hst : c.parser.state = .headerValue) {buf : Bytes} (hbuf : buf ≠ []) :
    (headerValueRun s c buf).2.Follows R (buf.take ((headerValueRun s c buf).1 + 1)) := by
  have hstage := hc.stage
  obtain ⟨span, hspan, hfits⟩ := hc.spans .headerValue (by decide) (by rw [hst]; rfl)
  rw [hst] at hstage
  have hsame := c.parser.valueLoop_same c.parser.headerState none buf
  have hvalue := valueLoop_fits c.parser c.parser.headerState none buf
  have hran := valueLoop_ran c.parser c.parser.headerState none buf
  unfold headerValueRun
  rcases hloop : c.parser.valueLoop c.parser.headerState none buf with ⟨q, hs', n, stop⟩
  have hle := valueLoop_le c.parser c.parser.headerState none buf
  rw [hloop] at hsame hvalue hran hle
  have htrailing : q.flags.trailing = c.parser.flags.trailing := hsame.trailing
  have hstate : q.state = .headerValue := hsame.state.trans hst
  have hpiece : Mark.headerValue.fits (buf.take n) := by
    intro hlen
    rw [List.length_take, min_eq_left hle] at hlen
    exact hvalue hlen.le
  have hread := Stage.readValue_eq hstage
  dsimp only
  cases stop with
  | ran =>
    have hn : n - 1 + 1 = n := by
      have hlen : n = buf.length := hran rfl
      have hpos := List.length_pos_iff.mpr hbuf
      omega
    refine follows_count (by exact h) fun nread => ⟨a, h, ?_⟩
    refine Ctx.agrees_span (m := .headerValue) ?_ ?_ (Ctx.advance_some hspan _)
      (Mark.fits_append hfits ?_)
    · show q.state.part.meets { q with nread := nread, headerState := hs' } _ a
      rw [hstate]
      show a = .name q.flags.trailing ∨ a = .value q.flags.trailing
      rw [htrailing]
      exact hstage
    · show Mark.headerValue.holds q.state = true
      rw [hstate]
      rfl
    · rw [hn]
      exact hpiece
  | cr =>
    dsimp only
    refine follows_callback hs (by exact h) (by exact hspan) (Mark.fits_append hfits hpiece) hread
      fun u hu => ?_
    refine follows_count (by exact hu) fun nread => ?_
    refine follows_quiet (by exact hu) rfl ?_
    show Stage.value _ = .value q.flags.trailing
    rw [htrailing]
  | lf =>
    dsimp only
    refine follows_count (by exact h) fun nread => ?_
    refine follows_callback hs (by exact h) (by exact hspan) (Mark.fits_append hfits hpiece) hread
      fun u hu => ?_
    refine onHeaderAlmostDone_follows ?_ LF
    rw [← htrailing] at hu
    exact hu
  | bad e => exact ⟨a, h⟩

omit hs in
/-- The bytes of a body that a mark has seen, with those that a loop passes over. -/
theorem length_taken (c : Ctx σ) (buf : Bytes) {n : Nat} (hn : n ≤ buf.length) :
    ((c.marks .body).getD [] ++ buf.take n).length = c.pending + n := by
  rw [List.length_append, List.length_take, min_eq_left hn]
  rfl

omit hs in
/-- The mark of a body behind such a loop. -/
theorem pending_taken {d : Ctx σ} (hd : d.marks = (c.mark .body).marks) {buf : Bytes} {n : Nat}
    (hn : n ≤ buf.length) : (d.advance (buf.take n)).pending = c.pending + n := by
  have hspan : (d.advance (buf.take n)).marks .body =
      some ((c.marks .body).getD [] ++ buf.take n) := by
    refine Ctx.advance_some ?_ _
    rw [hd, Ctx.mark_self]
  rw [Ctx.pending, hspan]
  exact length_taken c buf hn

omit hs in
/-- The body goes on behind such a loop. -/
theorem follows_body {d : Ctx σ} (h : R b d.user) (hd : d.marks = (c.mark .body).marks)
    {buf : Bytes} {n : Nat} (hn : n ≤ buf.length) (hst : d.parser.state.quiet = true)
    (hmeets : d.parser.state.part.meets d.parser (c.pending + n) b) :
    (Flow.next d).Follows R (buf.take n) := by
  refine follows_quiet h hst ?_
  rw [pending_taken hd hn]
  exact hmeets

theorem bodyIdentityRun_follows (h : R a c.user) (hc : c.Agrees a) (hm : c.Marked)
    (hst : c.parser.state = .bodyIdentity) {buf : Bytes} (hbuf : buf ≠ []) :
    (bodyIdentityRun s c buf).2.Follows R (buf.take ((bodyIdentityRun s c buf).1 + 1)) := by
  have hstage := hc.stage
  rw [hst] at hstage
  obtain rfl := hstage
  have hlen := hm.data (.inl hst)
  have hpos := List.length_pos_iff.mpr hbuf
  unfold bodyIdentityRun
  dsimp only
  generalize hn : min c.parser.contentLength buf.length = n
  have hle : n ≤ buf.length := by omega
  split
  · refine follows_callback hs (b := .rest 0) (by exact h) (by exact c.mark_self .body) trivial ?_
      fun u hu => onMessageDone_follows hs (by exact hu)
    simp only [Stage.read, Stage.readBody, length_taken c buf hle]
    rw [if_pos (by omega)]
    congr 2
    omega
  · rename_i hleft
    rw [show n - 1 + 1 = n by omega]
    refine follows_body (c := c) (b := .rest (c.pending + c.parser.contentLength)) ?_ ?_ hle
      ?_ ?_
    · exact h
    · rfl
    · show c.parser.state.quiet = true
      rw [hst]
      rfl
    · show c.parser.state.part.meets _ _ _
      rw [hst]
      show Stage.rest _ = .rest (c.pending + n + (c.parser.contentLength - n))
      congr 1
      omega

omit hs in
theorem bodyIdentityEofRun_follows (h : R a c.user) (hc : c.Agrees a)
    (hst : c.parser.state = .bodyIdentityEof) (buf : Bytes) :
    (bodyIdentityEofRun c buf).2.Follows R seen := by
  have hstage := hc.stage
  rw [hst] at hstage
  refine follows_quiet (c := c.mark .body) h ?_ ?_
  · rw [Ctx.parser_mark, hst]
    rfl
  · rw [Ctx.parser_mark, hst]
    exact hstage

omit hs in
theorem chunkDataRun_follows (h : R a c.user) (hc : c.Agrees a) (hm : c.Marked)
    (hst : c.parser.state = .chunkData) {buf : Bytes} (hbuf : buf ≠ []) :
    (chunkDataRun c buf).2.Follows R (buf.take ((chunkDataRun c buf).1 + 1)) := by
  have hstage := hc.stage
  rw [hst] at hstage
  obtain rfl := hstage
  have hlen := hm.data (.inr hst)
  have hpos := List.length_pos_iff.mpr hbuf
  unfold chunkDataRun
  dsimp only
  generalize hn : min c.parser.contentLength buf.length = n
  have hle : n ≤ buf.length := by omega
  rw [show n - 1 + 1 = n by omega]
  split
  · refine follows_body (c := c) (b := .chunk (c.pending + c.parser.contentLength)) ?_ ?_ hle
      ?_ ?_
    · exact h
    · rfl
    · rfl
    · show Stage.chunk _ = .chunk (c.pending + n)
      congr 1
      omega
  · refine follows_body (c := c) (b := .chunk (c.pending + c.parser.contentLength)) ?_ ?_ hle
      ?_ ?_
    · exact h
    · rfl
    · show c.parser.state.quiet = true
      rw [hst]
      rfl
    · show c.parser.state.part.meets _ _ _
      rw [hst]
      show Stage.chunk _ = .chunk (c.pending + n + (c.parser.contentLength - n))
      congr 1
      omega

/-! ## Calls -/

theorem step_follows (h : R a c.user) (hc : c.Agrees a) (hm : c.Marked) (ch : UInt8)
    (tail : Bytes) :
    (step s c ch tail).2.Follows R ((ch :: tail).take ((step s c ch tail).1 + 1)) := by
  have hne : ch :: tail ≠ [] := List.cons_ne_nil _ _
  unfold step
  split
  · exact headerFieldRun_follows hs h hc ‹_› hne
  · exact headerValueRun_follows hs h hc ‹_› hne
  · exact bodyIdentityRun_follows hs h hc hm ‹_› hne
  · exact bodyIdentityEofRun_follows h hc ‹_› _
  · exact chunkDataRun_follows h hc hm ‹_› hne
  · exact byteStep_follows hs h hc hm ch

omit hs in
/-- The counter of the header's bytes says nothing of the stage. -/
theorem Ctx.Agrees.counted (hc : c.Agrees a) (n : Nat) :
    Ctx.Agrees { c with parser := { c.parser with nread := n } } a where
  stage := by
    have hstage := hc.stage
    show c.parser.state.part.meets _ c.pending a
    cases hpart : c.parser.state.part <;> rw [hpart] at hstage <;> exact hstage
  spans := hc.spans

theorem iteration_follows (h : R a c.user) (hc : c.Agrees a) (hm : c.Marked) (ch : UInt8)
    (tail : Bytes) :
    (iteration s c ch tail).2.Follows R ((ch :: tail).take ((iteration s c ch tail).1 + 1)) := by
  unfold iteration
  dsimp only
  split
  · split
    · exact ⟨a, h⟩
    · refine step_follows hs ?_ (hc.counted _) (hm.same ?_ ?_ ?_ ?_) ch tail
      · exact h
      all_goals first | rfl | exact fun _ => rfl
  · exact step_follows hs h hc hm ch tail

end Follows

section Calls
variable {σ : Type} {s : Settings σ} {R : Stage → σ → Prop} {c : Ctx σ} {a : Stage}

/-- Where the user is when a call has left its loop. -/
def Outcome.Follows (R : Stage → σ → Prop) : Outcome σ → Prop
  | .ran c => ∃ a, R a c.user ∧ c.Agrees a
  | .left c _ => (∃ a, R a c.user) ∧ (c.parser.httpErrno = none → R .idle c.user)

theorem loop_follows (hs : s.Follows R) (h : R a c.user) (hc : c.Agrees a) (hm : c.Marked)
    (skip : Nat) (buf : Bytes) : (loop s skip c buf).Follows R := by
  induction buf generalizing skip c a with
  | nil =>
    rw [loop]
    exact ⟨a, h, hc⟩
  | cons ch tail ih =>
    cases skip with
    | succ skip => exact ih h hc hm skip
    | zero =>
      have hfollows := iteration_follows hs h hc hm ch tail
      have hsound := iteration_sound (s := s) hm ch tail
      rw [loop]
      rcases hiter : iteration s c ch tail with ⟨k, d | ⟨d, e, past⟩ | d⟩
      all_goals rw [hiter] at hfollows hsound
      · obtain ⟨b, hb, hagrees⟩ := hfollows
        exact ih (c := d.advance _) hb hagrees (Ctx.Marked.advance hsound _) k
      · exact ⟨hfollows, fun hnone => by cases hnone⟩
      · exact ⟨⟨_, hfollows⟩, fun _ => hfollows⟩

/-! ## The end of a buffer -/

/-- The spans that are still open belong to the state, and the stage counts with them. -/
structure Ctx.Closing (c : Ctx σ) (a : Stage) : Prop where
  stage : c.parser.state.part.meets c.parser c.pending a
  spans : ∀ {m span}, c.marks m = some span → m.fits span ∧ m.holds c.parser.state = true

theorem Ctx.Agrees.closing (hc : c.Agrees a) (hm : c.Marked) : c.Closing a where
  stage := hc.stage
  spans {m span} hspan := by
    have hst : m.holds c.parser.state = true := by
      by_contra hno
      rw [hm.marks m (Bool.eq_false_of_not_eq_true hno)] at hspan
      cases hspan
    refine ⟨?_, hst⟩
    by_cases hbody : m = .body
    · subst hbody
      trivial
    · obtain ⟨span', hspan', hfits⟩ := hc.spans m hbody hst
      obtain rfl := Option.some.inj (hspan.symm.trans hspan')
      exact hfits

/-- A span that is handed over where a buffer ends leaves the state where it was. -/
theorem Ctx.Closing.read (hc : c.Closing a) {m : Mark} {span : Bytes}
    (hspan : c.marks m = some span) :
    ∃ b, a.read m span = some b ∧ c.parser.state.part.meets c.parser
      (Ctx.pending { c with marks := Function.update c.marks m none }) b := by
  obtain ⟨-, hst⟩ := hc.spans hspan
  have hstage := hc.stage
  cases m with
  | headerField =>
    have hstate : c.parser.state = .headerField := by simpa [Mark.holds] using hst
    rw [hstate] at hstage ⊢
    exact ⟨_, Stage.readName_eq hstage, .inr rfl⟩
  | headerValue =>
    have hstate : c.parser.state = .headerValue := by simpa [Mark.holds] using hst
    rw [hstate] at hstage ⊢
    exact ⟨_, Stage.readValue_eq hstage, .inr rfl⟩
  | url =>
    rw [inUrl_part hst] at hstage ⊢
    obtain ⟨⟨told, rfl⟩, htrailing⟩ := hstage
    exact ⟨.line true, rfl, ⟨true, rfl⟩, htrailing⟩
  | status =>
    have hstate : c.parser.state = .resStatus := by simpa [Mark.holds] using hst
    rw [hstate] at hstage ⊢
    obtain ⟨⟨told, rfl⟩, htrailing⟩ := hstage
    exact ⟨.line true, rfl, ⟨true, rfl⟩, htrailing⟩
  | body =>
    have hself : Function.update c.marks .body none .body = none := Function.update_self ..
    have hnone : Ctx.pending { c with marks := Function.update c.marks .body none } = 0 :=
      Ctx.pending_none hself
    have hpending : c.pending = span.length := by
      rw [Ctx.pending, hspan]
      rfl
    rw [hnone]
    rw [hpending] at hstage
    have hstates : c.parser.state = .bodyIdentity ∨ c.parser.state = .bodyIdentityEof ∨
        c.parser.state = .chunkData ∨ c.parser.state = .chunkDataAlmostDone := by
      simpa [Mark.holds, or_assoc] using hst
    rcases hstates with hstate | hstate | hstate | hstate <;> rw [hstate] at hstage ⊢ <;>
      obtain rfl := hstage
    · exact ⟨.rest c.parser.contentLength, by simp [Stage.read, Stage.readBody], by
        simp [State.part, Part.meets]⟩
    · exact ⟨.untilEof, rfl, rfl⟩
    · exact ⟨.chunk c.parser.contentLength, by simp [Stage.read, Stage.readBody], by
        simp [State.part, Part.meets]⟩
    · exact ⟨.chunk 0, by simp [Stage.read, Stage.readBody], by simp [State.part, Part.meets]⟩

/-- Where the user is when the spans of a call have been handed over: the next call finds the
stage that its parser says. -/
def Flow.Closed (R : Stage → σ → Prop) : Flow σ → Prop
  | .next c => ∃ a, R a c.user ∧ (Ctx.enter c.parser c.user).Agrees a
  | .fail c _ _ => ∃ a, R a c.user
  | .exit _ => False

theorem callback_closed (hs : s.Follows R) (h : R a c.user) (hc : c.Closing a) {m : Mark}
    {past : Bool} {k : Ctx σ → Flow σ}
    (hk : ∀ (b : Stage) (d : Ctx σ), R b d.user → d.Closing b → d.marks m = none →
      (∀ m', c.marks m' = none → d.marks m' = none) → (k d).Closed R) :
    (c.callback s m [] past k).Closed R := by
  unfold Ctx.callback
  split
  · rename_i hnone
    exact hk a c h hc hnone fun _ h => h
  · rename_i span hspan
    obtain ⟨b, hread, hmeets⟩ := hc.read hspan
    have hcall := hs.data h ((List.append_nil span).symm ▸ (hc.spans hspan).1)
      ((List.append_nil span).symm ▸ hread)
    dsimp only
    split
    · rename_i hret
      rw [if_pos hret] at hcall
      refine hk b _ hcall ⟨hmeets, fun {m' span'} hspan' => ?_⟩ (Function.update_self ..)
        fun m' hnone => ?_
      · by_cases hm : m' = m
        · subst hm
          exact absurd (hspan'.symm.trans (Function.update_self ..)) (by simp)
        · exact hc.spans ((Function.update_of_ne hm ..).symm.trans hspan')
      · by_cases hm : m' = m
        · subst hm
          exact Function.update_self ..
        · exact (Function.update_of_ne hm ..).trans hnone
    · exact ⟨_, hcall⟩

theorem openMarks_some {m : Mark} {st : State} (hm : m ≠ .body) (h : m.holds st = true) :
    openMarks st m = some [] := by
  cases m with
  | body => exact absurd rfl hm
  | headerField | headerValue | status => exact if_pos (by simpa [Mark.holds] using h)
  | url => exact if_pos h

/-- A call begins where the one before it has ended. -/
theorem Ctx.enter_agrees (hmeets : c.parser.state.part.meets c.parser 0 a) :
    (Ctx.enter c.parser c.user).Agrees a where
  stage := hmeets
  spans m hm hst := ⟨[], openMarks_some hm hst, Mark.fits_nil m⟩

theorem flush_closed (hs : s.Follows R) (h : R a c.user) (hc : c.Closing a) :
    (flush s c).Closed R := by
  unfold flush
  refine callback_closed hs h hc fun b d h hc _ _ => ?_
  refine callback_closed hs h hc fun b d h hc _ _ => ?_
  refine callback_closed hs h hc fun b d h hc _ _ => ?_
  refine callback_closed hs h hc fun b d h hc hbody _ => ?_
  refine callback_closed hs h hc fun b e h hc _ hkept => ?_
  have hmeets := hc.stage
  rw [Ctx.pending_none (hkept .body hbody)] at hmeets
  exact ⟨b, h, Ctx.enter_agrees hmeets⟩

/-! ## Calls -/

/-- The user of a session is in a stage that the next call of the parser takes up. -/
def Session.Follows (R : Stage → σ → Prop) (st : Session σ) : Prop :=
  ∃ a, R a st.2 ∧ (st.1.httpErrno = none → (Ctx.enter st.1 st.2).Agrees a)

theorem session_init {u : σ} (h : R .idle u) (t : ParserType) :
    Session.Follows R (HttpParser.init t, u) := by
  refine ⟨.idle, h, fun _ => Ctx.agrees_between ?_⟩
  cases t <;> rfl

/-- **A call keeps to the order of the callbacks.** -/
theorem Settings.Follows.execute (hs : s.Follows R) {st : Session σ} (h : Session.Follows R st)
    (hready : Ready st.1) {data : Bytes} (hne : data ≠ []) :
    Session.Follows R (execute s st data).1 := by
  obtain ⟨p, u⟩ := st
  obtain ⟨a, hu, hagrees⟩ := h
  by_cases herr : p.httpErrno = none
  swap
  · rw [execute_failed u data herr]
    exact ⟨a, hu, hagrees⟩
  have hloop := loop_follows hs (c := Ctx.enter p u) hu (hagrees herr) (hready.marked herr u) 0
    data
  rcases execute_cases (s := s) hready herr u hne with ⟨d, n, hl, hcall, hleft⟩ |
    ⟨d, hl, hcall, hd⟩
  all_goals rw [hl] at hloop
  · rw [hcall]
    by_cases hnone : d.parser.httpErrno = none
    · have hbetween := hleft.resolve_left (not_not.mpr hnone)
      exact ⟨.idle, hloop.2 hnone, fun _ =>
        Ctx.agrees_between (State.between_part hbetween.2)⟩
    · obtain ⟨b, hb⟩ := hloop.1
      exact ⟨b, hb, fun h => absurd h hnone⟩
  · obtain ⟨b, hb, hagrees⟩ := hloop
    have hflush := flush_closed hs hb (hagrees.closing hd)
    rw [hcall]
    unfold Outcome.session Outcome.close
    dsimp only
    cases hf : flush s d with
    | next e =>
      rw [hf] at hflush
      obtain ⟨b, hb, hagrees⟩ := hflush
      exact ⟨b, hb, fun _ => hagrees⟩
    | fail e errno past =>
      rw [hf] at hflush
      obtain ⟨b, hb⟩ := hflush
      exact ⟨b, hb, fun h => by cases h⟩
    | exit e =>
      rw [hf] at hflush
      exact hflush.elim

/-- The parser behind the buffers of a stream. -/
def received (s : Settings σ) (st : Session σ) (buffers : List Bytes) : Session σ :=
  buffers.foldl (fun st data => (execute s st data).1) st

theorem received_follows (hs : s.Follows R) {st : Session σ} (h : Session.Follows R st)
    (hready : Ready st.1) {buffers : List Bytes} (hne : ∀ data ∈ buffers, data ≠ []) :
    Session.Follows R (received s st buffers) := by
  induction buffers generalizing st with
  | nil => exact h
  | cons data rest ih =>
    obtain ⟨hdata, hrest⟩ := List.forall_mem_cons.mp hne
    exact ih (hs.execute h hready hdata) (execute_ready hready hdata) hrest

/-- The end of the connection is told to a user whose message it completes. -/
theorem executeEof_follows (hs : s.Follows R) {st : Session σ} (h : Session.Follows R st)
    (herr : st.1.httpErrno = none) : ∃ a, R a (executeEof s st).1.2 := by
  obtain ⟨p, u⟩ := st
  obtain ⟨a, hu, hagrees⟩ := h
  have hstage := (hagrees herr).stage
  unfold executeEof
  dsimp only
  split
  · rename_i hst
    have hpart : (Ctx.enter p u).parser.state.part = .eof := by
      show p.state.part = .eof
      rw [hst]
      rfl
    rw [hpart] at hstage
    obtain rfl := hstage
    have hcall := hs.notified (c := Ctx.enter p u) (n := .messageComplete) hu (by decide) rfl
    split <;> exact ⟨_, hcall⟩
  all_goals exact ⟨a, hu⟩

/-- Every state of the machine of the user is one of a user that was called in order. -/
theorem callbacks_follows (s : Settings σ) (u : σ) :
    s.Follows fun a v => (callbacks s u).Reachable (a, v) where
  call {a b v} call := by
    rintro ⟨tr, hrun⟩ hafter
    refine ⟨_, hrun.step (a := call) (t := (b, (s.call v call).1)) ?_⟩
    show (a.after call (s.call v call).2).map _ = _
    rw [hafter]
    rfl

/-! ## What is handed over is what was announced -/

/-- What the user was last told to come, and how many bytes were handed over since. -/
structure Account where
  told : Stage := .idle
  got : Nat := 0

/-- The account behind a callback that leads to a stage. -/
def Account.next (acc : Account) (b : Stage) : Callback → Account
  | .notify .headersComplete _ | .notify .chunkHeader _ => ⟨b, 0⟩
  | .data .body _ x => { acc with got := acc.got + x.length }
  | _ => acc

/-- The account of a run of the user's machine. -/
def account (s : Settings σ) (tr : List ((Stage × σ) × Callback)) : Account :=
  tr.foldl (fun acc step =>
    acc.next ((step.1.1.after step.2 (s.call step.1.2 step.2).2).getD .stopped) step.2) {}

/-- The bytes that are still to come are those that were announced and are not here yet. -/
def Account.Kept (acc : Account) : Stage → Prop
  | .rest left => acc.told = .rest (acc.got + left) ∨ acc.told = .trailer
  | .chunk left => acc.told = .chunk (acc.got + left)
  | .trailer | .name true | .value true => acc.told = .trailer
  | .untilEof => acc.told = .untilEof
  | _ => True

theorem Account.kept_announced (p : HttpParser) : Account.Kept ⟨announced p, 0⟩ (announced p) := by
  unfold announced
  dsimp only
  repeat' split
  all_goals simp [Kept]

theorem Stage.after_data {a b : Stage} {m : Mark} {p : HttpParser} {x : Bytes} {ret : Int}
    (h : a.after (.data m p x) ret = some b) :
    b = .stopped ∨ m.fits x ∧ a.read m x = some b := by
  simp only [after] at h
  split at h
  · rename_i hfits
    obtain ⟨b', hread, rfl⟩ := Option.map_eq_some_iff.mp h
    split
    · exact .inr ⟨hfits, hread⟩
    · exact .inl rfl
  · cases h

theorem Stage.after_notify {a b : Stage} {n : Notice} {p : HttpParser} {ret : Int}
    (hn : n ≠ .headersComplete) (h : a.after (.notify n p) ret = some b) :
    ∃ b', a.note p n = some b' ∧ (b = .stopped ∨ b = b') := by
  have hafter : a.after (.notify n p) ret =
      (a.note p n).map fun b => if ret = 0 then b else .stopped := by
    cases n with
    | headersComplete => exact absurd rfl hn
    | messageBegin | messageComplete | chunkHeader | chunkComplete => rfl
  obtain ⟨b', hnote, rfl⟩ := Option.map_eq_some_iff.mp (hafter.symm.trans h)
  refine ⟨b', hnote, ?_⟩
  split
  · exact .inr rfl
  · exact .inl rfl

/-- Behind the last chunk the account stands at the trailer. -/
theorem Account.Kept.trailer {acc : Account} {a : Stage} (h : acc.Kept a)
    (hfields : a.fields = some true) : acc.told = .trailer := by
  cases a with
  | line told => cases told <;> cases hfields
  | value late =>
    obtain rfl := Option.some.inj hfields
    exact h
  | trailer => exact h
  | _ => cases hfields

theorem Account.kept_name {acc : Account} {a b : Stage} (h : acc.Kept a)
    (hread : a.readName = some b) : acc.Kept b := by
  cases a with
  | name late =>
    obtain rfl := Option.some.inj hread
    exact h
  | line told => cases told <;> cases hread; trivial
  | value late =>
    obtain rfl := Option.some.inj hread
    cases late
    · trivial
    · exact h
  | trailer =>
    obtain rfl := Option.some.inj hread
    exact h
  | _ => cases hread

theorem Account.kept_value {acc : Account} {a b : Stage} (h : acc.Kept a)
    (hread : a.readValue = some b) : acc.Kept b := by
  cases a with
  | name late | value late =>
    obtain rfl := Option.some.inj hread
    cases late
    · trivial
    · exact h
  | _ => cases hread

theorem Account.kept_body {acc : Account} {a b : Stage} {n : Nat} (h : acc.Kept a)
    (hread : a.readBody n = some b) : Account.Kept { acc with got := acc.got + n } b := by
  cases a with
  | rest left =>
    simp only [Stage.readBody, Option.ite_none_right_eq_some, Option.some.injEq] at hread
    obtain ⟨hle, rfl⟩ := hread
    have hsum : acc.got + n + (left - n) = acc.got + left := by omega
    simpa only [Kept, hsum] using h
  | chunk left =>
    simp only [Stage.readBody, Option.ite_none_right_eq_some, Option.some.injEq] at hread
    obtain ⟨hle, rfl⟩ := hread
    have hsum : acc.got + n + (left - n) = acc.got + left := by omega
    simpa only [Kept, hsum] using h
  | untilEof =>
    obtain rfl := Option.some.inj hread
    exact h
  | _ => cases hread

/-- **A callback in order keeps the account.** -/
theorem Account.kept_next {acc : Account} {a b : Stage} {call : Callback} {ret : Int}
    (h : acc.Kept a) (hafter : a.after call ret = some b) : (acc.next b call).Kept b := by
  cases call with
  | data m p x =>
    obtain rfl | ⟨-, hread⟩ := Stage.after_data hafter
    · trivial
    cases m with
    | body => exact kept_body h hread
    | headerField => exact kept_name h hread
    | headerValue => exact kept_value h hread
    | url | status =>
      cases a <;> cases hread
      trivial
  | notify n p =>
    by_cases hn : n = .headersComplete
    · subst hn
      simp only [Stage.after, Stage.note] at hafter
      split at hafter
      · split at hafter
        · obtain rfl := Option.some.inj hafter
          exact kept_announced _
        · cases hafter
      · obtain ⟨_, -, rfl⟩ := Option.map_eq_some_iff.mp hafter
        trivial
    obtain ⟨b', hnote, rfl | rfl⟩ := Stage.after_notify hn hafter
    · cases n <;> trivial
    cases n with
    | headersComplete => exact absurd rfl hn
    | messageBegin =>
      simp only [Stage.note, Option.ite_none_right_eq_some, Option.some.injEq] at hnote
      obtain ⟨-, rfl⟩ := hnote
      trivial
    | messageComplete =>
      simp only [Stage.note, Option.ite_none_right_eq_some, Option.some.injEq] at hnote
      obtain ⟨-, rfl⟩ := hnote
      trivial
    | chunkHeader =>
      simp only [Stage.note] at hnote
      split at hnote
      · cases hnote
      split at hnote <;> obtain rfl := Option.some.inj hnote
      · exact rfl
      · exact congrArg Stage.chunk (Nat.zero_add _).symm
    | chunkComplete =>
      simp only [Stage.note] at hnote
      split at hnote
      · obtain rfl := Option.some.inj hnote
        trivial
      split at hnote
      · rename_i hfields
        obtain rfl := Option.some.inj hnote
        exact .inr (h.trailer hfields)
      · cases hnote

/-- The callbacks that say that a number of bytes is complete. -/
def Callback.completes : Callback → Prop
  | .notify .messageComplete _ | .notify .chunkComplete _ => True
  | _ => False

/-- A message or a chunk is complete when as many bytes were handed over as were announced. -/
def Account.Settled (acc : Account) : Prop :=
  ∀ n, acc.told = .rest n ∨ acc.told = .chunk n → acc.got = n

theorem Account.settled {acc : Account} {a b : Stage} {call : Callback} {ret : Int}
    (h : acc.Kept a) (hafter : a.after call ret = some b) (hcall : call.completes) :
    acc.Settled := by
  intro n htold
  cases call with
  | data m p x => exact hcall.elim
  | notify notice p =>
    cases notice with
    | messageBegin | headersComplete | chunkHeader => exact hcall.elim
    | messageComplete =>
      obtain ⟨_, hnote, -⟩ := Stage.after_notify (by decide) hafter
      simp only [Stage.note, Option.ite_none_right_eq_some] at hnote
      rcases hnote.1 with rfl | rfl
      · rcases h with h | h <;> rcases htold with htold | htold <;> rw [h] at htold <;> cases htold
        rfl
      · have heof : acc.told = .untilEof := h
        rcases htold with htold | htold <;> rw [heof] at htold <;> cases htold
    | chunkComplete =>
      obtain ⟨_, hnote, -⟩ := Stage.after_notify (by decide) hafter
      simp only [Stage.note] at hnote
      split at hnote
      · rename_i hchunk
        subst hchunk
        have hlast : acc.told = .chunk (acc.got + 0) := h
        rcases htold with htold | htold <;> rw [hlast] at htold <;> cases htold
        rfl
      split at hnote
      · rename_i hfields
        have hlast := h.trailer hfields
        rcases htold with htold | htold <;> rw [hlast] at htold <;> cases htold
      · cases hnote

/-- **In every run of the user's machine a message, and a chunk, is complete when it has as
many bytes as were announced.** -/
theorem run_settled {u : σ} {tr : List ((Stage × σ) × Callback)} {st : Stage × σ}
    (hrun : (callbacks s u).Run tr st) :
    (account s tr).Kept st.1 ∧ ∀ tr₁ st₁ call, tr₁ ++ [(st₁, call)] <+: tr → call.completes →
      (account s tr₁).Settled := by
  induction hrun with
  | init hinit =>
    obtain rfl := hinit
    refine ⟨trivial, fun tr₁ st₁ call hprefix => ?_⟩
    exact absurd (List.prefix_nil.mp hprefix) (by simp)
  | @step tr st st' call hrun hstep ih =>
    obtain ⟨hkept, hsettled⟩ := ih
    obtain ⟨b, hafter, rfl⟩ := Option.map_eq_some_iff.mp hstep
    refine ⟨?_, fun tr₁ st₁ call₁ hprefix hcall => ?_⟩
    · have hnext : account s (tr ++ [(st, call)]) = (account s tr).next b call := by
        simp only [account, List.foldl_append, List.foldl_cons, List.foldl_nil, hafter]
        rfl
      rw [hnext]
      exact Account.kept_next hkept hafter
    · rcases List.prefix_concat_iff.mp hprefix with heq | hprefix
      · obtain ⟨rfl, hlast⟩ := List.append_inj' heq rfl
        obtain ⟨rfl, rfl⟩ := Prod.mk.inj (List.singleton_inj.mp hlast)
        exact Account.settled hkept hafter hcall
      · exact hsettled tr₁ st₁ call₁ hprefix hcall

/-- **The callbacks of a stream come in order**: however it is cut into buffers and whatever the
callbacks do, they are those of a run of the user's machine; the parser is where that run
says, so that this goes on with the next buffer or at the end of the connection; and
every message and every chunk is complete when as many bytes were handed over as its headers
or its size announced. -/
theorem received_in_order (s : Settings σ) (t : ParserType) (u : σ) {buffers : List Bytes}
    (hne : ∀ data ∈ buffers, data ≠ []) :
    ∃ tr a, (callbacks s u).Run tr (a, (received s (HttpParser.init t, u) buffers).2) ∧
      ((received s (HttpParser.init t, u) buffers).1.httpErrno = none →
        (Ctx.enter (received s (HttpParser.init t, u) buffers).1
          (received s (HttpParser.init t, u) buffers).2).Agrees a ∧
        ∃ b, (callbacks s u).Reachable
          (b, (execute s (received s (HttpParser.init t, u) buffers) []).1.2)) ∧
      ∀ tr₁ st call, tr₁ ++ [(st, call)] <+: tr → call.completes → (account s tr₁).Settled := by
  have hfollows := callbacks_follows s u
  have hstart : Session.Follows (fun a v => (callbacks s u).Reachable (a, v))
      (HttpParser.init t, u) := session_init ⟨[], .init rfl⟩ t
  have hend := received_follows hfollows hstart (ready_init t) hne
  generalize received s (HttpParser.init t, u) buffers = st at hend ⊢
  obtain ⟨a, ⟨tr, hrun⟩, hagrees⟩ := id hend
  refine ⟨tr, a, hrun, fun herr => ⟨hagrees herr, ?_⟩, (run_settled hrun).2⟩
  have heof := executeEof_follows hfollows hend herr
  have hcall : execute s st [] = executeEof s st := by
    unfold execute
    simp only [herr, ne_eq, not_true_eq_false, if_false, if_true]
  rw [hcall]
  exact heof

end Calls

/-- A user that keeps its calls. -/
def recorder : Settings (List (Notice ⊕ Mark × Bytes)) where
  onData m _ buf u := (u ++ [.inr (m, buf)], 0)
  onNotify n _ u := (u ++ [.inl n], 0)

/-- A request that is cut in its target and in its body. -/
def cutRequest : List Bytes :=
  [bytes "POST /a", bytes "b HTTP/1.1\r\ncontent-length: 5\r\n\r\nhe", bytes "llo"]

theorem received_in_order_cut :
    (received recorder (HttpParser.init .request, []) cutRequest).1.httpErrno = none ∧
      ∃ tr a, (callbacks recorder []).Run tr (a, [.inl .messageBegin, .inr (.url, bytes "/a"),
          .inr (.url, bytes "b"), .inr (.headerField, bytes "content-length"),
          .inr (.headerValue, bytes "5"), .inl .headersComplete, .inr (.body, bytes "he"),
          .inr (.body, bytes "llo"), .inl .messageComplete]) ∧
        ∀ tr₁ st call, tr₁ ++ [(st, call)] <+: tr → call.completes →
          (account recorder tr₁).Settled := by
  have hne : ∀ data ∈ cutRequest, data ≠ [] := by decide +kernel
  obtain ⟨tr, a, hrun, -, hsettled⟩ := received_in_order recorder .request [] hne
  have hcalls : (received recorder (HttpParser.init .request, []) cutRequest).2 =
      [.inl .messageBegin, .inr (.url, bytes "/a"), .inr (.url, bytes "b"),
        .inr (.headerField, bytes "content-length"), .inr (.headerValue, bytes "5"),
        .inl .headersComplete, .inr (.body, bytes "he"), .inr (.body, bytes "llo"),
        .inl .messageComplete] := by decide +kernel
  rw [hcalls] at hrun
  exact ⟨by decide +kernel, tr, a, hrun, hsettled⟩

end Sylar.Http
