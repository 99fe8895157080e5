import Sylar.Interleaving
import Sylar.LogFormat

/-! # The way of a message to the appenders

The text of an event is put together by calls of `LogEvent::format`, and `LogEventWrap` hands the
event to its logger when it is destroyed.  `receivers` are the appenders that should get it: those
of the logger, or of its root if it has none.

**`message_iff`**: for every logger, event and texts, the receivers get the event with all texts
exactly if no text has the length 1, which `format` takes for an error of `vasprintf`. -/
namespace Sylar
open Interleaving

/-- What ends a call. -/
inductive RouteFault
  /-- A `std::string` is made of -1 characters, which throws. -/
  | length
  /-- A null pointer to a formatter is followed. -/
  | nullFormatter
  deriving DecidableEq, Repr

/-! ## Texts -/

/-- `vasprintf`, of the text that it prints. -/
def vasprintf (text : Str) : Int := if text.length < 2 ^ 31 then text.length else -1

/-- `LogEvent::format` -/
def LogEvent.format (event : LogEvent) (text : Str) : Except RouteFault LogEvent :=
  let len := vasprintf text
  -- the error result of `vasprintf` is -1
  if len ≠ 1 then
    if len < 0 then .error .length
    else .ok { event with content := event.content ++ text.take len.toNat }
  else .ok event

/-- Calls of `format` on an event, up to one that throws. -/
def LogEvent.formatAll (event : LogEvent) : List Str → LogEvent × Option RouteFault
  | [] => (event, none)
  | text :: texts =>
    match event.format text with
    | .ok event => event.formatAll texts
    | .error e => (event, some e)

/-! ## Appenders -/

/-- A call of `log` of an appender, and what it writes. -/
structure Delivery where
  self : Logger
  appender : LogAppender
  text : Option Str
  deriving DecidableEq, Repr

section Log
variable (lib : Libc) (level : LogLevel) (event : LogEvent)

/-- `FileLogAppender::log` and `StdoutLogAppender::log` -/
def LogAppender.log (a : LogAppender) (logger : Logger) : Except RouteFault (Option Str) :=
  if a.level ≤ level then
    match a.formatter with
    | some f => .ok (some (f.format lib logger level event))
    | none => .error .nullFormatter
  else .ok none

/-- The loop over `m_appenders`. -/
def Logger.logTo (l : Logger) : List LogAppender → Except RouteFault (List Delivery)
  | [] => .ok []
  | appender :: appenders => do
    let text ← appender.log lib level event l
    let later ← l.logTo appenders
    return ⟨l, appender, text⟩ :: later

/-- `Logger::log`; `roots` are `m_root`, its own `m_root`, and so on. -/
def Logger.log : Logger → List Logger → Except RouteFault (List Delivery)
  | l, roots =>
    if l.level ≤ level then
      if l.appenders ≠ [] then l.logTo lib level event l.appenders
      else
        match roots with
        | root :: roots => root.log roots
        | [] => .ok []
    else .ok []

/-- An event whose text is put together by calls of `format`, up to the destructor of its
`LogEventWrap`, which runs also if one of them throws. -/
def LogEventWrap (texts : List Str) (l : Logger) (roots : List Logger) :
    Except RouteFault (List Delivery) × Option RouteFault :=
  let r := event.formatAll texts
  (l.log lib level r.1 roots, r.2)

end Log

/-! ## What is asked -/

/-- The appenders that an event should reach, each with the logger from which it does. -/
def receivers (level : LogLevel) : Logger → List Logger → List (Logger × LogAppender)
  | l, roots =>
    if l.level ≤ level then
      if l.appenders = [] then
        match roots with
        | root :: roots => receivers level root roots
        | [] => []
      else l.appenders.map fun a => (l, a)
    else []

/-- The event with all its texts. -/
def LogEvent.withTexts (event : LogEvent) (texts : List Str) : LogEvent :=
  { event with content := event.content ++ texts.flatten }

/-- What was written for a receiver of an event. -/
def Delivery.Written (d : Delivery) (lib : Libc) (level : LogLevel) (event : LogEvent) : Prop :=
  (d.appender.level ≤ level → ∃ f, d.appender.formatter = some f ∧
    d.text = some (f.format lib d.self level event)) ∧
  (¬ d.appender.level ≤ level → d.text = none)

/-- Each receiver gets the event once, and writes it if its level says so; and nothing is missing
in the event, whoever writes it. -/
structure MessageRight (lib : Libc) (level : LogLevel) (event : LogEvent) (texts : List Str)
    (l : Logger) (roots : List Logger) : Prop where
  content : (event.formatAll texts).1 = event.withTexts texts
  delivered : ∃ ds, LogEventWrap lib level event texts l roots = (.ok ds, none) ∧
    ds.map (fun d => (d.self, d.appender)) = receivers level l roots ∧
    ∀ d ∈ ds, d.Written lib level (event.withTexts texts)

/-! ## The texts of an event -/

/-- What `format` has no trouble with. -/
def Fits (text : Str) : Prop := text.length ≠ 1 ∧ text.length < 2 ^ 31

instance (text : Str) : Decidable (Fits text) := inferInstanceAs (Decidable (_ ∧ _))

namespace LogEvent
variable {event : LogEvent} {text : Str}

theorem format_short (hlt : text.length < 2 ^ 31) :
    event.format text =
      .ok { event with content := event.content ++ if text.length = 1 then [] else text } := by
  rw [LogEvent.format, vasprintf, if_pos hlt]
  by_cases hone : text.length = 1
  · rw [if_neg (by omega), if_pos hone, List.append_nil]
  · rw [if_pos (by omega), if_neg (by omega), if_neg hone, Int.toNat_natCast, List.take_length]

theorem format_long (hge : ¬ text.length < 2 ^ 31) : event.format text = .error .length := by
  rw [LogEvent.format, vasprintf, if_neg hge]
  rfl

/-- Short texts are all there, but for those of one character. -/
theorem formatAll_short {texts : List Str} (h : ∀ text ∈ texts, text.length < 2 ^ 31) :
    event.formatAll texts =
      (event.withTexts (texts.filter fun text => text.length ≠ 1), none) := by
  induction texts generalizing event with
  | nil => simp [formatAll, withTexts]
  | cons text texts ih =>
    obtain ⟨hshort, hlater⟩ := List.forall_mem_cons.mp h
    rw [formatAll, format_short hshort]
    dsimp only
    rw [ih hlater]
    by_cases hone : text.length = 1
    · simp [withTexts, hone]
    · simp [withTexts, hone]

theorem short_of_formatAll {texts : List Str} (h : (event.formatAll texts).2 = none) :
    ∀ text ∈ texts, text.length < 2 ^ 31 := by
  induction texts generalizing event with
  | nil => exact List.forall_mem_nil _
  | cons text texts ih =>
    by_cases hshort : text.length < 2 ^ 31
    · rw [formatAll, format_short hshort] at h
      exact List.forall_mem_cons.mpr ⟨hshort, ih h⟩
    · rw [formatAll, format_long hshort] at h
      cases h

/-- What is missing without the texts of one character. -/
theorem length_flatten_filter (texts : List Str) :
    texts.flatten.length = (texts.filter fun text => text.length ≠ 1).flatten.length +
      texts.countP fun text => text.length = 1 := by
  induction texts with
  | nil => rfl
  | cons text texts ih =>
    by_cases hone : text.length = 1
    · simp [hone, ih]
      omega
    · simp [hone, ih]
      omega

theorem formatAll_iff {texts : List Str} :
    event.formatAll texts = (event.withTexts texts, none) ↔ ∀ text ∈ texts, Fits text := by
  constructor
  · intro h text hmem
    have hshort := short_of_formatAll (congrArg Prod.snd h)
    rw [formatAll_short hshort] at h
    have hcontent : event.content ++ (texts.filter fun text => text.length ≠ 1).flatten =
        event.content ++ texts.flatten := congrArg (LogEvent.content ∘ Prod.fst) h
    have hlength := congrArg List.length (List.append_cancel_left hcontent)
    rw [length_flatten_filter texts] at hlength
    have hcount : (texts.countP fun text => text.length = 1) = 0 := by omega
    exact ⟨fun hone => List.countP_eq_zero.mp hcount text hmem (decide_eq_true hone),
      hshort text hmem⟩
  · intro h
    have hfilter : texts.filter (fun text => text.length ≠ 1) = texts :=
      List.filter_eq_self.mpr fun text hmem => decide_eq_true (h text hmem).1
    rw [formatAll_short fun text hmem => (h text hmem).2, hfilter]

end LogEvent

/-! ## The way to the receivers -/

section Delivery
variable {lib : Libc} {level : LogLevel} {event : LogEvent}

/-- An appender that writes has a formatter. -/
def Formatted (level : LogLevel) (a : LogAppender) : Prop :=
  a.level ≤ level → a.formatter ≠ none

theorem appender_log_iff (a : LogAppender) (l : Logger) :
    (∃ text, a.log lib level event l = .ok text) ↔ Formatted level a := by
  rw [Formatted, LogAppender.log]
  split_ifs with hlevel
  · cases a.formatter with
    | none => exact iff_of_false (by rintro ⟨text, h⟩; cases h) (fun h => h hlevel rfl)
    | some f => exact iff_of_true ⟨_, rfl⟩ (by intro _ h; cases h)
  · exact iff_of_true ⟨_, rfl⟩ (fun h => absurd h hlevel)

theorem written_of_log {a : LogAppender} {l : Logger} {text : Option Str}
    (h : a.log lib level event l = .ok text) : (Delivery.mk l a text).Written lib level event := by
  rw [LogAppender.log] at h
  constructor
  · intro hlevel
    rw [if_pos hlevel] at h
    cases hformatter : a.formatter with
    | none =>
      rw [hformatter] at h
      cases h
    | some f =>
      rw [hformatter] at h
      exact ⟨f, rfl, (Except.ok.inj h).symm⟩
  · intro hlevel
    rw [if_neg hlevel] at h
    exact (Except.ok.inj h).symm

theorem logTo_ok (l : Logger) {appenders : List LogAppender}
    (h : ∀ a ∈ appenders, Formatted level a) :
    ∃ ds, l.logTo lib level event appenders = .ok ds ∧
      ds.map (fun d => (d.self, d.appender)) = appenders.map (fun a => (l, a)) ∧
      ∀ d ∈ ds, d.Written lib level event := by
  induction appenders with
  | nil => exact ⟨[], rfl, rfl, List.forall_mem_nil _⟩
  | cons a appenders ih =>
    obtain ⟨hfirst, hlater⟩ := List.forall_mem_cons.mp h
    obtain ⟨text, htext⟩ : ∃ text, a.log lib level event l = .ok text :=
      (appender_log_iff a l).mpr hfirst
    obtain ⟨ds, hds, hmap, hwritten⟩ := ih hlater
    refine ⟨⟨l, a, text⟩ :: ds, ?_, ?_, ?_⟩
    · rw [Logger.logTo, htext, hds]
      rfl
    · rw [List.map_cons, List.map_cons, hmap]
    · exact List.forall_mem_cons.mpr ⟨written_of_log htext, hwritten⟩

theorem formatted_of_logTo {l : Logger} {appenders : List LogAppender} {ds : List Delivery}
    (h : l.logTo lib level event appenders = .ok ds) : ∀ a ∈ appenders, Formatted level a := by
  induction appenders generalizing ds with
  | nil => exact List.forall_mem_nil _
  | cons a appenders ih =>
    obtain ⟨text, htext, h⟩ := bind_ok h
    obtain ⟨later, hlater, -⟩ := bind_ok h
    exact List.forall_mem_cons.mpr ⟨(appender_log_iff a l).mp ⟨text, htext⟩, ih hlater⟩

/-- Nobody gets the event, or the appenders of one logger do. -/
theorem log_cases (lib : Libc) (event : LogEvent) (l : Logger) (roots : List Logger) :
    receivers level l roots = [] ∧ l.log lib level event roots = .ok [] ∨
      ∃ r : Logger, receivers level l roots = r.appenders.map (fun a => (r, a)) ∧
        l.log lib level event roots = r.logTo lib level event r.appenders := by
  induction roots generalizing l with
  | nil =>
    rw [receivers, Logger.log]
    split_ifs with hlevel hnil hne
    · exact absurd hnil hne
    · exact .inl ⟨rfl, rfl⟩
    · exact .inr ⟨l, rfl, rfl⟩
    · exact .inl ⟨rfl, rfl⟩
  | cons root roots ih =>
    rw [receivers, Logger.log]
    split_ifs with hlevel hnil hne
    · exact absurd hnil hne
    · exact ih root
    · exact .inr ⟨l, rfl, rfl⟩
    · exact .inl ⟨rfl, rfl⟩

theorem log_ok (lib : Libc) (event : LogEvent) (l : Logger) (roots : List Logger)
    (h : ∀ p ∈ receivers level l roots, Formatted level p.2) :
    ∃ ds, l.log lib level event roots = .ok ds ∧
      ds.map (fun d => (d.self, d.appender)) = receivers level l roots ∧
      ∀ d ∈ ds, d.Written lib level event := by
  rcases log_cases lib event l roots with ⟨hnone, hlog⟩ | ⟨r, hsome, hlog⟩
  · exact ⟨[], hlog, hnone.symm, List.forall_mem_nil _⟩
  · rw [hsome] at h ⊢
    rw [hlog]
    exact logTo_ok r fun a ha => h (r, a) (List.mem_map_of_mem ha)

theorem formatted_of_log {l : Logger} {roots : List Logger} {ds : List Delivery}
    (h : l.log lib level event roots = .ok ds) :
    ∀ p ∈ receivers level l roots, Formatted level p.2 := by
  rcases log_cases lib event l roots with ⟨hnone, -⟩ | ⟨r, hsome, hlog⟩
  · rw [hnone]
    exact List.forall_mem_nil _
  · rw [hsome]
    exact List.forall_mem_map.mpr (formatted_of_logTo (hlog.symm.trans h))

end Delivery

/-- **When a message gets through**, for every logger, its roots, level, event and texts: exactly
where no text has one character, or 2^31 or more, and every receiver that writes has a formatter.
The way to the receivers is right in any case. -/
theorem message_iff (lib : Libc) (level : LogLevel) (event : LogEvent) (texts : List Str)
    (l : Logger) (roots : List Logger) :
    MessageRight lib level event texts l roots ↔
      (∀ text ∈ texts, text.length ≠ 1 ∧ text.length < 2 ^ 31) ∧
        ∀ p ∈ receivers level l roots, p.2.level ≤ level → p.2.formatter ≠ none := by
  constructor
  · rintro ⟨hcontent, ds, hrun, -, -⟩
    have hlog : l.log lib level (event.formatAll texts).1 roots = .ok ds := congrArg Prod.fst hrun
    have hthrew : (event.formatAll texts).2 = none := congrArg Prod.snd hrun
    exact ⟨LogEvent.formatAll_iff.mp (Prod.ext hcontent hthrew), formatted_of_log hlog⟩
  · rintro ⟨hfits, hformatted⟩
    have hall : event.formatAll texts = (event.withTexts texts, none) :=
      LogEvent.formatAll_iff.mpr hfits
    refine ⟨congrArg Prod.fst hall, ?_⟩
    rw [LogEventWrap, hall]
    obtain ⟨ds, hlog, hmap, hwritten⟩ := log_ok lib (event.withTexts texts) l roots hformatted
    exact ⟨ds, by rw [hlog], hmap, hwritten⟩

/-- An appender that prints `%m`. -/
def messageAppender : LogAppender where
  target := .stdout
  formatter := some ⟨['%', 'm'], [.message], false⟩

/-- Of an event whose texts are `x`, `=` and `10` it prints `10`. -/
theorem message_lost :
    let lib : Libc := ⟨fun _ _ => [], fun _ _ => []⟩
    let event : LogEvent := ⟨[], 0, 0, 0, 0, 0, [], []⟩
    let l : Logger := { name := [], appenders := [messageAppender] }
    LogEventWrap lib .info event [['x'], ['='], ['1', '0']] l [] =
        (.ok [⟨l, messageAppender, some ['1', '0']⟩], none) ∧
      ¬ MessageRight lib .info event [['x'], ['='], ['1', '0']] l [] := by
  intro lib event l
  refine ⟨rfl, fun h => ?_⟩
  have hcontent := congrArg LogEvent.content h.content
  exact absurd hcontent (by decide)

end Sylar
