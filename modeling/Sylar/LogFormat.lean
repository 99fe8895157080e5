import Mathlib.Algebra.Order.BigOperators.Group.List
import Mathlib.Algebra.Order.Group.Nat
import Mathlib.Data.List.TakeWhile
import Sylar.Logger

/-! # What a log pattern means

The documentation of `LogFormatter` reads a pattern as a sequence of elements: text, items of
one letter, and dates, each with a format of its own in braces or none.  `elements` is that
reading, one element after the other; `meaning` is the text that it stands for.

`init` finds the same elements (`foldl_read`), but gathers the formats of all dates in one
string, of which then every date is made.  **`format_meaning_iff`**: `format` is the meaning of
the pattern exactly where every date has that string for its format, and the buffer for a date
is large enough. -/
namespace Sylar

/-! ## The code -/

/-- `LogEvent`, with the text that was written to `m_ss`. -/
structure LogEvent where
  file : Str
  line : Int
  elapse : Nat
  threadId : Nat
  fiberId : Nat
  time : Nat
  threadName : Str
  content : Str
  deriving DecidableEq, Repr

/-- What a date is printed with: the text of `localtime_r` and `strftime` for a format and a
time, and what `char buf[64]` is printed as when that text does not fit, with its terminator;
`strftime` leaves the contents open then. -/
structure Libc where
  strftime : Str → Nat → Str
  buf : Str → Nat → Str

/-- `os << n` -/
def printed (n : Nat) : Str := (toString n).toList

/-- `DateTimeFormatItem::format`, of its `m_format` and the time of the event. -/
def dateTimeFormat (lib : Libc) (format : Str) (time : Nat) : Str :=
  if (lib.strftime format time).length < 64 then lib.strftime format time else lib.buf format time

/-- `format` of an item. -/
def FormatItem.format (lib : Libc) (logger : Logger) (level : LogLevel) (event : LogEvent) :
    FormatItem → Str
  | .message => event.content
  | .level => level.toString
  | .elapse => printed event.elapse
  | .name => logger.name
  | .threadId => printed event.threadId
  | .newLine => ['\n']
  | .filename => event.file
  | .line => (toString event.line).toList
  | .tab => ['\t']
  | .fiberId => printed event.fiberId
  | .threadName => event.threadName
  | .dateTime format => dateTimeFormat lib format event.time
  | .string str => str

/-- `LogFormatter::format` -/
def LogFormatter.format (f : LogFormatter) (lib : Libc) (logger : Logger) (level : LogLevel)
    (event : LogEvent) : Str :=
  f.items.flatMap (FormatItem.format lib logger level event)

/-! ## The documentation -/

/-- An element of a pattern. -/
inductive Element
  | text (str : Str)
  | item (c : Char)
  | date (format : Str)
  deriving DecidableEq, Repr

theorem length_behind_lt (p : Char → Bool) (rest : Str) :
    ((rest.dropWhile p).drop 1).length ≤ rest.length := by
  have hle := List.length_dropWhile_le p rest
  rw [List.length_drop]
  omega

/-- The elements of a pattern, from left to right.  A `%` that ends it stands for nothing. -/
def elements : Str → List Element
  | [] => []
  | c :: rest =>
    if c = '%' then
      match rest with
      | [] => []
      | d :: rest =>
        if d = 'd' then
          match rest with
          | '{' :: rest =>
            .date (rest.takeWhile (· ≠ '}')) :: elements ((rest.dropWhile (· ≠ '}')).drop 1)
          | rest => .date [] :: elements rest
        else .item d :: elements rest
    else .text (c :: rest.takeWhile (· ≠ '%')) :: elements (rest.dropWhile (· ≠ '%'))
termination_by pattern => pattern.length
decreasing_by
  · have hle := length_behind_lt (· ≠ '}') rest
    simp only [List.length_cons]
    omega
  · simp only [List.length_cons]
    omega
  · simp only [List.length_cons]
    omega
  · have hle := List.length_dropWhile_le (· ≠ '%') rest
    simp only [List.length_cons]
    omega

/-- The format of a date that has none. -/
def withDefault (format : Str) : Str :=
  if format = [] then "%Y:%m:%d %H:%M:%S".toList else format

section Meaning
variable (strftime : Str → Nat → Str) (logger : Logger) (level : LogLevel) (event : LogEvent)

/-- The field of an item, as the documentation of `LogFormatter` lists them. -/
def documented (c : Char) : Str :=
  if c = 'm' then event.content
  else if c = 'p' then level.toString
  else if c = 'c' then logger.name
  else if c = 'r' then printed event.elapse
  else if c = 'f' then event.file
  else if c = 'l' then (toString event.line).toList
  else if c = 't' then printed event.threadId
  else if c = 'T' then ['\t']
  else if c = 'F' then printed event.fiberId
  else if c = 'N' then event.threadName
  else if c = 'n' then ['\n']
  else []

/-- What an element stands for. -/
def Element.meaning : Element → Str
  | .text str => str
  | .item c => documented logger level event c
  | .date format => strftime (withDefault format) event.time

/-- What a pattern stands for. -/
def meaning (pattern : Str) : Str :=
  (elements pattern).flatMap (Element.meaning strftime logger level event)

end Meaning

/-! ## One element after the other -/

section Equations
variable (rest : Str)

@[simp] theorem elements_nil : elements [] = [] := by
  rw [elements.eq_def]

theorem elements_item {c : Char} (h : c ≠ 'd') :
    elements ('%' :: c :: rest) = .item c :: elements rest := by
  rw [elements.eq_def]
  dsimp only
  rw [if_pos rfl, if_neg h]

theorem elements_format (format : Str) (h : '}' ∉ format) :
    elements ('%' :: 'd' :: '{' :: (format ++ '}' :: rest)) = .date format :: elements rest := by
  have hall : ∀ c ∈ format, decide (c ≠ '}') = true := by
    intro c hc
    exact decide_eq_true fun heq => h (heq ▸ hc)
  have htake : (format ++ '}' :: rest).takeWhile (· ≠ '}') = format := by
    rw [List.takeWhile_append_of_pos hall, List.takeWhile_cons_of_neg (by decide),
      List.append_nil]
  have hdrop : (format ++ '}' :: rest).dropWhile (· ≠ '}') = '}' :: rest := by
    rw [List.dropWhile_append_of_pos hall, List.dropWhile_cons_of_neg (by decide)]
  rw [elements.eq_def]
  dsimp only
  rw [if_pos rfl, if_pos rfl]
  show .date ((format ++ '}' :: rest).takeWhile (· ≠ '}')) ::
    elements (((format ++ '}' :: rest).dropWhile (· ≠ '}')).drop 1) = _
  rw [htake, hdrop]
  rfl

theorem elements_date (h : rest.head? ≠ some '{') :
    elements ('%' :: 'd' :: rest) = .date [] :: elements rest := by
  rw [elements.eq_def]
  dsimp only
  rw [if_pos rfl, if_pos rfl]
  cases rest with
  | nil => rfl
  | cons c rest =>
    have hc : c ≠ '{' := fun heq => h (congrArg some heq)
    split
    · rename_i heq
      exact absurd (List.cons.inj heq).1 hc
    · rfl

/-- A run of ordinary characters, up to a `%` or the end. -/
theorem elements_text {run : Str} (hne : run ≠ []) (hrun : '%' ∉ run)
    (hrest : rest = [] ∨ rest.head? = some '%') :
    elements (run ++ rest) = .text run :: elements rest := by
  obtain ⟨c, run, rfl⟩ := List.exists_cons_of_ne_nil hne
  rw [List.mem_cons, not_or] at hrun
  have hall : ∀ d ∈ run, decide (d ≠ '%') = true := by
    intro d hd
    exact decide_eq_true fun heq => hrun.2 (heq ▸ hd)
  have hstop : rest.takeWhile (· ≠ '%') = [] ∧ rest.dropWhile (· ≠ '%') = rest := by
    rcases hrest with rfl | hhead
    · exact ⟨rfl, rfl⟩
    · obtain ⟨d, rest, rfl⟩ := List.exists_cons_of_ne_nil (l := rest) (by rintro rfl; cases hhead)
      obtain rfl := Option.some.inj hhead
      exact ⟨List.takeWhile_cons_of_neg (by decide), List.dropWhile_cons_of_neg (by decide)⟩
  rw [List.cons_append, elements.eq_def]
  dsimp only
  rw [if_neg fun heq => hrun.1 heq.symm, List.takeWhile_append_of_pos hall,
    List.dropWhile_append_of_pos hall, hstop.1, hstop.2, List.append_nil]

end Equations

/-! ## What `init` finds -/

/-- The entry of `patterns` for an element. -/
def Element.symbol : Element → Symbol
  | .text str => .regular str
  | .item c => .inner c
  | .date _ => .inner 'd'

/-- The format that an element has of its own. -/
def Element.ownFormat : Element → Str
  | .date format => format
  | .text _ | .item _ => []

namespace Scan
variable {s : Scan}

/-- Ordinary characters are gathered. -/
theorem foldl_run {run : Str} (hrun : '%' ∉ run) (hmode : s.mode = .text) :
    run.foldl read s = { s with tmp := s.tmp ++ run } := by
  induction run generalizing s with
  | nil => simp
  | cons c run ih =>
    rw [List.mem_cons, not_or] at hrun
    have hread : s.read c = { s with tmp := s.tmp ++ [c] } := by
      rw [read, hmode]
      dsimp only
      rw [readText, if_neg fun heq => hrun.1 heq.symm, ← hmode]
    have hrest := ih (s := { s with tmp := s.tmp ++ [c] }) hrun.2 hmode
    rw [List.foldl_cons, hread, hrest]
    simp

/-- So are those of a date format. -/
theorem foldl_format {format : Str} (hformat : '}' ∉ format) (hmode : s.mode = .braces) :
    format.foldl read s = { s with dateFormat := s.dateFormat ++ format } := by
  induction format generalizing s with
  | nil => simp
  | cons c format ih =>
    rw [List.mem_cons, not_or] at hformat
    have hread : s.read c = { s with dateFormat := s.dateFormat ++ [c] } := by
      rw [read, hmode]
      dsimp only
      rw [if_neg fun heq => hformat.1 heq.symm]
    have hrest := ih (s := { s with dateFormat := s.dateFormat ++ [c] }) hformat.2 hmode
    rw [List.foldl_cons, hread, hrest]
    simp

/-- Behind a `%`. -/
def escaped (s : Scan) : Scan := { s with mode := .escape, patterns := s.flushed, tmp := [] }

theorem read_percent (hmode : s.mode = .text) : s.read '%' = s.escaped := by
  rw [read, hmode]
  rfl

/-- Behind a `%` and a letter. -/
theorem read_letter (c : Char) : s.escaped.read c =
    { s with
      mode := if c = 'd' then .date else .text
      patterns := s.flushed ++ [.inner c]
      tmp := [] } := rfl

/-- Behind a `%d` without a brace the text goes on. -/
theorem read_date (hmode : s.mode = .date) {c : Char} (hc : c ≠ '{') :
    s.read c = Scan.read { s with mode := .text } c := by
  rw [read, hmode]
  dsimp only
  rw [if_neg hc]
  rfl

theorem flushed_nil (h : s.tmp = []) : s.flushed = s.patterns := by
  rw [flushed, if_pos h]

theorem flushed_run (h : s.tmp = []) {run : Str} (hne : run ≠ []) :
    Scan.flushed { s with tmp := s.tmp ++ run } = s.flushed ++ [.regular run] := by
  rw [flushed_nil h, flushed, h, List.nil_append, if_neg hne]

/-- Where the loop does not end in a date, it has found these elements. -/
def Found (s t : Scan) (pattern : Str) : Prop :=
  t.mode ≠ .date → t.mode ≠ .braces →
    t.flushed = s.flushed ++ (elements pattern).map Element.symbol ∧
      t.dateFormat = s.dateFormat ++ (elements pattern).flatMap Element.ownFormat

/-- A date, where what is behind it is read as it should be. -/
theorem found_date {n : Nat}
    (ih : ∀ (later : Str) {s : Scan}, later.length < n → s.mode = .text → s.tmp = [] →
      Found s (later.foldl read s) later) {rest : Str} (hlen : rest.length < n) :
    Found s (rest.foldl read
      { s with mode := .date, patterns := s.flushed ++ [.inner 'd'], tmp := [] })
      ('%' :: 'd' :: rest) := by
  intro hdate hbraces
  by_cases hbrace : rest.head? = some '{'
  · obtain ⟨c, rest, rfl⟩ := List.exists_cons_of_ne_nil (l := rest) (by rintro rfl; cases hbrace)
    obtain rfl := Option.some.inj hbrace
    have hopen : Scan.read
        { s with mode := .date, patterns := s.flushed ++ [.inner 'd'], tmp := [] } '{' =
        { s with mode := .braces, patterns := s.flushed ++ [.inner 'd'], tmp := [] } := rfl
    rw [List.foldl_cons, hopen] at hdate hbraces ⊢
    -- a format that is not closed ends in `braces`, which is excluded
    by_cases hclosed : '}' ∈ rest
    · obtain ⟨format, later, rfl, hformat⟩ := List.eq_append_cons_of_mem hclosed
      rw [List.length_cons, List.length_append, List.length_cons] at hlen
      rw [List.foldl_append, foldl_format hformat rfl, List.foldl_cons] at hdate hbraces ⊢
      obtain ⟨hflushed, hdates⟩ := ih later (s := { s with
        mode := .text, patterns := s.flushed ++ [.inner 'd'], tmp := []
        dateFormat := s.dateFormat ++ format }) (by omega) rfl rfl hdate hbraces
      rw [elements_format later format hformat]
      refine ⟨hflushed.trans ?_, hdates.trans ?_⟩
      · rw [flushed_nil rfl]
        simp [Element.symbol]
      · simp [Element.ownFormat]
    · rw [foldl_format hclosed rfl] at hbraces
      exact absurd rfl hbraces
  · cases rest with
    | nil => exact absurd rfl hdate
    | cons c rest =>
      have hc : c ≠ '{' := fun heq => hbrace (congrArg some heq)
      -- no format: the scanner goes on as if it had not seen the `d`
      have hread : (c :: rest).foldl read
          { s with mode := .date, patterns := s.flushed ++ [.inner 'd'], tmp := [] } =
          (c :: rest).foldl read
          { s with mode := .text, patterns := s.flushed ++ [.inner 'd'], tmp := [] } := by
        rw [List.foldl_cons, read_date rfl hc, List.foldl_cons]
      rw [hread] at hdate hbraces ⊢
      obtain ⟨hflushed, hdates⟩ := ih (c :: rest) hlen rfl rfl hdate hbraces
      rw [elements_date _ hbrace]
      refine ⟨hflushed.trans ?_, hdates.trans ?_⟩
      · rw [flushed_nil rfl]
        simp [Element.symbol]
      · simp [Element.ownFormat]

/-- The ordinary characters that a text begins with, and what is behind them. -/
theorem exists_run {c : Char} (hc : c ≠ '%') (rest : Str) :
    ∃ run later, c :: rest = run ++ later ∧ run ≠ [] ∧ '%' ∉ run ∧
      (later = [] ∨ later.head? = some '%') := by
  by_cases hmem : '%' ∈ c :: rest
  · obtain ⟨run, later, heq, hrun⟩ := List.eq_append_cons_of_mem hmem
    refine ⟨run, '%' :: later, heq, ?_, hrun, .inr rfl⟩
    rintro rfl
    exact hc (List.cons.inj heq).1
  · exact ⟨c :: rest, [], (List.append_nil _).symm, List.cons_ne_nil _ _, hmem, .inl rfl⟩

/-- **The scanner finds the elements.** -/
theorem foldl_read (pattern : Str) (hmode : s.mode = .text)
    (htmp : s.tmp = [] ∨ pattern = [] ∨ pattern.head? = some '%') :
    Found s (pattern.foldl read s) pattern := by
  induction hlen : pattern.length using Nat.strongRecOn generalizing s pattern with
  | ind n ih =>
    cases pattern with
    | nil =>
      intro _ _
      simp
    | cons c rest =>
      rw [List.length_cons] at hlen
      by_cases hpercent : c = '%'
      · subst hpercent
        rw [List.foldl_cons, read_percent hmode]
        cases rest with
        | nil =>
          intro _ _
          simp [elements, escaped, flushed]
        | cons d rest =>
          rw [List.length_cons] at hlen
          rw [List.foldl_cons, read_letter]
          by_cases hd : d = 'd'
          · subst hd
            rw [if_pos rfl]
            refine found_date (n := n) ?_ (by omega)
            exact fun later _ hshort hmode hnil => ih _ hshort later hmode (.inl hnil) rfl
          · have hfound := ih _ (by omega) (s := { s with
              mode := .text, patterns := s.flushed ++ [.inner d], tmp := [] }) rest rfl
              (.inl rfl) rfl
            rw [if_neg hd]
            intro hdate hbraces
            obtain ⟨hflushed, hformat⟩ := hfound hdate hbraces
            rw [elements_item rest hd, hflushed, hformat, flushed_nil rfl]
            simp [Element.symbol, Element.ownFormat]
      · -- a run of text, up to the next `%`
        have hnil : s.tmp = [] := by
          rcases htmp with h | h | h
          · exact h
          · cases h
          · exact absurd (Option.some.inj h) hpercent
        obtain ⟨run, later, heq, hne, hrun, hlater⟩ := exists_run hpercent rest
        have hshort : later.length < n := by
          have hlength := congrArg List.length heq
          have hpos := List.length_pos_of_ne_nil hne
          rw [List.length_cons, List.length_append] at hlength
          omega
        rw [heq, List.foldl_append, foldl_run hrun hmode]
        intro hdate hbraces
        obtain ⟨hflushed, hformat⟩ := ih _ hshort (s := { s with tmp := s.tmp ++ run }) later hmode
          (.inr hlater) rfl hdate hbraces
        rw [elements_text later hne hrun hlater, hflushed, hformat, flushed_run hnil hne]
        simp [Element.symbol, Element.ownFormat]

end Scan

/-! ## What `format` prints -/

/-- All own formats of a pattern, one behind the other. -/
def sharedFormat (pattern : Str) : Str := (elements pattern).flatMap Element.ownFormat

section Format
variable (lib : Libc) (logger : Logger) (level : LogLevel) (event : LogEvent)

/-- What is printed for an element, where `format` is that of all dates. -/
def Element.output (format : Str) : Element → Str
  | .text str => str
  | .item c => documented logger level event c
  | .date _ => dateTimeFormat lib format event.time

/-- The items do what the documentation says. -/
theorem documented_eq (c : Char) :
    ((formatItem c).map (FormatItem.format lib logger level event)).getD [] =
      documented logger level event c := by
  unfold formatItem
  split
  case h_12 =>
    unfold documented
    grind
  all_goals rfl

/-- A date is no item. -/
theorem item_ne_date {pattern : Str} {c : Char} (h : .item c ∈ elements pattern) : c ≠ 'd' := by
  fun_induction elements pattern with
  | case1 => cases h
  | case2 => cases h
  | case3 rest ih =>
    rcases List.mem_cons.mp h with h | h
    · cases h
    · exact ih h
  | case4 rest _ ih =>
    rcases List.mem_cons.mp h with h | h
    · cases h
    · exact ih h
  | case5 d rest hd ih =>
    rcases List.mem_cons.mp h with h | h
    · cases h
      exact hd
    · exact ih h
  | case6 d rest _ ih =>
    rcases List.mem_cons.mp h with h | h
    · cases h
    · exact ih h

variable {pattern : Str} {f : LogFormatter}

/-- The items of a pattern in which no error is found. -/
theorem create_items (h : LogFormatter.create pattern = .ok f) (herr : f.error = false) :
    ∃ s : Scan, s.dateFormat = sharedFormat pattern ∧
      f.items = ((elements pattern).map Element.symbol).filterMap s.item := by
  have hfound : Scan.Found {} (pattern.foldl Scan.read {}) pattern :=
    Scan.foldl_read pattern rfl (.inl rfl)
  unfold LogFormatter.create at h
  dsimp only at h
  split at h
  · cases h
  · -- `create` threw at a `%d` at the end, and has not
    rename_i hdate
    obtain rfl := Except.ok.inj h
    have hbraces : (pattern.foldl Scan.read {}).mode ≠ .braces := by
      intro heq
      rw [heq] at herr
      cases herr
    obtain ⟨hflushed, hformat⟩ := hfound hdate hbraces
    refine ⟨_, hformat, ?_⟩
    show (pattern.foldl Scan.read {}).flushed.filterMap _ = _
    rw [hflushed]
    rfl

theorem format_eq (h : LogFormatter.create pattern = .ok f) (herr : f.error = false) :
    f.format lib logger level event = (elements pattern).flatMap
      (Element.output lib logger level event (withDefault (sharedFormat pattern))) := by
  obtain ⟨s, hformat, hitems⟩ := create_items h herr
  have hitem : ∀ e ∈ elements pattern,
      ((s.item e.symbol).map (FormatItem.format lib logger level event)).getD [] =
        e.output lib logger level event (withDefault (sharedFormat pattern)) := by
    intro e he
    cases e with
    | text str => rfl
    | item c =>
      rw [Element.symbol, Scan.item, if_neg (item_ne_date he), Element.output, documented_eq]
    | date format =>
      rw [Element.symbol, Scan.item, if_pos rfl, hformat]
      rfl
  rw [LogFormatter.format, hitems]
  -- element by element, whatever the pattern they came from
  revert hitem
  generalize elements pattern = es
  intro hitem
  induction es with
  | nil => rfl
  | cons e es ih =>
    obtain ⟨hfirst, hrest⟩ := List.forall_mem_cons.mp hitem
    rw [List.map_cons, List.filterMap_cons, List.flatMap_cons, ← hfirst, ← ih hrest]
    cases s.item e.symbol with
    | none => rfl
    | some it => rfl

/-! ## When it is the meaning of the pattern -/

/-- Every date has the format that all dates get. -/
def OwnFormats (pattern : Str) : Prop :=
  ∀ format, .date format ∈ elements pattern →
    withDefault format = withDefault (sharedFormat pattern)

/-- The text of a date, if there is one, fits in the buffer with its terminator. -/
def DatesFit (strftime : Str → Nat → Str) (pattern : Str) (time : Nat) : Prop :=
  (∃ format, .date format ∈ elements pattern) →
    (strftime (withDefault (sharedFormat pattern)) time).length < 64

theorem format_eq_meaning (h : LogFormatter.create pattern = .ok f) (herr : f.error = false)
    (hown : OwnFormats pattern) (hfit : DatesFit lib.strftime pattern event.time) :
    f.format lib logger level event = meaning lib.strftime logger level event pattern := by
  rw [format_eq lib logger level event h herr, meaning]
  refine List.flatMap_congr fun e he => ?_
  cases e with
  | text str => rfl
  | item c => rfl
  | date format =>
    rw [Element.output, Element.meaning, hown format he, dateTimeFormat, if_pos (hfit ⟨format, he⟩)]

/-- Where less is printed for each date than it stands for, the whole differs. -/
theorem format_ne_meaning (h : LogFormatter.create pattern = .ok f) (herr : f.error = false)
    (hle : ∀ format, .date format ∈ elements pattern →
      (dateTimeFormat lib (withDefault (sharedFormat pattern)) event.time).length ≤
        (lib.strftime (withDefault format) event.time).length)
    {format : Str} (hdate : .date format ∈ elements pattern)
    (hlt : (dateTimeFormat lib (withDefault (sharedFormat pattern)) event.time).length <
      (lib.strftime (withDefault format) event.time).length) :
    f.format lib logger level event ≠ meaning lib.strftime logger level event pattern := by
  intro heq
  have hlength := congrArg List.length heq
  rw [format_eq lib logger level event h herr, meaning, List.length_flatMap,
    List.length_flatMap] at hlength
  refine absurd hlength (Nat.ne_of_lt (List.sum_lt_sum _ _ ?_ ⟨.date format, hdate, hlt⟩))
  intro e he
  cases e with
  | text str => exact Nat.le_refl _
  | item c => exact Nat.le_refl _
  | date format => exact hle format he

/-- Where the formats differ there is a `strftime` that shows it: one that prints something for
every format but the shared one. -/
theorem ownFormats_of_forall (h : LogFormatter.create pattern = .ok f) (herr : f.error = false)
    (hall : ∀ lib logger level event, DatesFit lib.strftime pattern event.time →
      f.format lib logger level event = meaning lib.strftime logger level event pattern) :
    OwnFormats pattern := by
  intro format hdate
  by_contra hne
  -- `strftime` prints nothing for the shared format, and one character for each other
  let lib : Libc :=
    { strftime := fun fmt _ => if fmt = withDefault (sharedFormat pattern) then [] else ['x']
      buf := fun _ _ => [] }
  let event : LogEvent := ⟨[], 0, 0, 0, 0, 0, [], []⟩
  have hnone : dateTimeFormat lib (withDefault (sharedFormat pattern)) event.time = [] := by
    simp [dateTimeFormat, lib]
  have hone : lib.strftime (withDefault format) event.time = ['x'] := if_neg hne
  have hfit : DatesFit lib.strftime pattern event.time := by
    intro _
    simp [lib]
  refine format_ne_meaning lib (.create []) .info event h herr ?_ hdate ?_
    (hall lib (.create []) .info event hfit)
  · intro _ _
    rw [hnone]
    exact Nat.zero_le _
  · rw [hnone, hone]
    exact Nat.zero_lt_one

/-- Where a date does not fit, an empty buffer shows it. -/
theorem datesFit_of_forall {strftime : Str → Nat → Str} (h : LogFormatter.create pattern = .ok f)
    (herr : f.error = false) (hown : OwnFormats pattern)
    (hall : ∀ buf, f.format ⟨strftime, buf⟩ logger level event =
      meaning strftime logger level event pattern) : DatesFit strftime pattern event.time := by
  rintro ⟨format, hdate⟩
  by_contra hlong
  have hnone : dateTimeFormat ⟨strftime, fun _ _ => []⟩
      (withDefault (sharedFormat pattern)) event.time = [] := if_neg hlong
  refine format_ne_meaning ⟨strftime, fun _ _ => []⟩ logger level event h herr ?_ hdate ?_
    (hall fun _ _ => [])
  · intro _ _
    rw [hnone]
    exact Nat.zero_le _
  · rw [hnone, hown format hdate]
    show 0 < (strftime _ _).length
    omega

/-- **When `format` prints what a pattern means**, for every pattern that `init` accepts.  If the
text of the date fits in its buffer, whatever `strftime` makes of formats: exactly where every
date has the format that all of them get.  And then, whatever the buffer holds otherwise:
exactly where that text fits. -/
theorem format_meaning_iff (h : LogFormatter.create pattern = .ok f) (herr : f.error = false) :
    ((∀ lib logger level event, DatesFit lib.strftime pattern event.time →
      f.format lib logger level event = meaning lib.strftime logger level event pattern) ↔
      OwnFormats pattern) ∧
    (OwnFormats pattern → ∀ strftime logger level event,
      ((∀ buf, f.format ⟨strftime, buf⟩ logger level event =
        meaning strftime logger level event pattern) ↔
        DatesFit strftime pattern event.time)) := by
  refine ⟨⟨ownFormats_of_forall h herr, ?_⟩, ?_⟩
  · intro hown lib logger level event hfit
    exact format_eq_meaning lib logger level event h herr hown hfit
  · intro hown strftime logger level event
    constructor
    · exact datesFit_of_forall logger level event h herr hown
    · intro hfit buf
      exact format_eq_meaning ⟨strftime, buf⟩ logger level event h herr hown hfit

end Format

/-- A pattern with one date. -/
def hourPattern : Str := "%d{%H}%T%m%n".toList

theorem format_meaning_hour :
    ∃ f, LogFormatter.create hourPattern = .ok f ∧ f.error = false ∧
      (∀ lib logger level event, DatesFit lib.strftime hourPattern event.time →
        f.format lib logger level event =
          meaning lib.strftime logger level event hourPattern) := by
  refine ⟨⟨hourPattern, [.dateTime "%H".toList, .tab, .message, .newLine], false⟩,
    by decide +kernel, rfl, ?_⟩
  refine (format_meaning_iff (by decide +kernel) rfl).1.mpr ?_
  intro format hformat
  have hpattern : hourPattern = '%' :: 'd' :: '{' :: ("%H".toList ++ '}' :: "%T%m%n".toList) := by
    decide
  have helements : elements hourPattern = [.date "%H".toList, .item 'T', .item 'm', .item 'n'] := by
    rw [hpattern, elements_format _ _ (by decide)]
    show _ :: elements ['%', 'T', '%', 'm', '%', 'n'] = _
    rw [elements_item _ (by decide), elements_item _ (by decide), elements_item _ (by decide),
      elements_nil]
  rw [helements] at hformat
  simp only [List.mem_cons, Element.date.injEq, reduceCtorEq, List.not_mem_nil, or_false] at hformat
  rw [hformat, sharedFormat, helements]
  rfl

/-- A pattern with two dates, for hours and for minutes. -/
def clockPattern : Str := "%d{%H}:%d{%M}".toList

/-- What `strftime` makes of their formats and of both together, at half past three. -/
def halfPastThree (format : Str) (_ : Nat) : Str :=
  if format = "%H".toList then "15".toList
  else if format = "%M".toList then "30".toList
  else "1530".toList

/-- Both dates are printed in the two formats together. -/
theorem clock_printed_twice :
    ∃ f, LogFormatter.create clockPattern = .ok f ∧ f.error = false ∧
      ∃ logger level event,
        f.format ⟨halfPastThree, fun _ _ => []⟩ logger level event = "1530:1530".toList ∧
        meaning halfPastThree logger level event clockPattern = "15:30".toList := by
  refine ⟨⟨clockPattern, [.dateTime "%H%M".toList, .string [':'], .dateTime "%H%M".toList], false⟩,
    by decide +kernel, rfl, .create [], .info, ⟨[], 0, 0, 0, 0, 0, [], []⟩, by decide +kernel, ?_⟩
  have hpattern : clockPattern = '%' :: 'd' :: '{' :: ("%H".toList ++ '}' ::
      ([':'] ++ '%' :: 'd' :: '{' :: ("%M".toList ++ '}' :: []))) := by
    decide
  have helements : elements clockPattern = [.date "%H".toList, .text [':'], .date "%M".toList] := by
    rw [hpattern, elements_format _ _ (by decide),
      elements_text _ (by decide) (by decide) (.inr rfl), elements_format _ _ (by decide),
      elements_nil]
  rw [meaning, helements]
  decide +kernel

end Sylar
