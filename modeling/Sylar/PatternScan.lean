import Sylar.LogFormat

/-! # Which log patterns are accepted

`Documented` is the language of patterns: ordinary characters, `%%`, the items that
`LogFormatter` lists, and dates, whose braces are closed.  `ending` says where a pattern stops,
and by `documented_iff` this and the items decide whether it is documented.  **`create_iff`**
compares the language with the patterns in which `init` finds no error: `init` has no item for
`%%`, does not see a `%` that ends the pattern, and reads behind the pattern when a `%d` does.

`scanLoop` is the loop of `init` with its index, which is advanced past the end there.
**`indices_iff`**: the indices stay in the pattern exactly where no `%d` ends it. -/
namespace Sylar

/-! ## The language -/

/-- The letters of the documentation, without `d`. -/
def itemLetters : List Char := ['m', 'p', 'r', 'c', 't', 'n', 'f', 'l', 'T', 'F', 'N']

/-- A brace behind a `%d` begins its format. -/
inductive Documented : Str → Prop
  | nil : Documented []
  | text {c : Char} {rest : Str} : c ≠ '%' → Documented rest → Documented (c :: rest)
  | percent {rest : Str} : Documented rest → Documented ('%' :: '%' :: rest)
  | item {c : Char} {rest : Str} :
    c ∈ itemLetters → Documented rest → Documented ('%' :: c :: rest)
  | date {rest : Str} :
    rest.head? ≠ some '{' → Documented rest → Documented ('%' :: 'd' :: rest)
  | format {format rest : Str} :
    '}' ∉ format → Documented rest → Documented ('%' :: 'd' :: '{' :: (format ++ '}' :: rest))

/-- Where a pattern stops. -/
inductive Ending
  /-- Behind an element. -/
  | whole
  /-- Behind a `%`. -/
  | percent
  /-- Behind a `%d`. -/
  | date
  /-- In a format that is not closed. -/
  | unclosed
  deriving DecidableEq, Repr

def ending : Str → Ending
  | [] => .whole
  | c :: rest =>
    if c = '%' then
      match rest with
      | [] => .percent
      | d :: rest =>
        if d = 'd' then
          match rest with
          | [] => .date
          | e :: rest =>
            if e = '{' then
              if '}' ∈ rest then ending ((rest.dropWhile (· ≠ '}')).drop 1) else .unclosed
            else ending (e :: rest)
        else ending rest
    else ending rest
termination_by pattern => pattern.length
decreasing_by
  · have hle := length_behind_lt (· ≠ '}') rest
    simp only [List.length_cons]
    omega
  all_goals
    simp only [List.length_cons]
    omega

/-! ## One element after the other -/

section Equations
variable {c : Char} {rest : Str}

@[simp] theorem ending_nil : ending [] = .whole := by
  rw [ending.eq_def]

@[simp] theorem ending_percent : ending ['%'] = .percent := by
  rw [ending.eq_def]
  rfl

@[simp] theorem ending_date : ending ['%', 'd'] = .date := by
  rw [ending.eq_def]
  rfl

theorem ending_text (hc : c ≠ '%') : ending (c :: rest) = ending rest := by
  rw [ending.eq_def]
  dsimp only
  rw [if_neg hc]

theorem ending_item (hc : c ≠ 'd') : ending ('%' :: c :: rest) = ending rest := by
  rw [ending.eq_def]
  dsimp only
  rw [if_pos rfl, if_neg hc]

theorem ending_plain (hc : c ≠ '{') :
    ending ('%' :: 'd' :: c :: rest) = ending (c :: rest) := by
  rw [ending.eq_def]
  dsimp only
  rw [if_pos rfl, if_pos rfl, if_neg hc]

theorem ending_unclosed (hrest : '}' ∉ rest) :
    ending ('%' :: 'd' :: '{' :: rest) = .unclosed := by
  rw [ending.eq_def]
  dsimp only
  rw [if_pos rfl, if_pos rfl, if_pos rfl, if_neg hrest]

theorem ending_format {format : Str} (hformat : '}' ∉ format) :
    ending ('%' :: 'd' :: '{' :: (format ++ '}' :: rest)) = ending rest := by
  have hall : ∀ c ∈ format, decide (c ≠ '}') = true := by
    intro c hc
    exact decide_eq_true fun heq => hformat (heq ▸ hc)
  have hdrop : (format ++ '}' :: rest).dropWhile (· ≠ '}') = '}' :: rest := by
    rw [List.dropWhile_append_of_pos hall, List.dropWhile_cons_of_neg (by decide)]
  rw [ending.eq_def]
  dsimp only
  rw [if_pos rfl, if_pos rfl, if_pos rfl,
    if_pos (List.mem_append.mpr (.inr (List.mem_cons_self ..)))]
  exact congrArg (fun later : Str => ending (later.drop 1)) hdrop

end Equations

/-- Induction on a pattern, by what it begins with. -/
theorem pattern_induction {motive : Str → Prop} (nil : motive [])
    (text : ∀ c rest, c ≠ '%' → motive rest → motive (c :: rest))
    (percent : motive ['%'])
    (item : ∀ c rest, c ≠ 'd' → motive rest → motive ('%' :: c :: rest))
    (date : motive ['%', 'd'])
    (plain : ∀ c rest, c ≠ '{' → motive (c :: rest) → motive ('%' :: 'd' :: c :: rest))
    (unclosed : ∀ rest, '}' ∉ rest → motive ('%' :: 'd' :: '{' :: rest))
    (format : ∀ format rest, '}' ∉ format → motive rest →
      motive ('%' :: 'd' :: '{' :: (format ++ '}' :: rest)))
    (pattern : Str) : motive pattern := by
  induction hlen : pattern.length using Nat.strongRecOn generalizing pattern with
  | ind n ih =>
    have hshort : ∀ later : Str, later.length < n → motive later :=
      fun later h => ih _ h later rfl
    cases pattern with
    | nil => exact nil
    | cons c rest =>
      rw [List.length_cons] at hlen
      by_cases hc : c = '%'
      · subst hc
        cases rest with
        | nil => exact percent
        | cons d rest =>
          rw [List.length_cons] at hlen
          by_cases hd : d = 'd'
          · subst hd
            cases rest with
            | nil => exact date
            | cons e rest =>
              rw [List.length_cons] at hlen
              by_cases he : e = '{'
              · subst he
                by_cases hmem : '}' ∈ rest
                · obtain ⟨text, later, rfl, htext⟩ := List.eq_append_cons_of_mem hmem
                  rw [List.length_append, List.length_cons] at hlen
                  exact format text later htext (hshort later (by omega))
                · exact unclosed rest hmem
              · exact plain e rest he (hshort _ (by rw [List.length_cons]; omega))
          · exact item d rest hd (hshort rest (by omega))
      · exact text c rest hc (hshort rest (by omega))

/-! ## What is documented -/

/-- A character of a text is no item. -/
theorem item_mem_text {c d : Char} {rest : Str} (hc : c ≠ '%') :
    .item d ∈ elements (c :: rest) ↔ .item d ∈ elements rest := by
  have hfirst : elements (c :: rest) =
      .text (c :: rest.takeWhile (· ≠ '%')) :: elements (rest.dropWhile (· ≠ '%')) := by
    rw [elements.eq_def]
    dsimp only
    rw [if_neg hc]
  rw [hfirst, List.mem_cons, or_iff_right (by intro h; cases h)]
  cases rest with
  | nil => rfl
  | cons e rest =>
    by_cases he : e = '%'
    · subst he
      rw [List.dropWhile_cons_of_neg (by decide)]
    · have hpass : decide (e ≠ '%') = true := decide_eq_true he
      have hsecond : elements (e :: rest) =
          .text (e :: rest.takeWhile (· ≠ '%')) :: elements (rest.dropWhile (· ≠ '%')) := by
        rw [elements.eq_def]
        dsimp only
        rw [if_neg he]
      rw [hsecond, List.mem_cons, or_iff_right (by intro h; cases h), List.dropWhile_cons,
        if_pos hpass]

theorem item_mem_item {c d : Char} {rest : Str} (hc : c ≠ 'd') :
    .item d ∈ elements ('%' :: c :: rest) ↔ d = c ∨ .item d ∈ elements rest := by
  rw [elements_item rest hc, List.mem_cons, Element.item.injEq]

theorem item_mem_date {d : Char} {rest : Str} (h : rest.head? ≠ some '{') :
    .item d ∈ elements ('%' :: 'd' :: rest) ↔ .item d ∈ elements rest := by
  rw [elements_date rest h, List.mem_cons, or_iff_right (by intro h; cases h)]

theorem item_mem_format {d : Char} {format rest : Str} (h : '}' ∉ format) :
    .item d ∈ elements ('%' :: 'd' :: '{' :: (format ++ '}' :: rest)) ↔
      .item d ∈ elements rest := by
  rw [elements_format rest format h, List.mem_cons, or_iff_right (by intro h; cases h)]

/-- Nothing but the items and `%%` stands behind a `%`. -/
def Lettered (pattern : Str) : Prop :=
  ∀ c, .item c ∈ elements pattern → c = '%' ∨ c ∈ itemLetters

theorem ending_plain_or {rest : Str} (h : rest.head? ≠ some '{') :
    ending ('%' :: 'd' :: rest) = if rest = [] then .date else ending rest := by
  cases rest with
  | nil => exact ending_date
  | cons c rest => exact ending_plain fun heq => h (congrArg some heq)

theorem Documented.lettered {pattern : Str} (h : Documented pattern) :
    (ending pattern = .whole ∨ ending pattern = .date) ∧ Lettered pattern := by
  induction h with
  | nil => exact ⟨.inl ending_nil, fun c hc => by simp at hc⟩
  | text hc _ ih =>
    rw [ending_text hc]
    exact ⟨ih.1, fun d hd => ih.2 d ((item_mem_text hc).mp hd)⟩
  | percent _ ih =>
    rw [ending_item (by decide)]
    refine ⟨ih.1, fun d hd => ?_⟩
    rcases (item_mem_item (by decide)).mp hd with rfl | hd
    · exact .inl rfl
    · exact ih.2 d hd
  | @item c rest hc _ ih =>
    have hne : c ≠ 'd' := by
      rintro rfl
      exact absurd hc (by decide)
    rw [ending_item hne]
    refine ⟨ih.1, fun d hd => ?_⟩
    rcases (item_mem_item hne).mp hd with rfl | hd
    · exact .inr hc
    · exact ih.2 d hd
  | date hrest _ ih =>
    rw [ending_plain_or hrest]
    refine ⟨?_, fun d hd => ih.2 d ((item_mem_date hrest).mp hd)⟩
    split_ifs
    · exact .inr rfl
    · exact ih.1
  | format hformat _ ih =>
    rw [ending_format hformat]
    exact ⟨ih.1, fun d hd => ih.2 d ((item_mem_format hformat).mp hd)⟩

theorem documented_of_lettered {pattern : Str}
    (hend : ending pattern = .whole ∨ ending pattern = .date) (hletters : Lettered pattern) :
    Documented pattern := by
  induction pattern using pattern_induction with
  | nil => exact .nil
  | text c rest hc ih =>
    rw [ending_text hc] at hend
    exact .text hc (ih hend fun d hd => hletters d ((item_mem_text hc).mpr hd))
  | percent =>
    rw [ending_percent] at hend
    rcases hend with h | h <;> cases h
  | item c rest hc ih =>
    rw [ending_item hc] at hend
    have hrest := ih hend fun d hd => hletters d ((item_mem_item hc).mpr (.inr hd))
    -- a `%%` is documented, though the table has no item for it
    rcases hletters c ((item_mem_item hc).mpr (.inl rfl)) with rfl | hletter
    · exact .percent hrest
    · exact .item hletter hrest
  | date => exact .date (by simp) .nil
  | plain c rest hc ih =>
    rw [ending_plain hc] at hend
    have hhead : (c :: rest).head? ≠ some '{' := fun heq => hc (Option.some.inj heq)
    exact .date hhead (ih hend fun d hd => hletters d ((item_mem_date hhead).mpr hd))
  | unclosed rest hrest =>
    rw [ending_unclosed hrest] at hend
    rcases hend with h | h <;> cases h
  | format format rest hformat ih =>
    rw [ending_format hformat] at hend
    exact .format hformat (ih hend fun d hd => hletters d ((item_mem_format hformat).mpr hd))

theorem documented_iff (pattern : Str) : Documented pattern ↔
    (ending pattern = .whole ∨ ending pattern = .date) ∧ Lettered pattern :=
  ⟨Documented.lettered, fun ⟨hend, hletters⟩ => documented_of_lettered hend hletters⟩

/-! ## What is accepted -/

/-- Where `init` stands behind a pattern. -/
def Ending.mode : Ending → ScanMode
  | .whole => .text
  | .percent => .escape
  | .date => .date
  | .unclosed => .braces

theorem mode_foldl {s : Scan} (hmode : s.mode = .text) (pattern : Str) :
    (pattern.foldl Scan.read s).mode = (ending pattern).mode := by
  induction pattern using pattern_induction generalizing s with
  | nil =>
    rw [ending_nil]
    exact hmode
  | text c rest hc ih =>
    have hread : (s.read c).mode = .text := by
      rw [Scan.read, hmode]
      dsimp only
      rw [Scan.readText, if_neg hc]
    rw [List.foldl_cons, ending_text hc, ih hread]
  | percent =>
    rw [List.foldl_cons, Scan.read_percent hmode, ending_percent]
    rfl
  | item c rest hc ih =>
    rw [List.foldl_cons, Scan.read_percent hmode, List.foldl_cons, Scan.read_letter, if_neg hc,
      ending_item hc, ih rfl]
  | date =>
    rw [List.foldl_cons, Scan.read_percent hmode, List.foldl_cons, Scan.read_letter, ending_date]
    rfl
  | plain c rest hc ih =>
    have hih := ih (s := { s with
      mode := .text, patterns := s.flushed ++ [.inner 'd'], tmp := [] }) rfl
    rw [List.foldl_cons, Scan.read_percent hmode, List.foldl_cons, Scan.read_letter, if_pos rfl,
      List.foldl_cons, Scan.read_date rfl hc, ending_plain hc]
    exact hih
  | unclosed rest hrest =>
    rw [List.foldl_cons, Scan.read_percent hmode, List.foldl_cons, Scan.read_letter,
      List.foldl_cons, ending_unclosed hrest]
    show (rest.foldl Scan.read { s with
      mode := .braces, patterns := s.flushed ++ [.inner 'd'], tmp := [] }).mode = .braces
    rw [Scan.foldl_format hrest rfl]
  | format format rest hformat ih =>
    have hih := ih (s := { s with
      mode := .text, patterns := s.flushed ++ [.inner 'd'], tmp := []
      dateFormat := s.dateFormat ++ format }) rfl
    rw [List.foldl_cons, Scan.read_percent hmode, List.foldl_cons, Scan.read_letter,
      List.foldl_cons, ending_format hformat, ← hih]
    show ((format ++ '}' :: rest).foldl Scan.read { s with
      mode := .braces, patterns := s.flushed ++ [.inner 'd'], tmp := [] }).mode = _
    rw [List.foldl_append, Scan.foldl_format hformat rfl]
    rfl

theorem formatItem_eq_none {c : Char} : formatItem c = none ↔ c ∉ itemLetters := by
  unfold formatItem
  split
  case h_12 => simp_all [itemLetters]
  all_goals exact iff_of_false (by intro h; cases h) (fun h => h (by decide))

theorem mode_eq_iff (pattern : Str) (e : Ending) :
    (pattern.foldl Scan.read {}).mode = e.mode ↔ ending pattern = e := by
  rw [mode_foldl rfl]
  constructor
  · intro h
    revert h
    cases ending pattern <;> cases e <;> intro h <;> first | rfl | cases h
  · exact congrArg Ending.mode

/-- An element has an item if it is none that the table lacks. -/
theorem isNone_item_symbol {s : Scan} {pattern : Str} {e : Element} (he : e ∈ elements pattern) :
    (s.item e.symbol).isNone ↔ ∃ c, e = .item c ∧ c ∉ itemLetters := by
  cases e with
  | text str => exact iff_of_false Bool.false_ne_true (by rintro ⟨c, hc, -⟩; cases hc)
  | date format => exact iff_of_false Bool.false_ne_true (by rintro ⟨c, hc, -⟩; cases hc)
  | item c =>
    rw [Element.symbol, Scan.item, if_neg (item_ne_date he), Option.isNone_iff_eq_none,
      formatItem_eq_none]
    constructor
    · intro hc
      exact ⟨c, rfl, hc⟩
    · rintro ⟨d, hd, hc⟩
      cases hd
      exact hc

/-- There is no error exactly where all formats are closed and all items are in the table. -/
theorem create_error_iff {pattern : Str} (hend : ending pattern ≠ .date) :
    ∃ f, LogFormatter.create pattern = .ok f ∧
      (f.error = false ↔ ending pattern ≠ .unclosed ∧
        ∀ c, .item c ∈ elements pattern → c ∈ itemLetters) := by
  have hmode : (pattern.foldl Scan.read {}).mode ≠ .date :=
    fun h => hend ((mode_eq_iff pattern .date).mp h)
  have hopen : (pattern.foldl Scan.read {}).mode = .braces ↔ ending pattern = .unclosed :=
    mode_eq_iff pattern .unclosed
  refine ⟨_, if_neg hmode, ?_⟩
  dsimp only
  rw [Bool.or_eq_false_iff, decide_eq_false_iff_not, hopen]
  refine and_congr_right fun hclosed => ?_
  have hbraces : (pattern.foldl Scan.read {}).mode ≠ .braces :=
    fun h => hclosed (hopen.mp h)
  -- the scanner has found the elements, and the error is looked for in them
  have hflushed : _ = [] ++ _ :=
    (Scan.foldl_read (s := {}) pattern rfl (.inl rfl) hmode hbraces).1
  rw [hflushed, List.nil_append, List.any_eq_false]
  constructor
  · intro hall c hc
    by_contra hunknown
    exact hall _ (List.mem_map_of_mem hc) ((isNone_item_symbol hc).mpr ⟨c, rfl, hunknown⟩)
  · intro hall p hp
    obtain ⟨e, he, rfl⟩ := List.mem_map.mp hp
    rw [isNone_item_symbol he]
    rintro ⟨c, rfl, hunknown⟩
    exact hunknown (hall c he)

/-- `m_error` is set exactly where the pattern is not documented. -/
def InitRight (pattern : Str) : Prop :=
  ∃ f, LogFormatter.create pattern = .ok f ∧ (f.error = true ↔ ¬ Documented pattern)

/-- The pattern is wrong in a way that `init` sees: a format is not closed, or an item is none
that is listed, and no `%%`. -/
def SeenWrong (pattern : Str) : Prop :=
  ending pattern = .unclosed ∨ ∃ c, .item c ∈ elements pattern ∧ c ≠ '%' ∧ c ∉ itemLetters

theorem create_date {pattern : Str} (hend : ending pattern = .date) :
    LogFormatter.create pattern = .error .outOfRange :=
  if_pos ((mode_eq_iff pattern .date).mpr hend)

/-- The items are all in the table if `%%` is none of them. -/
theorem known_iff (pattern : Str) : (∀ c, .item c ∈ elements pattern → c ∈ itemLetters) ↔
    Lettered pattern ∧ .item '%' ∉ elements pattern := by
  constructor
  · intro h
    exact ⟨fun c hc => .inr (h c hc), fun hp => absurd (h _ hp) (by decide)⟩
  · rintro ⟨h, hp⟩ c hc
    refine (h c hc).resolve_left ?_
    rintro rfl
    exact hp hc

theorem not_lettered_iff (pattern : Str) : ¬ Lettered pattern ↔
    ∃ c, .item c ∈ elements pattern ∧ c ≠ '%' ∧ c ∉ itemLetters := by
  simp only [Lettered, not_forall, not_or, exists_prop]

/-- **Where `init` sets `m_error` as the documentation says**, for every pattern: not where a
`%d` ends it; and otherwise where it is wrong in a way that is seen, or where it has a `%%`
exactly if a `%` ends it, so that the first is not accepted and the second is. -/
theorem create_iff (pattern : Str) :
    InitRight pattern ↔ ending pattern ≠ .date ∧
      (SeenWrong pattern ∨ (.item '%' ∈ elements pattern ↔ ending pattern = .percent)) := by
  by_cases hend : ending pattern = .date
  · refine iff_of_false ?_ fun h => h.1 hend
    rintro ⟨f, hf, -⟩
    rw [create_date hend] at hf
    cases hf
  · obtain ⟨f, hf, herror⟩ := create_error_iff hend
    have hright : InitRight pattern ↔ (f.error = false ↔ Documented pattern) := by
      constructor
      · rintro ⟨f', hf', h⟩
        obtain rfl := Except.ok.inj (hf.symm.trans hf')
        rw [← Bool.not_eq_true, h, not_not]
      · intro h
        exact ⟨f, hf, by rw [← h, Bool.not_eq_false]⟩
    rw [hright, herror, known_iff, documented_iff, SeenWrong, ← not_lettered_iff]
    -- a format that is not closed and a letter that is not listed are seen, however it ends
    cases he : ending pattern with
    | date => exact absurd he hend
    | whole => by_cases hletters : Lettered pattern <;> simp [hletters]
    | percent => by_cases hletters : Lettered pattern <;> simp [hletters]
    | unclosed => simp

/-- A `%%` is an error, a lone `%` is none, and behind a `%d` the index runs out. -/
theorem percents_wrong :
    (LogFormatter.create ['%', '%'] = .ok ⟨['%', '%'], [], true⟩ ∧ ¬ InitRight ['%', '%']) ∧
    (LogFormatter.create ['%'] = .ok ⟨['%'], [], false⟩ ∧ ¬ InitRight ['%']) ∧
    (LogFormatter.create ['%', 'd'] = .error .outOfRange ∧ ¬ InitRight ['%', 'd']) := by
  have htwo : LogFormatter.create ['%', '%'] = .ok ⟨['%', '%'], [], true⟩ := by decide
  have hone : LogFormatter.create ['%'] = .ok ⟨['%'], [], false⟩ := by decide
  refine ⟨⟨htwo, ?_⟩, ⟨hone, ?_⟩, create_date ending_date, ?_⟩
  · rintro ⟨f, hf, herror⟩
    obtain rfl := Except.ok.inj (htwo.symm.trans hf)
    exact herror.mp rfl (.percent .nil)
  · rintro ⟨f, hf, herror⟩
    obtain rfl := Except.ok.inj (hone.symm.trans hf)
    have hnot : ¬ Documented ['%'] := by
      rw [documented_iff, ending_percent]
      rintro ⟨h | h, -⟩ <;> cases h
    cases herror.mpr hnot
  · rintro ⟨f, hf, -⟩
    rw [create_date ending_date] at hf
    cases hf

/-! ## The loop with its index -/

/-- The variables of `init`, and the indices that it used on `m_pattern`. -/
structure ScanLoop where
  i : Nat := 0
  parsingString : Bool := true
  patterns : List Symbol := []
  tmp : Str := []
  dateFormat : Str := []
  m_error : Bool := false
  indices : List Nat := []
  deriving DecidableEq, Repr

namespace ScanLoop

/-- `m_pattern[i]`: behind the terminator stands what `beyond` says. -/
def charAt (pattern : Str) (beyond : Nat → Char) (i : Nat) : Char :=
  if i < pattern.length then pattern.getD i '\x00'
  else if i = pattern.length then '\x00' else beyond i

variable (pattern : Str) (beyond : Nat → Char)

/-- `m_pattern[i]` is used. -/
def used (s : ScanLoop) : ScanLoop := { s with indices := s.indices ++ [s.i] }

/-- The loop up to a closing brace. -/
def dateLoop (s : ScanLoop) : ScanLoop :=
  if s.i < pattern.length then
    let c := charAt pattern beyond s.i
    if c ≠ '}' then
      dateLoop { s.used with dateFormat := s.dateFormat ++ [c], i := s.i + 1 }
    else s.used
  else s
termination_by pattern.length - s.i

/-- From the brace behind a `%d` on; where it is not closed, `m_error` is set. -/
def group (s : ScanLoop) : ScanLoop :=
  let s := dateLoop pattern beyond { s with i := s.i + 1 }
  if charAt pattern beyond s.i ≠ '}' then { s.used with m_error := true }
  else { s.used with i := s.i + 1 }

/-- Behind a `%d`.  What is not there is no other character than a brace. -/
def behindDate (s : ScanLoop) : ScanLoop :=
  if s.i < pattern.length then
    if charAt pattern beyond s.i ≠ '{' then s.used else group pattern beyond s.used
  else group pattern beyond s

/-- A turn of the outer loop. -/
def turn (s : ScanLoop) : ScanLoop :=
  let c := charAt pattern beyond s.i
  let s := s.used
  if c = '%' then
    if s.parsingString then
      { s with
        patterns := if s.tmp = [] then s.patterns else s.patterns ++ [.regular s.tmp]
        tmp := [], parsingString := false, i := s.i + 1 }
    else { s with patterns := s.patterns ++ [.inner c], parsingString := true, i := s.i + 1 }
  else if s.parsingString then { s with tmp := s.tmp ++ [c], i := s.i + 1 }
  else
    let s := { s with patterns := s.patterns ++ [.inner c], parsingString := true, i := s.i + 1 }
    if c ≠ 'd' then s else behindDate pattern beyond s

theorem le_dateLoop (s : ScanLoop) : s.i ≤ (dateLoop pattern beyond s).i := by
  fun_induction dateLoop pattern beyond s with
  | case1 s _ c _ ih => exact Nat.le_trans (Nat.le_succ s.i) ih
  | case2 => exact Nat.le_refl _
  | case3 => exact Nat.le_refl _

theorem le_group (s : ScanLoop) : s.i ≤ (group pattern beyond s).i := by
  have hle := le_dateLoop pattern beyond { s with i := s.i + 1 }
  have hloop : s.i ≤ (dateLoop pattern beyond { s with i := s.i + 1 }).i :=
    Nat.le_trans (Nat.le_succ s.i) hle
  unfold group
  dsimp only
  split_ifs
  · exact hloop
  · exact Nat.le_succ_of_le hloop

theorem le_behindDate (s : ScanLoop) : s.i ≤ (behindDate pattern beyond s).i := by
  unfold behindDate
  split_ifs
  · exact Nat.le_refl _
  · exact le_group pattern beyond s.used
  · exact le_group pattern beyond s

/-- Every turn moves on. -/
theorem lt_turn (s : ScanLoop) : s.i < (turn pattern beyond s).i := by
  unfold turn
  dsimp only
  split_ifs
  all_goals first
    | exact Nat.lt_succ_self s.i
    | refine Nat.lt_of_lt_of_le ?_ (le_behindDate pattern beyond _)
      exact Nat.lt_succ_self s.i

/-- The outer loop, which a format that is not closed breaks. -/
def loop (s : ScanLoop) : ScanLoop :=
  if s.i < pattern.length then
    if (turn pattern beyond s).m_error then turn pattern beyond s
    else loop (turn pattern beyond s)
  else s
termination_by pattern.length - s.i
decreasing_by
  have hlt := lt_turn pattern beyond s
  omega

/-- What the loop has in common with `Scan`. -/
def scan (s : ScanLoop) : Scan where
  mode := if s.parsingString then .text else .escape
  patterns := s.patterns
  tmp := s.tmp
  dateFormat := s.dateFormat

/-! ### Turns -/

section Turns
variable {pattern} {s : ScanLoop} {c : Char} {rest : Str}

theorem lt_of_drop {i : Nat} (h : pattern.drop i = c :: rest) : i < pattern.length := by
  by_contra hge
  rw [List.drop_eq_nil_of_le (by omega)] at h
  cases h

theorem charAt_of_drop {i : Nat} (h : pattern.drop i = c :: rest) :
    charAt pattern beyond i = c := by
  have hlt := lt_of_drop h
  have hget : pattern[i] :: pattern.drop (i + 1) = c :: rest :=
    (List.drop_eq_getElem_cons hlt).symm.trans h
  rw [charAt, if_pos hlt, List.getD, List.getElem?_eq_getElem hlt]
  exact (List.cons.inj hget).1

theorem drop_succ (h : pattern.drop s.i = c :: rest) : pattern.drop (s.i + 1) = rest := by
  rw [← List.drop_drop, h]
  rfl

theorem loop_step (hlt : s.i < pattern.length) (herror : (turn pattern beyond s).m_error = false) :
    loop pattern beyond s = loop pattern beyond (turn pattern beyond s) := by
  rw [loop, if_pos hlt, if_neg (by rw [herror]; exact Bool.false_ne_true)]

theorem loop_end (hge : pattern.length ≤ s.i) : loop pattern beyond s = s := by
  rw [loop, if_neg (by omega)]

/-- The characters of a format are gathered. -/
theorem dateLoop_run {format later : Str} (hformat : '}' ∉ format)
    (h : pattern.drop s.i = format ++ later) :
    dateLoop pattern beyond s = dateLoop pattern beyond { s with
      i := s.i + format.length, dateFormat := s.dateFormat ++ format
      indices := s.indices ++ List.range' s.i format.length } := by
  induction format generalizing s with
  | nil => simp
  | cons c format ih =>
    rw [List.mem_cons, not_or] at hformat
    rw [dateLoop, if_pos (lt_of_drop h)]
    dsimp only
    rw [charAt_of_drop beyond h, if_pos fun heq => hformat.1 heq.symm,
      ih hformat.2 (drop_succ h)]
    simp [used, List.range'_succ, Nat.add_assoc, Nat.add_comm 1]

/-- A character that is not a `%`, in the text. -/
theorem turn_text (h : pattern.drop s.i = c :: rest) (hmode : s.parsingString = true)
    (hc : c ≠ '%') : turn pattern beyond s = { s.used with tmp := s.tmp ++ [c], i := s.i + 1 } := by
  have hused : s.used.parsingString = true := hmode
  rw [turn, charAt_of_drop beyond h]
  dsimp only
  rw [if_neg hc, if_pos hused]
  rfl

/-- The state behind a `%`. -/
def escaped (s : ScanLoop) : ScanLoop :=
  { s.used with patterns := s.scan.flushed, tmp := [], parsingString := false, i := s.i + 1 }

theorem turn_percent (h : pattern.drop s.i = '%' :: rest) (hmode : s.parsingString = true) :
    turn pattern beyond s = s.escaped := by
  have hused : s.used.parsingString = true := hmode
  rw [turn, charAt_of_drop beyond h]
  dsimp only
  rw [if_pos rfl, if_pos hused]
  rfl

/-- The state behind a `%` and a character. -/
def behind (s : ScanLoop) (c : Char) : ScanLoop :=
  { s.used with patterns := s.patterns ++ [.inner c], parsingString := true, i := s.i + 1 }

theorem turn_letter (h : pattern.drop s.i = c :: rest) (hmode : s.parsingString = false)
    (hc : c ≠ 'd') : turn pattern beyond s = s.behind c := by
  have hused : ¬ s.used.parsingString = true := Bool.eq_false_iff.mp hmode
  rw [turn, charAt_of_drop beyond h]
  dsimp only
  rw [if_neg hused, if_neg hused, if_pos hc]
  exact ite_self _

theorem turn_d (h : pattern.drop s.i = 'd' :: rest) (hmode : s.parsingString = false) :
    turn pattern beyond s = behindDate pattern beyond (s.behind 'd') := by
  have hused : ¬ s.used.parsingString = true := Bool.eq_false_iff.mp hmode
  rw [turn, charAt_of_drop beyond h]
  dsimp only
  rw [if_neg (by decide), if_neg hused, if_neg (fun h => h rfl)]
  rfl

theorem behindDate_plain (h : pattern.drop s.i = c :: rest) (hc : c ≠ '{') :
    behindDate pattern beyond s = s.used := by
  rw [behindDate, if_pos (lt_of_drop h), charAt_of_drop beyond h, if_pos hc]

theorem behindDate_brace (h : pattern.drop s.i = '{' :: rest) :
    behindDate pattern beyond s = group pattern beyond s.used := by
  rw [behindDate, if_pos (lt_of_drop h), charAt_of_drop beyond h, if_neg (fun h => h rfl)]

/-- A closed format. -/
theorem group_closed {format later : Str} (hformat : '}' ∉ format)
    (h : pattern.drop (s.i + 1) = format ++ '}' :: later) :
    group pattern beyond s = { s with
      i := s.i + 1 + format.length + 1, dateFormat := s.dateFormat ++ format
      indices := s.indices ++ List.range' (s.i + 1) format.length ++
        [s.i + 1 + format.length, s.i + 1 + format.length] } := by
  have hend : pattern.drop (s.i + 1 + format.length) = '}' :: later := by
    rw [← List.drop_drop, h, List.drop_left]
  have hclose : dateLoop pattern beyond { s with i := s.i + 1 } = { s with
      i := s.i + 1 + format.length, dateFormat := s.dateFormat ++ format
      indices := s.indices ++ List.range' (s.i + 1) format.length ++
        [s.i + 1 + format.length] } := by
    rw [dateLoop_run beyond (s := { s with i := s.i + 1 }) hformat h, dateLoop,
      if_pos (lt_of_drop hend)]
    dsimp only
    rw [charAt_of_drop beyond hend, if_neg (fun h => h rfl)]
    rfl
  rw [group, hclose]
  dsimp only
  rw [charAt_of_drop beyond hend, if_neg (fun h => h rfl)]
  simp [used]

theorem charAt_length : charAt pattern beyond pattern.length = '\x00' := by
  rw [charAt, if_neg (Nat.lt_irrefl _), if_pos rfl]

/-- A format that is not closed. -/
theorem group_unclosed (hrest : '}' ∉ rest) (h : pattern.drop (s.i + 1) = rest)
    (hle : s.i + 1 ≤ pattern.length) :
    group pattern beyond s = { s with
      i := pattern.length, dateFormat := s.dateFormat ++ rest, m_error := true
      indices := s.indices ++ List.range' (s.i + 1) rest.length ++ [pattern.length] } := by
  have hlen : s.i + 1 + rest.length = pattern.length := by
    rw [← h, List.length_drop]
    omega
  have hstop : dateLoop pattern beyond { s with i := s.i + 1 } = { s with
      i := pattern.length, dateFormat := s.dateFormat ++ rest
      indices := s.indices ++ List.range' (s.i + 1) rest.length } := by
    rw [dateLoop_run beyond (s := { s with i := s.i + 1 }) hrest
      (h.trans (List.append_nil rest).symm)]
    dsimp only
    rw [hlen, dateLoop, if_neg (Nat.lt_irrefl _)]
  rw [group, hstop]
  dsimp only
  rw [charAt_length, if_pos (by decide)]
  rfl

/-- Behind the end of the pattern. -/
theorem index_group_end (h : s.i = pattern.length) :
    pattern.length + 1 ∈ (group pattern beyond s).indices := by
  have hstop : dateLoop pattern beyond { s with i := s.i + 1 } = { s with i := s.i + 1 } := by
    rw [dateLoop, if_neg (by dsimp only; omega)]
  rw [group, hstop]
  dsimp only
  split_ifs
  all_goals
    refine List.mem_append.mpr (.inr ?_)
    rw [h]
    exact List.mem_singleton.mpr rfl

end Turns

/-! ### Runs -/

/-- What a run over the rest of the pattern comes to: where a `%d` ends it, an index is used that
is too large; else none is, and what is found is what `Scan` finds. -/
def Outcome (rest : Str) (s s' : ScanLoop) : Prop :=
  if ending rest = .date then pattern.length + 1 ∈ s'.indices
  else
    ((∀ i ∈ s.indices, i ≤ pattern.length) → ∀ i ∈ s'.indices, i ≤ pattern.length) ∧
    ∃ mode, rest.foldl Scan.read s.scan = { s'.scan with mode } ∧
      (s'.m_error = true ↔ mode = .braces)

section Runs
variable {pattern} {s : ScanLoop} {rest : Str}

/-- A part of a run whose indices are small. -/
theorem Outcome.of_part {s₁ s' : ScanLoop} {rest₁ : Str} (is : List Nat)
    (h : Outcome pattern rest₁ s₁ s') (hend : ending rest = ending rest₁)
    (hscan : rest.foldl Scan.read s.scan = rest₁.foldl Scan.read s₁.scan)
    (hindices : s₁.indices = s.indices ++ is) (hsmall : ∀ i ∈ is, i ≤ pattern.length) :
    Outcome pattern rest s s' := by
  rw [Outcome, hend, hscan]
  rw [Outcome] at h
  split_ifs with hdate
  · rw [if_pos hdate] at h
    exact h
  · rw [if_neg hdate, hindices, List.forall_mem_append] at h
    exact ⟨fun hs => h.1 ⟨hs, hsmall⟩, h.2⟩

theorem outcome_end (hend : ending rest ≠ .date) {s' : ScanLoop}
    (hindices : (∀ i ∈ s.indices, i ≤ pattern.length) → ∀ i ∈ s'.indices, i ≤ pattern.length)
    (mode : ScanMode) (hscan : rest.foldl Scan.read s.scan = { s'.scan with mode })
    (herror : s'.m_error = true ↔ mode = .braces) : Outcome pattern rest s s' := by
  rw [Outcome, if_neg hend]
  exact ⟨hindices, mode, hscan, herror⟩

theorem scan_mode (hmode : s.parsingString = true) : s.scan.mode = .text := if_pos hmode

theorem scan_text (hmode : s.parsingString = true) {c : Char} (hc : c ≠ '%') :
    s.scan.read c = ({ s.used with tmp := s.tmp ++ [c], i := s.i + 1 } : ScanLoop).scan := by
  have hlater : ({ s.used with tmp := s.tmp ++ [c], i := s.i + 1 } : ScanLoop).scan.mode = .text :=
    scan_mode hmode
  rw [Scan.read, scan_mode hmode]
  dsimp only
  rw [Scan.readText, if_neg hc, ← hlater]
  rfl

theorem scan_percent (hmode : s.parsingString = true) : s.scan.read '%' = s.escaped.scan :=
  Scan.read_percent (scan_mode hmode)

theorem loop_text (h : pattern.drop s.i = c :: rest) (hmode : s.parsingString = true)
    (herror : s.m_error = false) (hc : c ≠ '%') : loop pattern beyond s =
      loop pattern beyond { s.used with tmp := s.tmp ++ [c], i := s.i + 1 } := by
  have hturn := turn_text beyond h hmode hc
  rw [loop_step beyond (lt_of_drop h) (by rw [hturn]; exact herror), hturn]

theorem loop_percent (h : pattern.drop s.i = '%' :: rest) (hmode : s.parsingString = true)
    (herror : s.m_error = false) : loop pattern beyond s = loop pattern beyond s.escaped := by
  have hturn := turn_percent beyond h hmode
  rw [loop_step beyond (lt_of_drop h) (by rw [hturn]; exact herror), hturn]

/-- Behind `%d` and a brace. -/
theorem foldl_group (hmode : s.parsingString = true) (format : Str) :
    ('%' :: 'd' :: '{' :: format).foldl Scan.read s.scan = format.foldl Scan.read { s.scan with
      mode := .braces, patterns := s.scan.flushed ++ [.inner 'd'], tmp := [] } := by
  rw [List.foldl_cons, List.foldl_cons, List.foldl_cons, Scan.read_percent (scan_mode hmode),
    Scan.read_letter]
  rfl

theorem turn_group (h : pattern.drop s.i = '%' :: 'd' :: '{' :: rest) :
    s.i + 2 < pattern.length ∧ pattern.drop (s.i + 3) = rest ∧
      turn pattern beyond s.escaped = group pattern beyond (s.escaped.behind 'd').used := by
  have hsecond : pattern.drop s.escaped.i = 'd' :: '{' :: rest := drop_succ h
  have hthird : pattern.drop (s.escaped.behind 'd').i = '{' :: rest := drop_succ hsecond
  refine ⟨lt_of_drop hthird, drop_succ hthird, ?_⟩
  rw [turn_d beyond hsecond rfl, behindDate_brace beyond hthird]

section Cases
variable {c : Char} (hi : s.i ≤ pattern.length) (hmode : s.parsingString = true)
  (herror : s.m_error = false)
include hi hmode herror

theorem outcome_percent (h : pattern.drop s.i = ['%']) :
    Outcome pattern ['%'] s (loop pattern beyond s) := by
  have hend : pattern.length ≤ s.escaped.i := List.drop_eq_nil_iff.mp (drop_succ h)
  rw [loop_percent beyond h hmode herror, loop_end beyond hend]
  refine outcome_end (by simp) ?_ .escape ?_ (by simp [herror, escaped, used])
  · intro hs
    exact List.forall_mem_append.mpr ⟨hs, by simp [hi]⟩
  · rw [List.foldl_cons, scan_percent hmode]
    rfl

theorem outcome_item (h : pattern.drop s.i = '%' :: c :: rest) (hc : c ≠ 'd')
    (hrest : Outcome pattern rest (s.escaped.behind c)
      (loop pattern beyond (s.escaped.behind c))) :
    Outcome pattern ('%' :: c :: rest) s (loop pattern beyond s) := by
  have hsecond : pattern.drop s.escaped.i = c :: rest := drop_succ h
  have hlt := lt_of_drop hsecond
  have hturn := turn_letter beyond hsecond rfl hc
  have hstep : loop pattern beyond s.escaped = loop pattern beyond (s.escaped.behind c) := by
    rw [loop_step beyond hlt (by rw [hturn]; exact herror), hturn]
  rw [loop_percent beyond h hmode herror, hstep]
  refine hrest.of_part [s.i, s.i + 1] (ending_item hc) ?_ (by simp [behind, used, escaped]) ?_
  · rw [List.foldl_cons, List.foldl_cons, Scan.read_percent (scan_mode hmode), Scan.read_letter,
      if_neg hc]
    rfl
  · have hle : s.i + 1 ≤ pattern.length := Nat.le_of_lt hlt
    simp [hi, hle]

theorem outcome_plain (h : pattern.drop s.i = '%' :: 'd' :: c :: rest) (hc : c ≠ '{')
    (hrest : Outcome pattern (c :: rest) (s.escaped.behind 'd').used
      (loop pattern beyond (s.escaped.behind 'd').used)) :
    Outcome pattern ('%' :: 'd' :: c :: rest) s (loop pattern beyond s) := by
  have hsecond : pattern.drop s.escaped.i = 'd' :: c :: rest := drop_succ h
  have hthird : pattern.drop (s.escaped.behind 'd').i = c :: rest := drop_succ hsecond
  have hlt := lt_of_drop hsecond
  have hturn : turn pattern beyond s.escaped = (s.escaped.behind 'd').used := by
    rw [turn_d beyond hsecond rfl, behindDate_plain beyond hthird hc]
  have hstep : loop pattern beyond s.escaped = loop pattern beyond (s.escaped.behind 'd').used := by
    rw [loop_step beyond hlt (by rw [hturn]; exact herror), hturn]
  rw [loop_percent beyond h hmode herror, hstep]
  refine hrest.of_part [s.i, s.i + 1, s.i + 2] (ending_plain hc) ?_
    (by simp [behind, used, escaped]) ?_
  · rw [List.foldl_cons, List.foldl_cons, Scan.read_percent (scan_mode hmode), Scan.read_letter,
      if_pos rfl, List.foldl_cons, Scan.read_date rfl hc]
    rfl
  · have hle : s.i + 2 ≤ pattern.length := hlt
    simp [hi, hle, Nat.le_of_succ_le hle]

omit hi

/-- The pattern ends behind a `%d`. -/
theorem outcome_date (h : pattern.drop s.i = ['%', 'd']) :
    Outcome pattern ['%', 'd'] s (loop pattern beyond s) := by
  have hsecond : pattern.drop s.escaped.i = ['d'] := drop_succ h
  have hlt := lt_of_drop hsecond
  have hlast : (s.escaped.behind 'd').i = pattern.length :=
    Nat.le_antisymm hlt (List.drop_eq_nil_iff.mp (drop_succ hsecond))
  have hturn : turn pattern beyond s.escaped = group pattern beyond (s.escaped.behind 'd') := by
    rw [turn_d beyond hsecond rfl, behindDate, if_neg (by omega)]
  have hindex := index_group_end beyond hlast
  have hle := le_group pattern beyond (s.escaped.behind 'd')
  rw [loop_percent beyond h hmode herror, Outcome, if_pos ending_date, loop, if_pos hlt, hturn,
    loop_end beyond (hlast ▸ hle), ite_self]
  exact hindex

theorem outcome_unclosed (h : pattern.drop s.i = '%' :: 'd' :: '{' :: rest) (hrest : '}' ∉ rest) :
    Outcome pattern ('%' :: 'd' :: '{' :: rest) s (loop pattern beyond s) := by
  obtain ⟨hbrace, hdrop, hturn⟩ := turn_group beyond h
  have hgroup := group_unclosed beyond (s := (s.escaped.behind 'd').used) hrest hdrop hbrace
  have hlt : s.escaped.i < pattern.length := Nat.lt_of_succ_lt hbrace
  have hlen := congrArg List.length hdrop
  rw [List.length_drop] at hlen
  rw [loop_percent beyond h hmode herror, loop, if_pos hlt, hturn, hgroup, if_pos rfl]
  refine outcome_end (by simp [ending_unclosed hrest]) ?_ .braces ?_ (by simp)
  · intro hs j hj
    simp only [used, behind, escaped, List.mem_append, List.mem_singleton,
      List.mem_range'_1] at hj
    rcases hj with ((((hj | hj) | hj) | hj) | hj) | hj
    · exact hs j hj
    all_goals omega
  · rw [foldl_group hmode, Scan.foldl_format hrest rfl]
    rfl

theorem outcome_format {format : Str}
    (h : pattern.drop s.i = '%' :: 'd' :: '{' :: (format ++ '}' :: rest)) (hformat : '}' ∉ format)
    (ih : ∀ {s : ScanLoop}, pattern.drop s.i = rest → s.i ≤ pattern.length →
      s.parsingString = true → s.m_error = false → Outcome pattern rest s (loop pattern beyond s)) :
    Outcome pattern ('%' :: 'd' :: '{' :: (format ++ '}' :: rest)) s (loop pattern beyond s) := by
  obtain ⟨hbrace, hdrop, hturn⟩ := turn_group beyond h
  have hgroup := group_closed beyond (s := (s.escaped.behind 'd').used) hformat hdrop
  have hlt : s.escaped.i < pattern.length := Nat.lt_of_succ_lt hbrace
  have hlater : pattern.drop (s.i + 3 + format.length + 1) = rest := by
    rw [Nat.add_assoc (s.i + 3), ← List.drop_drop, hdrop, List.drop_append]
    simp
  have hlen := congrArg List.length hdrop
  rw [List.length_drop, List.length_append, List.length_cons] at hlen
  have hstep : loop pattern beyond s.escaped =
      loop pattern beyond (group pattern beyond (s.escaped.behind 'd').used) := by
    rw [loop_step beyond hlt (by rw [hturn, hgroup]; exact herror), hturn]
  rw [loop_percent beyond h hmode herror, hstep, hgroup]
  refine Outcome.of_part (s.i :: (s.i + 1) :: (s.i + 2) ::
    (List.range' (s.i + 3) format.length ++ [s.i + 3 + format.length, s.i + 3 + format.length]))
    (ih hlater ?_ rfl herror) (ending_format hformat) ?_ ?_ ?_
  · show s.i + 3 + format.length + 1 ≤ pattern.length
    omega
  · rw [foldl_group hmode, List.foldl_append, Scan.foldl_format hformat rfl]
    rfl
  · simp [used, behind, escaped]
  · intro j hj
    simp only [List.mem_cons, List.mem_append, List.mem_range'_1, List.not_mem_nil,
      or_false] at hj
    omega

end Cases

theorem loop_spec (h : pattern.drop s.i = rest) (hi : s.i ≤ pattern.length)
    (hmode : s.parsingString = true) (herror : s.m_error = false) :
    Outcome pattern rest s (loop pattern beyond s) := by
  induction rest using pattern_induction generalizing s with
  | nil =>
    rw [loop_end beyond (List.drop_eq_nil_iff.mp h)]
    refine outcome_end (by simp) id .text ?_ (by simp [herror])
    rw [List.foldl_nil, ← scan_mode hmode]
  | text c rest hc ih =>
    have hrest := ih (s := { s.used with tmp := s.tmp ++ [c], i := s.i + 1 }) (drop_succ h)
      (lt_of_drop h) hmode herror
    rw [loop_text beyond h hmode herror hc]
    refine hrest.of_part [s.i] (ending_text hc) ?_ rfl (by simp [hi])
    rw [List.foldl_cons, scan_text hmode hc]
  | percent => exact outcome_percent beyond hi hmode herror h
  | item c rest hc ih =>
    have hsecond : pattern.drop s.escaped.i = c :: rest := drop_succ h
    exact outcome_item beyond hi hmode herror h hc
      (ih (drop_succ hsecond) (lt_of_drop hsecond) rfl herror)
  | date => exact outcome_date beyond hmode herror h
  | plain c rest hc ih =>
    have hsecond : pattern.drop s.escaped.i = 'd' :: c :: rest := drop_succ h
    exact outcome_plain beyond hi hmode herror h hc
      (ih (drop_succ hsecond) (lt_of_drop hsecond) rfl herror)
  | unclosed rest hrest => exact outcome_unclosed beyond hmode herror h hrest
  | format format rest hformat ih => exact outcome_format beyond hmode herror h hformat ih

end Runs

end ScanLoop

/-- The loop of `init`. -/
def scanLoop (pattern : Str) (beyond : Nat → Char) : ScanLoop := ScanLoop.loop pattern beyond {}

theorem scanLoop_spec (pattern : Str) (beyond : Nat → Char) :
    ScanLoop.Outcome pattern pattern {} (scanLoop pattern beyond) :=
  ScanLoop.loop_spec beyond rfl (Nat.zero_le _) rfl rfl

/-- **The indices that `init` uses on `m_pattern`**: for every pattern, whatever stands behind it,
none is larger than its size exactly where no `%d` ends it. -/
theorem indices_iff (pattern : Str) (beyond : Nat → Char) :
    (∀ i ∈ (scanLoop pattern beyond).indices, i ≤ pattern.length) ↔ ending pattern ≠ .date := by
  have hrun := scanLoop_spec pattern beyond
  rw [ScanLoop.Outcome] at hrun
  split_ifs at hrun with hend
  · refine iff_of_false (fun h => ?_) (not_not.mpr hend)
    exact absurd (h _ hrun) (by omega)
  · exact iff_of_true (hrun.1 (by simp)) hend

/-- The pattern `%d` has two characters, and the index 3 is used. -/
theorem index_of_date :
    ¬ ∀ beyond, ∀ i ∈ (scanLoop ['%', 'd'] beyond).indices, i ≤ ['%', 'd'].length := by
  intro h
  have hrun := scanLoop_spec ['%', 'd'] fun _ => '}'
  rw [ScanLoop.Outcome, if_pos ending_date] at hrun
  exact absurd (h _ _ hrun) (by decide)

/-- `LogFormatter::init`, with its index. -/
def initLoop (pattern : Str) (beyond : Nat → Char) : LogFormatter :=
  let s := scanLoop pattern beyond
  { pattern
    items := s.scan.flushed.filterMap s.scan.item
    error := s.m_error || s.scan.flushed.any fun p => (s.scan.item p).isNone }

/-- The two scanners agree where the indices stay in the pattern. -/
theorem create_eq_initLoop {pattern : Str} (h : ending pattern ≠ .date) (beyond : Nat → Char) :
    LogFormatter.create pattern = .ok (initLoop pattern beyond) := by
  have hrun := scanLoop_spec pattern beyond
  rw [ScanLoop.Outcome, if_neg h] at hrun
  obtain ⟨-, mode, hscan, herror⟩ := hrun
  have hfold : pattern.foldl Scan.read {} = { (scanLoop pattern beyond).scan with mode } := hscan
  have hmode : mode ≠ .date := by
    rintro rfl
    exact h ((mode_eq_iff pattern .date).mp (congrArg Scan.mode hfold))
  have hflag : decide (mode = .braces) = (scanLoop pattern beyond).m_error := by
    rw [Bool.eq_iff_iff, decide_eq_true_iff, herror]
  rw [LogFormatter.create, hfold]
  dsimp only
  rw [if_neg hmode, hflag]
  rfl

end Sylar
