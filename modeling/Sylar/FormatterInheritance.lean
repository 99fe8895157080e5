import Sylar.Interleaving
import Sylar.Logger

/-! # Whose formatter an appender uses

An appender is given a formatter of its own with `LogAppender::setFormatter`, or it should
follow the formatter of its logger.  `m_hasFormatter` is what tells the two apart, and the
pointer overload of `Logger::setFormatter` goes by it.  But `Logger::addAppender` hands the
logger's formatter to an appender that has none with the same setter, and then the appender
looks like one that has its own; and the string overload does not go to the appenders at all.

The appenders are objects that are shared with the logger, so that `LogSetup` has their heap,
and in `own` what the user gave to each of them.

**`inherited_iff_passes`**: in every state of a run the appenders use the formatters that they
should, and the two overloads do the same, exactly when no step of the run gets in the way:
the formatter of a logger does not change while one of its appenders follows it, and an
appender that is added has a formatter of its own or takes over that of the logger. -/
namespace Sylar
open Interleaving

/-- The address of an appender. -/
abbrev AppenderId := Nat

/-- A logger, and the appenders of the program. -/
structure LogSetup where
  formatter : Option LogFormatter
  appenders : List AppenderId
  appender : AppenderId → LogAppender
  /-- What the user gave to `LogAppender::setFormatter` last. -/
  own : AppenderId → Option LogFormatter

inductive LogSetupAction
  | addAppender (id : AppenderId)
  | delAppender (id : AppenderId)
  | clearAppenders
  /-- `Logger::setFormatter( LogFormatter::SPtr )` -/
  | setFormatter (val : Option LogFormatter)
  /-- `Logger::setFormatter( std::string_view )` -/
  | setPattern (val : Str)
  /-- `LogAppender::setFormatter`, by the user. -/
  | setOwn (id : AppenderId) (val : Option LogFormatter)
  deriving DecidableEq

/-- What the loop of `Logger::setFormatter` does to an appender. -/
def LogAppender.inherit (a : LogAppender) (val : Option LogFormatter) : LogAppender :=
  if !a.hasFormatter then { a with formatter := val } else a

namespace LogSetup

/-- `Logger::addAppender` -/
def addAppender (s : LogSetup) (id : AppenderId) : LogSetup :=
  { s with
    appenders := s.appenders ++ [id]
    appender :=
      if (s.appender id).formatter = none then
        Function.update s.appender id ((s.appender id).setFormatter s.formatter)
      else s.appender }

/-- `Logger::delAppender` -/
def delAppender (s : LogSetup) (id : AppenderId) : LogSetup :=
  { s with appenders := s.appenders.erase id }

/-- `Logger::clearAppenders` -/
def clearAppenders (s : LogSetup) : LogSetup := { s with appenders := [] }

/-- `Logger::setFormatter( LogFormatter::SPtr )` -/
def setFormatter (s : LogSetup) (val : Option LogFormatter) : LogSetup :=
  { s with
    formatter := val
    appender := s.appenders.foldl
      (fun heap id => Function.update heap id ((heap id).inherit val)) s.appender }

/-- `Logger::setFormatter( std::string_view )`; a pattern that the constructor throws at
changes nothing. -/
def setPattern (s : LogSetup) (val : Str) : LogSetup :=
  match LogFormatter.create val with
  | .error _ => s
  | .ok newVal => if newVal.error then s else { s with formatter := some newVal }

/-- `LogAppender::setFormatter` -/
def setOwn (s : LogSetup) (id : AppenderId) (val : Option LogFormatter) : LogSetup :=
  { s with
    appender := Function.update s.appender id ((s.appender id).setFormatter val)
    own := Function.update s.own id val }

def step (s : LogSetup) : LogSetupAction → Option LogSetup
  | .addAppender id => some (s.addAppender id)
  | .delAppender id => some (s.delAppender id)
  | .clearAppenders => some s.clearAppenders
  | .setFormatter val => some (s.setFormatter val)
  | .setPattern val => some (s.setPattern val)
  | .setOwn id val => some (s.setOwn id val)

/-- A new logger, and appenders that nobody has touched. -/
def machine : Machine LogSetup LogSetupAction where
  init s := s.formatter = some LogFormatter.defaultFormatter ∧ s.appenders = [] ∧
    ∀ id, (s.appender id).formatter = none ∧ (s.appender id).hasFormatter = false ∧
      s.own id = none
  step := step

/-- Every appender of the logger uses its own formatter, or else that of the logger; what the
user gave is kept; and a valid pattern does the same in both overloads. -/
structure Inherited (s : LogSetup) : Prop where
  formats : ∀ id ∈ s.appenders, (s.appender id).formatter = (s.own id).or s.formatter
  keeps : ∀ id f, s.own id = some f → (s.appender id).formatter = some f
  overloads : ∀ val f, LogFormatter.create val = .ok f → f.error = false →
    s.setPattern val = s.setFormatter (some f)

/-- **The step leaves no appender behind.** -/
def Passes (s : LogSetup) : LogSetupAction → Prop
  | .addAppender id =>
    s.own id ≠ none ∨ ((s.appender id).formatter = none ∧ s.formatter ≠ none) ∨
      ((s.appender id).hasFormatter = true ∧ (s.appender id).formatter = s.formatter)
  | .setFormatter val => (∀ id ∈ s.appenders, s.own id ≠ none) ∨ val = s.formatter
  | .setPattern val => ∀ f, LogFormatter.create val = .ok f → f.error = false →
      (∀ id ∈ s.appenders, s.own id ≠ none) ∨ some f = s.formatter
  | .setOwn id val => id ∈ s.appenders → val ≠ none
  | .delAppender _ | .clearAppenders => True

variable {s t : LogSetup} {id : AppenderId} {a : LogSetupAction}

/-! ## What the operations do to an appender -/

theorem inherit_flagged {a : LogAppender} (h : a.hasFormatter = true)
    (val : Option LogFormatter) : a.inherit val = a := by
  rw [LogAppender.inherit, h]
  rfl

theorem inherit_bare {a : LogAppender} (h : a.hasFormatter = false)
    (val : Option LogFormatter) : a.inherit val = { a with formatter := val } := by
  rw [LogAppender.inherit, h]
  rfl

@[simp]
theorem inherit_hasFormatter (a : LogAppender) (val : Option LogFormatter) :
    (a.inherit val).hasFormatter = a.hasFormatter := by
  rw [LogAppender.inherit]
  split <;> rfl

theorem inherit_inherit (a : LogAppender) (val : Option LogFormatter) :
    (a.inherit val).inherit val = a.inherit val := by
  by_cases h : a.hasFormatter = true
  · rw [inherit_flagged h, inherit_flagged h]
  · have hflag : a.hasFormatter = false := by simpa using h
    rw [inherit_bare hflag]
    exact inherit_bare (a := { a with formatter := val }) hflag val

/-- An appender that is listed twice is met twice, and the second time nothing is left to do. -/
theorem foldl_inherit (val : Option LogFormatter) (l : List AppenderId)
    (heap : AppenderId → LogAppender) (x : AppenderId) :
    l.foldl (fun heap id => Function.update heap id ((heap id).inherit val)) heap x =
      if x ∈ l then (heap x).inherit val else heap x := by
  induction l generalizing heap with
  | nil => simp
  | cons id l ih =>
    rw [List.foldl_cons, ih]
    by_cases hx : x = id
    · subst hx
      rw [Function.update_self, inherit_inherit, ite_self, if_pos List.mem_cons_self]
    · rw [Function.update_of_ne hx]
      simp only [List.mem_cons, hx, false_or]

theorem setFormatter_appender (s : LogSetup) (val : Option LogFormatter) (x : AppenderId) :
    (s.setFormatter val).appender x =
      if x ∈ s.appenders then (s.appender x).inherit val else s.appender x :=
  foldl_inherit val s.appenders s.appender x

@[simp]
theorem setFormatter_hasFormatter (s : LogSetup) (val : Option LogFormatter) (x : AppenderId) :
    ((s.setFormatter val).appender x).hasFormatter = (s.appender x).hasFormatter := by
  rw [setFormatter_appender]
  split
  · exact inherit_hasFormatter _ _
  · rfl

/-- Where every listed appender has the flag, only the logger changes. -/
theorem setFormatter_flagged (h : ∀ id ∈ s.appenders, (s.appender id).hasFormatter = true)
    (val : Option LogFormatter) : s.setFormatter val = { s with formatter := val } := by
  have happender : (s.setFormatter val).appender = s.appender := by
    funext x
    rw [setFormatter_appender]
    split
    · rename_i hx
      exact inherit_flagged (h x hx) val
    · rfl
  exact congrArg (fun heap => { s with formatter := val, appender := heap }) happender

theorem addAppender_appender (s : LogSetup) (id x : AppenderId) :
    (s.addAppender id).appender x =
      if x = id ∧ (s.appender x).formatter = none then (s.appender x).setFormatter s.formatter
      else s.appender x := by
  by_cases hx : x = id
  · subst hx
    by_cases hf : (s.appender x).formatter = none
    · simp [addAppender, hf]
    · simp [addAppender, hf]
  · by_cases hf : (s.appender id).formatter = none
    · simp [addAppender, hf, hx]
    · simp [addAppender, hf, hx]

/-- What a pattern does in the string overload. -/
theorem setPattern_cases (s : LogSetup) (val : Str) :
    (s.setPattern val = s ∧ ∀ f, LogFormatter.create val = .ok f → f.error ≠ false) ∨
      ∃ f, LogFormatter.create val = .ok f ∧ f.error = false ∧
        s.setPattern val = { s with formatter := some f } := by
  rw [setPattern]
  cases hc : LogFormatter.create val with
  | error e => exact .inl ⟨rfl, fun f h => by cases h⟩
  | ok f =>
    by_cases he : f.error = true
    · left
      refine ⟨if_pos he, fun g hg => ?_⟩
      obtain rfl : f = g := Except.ok.inj hg
      rw [he]
      exact Bool.true_eq_false_eq_False
    · right
      exact ⟨f, rfl, by simpa using he, if_neg he⟩

theorem setPattern_ok {val : Str} {f : LogFormatter} (hc : LogFormatter.create val = .ok f)
    (he : f.error = false) : s.setPattern val = { s with formatter := some f } := by
  rw [setPattern, hc]
  exact if_neg (by simp [he])

/-- There are two patterns that mean different things. -/
theorem two_patterns : ∃ val val' f f', LogFormatter.create val = .ok f ∧ f.error = false ∧
    LogFormatter.create val' = .ok f' ∧ f'.error = false ∧ f ≠ f' :=
  ⟨['%', 'm'], ['%', 'n'], ⟨['%', 'm'], [.message], false⟩, ⟨['%', 'n'], [.newLine], false⟩,
    by decide, rfl, by decide, rfl, by decide⟩

/-! ## The logger as a value

Where nobody else holds the appenders, a logger is a value, `Logger`. -/

def logger (s : LogSetup) (name : Str) (level : LogLevel) : Logger :=
  { name, level, formatter := s.formatter, appenders := s.appenders.map s.appender }

variable {name : Str} {level : LogLevel}

theorem logger_addAppender (hid : id ∉ s.appenders) :
    (s.addAppender id).logger name level = (s.logger name level).addAppender (s.appender id) := by
  have hlisted : s.appenders.map (s.addAppender id).appender = s.appenders.map s.appender := by
    refine List.map_congr_left fun x hx => ?_
    have hne : x ≠ id := fun h => hid (h ▸ hx)
    rw [addAppender_appender, if_neg fun h => hne h.1]
  have hself : (s.addAppender id).appender id =
      if (s.appender id).formatter = none then (s.appender id).setFormatter s.formatter
      else s.appender id := by
    rw [addAppender_appender]
    simp only [true_and]
  have happenders : (s.appenders ++ [id]).map (s.addAppender id).appender =
      s.appenders.map s.appender ++ [if (s.appender id).formatter = none then
        (s.appender id).setFormatter s.formatter else s.appender id] := by
    rw [List.map_append, hlisted, List.map_singleton, hself]
  exact congrArg (fun l => Logger.mk name level s.formatter l) happenders

theorem logger_clearAppenders :
    s.clearAppenders.logger name level = (s.logger name level).clearAppenders := rfl

theorem logger_setPattern {val : Str} {l : Logger}
    (h : (s.logger name level).setFormatter val = .ok l) :
    (s.setPattern val).logger name level = l := by
  obtain ⟨f, hc, h⟩ := bind_ok h
  by_cases he : f.error = true
  · obtain rfl : s.logger name level = l := Except.ok.inj ((if_pos he).symm.trans h)
    rw [setPattern, hc]
    exact congrArg (fun t => logger t name level) (if_pos he)
  · rw [setPattern_ok hc (by simpa using he)]
    exact Except.ok.inj ((if_neg he).symm.trans h)

/-! ## What the flags have to say -/

/-- The flag is set for what the user gave, and only with a formatter. -/
structure Flagged (s : LogSetup) : Prop where
  own : ∀ id f, s.own id = some f →
    (s.appender id).formatter = some f ∧ (s.appender id).hasFormatter = true
  set : ∀ id, (s.appender id).hasFormatter = true → (s.appender id).formatter ≠ none

/-- An appender for which the rule holds, and that the loop passes over. -/
structure Settled (s : LogSetup) (id : AppenderId) : Prop where
  formatter : (s.appender id).formatter = (s.own id).or s.formatter
  hasFormatter : (s.appender id).hasFormatter = true

theorem Flagged.init (h : machine.init s) : s.Flagged := by
  obtain ⟨-, -, happender⟩ := h
  constructor
  · intro id f hf
    rw [(happender id).2.2] at hf
    cases hf
  · intro id hflag
    rw [(happender id).2.1] at hflag
    cases hflag

/-- An appender that `LogAppender::setFormatter` was called on. -/
theorem flagged_setFormatter (a : LogAppender) (val : Option LogFormatter) :
    (a.setFormatter val).hasFormatter = true → (a.setFormatter val).formatter ≠ none := by
  rw [LogAppender.setFormatter]
  exact Option.isSome_iff_ne_none.mp

theorem Flagged.own_ne_none (h : s.Flagged) (hown : s.own id ≠ none) :
    (s.appender id).hasFormatter = true := by
  obtain ⟨f, hf⟩ := Option.ne_none_iff_exists'.mp hown
  exact (h.own id f hf).2

theorem Flagged.addAppender (h : s.Flagged) (id : AppenderId) : (s.addAppender id).Flagged := by
  constructor
  · intro x f hf
    have hx := h.own x f hf
    rw [addAppender_appender, if_neg (by rw [hx.1]; simp)]
    exact hx
  · intro x
    rw [addAppender_appender]
    split
    · exact flagged_setFormatter _ _
    · exact h.set x

theorem Flagged.setFormatter (h : s.Flagged) (val : Option LogFormatter) :
    (s.setFormatter val).Flagged := by
  constructor
  · intro x f hf
    have hx := h.own x f hf
    rw [setFormatter_hasFormatter, setFormatter_appender, inherit_flagged hx.2, ite_self]
    exact hx
  · intro x hx
    rw [setFormatter_hasFormatter] at hx
    rw [setFormatter_appender, inherit_flagged hx, ite_self]
    exact h.set x hx

theorem Flagged.setOwn (h : s.Flagged) (id : AppenderId) (val : Option LogFormatter) :
    (s.setOwn id val).Flagged := by
  have hself : (s.setOwn id val).appender id = (s.appender id).setFormatter val :=
    Function.update_self ..
  have hother : ∀ x, x ≠ id → (s.setOwn id val).appender x = s.appender x := fun x hx =>
    Function.update_of_ne hx ..
  constructor
  · intro x f hf
    by_cases hx : x = id
    · subst hx
      obtain rfl : val = some f := by simpa [LogSetup.setOwn] using hf
      rw [hself]
      exact ⟨rfl, rfl⟩
    · rw [hother x hx]
      exact h.own x f (by simpa [LogSetup.setOwn, hx] using hf)
  · intro x
    by_cases hx : x = id
    · subst hx
      rw [hself]
      exact flagged_setFormatter _ _
    · rw [hother x hx]
      exact h.set x

/-- Every step keeps the flags in order. -/
theorem Flagged.step (h : s.Flagged) (hst : machine.step s a = some t) : t.Flagged := by
  cases a with
  | addAppender id =>
    obtain rfl := Option.some.inj hst
    exact h.addAppender id
  | delAppender id =>
    obtain rfl := Option.some.inj hst
    exact ⟨h.own, h.set⟩
  | clearAppenders =>
    obtain rfl := Option.some.inj hst
    exact ⟨h.own, h.set⟩
  | setFormatter val =>
    obtain rfl := Option.some.inj hst
    exact h.setFormatter val
  | setPattern val =>
    obtain rfl := Option.some.inj hst
    rcases s.setPattern_cases val with ⟨hs, -⟩ | ⟨f, -, -, hs⟩
    · rw [hs]
      exact h
    · rw [hs]
      exact ⟨h.own, h.set⟩
  | setOwn id val =>
    obtain rfl := Option.some.inj hst
    exact h.setOwn id val

/-! ## The rule, appender by appender -/

/-- The overloads agree exactly when the loop of the one has nothing to do. -/
theorem overloads_iff :
    (∀ val f, LogFormatter.create val = .ok f → f.error = false →
      s.setPattern val = s.setFormatter (some f)) ↔
    ∀ id ∈ s.appenders, (s.appender id).hasFormatter = true := by
  constructor
  · intro h id hid
    by_contra hflag
    -- a bare appender cannot have the formatters of two patterns
    have hset : ∀ val f, LogFormatter.create val = .ok f → f.error = false →
        (s.appender id).formatter = some f := by
      intro val f hc he
      have happ : (s.setPattern val).appender id = (s.setFormatter (some f)).appender id := by
        rw [h val f hc he]
      rw [setPattern_ok hc he, setFormatter_appender, if_pos hid,
        inherit_bare (by simpa using hflag)] at happ
      exact congrArg LogAppender.formatter happ
    obtain ⟨val, val', f, f', hc, he, hc', he', hne⟩ := two_patterns
    have := (hset val f hc he).symm.trans (hset val' f' hc' he')
    exact hne (Option.some.inj this)
  · intro h val f hc he
    rw [setPattern_ok hc he, setFormatter_flagged h]

theorem Flagged.inherited_iff (h : s.Flagged) :
    s.Inherited ↔ ∀ id ∈ s.appenders, s.Settled id := by
  constructor
  · intro hs id hid
    exact ⟨hs.formats id hid, overloads_iff.mp hs.overloads id hid⟩
  · intro hs
    exact ⟨fun id hid => (hs id hid).formatter, fun id f hf => (h.own id f hf).1,
      overloads_iff.mpr fun id hid => (hs id hid).hasFormatter⟩

theorem settled_congr {x : AppenderId} (happender : t.appender x = s.appender x)
    (hown : t.own x = s.own x) (hformatter : t.formatter = s.formatter) :
    t.Settled x ↔ s.Settled x := by
  constructor
  · intro h
    exact ⟨by rw [← happender, ← hown, ← hformatter]; exact h.formatter,
      by rw [← happender]; exact h.hasFormatter⟩
  · intro h
    exact ⟨by rw [happender, hown, hformatter]; exact h.formatter,
      by rw [happender]; exact h.hasFormatter⟩

/-- Another formatter for the logger alone. -/
theorem settled_withFormatter (hs : ∀ id ∈ s.appenders, s.Settled id)
    (val : Option LogFormatter) :
    (∀ id ∈ s.appenders, ({ s with formatter := val } : LogSetup).Settled id) ↔
      (∀ id ∈ s.appenders, s.own id ≠ none) ∨ val = s.formatter := by
  constructor
  · intro h
    by_contra hno
    push Not at hno
    obtain ⟨⟨id, hid, hown⟩, hval⟩ := hno
    have hold := (hs id hid).formatter
    have hnew := (h id hid).formatter
    rw [hown, Option.none_or] at hold hnew
    exact hval (hnew.symm.trans hold)
  · intro h id hid
    refine ⟨?_, (hs id hid).hasFormatter⟩
    show (s.appender id).formatter = (s.own id).or val
    rw [(hs id hid).formatter]
    rcases h with h | h
    · obtain ⟨f, hf⟩ := Option.ne_none_iff_exists'.mp (h id hid)
      rw [hf, Option.some_or, Option.some_or]
    · rw [h]

/-- The appender that is added. -/
theorem Flagged.settled_addAppender (h : s.Flagged) (id : AppenderId) :
    (s.addAppender id).Settled id ↔ s.Passes (.addAppender id) := by
  have happ := s.addAppender_appender id id
  by_cases hf : (s.appender id).formatter = none
  · -- it takes over what the logger has
    have hown : s.own id = none := by
      by_contra hown
      exact h.set id (h.own_ne_none hown) hf
    have hflag : (s.appender id).hasFormatter ≠ true := fun hflag => h.set id hflag hf
    rw [if_pos ⟨rfl, hf⟩] at happ
    constructor
    · intro hset
      have := hset.hasFormatter
      rw [happ] at this
      exact .inr (.inl ⟨hf, Option.isSome_iff_ne_none.mp this⟩)
    · rintro (hpass | ⟨-, hpass⟩ | ⟨hpass, -⟩)
      · exact absurd hown hpass
      · refine ⟨?_, ?_⟩
        · rw [happ]
          show s.formatter = (s.own id).or s.formatter
          rw [hown, Option.none_or]
        · rw [happ]
          exact Option.isSome_iff_ne_none.mpr hpass
      · exact absurd hpass hflag
  · -- it keeps what it has
    rw [if_neg fun hand => hf hand.2] at happ
    rw [settled_congr happ rfl rfl]
    constructor
    · intro hset
      by_cases hown : s.own id = none
      · have hformatter := hset.formatter
        rw [hown, Option.none_or] at hformatter
        exact .inr (.inr ⟨hset.hasFormatter, hformatter⟩)
      · exact .inl hown
    · rintro (hpass | ⟨hpass, -⟩ | ⟨hflag, hpass⟩)
      · obtain ⟨f, hown⟩ := Option.ne_none_iff_exists'.mp hpass
        refine ⟨?_, h.own_ne_none hpass⟩
        rw [(h.own id f hown).1, hown, Option.some_or]
      · exact absurd hpass hf
      · refine ⟨?_, hflag⟩
        by_cases hown : s.own id = none
        · rw [hown, Option.none_or, hpass]
        · obtain ⟨f, hown⟩ := Option.ne_none_iff_exists'.mp hown
          rw [(h.own id f hown).1, hown, Option.some_or]

/-- The appender that the user gives a formatter. -/
theorem settled_setOwn (id : AppenderId) (val : Option LogFormatter) :
    (s.setOwn id val).Settled id ↔ val ≠ none := by
  have hself : (s.setOwn id val).appender id = (s.appender id).setFormatter val :=
    Function.update_self ..
  have hown : (s.setOwn id val).own id = val := Function.update_self ..
  constructor
  · intro h
    have hflag := h.hasFormatter
    rw [hself] at hflag
    exact Option.isSome_iff_ne_none.mp hflag
  · intro hval
    obtain ⟨f, rfl⟩ := Option.ne_none_iff_exists'.mp hval
    refine ⟨?_, ?_⟩
    · rw [hself, hown, Option.some_or]
      rfl
    · rw [hself]
      rfl

/-- Nothing happens to the others that are listed. -/
theorem Flagged.addAppender_settled_iff (h : s.Flagged) (hs : ∀ x ∈ s.appenders, s.Settled x)
    (id : AppenderId) :
    (∀ x ∈ (s.addAppender id).appenders, (s.addAppender id).Settled x) ↔
      s.Passes (.addAppender id) := by
  rw [← h.settled_addAppender id]
  constructor
  · intro ht
    exact ht id (List.mem_append_right _ (List.mem_singleton_self id))
  · intro ht x hx
    rcases List.mem_append.mp hx with hx | hx
    · have hne := h.set x (hs x hx).hasFormatter
      have hsame : (s.addAppender id).appender x = s.appender x := by
        rw [addAppender_appender, if_neg fun hand => hne hand.2]
      exact (settled_congr hsame rfl rfl).mpr (hs x hx)
    · rw [List.mem_singleton.mp hx]
      exact ht

theorem setOwn_settled_iff (hs : ∀ x ∈ s.appenders, s.Settled x) (id : AppenderId)
    (val : Option LogFormatter) :
    (∀ x ∈ s.appenders, (s.setOwn id val).Settled x) ↔ (id ∈ s.appenders → val ≠ none) := by
  have hother : ∀ x, x ≠ id → ((s.setOwn id val).Settled x ↔ s.Settled x) := fun x hx =>
    settled_congr (Function.update_of_ne hx ..) (Function.update_of_ne hx ..) rfl
  constructor
  · intro ht hid
    exact (settled_setOwn id val).mp (ht id hid)
  · intro hval x hx
    by_cases hxid : x = id
    · subst hxid
      exact (settled_setOwn x val).mpr (hval hx)
    · exact (hother x hxid).mpr (hs x hx)

/-- A pattern is for the logger alone. -/
theorem setPattern_settled_iff (hs : ∀ x ∈ s.appenders, s.Settled x) (val : Str) :
    (∀ x ∈ (s.setPattern val).appenders, (s.setPattern val).Settled x) ↔
      s.Passes (.setPattern val) := by
  rcases s.setPattern_cases val with ⟨hsame, hbad⟩ | ⟨f, hc, he, hsame⟩
  · rw [hsame]
    exact iff_of_true hs fun f hc he => absurd he (hbad f hc)
  · rw [hsame, settled_withFormatter hs]
    constructor
    · intro ht g hg _
      obtain rfl : f = g := Except.ok.inj (hc.symm.trans hg)
      exact ht
    · intro hpass
      exact hpass f hc he

/-! ## The runs -/

/-- A step from a state where the rule holds keeps it exactly when it passes. -/
theorem Inherited.step_iff (h : s.Flagged) (hs : s.Inherited) (hst : machine.step s a = some t) :
    t.Inherited ↔ s.Passes a := by
  rw [(h.step hst).inherited_iff]
  rw [h.inherited_iff] at hs
  cases a with
  | addAppender id =>
    obtain rfl := Option.some.inj hst
    exact h.addAppender_settled_iff hs id
  | delAppender id =>
    obtain rfl := Option.some.inj hst
    refine iff_of_true (fun x hx => ?_) trivial
    have hx' : x ∈ s.appenders := List.mem_of_mem_erase hx
    exact ⟨(hs x hx').formatter, (hs x hx').hasFormatter⟩
  | clearAppenders =>
    obtain rfl := Option.some.inj hst
    exact iff_of_true (fun x hx => absurd hx List.not_mem_nil) trivial
  | setFormatter val =>
    obtain rfl := Option.some.inj hst
    rw [setFormatter_flagged fun id hid => (hs id hid).hasFormatter]
    exact settled_withFormatter hs val
  | setPattern val =>
    obtain rfl := Option.some.inj hst
    exact setPattern_settled_iff hs val
  | setOwn id val =>
    obtain rfl := Option.some.inj hst
    exact setOwn_settled_iff hs id val

theorem Inherited.init (h : machine.init s) : s.Inherited := by
  rw [(Flagged.init h).inherited_iff, h.2.1]
  exact fun id hid => absurd hid List.not_mem_nil

/-- **Every state of a run has its appenders in order, and overloads that do the same, exactly
when every step of the run passes.** -/
theorem inherited_iff_passes {tr : List (LogSetup × LogSetupAction)}
    (hrun : machine.Run tr s) :
    (∀ u ∈ Machine.visits tr s, u.Inherited) ↔ ∀ p ∈ tr, p.1.Passes p.2 := by
  have hflagged : ∀ u ∈ Machine.visits tr s, u.Flagged :=
    hrun.invariant_visits (fun _ _ => True) (fun _ h => Flagged.init h)
      (fun _ _ _ h _ hst => h.step hst) fun _ _ => trivial
  have hiff := hrun.invariant_iff (I := fun u => u.Flagged ∧ u.Inherited) Passes
    (fun _ h => ⟨Flagged.init h, Inherited.init h⟩) fun u a t hu hst => by
      constructor
      · rintro ⟨-, ht⟩
        exact (Inherited.step_iff hu.1 hu.2 hst).mp ht
      · intro hpass
        exact ⟨hu.1.step hst, (Inherited.step_iff hu.1 hu.2 hst).mpr hpass⟩
  rw [← hiff]
  exact ⟨fun h u hu => ⟨hflagged u hu, h u hu⟩, fun h u hu => (h u hu).2⟩

/-- An appender that nobody has touched yet, and a new logger. -/
def fresh : LogSetup where
  formatter := some LogFormatter.defaultFormatter
  appenders := []
  appender _ := { target := .stdout }
  own _ := none

theorem fresh_init : machine.init fresh := ⟨rfl, rfl, fun _ => ⟨rfl, rfl, rfl⟩⟩

/-- The formatter of the pattern `%m`. -/
def messageFormatter : LogFormatter := ⟨['%', 'm'], [.message], false⟩

/-- An appender with a formatter of its own keeps it while the logger changes. -/
theorem inherited_iff_passes_own :
    let as : List LogSetupAction := [.setOwn 0 (some messageFormatter), .addAppender 0,
      .setFormatter none, .setPattern ['%', 'n'], .delAppender 0]
    ∃ s, machine.Run (machine.traceOf fresh as) s ∧
      ∀ u ∈ Machine.visits (machine.traceOf fresh as) s, u.Inherited := by
  intro as
  have hrun := Machine.Run.of_exec_init fresh_init as rfl
  have hown : ∀ id ∈ [0], (Function.update fresh.own 0 (some messageFormatter)) id ≠ none := by
    decide
  refine ⟨_, hrun, (inherited_iff_passes hrun).mpr ?_⟩
  exact List.forall_mem_cons.mpr ⟨fun _ => nofun, List.forall_mem_cons.mpr ⟨Or.inl nofun,
    List.forall_mem_cons.mpr ⟨Or.inl hown, List.forall_mem_cons.mpr ⟨fun _ _ _ => Or.inl hown,
      List.forall_mem_singleton.mpr trivial⟩⟩⟩⟩

/-- An appender that was added as it was is left behind when the logger changes: it looks as
if the formatter that the logger gave it were its own. -/
theorem addAppender_pins_formatter :
    ∃ tr s, machine.Run tr s ∧ (∀ id, s.own id = none) ∧ 0 ∈ s.appenders ∧
      s.formatter = some messageFormatter ∧
      (s.appender 0).formatter = some LogFormatter.defaultFormatter ∧ ¬ s.Inherited := by
  refine ⟨_, _, Machine.Run.of_exec_init fresh_init
    [.addAppender 0, .setFormatter (some messageFormatter)] rfl, fun _ => rfl, ?_, rfl, rfl, ?_⟩
  · exact List.mem_singleton_self 0
  · intro hinherited
    have hformat : some LogFormatter.defaultFormatter = some messageFormatter :=
      hinherited.formats 0 (List.mem_singleton_self 0)
    exact absurd hformat (by decide)

end LogSetup
end Sylar
