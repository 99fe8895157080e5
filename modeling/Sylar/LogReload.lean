import Sylar.Interleaving
import Sylar.Logger

/-! # The listener of `logs`

When the configuration of the loggers changes, `LogIniter`'s listener sets up every logger that
the new set names, and disables those that only the old set names.

It gets a logger from the manager only for an entry that is new, or that `operator==` tells from
the old one; for an entry that is as before it follows a null pointer.  Nor does it give an
appender the formatter of its own entry.  **`reloaded_iff`** is when it does what it is for. -/
namespace Sylar
open OrderedSet

/-! ## The listener -/

/-- The appender of an entry, if its type is known. -/
def LogAppenderDefine.newAppender (a : LogAppenderDefine) : Option LogAppender :=
  if a.type = 1 then some { target := .file a.file }
  else if a.type = 2 then some { target := .stdout }
  else none

namespace Logger

/-- A turn of the loop over the appenders of an entry. -/
def addDefined (l : Logger) (a : LogAppenderDefine) : Logger :=
  match a.newAppender with
  | some newAppender => l.addAppender (newAppender.setLevel a.level)
  | none => l

/-- The formatter of an entry, if it has one. -/
def applyFormatter (l : Logger) (ld : LogDefine) : Except LogFault Logger :=
  if ld.formatter ≠ [] then l.setFormatter ld.formatter else return l

/-- What the listener does to the logger of an entry. -/
def configure (l : Logger) (ld : LogDefine) : Except LogFault Logger := do
  let l ← (l.setLevel ld.level).applyFormatter ld
  return ld.appenders.foldl addDefined l.clearAppenders

/-- What the listener does to a logger that is no longer configured. -/
def disable (l : Logger) : Logger := (l.setLevel .disabled).clearAppenders

end Logger

namespace LogReload

/-- `it == old_value.end() || !( *it == logDefine )` -/
def changed (old : LogDefineSet) (ld : LogDefine) : Bool :=
  match old.find ld with
  | none => true
  | some it => !it.same ld

/-- The loop over the new set. -/
def configureNew (old : LogDefineSet) (m : LoggerManager) (ld : LogDefine) :
    Except LogFault LoggerManager := do
  -- otherwise `logger` is null
  if changed old ld then
    let (m, logger) := m.getLogger ld.name
    let logger ← logger.configure ld
    return m.put ld.name logger
  else throw .nullLogger

/-- The loop over the old set. -/
def disableOld (new : LogDefineSet) (m : LoggerManager) (ld : LogDefine) :
    Except LogFault LoggerManager :=
  match new.find ld with
  | some _ => return m
  | none =>
    let (m, logger) := m.getLogger ld.name
    return m.put ld.name logger.disable

/-- The listener. -/
def onChange (old new : LogDefineSet) (m : LoggerManager) : Except LogFault LoggerManager := do
  let m ← new.1.foldlM (configureNew old) m
  old.1.foldlM (disableOld new) m

/-! ## What it is for -/

/-- The entry is that of an appender. -/
def IsAppender (d : LogAppenderDefine) : Bool := d.type = 1 ∨ d.type = 2

/-- The appender is the one of its entry. -/
structure AppenderFits (d : LogAppenderDefine) (a : LogAppender) : Prop where
  file : d.type = 1 → a.target = .file d.file
  stdout : d.type = 2 → a.target = .stdout
  level : a.level = d.level
  formatter : d.formatter ≠ [] → a.formatter.map LogFormatter.pattern = some d.formatter

/-- The logger is the one of its entry. -/
structure LoggerFits (d : LogDefine) (l : Logger) : Prop where
  level : l.level = d.level
  formatter : d.formatter ≠ [] → l.pattern = some d.formatter
  appenders : List.Forall₂ AppenderFits (d.appenders.filter IsAppender) l.appenders

/-- The loggers are as the new set has them. -/
structure Reloaded (old new : LogDefineSet) (m m' : LoggerManager) : Prop where
  named : ∀ d ∈ new.1, ∃ l, m'.loggers d.name = some l ∧ LoggerFits d l
  gone : ∀ d ∈ old.1, (∀ e ∈ new.1, e.name ≠ d.name) →
    ∃ l, m'.loggers d.name = some l ∧ l.level = .disabled ∧ l.appenders = []
  others : ∀ name, (∀ d ∈ old.1, d.name ≠ name) → (∀ d ∈ new.1, d.name ≠ name) →
    m'.loggers name = m.loggers name
  root : m'.root = m.root

/-! ## One logger -/

/-- The appender that a logger with this formatter gets for an entry. -/
def builtAppender (formatter : Option LogFormatter) (d : LogAppenderDefine) :
    Option LogAppender :=
  d.newAppender.map fun a => (a.setLevel d.level).setFormatter formatter

theorem builtAppender_fits {formatter : Option LogFormatter} {d : LogAppenderDefine}
    {a : LogAppender} (h : builtAppender formatter d = some a) :
    AppenderFits d a ↔
      (d.formatter ≠ [] → formatter.map LogFormatter.pattern = some d.formatter) := by
  obtain ⟨base, hbase, rfl⟩ := Option.map_eq_some_iff.mp h
  unfold LogAppenderDefine.newAppender at hbase
  constructor
  · exact AppenderFits.formatter
  · intro hformatter
    refine ⟨fun htype => ?_, fun htype => ?_, rfl, hformatter⟩
    · rw [if_pos htype] at hbase
      cases hbase
      rfl
    · rw [if_neg (by rw [htype]; decide), if_pos htype] at hbase
      cases hbase
      rfl

theorem isAppender_iff {d : LogAppenderDefine} {formatter : Option LogFormatter} :
    IsAppender d = true ↔ ∃ a, builtAppender formatter d = some a := by
  unfold IsAppender builtAppender LogAppenderDefine.newAppender
  rw [decide_eq_true_iff]
  split
  · rename_i h
    exact iff_of_true (.inl h) ⟨_, rfl⟩
  split
  · rename_i h
    exact iff_of_true (.inr h) ⟨_, rfl⟩
  · rename_i h1 h2
    refine iff_of_false (fun h => h.elim h1 h2) ?_
    rintro ⟨a, ⟨⟩⟩

theorem addDefined_eq (l : Logger) (d : LogAppenderDefine) :
    l.addDefined d =
      { l with appenders := l.appenders ++ (builtAppender l.formatter d).toList } := by
  unfold Logger.addDefined builtAppender LogAppenderDefine.newAppender
  split
  · rename_i a h
    rw [h]
    have hnone : (a.setLevel d.level).formatter = none := by
      split at h
      · cases h
        rfl
      split at h
      · cases h
        rfl
      · cases h
    unfold Logger.addAppender
    dsimp only
    rw [if_pos hnone]
    rfl
  · rename_i h
    rw [h, Option.map_none, Option.toList_none, List.append_nil]

theorem addAll_eq (l : Logger) (ds : List LogAppenderDefine) :
    ds.foldl Logger.addDefined l =
      { l with appenders := l.appenders ++ ds.filterMap (builtAppender l.formatter) } := by
  induction ds generalizing l with
  | nil =>
    rw [List.filterMap_nil, List.append_nil]
    rfl
  | cons d ds ih =>
    rw [List.foldl_cons, ih, addDefined_eq]
    dsimp only
    rw [List.append_assoc]
    congr 2
    cases h : builtAppender l.formatter d with
    | none => rw [List.filterMap_cons_none h]; rfl
    | some a => rw [List.filterMap_cons_some h]; rfl

/-- The appenders of a logger fit where its pattern is that of every entry with a formatter. -/
theorem built_fit_iff (formatter : Option LogFormatter) (ds : List LogAppenderDefine) :
    List.Forall₂ AppenderFits (ds.filter IsAppender) (ds.filterMap (builtAppender formatter)) ↔
      ∀ d ∈ ds, IsAppender d = true → d.formatter ≠ [] →
        formatter.map LogFormatter.pattern = some d.formatter := by
  induction ds with
  | nil => exact iff_of_true .nil fun d hd => absurd hd List.not_mem_nil
  | cons d ds ih =>
    rw [List.forall_mem_cons]
    by_cases h : IsAppender d = true
    · obtain ⟨a, ha⟩ := (@isAppender_iff d formatter).mp h
      rw [List.filter_cons, if_pos h, List.filterMap_cons_some ha, List.forall₂_cons, ih,
        builtAppender_fits ha]
      exact and_congr ⟨fun hd _ => hd, fun hd => hd h⟩ Iff.rfl
    · have hnone : builtAppender formatter d = none := by
        by_contra hsome
        exact h (isAppender_iff.mpr (Option.ne_none_iff_exists'.mp hsome))
      rw [List.filter_cons, if_neg h, List.filterMap_cons_none hnone, ih]
      exact (and_iff_right fun hd => absurd hd h).symm

/-- The logger behind the formatter of its entry. -/
theorem configure_fits {l l1 : Logger} {d : LogDefine}
    (h : (l.setLevel d.level).applyFormatter d = .ok l1) (hlevel : l1.level = d.level) :
    (∃ l', l.configure d = .ok l' ∧ LoggerFits d l') ↔
      (d.formatter ≠ [] → l1.pattern = some d.formatter) ∧
        ∀ a ∈ d.appenders, IsAppender a = true → a.formatter ≠ [] →
          l1.pattern = some a.formatter := by
  have hconfigure : l.configure d =
      .ok { l1 with appenders := d.appenders.filterMap (builtAppender l1.formatter) } := by
    rw [Logger.configure, h]
    show Except.ok (d.appenders.foldl Logger.addDefined l1.clearAppenders) = _
    rw [addAll_eq]
    rfl
  rw [hconfigure]
  constructor
  · rintro ⟨l', hl', hfits⟩
    cases hl'
    exact ⟨hfits.formatter, (built_fit_iff l1.formatter d.appenders).mp hfits.appenders⟩
  · rintro ⟨hformatter, happenders⟩
    refine ⟨_, rfl, hlevel, hformatter, ?_⟩
    exact (built_fit_iff l1.formatter d.appenders).mpr happenders

/-- The entry can be brought to a logger whose pattern is `p`: its formatter is accepted, or is
that pattern already, and its appenders ask for no other formatter than that of the logger. -/
structure Configurable (p : Option Str) (d : LogDefine) : Prop where
  formatter : d.formatter ≠ [] → LogFormatter.accepts d.formatter = true ∨
    LogFormatter.create d.formatter ≠ .error .outOfRange ∧ p = some d.formatter
  appenders : ∀ a ∈ d.appenders, IsAppender a = true → a.formatter ≠ [] →
    (if d.formatter ≠ [] then some d.formatter else p) = some a.formatter

theorem configure_iff (l : Logger) (d : LogDefine) :
    (∃ l', l.configure d = .ok l' ∧ LoggerFits d l') ↔ Configurable l.pattern d := by
  by_cases hempty : d.formatter = []
  · have hgiven : ¬ d.formatter ≠ [] := not_not.mpr hempty
    have hfits := @configure_fits l (l.setLevel d.level) d (if_neg hgiven) rfl
    rw [hfits]
    constructor
    · rintro ⟨-, happenders⟩
      refine ⟨fun h => absurd h hgiven, ?_⟩
      rw [if_neg hgiven]
      exact happenders
    · rintro ⟨-, happenders⟩
      rw [if_neg hgiven] at happenders
      exact ⟨fun h => absurd h hgiven, happenders⟩
  have hsplit : Configurable l.pattern d ↔
      (LogFormatter.accepts d.formatter = true ∨
        LogFormatter.create d.formatter ≠ .error .outOfRange ∧ l.pattern = some d.formatter) ∧
      ∀ a ∈ d.appenders, IsAppender a = true → a.formatter ≠ [] →
        some d.formatter = some a.formatter := by
    constructor
    · rintro ⟨hformatter, happenders⟩
      rw [if_pos hempty] at happenders
      exact ⟨hformatter hempty, happenders⟩
    · rintro ⟨hformatter, happenders⟩
      refine ⟨fun _ => hformatter, ?_⟩
      rw [if_pos hempty]
      exact happenders
  rw [hsplit]
  rcases (l.setLevel d.level).setFormatter_cases d.formatter with
    ⟨hset, hcreate⟩ | ⟨hset, haccepts, hcreate⟩ | ⟨f, hset, hpattern, haccepts⟩
  · -- the pattern is read behind its end
    have haccepts : LogFormatter.accepts d.formatter = false := by
      rw [LogFormatter.accepts, hcreate]
    refine iff_of_false ?_ ?_
    · rintro ⟨l', hl', -⟩
      rw [Logger.configure, Logger.applyFormatter, if_pos hempty, hset] at hl'
      cases hl'
    · rintro ⟨h | h, -⟩
      · rw [haccepts] at h
        cases h
      · exact h.1 hcreate
  · -- the pattern is refused
    rw [configure_fits ((if_pos hempty).trans hset) rfl, haccepts]
    show (_ → l.pattern = some d.formatter) ∧ (∀ a ∈ d.appenders, _ → _ → l.pattern = _) ↔ _
    constructor
    · rintro ⟨hformatter, happenders⟩
      have hpattern := hformatter hempty
      rw [hpattern] at happenders
      exact ⟨.inr ⟨hcreate, hpattern⟩, happenders⟩
    · rintro ⟨h | h, happenders⟩
      · cases h
      · rw [← h.2] at happenders
        exact ⟨fun _ => h.2, happenders⟩
  · -- the pattern is accepted
    rw [configure_fits ((if_pos hempty).trans hset) rfl]
    show (_ → some f.pattern = some d.formatter) ∧
      (∀ a ∈ d.appenders, _ → _ → some f.pattern = _) ↔ _
    rw [hpattern]
    exact and_congr (iff_of_true (fun _ => rfl) (.inl haccepts)) Iff.rfl

/-! ## All loggers -/

theorem changed_iff {old : LogDefineSet} {d : LogDefine} :
    changed old d = true ↔ ∀ o ∈ old.1, o.name = d.name → o.same d = false := by
  unfold changed LogDefineSet.find
  cases h : OrderedSet.find LogDefine.lt d old.1 with
  | none =>
    have hnone := (find_eq_none_iff LogDefineSet.lt_iff).mp h
    exact iff_of_true rfl fun o ho hname => absurd hname (hnone o ho)
  | some it =>
    obtain ⟨hit, hname⟩ := (Ordered.find_eq_some_iff LogDefineSet.lt_iff old.2).mp h
    rw [Bool.not_eq_true']
    constructor
    · intro hsame o ho honame
      rw [old.2.eq_of_key ho hit (honame.trans hname.symm)]
      exact hsame
    · exact fun hall => hall it hit hname

/-- What a turn of the first loop makes of the logger of a name. -/
def Configured (old : LogDefineSet) (v : Option Logger) (d : LogDefine) (v' : Option Logger) :
    Prop :=
  changed old d = true ∧
    ∃ l', (v.getD (Logger.create d.name)).configure d = .ok l' ∧ v' = some l'

/-- What a turn of the second loop makes of it. -/
def Disabled (new : LogDefineSet) (v : Option Logger) (d : LogDefine) (v' : Option Logger) :
    Prop :=
  v' = if (new.find d).isSome then v else some (v.getD (Logger.create d.name)).disable

theorem configureNew_eq (old : LogDefineSet) (m : LoggerManager) (d : LogDefine) :
    configureNew old m d =
      if changed old d then
        (((m.loggers d.name).getD (Logger.create d.name)).configure d).map (m.put d.name)
      else .error .nullLogger := by
  unfold configureNew
  split
  · dsimp only
    rw [LoggerManager.getLogger_snd]
    cases ((m.loggers d.name).getD (Logger.create d.name)).configure d with
    | error e => rfl
    | ok l' => exact congrArg Except.ok (LoggerManager.put_getLogger ..)
  · rfl

theorem disableOld_eq (new : LogDefineSet) (m : LoggerManager) (d : LogDefine) :
    disableOld new m d =
      .ok (if (new.find d).isSome then m
        else m.put d.name ((m.loggers d.name).getD (Logger.create d.name)).disable) := by
  unfold disableOld
  cases new.find d with
  | some o => rfl
  | none =>
    dsimp only
    rw [LoggerManager.getLogger_snd, LoggerManager.put_getLogger]
    rfl

theorem configureNew_local (old : LogDefineSet) :
    Local LogDefine.name LoggerManager.loggers (configureNew old) (Configured old) where
  here := by
    intro m m' d h
    rw [configureNew_eq] at h
    split at h
    · rename_i hchanged
      obtain ⟨l', hl', rfl⟩ := Interleaving.map_ok h
      exact ⟨hchanged, l', hl', Function.update_self ..⟩
    · cases h
  elsewhere := by
    intro m m' d h name hname
    rw [configureNew_eq] at h
    split at h
    · obtain ⟨l', -, rfl⟩ := Interleaving.map_ok h
      exact Function.update_of_ne hname ..
    · cases h
  completes := by
    rintro m d v ⟨hchanged, l', hl', -⟩
    refine ⟨m.put d.name l', ?_⟩
    rw [configureNew_eq, if_pos hchanged, hl']
    rfl

theorem disableOld_local (new : LogDefineSet) :
    Local LogDefine.name LoggerManager.loggers (disableOld new) (Disabled new) where
  here := by
    intro m m' d h
    rw [disableOld_eq] at h
    cases h
    unfold Disabled
    split
    · rfl
    · exact Function.update_self ..
  elsewhere := by
    intro m m' d h name hname
    rw [disableOld_eq] at h
    cases h
    split
    · rfl
    · exact Function.update_of_ne hname ..
  completes := fun m d _ _ => ⟨_, disableOld_eq new m d⟩

theorem configureNew_root {old : LogDefineSet} {m m' : LoggerManager} {d : LogDefine}
    (h : configureNew old m d = .ok m') : m'.root = m.root := by
  rw [configureNew_eq] at h
  split at h
  · obtain ⟨l', -, rfl⟩ := Interleaving.map_ok h
    rfl
  · cases h

theorem disableOld_root {new : LogDefineSet} {m m' : LoggerManager} {d : LogDefine}
    (h : disableOld new m d = .ok m') : m'.root = m.root := by
  rw [disableOld_eq] at h
  cases h
  split <;> rfl

/-- A loop whose turns leave the root logger alone leaves it alone. -/
theorem foldlM_root {step : LoggerManager → LogDefine → Except LogFault LoggerManager}
    (hstep : ∀ {m d m'}, step m d = .ok m' → m'.root = m.root) {ds : List LogDefine}
    {m m' : LoggerManager} (h : ds.foldlM step m = .ok m') : m'.root = m.root := by
  induction ds generalizing m with
  | nil =>
    cases h
    rfl
  | cons d ds ih =>
    rw [List.foldlM_cons] at h
    obtain ⟨m1, hm1, h⟩ := Interleaving.bind_ok h
    exact (ih h).trans (hstep hm1)

/-- The pattern of the logger that the manager returns for a name. -/
def patternOf (m : LoggerManager) (name : Str) : Option Str := (m.getLogger name).2.pattern

/-- The listener can do what it is for with an entry of the new set: it is told from the old
entry, and it can be brought to its logger. -/
structure Reloadable (old : LogDefineSet) (m : LoggerManager) (d : LogDefine) : Prop where
  changed : ∀ o ∈ old.1, o.name = d.name → o.same d = false
  configurable : Configurable (patternOf m d.name) d

theorem find_isSome_iff {new : LogDefineSet} {d : LogDefine} :
    (new.find d).isSome = true ↔ ∃ e ∈ new.1, e.name = d.name := by
  unfold LogDefineSet.find
  cases h : OrderedSet.find LogDefine.lt d new.1 with
  | none =>
    refine iff_of_false Bool.false_ne_true ?_
    rintro ⟨e, he, hname⟩
    exact (find_eq_none_iff LogDefineSet.lt_iff).mp h e he hname
  | some it =>
    exact iff_of_true rfl ⟨it, (Ordered.find_eq_some_iff LogDefineSet.lt_iff new.2).mp h⟩

/-- The second loop leaves the loggers that the new set names. -/
theorem disableOld_named {old new : LogDefineSet} {m m' : LoggerManager}
    (hrun : old.1.foldlM (disableOld new) m = .ok m') {d : LogDefine} (hd : d ∈ new.1) :
    m'.loggers d.name = m.loggers d.name := by
  obtain ⟨hold, hframe⟩ := (disableOld_local new).loop old.2 hrun
  by_cases hboth : ∃ o ∈ old.1, o.name = d.name
  · obtain ⟨o, ho, hname⟩ := hboth
    rw [← hname]
    exact (hold o ho).trans (if_pos (find_isSome_iff.mpr ⟨d, hd, hname.symm⟩))
  · exact hframe d.name fun o ho hname => hboth ⟨o, ho, hname⟩

theorem Reloadable.configured {old : LogDefineSet} {m : LoggerManager} {d : LogDefine}
    (h : Reloadable old m d) :
    ∃ l', ((m.loggers d.name).getD (Logger.create d.name)).configure d = .ok l' ∧
      LoggerFits d l' := by
  refine (configure_iff _ d).mpr ?_
  rw [← LoggerManager.getLogger_snd]
  exact h.configurable

/-- **When the loggers are reloaded**: where every entry of the new set is told from the old one
by `operator==`, its formatter is accepted (or is already that of its logger), and its appenders
ask for no other formatter than that of the logger. -/
theorem reloaded_iff (old new : LogDefineSet) (m : LoggerManager) :
    (∃ m', onChange old new m = .ok m' ∧ Reloaded old new m m') ↔
      ∀ d ∈ new.1, Reloadable old m d := by
  constructor
  · rintro ⟨m', hrun, h⟩ d hd
    obtain ⟨m1, hnew, hold⟩ := Interleaving.bind_ok hrun
    obtain ⟨hchanged, l', hl', hl1⟩ := ((configureNew_local old).loop new.2 hnew).1 d hd
    obtain ⟨l, hl, hfits⟩ := h.named d hd
    rw [disableOld_named hold hd, hl1] at hl
    obtain rfl : l' = l := Option.some_inj.mp hl
    refine ⟨changed_iff.mp hchanged, ?_⟩
    rw [patternOf, LoggerManager.getLogger_snd]
    exact (configure_iff _ d).mp ⟨l', hl', hfits⟩
  · intro h
    obtain ⟨m1, hnew⟩ : ∃ m1, new.1.foldlM (configureNew old) m = .ok m1 := by
      refine (configureNew_local old).loop_completes new.2 fun d hd => ?_
      obtain ⟨l', hl', -⟩ := (h d hd).configured
      exact ⟨some l', changed_iff.mpr (h d hd).changed, l', hl', rfl⟩
    obtain ⟨m', hold⟩ : ∃ m', old.1.foldlM (disableOld new) m1 = .ok m' :=
      (disableOld_local new).loop_completes old.2 fun d _ => ⟨_, rfl⟩
    obtain ⟨hnamed, hframe1⟩ := (configureNew_local old).loop new.2 hnew
    obtain ⟨hgone, hframe2⟩ := (disableOld_local new).loop old.2 hold
    refine ⟨m', ?_, ?_⟩
    · show (new.1.foldlM (configureNew old) m >>= fun m => old.1.foldlM (disableOld new) m) = _
      rw [hnew]
      exact hold
    constructor
    case named =>
      intro d hd
      obtain ⟨-, l', hl', hl1⟩ := hnamed d hd
      obtain ⟨l, hl, hfits⟩ := (h d hd).configured
      rw [hl'] at hl
      cases hl
      exact ⟨l', (disableOld_named hold hd).trans hl1, hfits⟩
    case gone =>
      intro d hd hnot
      have hnone : ¬ (new.find d).isSome = true := by
        rw [find_isSome_iff]
        rintro ⟨e, he, hname⟩
        exact hnot e he hname
      exact ⟨_, (hgone d hd).trans (if_neg hnone), rfl, rfl⟩
    case others =>
      intro name hnotOld hnotNew
      exact (hframe2 name hnotOld).trans (hframe1 name hnotNew)
    case root =>
      exact (foldlM_root disableOld_root hold).trans (foldlM_root configureNew_root hnew)

section Examples

/-- A definition of a logger that writes to the standard output. -/
def stdoutDefine (name : String) : LogDefine :=
  { name := name.toList, level := .info, appenders := [{ type := 2, level := .info }] }

/-- The set with this definition. -/
def only (d : LogDefine) : LogDefineSet := ⟨[d], List.pairwise_singleton ..⟩

/-- A manager that has no logger but the root logger. -/
def fresh : LoggerManager := { loggers := fun _ => none, root := Logger.create "root".toList }

/-- An entry that is as before next to one that is new: the listener follows a null pointer. -/
theorem unchanged_entry_null : ∃ old new : LogDefineSet,
    old.1 = [stdoutDefine "a"] ∧ new.1 = [stdoutDefine "a", stdoutDefine "b"] ∧
      onChange old new fresh = .error .nullLogger ∧
        ¬ ∃ m', onChange old new fresh = .ok m' ∧ Reloaded old new fresh m' := by
  have hordered : Ordered LogDefine.name [stdoutDefine "a", stdoutDefine "b"] :=
    List.pairwise_pair.mpr (by decide)
  have hnull : onChange (only (stdoutDefine "a")) ⟨_, hordered⟩ fresh = .error .nullLogger := rfl
  refine ⟨only (stdoutDefine "a"), ⟨_, hordered⟩, rfl, rfl, hnull, ?_⟩
  rintro ⟨m', hrun, -⟩
  rw [hnull] at hrun
  cases hrun

end Examples

end LogReload

end Sylar
