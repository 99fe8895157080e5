import Sylar.RecencyTable
import Mathlib.Data.List.Induction

/-! # The dispatch of servlets

`ServletDispatch` has a map for the uris that are served exactly and a row of patterns.  Adding a
pattern erases the one entry that it finds of it and appends another, so that the row is in the
order of the latest additions; a request goes to the exact servlet, else to the first pattern that
matches, else to `default_`.

**`servlet_dispatch`** is about every sequence of additions and deletions. -/
namespace Sylar
open RecencyTable

/-- The creators of servlets: `HoldServletCreator` has its servlet, and every other one is told
apart by a key, for which `make` has what its `get()` makes. -/
inductive IServletCreator (Servlet Custom : Type)
  | hold (m_servlet : Servlet)
  | custom (creator : Custom)

/-- `get()` -/
def IServletCreator.get {Servlet Custom : Type} (make : Custom → Servlet) :
    IServletCreator Servlet Custom → Servlet
  | hold m_servlet => m_servlet
  | custom creator => make creator

/-- `ServletDispatch` -/
structure ServletDispatch (Servlet Custom : Type) where
  datas_ : List UInt8 → Option (IServletCreator Servlet Custom)
  globs_ : List (List UInt8 × IServletCreator Servlet Custom)
  default_ : Servlet

namespace ServletDispatch
variable {Servlet Custom : Type}

/-- What the constructor makes; its servlet is a `NotFoundServlet`. -/
def init (notFound : Servlet) : ServletDispatch Servlet Custom where
  datas_ _ := none
  globs_ := []
  default_ := notFound

/-- The loop of three of the functions, which erases the first entry of a pattern. -/
def eraseGlob (uri : List UInt8) :
    List (List UInt8 × IServletCreator Servlet Custom) →
      List (List UInt8 × IServletCreator Servlet Custom)
  | [] => []
  | it :: rest => if it.1 = uri then rest else it :: eraseGlob uri rest

section Operations
variable (d : ServletDispatch Servlet Custom) (uri : List UInt8)

def addServlet (slt : Servlet) : ServletDispatch Servlet Custom :=
  { d with datas_ := Function.update d.datas_ uri (some (.hold slt)) }

def addServletCreator (creator : IServletCreator Servlet Custom) :
    ServletDispatch Servlet Custom :=
  { d with datas_ := Function.update d.datas_ uri (some creator) }

def addGlobServletCreator (creator : IServletCreator Servlet Custom) :
    ServletDispatch Servlet Custom :=
  { d with globs_ := eraseGlob uri d.globs_ ++ [(uri, creator)] }

def addGlobServlet (slt : Servlet) : ServletDispatch Servlet Custom :=
  { d with globs_ := eraseGlob uri d.globs_ ++ [(uri, .hold slt)] }

def delServlet : ServletDispatch Servlet Custom :=
  { d with datas_ := Function.update d.datas_ uri none }

def delGlobServlet : ServletDispatch Servlet Custom :=
  { d with globs_ := eraseGlob uri d.globs_ }

variable (make : Custom → Servlet)

/-- `getServlet`; a null pointer is `none`. -/
def getServlet : Option Servlet := (d.datas_ uri).map (·.get make)

/-- `getGlobServlet` -/
def getGlobServlet : Option Servlet :=
  (d.globs_.find? fun it => decide (it.1 = uri)).map fun it => it.2.get make

/-- The string that is behind `c_str()`, up to its terminator. -/
def cStr (s : List UInt8) : List UInt8 := s.takeWhile (· != 0)

variable (fnmatch : List UInt8 → List UInt8 → Bool)

/-- `getMatchedServlet` -/
def getMatchedServlet : Servlet :=
  match d.datas_ uri with
  | some creator => creator.get make
  | none =>
    match d.globs_.find? fun it => fnmatch (cStr it.1) (cStr uri) with
    | some it => it.2.get make
    | none => d.default_

end Operations

/-! ## Sequences of calls -/

/-- A call of one of the functions that change the tables. -/
inductive Call (Servlet Custom : Type)
  | addServlet (uri : List UInt8) (slt : Servlet)
  | addServletCreator (uri : List UInt8) (creator : IServletCreator Servlet Custom)
  | addGlobServlet (uri : List UInt8) (slt : Servlet)
  | addGlobServletCreator (uri : List UInt8) (creator : IServletCreator Servlet Custom)
  | delServlet (uri : List UInt8)
  | delGlobServlet (uri : List UInt8)

def apply (d : ServletDispatch Servlet Custom) :
    Call Servlet Custom → ServletDispatch Servlet Custom
  | .addServlet uri slt => d.addServlet uri slt
  | .addServletCreator uri creator => d.addServletCreator uri creator
  | .addGlobServlet uri slt => d.addGlobServlet uri slt
  | .addGlobServletCreator uri creator => d.addGlobServletCreator uri creator
  | .delServlet uri => d.delServlet uri
  | .delGlobServlet uri => d.delGlobServlet uri

def run (notFound : Servlet) (calls : List (Call Servlet Custom)) :
    ServletDispatch Servlet Custom :=
  calls.foldl apply (init notFound)

/-- What a call does with a uri. -/
def Call.exact : Call Servlet Custom → Option (Update (List UInt8) (IServletCreator Servlet Custom))
  | addServlet uri slt => some (.set uri (.hold slt))
  | addServletCreator uri creator => some (.set uri creator)
  | delServlet uri => some (.del uri)
  | _ => none

/-- What a call does with a pattern. -/
def Call.glob : Call Servlet Custom → Option (Update (List UInt8) (IServletCreator Servlet Custom))
  | addGlobServlet uri slt => some (.set uri (.hold slt))
  | addGlobServletCreator uri creator => some (.set uri creator)
  | delGlobServlet uri => some (.del uri)
  | _ => none

theorem eraseGlob_eq (uri : List UInt8)
    (globs : List (List UInt8 × IServletCreator Servlet Custom)) :
    eraseGlob uri globs = globs.eraseP fun it => decide (it.1 = uri) := by
  induction globs with
  | nil => rfl
  | cons it rest ih =>
    rw [eraseGlob, List.eraseP_cons, ih]
    split
    case isTrue h => rw [decide_eq_true h]; rfl
    case isFalse h => rw [decide_eq_false h]; rfl

theorem datas_apply (d : ServletDispatch Servlet Custom) (call : Call Servlet Custom) :
    (d.apply call).datas_ =
      match call.exact with
      | some w => assign d.datas_ w
      | none => d.datas_ := by
  cases call <;> rfl

theorem globs_apply (d : ServletDispatch Servlet Custom) (call : Call Servlet Custom) :
    (d.apply call).globs_ =
      match call.glob with
      | some w => arrange d.globs_ w
      | none => d.globs_ := by
  cases call with
  | addGlobServlet uri slt => exact congrArg (· ++ _) (eraseGlob_eq uri d.globs_)
  | addGlobServletCreator uri creator => exact congrArg (· ++ _) (eraseGlob_eq uri d.globs_)
  | delGlobServlet uri => exact eraseGlob_eq uri d.globs_
  | addServlet uri slt => rfl
  | addServletCreator uri creator => rfl
  | delServlet uri => rfl

theorem default_apply (d : ServletDispatch Servlet Custom) (call : Call Servlet Custom) :
    (d.apply call).default_ = d.default_ := by
  cases call <;> rfl

/-- The tables have what the calls added latest. -/
structure Reflects (calls : List (Call Servlet Custom)) (d : ServletDispatch Servlet Custom) :
    Prop where
  datas : Holds Call.exact calls d.datas_
  globs : Arranged Call.glob calls d.globs_

theorem Reflects.apply {calls : List (Call Servlet Custom)} {d : ServletDispatch Servlet Custom}
    (h : Reflects calls d) (call : Call Servlet Custom) :
    Reflects (calls ++ [call]) (d.apply call) := by
  constructor
  · rw [datas_apply]
    cases hcall : call.exact with
    | none => exact h.datas.skip hcall
    | some w => exact h.datas.assign hcall
  · rw [globs_apply]
    cases hcall : call.glob with
    | none => exact h.globs.skip hcall
    | some w => exact h.globs.arrange hcall

theorem reflects_run (notFound : Servlet) (calls : List (Call Servlet Custom)) :
    Reflects calls (run notFound calls) ∧ (run notFound calls).default_ = notFound := by
  -- one call more is applied to what the others left
  induction calls using List.reverseRecOn with
  | nil => exact ⟨⟨holds_nil, arranged_nil⟩, rfl⟩
  | append_singleton calls call ih =>
    rw [run, List.foldl_append]
    refine ⟨ih.1.apply call, ?_⟩
    exact (default_apply _ call).trans ih.2

/-- What is to be served for `uri` after these calls. -/
inductive Serves (make : Custom → Servlet) (fnmatch : List UInt8 → List UInt8 → Bool)
    (notFound : Servlet) (calls : List (Call Servlet Custom)) (uri : List UInt8) :
    Servlet → Prop
  | exact {i : Nat} {creator} :
    Latest Call.exact calls i uri creator →
      Serves make fnmatch notFound calls uri (creator.get make)
  | glob {i : Nat} {pattern} {creator} :
    (∀ i creator, ¬ Latest Call.exact calls i uri creator) →
    Latest Call.glob calls i pattern creator → fnmatch (cStr pattern) (cStr uri) = true →
    (∀ j other creator', Latest Call.glob calls j other creator' →
      fnmatch (cStr other) (cStr uri) = true → i ≤ j) →
    Serves make fnmatch notFound calls uri (creator.get make)
  | default :
    (∀ i creator, ¬ Latest Call.exact calls i uri creator) →
    (∀ i pattern creator, Latest Call.glob calls i pattern creator →
      fnmatch (cStr pattern) (cStr uri) = false) →
    Serves make fnmatch notFound calls uri notFound

section Serving
variable {make : Custom → Servlet} {fnmatch : List UInt8 → List UInt8 → Bool} {notFound : Servlet}
  {calls : List (Call Servlet Custom)} {uri : List UInt8}

/-- There is one servlet for a uri. -/
theorem Serves.unique {slt slt' : Servlet} (h : Serves make fnmatch notFound calls uri slt)
    (h' : Serves make fnmatch notFound calls uri slt') : slt = slt' := by
  cases h with
  | exact hlatest =>
    cases h' with
    | exact hlatest' => rw [(hlatest.unique hlatest').2]
    | glob hnone => exact absurd hlatest (hnone _ _)
    | default hnone => exact absurd hlatest (hnone _ _)
  | glob hnone hlatest hmatch hfirst =>
    cases h' with
    | exact hlatest' => exact absurd hlatest' (hnone _ _)
    -- each of them was added no later than the other, so they are of one step
    | glob _ hlatest' hmatch' hfirst' =>
      cases Nat.le_antisymm (hfirst _ _ _ hlatest' hmatch') (hfirst' _ _ _ hlatest hmatch)
      rw [(hlatest.unique_key hlatest').2]
    | default _ hno => exact absurd (hno _ _ _ hlatest) (by rw [hmatch]; decide)
  | default hnone hno =>
    cases h' with
    | exact hlatest' => exact absurd hlatest' (hnone _ _)
    | glob _ hlatest' hmatch' _ => exact absurd (hno _ _ _ hlatest') (by rw [hmatch']; decide)
    | default => rfl

theorem serves_getMatchedServlet {d : ServletDispatch Servlet Custom} (h : Reflects calls d)
    (hdefault : d.default_ = notFound) :
    Serves make fnmatch notFound calls uri (d.getMatchedServlet uri make fnmatch) := by
  rw [getMatchedServlet]
  cases hdatas : d.datas_ uri with
  | some creator =>
    -- a servlet of the uri itself comes first
    obtain ⟨i, hlatest⟩ := (h.datas uri creator).mp hdatas
    exact .exact hlatest
  | none =>
    have hnone : ∀ i creator, ¬ Latest Call.exact calls i uri creator := by
      intro i creator hlatest
      rw [(h.datas uri creator).mpr ⟨i, hlatest⟩] at hdatas
      cases hdatas
    cases hfind : d.globs_.find? fun it => fnmatch (cStr it.1) (cStr uri) with
    | some it =>
      obtain ⟨hmatch, i, hlatest, hfirst⟩ := h.globs.find? _ hfind
      exact .glob hnone hlatest hmatch hfirst
    | none =>
      rw [← hdefault]
      refine .default hnone fun i pattern creator hlatest => ?_
      have hmem := h.globs.mem_iff.mpr ⟨i, hlatest⟩
      exact Bool.not_eq_true _ ▸ List.find?_eq_none.mp hfind _ hmem

theorem getServlet_eq_none {d : ServletDispatch Servlet Custom} (h : Reflects calls d)
    (hnone : ∀ i creator, ¬ Latest Call.exact calls i uri creator) :
    d.getServlet uri make = none := by
  rw [getServlet, Option.map_eq_none_iff, Option.eq_none_iff_forall_ne_some]
  intro creator hcreator
  obtain ⟨i, hlatest⟩ := (h.datas uri creator).mp hcreator
  exact hnone i creator hlatest

theorem getGlobServlet_eq_none {d : ServletDispatch Servlet Custom} (h : Reflects calls d)
    (hnone : ∀ i creator, ¬ Latest Call.glob calls i uri creator) :
    uri ∉ d.globs_.map Prod.fst ∧ d.getGlobServlet uri make = none := by
  have hmem : ∀ it ∈ d.globs_, it.1 ≠ uri := by
    rintro ⟨pattern, creator⟩ hit rfl
    obtain ⟨i, hlatest⟩ := h.globs.mem_iff.mp hit
    exact hnone i creator hlatest
  constructor
  · rw [List.mem_map]
    rintro ⟨it, hit, heq⟩
    exact hmem it hit heq
  · rw [getGlobServlet, Option.map_eq_none_iff, List.find?_eq_none]
    intro it hit
    rw [decide_eq_true_iff]
    exact hmem it hit

end Serving

/-- **After every sequence of calls** the row has each pattern at most once, what was deleted and
not added again is not found, and `getMatchedServlet` returns what is to be served: the latest
exact servlet, else that of the matching pattern whose latest addition is the oldest, else the
default. -/
theorem servlet_dispatch (make : Custom → Servlet) (fnmatch : List UInt8 → List UInt8 → Bool)
    (notFound : Servlet) (calls : List (Call Servlet Custom)) :
    ((run notFound calls).globs_.map Prod.fst).Nodup ∧
    (∀ uri slt, (run notFound calls).getMatchedServlet uri make fnmatch = slt ↔
      Serves make fnmatch notFound calls uri slt) ∧
    (∀ before after uri, calls = before ++ .delServlet uri :: after →
      (∀ call ∈ after, ∀ creator, call.exact ≠ some (.set uri creator)) →
      (run notFound calls).getServlet uri make = none ∧
      ∀ i creator, ¬ Latest Call.exact calls i uri creator) ∧
    ∀ before after uri, calls = before ++ .delGlobServlet uri :: after →
      (∀ call ∈ after, ∀ creator, call.glob ≠ some (.set uri creator)) →
      uri ∉ (run notFound calls).globs_.map Prod.fst ∧
      (run notFound calls).getGlobServlet uri make = none ∧
      ∀ i creator, ¬ Latest Call.glob calls i uri creator := by
  obtain ⟨hrun, hdefault⟩ := reflects_run notFound calls
  refine ⟨hrun.globs.nodup_keys, fun uri slt => ⟨?_, fun h => ?_⟩, ?_, ?_⟩
  · rintro rfl
    exact serves_getMatchedServlet hrun hdefault
  · exact (serves_getMatchedServlet hrun hdefault).unique h
  · intro before after uri hcalls hafter
    have hnone : ∀ i creator, ¬ Latest Call.exact calls i uri creator := by
      intro i creator
      have hdel : Call.exact (.delServlet uri : Call Servlet Custom) = some (.del uri) := rfl
      rw [hcalls]
      exact not_latest_of_del hdel hafter
    exact ⟨getServlet_eq_none hrun hnone, hnone⟩
  · intro before after uri hcalls hafter
    have hnone : ∀ i creator, ¬ Latest Call.glob calls i uri creator := by
      intro i creator
      have hdel : Call.glob (.delGlobServlet uri : Call Servlet Custom) = some (.del uri) := rfl
      rw [hcalls]
      exact not_latest_of_del hdel hafter
    have habsent : uri ∉ (run notFound calls).globs_.map Prod.fst ∧
        (run notFound calls).getGlobServlet uri make = none := getGlobServlet_eq_none hrun hnone
    exact ⟨habsent.1, habsent.2, hnone⟩

/-- Of two patterns that match, the first one is added again, and so the other one is served; then
it is deleted. -/
theorem servlet_dispatch_glob :
    let fnmatch (pattern uri : List UInt8) := pattern.isPrefixOf uri
    let calls : List (Call Nat Empty) :=
      [.addGlobServlet [47] 1, .addGlobServlet [47, 97] 2, .addGlobServlet [47] 3]
    (run 0 calls).getMatchedServlet [47, 97] Empty.elim fnmatch = 2 ∧
      (run 0 (calls ++ [.delGlobServlet [47, 97]])).getGlobServlet [47, 97] Empty.elim = none :=
  ⟨rfl, ((servlet_dispatch Empty.elim (fun _ _ => true) 0 _).2.2.2 _ [] [47, 97] rfl (by simp)).2.1⟩

end ServletDispatch

end Sylar
