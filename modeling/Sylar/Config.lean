import Mathlib.Data.Set.Basic
import Sylar.Yaml

/-! # `Config::LoadFromYaml`

A name of a variable has only letters of an alphabet, in which there are no upper-case letters:
`Lookup` throws for others.  `ListAllMember` joins the keys of nested maps with dots and leaves
out what is not such a name; only then are the names that are left put in lower case.  So a node
with an upper-case letter in its path is left out, although its name in lower case may be that
of a variable.

**`appliesMatching_iff`**: every variable receives the nodes whose path is its name in lower
case, in document order, exactly where there is no such letter in the path of one of them. -/
namespace Sylar.Config

/-! ## Names -/

/-- The letters of a name. -/
def alphabet : Str := "abcdefghikjlmnopqrstuvwxyz._012345678".toList

/-- `name.find_first_not_of( alphabet ) == std::string::npos` -/
def nameOk (name : Str) : Bool := name.all alphabet.contains

/-- A name for which `Lookup` does not throw. -/
abbrev ConfigName := { name : Str // nameOk name = true }

/-- `GetDatas()`: the variables that are registered. -/
abbrev Registry (V : Type) := ConfigName → Option V

/-- `std::transform( key.begin(), key.end(), key.begin(), ::tolower )` -/
def lowerCase (key : Str) : Str := key.map Char.toLower

/-- The path of an entry. -/
def joined (pre key : Str) : Str := if pre = [] then key else pre ++ '.' :: key

/-! ## Loading -/

mutual

/-- `ListAllMember` -/
def listAllMember (pre : Str) : Yaml → List (Str × Yaml)
  | .map entries =>
    if nameOk pre then (pre, .map entries) :: listEntries pre entries else []
  | node => if nameOk pre then [(pre, node)] else []

/-- The loop over the entries of a map. -/
def listEntries (pre : Str) : List (Yaml × Yaml) → List (Str × Yaml)
  | [] => []
  | (key, value) :: entries =>
    listAllMember (joined pre key.scalarText) value ++ listEntries pre entries

end

section Load
variable {V : Type} (emit : Yaml → Str) (fromString : V → Str → V)

/-- The text of a node: its scalar, or what is printed of it. -/
def nodeText : Yaml → Str
  | .scalar text => text
  | node => emit node

/-- One turn of the loop of `LoadFromYaml`. -/
def applyNode (datas : Registry V) (e : Str × Yaml) : Registry V :=
  if e.1 = [] then datas
  else
    let key := lowerCase e.1
    -- `LookupBase`
    if h : nameOk key = true then
      match datas ⟨key, h⟩ with
      | none => datas
      | some var => Function.update datas ⟨key, h⟩ (some (fromString var (nodeText emit e.2)))
    else datas

/-- `Config::LoadFromYaml` -/
def loadFromYaml (root : Yaml) (datas : Registry V) : Registry V :=
  (listAllMember [] root).foldl (applyNode emit fromString) datas

end Load

/-! ## Nodes and their paths -/

mutual

/-- Every node below a path, with its own path. -/
def nodesFrom (pre : Str) : Yaml → List (Str × Yaml)
  | .map entries => (pre, .map entries) :: nodesOf pre entries
  | node => [(pre, node)]

def nodesOf (pre : Str) : List (Yaml × Yaml) → List (Str × Yaml)
  | [] => []
  | (key, value) :: entries => nodesFrom (joined pre key.scalarText) value ++ nodesOf pre entries

end

/-- The node is the setting of this variable: its path, in lower case, is the name. -/
def Matches (name : ConfigName) (e : Str × Yaml) : Bool := e.1 ≠ [] ∧ lowerCase e.1 = name.1

/-- The nodes that set this variable, in document order. -/
def matching (root : Yaml) (name : ConfigName) : List Yaml :=
  ((nodesFrom [] root).filter (Matches name)).map Prod.snd

/-- **What loading is for**: every variable that is registered receives the texts of the nodes
that set it, one after the other, the last one last; what is not registered stays so. -/
def AppliesMatching (emit : Yaml → Str) (root : Yaml) (registered : Set ConfigName) : Prop :=
  ∀ (V : Type) (fromString : V → Str → V) (datas : Registry V),
    (∀ name, (datas name).isSome = true ↔ name ∈ registered) →
      ∀ name, loadFromYaml emit fromString root datas name =
        (datas name).map fun var =>
          ((matching root name).map (nodeText emit)).foldl fromString var

theorem joined_extends (pre key : Str) : pre <+: joined pre key := by
  unfold joined
  split
  · rename_i h
    rw [h]
    exact List.nil_prefix
  · exact List.prefix_append ..

mutual

/-- The path of a node begins with the paths of those above it. -/
theorem nodesFrom_extends {pre : Str} : ∀ {node : Yaml}, ∀ e ∈ nodesFrom pre node, pre <+: e.1
  | .map entries => by
    intro e he
    rcases List.mem_cons.mp he with rfl | he
    · exact List.prefix_rfl
    · exact nodesOf_extends e he
  | .null | .scalar _ | .sequence _ => by
    intro e he
    cases List.mem_singleton.mp he
    exact List.prefix_rfl

theorem nodesOf_extends {pre : Str} : ∀ {entries : List (Yaml × Yaml)},
    ∀ e ∈ nodesOf pre entries, pre <+: e.1
  | [] => by
    intro e he
    cases he
  | (key, value) :: entries => by
    intro e he
    rcases List.mem_append.mp he with he | he
    · exact (joined_extends pre key.scalarText).trans (nodesFrom_extends e he)
    · exact nodesOf_extends e he

end

theorem nameOk_of_extends {a b : Str} (h : a <+: b) (hb : nameOk b = true) : nameOk a = true := by
  obtain ⟨c, rfl⟩ := h
  rw [nameOk, List.all_append, Bool.and_eq_true] at hb
  exact hb.1

/-- Below a path that is no name, no path is one. -/
theorem filter_below {pre : Str} (hpre : ¬ nameOk pre = true) {l : List (Str × Yaml)}
    (hl : ∀ e ∈ l, pre <+: e.1) : l.filter (fun e => nameOk e.1) = [] :=
  List.filter_eq_nil_iff.mpr fun e he hok => hpre (nameOk_of_extends (hl e he) hok)

mutual

/-- **What is listed**: the nodes whose path is a name. -/
theorem listAllMember_eq (pre : Str) : ∀ node : Yaml,
    listAllMember pre node = (nodesFrom pre node).filter fun e => nameOk e.1
  | .map entries => by
    rw [listAllMember]
    split
    · rename_i hok
      rw [nodesFrom, listEntries_eq pre entries]
      rw [List.filter_cons, if_pos hok]
    · rename_i hbad
      exact (filter_below hbad nodesFrom_extends).symm
  | .null | .scalar _ | .sequence _ => by
    rw [listAllMember, nodesFrom, List.filter_singleton]
    · exact (Bool.cond_eq_ite ..).symm
    all_goals rintro _ ⟨⟩

theorem listEntries_eq (pre : Str) : ∀ entries : List (Yaml × Yaml),
    listEntries pre entries = (nodesOf pre entries).filter fun e => nameOk e.1
  | [] => rfl
  | (key, value) :: entries => by
    rw [listEntries, nodesOf, List.filter_append, listAllMember_eq, listEntries_eq pre entries]

end

/-! ## What a variable receives -/

section Receive
variable {V : Type} {emit : Yaml → Str} {fromString : V → Str → V}

/-- A turn of the loop, for one variable. -/
theorem applyNode_at (datas : Registry V) (e : Str × Yaml) (name : ConfigName) :
    applyNode emit fromString datas e name =
      if Matches name e then (datas name).map fun var => fromString var (nodeText emit e.2)
      else datas name := by
  unfold applyNode Matches
  by_cases hempty : e.1 = []
  · rw [if_pos hempty, if_neg (by simp [hempty])]
  rw [if_neg hempty]
  by_cases hsame : lowerCase e.1 = name.1
  · have hok : nameOk (lowerCase e.1) = true := hsame ▸ name.2
    have hname : (⟨lowerCase e.1, hok⟩ : ConfigName) = name := Subtype.ext hsame
    rw [dif_pos hok, hname, if_pos (by simp [hempty, hsame])]
    cases hvar : datas name with
    | none => exact hvar
    | some var => exact Function.update_self ..
  · rw [if_neg (by simp [hsame])]
    split
    · rename_i hok
      cases datas ⟨lowerCase e.1, hok⟩ with
      | none => rfl
      | some var =>
        refine Function.update_of_ne (fun heq => hsame ?_) ..
        exact (congrArg Subtype.val heq).symm
    · rfl

theorem applyNodes_at (nodes : List (Str × Yaml)) (datas : Registry V) (name : ConfigName) :
    nodes.foldl (applyNode emit fromString) datas name =
      (datas name).map fun var =>
        ((nodes.filter (Matches name)).map fun e => nodeText emit e.2).foldl fromString var := by
  induction nodes generalizing datas with
  | nil => exact Option.map_id'.symm
  | cons e nodes ih =>
    rw [List.foldl_cons, ih, applyNode_at]
    by_cases hmatch : Matches name e = true
    · rw [if_pos hmatch, List.filter_cons_of_pos hmatch, Option.map_map]
      rfl
    · rw [if_neg hmatch, List.filter_cons_of_neg hmatch]

/-- **What loading does**: a variable receives the nodes that set it and whose path is a name. -/
theorem loadFromYaml_at (root : Yaml) (datas : Registry V) (name : ConfigName) :
    loadFromYaml emit fromString root datas name =
      (datas name).map fun var =>
        ((((nodesFrom [] root).filter (Matches name)).filter fun e => nameOk e.1).map
          fun e => nodeText emit e.2).foldl fromString var := by
  rw [loadFromYaml, applyNodes_at, listAllMember_eq, List.filter_comm]

end Receive

/-! ## Upper-case letters -/

/-- The path has an upper-case letter. -/
def hasUpper (path : Str) : Bool := path.any Char.isUpper

theorem toLower_eq_self {c : Char} (h : c.isUpper = false) : c.toLower = c :=
  dif_neg (of_decide_eq_false h)

theorem not_isUpper {c : Char} (h : alphabet.contains c = true) : c.isUpper = false := by
  have hall : alphabet.all (fun c => !c.isUpper) = true := by decide
  simpa using List.all_eq_true.mp hall c (List.contains_iff_mem.mp h)

/-- A path whose lower case is a name is a name itself unless there is an upper-case letter. -/
theorem nameOk_iff {path : Str} (h : nameOk (lowerCase path) = true) :
    nameOk path = true ↔ hasUpper path = false := by
  rw [nameOk, lowerCase, List.all_map, List.all_eq_true] at h
  rw [nameOk, hasUpper, List.all_eq_true, List.any_eq_false]
  constructor
  · intro hok c hc
    exact Bool.not_eq_true _ ▸ not_isUpper (hok c hc)
  · intro hlow c hc
    have hsame := toLower_eq_self (Bool.not_eq_true _ ▸ hlow c hc)
    exact hsame ▸ h c hc

/-- **When exactly the matching nodes are applied**: there is no upper-case letter in the path
of a node that is the setting of a registered variable. -/
theorem appliesMatching_iff (emit : Yaml → Str) (root : Yaml) (registered : Set ConfigName) :
    AppliesMatching emit root registered ↔
      ∀ e ∈ nodesFrom [] root, ∀ name ∈ registered, lowerCase e.1 = name.1 →
        hasUpper e.1 = false := by
  constructor
  · -- a variable that counts what it receives would miss the node
    intro h e he name hname hsame
    rcases eq_or_ne e.1 [] with hempty | hempty
    · rw [hempty]
      rfl
    classical
    let datas : Registry Nat := fun name => if name ∈ registered then some 0 else none
    have hnames : ∀ name, (datas name).isSome = true ↔ name ∈ registered := by
      intro name
      simp only [datas]
      split <;> simp [*]
    have hload := h Nat (fun n _ => n + 1) datas hnames name
    have hvar : datas name = some 0 := if_pos hname
    rw [loadFromYaml_at, hvar, Option.map_some, Option.map_some, Option.some_inj, matching] at hload
    simp only [List.foldl_add_const, Nat.zero_add, Nat.one_mul, List.length_map,
      List.length_filter_eq_length_iff] at hload
    have hok := hload e (List.mem_filter.mpr ⟨he, by simp [Matches, hempty, hsame]⟩)
    exact (nameOk_iff (hsame ▸ name.2)).mp hok
  · intro hlow V fromString datas hnames name
    rw [loadFromYaml_at]
    cases hvar : datas name with
    | none => rfl
    | some var =>
      have hname : name ∈ registered := (hnames name).mp (by rw [hvar]; rfl)
      have hall : ((nodesFrom [] root).filter (Matches name)).filter (fun e => nameOk e.1) =
          (nodesFrom [] root).filter (Matches name) := by
        refine List.filter_eq_self.mpr fun e he => ?_
        obtain ⟨he, hmatch⟩ := List.mem_filter.mp he
        have hsame : lowerCase e.1 = name.1 := (of_decide_eq_true hmatch).2
        exact (nameOk_iff (hsame ▸ name.2)).mpr (hlow e he name hname hsame)
      rw [hall, matching, List.map_map]
      rfl

/-- The variable `a`, and a tree that sets it by the key `A`. -/
theorem upper_case_key_ignored : ¬ AppliesMatching (fun _ => [])
    (.map [(.scalar ['A'], .scalar ['1'])]) {name | name.1 = ['a']} := by
  intro h
  let datas : Registry Str := fun name => if name.1 = ['a'] then some ['0'] else none
  have hnames : ∀ name, (datas name).isSome = true ↔ name.1 = ['a'] := by
    intro name
    simp only [datas]
    split <;> simp [*]
  have hload := h Str (fun _ text => text) datas hnames ⟨['a'], rfl⟩
  have hvar : datas ⟨['a'], rfl⟩ = some ['0'] := if_pos rfl
  rw [loadFromYaml_at, hvar] at hload
  exact absurd hload (by decide +kernel)

end Sylar.Config
