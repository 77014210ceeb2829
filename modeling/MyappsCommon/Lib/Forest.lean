import Mathlib.Tactic.Common

/-! # Directory contents and the files they make up

`Forest` is the content of a directory in some listing order.  `Files` is a file
system as a map from places.  Creating the nodes of a forest in the order of its walk
puts every parent before its children, so that non-recursive creation succeeds at each
of them and leaves the forest in the file system.
-/

namespace MyappsCommon.Lib

inductive Node (α : Type) where
  | dir
  | file (content : α)
  deriving DecidableEq, Repr

/-- The entries of a directory, in listing order. -/
inductive Forest (ι α : Type) where
  | nil
  | file (name : ι) (content : α) (rest : Forest ι α)
  | dir (name : ι) (inside rest : Forest ι α)
  deriving DecidableEq, Repr

variable {ι α : Type}

namespace Forest

/-- The names listed at the top. -/
def names : Forest ι α → List ι
  | nil => []
  | file name _ rest => name :: rest.names
  | dir name _ rest => name :: rest.names

/-- What stands at a place below the directory. -/
def lookup [DecidableEq ι] : Forest ι α → List ι → Option (Node α)
  | nil, _ => none
  | file _ _ _, [] => none
  | dir _ _ _, [] => none
  | file name content rest, first :: below =>
    if first = name then
      if below = [] then some (.file content) else none
    else rest.lookup (first :: below)
  | dir name inside rest, first :: below =>
    if first = name then
      if below = [] then some .dir else inside.lookup below
    else rest.lookup (first :: below)

/-- Names are distinct inside each directory. -/
def Distinct : Forest ι α → Prop
  | nil => True
  | file name _ rest => name ∉ rest.names ∧ rest.Distinct
  | dir name inside rest => name ∉ rest.names ∧ inside.Distinct ∧ rest.Distinct

/-- Every name, at any depth, satisfies `P`. -/
def AllNames (P : ι → Prop) : Forest ι α → Prop
  | nil => True
  | file name _ rest => P name ∧ rest.AllNames P
  | dir name inside rest => P name ∧ inside.AllNames P ∧ rest.AllNames P

/-- Every directory is met before what it contains. -/
def walk (base : List ι) : Forest ι α → List (List ι × Node α)
  | nil => []
  | file name content rest => (base ++ [name], .file content) :: rest.walk base
  | dir name inside rest =>
    (base ++ [name], .dir) :: (inside.walk (base ++ [name]) ++ rest.walk base)

/-- The file contents, in the order of the walk. -/
def contents : Forest ι α → List α
  | nil => []
  | file _ content rest => content :: rest.contents
  | dir _ inside rest => inside.contents ++ rest.contents

/-- How many directories are nested. -/
def depth : Forest ι α → Nat
  | nil => 0
  | file _ _ rest => rest.depth
  | dir _ inside rest => max (inside.depth + 1) rest.depth

end Forest

/-- A file system: what stands at each place, given by the names that lead to it. -/
abbrev Files (ι α : Type) := List ι → Option (Node α)

variable [DecidableEq ι]

namespace Files

def put (files : Files ι α) (place : List ι) (node : Node α) : Files ι α :=
  fun other => if other = place then some node else files other

/-- Non-recursive creation: the parent has to be a directory, and nothing may stand at
the place itself. -/
def create (files : Files ι α) (place : List ι) (node : Node α) : Option (Files ι α) :=
  match files place, files place.dropLast with
  | none, some .dir => some (files.put place node)
  | _, _ => none

/-- The file system with the entries of the forest in the directory at `base`. -/
def graft (base : List ι) (forest : Forest ι α) (files : Files ι α) : Files ι α :=
  fun place =>
    if base <+: place then (forest.lookup (place.drop base.length)).or (files place)
    else files place

/-- Nothing stands where the forest is to be put. -/
def Vacant (files : Files ι α) (base : List ι) (forest : Forest ι α) : Prop :=
  ∀ name ∈ forest.names, ∀ below, files (base ++ name :: below) = none

@[simp] theorem put_self (files : Files ι α) (place : List ι) (node : Node α) :
    files.put place node place = some node := if_pos rfl

theorem put_of_ne {files : Files ι α} {place other : List ι} {node : Node α}
    (different : other ≠ place) : files.put place node other = files other := if_neg different

omit [DecidableEq ι] in
theorem Vacant.at_name {files : Files ι α} {base : List ι} {forest : Forest ι α}
    (vacant : Vacant files base forest) {name : ι} (listed : name ∈ forest.names) :
    files (base ++ [name]) = none := vacant name listed []

theorem create_in {files : Files ι α} {base : List ι} {name : ι}
    (free : files (base ++ [name]) = none) (parent : files base = some .dir) (node : Node α) :
    files.create (base ++ [name]) node = some (files.put (base ++ [name]) node) := by
  rw [create, free, List.dropLast_concat, parent]

theorem create_eq_some_iff {files final : Files ι α} {place : List ι} {node : Node α} :
    files.create place node = some final ↔
      files place = none ∧ files place.dropLast = some .dir ∧ final = files.put place node := by
  rw [create]
  cases stands : files place with
  | some other => simp
  | none =>
    cases parent : files place.dropLast with
    | none => simp
    | some other =>
      cases other with
      | dir => simp [eq_comm]
      | file content => simp

theorem put_put (files : Files ι α) (place : List ι) (first second : Node α) :
    (files.put place first).put place second = files.put place second := by
  funext other
  by_cases same : other = place
  · rw [same, put_self, put_self]
  · rw [put_of_ne same, put_of_ne same, put_of_ne same]

@[simp] theorem graft_below (base below : List ι) (forest : Forest ι α) (files : Files ι α) :
    files.graft base forest (base ++ below) = (forest.lookup below).or (files (base ++ below)) := by
  rw [graft, if_pos (List.prefix_append base below), List.drop_left]

theorem graft_outside {base place : List ι} {files : Files ι α} (outside : ¬ base <+: place)
    (forest : Forest ι α) : files.graft base forest place = files place := if_neg outside

end Files

theorem Forest.lookup_nil_path (forest : Forest ι α) : forest.lookup [] = none := by
  cases forest <;> rfl

/-- A name that is not listed leads nowhere. -/
theorem Forest.lookup_of_not_listed {forest : Forest ι α} {name : ι}
    (unlisted : name ∉ forest.names) (below : List ι) : forest.lookup (name :: below) = none := by
  induction forest with
  | nil => rfl
  | file other content rest ih | dir other inside rest _ ih =>
    rw [names, List.mem_cons, not_or] at unlisted
    rw [lookup, if_neg unlisted.1, ih unlisted.2]

namespace Files

theorem graft_nil (base : List ι) (files : Files ι α) : files.graft base .nil = files := by
  funext place
  rw [graft]
  split
  · rfl
  · rfl

/-- Two maps that agree outside `base` and below it are equal. -/
theorem ext_below (base : List ι) {first second : Files ι α}
    (outside : ∀ place, ¬ base <+: place → first place = second place)
    (below : ∀ path, first (base ++ path) = second (base ++ path)) : first = second := by
  funext place
  by_cases inside : base <+: place
  · obtain ⟨path, rfl⟩ := inside
    exact below path
  · exact outside place inside

omit [DecidableEq ι] in
theorem not_append_isPrefix {base place : List ι} (outside : ¬ base <+: place) (more : List ι) :
    ¬ base ++ more <+: place :=
  fun longer => outside ((List.prefix_append base more).trans longer)

/-- A file first, then the rest of the directory. -/
theorem graft_file {base : List ι} {name : ι} {content : α} {rest : Forest ι α}
    (unlisted : name ∉ rest.names) (files : Files ι α) :
    files.graft base (.file name content rest) =
      (files.put (base ++ [name]) (.file content)).graft base rest := by
  apply ext_below base
  · intro place outside
    have different : place ≠ base ++ [name] := fun same =>
      outside (same ▸ List.prefix_append base [name])
    rw [graft_outside outside, graft_outside outside, put_of_ne different]
  · intro path
    rw [graft_below, graft_below]
    match path with
    | [] =>
      rw [Forest.lookup_nil_path, Forest.lookup_nil_path, put_of_ne (by simp)]
    | first :: below =>
      rw [Forest.lookup]
      by_cases same : first = name
      · subst same
        rw [if_pos rfl, Forest.lookup_of_not_listed unlisted]
        by_cases whole : below = []
        · subst whole
          simp
        · rw [if_neg whole, put_of_ne (by simp [whole])]
      · rw [if_neg same, put_of_ne (by simp [same])]

/-- A directory first, then what it contains, then the rest. -/
theorem graft_dir {base : List ι} {name : ι} {inside rest : Forest ι α}
    (unlisted : name ∉ rest.names) (files : Files ι α) :
    files.graft base (.dir name inside rest) =
      ((files.put (base ++ [name]) .dir).graft (base ++ [name]) inside).graft base rest := by
  apply ext_below base
  · intro place outside
    have different : place ≠ base ++ [name] := fun same =>
      outside (same ▸ List.prefix_append base [name])
    rw [graft_outside outside, graft_outside outside,
      graft_outside (not_append_isPrefix outside [name]), put_of_ne different]
  · intro path
    rw [graft_below, graft_below]
    match path with
    | [] =>
      have above : ¬ base ++ [name] <+: base ++ [] := by
        rw [List.prefix_append_right_inj]
        simp
      rw [Forest.lookup_nil_path, Forest.lookup_nil_path, graft_outside above,
        put_of_ne (by simp)]
    | first :: below =>
      rw [Forest.lookup]
      -- the new directory and what is in it, or what is listed beside it
      by_cases same : first = name
      · subst same
        have split : base ++ first :: below = (base ++ [first]) ++ below := by simp
        rw [if_pos rfl, Forest.lookup_of_not_listed unlisted, split, graft_below]
        by_cases whole : below = []
        · subst whole
          simp [Forest.lookup_nil_path]
        · rw [if_neg whole, put_of_ne (by simp [whole])]
          rfl
      · have beside : ¬ base ++ [name] <+: base ++ first :: below := by
          rw [List.prefix_append_right_inj]
          simp [Ne.symm same]
        rw [if_neg same, graft_outside beside, put_of_ne (by simp [same])]

/-- A node that is put beside the rest of a directory leaves the rest vacant. -/
theorem Vacant.put_beside {files : Files ι α} {base : List ι} {name : ι} {rest : Forest ι α}
    (unlisted : name ∉ rest.names)
    (vacant : ∀ other ∈ rest.names, ∀ below, files (base ++ other :: below) = none)
    (node : Node α) : Vacant (files.put (base ++ [name]) node) base rest := by
  intro other listed below
  have different : other ≠ name := fun same => unlisted (same ▸ listed)
  rw [put_of_ne (by simp [different])]
  exact vacant other listed below

/-- So does a whole forest that is put into a directory beside it. -/
theorem Vacant.graft_beside {files : Files ι α} {base : List ι} {name : ι} {rest : Forest ι α}
    (unlisted : name ∉ rest.names) (vacant : Vacant files base rest) (inside : Forest ι α) :
    Vacant (files.graft (base ++ [name]) inside) base rest := by
  intro other listed below
  have different : name ≠ other := fun same => unlisted (same ▸ listed)
  have beside : ¬ base ++ [name] <+: base ++ other :: below := by
    rw [List.prefix_append_right_inj]
    simp [different]
  rw [graft_outside beside]
  exact vacant other listed below

/-- Creating what the walk meets, in its order, succeeds and builds the forest. -/
theorem foldlM_create_walk {forest : Forest ι α} (distinct : forest.Distinct) {base : List ι}
    {files : Files ι α} (parent : files base = some .dir) (vacant : Vacant files base forest) :
    (forest.walk base).foldlM (fun files item => create files item.1 item.2) files =
      some (files.graft base forest) := by
  induction forest generalizing base files with
  | nil => rw [graft_nil]; rfl
  | file name content rest ih =>
    obtain ⟨unlisted, distinct⟩ := distinct
    have free : files (base ++ [name]) = none := vacant.at_name List.mem_cons_self
    have vacantRest := Vacant.put_beside unlisted
      (fun other listed => vacant other (List.mem_cons_of_mem _ listed)) (.file content)
    have parentLeft : files.put (base ++ [name]) (.file content) base = some .dir := by
      rw [put_of_ne (by simp), parent]
    rw [Forest.walk, List.foldlM_cons, create_in free parent, graft_file unlisted]
    exact ih distinct parentLeft vacantRest
  | dir name inside rest ihInside ihRest =>
    obtain ⟨unlisted, distinctInside, distinctRest⟩ := distinct
    have free : files (base ++ [name]) = none := vacant.at_name List.mem_cons_self
    have vacantRest := Vacant.put_beside unlisted
      (fun other listed => vacant other (List.mem_cons_of_mem _ listed)) .dir
    -- nothing stood below the new directory
    have vacantInside : Vacant (files.put (base ++ [name]) .dir) (base ++ [name]) inside := by
      intro other _ below
      rw [put_of_ne (by simp), List.append_assoc]
      exact vacant name List.mem_cons_self (other :: below)
    -- what is put into the new directory does not change its parent
    have above : ¬ base ++ [name] <+: base := by
      intro longer
      have lengths := longer.length_le
      rw [List.length_append, List.length_singleton] at lengths
      omega
    have parentLeft : ((files.put (base ++ [name]) .dir).graft (base ++ [name]) inside) base =
        some .dir := by
      rw [graft_outside above, put_of_ne (by simp), parent]
    have builtInside := ihInside distinctInside (put_self _ _ _) vacantInside
    rw [Forest.walk, List.foldlM_cons, create_in free parent, graft_dir unlisted]
    change List.foldlM _ _ (_ ++ _) = _
    rw [List.foldlM_append, builtInside]
    exact ihRest distinctRest parentLeft (Vacant.graft_beside unlisted vacantRest inside)

end Files

end MyappsCommon.Lib
