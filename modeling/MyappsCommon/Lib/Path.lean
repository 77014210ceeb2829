import Mathlib.Data.List.Induction
import Mathlib.Tactic.Common

/-! # Separated paths

A path is split at its separators and followed component by component: an empty
component and `.` stay where they are, `..` goes to the parent and any other component
goes down.  What a path does to the place where it starts depends only on how many
parents it climbs and on the names it then goes down.
-/

namespace MyappsCommon.Lib.Path

/-- How paths are written: the separator and the components for the place itself and
for its parent. -/
structure Format (α : Type) where
  separator : α
  here : List α
  parent : List α

/-- A climb to a parent, `ups` times, and then down. -/
structure Climb (α : Type) where
  ups : Nat
  downs : List (List α)
  deriving DecidableEq, Repr

variable {α : Type} [DecidableEq α]

namespace Format

variable (format : Format α)

/-- One component, from a place given by the names that lead to it from the top. -/
def enter (place : List (List α)) (component : List α) : List (List α) :=
  if component = [] ∨ component = format.here then place
  -- the parent of the top is the top
  else if component = format.parent then place.dropLast
  else place ++ [component]

def components (path : List α) : List (List α) := path.splitOn format.separator

def follow (place : List (List α)) (path : List α) : List (List α) :=
  (format.components path).foldl format.enter place

/-- A path that begins with the separator starts at the top, any other in `cwd`. -/
def resolve (cwd : List (List α)) (path : List α) : List (List α) :=
  format.follow (if path.head? = some format.separator then [] else cwd) path

/-- A component that goes down. -/
structure IsName (name : List α) : Prop where
  nonempty : name ≠ []
  whole : format.separator ∉ name
  notHere : name ≠ format.here
  notParent : name ≠ format.parent

def climbStep (climb : Climb α) (component : List α) : Climb α :=
  if component = [] ∨ component = format.here then climb
  else if component = format.parent then
    match climb.downs with
    -- no name of this path is left to be taken back
    | [] => ⟨climb.ups + 1, []⟩
    | _ :: _ => ⟨climb.ups, climb.downs.dropLast⟩
  else ⟨climb.ups, climb.downs ++ [component]⟩

def climbOf (path : List α) : Climb α :=
  (format.components path).foldl format.climbStep ⟨0, []⟩

/-- Each component is looked up in a directory; behind a separator at the end there is none. -/
def Passable (isDir : List (List α) → Prop) : List (List α) → List (List α) → Prop
  | _, [] => True
  | place, component :: components =>
    (component ≠ [] → isDir place) ∧ Passable isDir (format.enter place component) components

/-- A path that can be followed as far as its last component. -/
def Walkable (isDir : List (List α) → Prop) (cwd : List (List α)) (path : List α) : Prop :=
  format.Passable isDir (if path.head? = some format.separator then [] else cwd)
    (format.components path)

instance decidablePassable (isDir : List (List α) → Prop) [DecidablePred isDir] :
    (place components : List (List α)) → Decidable (format.Passable isDir place components)
  | _, [] => isTrue trivial
  | place, component :: components =>
    have := decidablePassable isDir (format.enter place component) components
    inferInstanceAs (Decidable ((component ≠ [] → isDir place) ∧ _))

instance (isDir : List (List α) → Prop) [DecidablePred isDir] (cwd : List (List α))
    (path : List α) : Decidable (format.Walkable isDir cwd path) :=
  inferInstanceAs (Decidable (format.Passable ..))

/-- A path without `.` and `..`. -/
structure Plain (path : List α) : Prop where
  nonempty : path ≠ []
  notHere : format.here ∉ format.components path
  notParent : format.parent ∉ format.components path

instance (path : List α) : Decidable (format.Plain path) :=
  decidable_of_iff (path ≠ [] ∧ format.here ∉ format.components path ∧
    format.parent ∉ format.components path)
    ⟨fun ⟨nonempty, notHere, notParent⟩ => ⟨nonempty, notHere, notParent⟩,
      fun plain => ⟨plain.nonempty, plain.notHere, plain.notParent⟩⟩

end Format

/-- At the top there is no parent to climb to. -/
def Climb.apply (climb : Climb α) (place : List (List α)) : List (List α) :=
  place.take (place.length - climb.ups) ++ climb.downs

section

variable {format : Format α}

omit [DecidableEq α] in
theorem dropLast_take_sub (place : List (List α)) (ups : Nat) :
    (place.take (place.length - ups)).dropLast = place.take (place.length - (ups + 1)) := by
  rw [List.dropLast_eq_take, List.take_take, List.length_take]
  congr 1
  omega

theorem enter_apply (climb : Climb α) (place : List (List α)) (component : List α) :
    format.enter (climb.apply place) component =
      (format.climbStep climb component).apply place := by
  unfold Format.enter Format.climbStep
  by_cases stays : component = [] ∨ component = format.here
  · rw [if_pos stays, if_pos stays]
  rw [if_neg stays, if_neg stays]
  by_cases rises : component = format.parent
  · rw [if_pos rises, if_pos rises]
    obtain ⟨ups, downs⟩ := climb
    cases downs with
    | nil => simp only [Climb.apply, List.append_nil, dropLast_take_sub]
    | cons first downs =>
      exact List.dropLast_append_of_ne_nil (List.cons_ne_nil first downs)
  · rw [if_neg rises, if_neg rises, Climb.apply, Climb.apply, List.append_assoc]

theorem foldl_enter_apply (components : List (List α)) (climb : Climb α)
    (place : List (List α)) :
    components.foldl format.enter (climb.apply place) =
      (components.foldl format.climbStep climb).apply place := by
  induction components generalizing climb with
  | nil => rfl
  | cons component components ih =>
    rw [List.foldl_cons, List.foldl_cons, enter_apply, ih]

/-- Following a path is its climb. -/
theorem follow_eq_apply (place : List (List α)) (path : List α) :
    format.follow place path = (format.climbOf path).apply place := by
  have start : (⟨0, []⟩ : Climb α).apply place = place := by
    simp [Climb.apply]
  rw [Format.follow, Format.climbOf, ← foldl_enter_apply, start]

omit [DecidableEq α] in
/-- A climb stays below a place when it comes back down by the names it has climbed. -/
theorem prefix_apply_iff (climb : Climb α) (place : List (List α)) :
    place <+: climb.apply place ↔ place.drop (place.length - climb.ups) <+: climb.downs := by
  have parts := List.take_append_drop (place.length - climb.ups) place
  rw [Climb.apply]
  -- what the climb keeps of the place is a prefix of both sides
  conv_lhs => lhs; rw [← parts]
  exact List.prefix_append_right_inj _

theorem prefix_follow_iff (place : List (List α)) (path : List α) :
    place <+: format.follow place path ↔
      place.drop (place.length - (format.climbOf path).ups) <+: (format.climbOf path).downs := by
  rw [follow_eq_apply, prefix_apply_iff]

/-! ## Paths put together -/

theorem follow_append (place : List (List α)) (first second : List α) :
    format.follow place (first ++ format.separator :: second) =
      format.follow (format.follow place first) second := by
  rw [Format.follow, Format.components, List.splitOn_append_cons_self, List.foldl_append]
  rfl

theorem follow_nil (place : List (List α)) : format.follow place [] = place := by
  simp [Format.follow, Format.components, Format.enter]

/-- Behind a separator a path is followed from where the first part leads. -/
theorem resolve_append (cwd : List (List α)) (first second : List α) :
    format.resolve cwd (first ++ format.separator :: second) =
      format.follow (format.resolve cwd (first ++ [format.separator])) second := by
  have heads : (first ++ format.separator :: second).head? =
      (first ++ [format.separator]).head? := by
    cases first <;> rfl
  rw [Format.resolve, heads, follow_append, Format.resolve, follow_append, follow_nil]

theorem follow_name {name : List α} (isName : format.IsName name) (place : List (List α)) :
    format.follow place name = place ++ [name] := by
  have stays : ¬ (name = [] ∨ name = format.here) := by
    rintro (empty | here)
    · exact isName.nonempty empty
    · exact isName.notHere here
  rw [Format.follow, Format.components, List.splitOn_eq_singleton isName.whole,
    List.foldl_cons, List.foldl_nil, Format.enter, if_neg stays, if_neg isName.notParent]

/-! ## Paths that grow -/

/-- Behind `within`, a path goes on from `place`; `arrive` is where a whole path ends. -/
def LeadsTo (format : Format α) (arrive : List α → List (List α)) (within : List α)
    (place : List (List α)) : Prop :=
  ∀ tail, arrive (within ++ tail) = format.follow place tail

theorem LeadsTo.name {arrive : List α → List (List α)} {within : List α} {place : List (List α)}
    (leads : LeadsTo format arrive within place) {name : List α} (isName : format.IsName name) :
    arrive (within ++ name) = place ++ [name] := by
  rw [leads, follow_name isName]

/-- The way into a directory. -/
theorem LeadsTo.down {arrive : List α → List (List α)} {within : List α} {place : List (List α)}
    (leads : LeadsTo format arrive within place) {name : List α} (isName : format.IsName name) :
    LeadsTo format arrive (within ++ name ++ [format.separator]) (place ++ [name]) := by
  intro tail
  have parts : within ++ name ++ [format.separator] ++ tail =
      within ++ (name ++ format.separator :: tail) := by simp
  rw [parts, leads, follow_append, follow_name isName]

theorem LeadsTo.dir {arrive : List α → List (List α)} {within : List α} {place : List (List α)}
    (leads : LeadsTo format arrive within place) {name : List α} (isName : format.IsName name) :
    arrive (within ++ name ++ [format.separator]) = place ++ [name] := by
  have inside := leads.down isName []
  rwa [List.append_nil, follow_nil] at inside

/-! ## Paths that can be followed -/

variable {isDir isDir' : List (List α) → Prop}

theorem Format.Passable.mono (more : ∀ place, isDir place → isDir' place)
    {components : List (List α)} {place : List (List α)}
    (passable : format.Passable isDir place components) :
    format.Passable isDir' place components := by
  induction components generalizing place with
  | nil => trivial
  | cons component components ih =>
    exact ⟨fun nonempty => more place (passable.1 nonempty), ih passable.2⟩

theorem passable_append_iff {first second : List (List α)} {place : List (List α)} :
    format.Passable isDir place (first ++ second) ↔
      format.Passable isDir place first ∧
        format.Passable isDir (first.foldl format.enter place) second := by
  induction first generalizing place with
  | nil => exact (and_iff_right trivial).symm
  | cons component first ih =>
    rw [List.cons_append, Format.Passable, Format.Passable, ih, List.foldl_cons, and_assoc]

/-- Behind a separator a path goes on from where the first part leads. -/
theorem walkable_append_iff {cwd : List (List α)} {first second : List α} :
    format.Walkable isDir cwd (first ++ format.separator :: second) ↔
      format.Walkable isDir cwd (first ++ [format.separator]) ∧
        format.Passable isDir (format.resolve cwd (first ++ [format.separator]))
          (format.components second) := by
  have heads : (first ++ format.separator :: second).head? =
      (first ++ [format.separator]).head? := by
    cases first <;> rfl
  have ends : format.Passable isDir (format.follow (if (first ++ [format.separator]).head? =
      some format.separator then [] else cwd) first) (format.components []) := by
    simp [Format.components, Format.Passable]
  rw [Format.Walkable, Format.Walkable, Format.resolve, heads, Format.components,
    Format.components, List.splitOn_append_cons_self, List.splitOn_append_cons_self,
    passable_append_iff, passable_append_iff, follow_append, follow_nil]
  exact and_congr_left fun _ => (and_iff_left ends).symm

/-- Without `.` and `..` a path goes down by its components. -/
theorem foldl_enter_plain {components : List (List α)} (notHere : format.here ∉ components)
    (notParent : format.parent ∉ components) (place : List (List α)) :
    components.foldl format.enter place = place ++ components.filter (· ≠ []) := by
  induction components generalizing place with
  | nil => exact (List.append_nil place).symm
  | cons component components ih =>
    rw [List.mem_cons, not_or] at notHere notParent
    rw [List.foldl_cons, ih notHere.2 notParent.2, Format.enter]
    by_cases empty : component = []
    · simp [empty]
    · simp [empty, Ne.symm notHere.1, Ne.symm notParent.1]

omit [DecidableEq α] in
/-- What lies above a directory are directories. -/
theorem isDir_of_append (above : ∀ place name, isDir (place ++ [name]) → isDir place)
    {place : List (List α)} (below : List (List α)) (there : isDir (place ++ below)) :
    isDir place := by
  induction below using List.reverseRecOn with
  | nil => rwa [List.append_nil] at there
  | append_singleton below name ih =>
    rw [← List.append_assoc] at there
    exact ih (above _ name there)

/-- A plain path can be followed when the place that it leads to is in a directory. -/
theorem passable_plain (above : ∀ place name, isDir (place ++ [name]) → isDir place)
    {components : List (List α)} (notHere : format.here ∉ components)
    (notParent : format.parent ∉ components) {place : List (List α)}
    (parent : isDir (components.foldl format.enter place).dropLast) :
    format.Passable isDir place components := by
  induction components generalizing place with
  | nil => trivial
  | cons component components ih =>
    refine ⟨fun nonempty => ?_, ih (List.not_mem_of_not_mem_cons notHere)
      (List.not_mem_of_not_mem_cons notParent) parent⟩
    rw [foldl_enter_plain notHere notParent, List.filter_cons_of_pos (by simpa using nonempty),
      List.dropLast_append_of_ne_nil (List.cons_ne_nil _ _)] at parent
    exact isDir_of_append above _ parent

end

end MyappsCommon.Lib.Path
