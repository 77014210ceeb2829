import Mathlib.Data.Set.Insert
import MyappsCommon.Utility.AppItemEntry

/-! # Entries by name

States and flags are spoken of by their names, whose spelling may differ in the case of the
letters.  An entry that is changed under names shows the same names afterwards.
-/

namespace MyappsCommon.Utility

open MyappsCommon.Lib

def appItemTypeBuild : List UInt8 := literal "Build"
def appItemTypeMedia : List UInt8 := literal "Media"

def appItemTypeName (itemType : AppItemTypeE) : List UInt8 :=
  if itemType = .build then appItemTypeBuild
  else if itemType = .media then appItemTypeMedia
  else []

def appItemFlagName : AppItemFlagE → List UInt8
  | .reviewAccepted => literal "ReviewAccepted"
  | .reviewRejected => literal "ReviewRejected"
  | .invalid => []

/-- The flags that `app_item_flag` tries, in this order. -/
def namedFlags : List AppItemFlagE := [.reviewAccepted, .reviewRejected]

def appItemFlag (casecmp : List UInt8 → List UInt8 → Int) (name : List UInt8) : AppItemFlagE :=
  (namedFlags.find? fun flag => casecmp name (appItemFlagName flag) == 0).getD .invalid

/-- A C string in small letters. -/
def lowered (text : List UInt8) : List UInt8 := (cStr text).map toLower

def flagLabel (flag : AppItemFlagE) : List UInt8 := (appItemFlagName flag).map toLower

/-! ## Recognition -/

theorem mem_namedFlags_iff (flag : AppItemFlagE) : flag ∈ namedFlags ↔ flag ≠ .invalid := by
  cases flag <;> decide

theorem flagName_noZero : ∀ flag ∈ namedFlags, 0 ∉ appItemFlagName flag := by decide

theorem flagLabel_injective {first second : AppItemFlagE}
    (same : flagLabel first = flagLabel second) : first = second := by
  revert same
  cases first <;> cases second <;> decide

section IgnoresCase

variable {casecmp : List UInt8 → List UInt8 → Int} (ignoresCase : IgnoresCase casecmp)
include ignoresCase

theorem casecmp_flagName_iff (text : List UInt8) {flag : AppItemFlagE}
    (named : flag ∈ namedFlags) :
    (casecmp (cStr text) (appItemFlagName flag) == 0) = true ↔ lowered text = flagLabel flag := by
  rw [beq_iff_eq, ignoresCase _ _ (zero_notMem_cStr text) (flagName_noZero flag named)]
  rfl

/-- A named flag is found exactly by the spellings of its name. -/
theorem appItemFlag_eq_iff (text : List UInt8) {flag : AppItemFlagE} (named : flag ≠ .invalid) :
    appItemFlag casecmp (cStr text) = flag ↔ lowered text = flagLabel flag := by
  have listed := (mem_namedFlags_iff flag).mpr named
  have found : namedFlags.find? (fun flag => casecmp (cStr text) (appItemFlagName flag) == 0) =
      some flag ↔ lowered text = flagLabel flag := by
    rw [find?_eq_some_iff_of_unique, casecmp_flagName_iff ignoresCase text listed,
      and_iff_right listed]
    intro first firstListed second secondListed firstEqual secondEqual
    rw [casecmp_flagName_iff ignoresCase text firstListed] at firstEqual
    rw [casecmp_flagName_iff ignoresCase text secondListed] at secondEqual
    exact flagLabel_injective (firstEqual.symm.trans secondEqual)
  rw [← found, appItemFlag]
  cases namedFlags.find? fun flag => casecmp (cStr text) (appItemFlagName flag) == 0 with
  | some other => simp
  | none => simp [named.symm]

end IgnoresCase

/-! ## Calls by name -/

/-- A call with what was looked up of a text. -/
inductive NameCall where
  | state (text : List UInt8)
  | setFlag (text : List UInt8)
  | resetFlag (text : List UInt8)

/-- What an entry shows: the names of its state and type, and the flags that are set. -/
@[ext] structure Labels where
  state : List UInt8
  type : List UInt8
  flags : Set (List UInt8)

namespace NameCall

def onEntry (casecmp : List UInt8 → List UInt8 → Int) (entry : AppItemEntry) :
    NameCall → Option AppItemEntry
  | .state text => some (entry.setState (appItemStateFromName casecmp (cStr text)))
  | .setFlag text => entry.setFlag (appItemFlag casecmp (cStr text))
  | .resetFlag text => entry.resetFlag (appItemFlag casecmp (cStr text))

/-- The texts alone: an unknown state has no name. -/
def onLabels (labels : Labels) : NameCall → Labels
  | .state text =>
    { labels with
      state := if (namedStates.map appItemStateName).contains (lowered text) then lowered text
        else [] }
  | .setFlag text => { labels with flags := insert (lowered text) labels.flags }
  | .resetFlag text => { labels with flags := labels.flags \ {lowered text} }

/-- The text of a flag has to be the name of one. -/
def Known : NameCall → Prop
  | .state _ => True
  | .setFlag text => lowered text ∈ namedFlags.map flagLabel
  | .resetFlag text => lowered text ∈ namedFlags.map flagLabel

end NameCall

/-- The names under which an entry's state and flags are known. -/
def AppItemEntry.labels (this : AppItemEntry) : Labels where
  state := appItemStateName this.state
  type := appItemTypeName this.type
  flags := {label | ∃ flag ≠ .invalid, this.isFlagSet flag = some true ∧ label = flagLabel flag}

/-- The calls of a sequence, one after the other. -/
def AppItemEntry.afterNames (casecmp : List UInt8 → List UInt8 → Int) (this : AppItemEntry)
    (calls : List NameCall) : Option AppItemEntry :=
  calls.foldlM (NameCall.onEntry casecmp) this

/-! ## One call -/

namespace AppItemEntry

theorem setState_parts (this : AppItemEntry) (given : AppItemStateE) :
    (this.setState given).state = given ∧ (this.setState given).type = this.type ∧
      (this.setState given).flags = this.flags := by
  refine ⟨?_, ?_, ?_⟩
  · rw [state, setState, assign, BitField.get_set_self, BitVec.setWidth_eq]
  · rw [type, type, setState, assign, BitField.get_set_of_disjoint state_type_disjoint.symm]
  · rw [flags, flags, setState, assign, BitField.get_set_of_disjoint state_flags_disjoint.symm]

theorem setFlags_parts (this : AppItemEntry) (given : UInt64) :
    (this.setFlags given).state = this.state ∧ (this.setFlags given).type = this.type := by
  constructor
  · rw [state, state, setFlags, assign, BitField.get_set_of_disjoint state_flags_disjoint]
  · rw [type, type, setFlags, assign, BitField.get_set_of_disjoint type_flags_disjoint]

/-- One flag has this value, and the others are as they were. -/
theorem isFlagSet_of_parts {this after : AppItemEntry} {flag other : AppItemFlagE} {value : Bool}
    {named : flag ≠ .invalid}
    (parts : after.parts = { this.parts with
      flag := fun i => if i = flag.place named then value else this.parts.flag i })
    (otherNamed : other ≠ .invalid) :
    after.isFlagSet other = if other = flag then some value else this.isFlagSet other := by
  rw [isFlagSet_named this otherNamed, isFlagSet_named after otherNamed, parts]
  by_cases same : other = flag
  · simp [same]
  · simp [same, place_eq_iff otherNamed named]

theorem setFlag_named (this : AppItemEntry) {flag : AppItemFlagE} (named : flag ≠ .invalid) :
    ∃ given, this.setFlag flag = some (this.setFlags given) ∧
      ∀ other ≠ .invalid, (this.setFlags given).isFlagSet other =
        if other = flag then some true else this.isFlagSet other := by
  obtain ⟨bit, defined, -⟩ := bit_named named
  have called : this.setFlag flag = some (this.setFlags (this.flags ||| bit)) := by
    rw [setFlag, defined, Option.map_some]
  obtain ⟨after, ran, parts⟩ := parts_onEntry this (.setFlag flag named)
  obtain rfl : this.setFlags (this.flags ||| bit) = after :=
    Option.some.inj (called.symm.trans ran)
  exact ⟨_, called, fun other => isFlagSet_of_parts parts⟩

theorem resetFlag_named (this : AppItemEntry) {flag : AppItemFlagE} (named : flag ≠ .invalid) :
    ∃ given, this.resetFlag flag = some (this.setFlags given) ∧
      ∀ other ≠ .invalid, (this.setFlags given).isFlagSet other =
        if other = flag then some false else this.isFlagSet other := by
  obtain ⟨bit, defined, -⟩ := bit_named named
  have called : this.resetFlag flag = some (this.setFlags (this.flags &&& ~~~bit)) := by
    rw [resetFlag, defined, Option.map_some]
  obtain ⟨after, ran, parts⟩ := parts_onEntry this (.resetFlag flag named)
  obtain rfl : this.setFlags (this.flags &&& ~~~bit) = after :=
    Option.some.inj (called.symm.trans ran)
  exact ⟨_, called, fun other => isFlagSet_of_parts parts⟩

theorem labels_insert {this after : AppItemEntry} {flag : AppItemFlagE} (named : flag ≠ .invalid)
    (tests : ∀ other ≠ .invalid, after.isFlagSet other =
      if other = flag then some true else this.isFlagSet other) :
    after.labels.flags = insert (flagLabel flag) this.labels.flags := by
  ext label
  constructor
  · rintro ⟨other, otherNamed, isSet, rfl⟩
    rw [tests other otherNamed] at isSet
    split at isSet
    case isTrue same => exact .inl (congrArg flagLabel same)
    case isFalse => exact .inr ⟨other, otherNamed, isSet, rfl⟩
  · rintro (rfl | ⟨other, otherNamed, isSet, rfl⟩)
    · exact ⟨flag, named, by rw [tests flag named, if_pos rfl], rfl⟩
    · refine ⟨other, otherNamed, ?_, rfl⟩
      rw [tests other otherNamed, isSet, ite_self]

theorem labels_diff {this after : AppItemEntry} {flag : AppItemFlagE}
    (tests : ∀ other ≠ .invalid, after.isFlagSet other =
      if other = flag then some false else this.isFlagSet other) :
    after.labels.flags = this.labels.flags \ {flagLabel flag} := by
  ext label
  constructor
  · rintro ⟨other, otherNamed, isSet, rfl⟩
    rw [tests other otherNamed] at isSet
    split at isSet
    case isTrue => cases isSet
    case isFalse apart =>
      exact ⟨⟨other, otherNamed, isSet, rfl⟩, fun same => apart (flagLabel_injective same)⟩
  · rintro ⟨⟨other, otherNamed, isSet, rfl⟩, apart⟩
    refine ⟨other, otherNamed, ?_, rfl⟩
    rw [tests other otherNamed, if_neg fun same => apart (congrArg flagLabel same), isSet]

end AppItemEntry

/-! ## All calls -/

/-- What a call leaves under the names, and what it does not touch. -/
structure Relabelled (entry after : AppItemEntry) (labels : Labels) : Prop where
  labels : after.labels = labels
  type : after.type = entry.type
  name_ : after.name_ = entry.name_

section IgnoresCase

variable {casecmp : List UInt8 → List UInt8 → Int} (ignoresCase : IgnoresCase casecmp)
include ignoresCase

/-- The name of the state that is found of a text. -/
theorem stateName_fromName (text : List UInt8) :
    appItemStateName (appItemStateFromName casecmp (cStr text)) =
      if (namedStates.map appItemStateName).contains (lowered text) then lowered text
      else [] := by
  simp only [List.contains_iff_mem]
  split
  case isTrue spelled =>
    obtain ⟨state, named, spelled⟩ := List.mem_map.mp spelled
    rw [(stateFromName_eq_iff ignoresCase text named).mpr spelled.symm, spelled]
  case isFalse unknown =>
    rw [lowered, ← stateFromName_mem_iff ignoresCase text fun _ named => named,
      appItemStateFromName] at unknown
    rw [appItemStateFromName]
    cases found : namedStates.find? fun state =>
        casecmp (cStr text) (appItemStateName state) == 0 with
    | some state =>
      rw [found] at unknown
      exact absurd (List.mem_of_find?_eq_some found) unknown
    | none => decide

/-- A text of a flag is known when a flag is found of it. -/
theorem known_iff (text : List UInt8) :
    lowered text ∈ namedFlags.map flagLabel ↔ appItemFlag casecmp (cStr text) ≠ .invalid := by
  rw [List.mem_map]
  constructor
  · rintro ⟨flag, listed, spelled⟩
    have named := (mem_namedFlags_iff flag).mp listed
    rwa [(appItemFlag_eq_iff ignoresCase text named).mpr spelled.symm]
  · intro named
    exact ⟨_, (mem_namedFlags_iff _).mpr named,
      ((appItemFlag_eq_iff ignoresCase text named).mp rfl).symm⟩

/-- A call by name is defined when its text is known, and then it does to the names what it
says. -/
theorem NameCall.onEntry_known (entry : AppItemEntry) {call : NameCall} (known : call.Known) :
    ∃ after, call.onEntry casecmp entry = some after ∧
      Relabelled entry after (call.onLabels entry.labels) := by
  cases call with
  | state text =>
    obtain ⟨state, type, flags⟩ :=
      entry.setState_parts (appItemStateFromName casecmp (cStr text))
    refine ⟨_, rfl, Labels.ext ?_ (congrArg appItemTypeName type) ?_, type, rfl⟩
    · rw [AppItemEntry.labels, state]
      exact stateName_fromName ignoresCase text
    · simp only [AppItemEntry.labels, AppItemEntry.isFlagSet, flags]
      rfl
  | setFlag text =>
    have named := (known_iff ignoresCase text).mp known
    have spelled := (appItemFlag_eq_iff ignoresCase text named).mp rfl
    obtain ⟨given, called, tests⟩ := entry.setFlag_named named
    obtain ⟨state, type⟩ := entry.setFlags_parts given
    refine ⟨_, called, Labels.ext (congrArg appItemStateName state)
      (congrArg appItemTypeName type) ?_, type, rfl⟩
    rw [onLabels, spelled]
    exact AppItemEntry.labels_insert named tests
  | resetFlag text =>
    have named := (known_iff ignoresCase text).mp known
    have spelled := (appItemFlag_eq_iff ignoresCase text named).mp rfl
    obtain ⟨given, called, tests⟩ := entry.resetFlag_named named
    obtain ⟨state, type⟩ := entry.setFlags_parts given
    refine ⟨_, called, Labels.ext (congrArg appItemStateName state)
      (congrArg appItemTypeName type) ?_, type, rfl⟩
    rw [onLabels, spelled]
    exact AppItemEntry.labels_diff tests

/-- Without a flag of that name the call is undefined. -/
theorem NameCall.onEntry_unknown (entry : AppItemEntry) {call : NameCall} (unknown : ¬ call.Known) :
    call.onEntry casecmp entry = none := by
  cases call with
  | state text => exact absurd trivial unknown
  | setFlag text =>
    have invalid := not_not.mp (mt (known_iff ignoresCase text).mpr unknown)
    rw [onEntry, invalid]
    rfl
  | resetFlag text =>
    have invalid := not_not.mp (mt (known_iff ignoresCase text).mpr unknown)
    rw [onEntry, invalid]
    rfl

/-- Calls by name on any entry are defined exactly when every text of a flag is the name of one,
in any case of its letters.  Then the entry shows the names that the same calls make of the
names it showed; its type and its own name are those it had. -/
theorem entry_shows_names (initial : AppItemEntry) (calls : List NameCall) :
    ((initial.afterNames casecmp calls).isSome ↔ ∀ call ∈ calls, call.Known) ∧
      ∀ entry, initial.afterNames casecmp calls = some entry →
        Relabelled initial entry (calls.foldl NameCall.onLabels initial.labels) := by
  induction calls generalizing initial with
  | nil =>
    refine ⟨iff_of_true rfl (List.forall_mem_nil _), ?_⟩
    rintro entry ⟨⟩
    exact ⟨rfl, rfl, rfl⟩
  | cons call calls ih =>
    by_cases known : call.Known
    · obtain ⟨between, called, first⟩ := NameCall.onEntry_known ignoresCase initial known
      have rest : initial.afterNames casecmp (call :: calls) =
          between.afterNames casecmp calls := by
        rw [AppItemEntry.afterNames, List.foldlM_cons, called]
        rfl
      obtain ⟨defined, shows⟩ := ih between
      rw [rest, List.forall_mem_cons, and_iff_right known]
      refine ⟨defined, fun entry ran => ?_⟩
      obtain ⟨labels, type, name_⟩ := shows entry ran
      rw [first.labels] at labels
      exact ⟨labels, type.trans first.type, name_.trans first.name_⟩
    · have stops : initial.afterNames casecmp (call :: calls) = none := by
        rw [AppItemEntry.afterNames, List.foldlM_cons,
          NameCall.onEntry_unknown ignoresCase initial known]
        rfl
      rw [stops]
      refine ⟨iff_of_false (by simp) fun all => known (all call List.mem_cons_self), nofun⟩

end IgnoresCase

/-- `TRASH` and `reviewaccepted` -/
theorem entry_shows_trash :
    ∃ entry, ({} : AppItemEntry).afterNames strcasecmp
        [.state (literal "TRASH"), .setFlag (literal "reviewaccepted")] = some entry ∧
      entry.labels.state = appItemTrash := by
  obtain ⟨defined, shows⟩ := entry_shows_names strcasecmp_ignoresCase {}
    [.state (literal "TRASH"), .setFlag (literal "reviewaccepted")]
  have known : lowered (literal "reviewaccepted") ∈ namedFlags.map flagLabel := by decide
  obtain ⟨entry, ran⟩ := Option.isSome_iff_exists.mp (defined.mpr
    (List.forall_mem_cons.mpr ⟨trivial, List.forall_mem_singleton.mpr known⟩))
  refine ⟨entry, ran, ?_⟩
  rw [(shows entry ran).labels]
  decide

end MyappsCommon.Utility
