import MyappsCommon.Reflection
import MyappsCommon.Lib.Gate

/-! # `utility::Version` -/

namespace MyappsCommon.Utility

open MyappsCommon.Lib MyappsCommon.Reflection

/-! ## The class constants -/

namespace Version

def version : UInt32 := 1
def application : UInt32 := 1
def build : UInt32 := 1
def buildShortcut : UInt32 := 1
def buildMedia : UInt32 := 1
def buildMediaEntry : UInt32 := 1
def buildConfiguration : UInt32 := 1
def listStoreNode : UInt32 := 1
def applicationListItem : UInt32 := 1
def appItemEntry : UInt32 := 1

end Version

/-- The fields keep the trailing underscore that tells them from the constants. -/
structure Version where
  version_ : UInt32 := Version.version
  application_ : UInt32 := Version.application
  build_ : UInt32 := Version.build
  buildShortcut_ : UInt32 := Version.buildShortcut
  buildMedia_ : UInt32 := Version.buildMedia
  buildMediaEntry_ : UInt32 := Version.buildMediaEntry
  buildConfiguration_ : UInt32 := Version.buildConfiguration
  listStoreNode_ : UInt32 := Version.listStoreNode
  applicationListItem_ : UInt32 := Version.applicationListItem
  appItemEntry_ : UInt32 := Version.appItemEntry
  deriving DecidableEq, Repr

namespace Version

def clear (this : Version) : Version :=
  { this with
    application_ := -1
    build_ := -1
    buildShortcut_ := -1
    buildMedia_ := -1
    buildMediaEntry_ := -1
    buildConfiguration_ := -1
    listStoreNode_ := -1
    applicationListItem_ := -1
    appItemEntry_ := -1 }

/-- `operator<=`.  The first operand of the first comparison is the class constant. -/
def le (this that : Version) : Bool :=
  decide (version ≤ that.version_) && decide (this.application_ ≤ that.application_) &&
  decide (this.build_ ≤ that.build_) && decide (this.buildShortcut_ ≤ that.buildShortcut_) &&
  decide (this.buildMedia_ ≤ that.buildMedia_) &&
  decide (this.buildMediaEntry_ ≤ that.buildMediaEntry_) &&
  decide (this.buildConfiguration_ ≤ that.buildConfiguration_) &&
  decide (this.listStoreNode_ ≤ that.listStoreNode_) &&
  decide (this.applicationListItem_ ≤ that.applicationListItem_) &&
  decide (this.appItemEntry_ ≤ that.appItemEntry_)

def reflect (r : Reflector) (this : Version) : ReflectM Version := do
  let version_ ← r.addU32 this.version_ 1 "version"
  let this := { this with version_ := version_ }
  -- `_rthis.version` is the class constant, reached through the object
  if !r.isConstReflector && decide (version > version) then
    return this.clear
  let application_ ← r.addU32 this.application_ 3 "application"
  let build_ ← r.addU32 this.build_ 4 "build"
  let buildShortcut_ ← r.addU32 this.buildShortcut_ 5 "build_shortcut"
  let buildMedia_ ← r.addU32 this.buildMedia_ 6 "build_media"
  let buildMediaEntry_ ← r.addU32 this.buildMediaEntry_ 7 "build_media_entry"
  let buildConfiguration_ ← r.addU32 this.buildConfiguration_ 8 "build_configuration"
  let listStoreNode_ ← r.addU32 this.listStoreNode_ 9 "list_store_node"
  let applicationListItem_ ← r.addU32 this.applicationListItem_ 10 "application_list_item"
  let appItemEntry_ ← r.addU32 this.appItemEntry_ 11 "app_item_entry"
  return ⟨this.version_, application_, build_, buildShortcut_, buildMedia_, buildMediaEntry_,
    buildConfiguration_, listStoreNode_, applicationListItem_, appItemEntry_⟩

/-! ## The product order of the ten components -/

inductive Component where
  | version | application | build | buildShortcut | buildMedia | buildMediaEntry
  | buildConfiguration | listStoreNode | applicationListItem | appItemEntry
  deriving DecidableEq, Repr

def component (this : Version) : Component → UInt32
  | .version => this.version_
  | .application => this.application_
  | .build => this.build_
  | .buildShortcut => this.buildShortcut_
  | .buildMedia => this.buildMedia_
  | .buildMediaEntry => this.buildMediaEntry_
  | .buildConfiguration => this.buildConfiguration_
  | .listStoreNode => this.listStoreNode_
  | .applicationListItem => this.applicationListItem_
  | .appItemEntry => this.appItemEntry_

theorem component_injective (a b : Version)
    (same : ∀ name, a.component name = b.component name) : a = b := by
  obtain ⟨⟩ := a
  obtain ⟨⟩ := b
  rw [mk.injEq]
  exact ⟨same .version, same .application, same .build, same .buildShortcut, same .buildMedia,
    same .buildMediaEntry, same .buildConfiguration, same .listStoreNode,
    same .applicationListItem, same .appItemEntry⟩

/-- The nine components that `operator<=` takes from both objects are at most those
of `that`. -/
def RestAtMost (this that : Version) : Prop :=
  ∀ name, name ≠ .version → this.component name ≤ that.component name

theorem atMost_iff (this that : Version) :
    Gate.AtMost component this that ↔ this.version_ ≤ that.version_ ∧ this.RestAtMost that := by
  constructor
  · intro atMost
    exact ⟨atMost .version, fun name _ => atMost name⟩
  · rintro ⟨versions, rest⟩ name
    by_cases isVersion : name = .version
    · exact isVersion ▸ versions
    · exact rest name isVersion

/-- What `operator<=` computes: its own `version_` never takes part. -/
theorem le_iff (this that : Version) :
    this.le that = true ↔ version ≤ that.version_ ∧ this.RestAtMost that := by
  simp only [le, Bool.and_eq_true, decide_eq_true_eq, and_assoc]
  refine and_congr_right fun _ => ⟨?_, ?_⟩
  · rintro ⟨h₁, h₂, h₃, h₄, h₅, h₆, h₇, h₈, h₉⟩ name notVersion
    cases name <;> first | exact absurd rfl notVersion | assumption
  · intro rest
    exact ⟨rest .application nofun, rest .build nofun, rest .buildShortcut nofun,
      rest .buildMedia nofun, rest .buildMediaEntry nofun, rest .buildConfiguration nofun,
      rest .listStoreNode nofun, rest .applicationListItem nofun, rest .appItemEntry nofun⟩

theorem RestAtMost.refl (this : Version) : this.RestAtMost this := fun _ _ => Std.le_refl _

theorem exactAt_iff (this that : Version) :
    Gate.ExactAt component le this that ↔
      (this.RestAtMost that → (version ≤ that.version_ ↔ this.version_ ≤ that.version_)) := by
  rw [Gate.ExactAt, le_iff, atMost_iff]
  tauto

/-- `operator<=` is the product order on the values in use exactly when these all
have a `version_` of at least the constant and their `version_` follows the other
nine components. -/
theorem le_orderOn_iff (inUse : Version → Prop) :
    Gate.OrderOn component le inUse ↔
      (∀ a, inUse a → version ≤ a.version_) ∧
      ∀ a b, inUse a → inUse b → a.RestAtMost b → a.version_ ≤ b.version_ := by
  rw [Gate.orderOn_iff_exact component_injective]
  simp only [exactAt_iff]
  constructor
  · intro exact
    -- the pair `(a, a)` forces the lower bound
    have bounded : ∀ a, inUse a → version ≤ a.version_ := fun a ha =>
      (exact a a ha ha (RestAtMost.refl a)).mpr (Std.le_refl _)
    exact ⟨bounded, fun a b ha hb rest => (exact a b ha hb rest).mp (bounded b hb)⟩
  · rintro ⟨bounded, follows⟩ a b ha hb rest
    exact iff_of_true (bounded b hb) (follows a b ha hb rest)

/-- A newer peer is accepted, and the two values are each at most the other. -/
theorem le_not_orderOn :
    Version.le { version_ := 2 } {} = true ∧ Version.le {} { version_ := 2 } = true ∧
      Version.le { version_ := 0 } { version_ := 0 } = false ∧
      ¬ Gate.OrderOn component le (fun _ => True) := by
  refine ⟨by decide, by decide, by decide, fun order => ?_⟩
  have same := order.antisymm { version_ := 2 } {} trivial trivial (by decide) (by decide)
  exact absurd same (by decide)

end Version

end MyappsCommon.Utility
