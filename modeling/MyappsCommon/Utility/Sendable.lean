import Mathlib.Tactic.MkIffOfInductiveProp
import MyappsCommon.Utility.Adds
import MyappsCommon.Utility.SavedForm

/-! # Which Builds the wire carries

The archive takes every Build.  The reflectors take the texts and the containers up to the limits
of the metadata only, at every depth.
-/

namespace MyappsCommon.Utility

open MyappsCommon.Lib MyappsCommon.Lib.BinaryArchive MyappsCommon.Reflection

variable {σ α : Type}

/-- Within `metadata::Container{1024 * 4}` or `metadata::String{1024 * 4}`. -/
def Short (value : Sized α) : Prop := value.items.length ≤ 1024 * 4

/-- A container of strings. -/
@[mk_iff] structure StringsFit (value : Sized Text) : Prop where
  count : Short value
  each : ∀ item ∈ value.items, Short item

@[mk_iff] structure PairsFit (value : Sized StringPair) : Prop where
  count : Short value
  each : ∀ item ∈ value.items, Short item.1 ∧ Short item.2

namespace Build

@[mk_iff] structure Shortcut.Fits (this : Shortcut) : Prop where
  name_ : Short this.name_
  command_ : Short this.command_
  arguments_ : Short this.arguments_
  runFolder_ : Short this.runFolder_
  icon_ : Short this.icon_

@[mk_iff] structure Media.Entry.Fits (this : Media.Entry) : Prop where
  thumbnailPath_ : Short this.thumbnailPath_
  path_ : Short this.path_

@[mk_iff] structure Media.Fits (this : Media) : Prop where
  name_ : Short this.name_
  count : Short this.entryVec_
  entries : ∀ entry ∈ this.entryVec_.items, entry.Fits

@[mk_iff] structure Configuration.Fits (this : Configuration) : Prop where
  name_ : Short this.name_
  directory_ : Short this.directory_
  osVec_ : StringsFit this.osVec_
  mountVec_ : PairsFit this.mountVec_
  exeVec_ : StringsFit this.exeVec_
  count : Short this.shortcutVec_
  shortcuts : ∀ shortcut ∈ this.shortcutVec_.items, shortcut.Fits
  propertyVec_ : PairsFit this.propertyVec_
  media_ : this.media_.Fits

end Build

@[mk_iff] structure Build.Fits (this : Build) : Prop where
  name_ : Short this.name_
  tag_ : Short this.tag_
  dictionaryDq_ : PairsFit this.dictionaryDq_
  propertyVec_ : PairsFit this.propertyVec_
  count : Short this.configurationVec_
  configurations : ∀ configuration ∈ this.configurationVec_.items, configuration.Fits

variable {basics : Basics σ}

@[simp] theorem within_text_iff (value : Text) : basics.text.Within value ↔ Short value := by
  simp [Format.Within, Short]

@[simp] theorem within_container_iff (item : Format σ α) (value : Sized α) :
    (basics.container item).Within value ↔
      Short value ∧ ∀ element ∈ value.items, item.Within element := by
  simp only [Format.Within, Short, Basics.extents_container, List.forall_mem_cons,
    List.mem_flatMap]
  refine and_congr_right fun _ => ⟨fun each element member extent inside => ?_, ?_⟩
  · exact each extent ⟨element, member, inside⟩
  · rintro each extent ⟨element, member, inside⟩
    exact each element member extent inside

@[simp] theorem within_unlimited (format : Format.Unlimited σ α) (value : α) :
    format.Within value := by
  simp [Format.Within]

@[simp] theorem within_none (value : Unit) : (Adds.none : Adds σ Unit).Within value := nofun

@[simp] theorem within_add_iff {β : Type} (index : Nat) (name : String) (field : Format σ α)
    (others : Adds σ β) (value : α × β) :
    (Adds.add index name field others).Within value ↔
      field.Within value.1 ∧ others.Within value.2 :=
  List.forall_mem_append

@[simp] theorem within_members_iff {τ : Type} (same : α ≃ τ) (adds : Adds σ τ) (value : α) :
    (Adds.members same adds).Within value ↔ adds.Within (same value) := Iff.rfl

@[simp] theorem within_strings_iff (value : Sized Text) :
    (strings basics).Within value ↔ StringsFit value := by
  simp [strings, stringsFit_iff]

@[simp] theorem within_textPair_iff (value : StringPair) :
    (textPair basics).Within value ↔ Short value.1 ∧ Short value.2 := by
  rw [← @within_text_iff σ basics, ← @within_text_iff σ basics]
  exact List.forall_mem_append

@[simp] theorem within_textPairs_iff (value : Sized StringPair) :
    (textPairs basics).Within value ↔ PairsFit value := by
  simp [textPairs, pairsFit_iff]

namespace Build

@[simp] theorem Shortcut.within_iff (this : Shortcut) :
    (Shortcut.adds basics).Within this ↔ this.Fits := by
  simp [Shortcut.adds, Shortcut.fits_iff]

@[simp] theorem Media.Entry.within_iff (this : Media.Entry) :
    (Media.Entry.adds basics).Within this ↔ this.Fits := by
  simp [Media.Entry.adds, Media.Entry.fits_iff]

@[simp] theorem Media.within_iff (this : Media) :
    (Media.adds basics).Within this ↔ this.Fits := by
  simp [Media.adds, Media.fits_iff]

@[simp] theorem Configuration.within_iff (this : Configuration) :
    (Configuration.adds basics).Within this ↔ this.Fits := by
  simp [Configuration.adds, Configuration.fits_iff, and_assoc]

@[simp] theorem within_iff (this : Build) : (Build.adds basics).Within this ↔ this.Fits := by
  simp [Build.adds, Build.fits_iff]

/-- Every Build is saved, and a Build can also be sent exactly if it fits: what is received then
is the same Build, with the same saved form.  Of any other Build nothing is written, and nothing
is read as one. -/
theorem sendable_iff_fits (basics : Basics σ) (failedAssert : SerializeM Unit) (build : Build) :
    (∃ saved, Saved failedAssert build saved) ∧
    ((∃ symbols, (Build.adds basics).Sends build symbols) ↔ build.Fits) ∧
    (∀ symbols, (Build.adds basics).write build = some symbols → ∀ rest, ∃ received,
      (Build.adds basics).read.Takes (symbols ++ rest) received rest ∧
        (received == build) = true ∧
          ∀ saved, Saved failedAssert received saved ↔ Saved failedAssert build saved) ∧
    (¬build.Fits → (Build.adds basics).write build = none ∧
      ∀ stream rest, ¬(Build.adds basics).read.Takes stream build rest) := by
  refine ⟨exists_saved failedAssert build, ?_, fun symbols written rest => ?_,
    fun unfit => ⟨?_, ?_⟩⟩
  · rw [Format.exists_sends_iff, and_iff_right (intact basics build)]
    exact within_iff build
  · have taken := (Build.adds basics).read_write (intact basics build) written rest
    exact ⟨build, taken, (beq_iff build build).mpr rfl, fun _ => Iff.rfl⟩
  · rw [← Option.not_isSome_iff_eq_none, (Build.adds basics).write_isSome]
    exact fun within => unfit ((within_iff build).mp within)
  · intro stream rest taken
    have writable := ((Build.adds basics).of_read taken).2
    rw [(Build.adds basics).write_isSome] at writable
    exact unfit ((within_iff build).mp writable)

end Build

end MyappsCommon.Utility
