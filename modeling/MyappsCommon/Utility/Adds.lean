import MyappsCommon.Reflection.Adds
import MyappsCommon.Utility.AppItemEntry
import MyappsCommon.Utility.Flags

/-! # The records of `utility` on the wire -/

namespace MyappsCommon.Utility

open MyappsCommon.Lib MyappsCommon.Lib.BinaryArchive MyappsCommon.Reflection

variable {σ : Type}

structure ListStoreNode where
  name_ : Text := Sized.empty
  size_ : UInt64 := 0
  baseTime_ : Int64 := 0

/-- A container of strings. -/
def strings (basics : Basics σ) : Format σ (Sized Text) := basics.container basics.text

def textPair (basics : Basics σ) : Format σ StringPair := basics.text.pair basics.text

def textPairs (basics : Basics σ) : Format σ (Sized StringPair) :=
  basics.container (textPair basics)

def Application.adds (basics : Basics σ) : Adds σ Application :=
  .members
    ⟨fun this => (this.name_, this.flags_, ()), fun (name_, flags_, ()) => ⟨name_, flags_⟩,
      fun _ => rfl, fun _ => rfl⟩ <|
  .add 1 "name" basics.text <|
  .add 2 "flags" basics.u64 .none

namespace Build

def Shortcut.adds (basics : Basics σ) : Adds σ Shortcut :=
  .members
    ⟨fun this => (this.name_, this.command_, this.arguments_, this.runFolder_, this.icon_, ()),
      fun (name_, command_, arguments_, runFolder_, icon_, ()) =>
        ⟨name_, command_, arguments_, runFolder_, icon_⟩,
      fun _ => rfl, fun _ => rfl⟩ <|
  .add 1 "name" basics.text <|
  .add 2 "command" basics.text <|
  .add 3 "arguments" basics.text <|
  .add 4 "run_folder" basics.text <|
  .add 5 "icon" basics.text .none

def Media.Entry.adds (basics : Basics σ) : Adds σ Media.Entry :=
  .members
    ⟨fun this => (this.thumbnailPath_, this.path_, ()),
      fun (thumbnailPath_, path_, ()) => ⟨thumbnailPath_, path_⟩, fun _ => rfl, fun _ => rfl⟩ <|
  .add 1 "thumbnail_path" basics.text <|
  .add 2 "path" basics.text .none

def Media.adds (basics : Basics σ) : Adds σ Media :=
  .members
    ⟨fun this => (this.name_, this.entryVec_, ()), fun (name_, entryVec_, ()) => ⟨name_, entryVec_⟩,
      fun _ => rfl, fun _ => rfl⟩ <|
  .add 1 "name" basics.text <|
  .add 2 "entry_vec" (basics.container (Entry.adds basics)) .none

def Configuration.adds (basics : Basics σ) : Adds σ Configuration :=
  .members
    ⟨fun this => (this.name_, this.directory_, this.flags_, this.osVec_, this.mountVec_,
        this.exeVec_, this.shortcutVec_, this.propertyVec_, this.media_, ()),
      fun (name_, directory_, flags_, osVec_, mountVec_, exeVec_, shortcutVec_, propertyVec_,
          media_, ()) =>
        ⟨name_, directory_, flags_, osVec_, mountVec_, exeVec_, shortcutVec_, propertyVec_,
          media_⟩,
      fun _ => rfl, fun _ => rfl⟩ <|
  .add 1 "name" basics.text <|
  .add 2 "directory" basics.text <|
  .add 3 "flags" basics.u64 <|
  .add 4 "os_vec" (strings basics) <|
  .add 5 "mount_vec" (textPairs basics) <|
  .add 6 "exe_vec" (strings basics) <|
  .add 7 "shortcut_vec" (basics.container (Shortcut.adds basics)) <|
  .add 8 "property_vec" (textPairs basics) <|
  .add 9 "media" (Media.adds basics) .none

end Build

def Build.adds (basics : Basics σ) : Adds σ Build :=
  .members
    ⟨fun this => (this.name_, this.tag_, this.dictionaryDq_, this.propertyVec_,
        this.configurationVec_, ()),
      fun (name_, tag_, dictionaryDq_, propertyVec_, configurationVec_, ()) =>
        ⟨name_, tag_, dictionaryDq_, propertyVec_, configurationVec_⟩,
      fun _ => rfl, fun _ => rfl⟩ <|
  .add 1 "name" basics.text <|
  .add 2 "tag" basics.text <|
  .add 3 "dictionary_dq" (textPairs basics) <|
  .add 4 "property_vec" (textPairs basics) <|
  .add 5 "configuration_vec" (basics.container (Configuration.adds basics)) .none

def AppItemEntry.adds (basics : Basics σ) : Adds σ AppItemEntry :=
  .members
    ⟨fun this => (this.name_, this.value_, ()), fun (name_, value_, ()) => ⟨name_, value_⟩,
      fun _ => rfl, fun _ => rfl⟩ <|
  .add 1 "name" basics.text <|
  .add 2 "value" basics.u64 .none

def ListStoreNode.adds (basics : Basics σ) : Adds σ ListStoreNode :=
  .members
    ⟨fun this => (this.name_, this.size_, this.baseTime_, ()),
      fun (name_, size_, baseTime_, ()) => ⟨name_, size_, baseTime_⟩, fun _ => rfl, fun _ => rfl⟩ <|
  .add 1 "name" basics.text <|
  .add 2 "size" basics.u64 <|
  .add 3 "base_time" basics.i64 .none

def ApplicationListItem.adds (basics : Basics σ) : Adds σ ApplicationListItem :=
  .members
    ⟨fun this => (this.id_, this.unique_, this.name_, this.flags_, ()),
      fun (id_, unique_, name_, flags_, ()) => ⟨id_, unique_, name_, flags_⟩,
      fun _ => rfl, fun _ => rfl⟩ <|
  .add 1 "id" basics.text <|
  .add 2 "unique" basics.text <|
  .add 3 "name" basics.text <|
  .add 4 "flags" basics.u32 .none

def StorageFetchChunk.adds (basics : Basics σ) : Adds σ StorageFetchChunk :=
  .members
    ⟨fun this => (this.data_, this.crc_, ()), fun (data_, crc_, ()) => ⟨data_, crc_⟩,
      fun _ => rfl, fun _ => rfl⟩ <|
  .add 1 "data" basics.u32 <|
  .add 2 "crc" basics.u32 .none

/-! ## One spelling for each value -/

section Canonical

variable (basics : Basics σ) [basics.Canonical]

instance : (strings basics).Canonical := by
  unfold strings
  infer_instance

instance : (textPairs basics).Canonical := by
  unfold textPairs textPair
  infer_instance

instance : (Application.adds basics).Canonical := by
  unfold Application.adds
  infer_instance

instance : (Build.Media.adds basics).Canonical := by
  unfold Build.Media.adds Build.Media.Entry.adds
  infer_instance

instance : (Build.Configuration.adds basics).Canonical := by
  unfold Build.Configuration.adds Build.Shortcut.adds
  infer_instance

instance : (Build.adds basics).Canonical := by
  unfold Build.adds
  infer_instance

instance : (AppItemEntry.adds basics).Canonical := by
  unfold AppItemEntry.adds
  infer_instance

instance : (ListStoreNode.adds basics).Canonical := by
  unfold ListStoreNode.adds
  infer_instance

instance : (ApplicationListItem.adds basics).Canonical := by
  unfold ApplicationListItem.adds
  infer_instance

instance : (StorageFetchChunk.adds basics).Canonical := by
  unfold StorageFetchChunk.adds
  infer_instance

end Canonical

/-! ## Nothing is left out -/

section Intact

variable (basics : Basics σ)

@[simp] theorem intact_strings (value : Sized Text) : (strings basics).Intact value := by
  simp [strings]

@[simp] theorem intact_textPairs (value : Sized StringPair) : (textPairs basics).Intact value := by
  simp [textPairs, textPair]

@[simp] theorem Application.intact (this : Application) : (adds basics).Intact this := by
  simp [adds]

@[simp] theorem Build.Shortcut.intact (this : Shortcut) : (adds basics).Intact this := by
  simp [adds]

@[simp] theorem Build.Media.intact (this : Media) : (adds basics).Intact this := by
  simp [adds, Entry.adds]

@[simp] theorem Build.Configuration.intact (this : Configuration) : (adds basics).Intact this := by
  simp [adds]

@[simp] theorem Build.intact (this : Build) : (adds basics).Intact this := by
  simp [adds]

@[simp] theorem AppItemEntry.intact (this : AppItemEntry) : (adds basics).Intact this := by
  simp [adds]

@[simp] theorem ListStoreNode.intact (this : ListStoreNode) : (adds basics).Intact this := by
  simp [adds]

@[simp] theorem ApplicationListItem.intact (this : ApplicationListItem) :
    (adds basics).Intact this := by
  simp [adds]

@[simp] theorem StorageFetchChunk.intact (this : StorageFetchChunk) :
    (adds basics).Intact this := by
  simp [adds]

end Intact

end MyappsCommon.Utility
