import MyappsCommon.Lib.BinaryArchive
import MyappsCommon.Utility.Version

/-! # `utility::Application` and `utility::Build`

Their cereal serialization and their equality.
-/

namespace MyappsCommon.Utility

open MyappsCommon.Lib MyappsCommon.Lib.BinaryArchive

/-- The types with a `CEREAL_CLASS_VERSION`. -/
inductive Versioned where
  | application | build | buildMedia | buildShortcut | buildConfiguration | buildMediaEntry
  deriving DecidableEq, Repr

def Versioned.classVersion : Versioned → UInt32
  | .application => Version.application
  | .build => Version.build
  | .buildMedia => Version.buildMedia
  | .buildShortcut => Version.buildShortcut
  | .buildConfiguration => Version.buildConfiguration
  | .buildMediaEntry => Version.buildMediaEntry

abbrev SerializeM := ArchiveM Versioned

/-- `std::string` -/
abbrev Text := Sized UInt8

abbrev StringPair := Text × Text

/-- What a failed assertion does depends on how `solid` is built: it may stop the program, or
nothing may happen at all. -/
def solidAssert (failedAssert : SerializeM Unit) (condition : Bool) : SerializeM Unit :=
  if condition then pure () else failedAssert

variable (failedAssert : SerializeM Unit)

/-- `std::vector<std::string>` -/
def stringVector : Serializer Versioned (Sized Text) := sequence text Sized.empty

/-- `std::vector` or `std::deque` of pairs of strings. -/
def stringPairs : Serializer Versioned (Sized StringPair) :=
  sequence (pair text text) (Sized.empty, Sized.empty)

@[ext] structure Application where
  name_ : Text := Sized.empty
  flags_ : UInt64 := 0

namespace Application

def serialize (a : Archive) (version : UInt32) (this : Application) : SerializeM Application := do
  solidAssert failedAssert (Version.application == version)
  let name_ ← text a this.name_
  let flags_ ← u64 a this.flags_
  return ⟨name_, flags_⟩

def process : Serializer Versioned Application :=
  versioned Versioned.classVersion .application (serialize failedAssert)

/-- `operator==` -/
def beq (this ac : Application) : Bool := this.name_ == ac.name_ && this.flags_ == ac.flags_

instance : BEq Application := ⟨beq⟩

end Application

namespace Build

@[ext] structure Shortcut where
  name_ : Text := Sized.empty
  command_ : Text := Sized.empty
  arguments_ : Text := Sized.empty
  runFolder_ : Text := Sized.empty
  icon_ : Text := Sized.empty

namespace Shortcut

def serialize (a : Archive) (version : UInt32) (this : Shortcut) : SerializeM Shortcut := do
  solidAssert failedAssert (version == Version.buildShortcut)
  let name_ ← text a this.name_
  let command_ ← text a this.command_
  let arguments_ ← text a this.arguments_
  let runFolder_ ← text a this.runFolder_
  let icon_ ← text a this.icon_
  return ⟨name_, command_, arguments_, runFolder_, icon_⟩

def process : Serializer Versioned Shortcut :=
  versioned Versioned.classVersion .buildShortcut (serialize failedAssert)

/-- `operator==` -/
def beq (this s : Shortcut) : Bool :=
  -- `arguments_` is compared last
  this.name_ == s.name_ && this.command_ == s.command_ && this.runFolder_ == s.runFolder_ &&
  this.icon_ == s.icon_ && this.arguments_ == s.arguments_

instance : BEq Shortcut := ⟨beq⟩

end Shortcut

@[ext] structure Media.Entry where
  thumbnailPath_ : Text := Sized.empty
  path_ : Text := Sized.empty

namespace Media.Entry

def serialize (a : Archive) (version : UInt32) (this : Media.Entry) : SerializeM Media.Entry := do
  solidAssert failedAssert (Version.buildMediaEntry == version)
  let thumbnailPath_ ← text a this.thumbnailPath_
  let path_ ← text a this.path_
  return ⟨thumbnailPath_, path_⟩

def process : Serializer Versioned Media.Entry :=
  versioned Versioned.classVersion .buildMediaEntry (serialize failedAssert)

/-- `operator==` -/
def beq (this bc : Media.Entry) : Bool :=
  this.thumbnailPath_ == bc.thumbnailPath_ && this.path_ == bc.path_

instance : BEq Media.Entry := ⟨beq⟩

end Media.Entry

@[ext] structure Media where
  name_ : Text := Sized.empty
  entryVec_ : Sized Media.Entry := Sized.empty

namespace Media

def serialize (a : Archive) (version : UInt32) (this : Media) : SerializeM Media := do
  solidAssert failedAssert (Version.buildMedia == version)
  let name_ ← text a this.name_
  let entryVec_ ← sequence (Entry.process failedAssert) {} a this.entryVec_
  return ⟨name_, entryVec_⟩

def process : Serializer Versioned Media :=
  versioned Versioned.classVersion .buildMedia (serialize failedAssert)

/-- `operator==` -/
def beq (this bc : Media) : Bool := this.name_ == bc.name_ && this.entryVec_ == bc.entryVec_

instance : BEq Media := ⟨beq⟩

end Media

@[ext] structure Configuration where
  name_ : Text := Sized.empty
  directory_ : Text := Sized.empty
  flags_ : UInt64 := 0
  osVec_ : Sized Text := Sized.empty
  mountVec_ : Sized StringPair := Sized.empty
  exeVec_ : Sized Text := Sized.empty
  shortcutVec_ : Sized Shortcut := Sized.empty
  propertyVec_ : Sized StringPair := Sized.empty
  media_ : Media := {}

namespace Configuration

def serialize (a : Archive) (version : UInt32) (this : Configuration) :
    SerializeM Configuration := do
  solidAssert failedAssert (Version.buildConfiguration == version)
  let name_ ← text a this.name_
  let directory_ ← text a this.directory_
  let flags_ ← u64 a this.flags_
  let osVec_ ← stringVector a this.osVec_
  let mountVec_ ← stringPairs a this.mountVec_
  let exeVec_ ← stringVector a this.exeVec_
  let shortcutVec_ ← sequence (Shortcut.process failedAssert) {} a this.shortcutVec_
  let propertyVec_ ← stringPairs a this.propertyVec_
  let media_ ← Media.process failedAssert a this.media_
  return ⟨name_, directory_, flags_, osVec_, mountVec_, exeVec_, shortcutVec_, propertyVec_,
    media_⟩

def process : Serializer Versioned Configuration :=
  versioned Versioned.classVersion .buildConfiguration (serialize failedAssert)

/-- `operator==` -/
def beq (this c : Configuration) : Bool :=
  this.name_ == c.name_ && this.directory_ == c.directory_ && this.flags_ == c.flags_ &&
  this.osVec_ == c.osVec_ && this.mountVec_ == c.mountVec_ && this.exeVec_ == c.exeVec_ &&
  this.shortcutVec_ == c.shortcutVec_ && this.propertyVec_ == c.propertyVec_ &&
  this.media_ == c.media_

instance : BEq Configuration := ⟨beq⟩

end Configuration

end Build

@[ext] structure Build where
  name_ : Text := Sized.empty
  tag_ : Text := Sized.empty
  dictionaryDq_ : Sized StringPair := Sized.empty
  propertyVec_ : Sized StringPair := Sized.empty
  configurationVec_ : Sized Build.Configuration := Sized.empty

namespace Build

def serialize (a : Archive) (version : UInt32) (this : Build) : SerializeM Build := do
  solidAssert failedAssert (Version.build == version)
  let name_ ← text a this.name_
  let tag_ ← text a this.tag_
  let dictionaryDq_ ← stringPairs a this.dictionaryDq_
  let propertyVec_ ← stringPairs a this.propertyVec_
  let configurationVec_ ← sequence (Configuration.process failedAssert) {} a this.configurationVec_
  return ⟨name_, tag_, dictionaryDq_, propertyVec_, configurationVec_⟩

def process : Serializer Versioned Build :=
  versioned Versioned.classVersion .build (serialize failedAssert)

/-- `operator==` -/
def beq (this bc : Build) : Bool :=
  this.name_ == bc.name_ && this.tag_ == bc.tag_ &&
  this.configurationVec_ == bc.configurationVec_ && this.propertyVec_ == bc.propertyVec_ &&
  this.dictionaryDq_ == bc.dictionaryDq_

instance : BEq Build := ⟨beq⟩

end Build

/-! ## Equality -/

/-- A comparison that holds exactly for equal values. -/
theorem lawfulBEq_of_iff {α : Type} [BEq α] (exactly : ∀ a b : α, (a == b) = true ↔ a = b) :
    LawfulBEq α where
  eq_of_beq := (exactly _ _).mp
  rfl := (exactly _ _).mpr rfl

theorem Application.beq_iff (this ac : Application) : (this == ac) = true ↔ this = ac := by
  rw [Application.ext_iff]
  show this.beq ac = true ↔ _
  simp only [beq, Bool.and_eq_true, beq_iff_eq]

namespace Build

theorem Shortcut.beq_iff (this s : Shortcut) : (this == s) = true ↔ this = s := by
  rw [Shortcut.ext_iff]
  show this.beq s = true ↔ _
  simp only [beq, Bool.and_eq_true, beq_iff_eq]
  tauto

instance : LawfulBEq Shortcut := lawfulBEq_of_iff Shortcut.beq_iff

theorem Media.Entry.beq_iff (this bc : Media.Entry) : (this == bc) = true ↔ this = bc := by
  rw [Media.Entry.ext_iff]
  show this.beq bc = true ↔ _
  simp only [beq, Bool.and_eq_true, beq_iff_eq]

instance : LawfulBEq Media.Entry := lawfulBEq_of_iff Media.Entry.beq_iff

theorem Media.beq_iff (this bc : Media) : (this == bc) = true ↔ this = bc := by
  rw [Media.ext_iff]
  show this.beq bc = true ↔ _
  simp only [beq, Bool.and_eq_true, beq_iff_eq]

instance : LawfulBEq Media := lawfulBEq_of_iff Media.beq_iff

theorem Configuration.beq_iff (this c : Configuration) : (this == c) = true ↔ this = c := by
  rw [Configuration.ext_iff]
  show this.beq c = true ↔ _
  simp only [beq, Bool.and_eq_true, beq_iff_eq, and_assoc]

instance : LawfulBEq Configuration := lawfulBEq_of_iff Configuration.beq_iff

theorem beq_iff (this bc : Build) : (this == bc) = true ↔ this = bc := by
  rw [Build.ext_iff]
  show this.beq bc = true ↔ _
  simp only [beq, Bool.and_eq_true, beq_iff_eq]
  tauto

end Build

/-! ## Faithfulness -/

theorem carries_solidAssert {condition : Bool} (holds : condition = true) :
    Carries Versioned.classVersion (solidAssert failedAssert condition)
      (solidAssert failedAssert condition) () () := by
  subst holds
  exact carries_pure () ()

theorem faithful_stringVector : Faithful Versioned.classVersion stringVector :=
  faithful_sequence faithful_text _

theorem faithful_stringPairs : Faithful Versioned.classVersion stringPairs :=
  faithful_sequence (faithful_pair faithful_text faithful_text) _

theorem Application.faithful :
    Faithful Versioned.classVersion (Application.process failedAssert) := by
  apply faithful_versioned
  intro value old
  -- the assertion holds of the version that both sides have, then come the fields
  refine (carries_solidAssert failedAssert rfl).bind ?_
  refine (faithful_text _ _).bind ?_
  exact (faithful_u64 _ _).bind (carries_pure value value)

namespace Build

theorem Shortcut.faithful :
    Faithful Versioned.classVersion (Shortcut.process failedAssert) := by
  apply faithful_versioned
  intro value old
  refine (carries_solidAssert failedAssert rfl).bind ?_
  refine (faithful_text _ _).bind ?_
  refine (faithful_text _ _).bind ?_
  refine (faithful_text _ _).bind ?_
  refine (faithful_text _ _).bind ?_
  exact (faithful_text _ _).bind (carries_pure value value)

theorem Media.Entry.faithful :
    Faithful Versioned.classVersion (Media.Entry.process failedAssert) := by
  apply faithful_versioned
  intro value old
  refine (carries_solidAssert failedAssert rfl).bind ?_
  refine (faithful_text _ _).bind ?_
  exact (faithful_text _ _).bind (carries_pure value value)

theorem Media.faithful :
    Faithful Versioned.classVersion (Media.process failedAssert) := by
  apply faithful_versioned
  intro value old
  refine (carries_solidAssert failedAssert rfl).bind ?_
  refine (faithful_text _ _).bind ?_
  exact (faithful_sequence (Entry.faithful failedAssert) _ _ _).bind (carries_pure value value)

theorem Configuration.faithful :
    Faithful Versioned.classVersion (Configuration.process failedAssert) := by
  apply faithful_versioned
  intro value old
  refine (carries_solidAssert failedAssert rfl).bind ?_
  refine (faithful_text _ _).bind ?_
  refine (faithful_text _ _).bind ?_
  refine (faithful_u64 _ _).bind ?_
  refine (faithful_stringVector _ _).bind ?_
  refine (faithful_stringPairs _ _).bind ?_
  refine (faithful_stringVector _ _).bind ?_
  refine (faithful_sequence (Shortcut.faithful failedAssert) _ _ _).bind ?_
  refine (faithful_stringPairs _ _).bind ?_
  exact (Media.faithful failedAssert _ _).bind (carries_pure value value)

theorem faithful : Faithful Versioned.classVersion (Build.process failedAssert) := by
  apply faithful_versioned
  intro value old
  refine (carries_solidAssert failedAssert rfl).bind ?_
  refine (faithful_text _ _).bind ?_
  refine (faithful_text _ _).bind ?_
  refine (faithful_stringPairs _ _).bind ?_
  refine (faithful_stringPairs _ _).bind ?_
  exact (faithful_sequence (Configuration.faithful failedAssert) _ _ _).bind
    (carries_pure value value)

/-! ## The round trip -/

/-- A fresh output archive ends with these bytes. -/
def Saved (build : Build) (bytes : List UInt8) : Prop :=
  ∃ versions, Traced.Gives (process failedAssert .output build) ⟨[], []⟩ build ⟨bytes, versions⟩

/-- A fresh input archive over these bytes gives the Build, into an object with any content,
and leaves the rest. -/
def Loaded (old : Build) (bytes : List UInt8) (build : Build) (rest : List UInt8) : Prop :=
  ∃ versions, Traced.Gives (process failedAssert .input old) ⟨bytes, []⟩ build ⟨rest, versions⟩

theorem persistence_round_trip :
    (∀ build, ∃ bytes, Saved failedAssert build bytes ∧
      ∀ old rest, ∃ loaded,
        Loaded failedAssert old (bytes ++ rest) loaded rest ∧ (loaded == build) = true) ∧
    (∀ this bc : Build, (this == bc) = true ↔ this = bc) ∧
    (∀ this c : Configuration, (this == c) = true ↔ this = c) ∧
    (∀ this s : Shortcut, (this == s) = true ↔ this = s) ∧
    (∀ this bc : Media, (this == bc) = true ↔ this = bc) ∧
    (∀ this bc : Media.Entry, (this == bc) = true ↔ this = bc) := by
  refine ⟨fun build => ?_, beq_iff, Configuration.beq_iff, Shortcut.beq_iff, Media.beq_iff,
    Media.Entry.beq_iff⟩
  -- a fresh archive knows no versions
  have none : Agree Versioned.classVersion [] := by
    intro entry member
    cases member
  obtain ⟨bytes, versions, -, saved, -⟩ := faithful failedAssert build {} [] none
  refine ⟨bytes, ⟨versions, saved []⟩, fun old rest => ?_⟩
  obtain ⟨bytes', versions', -, saved', loaded⟩ := faithful failedAssert build old [] none
  -- what is saved does not depend on the object that is loaded into
  have same : bytes' = bytes := by
    have final := (Traced.gives_iff.mp (saved [])).2
    rw [(Traced.gives_iff.mp (saved' [])).2] at final
    exact congrArg Store.bytes final
  rw [← same]
  exact ⟨build, ⟨versions', loaded rest⟩, (beq_iff build build).mpr rfl⟩

end Build

end MyappsCommon.Utility
