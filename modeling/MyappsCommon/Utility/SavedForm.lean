import MyappsCommon.Lib.ArchiveExact
import MyappsCommon.Utility.Build

/-! # The saved form of an `utility::Build`

Each type with a class version is loaded as it was saved: bytes that load are the bytes that
saving the loaded object writes.
-/

namespace MyappsCommon.Utility

open MyappsCommon.Lib MyappsCommon.Lib.BinaryArchive

/-- A fresh archive knows no versions. -/
theorem agree_nil : Agree Versioned.classVersion [] := by
  intro entry member
  cases member

/-- A failed assertion does not let the program go on. -/
def Stopping (failedAssert : SerializeM Unit) : Prop :=
  ∀ store final, ¬ Traced.Gives failedAssert store () final

variable {failedAssert : SerializeM Unit}

theorem rewrites_solidAssert {condition : Bool} (holds : condition = true) :
    Rewrites Versioned.classVersion (solidAssert failedAssert condition) (fun _ => True)
      (fun _ => solidAssert failedAssert condition) fun _ => () := by
  subst holds
  exact rewrites_pure trivial rfl

/-- A `serialize` that gives a value has passed its assertion. -/
theorem holds_of_solidAssert (stops : Stopping failedAssert) {α : Type} {condition : Bool}
    {next : Unit → SerializeM α} {store final : Store Versioned} {value : α}
    (gives : Traced.Gives (solidAssert failedAssert condition >>= next) store value final) :
    condition = true := by
  obtain ⟨_, passed, _⟩ := Traced.gives_seq_iff.mp gives
  cases condition with
  | true => rfl
  | false => exact absurd passed (stops store _)

theorem exact_stringVector : Exact Versioned.classVersion stringVector :=
  exact_sequence exact_text _

theorem exact_stringPairs : Exact Versioned.classVersion stringPairs :=
  exact_sequence (exact_pair exact_text exact_text) _

theorem Application.exact (stops : Stopping failedAssert) :
    Exact Versioned.classVersion (Application.process failedAssert) := by
  refine exact_versioned (fun _ _ _ _ _ gives =>
    (eq_of_beq (holds_of_solidAssert stops gives)).symm) fun old => ?_
  refine (rewrites_solidAssert rfl).bind fun _ => ?_
  refine (exact_text _).bind fun name_ => ?_
  refine (exact_u64 _).bind fun flags_ => ?_
  exact rewrites_pure ⟨rfl, rfl, rfl, trivial⟩ rfl

namespace Build

theorem Shortcut.exact (stops : Stopping failedAssert) :
    Exact Versioned.classVersion (Shortcut.process failedAssert) := by
  refine exact_versioned (fun _ _ _ _ _ gives => eq_of_beq (holds_of_solidAssert stops gives))
    fun old => ?_
  refine (rewrites_solidAssert rfl).bind fun _ => ?_
  refine (exact_text _).bind fun name_ => ?_
  refine (exact_text _).bind fun command_ => ?_
  refine (exact_text _).bind fun arguments_ => ?_
  refine (exact_text _).bind fun runFolder_ => ?_
  refine (exact_text _).bind fun icon_ => ?_
  exact rewrites_pure ⟨rfl, rfl, rfl, rfl, rfl, rfl, trivial⟩ rfl

theorem Media.Entry.exact (stops : Stopping failedAssert) :
    Exact Versioned.classVersion (Media.Entry.process failedAssert) := by
  refine exact_versioned (fun _ _ _ _ _ gives =>
    (eq_of_beq (holds_of_solidAssert stops gives)).symm) fun old => ?_
  refine (rewrites_solidAssert rfl).bind fun _ => ?_
  refine (exact_text _).bind fun thumbnailPath_ => ?_
  refine (exact_text _).bind fun path_ => ?_
  exact rewrites_pure ⟨rfl, rfl, rfl, trivial⟩ rfl

theorem Media.exact (stops : Stopping failedAssert) :
    Exact Versioned.classVersion (Media.process failedAssert) := by
  refine exact_versioned (fun _ _ _ _ _ gives =>
    (eq_of_beq (holds_of_solidAssert stops gives)).symm) fun old => ?_
  refine (rewrites_solidAssert rfl).bind fun _ => ?_
  refine (exact_text _).bind fun name_ => ?_
  refine (exact_sequence (Entry.exact stops) _ _).bind fun entryVec_ => ?_
  exact rewrites_pure ⟨rfl, rfl, rfl, trivial⟩ rfl

theorem Configuration.exact (stops : Stopping failedAssert) :
    Exact Versioned.classVersion (Configuration.process failedAssert) := by
  refine exact_versioned (fun _ _ _ _ _ gives =>
    (eq_of_beq (holds_of_solidAssert stops gives)).symm) fun old => ?_
  refine (rewrites_solidAssert rfl).bind fun _ => ?_
  refine (exact_text _).bind fun name_ => ?_
  refine (exact_text _).bind fun directory_ => ?_
  refine (exact_u64 _).bind fun flags_ => ?_
  refine (exact_stringVector _).bind fun osVec_ => ?_
  refine (exact_stringPairs _).bind fun mountVec_ => ?_
  refine (exact_stringVector _).bind fun exeVec_ => ?_
  refine (exact_sequence (Shortcut.exact stops) _ _).bind fun shortcutVec_ => ?_
  refine (exact_stringPairs _).bind fun propertyVec_ => ?_
  refine (Media.exact stops _).bind fun media_ => ?_
  exact rewrites_pure ⟨rfl, rfl, rfl, rfl, rfl, rfl, rfl, rfl, rfl, rfl, trivial⟩ rfl

theorem exact (stops : Stopping failedAssert) :
    Exact Versioned.classVersion (Build.process failedAssert) := by
  refine exact_versioned (fun _ _ _ _ _ gives =>
    (eq_of_beq (holds_of_solidAssert stops gives)).symm) fun old => ?_
  refine (rewrites_solidAssert rfl).bind fun _ => ?_
  refine (exact_text _).bind fun name_ => ?_
  refine (exact_text _).bind fun tag_ => ?_
  refine (exact_stringPairs _).bind fun dictionaryDq_ => ?_
  refine (exact_stringPairs _).bind fun propertyVec_ => ?_
  refine (exact_sequence (Configuration.exact stops) _ _).bind fun configurationVec_ => ?_
  exact rewrites_pure ⟨rfl, rfl, rfl, rfl, rfl, rfl, trivial⟩ rfl

/-! ## Builds -/

theorem loaded_iff (stops : Stopping failedAssert) (old : Build) (bytes : List UInt8)
    (build : Build) (rest : List UInt8) :
    Loaded failedAssert old bytes build rest ↔
      ∃ saved, Saved failedAssert build saved ∧ bytes = saved ++ rest := by
  have loads (versions : List (Versioned × UInt32)) :
      Traced.Gives (process failedAssert .input old) ⟨bytes, []⟩ build ⟨rest, versions⟩ ↔
        True ∧ ∃ saved, bytes = saved ++ rest ∧
          Traced.Gives (process failedAssert .output build) ⟨[], []⟩ build ⟨saved, versions⟩ :=
    (exact stops old).loads_iff (fun value _ => faithful failedAssert value old) agree_nil
  constructor
  · rintro ⟨versions, gives⟩
    obtain ⟨-, saved, split, wrote⟩ := (loads versions).mp gives
    exact ⟨saved, ⟨versions, wrote⟩, split⟩
  · rintro ⟨saved, ⟨versions, wrote⟩, split⟩
    exact ⟨versions, (loads versions).mpr ⟨trivial, saved, split, wrote⟩⟩

theorem Saved.unique {build : Build} {bytes bytes' : List UInt8}
    (saved : Saved failedAssert build bytes) (saved' : Saved failedAssert build bytes') :
    bytes = bytes' := by
  obtain ⟨_, gives⟩ := saved
  obtain ⟨_, gives'⟩ := saved'
  exact congrArg Store.bytes (gives_unique gives gives').2

theorem Loaded.unique {old build build' : Build} {bytes rest rest' : List UInt8}
    
    (loaded : Loaded failedAssert old bytes build rest)
    (loaded' : Loaded failedAssert old bytes build' rest') :
    build = build' ∧ rest = rest' := by
  obtain ⟨_, gives⟩ := loaded
  obtain ⟨_, gives'⟩ := loaded'
  obtain ⟨same, final⟩ := gives_unique gives gives'
  exact ⟨same, congrArg Store.bytes final⟩

theorem Saved.loaded {build : Build} {bytes : List UInt8} (saved : Saved failedAssert build bytes)
    (old : Build) (rest : List UInt8) : Loaded failedAssert old (bytes ++ rest) build rest := by
  obtain ⟨bytes', versions, -, wrote, loads⟩ := faithful failedAssert build old [] agree_nil
  obtain rfl : bytes = bytes' := saved.unique ⟨versions, wrote []⟩
  exact ⟨versions, loads rest⟩

theorem exists_saved (failedAssert : SerializeM Unit) (build : Build) :
    ∃ saved, Saved failedAssert build saved := by
  obtain ⟨bytes, versions, -, saved, -⟩ := faithful failedAssert build {} [] agree_nil
  exact ⟨bytes, versions, saved []⟩

/-- A Build is loaded from what saving it writes, whatever the object held, and no saved form is
the beginning of another one.  Where a failed assertion stops the load, it is loaded from nothing
else, and not from a saved form whose end is missing. -/
theorem loads_only_what_is_saved (failedAssert : SerializeM Unit) :
    (∀ build, ∃ saved, (∀ bytes, Saved failedAssert build bytes ↔ bytes = saved) ∧
      ∀ old rest, Loaded failedAssert old (saved ++ rest) build rest) ∧
    (∀ build build' bytes more, Saved failedAssert build bytes →
      Saved failedAssert build' (bytes ++ more) → build = build' ∧ more = []) ∧
    (Stopping failedAssert →
      (∀ old bytes build rest, Loaded failedAssert old bytes build rest →
        ∃ saved, Saved failedAssert build saved ∧ bytes = saved ++ rest) ∧
      ∀ build front cut, Saved failedAssert build (front ++ cut) → cut ≠ [] →
        ∀ old loaded rest, ¬Loaded failedAssert old front loaded rest) := by
  refine ⟨fun build => ?_, ?_, fun stops => ⟨?_, ?_⟩⟩
  · obtain ⟨saved, wrote⟩ := exists_saved failedAssert build
    refine ⟨saved, fun bytes => ⟨fun wrote' => wrote'.unique wrote, ?_⟩, wrote.loaded⟩
    rintro rfl
    exact wrote
  · intro build build' bytes more saved saved'
    have second := saved'.loaded {} []
    rw [List.append_nil] at second
    exact (saved.loaded {} more).unique second
  · exact fun old bytes build rest => (loaded_iff stops old bytes build rest).mp
  · rintro build front cut ⟨versions, saved⟩ missing old loaded rest ⟨versions', gives⟩
    exact (exact stops old).refuses_cut (fun value _ => faithful failedAssert value old) agree_nil
      trivial missing saved loaded _ gives

/-- Nothing is loaded from no bytes at all. -/
theorem not_loaded_nil : ¬Loaded Traced.raise {} [] {} [] := by
  intro loaded
  have stops : Stopping Traced.raise := fun _ _ => Traced.not_gives_raise
  obtain ⟨saved, ⟨_, _, wrote⟩, split⟩ := ((loads_only_what_is_saved _).2.2 stops).1 _ _ _ _ loaded
  obtain ⟨rfl, -⟩ := List.append_eq_nil_iff.mp split.symm
  cases wrote

end Build

/-! ## Archives of any objects -/

/-- The objects of a type with a `CEREAL_CLASS_VERSION`. -/
def Versioned.Object : Versioned → Type
  | .application => Application
  | .build => Build
  | .buildMedia => Build.Media
  | .buildShortcut => Build.Shortcut
  | .buildConfiguration => Build.Configuration
  | .buildMediaEntry => Build.Media.Entry

def Versioned.process (failedAssert : SerializeM Unit) :
    (type : Versioned) → Serializer Versioned type.Object
  | .application => Application.process failedAssert
  | .build => Build.process failedAssert
  | .buildMedia => Build.Media.process failedAssert
  | .buildShortcut => Build.Shortcut.process failedAssert
  | .buildConfiguration => Build.Configuration.process failedAssert
  | .buildMediaEntry => Build.Media.Entry.process failedAssert

theorem Versioned.faithful (failedAssert : SerializeM Unit) (type : Versioned) :
    Faithful Versioned.classVersion (Versioned.process failedAssert type) := by
  cases type with
  | application => exact Application.faithful failedAssert
  | build => exact Build.faithful failedAssert
  | buildMedia => exact Build.Media.faithful failedAssert
  | buildShortcut => exact Build.Shortcut.faithful failedAssert
  | buildConfiguration => exact Build.Configuration.faithful failedAssert
  | buildMediaEntry => exact Build.Media.Entry.faithful failedAssert

theorem Versioned.exact (stops : Stopping failedAssert) (type : Versioned) :
    Exact Versioned.classVersion (Versioned.process failedAssert type) := by
  cases type with
  | application => exact Application.exact stops
  | build => exact Build.exact stops
  | buildMedia => exact Build.Media.exact stops
  | buildShortcut => exact Build.Shortcut.exact stops
  | buildConfiguration => exact Build.Configuration.exact stops
  | buildMediaEntry => exact Build.Media.Entry.exact stops

abbrev Objects := List (Σ type : Versioned, type.Object)

/-- A fresh output archive ends with these bytes. -/
def Objects.Saved (failedAssert : SerializeM Unit) (objects : Objects) (bytes : List UInt8) :
    Prop :=
  ∃ versions, Traced.Gives (saveObjects (Versioned.process failedAssert) objects) ⟨[], []⟩ ()
    ⟨bytes, versions⟩

/-- A fresh input archive over these bytes gives the objects, into some of any content, and
leaves the rest. -/
def Objects.Loaded (failedAssert : SerializeM Unit) (old : Objects) (bytes : List UInt8)
    (objects : Objects) (rest : List UInt8) : Prop :=
  ∃ versions, Traced.Gives (loadObjects (Versioned.process failedAssert) old) ⟨bytes, []⟩ objects
    ⟨rest, versions⟩

/-- Objects of any types, one after the other in one archive, come back in order into any objects
of their types.  Where a failed assertion stops the load, what loads is what saving the loaded
objects writes, with nothing missing at its end. -/
theorem Objects.loads_only_what_is_saved_together (failedAssert : SerializeM Unit) :
    (∀ objects, ∃ saved, (∀ bytes, Objects.Saved failedAssert objects bytes ↔ bytes = saved) ∧
      ∀ old rest, objects.map Sigma.fst = old.map Sigma.fst →
        Objects.Loaded failedAssert old (saved ++ rest) objects rest) ∧
    (Stopping failedAssert →
      (∀ old bytes objects rest, Objects.Loaded failedAssert old bytes objects rest →
        objects.map Sigma.fst = old.map Sigma.fst ∧
          ∃ saved, Objects.Saved failedAssert objects saved ∧ bytes = saved ++ rest) ∧
      ∀ old objects front cut, objects.map Sigma.fst = old.map Sigma.fst →
        Objects.Saved failedAssert objects (front ++ cut) → cut ≠ [] →
          ∀ loaded rest, ¬Objects.Loaded failedAssert old front loaded rest) := by
  have carries (old objects : Objects) :=
    carries_objects (Versioned.faithful failedAssert) objects old
  refine ⟨fun objects => ?_, fun stops => ⟨?_, ?_⟩⟩
  · obtain ⟨saved, versions, -, wrote, -⟩ := carries objects objects rfl [] agree_nil
    have unique (bytes : List UInt8) (wrote' : Objects.Saved failedAssert objects bytes) :
        bytes = saved := by
      obtain ⟨_, gives⟩ := wrote'
      exact congrArg Store.bytes (gives_unique gives (wrote [])).2
    refine ⟨saved, fun bytes => ⟨unique bytes, ?_⟩, fun old rest types => ?_⟩
    · rintro rfl
      exact ⟨versions, wrote []⟩
    · obtain ⟨again, versions', -, wroteAgain, loads⟩ := carries old objects types [] agree_nil
      obtain rfl : again = saved := unique again ⟨versions', wroteAgain []⟩
      exact ⟨versions', loads rest⟩
  · rintro old bytes objects rest ⟨versions, gives⟩
    obtain ⟨types, saved, split, wrote⟩ := ((rewrites_objects (Versioned.exact stops) old).loads_iff
      (carries old) agree_nil).mp gives
    exact ⟨types, saved, ⟨versions, wrote⟩, split⟩
  · rintro old objects front cut types ⟨versions, saved⟩ missing loaded rest ⟨versions', gives⟩
    exact (rewrites_objects (Versioned.exact stops) old).refuses_cut (carries old) agree_nil types
      missing saved loaded _ gives

theorem Objects.not_loaded_together_nil :
    ¬Objects.Loaded Traced.raise [⟨.application, ({} : Application)⟩] []
      [⟨.application, ({} : Application)⟩] [] := by
  intro loaded
  have stops : Stopping Traced.raise := fun _ _ => Traced.not_gives_raise
  obtain ⟨-, saved, ⟨_, _, wrote⟩, split⟩ :=
    ((Objects.loads_only_what_is_saved_together _).2 stops).1 _ _ _ _ loaded
  obtain ⟨rfl, -⟩ := List.append_eq_nil_iff.mp split.symm
  cases wrote

end MyappsCommon.Utility
