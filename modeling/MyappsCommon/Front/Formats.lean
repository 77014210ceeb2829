import MyappsCommon.Front.Agreement
import MyappsCommon.Front.InitMessages
import MyappsCommon.Reflection.Fields
import MyappsCommon.Utility.Adds

/-! # The formats of what the reflectors transfer

Each record that is reflected step by step has a format.  With fields for the basic types the
const reflector shows what the format writes, and decoding into a fresh record takes what the
format reads.
-/

namespace MyappsCommon

open MyappsCommon.Lib MyappsCommon.Reflection

namespace Front

/-- The steps do not look at the sizes that the format limits. -/
structure Refines {V : Type} (reflect : Reflector → V → ReflectM V) (fresh : V)
    (format : Format Field V) : Prop where
  writes : ∀ value, (∀ extent ∈ format.extents value, extent.size ≤ extent.limit) →
    format.write value = some (encode reflect value)
  reads : ∀ stream value rest, format.read.Takes stream value rest ↔
    Traced.Gives (reflect reader fresh) stream value rest ∧
      ∀ extent ∈ format.extents value, extent.size ≤ extent.limit

theorem refines_of_unlimited {V : Type} {reflect : Reflector → V → ReflectM V} {fresh : V}
    {format : Format Field V} (unlimited : ∀ value, format.extents value = [])
    (writes : ∀ value, format.write value = some (encode reflect value))
    (reads : ∀ stream value rest, format.read.Takes stream value rest ↔
      Traced.Gives (reflect reader fresh) stream value rest) :
    Refines reflect fresh format where
  writes value _ := writes value
  reads stream value rest := by simp [reads, unlimited]

/-! ## The version records -/

theorem core_takes_iff (stream : List Field) (value : Core.Version) (rest : List Field) :
    (Core.Version.adds fieldBasics).read.Takes stream value rest ↔
      Traced.Gives (Core.Version.reflect reader {}) stream value rest := by
  obtain ⟨version_, authRequest_, authResponse_, initResponse_, response_⟩ := value
  cases stream with
  | nil => simp [Core.Version.adds, Core.Version.reflect, Traced.gives_bind_iff]
  | cons first between =>
    cases first with
    | u32 first =>
      by_cases current : first = Core.Version.version
      · simp [Core.Version.adds, Core.Version.reflect, Traced.gives_bind_iff, current]
        grind
      · simp [Core.Version.adds, Core.Version.reflect, Traced.gives_bind_iff, current]
        grind
    | u64 number => simp [Core.Version.adds, Core.Version.reflect, Traced.gives_bind_iff]
    | str text => simp [Core.Version.adds, Core.Version.reflect, Traced.gives_bind_iff]

@[simp] theorem core_write (value : Core.Version) :
    (Core.Version.adds fieldBasics).write value = some value.written := by
  by_cases current : value.version_ = Core.Version.version
  · simp [Core.Version.adds, Core.Version.written, current]
  · simp [Core.Version.adds, Core.Version.written, current]

@[simp] theorem core_extents (value : Core.Version) :
    (Core.Version.adds fieldBasics).extents value = [] := by
  simp [Core.Version.adds]

theorem core_refines : Refines Core.Version.reflect {} (Core.Version.adds fieldBasics) := by
  refine refines_of_unlimited core_extents (fun value => ?_) core_takes_iff
  rw [core_write, encode_of_gives (core_writes value [])]
  rfl

theorem utility_takes_iff (stream : List Field) (value : Utility.Version) (rest : List Field) :
    (utilityVersionAdds fieldBasics).read.Takes stream value rest ↔
      Traced.Gives (Utility.Version.reflect reader {}) stream value rest := by
  obtain ⟨⟩ := value
  simp [utilityVersionAdds, Utility.Version.reflect, Traced.gives_bind_iff]

@[simp] theorem utility_write (value : Utility.Version) :
    (utilityVersionAdds fieldBasics).write value = some (utilityWritten value) := rfl

@[simp] theorem utility_extents (value : Utility.Version) :
    (utilityVersionAdds fieldBasics).extents value = [] := by
  simp [utilityVersionAdds]

theorem utility_refines :
    Refines Utility.Version.reflect {} (utilityVersionAdds fieldBasics) := by
  refine refines_of_unlimited utility_extents (fun value => ?_) utility_takes_iff
  rw [utility_write, encode_of_gives (utility_writes value [])]
  rfl

namespace InitVersion

variable (version initRequest : UInt32)

theorem takes_iff (stream : List Field) (value : InitVersion) (rest : List Field) :
    (adds fieldBasics version initRequest).read.Takes stream value rest ↔
      Traced.Gives (reflect version reader ⟨version, initRequest⟩) stream value rest := by
  obtain ⟨version_, initRequest_⟩ := value
  cases stream with
  | nil => simp [adds, reflect, Traced.gives_bind_iff]
  | cons first between =>
    cases first with
    | u32 first =>
      by_cases current : first = version
      · simp [adds, reflect, Traced.gives_bind_iff, current]
        grind
      · simp [adds, reflect, Traced.gives_bind_iff, current]
        grind
    | u64 number => simp [adds, reflect, Traced.gives_bind_iff]
    | str text => simp [adds, reflect, Traced.gives_bind_iff]

@[simp] theorem write_eq (value : InitVersion) :
    (adds fieldBasics version initRequest).write value = some (value.written version) := by
  by_cases current : value.version_ = version
  · simp [adds, written, current]
  · simp [adds, written, current]

@[simp] theorem extents_eq (value : InitVersion) :
    (adds fieldBasics version initRequest).extents value = [] := by
  simp [adds]

theorem refines :
    Refines (reflect version) ⟨version, initRequest⟩ (adds fieldBasics version initRequest) := by
  refine refines_of_unlimited (extents_eq _ _) (fun value => ?_) (takes_iff _ _)
  rw [write_eq, encode_of_gives (writes version value [])]
  rfl

end InitVersion

/-! ## The requests and the response -/

namespace Auth.InitRequest

theorem takes_iff (stream : List Field) (value : InitRequest) (rest : List Field) :
    (adds fieldBasics).read.Takes stream value rest ↔
      Traced.Gives (reflect reader {}) stream value rest := by
  obtain ⟨authVersion_, coreVersion_⟩ := value
  simp only [adds, reflect, Adds.takes_members_iff, Adds.takes_addClosure_iff, Adds.takes_add_iff,
    Adds.takes_none_iff, Version.adds, InitVersion.takes_iff, core_takes_iff, Equiv.coe_fn_mk,
    Traced.gives_bind_iff, decide_eq_true_eq, exists_eq_right]
  constructor
  · rintro ⟨between, opening, body⟩
    refine ⟨authVersion_, between, opening, ?_⟩
    by_cases known : authVersion_.initRequest_ = Version.initRequest
    · rw [if_pos known] at body ⊢
      exact Traced.gives_bind_iff.mpr ⟨_, _, body, Traced.gives_pure_iff.mpr ⟨rfl, rfl⟩⟩
    · rw [if_neg known] at body ⊢
      obtain ⟨fresh, rfl⟩ := body
      rw [(Prod.mk.inj fresh).1]
      exact Traced.gives_pure_iff.mpr ⟨rfl, rfl⟩
  · rintro ⟨received, between, opening, body⟩
    by_cases known : received.initRequest_ = Version.initRequest
    · rw [if_pos known] at body
      obtain ⟨core, left, read, done⟩ := Traced.gives_bind_iff.mp body
      obtain ⟨same, rfl⟩ := Traced.gives_pure_iff.mp done
      cases same
      exact ⟨between, opening, by rwa [if_pos known]⟩
    · rw [if_neg known] at body
      obtain ⟨same, rfl⟩ := Traced.gives_pure_iff.mp body
      cases same
      exact ⟨_, opening, by rw [if_neg known]; exact ⟨rfl, rfl⟩⟩

theorem write_eq (value : InitRequest) : (adds fieldBasics).write value = some value.written := by
  by_cases known : value.authVersion_.initRequest_ = Version.initRequest
  · simp [adds, Version.adds, written, known]
  · simp [adds, Version.adds, written, known]

theorem refines : Refines reflect {} (adds fieldBasics) := by
  refine refines_of_unlimited (fun value => ?_) (fun value => ?_) takes_iff
  · simp [adds, Version.adds]
  · rw [write_eq, encode_eq]

end Auth.InitRequest

namespace Main.InitRequest

theorem takes_iff (stream : List Field) (value : InitRequest) (rest : List Field) :
    (adds fieldBasics).read.Takes stream value rest ↔
      Traced.Gives (reflect reader {}) stream value rest := by
  obtain ⟨mainVersion_, coreVersion_, utilityVersion_⟩ := value
  simp only [adds, reflect, Adds.takes_members_iff, Adds.takes_addClosure_iff, Adds.takes_add_iff,
    Adds.takes_none_iff, Version.adds, InitVersion.takes_iff, core_takes_iff, utility_takes_iff,
    Equiv.coe_fn_mk, Traced.gives_bind_iff, decide_eq_true_eq, exists_eq_right]
  constructor
  · rintro ⟨between, opening, body⟩
    refine ⟨mainVersion_, between, opening, ?_⟩
    by_cases known : mainVersion_.initRequest_ = Version.initRequest
    · rw [if_pos known] at body ⊢
      obtain ⟨left, core, utility⟩ := body
      simp only [Traced.gives_bind_iff]
      exact ⟨_, _, core, _, _, utility, Traced.gives_pure_iff.mpr ⟨rfl, rfl⟩⟩
    · rw [if_neg known] at body ⊢
      obtain ⟨fresh, rfl⟩ := body
      obtain ⟨rfl, others⟩ := Prod.mk.inj fresh
      rw [(Prod.mk.inj others).1]
      exact Traced.gives_pure_iff.mpr ⟨rfl, rfl⟩
  · rintro ⟨received, between, opening, body⟩
    by_cases known : received.initRequest_ = Version.initRequest
    · rw [if_pos known] at body
      simp only [Traced.gives_bind_iff] at body
      obtain ⟨core, left, readCore, utility, left', readUtility, done⟩ := body
      obtain ⟨same, rfl⟩ := Traced.gives_pure_iff.mp done
      cases same
      exact ⟨between, opening, by rw [if_pos known]; exact ⟨left, readCore, readUtility⟩⟩
    · rw [if_neg known] at body
      obtain ⟨same, rfl⟩ := Traced.gives_pure_iff.mp body
      cases same
      exact ⟨_, opening, by rw [if_neg known]; exact ⟨rfl, rfl⟩⟩

theorem write_eq (value : InitRequest) : (adds fieldBasics).write value = some value.written := by
  by_cases known : value.mainVersion_.initRequest_ = Version.initRequest
  · simp [adds, Version.adds, written, known]
  · simp [adds, Version.adds, written, known]

theorem refines : Refines reflect {} (adds fieldBasics) := by
  refine refines_of_unlimited (fun value => ?_) (fun value => ?_) takes_iff
  · simp [adds, Version.adds]
  · rw [write_eq, encode_eq]

end Main.InitRequest

@[simp] theorem gives_reader_addU64_iff {old value : UInt64} {index : Nat} {name : String}
    {stream final : List Field} :
    Traced.Gives (reader.addU64 old index name) stream value final ↔
      stream = .u64 value :: final := by
  constructor
  · intro ⟨events, ran⟩
    match stream, ran with
    | [], ran => cases ran
    | .u32 number :: rest, ran => cases ran
    | .u64 first :: rest, ran =>
      rw [run_reader_addU64] at ran
      cases ran
      rfl
    | .str text :: rest, ran => cases ran
  · rintro rfl
    exact ⟨_, run_reader_addU64 old value index name final⟩

@[simp] theorem gives_reader_addStr_iff {old value : List UInt8} {index : Nat} {name : String}
    {stream final : List Field} :
    Traced.Gives (reader.addStr old index name) stream value final ↔
      stream = .str value :: final := by
  constructor
  · intro ⟨events, ran⟩
    match stream, ran with
    | [], ran => cases ran
    | .u32 number :: rest, ran => cases ran
    | .u64 number :: rest, ran => cases ran
    | .str first :: rest, ran =>
      rw [run_reader_addStr] at ran
      cases ran
      rfl
  · rintro rfl
    exact ⟨_, run_reader_addStr old value index name final⟩

namespace Core.InitResponse

/-- Without the known version in the context nothing is transferred. -/
theorem reflect_of_unknown {version : Option Core.Version} (unknown : known version = false)
    (r : Reflector) (this : InitResponse) : reflect version r this = pure this := by
  cases version with
  | none => rfl
  | some version =>
    have other : version.initResponse_ ≠ Core.Version.initResponse := by
      simpa [known] using unknown
    exact if_neg other

theorem reflect_of_known {version : Option Core.Version} (isKnown : known version = true)
    (r : Reflector) (this : InitResponse) :
    reflect version r this = do
      let error_ ← r.addU32 this.error_ 1 "error"
      let message_ ← r.addStr this.message_ 2 "message"
      return ⟨error_, message_⟩ := by
  cases version with
  | none => cases isKnown
  | some version => exact if_pos (by simpa [known] using isKnown)

theorem refines (version : Option Core.Version) :
    Refines (reflect version) {} (adds fieldBasics version) where
  writes value within := by
    cases isKnown : known version with
    | false => simp [adds, isKnown, reflect_of_unknown isKnown, encode]
    | true =>
      have short : value.message_.length ≤ 4096 := by simpa [adds, isKnown] using within
      simp [adds, isKnown, reflect_of_known isKnown, encode, short]
  reads stream value rest := by
    obtain ⟨error_, message_⟩ := value
    cases isKnown : known version with
    | false =>
      simp [adds, isKnown, reflect_of_unknown isKnown]
      grind
    | true => simp [adds, isKnown, reflect_of_known isKnown, Traced.gives_bind_iff]

end Core.InitResponse

end Front

namespace Utility.AppItemEntry

open MyappsCommon.Front

theorem gives_textOf_iff {items : List UInt8} {stream final : List Field} {value : Text} :
    Traced.Gives (textOf items) stream value final ↔ items = value.items ∧ stream = final := by
  constructor
  · intro gives
    by_cases bounded : items.length < 2 ^ 64
    · rw [textOf, dif_pos bounded] at gives
      obtain ⟨rfl, rfl⟩ := Traced.gives_pure_iff.mp gives
      exact ⟨rfl, rfl⟩
    · rw [textOf, dif_neg bounded] at gives
      exact absurd gives Traced.not_gives_raise
  · rintro ⟨rfl, rfl⟩
    rw [textOf_items]
    exact Traced.gives_pure_iff.mpr ⟨rfl, rfl⟩

theorem refines : Refines reflect {} (adds fieldBasics) where
  writes value within := by
    have short : value.name_.items.length ≤ 4096 := by simpa [adds] using within
    simp [adds, reflect, encode, textOf_items, short]
  reads stream value rest := by
    obtain ⟨name_, value_⟩ := value
    simp [adds, reflect, Traced.gives_bind_iff, gives_textOf_iff]

end Utility.AppItemEntry

namespace Front

/-- What the reflectors do step by step is what the formats say, for the records that
open a connection and for the entries of an application. -/
theorem reflectors_refine_formats :
    Refines Core.Version.reflect {} (Core.Version.adds fieldBasics) ∧
    Refines Utility.Version.reflect {} (utilityVersionAdds fieldBasics) ∧
    Refines Auth.Version.reflect Auth.Version.default (Auth.Version.adds fieldBasics) ∧
    Refines Main.Version.reflect Main.Version.default (Main.Version.adds fieldBasics) ∧
    Refines Auth.InitRequest.reflect {} (Auth.InitRequest.adds fieldBasics) ∧
    Refines Main.InitRequest.reflect {} (Main.InitRequest.adds fieldBasics) ∧
    (∀ version, Refines (Core.InitResponse.reflect version) {}
      (Core.InitResponse.adds fieldBasics version)) ∧
    Refines Utility.AppItemEntry.reflect {} (Utility.AppItemEntry.adds fieldBasics) :=
  ⟨core_refines, utility_refines, InitVersion.refines _ _, InitVersion.refines _ _,
    Auth.InitRequest.refines, Main.InitRequest.refines, Core.InitResponse.refines,
    Utility.AppItemEntry.refines⟩

end Front

end MyappsCommon
