import MyappsCommon.Front.InitMessages

/-! # What survives of the messages that open a connection

The writer leaves out the parts whose condition does not hold, and the reader has the defaults
of a fresh object there.
-/

namespace MyappsCommon.Front

open MyappsCommon.Lib MyappsCommon.Reflection

variable {σ : Type} (basics : Basics σ)

/-- What a version record says beside its version is there for the current version only. -/
@[simp] theorem Core.Version.intact_iff (this : Core.Version) :
    (adds basics).Intact this ↔
      (this.version_ ≠ version → this = { version_ := this.version_ }) := by
  obtain ⟨version_, authRequest_, authResponse_, initResponse_, response_⟩ := this
  by_cases current : version_ = version
  · simp [adds, current]
  · simp [adds, current]

@[simp] theorem InitVersion.intact_iff (version initRequest : UInt32) (this : InitVersion) :
    (adds basics version initRequest).Intact this ↔
      (this.version_ ≠ version → this.initRequest_ = initRequest) := by
  by_cases current : this.version_ = version
  · simp [adds, current]
  · simp [adds, current]

@[simp] theorem utilityVersion_intact (this : Utility.Version) :
    (utilityVersionAdds basics).Intact this := by
  simp [utilityVersionAdds]

/-- A request of the current request number has its body, whose parts survive for themselves;
of another one the body is the default. -/
theorem Auth.InitRequest.intact_iff (this : InitRequest) :
    (adds basics).Intact this ↔
      (this.authVersion_.version_ ≠ Version.version →
        this.authVersion_.initRequest_ = Version.initRequest) ∧
      if this.authVersion_.initRequest_ = Version.initRequest then
        this.coreVersion_.version_ ≠ Core.Version.version →
          this.coreVersion_ = { version_ := this.coreVersion_.version_ }
      else this.coreVersion_ = {} := by
  by_cases known : this.authVersion_.initRequest_ = Version.initRequest
  · simp [adds, Version.adds, known]
  · simp [adds, Version.adds, known]

theorem Main.InitRequest.intact_iff (this : InitRequest) :
    (adds basics).Intact this ↔
      (this.mainVersion_.version_ ≠ Version.version →
        this.mainVersion_.initRequest_ = Version.initRequest) ∧
      if this.mainVersion_.initRequest_ = Version.initRequest then
        this.coreVersion_.version_ ≠ Core.Version.version →
          this.coreVersion_ = { version_ := this.coreVersion_.version_ }
      else this.coreVersion_ = {} ∧ this.utilityVersion_ = {} := by
  by_cases known : this.mainVersion_.initRequest_ = Version.initRequest
  · simp [adds, Version.adds, known]
  · simp [adds, Version.adds, known]

theorem Core.InitResponse.intact_iff (version : Option Core.Version) (this : InitResponse) :
    (adds basics version).Intact this ↔ (known version = false → this = {}) := by
  cases isKnown : known version with
  | false => simp [adds, isKnown]
  | true => simp [adds, isKnown]

/-- A request is always written. -/
theorem Auth.InitRequest.exists_write (this : InitRequest) :
    ∃ symbols, (adds basics).write this = some symbols := by
  rw [← Option.isSome_iff_exists, (adds basics).write_isSome]
  simp [adds, Version.adds, InitVersion.adds, Core.Version.adds]

theorem Main.InitRequest.exists_write (this : InitRequest) :
    ∃ symbols, (adds basics).write this = some symbols := by
  rw [← Option.isSome_iff_exists, (adds basics).write_isSome]
  simp [adds, Version.adds, InitVersion.adds, Core.Version.adds, utilityVersionAdds]

/-- Which opening messages come back as they were, from what is written of them: those whose
versions and request numbers announce the parts that differ from the defaults. -/
theorem opening_survives_iff :
    (∀ this : Auth.InitRequest, ∃ symbols,
      (Auth.InitRequest.adds basics).write this = some symbols ∧ ∀ rest,
        ((Auth.InitRequest.adds basics).read.Takes (symbols ++ rest) this rest ↔
          (this.authVersion_.version_ ≠ Auth.Version.version →
            this.authVersion_.initRequest_ = Auth.Version.initRequest) ∧
          if this.authVersion_.initRequest_ = Auth.Version.initRequest then
            this.coreVersion_.version_ ≠ Core.Version.version →
              this.coreVersion_ = { version_ := this.coreVersion_.version_ }
          else this.coreVersion_ = {})) ∧
    (∀ this : Main.InitRequest, ∃ symbols,
      (Main.InitRequest.adds basics).write this = some symbols ∧ ∀ rest,
        ((Main.InitRequest.adds basics).read.Takes (symbols ++ rest) this rest ↔
          (this.mainVersion_.version_ ≠ Main.Version.version →
            this.mainVersion_.initRequest_ = Main.Version.initRequest) ∧
          if this.mainVersion_.initRequest_ = Main.Version.initRequest then
            this.coreVersion_.version_ ≠ Core.Version.version →
              this.coreVersion_ = { version_ := this.coreVersion_.version_ }
          else this.coreVersion_ = {} ∧ this.utilityVersion_ = {})) ∧
    ∀ (version : Option Core.Version) (this : Core.InitResponse) (symbols : List σ),
      (Core.InitResponse.adds basics version).write this = some symbols → ∀ rest,
        ((Core.InitResponse.adds basics version).read.Takes (symbols ++ rest) this rest ↔
          (Core.InitResponse.known version = false → this = {})) := by
  refine ⟨fun this => ?_, fun this => ?_, fun version this symbols written rest => ?_⟩
  · obtain ⟨symbols, written⟩ := Auth.InitRequest.exists_write basics this
    refine ⟨symbols, written, fun rest => ?_⟩
    rw [Format.takes_written_iff written, Auth.InitRequest.intact_iff]
  · obtain ⟨symbols, written⟩ := Main.InitRequest.exists_write basics this
    refine ⟨symbols, written, fun rest => ?_⟩
    rw [Format.takes_written_iff written, Main.InitRequest.intact_iff]
  · rw [Format.takes_written_iff written, Core.InitResponse.intact_iff]

end MyappsCommon.Front
