import MyappsCommon.Front.Auth
import MyappsCommon.Front.Main

/-! # What a cleared version supports

`clear` raises the components to the maximum, which no gate takes for a known number.  The
one of `core` leaves out a component that a gate looks at.
-/

namespace MyappsCommon.Front

open MyappsCommon.Lib MyappsCommon.Reflection

/-- Reflecting the request accesses the fields of its opening record, and no others. -/
def OpeningOnly {Request : Type} (opening : ReflectM InitVersion) (request : ReflectM Request)
    (stream : List Field) : Prop :=
  (request.run stream).trace = (opening.run stream).trace ∧
    (request.run stream).state = (opening.run stream).state

/-- The largest 32-bit number is above all components. -/
def BelowMax {V ι : Type} (component : V → ι → UInt32) (value : V) : Prop :=
  ∀ name, component value name < InitVersion.maxU32

/-- What is owed by the four values when `clear` has been called on them: for `auth` and `main`
a writer that holds the cleared record, or a reader that has come to it, goes on to no other
version. -/
structure SupportNothing (core : Core.Version) (auth : Auth.Version) (main : Main.Version)
    (utility : Utility.Version) : Prop where
  authWriter : ∀ coreVersion_ stream,
    OpeningOnly (Auth.Version.reflect writer auth.clear)
      (Auth.InitRequest.reflect writer ⟨auth.clear, coreVersion_⟩) stream
  authReader : ∀ request stream,
    ((Auth.Version.reflect reader request.authVersion_).run stream).outcome = .ok auth.clear →
      OpeningOnly (Auth.Version.reflect reader request.authVersion_)
        (Auth.InitRequest.reflect reader request) stream
  mainWriter : ∀ coreVersion_ utilityVersion_ stream,
    OpeningOnly (Main.Version.reflect writer main.clear)
      (Main.InitRequest.reflect writer ⟨main.clear, coreVersion_, utilityVersion_⟩) stream
  mainReader : ∀ request stream,
    ((Main.Version.reflect reader request.mainVersion_).run stream).outcome = .ok main.clear →
      OpeningOnly (Main.Version.reflect reader request.mainVersion_)
        (Main.InitRequest.reflect reader request) stream
  response : ∀ r response stream,
    ((Core.InitResponse.reflect (some core.clear) r response).run stream).trace = []
  coreRefused : ∀ localValue, BelowMax Core.Version.component localValue →
    core.clear.le localValue = false
  authRefused : ∀ localValue, BelowMax InitVersion.component localValue →
    Auth.Version.le auth.clear localValue = false
  mainRefused : ∀ localValue, BelowMax InitVersion.component localValue →
    Main.Version.le main.clear localValue = false
  utilityRefused : ∀ localValue, BelowMax Utility.Version.component localValue →
    utility.clear.le localValue = false

/-! ## Requests -/

/-- The second half of a request is a function of the opening record, so that a record for
which it is empty leaves the opening record's run as it is. -/
theorem openingOnly_of_stops {Request : Type} {opening : ReflectM InitVersion}
    {next : InitVersion → ReflectM Request} {stream : List Field} {value : InitVersion}
    {request : Request} (opens : (opening.run stream).outcome = .ok value)
    (stops : next value = pure request) : OpeningOnly opening (opening >>= next) stream := by
  obtain ⟨state, trace, ran⟩ := Result.eq_of_outcome opens
  simp [OpeningOnly, ran, stops]

/-- The maximum is not the number of a message. -/
theorem clear_initRequest_ne (value : InitVersion) : value.clear.initRequest_ ≠ 1 :=
  fun same => absurd (show InitVersion.maxU32 = 1 from same) (by decide)

theorem auth_openingOnly {r : Reflector} {request : Auth.InitRequest} {auth : Auth.Version}
    {stream : List Field}
    (cleared : ((Auth.Version.reflect r request.authVersion_).run stream).outcome =
      .ok auth.clear) :
    OpeningOnly (Auth.Version.reflect r request.authVersion_)
      (Auth.InitRequest.reflect r request) stream :=
  openingOnly_of_stops cleared (if_neg (clear_initRequest_ne auth))

theorem main_openingOnly {r : Reflector} {request : Main.InitRequest} {main : Main.Version}
    {stream : List Field}
    (cleared : ((Main.Version.reflect r request.mainVersion_).run stream).outcome =
      .ok main.clear) :
    OpeningOnly (Main.Version.reflect r request.mainVersion_)
      (Main.InitRequest.reflect r request) stream :=
  openingOnly_of_stops cleared (if_neg (clear_initRequest_ne main))

/-- A writer does not change the record it describes. -/
theorem reflect_writer_outcome (version : UInt32) (value : InitVersion) (stream : List Field) :
    ((InitVersion.reflect version writer value).run stream).outcome = .ok value := by
  obtain ⟨first, request⟩ := value
  by_cases known : first = version <;> simp [InitVersion.reflect, known, Result.prepend]

/-! ## Comparisons -/

/-- A component at the maximum is above all components of the other value. -/
theorem not_atMost_of_max {V ι : Type} {component : V → ι → UInt32} {value localValue : V}
    {name : ι} (max : component value name = InitVersion.maxU32)
    (below : BelowMax component localValue) :
    ¬ component value name ≤ component localValue name := by
  rw [max, UInt32.not_le]
  exact below name

theorem clear_refused (value : InitVersion) {localValue : InitVersion}
    (below : BelowMax InitVersion.component localValue) :
    value.clear.le localValue = false :=
  Gate.refuses_of_exactAt (InitVersion.exactAt _ _)
    ⟨.initRequest, not_atMost_of_max rfl below⟩

/-- The response component is among those that `clear` of `core::Version` does raise. -/
theorem core_clear_refused (value : Core.Version) {localValue : Core.Version}
    (below : BelowMax Core.Version.component localValue) :
    value.clear.le localValue = false := by
  rw [← Bool.not_eq_true, Core.Version.le_iff]
  rintro ⟨-, rest⟩
  have responses := rest .response Core.Version.Component.noConfusion
  exact not_atMost_of_max rfl below responses

theorem utility_clear_refused (value : Utility.Version) {localValue : Utility.Version}
    (below : BelowMax Utility.Version.component localValue) :
    value.clear.le localValue = false := by
  rw [← Bool.not_eq_true, Utility.Version.le_iff]
  rintro ⟨-, rest⟩
  have builds := rest .build Utility.Version.Component.noConfusion
  exact not_atMost_of_max rfl below builds

/-! ## The response -/

/-- A response under a `core::Version` accesses its fields exactly when the version's
`initResponse_` is the known number. -/
theorem initResponse_silent_iff (version : Core.Version) :
    (∀ r response stream,
      ((Core.InitResponse.reflect (some version) r response).run stream).trace = []) ↔
      version.initResponse_ ≠ Core.Version.initResponse := by
  constructor
  · intro silent known
    have nothing := silent writer {} []
    simp [Core.InitResponse.reflect, known] at nothing
  · intro unknown r response stream
    simp [Core.InitResponse.reflect, unknown]

/-! ## What is owed -/

/-- The cleared values support nothing exactly when the `core::Version` did not support the
init response to begin with. -/
theorem cleared_supports_nothing_iff (core : Core.Version) (auth : Auth.Version)
    (main : Main.Version) (utility : Utility.Version) :
    SupportNothing core auth main utility ↔
      core.initResponse_ ≠ Core.Version.initResponse := by
  constructor
  · intro support
    exact (initResponse_silent_iff core.clear).mp support.response
  · intro unknown
    constructor
    case authWriter =>
      intro coreVersion_ stream
      exact auth_openingOnly (reflect_writer_outcome _ _ _)
    case authReader =>
      intro request stream cleared
      exact auth_openingOnly cleared
    case mainWriter =>
      intro coreVersion_ utilityVersion_ stream
      exact main_openingOnly (reflect_writer_outcome _ _ _)
    case mainReader =>
      intro request stream cleared
      exact main_openingOnly cleared
    case response => exact (initResponse_silent_iff core.clear).mpr unknown
    case coreRefused => exact fun _ => core_clear_refused core
    case authRefused => exact fun _ => clear_refused auth
    case mainRefused => exact fun _ => clear_refused main
    case utilityRefused => exact fun _ => utility_clear_refused utility

/-- A default `core::Version` is cleared, and an `InitResponse` under it still transfers
both of its fields. -/
theorem cleared_core_transfers :
    ((Core.InitResponse.reflect (some (Core.Version.clear {})) writer {}).run []).trace =
        [⟨1, "error"⟩, ⟨2, "message"⟩] ∧
      ¬ SupportNothing {} Auth.Version.default Main.Version.default {} := by
  refine ⟨rfl, fun support => ?_⟩
  have nothing := support.response writer {} []
  exact absurd nothing (by decide)

end MyappsCommon.Front
