import MyappsCommon.Reflection
import MyappsCommon.Lib.Gate

/-! # The version record that opens a front protocol

`auth::Version` and `main::Version` are the same record with the same functions,
each with constants of its own.  This is the common definition, with the
constants as parameters.
-/

namespace MyappsCommon.Front

open MyappsCommon.Lib MyappsCommon.Reflection

structure InitVersion where
  version_ : UInt32
  initRequest_ : UInt32
  deriving DecidableEq, Repr

namespace InitVersion

/-- `std::numeric_limits<uint32_t>::max()` -/
def maxU32 : UInt32 := 4294967295

def clear (this : InitVersion) : InitVersion := { this with initRequest_ := maxU32 }

def le (this that : InitVersion) : Bool :=
  decide (this.version_ ≤ that.version_) && decide (this.initRequest_ ≤ that.initRequest_)

/-- `version` is the class constant. -/
def reflect (version : UInt32) (r : Reflector) (this : InitVersion) : ReflectM InitVersion := do
  let version_ ← r.addU32 this.version_ 1 "version"
  let this := { this with version_ := version_ }
  -- `_rthis.version` is the class constant, reached through the object
  if !r.isConstReflector && decide (version > version) then
    return this.clear
  if this.version_ = version then
    let initRequest_ ← r.addU32 this.initRequest_ 3 "init_request"
    return { this with initRequest_ := initRequest_ }
  return this

inductive Component where
  | version | initRequest
  deriving DecidableEq, Repr

def component (this : InitVersion) : Component → UInt32
  | .version => this.version_
  | .initRequest => this.initRequest_

theorem exactAt (peer localValue : InitVersion) :
    Gate.ExactAt component le peer localValue := by
  simp only [Gate.ExactAt, le, Bool.and_eq_true, decide_eq_true_eq]
  constructor
  · rintro ⟨versions, requests⟩ name
    cases name with
    | version => exact versions
    | initRequest => exact requests
  · intro atMost
    exact ⟨atMost .version, atMost .initRequest⟩

/-- The direction test compares the constant with itself, so a version that is not the
constant is taken over without its other component, and without `clear`. -/
theorem run_reflect_reader_of_ne {version first : UInt32} (newer : first ≠ version)
    (this : InitVersion) (rest : List Field) :
    (reflect version reader this).run (.u32 first :: rest) =
      ⟨.ok { this with version_ := first }, rest, [⟨1, "version"⟩]⟩ := by
  simp [reflect, newer, Result.prepend]

end InitVersion

end MyappsCommon.Front
