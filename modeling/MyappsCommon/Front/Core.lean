import MyappsCommon.Reflection
import MyappsCommon.Lib.Gate

/-! # `front::core` -/

namespace MyappsCommon.Front.Core

open MyappsCommon.Lib MyappsCommon.Reflection

namespace Version

def version : UInt32 := 1
def authRequest : UInt32 := 1
def authResponse : UInt32 := 1
def initResponse : UInt32 := 1
def response : UInt32 := 1

end Version

structure Version where
  version_ : UInt32 := Version.version
  authRequest_ : UInt32 := Version.authRequest
  authResponse_ : UInt32 := Version.authResponse
  initResponse_ : UInt32 := Version.initResponse
  response_ : UInt32 := Version.response
  deriving DecidableEq, Repr

namespace Version

/-- `initResponse_` keeps its value. -/
def clear (this : Version) : Version :=
  { this with authRequest_ := -1, authResponse_ := -1, response_ := -1 }

/-- `operator<=`.  The first operand of the second comparison is the class constant. -/
def le (this that : Version) : Bool :=
  decide (this.version_ ≤ that.version_) && decide (authRequest ≤ that.authRequest_) &&
  decide (this.authResponse_ ≤ that.authResponse_) &&
  decide (this.initResponse_ ≤ that.initResponse_) && decide (this.response_ ≤ that.response_)

def reflect (r : Reflector) (this : Version) : ReflectM Version := do
  let version_ ← r.addU32 this.version_ 1 "version"
  let this := { this with version_ := version_ }
  -- `_rthis.version` is the class constant, reached through the object
  if !r.isConstReflector && decide (version > version) then
    return this.clear
  if this.version_ = version then
    let authRequest_ ← r.addU32 this.authRequest_ 3 "auth_request"
    let authResponse_ ← r.addU32 this.authResponse_ 4 "auth_response"
    let initResponse_ ← r.addU32 this.initResponse_ 5 "init_response"
    let response_ ← r.addU32 this.response_ 6 "response"
    return ⟨this.version_, authRequest_, authResponse_, initResponse_, response_⟩
  return this

/-! ## The product order of the five components -/

inductive Component where
  | version | authRequest | authResponse | initResponse | response
  deriving DecidableEq, Repr

def component (this : Version) : Component → UInt32
  | .version => this.version_
  | .authRequest => this.authRequest_
  | .authResponse => this.authResponse_
  | .initResponse => this.initResponse_
  | .response => this.response_

/-- The four components that `operator<=` takes from both objects are at most those
of `that`. -/
def RestAtMost (this that : Version) : Prop :=
  ∀ name, name ≠ .authRequest → this.component name ≤ that.component name

theorem atMost_iff (this that : Version) :
    Gate.AtMost component this that ↔
      this.authRequest_ ≤ that.authRequest_ ∧ this.RestAtMost that := by
  constructor
  · intro atMost
    exact ⟨atMost .authRequest, fun name _ => atMost name⟩
  · rintro ⟨requests, rest⟩ name
    by_cases isRequest : name = .authRequest
    · exact isRequest ▸ requests
    · exact rest name isRequest

/-- What `operator<=` computes: its own `authRequest_` never takes part. -/
theorem le_iff (this that : Version) :
    this.le that = true ↔ authRequest ≤ that.authRequest_ ∧ this.RestAtMost that := by
  simp only [le, Bool.and_eq_true, decide_eq_true_eq]
  constructor
  · rintro ⟨⟨⟨⟨versions, requests⟩, responses⟩, initResponses⟩, plainResponses⟩
    refine ⟨requests, fun name notRequest => ?_⟩
    cases name <;> first | exact absurd rfl notRequest | assumption
  · rintro ⟨requests, rest⟩
    exact ⟨⟨⟨⟨rest .version nofun, requests⟩, rest .authResponse nofun⟩,
      rest .initResponse nofun⟩, rest .response nofun⟩

theorem exactAt_iff (peer localValue : Version) :
    Gate.ExactAt component le peer localValue ↔
      (peer.RestAtMost localValue →
        (authRequest ≤ localValue.authRequest_ ↔
          peer.authRequest_ ≤ localValue.authRequest_)) := by
  rw [Gate.ExactAt, le_iff, atMost_iff]
  tauto

/-- Lowering the peer or raising the local value keeps an acceptance, in spite of the
constant: the raised value is still at least the constant. -/
theorem le_monotone (peer localValue lowered raised : Version)
    (below : Gate.AtMost component lowered peer)
    (above : Gate.AtMost component localValue raised)
    (accepted : peer.le localValue = true) : lowered.le raised = true := by
  rw [le_iff] at accepted ⊢
  obtain ⟨requests, rest⟩ := accepted
  refine ⟨UInt32.le_trans requests (above .authRequest), fun name notRequest => ?_⟩
  exact UInt32.le_trans (below name) (UInt32.le_trans (rest name notRequest) (above name))

end Version

/-! ## Responses -/

structure InitResponse where
  error_ : UInt32 := -1
  message_ : List UInt8 := []
  deriving DecidableEq, Repr

/-- `version` is the `Version` that `_rctx.any()` holds, if it holds one. -/
def InitResponse.reflect (version : Option Version) (r : Reflector) (this : InitResponse) :
    ReflectM InitResponse := do
  match version with
  | none => return this
  | some version =>
    if version.initResponse_ = Version.initResponse then
      let error_ ← r.addU32 this.error_ 1 "error"
      let message_ ← r.addStr this.message_ 2 "message"
      return ⟨error_, message_⟩
    else
      return this

end MyappsCommon.Front.Core
