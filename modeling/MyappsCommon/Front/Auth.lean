import MyappsCommon.Front.Core
import MyappsCommon.Front.InitVersion

/-! # `front::auth` -/

namespace MyappsCommon.Front.Auth

open MyappsCommon.Lib MyappsCommon.Reflection

namespace Version

def version : UInt32 := 1
def initRequest : UInt32 := 1

end Version

abbrev Version := InitVersion

namespace Version

def default : Version := ⟨version, initRequest⟩

def clear (this : Version) : Version := InitVersion.clear this

def le (this that : Version) : Bool := InitVersion.le this that

def reflect (r : Reflector) (this : Version) : ReflectM Version :=
  InitVersion.reflect version r this

end Version

structure InitRequest where
  authVersion_ : Version := Version.default
  coreVersion_ : Core.Version := {}
  deriving DecidableEq, Repr

def InitRequest.reflect (r : Reflector) (this : InitRequest) : ReflectM InitRequest := do
  let authVersion_ ← Version.reflect r this.authVersion_
  if authVersion_.initRequest_ = Version.initRequest then
    let coreVersion_ ← Core.Version.reflect r this.coreVersion_
    return ⟨authVersion_, coreVersion_⟩
  return { this with authVersion_ := authVersion_ }

end MyappsCommon.Front.Auth
