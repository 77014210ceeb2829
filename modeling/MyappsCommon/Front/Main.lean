import MyappsCommon.Front.Core
import MyappsCommon.Front.InitVersion
import MyappsCommon.Utility.Version

/-! # `front::main` -/

namespace MyappsCommon.Front.Main

open MyappsCommon.Lib MyappsCommon.Reflection

namespace Version

def version : UInt32 := 1
def initRequest : UInt32 := 1

end Version

abbrev Version := InitVersion

namespace Version

def default : Version := ⟨version, initRequest⟩

def clear (this : Version) : Version := InitVersion.clear this

def le (this that : Version) : Bool := InitVersion.le this that

def reflect (r : Reflector) (this : Version) : ReflectM Version :=
  InitVersion.reflect version r this

end Version

structure InitRequest where
  mainVersion_ : Version := Version.default
  coreVersion_ : Core.Version := {}
  utilityVersion_ : Utility.Version := {}
  deriving DecidableEq, Repr

def InitRequest.reflect (r : Reflector) (this : InitRequest) : ReflectM InitRequest := do
  let mainVersion_ ← Version.reflect r this.mainVersion_
  if mainVersion_.initRequest_ = Version.initRequest then
    let coreVersion_ ← Core.Version.reflect r this.coreVersion_
    let utilityVersion_ ← Utility.Version.reflect r this.utilityVersion_
    return ⟨mainVersion_, coreVersion_, utilityVersion_⟩
  return { this with mainVersion_ := mainVersion_ }

end MyappsCommon.Front.Main
