import MyappsCommon.Front.Auth
import MyappsCommon.Front.Main
import MyappsCommon.Reflection.Adds

/-! # The messages that open a connection

Parts of these are transferred only under a condition: on a field that comes before, or on
the context of the connection.
-/

namespace MyappsCommon.Front

open MyappsCommon.Lib MyappsCommon.Reflection

variable {σ : Type}

namespace Core

/-- The closure compares the class constant with itself before it looks at `version_`. -/
def Version.adds (basics : Basics σ) : Adds σ Version :=
  .members
    ⟨fun this => (this.version_, this.authRequest_, this.authResponse_, this.initResponse_,
        this.response_, ()),
      fun (version_, authRequest_, authResponse_, initResponse_, response_, ()) =>
        ⟨version_, authRequest_, authResponse_, initResponse_, response_⟩,
      fun _ => rfl, fun _ => rfl⟩ <|
  .addClosure 1 "version" basics.u32 (fun version_ => decide (version_ = Version.version))
    (.add 3 "auth_request" basics.u32 <|
      .add 4 "auth_response" basics.u32 <|
      .add 5 "init_response" basics.u32 <|
      .add 6 "response" basics.u32 .none)
    (Version.authRequest, Version.authResponse, Version.initResponse, Version.response, ())

/-- The context of the connection holds a version, and it is the known one. -/
def InitResponse.known (version : Option Version) : Bool :=
  version.any fun version => version.initResponse_ = Version.initResponse

def InitResponse.adds (basics : Basics σ) (version : Option Version) : Adds σ InitResponse :=
  .when (InitResponse.known version)
    (.members
      ⟨fun this => (this.error_, this.message_, ()),
        fun (error_, message_, ()) => ⟨error_, message_⟩, fun _ => rfl, fun _ => rfl⟩ <|
    .add 1 "error" basics.u32 <|
    .add 2 "message" basics.characters .none)
    {}

end Core

def InitVersion.adds (basics : Basics σ) (version initRequest : UInt32) : Adds σ InitVersion :=
  .members
    ⟨fun this => (this.version_, this.initRequest_, ()),
      fun (version_, initRequest_, ()) => ⟨version_, initRequest_⟩, fun _ => rfl, fun _ => rfl⟩ <|
  .addClosure 1 "version" basics.u32 (fun version_ => decide (version_ = version))
    (.add 3 "init_request" basics.u32 .none) (initRequest, ())

namespace Auth

def Version.adds (basics : Basics σ) : Adds σ Version :=
  InitVersion.adds basics Version.version Version.initRequest

def InitRequest.adds (basics : Basics σ) : Adds σ InitRequest :=
  .members
    ⟨fun this => (this.authVersion_, this.coreVersion_, ()),
      fun (authVersion_, coreVersion_, ()) => ⟨authVersion_, coreVersion_⟩,
      fun _ => rfl, fun _ => rfl⟩ <|
  .addClosure 1 "auth_version" (Version.adds basics)
    (fun authVersion_ => decide (authVersion_.initRequest_ = Version.initRequest))
    (.add 3 "core_version" (Core.Version.adds basics) .none) ({}, ())

end Auth

/-- Nothing depends on the version that comes first. -/
def utilityVersionAdds (basics : Basics σ) : Adds σ Utility.Version :=
  .members
    ⟨fun this => (this.version_, this.application_, this.build_, this.buildShortcut_,
        this.buildMedia_, this.buildMediaEntry_, this.buildConfiguration_, this.listStoreNode_,
        this.applicationListItem_, this.appItemEntry_, ()),
      fun (version_, application_, build_, buildShortcut_, buildMedia_, buildMediaEntry_,
          buildConfiguration_, listStoreNode_, applicationListItem_, appItemEntry_, ()) =>
        ⟨version_, application_, build_, buildShortcut_, buildMedia_, buildMediaEntry_,
          buildConfiguration_, listStoreNode_, applicationListItem_, appItemEntry_⟩,
      fun _ => rfl, fun _ => rfl⟩ <|
  .add 1 "version" basics.u32 <|
  .add 3 "application" basics.u32 <|
  .add 4 "build" basics.u32 <|
  .add 5 "build_shortcut" basics.u32 <|
  .add 6 "build_media" basics.u32 <|
  .add 7 "build_media_entry" basics.u32 <|
  .add 8 "build_configuration" basics.u32 <|
  .add 9 "list_store_node" basics.u32 <|
  .add 10 "application_list_item" basics.u32 <|
  .add 11 "app_item_entry" basics.u32 .none

namespace Main

def Version.adds (basics : Basics σ) : Adds σ Version :=
  InitVersion.adds basics Version.version Version.initRequest

def InitRequest.adds (basics : Basics σ) : Adds σ InitRequest :=
  .members
    ⟨fun this => (this.mainVersion_, this.coreVersion_, this.utilityVersion_, ()),
      fun (mainVersion_, coreVersion_, utilityVersion_, ()) =>
        ⟨mainVersion_, coreVersion_, utilityVersion_⟩,
      fun _ => rfl, fun _ => rfl⟩ <|
  .addClosure 1 "main_version" (Version.adds basics)
    (fun mainVersion_ => decide (mainVersion_.initRequest_ = Version.initRequest))
    (.add 3 "core_version" (Core.Version.adds basics) <|
      .add 4 "utility_version" (utilityVersionAdds basics) .none) ({}, {}, ())

end Main

end MyappsCommon.Front
