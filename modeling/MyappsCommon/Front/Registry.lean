import Mathlib.Data.List.Nodup
import MyappsCommon.Front.AuthMessages
import MyappsCommon.Front.InitMessages
import MyappsCommon.Front.MainMessages
import MyappsCommon.Lib.Receiver

/-! # The registered messages

`configure_protocol` gives every message type of a protocol its type id.  A connection uses
the messages of the protocols that it has been configured with.
-/

namespace MyappsCommon.Front

open MyappsCommon.Lib MyappsCommon.Reflection

variable {σ : Type}

/-- `_rreg(type_id, name, TypeToType<Message>())` -/
structure Registration (σ : Type) where
  typeId : UInt8 × UInt16
  name : String
  Message : Type
  adds : Adds σ Message

namespace Core

def protocolId : UInt8 := 0

def configureProtocol (basics : Basics σ) (version : Option Version) : List (Registration σ) :=
  [⟨(protocolId, 1), "InitResponse", InitResponse, InitResponse.adds basics version⟩,
    ⟨(protocolId, 2), "AuthRequest", AuthRequest, AuthRequest.adds basics⟩,
    ⟨(protocolId, 3), "AuthResponse", AuthResponse, AuthResponse.adds basics⟩,
    ⟨(protocolId, 4), "Response", Response, Response.adds basics⟩]

end Core

namespace Auth

def protocolId : UInt8 := 1

def configureProtocol (basics : Basics σ) : List (Registration σ) :=
  [⟨(protocolId, 1), "InitRequest", InitRequest, InitRequest.adds basics⟩,
    ⟨(protocolId, 2), "CreateRequest", CreateRequest, CreateRequest.adds basics⟩,
    ⟨(protocolId, 3), "ValidateRequest", ValidateRequest, ValidateRequest.adds basics⟩,
    ⟨(protocolId, 4), "AmendRequest", AmendRequest, AmendRequest.adds basics⟩,
    ⟨(protocolId, 5), "FetchRequest", FetchRequest, FetchRequest.adds⟩,
    ⟨(protocolId, 6), "FetchResponse", FetchResponse, FetchResponse.adds basics⟩,
    ⟨(protocolId, 7), "ResetRequest", ResetRequest, ResetRequest.adds basics⟩,
    ⟨(protocolId, 8), "CaptchaRequest", CaptchaRequest, CaptchaRequest.adds⟩,
    ⟨(protocolId, 9), "CaptchaResponse", CaptchaResponse, CaptchaResponse.adds basics⟩,
    ⟨(protocolId, 10), "DeleteRequest", DeleteRequest, DeleteRequest.adds basics⟩]

end Auth

namespace Main

def protocolId : UInt8 := 2

def configureProtocol (basics : Basics σ) : List (Registration σ) :=
  [⟨(protocolId, 1), "InitRequest", InitRequest, InitRequest.adds basics⟩,
    ⟨(protocolId, 2), "ListOSesRequest", ListOSesRequest, ListOSesRequest.adds⟩,
    ⟨(protocolId, 3), "ListOSesResponse", ListOSesResponse, ListOSesResponse.adds basics⟩,
    ⟨(protocolId, 4), "ListAppsRequest", ListAppsRequest, ListAppsRequest.adds basics⟩,
    ⟨(protocolId, 5), "ListAppsResponse", ListAppsResponse, ListAppsResponse.adds basics⟩,
    ⟨(protocolId, 6), "ListStoreRequest", ListStoreRequest, ListStoreRequest.adds basics⟩,
    ⟨(protocolId, 7), "ListStoreResponse", ListStoreResponse, ListStoreResponse.adds basics⟩,
    ⟨(protocolId, 8), "FetchStoreRequest", FetchStoreRequest, FetchStoreRequest.adds basics⟩,
    ⟨(protocolId, 9), "FetchStoreResponse", FetchStoreResponse, FetchStoreResponse.adds basics⟩,
    ⟨(protocolId, 10), "CreateBuildRequest", CreateBuildRequest, CreateBuildRequest.adds basics⟩,
    ⟨(protocolId, 11), "CreateMediaRequest", CreateMediaRequest, CreateMediaRequest.adds basics⟩,
    ⟨(protocolId, 12), "UploadRequest", UploadRequest, UploadRequest.adds basics⟩,
    ⟨(protocolId, 13), "FetchAppRequest", FetchAppRequest, FetchAppRequest.adds basics⟩,
    ⟨(protocolId, 14), "FetchAppResponse", FetchAppResponse, FetchAppResponse.adds basics⟩,
    ⟨(protocolId, 15), "ChangeAppItemStateRequest", ChangeAppItemStateRequest,
      ChangeAppItemStateRequest.adds basics⟩,
    ⟨(protocolId, 16), "FetchBuildRequest", FetchBuildRequest, FetchBuildRequest.adds basics⟩,
    ⟨(protocolId, 17), "FetchBuildResponse", FetchBuildResponse, FetchBuildResponse.adds basics⟩,
    ⟨(protocolId, 18), "FetchBuildConfigurationRequest", FetchBuildConfigurationRequest,
      FetchBuildConfigurationRequest.adds basics⟩,
    ⟨(protocolId, 19), "FetchBuildConfigurationResponse", FetchBuildConfigurationResponse,
      FetchBuildConfigurationResponse.adds basics⟩,
    ⟨(protocolId, 20), "FetchBuildUpdatesRequest", FetchBuildUpdatesRequest,
      FetchBuildUpdatesRequest.adds basics⟩,
    ⟨(protocolId, 21), "FetchBuildUpdatesResponse", FetchBuildUpdatesResponse,
      FetchBuildUpdatesResponse.adds basics⟩,
    ⟨(protocolId, 22), "CreateAppRequest", CreateAppRequest, CreateAppRequest.adds basics⟩,
    ⟨(protocolId, 23), "AcquireAppRequest", AcquireAppRequest, AcquireAppRequest.adds basics⟩]

end Main

inductive Protocol where
  | core | auth | main
  deriving DecidableEq, Repr

namespace Protocol

def id : Protocol → UInt8
  | core => Core.protocolId
  | auth => Auth.protocolId
  | main => Main.protocolId

def configure (basics : Basics σ) (version : Option Core.Version) : Protocol →
    List (Registration σ)
  | core => Core.configureProtocol basics version
  | auth => Auth.configureProtocol basics
  | main => Main.configureProtocol basics

/-- The numbers that a protocol gives out, in the order of registration. -/
def numbers : Protocol → List UInt16
  | core => [1, 2, 3, 4]
  | auth => [1, 2, 3, 4, 5, 6, 7, 8, 9, 10]
  | main => [1, 2, 3, 4, 5, 6, 7, 8, 9, 10, 11, 12, 13, 14, 15, 16, 17, 18, 19, 20, 21, 22, 23]

theorem typeIds (basics : Basics σ) (version : Option Core.Version) (protocol : Protocol) :
    (protocol.configure basics version).map Registration.typeId =
      protocol.numbers.map fun number => (protocol.id, number) := by
  cases protocol <;> rfl

theorem numbers_nodup (protocol : Protocol) : protocol.numbers.Nodup := by
  cases protocol <;> decide

theorem id_injective : Function.Injective id := by
  intro first second same
  cases first <;> cases second <;> first | rfl | cases same

end Protocol

/-- The protocols that a connection has been configured with, and the version in its context. -/
structure Connection (σ : Type) where
  basics : Basics σ
  version : Option Core.Version
  protocols : List Protocol
  once : protocols.Nodup

namespace Connection

def registrations (connection : Connection σ) : List (Registration σ) :=
  connection.protocols.flatMap (Protocol.configure connection.basics connection.version)

theorem typeIds_nodup (connection : Connection σ) :
    (connection.registrations.map Registration.typeId).Nodup := by
  simp only [registrations, List.map_flatMap, Protocol.typeIds, List.nodup_flatMap]
  constructor
  · intro protocol _
    exact protocol.numbers_nodup.map fun _ _ same => (Prod.mk.inj same).2
  · refine connection.once.imp fun {first second} differ typeId ofFirst ofSecond => ?_
    -- ids of two protocols differ in the protocol
    obtain ⟨_, -, rfl⟩ := List.mem_map.mp ofFirst
    obtain ⟨_, -, same⟩ := List.mem_map.mp ofSecond
    exact differ (Protocol.id_injective (Prod.mk.inj same).1.symm)

/-- The type id of the registration at a place. -/
def typeId (connection : Connection σ) (place : Fin connection.registrations.length) :
    UInt8 × UInt16 :=
  (connection.registrations.get place).typeId

theorem typeId_injective (connection : Connection σ) : Function.Injective connection.typeId := by
  intro first second same
  have distinct := List.pairwise_iff_getElem.mp (List.pairwise_map.mp connection.typeIds_nodup)
  rcases Nat.lt_trichotomy first.1 second.1 with before | here | after
  · exact absurd same (distinct _ _ first.2 second.2 before)
  · exact Fin.ext here
  · exact absurd same.symm (distinct _ _ second.2 first.2 after)

/-- A message of one of the registered types. -/
abbrev Message (connection : Connection σ) : Type :=
  (place : Fin connection.registrations.length) × (connection.registrations.get place).Message

/-- The type id, and then what the message shows of itself. -/
def format (connection : Connection σ) : Format σ connection.Message :=
  connection.basics.typeId.tagged connection.typeId_injective fun place =>
    (connection.registrations.get place).adds

end Connection

end MyappsCommon.Front
