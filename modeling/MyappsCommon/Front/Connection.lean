import MyappsCommon.Front.Registry
import MyappsCommon.Reflection.Fields

/-! # What a connection carries

Messages of any registered types are sent one after the other, and arrive in pieces.
-/

namespace MyappsCommon.Front

open MyappsCommon.Lib MyappsCommon.Reflection

variable {σ : Type}

/-- The messages with parts that may be left out. -/
def openingNames : List String := ["InitRequest", "InitResponse"]

namespace Protocol

theorem intact_of_notMem (basics : Basics σ) (version : Option Core.Version)
    (protocol : Protocol) :
    ∀ registration ∈ protocol.configure basics version, registration.name ∉ openingNames →
      ∀ message, registration.adds.Intact message := by
  cases protocol with
  | core =>
    simp [configure, Core.configureProtocol, openingNames, Core.AuthRequest.adds,
      Core.AuthResponse.adds, Core.Response.adds]
  | auth =>
    simp [configure, Auth.configureProtocol, openingNames, Auth.CreateRequest.adds,
      Auth.ValidateRequest.adds, Auth.AmendRequest.adds, Auth.FetchRequest.adds,
      Auth.FetchResponse.adds, Auth.ResetRequest.adds, Auth.CaptchaRequest.adds,
      Auth.CaptchaResponse.adds, Auth.DeleteRequest.adds]
  | main =>
    simp [configure, Main.configureProtocol, openingNames, Main.ListOSesRequest.adds,
      Main.ListOSesResponse.adds, Main.ListAppsRequest.adds, Main.ListAppsResponse.adds,
      Main.ListStoreRequest.adds, Main.ListStoreResponse.adds, Main.FetchStoreRequest.adds,
      Main.FetchStoreResponse.adds, Main.CreateBuildRequest.adds, Main.CreateMediaRequest.adds,
      Main.UploadRequest.adds, Main.FetchAppRequest.adds, Main.FetchAppResponse.adds,
      Main.ChangeAppItemStateRequest.adds, Main.FetchBuildRequest.adds,
      Main.FetchBuildResponse.adds, Main.FetchBuildConfigurationRequest.adds,
      Main.FetchBuildConfigurationResponse.adds, Main.FetchBuildUpdatesRequest.adds,
      Main.FetchBuildUpdatesResponse.adds, Main.CreateAppRequest.adds, Main.AcquireAppRequest.adds]

theorem canonical (basics : Basics σ) [basics.Canonical] (version : Option Core.Version)
    (protocol : Protocol) :
    ∀ registration ∈ protocol.configure basics version, registration.adds.Canonical := by
  cases protocol with
  | core =>
    simp only [configure, Core.configureProtocol, List.forall_mem_cons, Core.AuthRequest.adds,
      Core.AuthResponse.adds, Core.Response.adds, Core.InitResponse.adds]
    refine ⟨?_, ?_, ?_, ?_, nofun⟩ <;> infer_instance
  | auth =>
    simp only [configure, Auth.configureProtocol, List.forall_mem_cons, Auth.InitRequest.adds,
      Auth.Version.adds, InitVersion.adds, Core.Version.adds, Auth.CreateRequest.adds,
      Auth.ValidateRequest.adds, Auth.AmendRequest.adds, Auth.FetchRequest.adds,
      Auth.FetchResponse.adds, Auth.ResetRequest.adds, Auth.CaptchaRequest.adds,
      Auth.CaptchaResponse.adds, Auth.DeleteRequest.adds]
    refine ⟨?_, ?_, ?_, ?_, ?_, ?_, ?_, ?_, ?_, ?_, nofun⟩ <;> infer_instance
  | main =>
    simp only [configure, Main.configureProtocol, List.forall_mem_cons, Main.InitRequest.adds,
      Main.Version.adds, InitVersion.adds, Core.Version.adds, utilityVersionAdds,
      Main.ListOSesRequest.adds, Main.ListOSesResponse.adds, Main.ListAppsRequest.adds,
      Main.ListAppsResponse.adds, Main.ListStoreRequest.adds, Main.ListStoreResponse.adds,
      Main.FetchStoreRequest.adds, Main.FetchStoreResponse.adds, Main.CreateBuildRequest.adds,
      Main.CreateMediaRequest.adds, Main.UploadRequest.adds, Main.FetchAppRequest.adds,
      Main.FetchAppResponse.adds, Main.ChangeAppItemStateRequest.adds,
      Main.FetchBuildRequest.adds, Main.FetchBuildResponse.adds,
      Main.FetchBuildConfigurationRequest.adds, Main.FetchBuildConfigurationResponse.adds,
      Main.FetchBuildUpdatesRequest.adds, Main.FetchBuildUpdatesResponse.adds,
      Main.CreateAppRequest.adds, Main.AcquireAppRequest.adds]
    refine ⟨?_, ?_, ?_, ?_, ?_, ?_, ?_, ?_, ?_, ?_, ?_, ?_, ?_, ?_, ?_, ?_, ?_, ?_, ?_, ?_, ?_,
      ?_, ?_, nofun⟩ <;> infer_instance

end Protocol

namespace Connection

/-- A message is among those of its protocol. -/
theorem mem_configure (connection : Connection σ)
    (place : Fin connection.registrations.length) :
    ∃ protocol ∈ connection.protocols, connection.registrations.get place ∈
      Protocol.configure connection.basics connection.version protocol :=
  List.mem_flatMap.mp (List.get_mem connection.registrations place)

instance (connection : Connection σ) [connection.basics.Canonical] :
    connection.format.Canonical := by
  have each (place : Fin connection.registrations.length) :
      (connection.registrations.get place).adds.Canonical := by
    obtain ⟨protocol, -, member⟩ := connection.mem_configure place
    exact Protocol.canonical _ _ protocol _ member
  exact inferInstanceAs (Format.tagged ..).Canonical

theorem advances (connection : Connection σ) : connection.format.Advances :=
  connection.basics.typeId_advances.tagged

/-- What has been left out of an opening message is as its reader assumes it. -/
def Faithful (connection : Connection σ) (message : connection.Message) : Prop :=
  (connection.registrations.get message.1).name ∈ openingNames →
    (connection.registrations.get message.1).adds.Intact message.2

/-- Every size in a message is within its limit. -/
def Within (connection : Connection σ) (message : connection.Message) : Prop :=
  ∀ extent ∈ (connection.registrations.get message.1).adds.extents message.2,
    extent.size ≤ extent.limit

theorem intact_iff (connection : Connection σ) (message : connection.Message) :
    connection.format.Intact message ↔ connection.Faithful message := by
  constructor
  · intro intact _
    exact intact.2
  · intro faithful
    refine ⟨connection.basics.typeId.whole _, ?_⟩
    by_cases opening : (connection.registrations.get message.1).name ∈ openingNames
    · exact faithful opening
    · obtain ⟨protocol, -, member⟩ := connection.mem_configure message.1
      exact Protocol.intact_of_notMem _ _ protocol _ member opening message.2

theorem within_iff (connection : Connection σ) (message : connection.Message) :
    (∀ extent ∈ connection.format.extents message, extent.size ≤ extent.limit) ↔
      connection.Within message := by
  have typeId : connection.format.extents message =
      connection.basics.typeId.extents _ ++
        (connection.registrations.get message.1).adds.extents message.2 := rfl
  rw [typeId, connection.basics.typeId.unlimited, List.nil_append]
  rfl

/-- Messages within their limits can be sent, and however they are cut on the way the receiver
has at every moment the messages that have arrived completely, in order, and at the end all
of them. -/
theorem delivers_in_pieces (connection : Connection σ) (messages : List connection.Message)
    (sendable : ∀ message ∈ messages, connection.Faithful message ∧ connection.Within message) :
    ∃ symbols, connection.format.SendsAll messages symbols ∧
      (∀ (pieces : List (List σ)) (missing : List σ), pieces.flatten ++ missing = symbols →
        connection.format.Arrived messages pieces.flatten
          (pieces.foldl connection.format.receive {}).delivered
          (pieces.foldl connection.format.receive {}).pending) ∧
      ∀ pieces : List (List σ), pieces.flatten = symbols →
        pieces.foldl connection.format.receive {} = ⟨messages, []⟩ := by
  have each : ∀ message ∈ messages, ∃ symbols, connection.format.Sends message symbols := by
    intro message member
    rw [Format.exists_sends_iff, connection.intact_iff, connection.within_iff]
    exact sendable message member
  obtain ⟨symbols, sends⟩ := Format.exists_sendsAll each
  refine ⟨symbols, sends, fun pieces missing arriving => ?_, fun pieces whole => ?_⟩
  · exact sends.received connection.advances arriving
  · exact (whole ▸ sends).received_all connection.advances

/-- An end that knows the messages of two protocols. -/
def overFields : Connection Field := ⟨fieldBasics, none, [.core, .auth], by decide⟩

/-- A response and a request for a captcha. -/
def twoMessages : List overFields.Message :=
  [⟨⟨3, by decide⟩, { error_ := 7 : Core.Response }⟩,
    ⟨⟨11, by decide⟩, (⟨⟩ : Auth.CaptchaRequest)⟩]

theorem twoMessages_sendable :
    ∀ message ∈ twoMessages, overFields.Faithful message ∧ overFields.Within message := by
  have response : overFields.Within ⟨⟨3, by decide⟩, { error_ := 7 : Core.Response }⟩ := by
    show ∀ extent ∈ [(⟨0, 4096⟩ : Extent)], extent.size ≤ extent.limit
    decide
  have request : overFields.Within ⟨⟨11, by decide⟩, (⟨⟩ : Auth.CaptchaRequest)⟩ := nofun
  refine List.forall_mem_cons.mpr ⟨⟨?_, response⟩, List.forall_mem_singleton.mpr ⟨?_, request⟩⟩
  · exact fun opening => absurd opening (by decide)
  · exact fun opening => absurd opening (by decide)

theorem delivers_twoMessages :
    ∃ symbols, overFields.format.SendsAll twoMessages symbols ∧
      ∀ pieces : List (List Field), pieces.flatten = symbols →
        pieces.foldl overFields.format.receive {} = ⟨twoMessages, []⟩ := by
  obtain ⟨symbols, sends, -, whole⟩ :=
    overFields.delivers_in_pieces twoMessages twoMessages_sendable
  exact ⟨symbols, sends, whole⟩

/-- Whatever arrives in whatever pieces, a receiver is given messages within their limits only,
and is left with something that is not a message yet.  If the basic types have one spelling each,
it has been sent exactly what would be sent for these messages, and then what is left. -/
theorem accepts_only_sendable (connection : Connection σ) (pieces : List (List σ)) :
    (∀ message ∈ (pieces.foldl connection.format.receive {}).delivered,
      connection.Faithful message ∧ connection.Within message) ∧
    connection.format.read.run (pieces.foldl connection.format.receive {}).pending = none ∧
    (connection.basics.Canonical → ∃ symbols,
      connection.format.SendsAll (pieces.foldl connection.format.receive {}).delivered symbols ∧
      pieces.flatten = symbols ++ (pieces.foldl connection.format.receive {}).pending) := by
  rw [Format.receive_pieces connection.advances]
  refine ⟨fun message member => ?_, ?_, fun canonical => ?_⟩
  · rw [← connection.intact_iff, ← connection.within_iff]
    exact Format.readAll_sound connection.advances pieces.flatten message member
  · exact Format.run_readAll_rest connection.advances pieces.flatten
  · exact Format.sendsAll_readAll connection.advances pieces.flatten

/-- The response in two pieces, and then a number that is no type id. -/
def threePieces : List (List Field) := [[.u32 4, .u32 7], [.str []], [.u32 99]]

theorem accepts_of_threePieces :
    ∃ symbols,
      overFields.format.SendsAll (threePieces.foldl overFields.format.receive {}).delivered
        symbols ∧
      threePieces.flatten =
        symbols ++ (threePieces.foldl overFields.format.receive {}).pending := by
  have canonical : overFields.basics.Canonical := inferInstanceAs fieldBasics.Canonical
  exact (overFields.accepts_only_sendable threePieces).2.2 canonical

end Connection

end MyappsCommon.Front
