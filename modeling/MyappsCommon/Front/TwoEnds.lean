import MyappsCommon.Front.Connection

/-! # The two ends of a connection

Each end has been configured with protocols of its own and has its own version in its context.
-/

namespace MyappsCommon.Front

open MyappsCommon.Lib MyappsCommon.Lib.Format MyappsCommon.Reflection

variable {σ : Type}

/-- The registration that depends on the context. -/
def Core.initResponse (basics : Basics σ) (version : Option Core.Version) : Registration σ :=
  ⟨(Core.protocolId, 1), "InitResponse", Core.InitResponse, Core.InitResponse.adds basics version⟩

namespace Protocol

theorem id_of_mem {basics : Basics σ} {version : Option Core.Version} {protocol : Protocol}
    {registration : Registration σ} (member : registration ∈ protocol.configure basics version) :
    registration.typeId.1 = protocol.id := by
  have typeId := List.mem_map_of_mem (f := Registration.typeId) member
  rw [typeIds] at typeId
  obtain ⟨number, -, same⟩ := List.mem_map.mp typeId
  rw [← same]

theorem eq_of_name (basics : Basics σ) (version : Option Core.Version) (protocol : Protocol) :
    ∀ registration ∈ protocol.configure basics version, registration.name = "InitResponse" →
      registration = Core.initResponse basics version := by
  cases protocol with
  | core => simp [configure, Core.configureProtocol, Core.initResponse]
  | auth => simp [configure, Auth.configureProtocol]
  | main => simp [configure, Main.configureProtocol]

theorem eq_of_typeId (basics : Basics σ) (version : Option Core.Version) (protocol : Protocol) :
    ∀ registration ∈ protocol.configure basics version,
      registration.typeId = (Core.protocolId, 1) →
        registration = Core.initResponse basics version := by
  cases protocol with
  | core => simp [configure, Core.configureProtocol, Core.initResponse]
  | auth => simp [configure, Auth.configureProtocol, Auth.protocolId, Core.protocolId]
  | main => simp [configure, Main.configureProtocol, Main.protocolId, Core.protocolId]

/-- A context matters by what it says about `InitResponse`. -/
theorem mem_configure_of_known {basics : Basics σ} {version version' : Option Core.Version}
    {protocol : Protocol} {registration : Registration σ}
    (member : registration ∈ protocol.configure basics version)
    (known : registration.name = "InitResponse" →
      Core.InitResponse.known version' = Core.InitResponse.known version) :
    registration ∈ protocol.configure basics version' := by
  cases protocol with
  | auth => exact member
  | main => exact member
  | core =>
    rcases List.mem_cons.mp member with rfl | member
    · have same : Core.InitResponse.adds basics version =
          Core.InitResponse.adds basics version' := by
        rw [Core.InitResponse.adds, Core.InitResponse.adds, known rfl]
      rw [same]
      exact List.mem_cons_self
    · exact List.mem_cons_of_mem _ member

end Protocol

theorem Core.InitResponse.advances {basics : Basics σ} {version : Option Core.Version}
    (isKnown : known version = true) : (adds basics version).toFormat.Advances := by
  intro stream value rest taken
  simp only [adds, isKnown, Adds.takes_when_iff, if_true, Adds.takes_members_iff,
    Adds.takes_add_iff, Adds.takes_none_iff] at taken
  obtain ⟨between, error, left, message, rfl⟩ := taken
  obtain ⟨front, rfl, -⟩ := read_front _ message
  have shorter := basics.u32_advances _ _ _ error
  rw [List.length_append] at shorter
  omega

theorem Core.InitResponse.write_of_unknown {basics : Basics σ} {version : Option Core.Version}
    (unknown : known version = false) (value : InitResponse) :
    (adds basics version).write value = some [] := by
  rw [adds, unknown, Adds.write_when, if_neg Bool.false_ne_true]

theorem Core.InitResponse.takes_of_unknown {basics : Basics σ} {version : Option Core.Version}
    (unknown : known version = false) {stream rest : List σ} {value : InitResponse}
    (taken : (adds basics version).read.Takes stream value rest) : stream = rest := by
  rw [adds, unknown, Adds.takes_when_iff, if_neg Bool.false_ne_true] at taken
  exact taken.2

namespace Connection

/-- The next message is of this registered type. -/
def Receives (connection : Connection σ) (stream : List σ) (registration : Registration σ)
    (value : registration.Message) (rest : List σ) : Prop :=
  ∃ (place : Fin connection.registrations.length)
    (same : connection.registrations.get place = registration),
    connection.format.read.Takes stream
      ⟨place, cast (congrArg Registration.Message same.symm) value⟩ rest

theorem receives_iff {connection : Connection σ} {stream : List σ}
    {registration : Registration σ} {value : registration.Message} {rest : List σ} :
    connection.Receives stream registration value rest ↔
      registration ∈ connection.registrations ∧
        ∃ between, connection.basics.typeId.read.Takes stream registration.typeId between ∧
          registration.adds.read.Takes between value rest := by
  constructor
  · rintro ⟨place, rfl, taken⟩
    exact ⟨List.get_mem _ _, takes_tagged_iff.mp taken⟩
  · rintro ⟨member, taken⟩
    obtain ⟨place, rfl⟩ := List.mem_iff_get.mp member
    exact ⟨place, rfl, takes_tagged_iff.mpr taken⟩

theorem receives_of_takes {connection : Connection σ} {stream rest : List σ}
    {received : connection.Message} (taken : connection.format.read.Takes stream received rest) :
    connection.Receives stream (connection.registrations.get received.1) received.2 rest :=
  ⟨received.1, rfl, taken⟩

/-- The protocol of the message is among those of this end, and where the message depends on
the context, the other end's says the same. -/
def Understands (receiver sender : Connection σ) (registration : Registration σ) : Prop :=
  (∃ protocol ∈ receiver.protocols, protocol.id = registration.typeId.1) ∧
    (registration.name = "InitResponse" →
      Core.InitResponse.known receiver.version = Core.InitResponse.known sender.version)

variable {sender receiver : Connection σ}

theorem mem_of_understands (shared : receiver.basics = sender.basics)
    {registration : Registration σ} (member : registration ∈ sender.registrations)
    (understands : receiver.Understands sender registration) :
    registration ∈ receiver.registrations := by
  obtain ⟨⟨protocol, configured, sameId⟩, context⟩ := understands
  obtain ⟨sent, -, member⟩ := List.mem_flatMap.mp member
  rw [Protocol.id_of_mem member] at sameId
  obtain rfl := Protocol.id_injective sameId
  refine List.mem_flatMap.mpr ⟨protocol, configured, ?_⟩
  rw [shared]
  exact Protocol.mem_configure_of_known member context

/-- Nothing but messages of protocols that this end has been configured with is read. -/
theorem configured_of_receives {registration : Registration σ} {value : registration.Message}
    {stream rest : List σ} (receives : receiver.Receives stream registration value rest) :
    ∃ protocol ∈ receiver.protocols, protocol.id = registration.typeId.1 := by
  obtain ⟨member, -⟩ := receives_iff.mp receives
  obtain ⟨protocol, configured, member⟩ := List.mem_flatMap.mp member
  exact ⟨protocol, configured, (Protocol.id_of_mem member).symm⟩

/-- What is read in place of an `InitResponse` is one, and it ends where that ends only if both
contexts say the same. -/
theorem known_of_receives (shared : receiver.basics = sender.basics)
    {registration registration' : Registration σ} (member : registration ∈ sender.registrations)
    (name : registration.name = "InitResponse") {value : registration.Message}
    {value' : registration'.Message} {tag body rest : List σ}
    (sendsTag : sender.basics.typeId.Sends registration.typeId tag)
    (sendsBody : registration.adds.Sends value body)
    (receives : receiver.Receives (tag ++ body ++ rest) registration' value' rest) :
    Core.InitResponse.known receiver.version = Core.InitResponse.known sender.version := by
  obtain ⟨sent, -, member⟩ := List.mem_flatMap.mp member
  obtain rfl := Protocol.eq_of_name _ _ _ _ member name
  obtain ⟨member', between, takenTag, takenBody⟩ := receives_iff.mp receives
  -- the type id alone says what the receiver reads on
  rw [shared, List.append_assoc] at takenTag
  obtain ⟨sameId, rfl⟩ := takes_unique takenTag (sendsTag.read (body ++ rest))
  obtain ⟨protocol, -, member'⟩ := List.mem_flatMap.mp member'
  obtain rfl := Protocol.eq_of_typeId _ _ _ _ member' sameId
  cases knownHere : Core.InitResponse.known receiver.version with
  | true =>
    cases knownThere : Core.InitResponse.known sender.version with
    | true => rfl
    | false =>
      -- nothing has been written, and something is taken
      have written : (Core.InitResponse.adds sender.basics sender.version).write value = some [] :=
        Core.InitResponse.write_of_unknown knownThere value
      obtain rfl : [] = body := Option.some.inj (written.symm.trans sendsBody.2)
      have shorter := Core.InitResponse.advances knownHere _ _ _ takenBody
      exact absurd shorter (Nat.lt_irrefl _)
  | false =>
    cases knownThere : Core.InitResponse.known sender.version with
    | false => rfl
    | true =>
      -- something has been written, and nothing is taken
      have some := Core.InitResponse.advances knownThere _ _ _ sendsBody.read_all
      have none := Core.InitResponse.takes_of_unknown knownHere takenBody
      rw [List.append_left_eq_self.mp none] at some
      exact absurd some (Nat.lt_irrefl _)

/-- An end that knows the messages of one protocol. -/
def coreOverFields : Connection Field := ⟨fieldBasics, some {}, [.core], by decide⟩

theorem sends_captchaRequest :
    overFields.format.Sends ⟨⟨11, by decide⟩, (⟨⟩ : Auth.CaptchaRequest)⟩ [.u32 65544] := by
  refine sends_tagged_iff.mpr ⟨[.u32 65544], [], ⟨?_, ?_⟩, ⟨?_, ?_⟩, rfl⟩
  · exact fieldBasics.typeId.whole _
  · rfl
  · exact rfl
  · rfl

end Connection

end MyappsCommon.Front
