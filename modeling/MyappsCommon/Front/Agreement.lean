import MyappsCommon.Front.Quarantine

/-! # What a request writes and what its reader takes

The writer shows the parts of a request whose conditions its own values meet.  The reader
decides the same conditions on the values decoded so far, and a component that was not
transferred has its default there.
-/

namespace MyappsCommon.Front

open MyappsCommon.Lib MyappsCommon.Reflection

/-- The fields that the const reflector shows of a value. -/
def encode {V : Type} (reflect : Reflector → V → ReflectM V) (value : V) : List Field :=
  ((reflect writer value).run []).state

/-- Decoding into the fresh value takes what was written of the value and leaves the rest. -/
def TakesWritten {V : Type} (reflect : Reflector → V → ReflectM V) (fresh value : V)
    (rest : List Field) : Prop :=
  ∃ decoded, Traced.Gives (reflect reader fresh) (encode reflect value ++ rest) decoded rest

@[simp] theorem gives_writer_addU32_iff {value result : UInt32} {index : Nat} {name : String}
    {stream final : List Field} :
    Traced.Gives (writer.addU32 value index name) stream result final ↔
      result = value ∧ final = stream ++ [.u32 value] := by
  simp [Traced.Gives, eq_comm]

@[simp] theorem gives_reader_addU32_iff {old value : UInt32} {index : Nat} {name : String}
    {stream final : List Field} :
    Traced.Gives (reader.addU32 old index name) stream value final ↔
      stream = .u32 value :: final := by
  constructor
  · intro ⟨events, ran⟩
    -- the reader leaves by an exception unless a number comes first
    match stream, ran with
    | [], ran => cases ran
    | .u32 first :: rest, ran =>
      rw [run_reader_addU32] at ran
      cases ran
      rfl
    | .u64 number :: rest, ran => cases ran
    | .str text :: rest, ran => cases ran
  · rintro rfl
    exact ⟨_, run_reader_addU32 old value index name final⟩

theorem encode_of_gives {V : Type} {reflect : Reflector → V → ReflectM V} {value : V}
    {fields : List Field} (writes : Traced.Gives (reflect writer value) [] value fields) :
    encode reflect value = fields := (Traced.gives_iff.mp writes).2

/-! ## The version records -/

/-- The fields of a `core::Version`. -/
def Core.Version.written (this : Core.Version) : List Field :=
  .u32 this.version_ ::
    if this.version_ = Core.Version.version then
      [.u32 this.authRequest_, .u32 this.authResponse_, .u32 this.initResponse_,
        .u32 this.response_]
    else []

theorem core_writes (this : Core.Version) (stream : List Field) :
    Traced.Gives (Core.Version.reflect writer this) stream this (stream ++ this.written) := by
  obtain ⟨version_, authRequest_, authResponse_, initResponse_, response_⟩ := this
  by_cases current : version_ = Core.Version.version
  · subst current
    simp [Core.Version.reflect, Core.Version.written, Traced.gives_bind_iff]
  · simp [Core.Version.reflect, Core.Version.written, Traced.gives_bind_iff, current]

theorem core_reads (fresh this : Core.Version) (rest : List Field) :
    ∃ decoded, Traced.Gives (Core.Version.reflect reader fresh) (this.written ++ rest) decoded
      rest := by
  by_cases current : this.version_ = Core.Version.version
  · simp [Core.Version.reflect, Core.Version.written, Traced.gives_bind_iff, current]
  · simp [Core.Version.reflect, Core.Version.written, Traced.gives_bind_iff, current]

/-- At least one field is taken. -/
theorem core_takes {fresh decoded : Core.Version} {stream final : List Field}
    (reads : Traced.Gives (Core.Version.reflect reader fresh) stream decoded final) :
    final.length < stream.length := by
  simp only [Core.Version.reflect, Traced.gives_bind_iff, gives_reader_addU32_iff] at reads
  obtain ⟨version_, between, rfl, reads⟩ := reads
  by_cases current : version_ = Core.Version.version
  · simp [current, Traced.gives_bind_iff] at reads
    obtain ⟨_, _, _, _, rfl, -⟩ := reads
    simp only [List.length_cons]
    omega
  · simp [current] at reads
    simp [reads.2]

/-- The fields of a `utility::Version`, which are all there whatever its version. -/
def utilityWritten (this : Utility.Version) : List Field :=
  [.u32 this.version_, .u32 this.application_, .u32 this.build_, .u32 this.buildShortcut_,
    .u32 this.buildMedia_, .u32 this.buildMediaEntry_, .u32 this.buildConfiguration_,
    .u32 this.listStoreNode_, .u32 this.applicationListItem_, .u32 this.appItemEntry_]

theorem utility_writes (this : Utility.Version) (stream : List Field) :
    Traced.Gives (Utility.Version.reflect writer this) stream this
      (stream ++ utilityWritten this) := by
  simp [Utility.Version.reflect, utilityWritten, Traced.gives_bind_iff]

theorem utility_reads (fresh this : Utility.Version) (rest : List Field) :
    ∃ decoded, Traced.Gives (Utility.Version.reflect reader fresh) (utilityWritten this ++ rest)
      decoded rest := by
  simp [Utility.Version.reflect, utilityWritten, Traced.gives_bind_iff]

theorem utility_takes {fresh decoded : Utility.Version} {stream final : List Field}
    (reads : Traced.Gives (Utility.Version.reflect reader fresh) stream decoded final) :
    final.length ≤ stream.length := by
  simp [Utility.Version.reflect, Traced.gives_bind_iff] at reads
  obtain ⟨_, _, _, _, _, _, _, _, _, _, rfl, -⟩ := reads
  simp only [List.length_cons]
  omega

namespace InitVersion

/-- The fields of an opening record. -/
def written (version : UInt32) (this : InitVersion) : List Field :=
  .u32 this.version_ :: if this.version_ = version then [.u32 this.initRequest_] else []

/-- What a reader makes of them. -/
def received (version : UInt32) (fresh this : InitVersion) : InitVersion :=
  if this.version_ = version then this else { fresh with version_ := this.version_ }

theorem writes (version : UInt32) (this : InitVersion) (stream : List Field) :
    Traced.Gives (reflect version writer this) stream this (stream ++ this.written version) := by
  obtain ⟨version_, initRequest_⟩ := this
  by_cases current : version_ = version
  · subst current
    simp [reflect, written, Traced.gives_bind_iff]
  · simp [reflect, written, Traced.gives_bind_iff, current]

theorem reads_iff {version : UInt32} {fresh this decoded : InitVersion}
    {rest final : List Field} :
    Traced.Gives (reflect version reader fresh) (this.written version ++ rest) decoded final ↔
      decoded = received version fresh this ∧ final = rest := by
  obtain ⟨version_, initRequest_⟩ := this
  by_cases current : version_ = version
  · subst current
    simp [reflect, written, received, Traced.gives_bind_iff]
    tauto
  · simp [reflect, written, received, Traced.gives_bind_iff, current]

/-- A request goes on with the received record. -/
theorem gives_opening_iff {Request : Type} {version : UInt32} {fresh this : InitVersion}
    {rest final : List Field} {next : InitVersion → ReflectM Request} {decoded : Request} :
    Traced.Gives (reflect version reader fresh >>= next) (this.written version ++ rest) decoded
        final ↔
      Traced.Gives (next (received version fresh this)) rest decoded final := by
  simp only [Traced.gives_bind_iff, reads_iff]
  constructor
  · rintro ⟨_, _, ⟨rfl, rfl⟩, continued⟩
    exact continued
  · intro continued
    exact ⟨_, _, ⟨rfl, rfl⟩, continued⟩

end InitVersion

/-! ## The two requests -/

/-- Whether a body follows is decided by the writer on its own opening record and by the
reader on the received one.  `reads stream final` is what the reader of a body takes. -/
theorem body_agreement_iff (version initRequest : UInt32) (opening : InitVersion)
    {body rest : List Field} {reads : List Field → List Field → Prop}
    (complete : reads (body ++ rest) rest)
    (takes : ∀ {stream final}, reads stream final → final.length < stream.length) :
    (if (InitVersion.received version ⟨version, initRequest⟩ opening).initRequest_ = initRequest
      then reads ((if opening.initRequest_ = initRequest then body else []) ++ rest) rest
      else (if opening.initRequest_ = initRequest then body else []) ++ rest = rest) ↔
      opening.version_ = version ∨ opening.initRequest_ = initRequest := by
  by_cases current : opening.version_ = version
  · -- the received record is the one that was written
    have received : InitVersion.received version ⟨version, initRequest⟩ opening = opening :=
      if_pos current
    rw [received, iff_true_right (.inl current)]
    by_cases known : opening.initRequest_ = initRequest
    · simpa only [if_pos known] using complete
    · simp only [if_neg known, List.nil_append]
  · -- the reader is left with its default request number
    have received : (InitVersion.received version ⟨version, initRequest⟩ opening).initRequest_ =
        initRequest := by
      simp only [InitVersion.received, if_neg current]
    rw [if_pos received, or_iff_right current]
    by_cases known : opening.initRequest_ = initRequest
    · simpa only [if_pos known, iff_true_right known] using complete
    · -- nothing was written for the body, and the reader takes something for it
      rw [if_neg known, iff_false_right known, List.nil_append]
      exact fun read => Nat.lt_irrefl _ (takes read)

namespace Auth.InitRequest

/-- The fields of the request. -/
def written (this : InitRequest) : List Field :=
  this.authVersion_.written Version.version ++
    if this.authVersion_.initRequest_ = Version.initRequest then this.coreVersion_.written else []

theorem encode_eq (this : InitRequest) : encode reflect this = this.written := by
  apply encode_of_gives
  by_cases known : this.authVersion_.initRequest_ = Version.initRequest
  · simp only [reflect, Version.reflect, Traced.gives_bind_iff]
    refine ⟨_, _, InitVersion.writes _ _ _, ?_⟩
    rw [if_pos known, Traced.gives_bind_iff]
    refine ⟨_, _, core_writes _ _, ?_⟩
    simp [written, known]
  · simp only [reflect, Version.reflect, Traced.gives_bind_iff]
    refine ⟨_, _, InitVersion.writes _ _ _, ?_⟩
    rw [if_neg known]
    simp [written, known]

theorem takesWritten_iff (this : InitRequest) (rest : List Field) :
    TakesWritten reflect {} this rest ↔
      this.authVersion_.version_ = Version.version ∨
        this.authVersion_.initRequest_ = Version.initRequest := by
  -- what the body of the reader takes
  let reads (stream final : List Field) : Prop :=
    ∃ core, Traced.Gives (Core.Version.reflect reader {}) stream core final
  have complete : reads (this.coreVersion_.written ++ rest) rest := core_reads {} _ rest
  have agreement := body_agreement_iff Version.version Version.initRequest this.authVersion_
    complete (fun ⟨_, read⟩ => core_takes read)
  rw [← agreement]
  simp only [TakesWritten, encode_eq, written, List.append_assoc, reflect, Version.reflect,
    Version.default, InitVersion.gives_opening_iff]
  by_cases known : (InitVersion.received Version.version ⟨Version.version, Version.initRequest⟩
    this.authVersion_).initRequest_ = Version.initRequest
  · simp only [if_pos known, Traced.gives_bind_iff, Traced.gives_pure_iff, reads]
    constructor
    · rintro ⟨decoded, core, left, read, -, rfl⟩
      exact ⟨core, read⟩
    · rintro ⟨core, read⟩
      exact ⟨_, core, rest, read, rfl, rfl⟩
  · simp only [if_neg known, Traced.gives_pure_iff, exists_eq_left]
    exact eq_comm

end Auth.InitRequest

namespace Main.InitRequest

/-- The fields of the request. -/
def written (this : InitRequest) : List Field :=
  this.mainVersion_.written Version.version ++
    if this.mainVersion_.initRequest_ = Version.initRequest then
      this.coreVersion_.written ++ utilityWritten this.utilityVersion_
    else []

theorem encode_eq (this : InitRequest) : encode reflect this = this.written := by
  apply encode_of_gives
  by_cases known : this.mainVersion_.initRequest_ = Version.initRequest
  · simp only [reflect, Version.reflect, Traced.gives_bind_iff]
    refine ⟨_, _, InitVersion.writes _ _ _, ?_⟩
    simp only [if_pos known, Traced.gives_bind_iff]
    refine ⟨_, _, core_writes _ _, _, _, utility_writes _ _, ?_⟩
    simp [written, known]
  · simp only [reflect, Version.reflect, Traced.gives_bind_iff]
    refine ⟨_, _, InitVersion.writes _ _ _, ?_⟩
    simp only [if_neg known]
    simp [written, known]

theorem takesWritten_iff (this : InitRequest) (rest : List Field) :
    TakesWritten reflect {} this rest ↔
      this.mainVersion_.version_ = Version.version ∨
        this.mainVersion_.initRequest_ = Version.initRequest := by
  let reads (stream final : List Field) : Prop :=
    ∃ core between, Traced.Gives (Core.Version.reflect reader {}) stream core between ∧
      ∃ utility, Traced.Gives (Utility.Version.reflect reader {}) between utility final
  have complete : reads ((this.coreVersion_.written ++ utilityWritten this.utilityVersion_) ++ rest)
      rest := by
    obtain ⟨core, readCore⟩ := core_reads {} this.coreVersion_
      (utilityWritten this.utilityVersion_ ++ rest)
    rw [List.append_assoc]
    exact ⟨core, _, readCore, utility_reads {} _ rest⟩
  have takes {stream final} : reads stream final → final.length < stream.length := by
    rintro ⟨core, between, readCore, utility, readUtility⟩
    exact Nat.lt_of_le_of_lt (utility_takes readUtility) (core_takes readCore)
  have agreement := body_agreement_iff Version.version Version.initRequest this.mainVersion_
    complete takes
  rw [← agreement]
  simp only [TakesWritten, encode_eq, written, List.append_assoc, reflect, Version.reflect,
    Version.default, InitVersion.gives_opening_iff]
  by_cases known : (InitVersion.received Version.version ⟨Version.version, Version.initRequest⟩
    this.mainVersion_).initRequest_ = Version.initRequest
  · simp only [if_pos known, Traced.gives_bind_iff, Traced.gives_pure_iff, reads]
    constructor
    · rintro ⟨decoded, core, between, readCore, utility, left, readUtility, -, rfl⟩
      exact ⟨core, between, readCore, utility, readUtility⟩
    · rintro ⟨core, between, readCore, utility, readUtility⟩
      exact ⟨_, core, between, readCore, utility, rest, readUtility, rfl, rfl⟩
  · simp only [if_neg known, Traced.gives_pure_iff, exists_eq_left]
    exact eq_comm

end Main.InitRequest

/-- Writer and reader agree on the fields of a request exactly when the request announces
the version that both know, or the request number that a reader assumes without it. -/
theorem requests_agree_iff (auth : Auth.InitRequest) (main : Main.InitRequest)
    (rest : List Field) :
    (TakesWritten Auth.InitRequest.reflect {} auth rest ↔
      auth.authVersion_.version_ = Auth.Version.version ∨
        auth.authVersion_.initRequest_ = Auth.Version.initRequest) ∧
    (TakesWritten Main.InitRequest.reflect {} main rest ↔
      main.mainVersion_.version_ = Main.Version.version ∨
        main.mainVersion_.initRequest_ = Main.Version.initRequest) :=
  ⟨auth.takesWritten_iff rest, main.takesWritten_iff rest⟩

/-- Of a request whose version and request number are both 2 the version alone is written;
the reader goes on to a `core_version_` that is not there. -/
theorem newer_requests_disagree :
    encode Auth.InitRequest.reflect { authVersion_ := ⟨2, 2⟩ } = [.u32 2] ∧
      ((Auth.InitRequest.reflect reader {}).run [.u32 2]).outcome = .raised ∧
      ¬ TakesWritten Auth.InitRequest.reflect {} { authVersion_ := ⟨2, 2⟩ } [] ∧
      ¬ TakesWritten Main.InitRequest.reflect {} { mainVersion_ := ⟨2, 2⟩ } [] := by
  refine ⟨rfl, rfl, ?_, ?_⟩
  · rw [Auth.InitRequest.takesWritten_iff]
    decide
  · rw [Main.InitRequest.takesWritten_iff]
    decide

end MyappsCommon.Front
