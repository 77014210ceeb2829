import MyappsCommon.Front.Auth
import MyappsCommon.Front.Main

/-! # A request of a newer peer

The reflection of a version record means to stop at the first field when that field
is newer than the receiver.  It tests the class constant, not the field, so that the
request is decoded on.
-/

namespace MyappsCommon.Front

open MyappsCommon.Lib MyappsCommon.Reflection

/-- The decoding of a request stopped after one field: the opening version record is
cleared and the rest of the stream is untouched. -/
structure Quarantined {Request : Type} (opening : Request → InitVersion) (rest : List Field)
    (result : Result (List Field) Access Request) : Prop where
  cleared : ∃ request, result.outcome = .ok request ∧
    (opening request).initRequest_ = InitVersion.maxU32
  unread : result.state = rest
  oneAccess : result.trace = [⟨1, "version"⟩]

/-- Every reflection of a `core::Version` asks for at least one field. -/
theorem core_reflect_accesses (r : Reflector) (this : Core.Version) (stream : List Field) :
    ∃ later, ((Core.Version.reflect r this).run stream).trace = ⟨1, "version"⟩ :: later := by
  simp only [Core.Version.reflect, Reflector.addU32, Traced.run_bind, Traced.run_emit,
    Result.andThen_ok, Result.prepend]
  cases (r.u32 this.version_).run stream with
  | mk outcome state trace => cases outcome <;> exact ⟨_, rfl⟩

/-- What `auth::InitRequest` does with a newer peer: the record keeps its default
`initRequest_`, and `core_version_` is read next. -/
theorem auth_reflect_newer {first : UInt32} (newer : first ≠ Auth.Version.version)
    (rest : List Field) :
    (Auth.InitRequest.reflect reader {}).run (.u32 first :: rest) =
      (((Core.Version.reflect reader {}).run rest).andThen fun core after =>
        ⟨.ok ⟨⟨first, Auth.Version.initRequest⟩, core⟩, after, []⟩).prepend
        [⟨1, "version"⟩] := by
  have opening := InitVersion.run_reflect_reader_of_ne newer Auth.Version.default rest
  simp only [Auth.InitRequest.reflect, Auth.Version.reflect, Traced.run_bind, opening,
    Result.andThen_ok]
  rfl

/-- `main::InitRequest` reads `core_version_` and then `utility_version_`. -/
theorem main_reflect_newer {first : UInt32} (newer : first ≠ Main.Version.version)
    (rest : List Field) :
    (Main.InitRequest.reflect reader {}).run (.u32 first :: rest) =
      (((Core.Version.reflect reader {}).run rest).andThen fun core after =>
        ((Utility.Version.reflect reader {}).run after).andThen fun utility last =>
          ⟨.ok ⟨⟨first, Main.Version.initRequest⟩, core, utility⟩, last, []⟩).prepend
        [⟨1, "version"⟩] := by
  have opening := InitVersion.run_reflect_reader_of_ne newer Main.Version.default rest
  simp only [Main.InitRequest.reflect, Main.Version.reflect, Traced.run_bind, opening,
    Result.andThen_ok]
  rfl

/-- A decoding that asks for the fields of another record after the first field is not
quarantined. -/
theorem not_quarantined_of_reads_on {Request Part : Type} {opening : Request → InitVersion}
    {rest : List Field} {part : Result (List Field) Access Part}
    {next : Part → List Field → Result (List Field) Access Request}
    (accesses : ∃ later, part.trace = ⟨1, "version"⟩ :: later) :
    ¬ Quarantined opening rest ((part.andThen next).prepend [⟨1, "version"⟩]) := by
  rintro ⟨-, -, oneAccess⟩
  obtain ⟨later, accesses⟩ := accesses
  obtain ⟨outcome, state, trace⟩ := part
  change trace = _ at accesses
  subst accesses
  -- the second access is logged even if the part raises
  cases outcome <;> simp [Result.andThen, Result.prepend] at oneAccess

/-- No request of a newer peer is quarantined, whatever follows its first field. -/
theorem newer_not_quarantined (first : UInt32) (rest : List UInt32)
    (newerAuth : Auth.Version.version < first) (newerMain : Main.Version.version < first) :
    ¬ Quarantined Auth.InitRequest.authVersion_ (rest.map .u32)
        ((Auth.InitRequest.reflect reader {}).run ((first :: rest).map .u32)) ∧
    ¬ Quarantined Main.InitRequest.mainVersion_ (rest.map .u32)
        ((Main.InitRequest.reflect reader {}).run ((first :: rest).map .u32)) := by
  rw [List.map_cons, auth_reflect_newer (UInt32.ne_of_lt newerAuth).symm,
    main_reflect_newer (UInt32.ne_of_lt newerMain).symm]
  exact ⟨not_quarantined_of_reads_on (core_reflect_accesses _ _ _),
    not_quarantined_of_reads_on (core_reflect_accesses _ _ _)⟩

theorem newer_not_quarantined_two :
    ¬ Quarantined Auth.InitRequest.authVersion_ []
        ((Auth.InitRequest.reflect reader {}).run [.u32 2]) ∧
    ¬ Quarantined Main.InitRequest.mainVersion_ []
        ((Main.InitRequest.reflect reader {}).run [.u32 2]) :=
  newer_not_quarantined 2 [] (by decide) (by decide)

/-- A version 2 followed by one more field: both requests read on, and `initRequest_`
keeps its default. -/
theorem newer_reads_core_version :
    ((Auth.InitRequest.reflect reader {}).run [.u32 2, .u32 7]).trace =
        [⟨1, "version"⟩, ⟨1, "version"⟩] ∧
      ¬ Quarantined Auth.InitRequest.authVersion_ [.u32 7]
        ((Auth.InitRequest.reflect reader {}).run [.u32 2, .u32 7]) ∧
      ¬ Quarantined Main.InitRequest.mainVersion_ [.u32 7]
        ((Main.InitRequest.reflect reader {}).run [.u32 2, .u32 7]) := by
  refine ⟨rfl, ?_, ?_⟩
  · rw [auth_reflect_newer (by decide)]
    exact not_quarantined_of_reads_on (core_reflect_accesses _ _ _)
  · rw [main_reflect_newer (by decide)]
    exact not_quarantined_of_reads_on (core_reflect_accesses _ _ _)

end MyappsCommon.Front
