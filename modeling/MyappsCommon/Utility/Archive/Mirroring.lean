import MyappsCommon.Utility.Archive.Frame

/-! # A plain extraction and the file system it shows

On an operating system that does what it can, and with names without `.` and `..`, the plain
extraction runs as on the file system that the operating system shows.
-/

namespace MyappsCommon.Utility.Archive

open MyappsCommon.Lib

/-- Everything stands in directories, and the path of the root can be followed. -/
structure Ready (cwd : List Bytes) (root : Bytes) (files : Files Bytes Bytes) : Prop where
  rooted : files.Rooted
  walkable : pathFormat.Walkable (fun place => files place = some .dir) cwd (root ++ [slash])

/-- No name is empty or has a component `.` or `..`. -/
def PlainNames (entries : List ZipEntry) : Prop :=
  ∀ entry ∈ entries, ∀ stat, entry.stat = some stat → pathFormat.Plain stat.name

section

variable {cwd : List Bytes} {root : Bytes} {before after : Files Bytes Bytes}

theorem Ready.kept (ready : Ready cwd root before) {allowed : List Bytes → Prop}
    (frame : Files.Frame allowed before after) : Ready cwd root after where
  rooted := frame.rooted ready.rooted
  walkable := ready.walkable.mono frame.directories

/-- The path to a place in a directory can be followed. -/
theorem Ready.walkable_target (ready : Ready cwd root before) {name : Bytes}
    (plain : pathFormat.Plain name)
    (parent : before (extractPlace cwd root name).dropLast = some .dir) :
    pathFormat.Walkable (fun place => before place = some .dir) cwd (targetPath root name) := by
  rw [extractPlace, resolve_targetPath] at parent
  exact Path.walkable_append_iff.mpr ⟨ready.walkable,
    Path.passable_plain ready.rooted.above plain.notHere plain.notParent parent⟩

theorem Ready.parent_of_writable (ready : Ready cwd root before) {place : List Bytes}
    (writable : before.Writable place) : before place.dropLast = some .dir := by
  cases stands : before place with
  | none => exact writable.2 stands
  | some node => exact ready.rooted.inside place node stands

end

variable {ω : Type} {os : Os ω} {cwd : List Bytes} {root : Bytes} {view : ω → Files Bytes Bytes}

/-! ## The calls -/

section

variable (acts : os.ActsOn cwd view) (obliges : os.Obliges cwd view)
include acts obliges

/-- A directory is created where the file system can create it. -/
theorem createDirectory_shows {name : Bytes} {state : ω} (plain : pathFormat.Plain name)
    (ready : Ready cwd root (view state)) :
    (fileSystemOs cwd).createDirectory (targetPath root name) (view state) =
      ((os.createDirectory (targetPath root name) state).1,
        view (os.createDirectory (targetPath root name) state).2) := by
  cases created : (view state).create (extractPlace cwd root name) .dir with
  | none =>
    -- a success would have created what cannot be created
    have refused : (os.createDirectory (targetPath root name) state).1 = false := by
      refine Bool.eq_false_iff.mpr fun success => ?_
      cases created.symm.trans (acts.created _ state success)
    rw [refused, acts.notCreated _ state refused]
    rw [extractPlace] at created
    simp only [fileSystemOs, created]
  | some final =>
    have parent := (Files.create_eq_some_iff.mp created).2.1
    have success := obliges.creates _ state final (ready.walkable_target plain parent) created
    have left := acts.created _ state success
    rw [success]
    simp only [fileSystemOs, left]

/-- A file is opened where the file system can write it. -/
theorem openFile_shows {name : Bytes} {state : ω} (plain : pathFormat.Plain name)
    (file : endsInSlash name = false) (ready : Ready cwd root (view state)) :
    (fileSystemOs cwd).openFile (targetPath root name) (view state) =
      ((os.openFile (targetPath root name) state).1,
        view (os.openFile (targetPath root name) state).2) := by
  by_cases writable : (view state).Writable (extractPlace cwd root name)
  · -- the path ends as the name does, so that no directory is meant
    have noSlash : endsInSlash (targetPath root name) = false := by
      rw [endsInSlash, targetPath, List.getLast?_append_of_ne_nil _ (List.cons_ne_nil _ _),
        List.getLast?_cons_of_ne_nil plain.nonempty]
      exact file
    have success := obliges.opens _ state
      (ready.walkable_target plain (ready.parent_of_writable writable)) noSlash writable
    rw [success, (acts.opened _ state success).2]
    exact openFile_true_iff.mpr ⟨writable, rfl⟩
  · have refused : (os.openFile (targetPath root name) state).1 = false := by
      refine Bool.eq_false_iff.mpr fun success => ?_
      exact writable (acts.opened _ state success).1
    rw [refused, acts.notOpened _ state refused]
    exact openFile_blocked writable

theorem append_shows {path : Bytes} {state : ω} (stands : HasFile cwd view path state)
    (data : Bytes) :
    (fileSystemOs cwd).append path data (view state) =
      ((os.append path data state).1, view (os.append path data state).2) := by
  obtain ⟨content, stands⟩ := stands
  have success := obliges.appends path data state content stands
  obtain ⟨part, -, whole, left⟩ := acts.appended path data state content stands
  rw [success, left, whole success]
  simp only [fileSystemOs, stands]

end

/-! ## The stream -/

/-- The file system is the one that the state shows, and the stream is the same. -/
structure Mirrors (cwd : List Bytes) (root : Bytes) (view : ω → Files Bytes Bytes)
    (state : PlainState ω) (shown : PlainState (Files Bytes Bytes)) : Prop where
  os : shown.os = view state.os
  ofs : shown.ofs = state.ofs
  ready : Ready cwd root (view state.os)
  /-- An open stream has its file. -/
  stands : ∀ ofs, state.ofs = some ofs → HasFile cwd view ofs.path state.os

/-- There is a file, and no stream is open but to it. -/
structure MirrorsAt (cwd : List Bytes) (root : Bytes) (view : ω → Files Bytes Bytes)
    (path : Bytes) (state : PlainState ω) (shown : PlainState (Files Bytes Bytes)) : Prop
    extends Mirrors cwd root view state shown where
  file : HasFile cwd view path state.os
  only : ∀ ofs, state.ofs = some ofs → ofs.path = path

theorem Mirrors.opened {state : PlainState ω} {shown : PlainState (Files Bytes Bytes)}
    (mirrors : Mirrors cwd root view state shown) {ofs : Ofstream} (opened : state.ofs = some ofs) :
    MirrorsAt cwd root view ofs.path state shown :=
  ⟨mirrors, mirrors.stands ofs opened, fun _ again =>
    congrArg Ofstream.path (Option.some.inj (again.symm.trans opened))⟩

section

variable (acts : os.ActsOn cwd view) (obliges : os.Obliges cwd view)
include acts obliges

theorem flushOut_alike (path data : Bytes) :
    Traced.Alike (MirrorsAt cwd root view path) (flushOut os path data)
      (flushOut (fileSystemOs cwd) path data) := by
  rw [flushOut, flushOut]
  split
  · exact Traced.alike_pure true
  · refine Traced.alike_bind (Traced.alike_act fun state shown mirrors => ?_) fun success =>
      Traced.alike_bind (Traced.alike_emit _) fun _ => Traced.alike_pure success
    have answer := append_shows acts obliges mirrors.file data
    rw [← mirrors.os] at answer
    have frame := acts.append_frame mirrors.file.choose_spec data
    refine ⟨congrArg Prod.fst answer.symm, ⟨?_, mirrors.file.kept frame, mirrors.only⟩⟩
    exact ⟨congrArg Prod.snd answer, mirrors.ofs, mirrors.ready.kept frame,
      fun ofs opened => (mirrors.stands ofs opened).kept frame⟩

theorem ofstreamWrite_alike (spill : Bytes → Bytes → Nat) (buf : Bytes) :
    Traced.Alike (Mirrors cwd root view) (ofstreamWrite os spill buf)
      (ofstreamWrite (fileSystemOs cwd) spill buf) := by
  rw [ofstreamWrite, ofstreamWrite]
  refine Traced.alike_getState fun state shown mirrors => ?_
  rw [mirrors.ofs]
  cases opened : state.ofs with
  | none => exact ⟨rfl, rfl, mirrors⟩
  | some ofs =>
    cases good : ofs.good with
    | false =>
      simp only [good]
      exact ⟨rfl, rfl, mirrors⟩
    | true =>
      simp only [good, if_true]
      refine (Traced.alike_bind (flushOut_alike acts obliges ofs.path _) (fun success =>
        Traced.alike_bind (Traced.alike_modifyState fun left left' same => ?_) fun _ =>
          Traced.alike_pure success) state shown (mirrors.opened opened)).mono
        fun _ _ same => same.toMirrors
      -- the stream stays on its file
      refine ⟨⟨same.os, rfl, same.ready, ?_⟩, same.file, ?_⟩
      · rintro _ ⟨⟩
        exact same.file
      · rintro _ ⟨⟩
        rfl

theorem ofstreamDestroy_alike :
    Traced.Alike (Mirrors cwd root view) (ofstreamDestroy os)
      (ofstreamDestroy (fileSystemOs cwd)) := by
  rw [ofstreamDestroy, ofstreamDestroy]
  refine Traced.alike_getState fun state shown mirrors => ?_
  rw [mirrors.ofs]
  cases opened : state.ofs with
  | none => exact ⟨rfl, rfl, mirrors⟩
  | some ofs =>
    refine (Traced.alike_bind (flushOut_alike acts obliges ofs.path _) (fun _ =>
      Traced.alike_modifyState fun left left' same => ?_) state shown
        (mirrors.opened opened)).mono fun _ _ same => same.toMirrors
    refine ⟨⟨same.os, rfl, same.ready, ?_⟩, same.file, ?_⟩
    · rintro _ ⟨⟩
    · rintro _ ⟨⟩

theorem createWriteLambda_alike {fileName : Bytes} (plain : pathFormat.Plain fileName)
    (file : endsInSlash fileName = false) :
    Traced.Alike (Mirrors cwd root view) (createWriteLambda os root fileName)
      (createWriteLambda (fileSystemOs cwd) root fileName) := by
  intro state shown mirrors
  have answer := openFile_shows acts obliges plain file mirrors.ready
  rw [← mirrors.os] at answer
  have frame := acts.openFile_frame (targetPath root fileName) state.os
  have stands : ∀ ofs, state.ofs = some ofs → HasFile cwd view ofs.path
      (os.openFile (targetPath root fileName) state.os).2 :=
    fun ofs opened => (mirrors.stands ofs opened).kept frame
  cases success : (os.openFile (targetPath root fileName) state.os).1 with
  | false =>
    rw [success] at answer
    simp only [createWriteLambda, Traced.run_bind, Traced.run_act, answer, success]
    exact ⟨rfl, rfl, rfl, mirrors.ofs, mirrors.ready.kept frame, stands⟩
  | true =>
    rw [success] at answer
    simp only [createWriteLambda, Traced.run_bind, Traced.run_act, answer, success]
    have opened : HasFile cwd view (targetPath root fileName)
        (os.openFile (targetPath root fileName) state.os).2 :=
      ⟨[], by rw [(acts.opened _ state.os success).2, Files.put_self]⟩
    refine ⟨rfl, rfl, rfl, rfl, mirrors.ready.kept frame, ?_⟩
    rintro _ ⟨⟩
    exact opened

end

/-! ## The entries -/

/-- The states of two extractions, of which one is of the file system that the other shows. -/
def ExtractMirrors (cwd : List Bytes) (root : Bytes) (view : ω → Files Bytes Bytes)
    (state : ExtractState (PlainState ω)) (shown : ExtractState (PlainState (Files Bytes Bytes))) :
    Prop :=
  Mirrors cwd root view state.env shown.env ∧
    state.runcompressedSize = shown.runcompressedSize

section

variable (acts : os.ActsOn cwd view) (obliges : os.Obliges cwd view)
include acts obliges

omit acts obliges in
theorem callEnv_alike {α : Type} {program : Traced (PlainState ω) OsEvent α}
    {other : Traced (PlainState (Files Bytes Bytes)) OsEvent α} (log : Outcome α → Step)
    (alike : Traced.Alike (Mirrors cwd root view) program other) :
    Traced.Alike (ExtractMirrors cwd root view) (callEnv log program) (callEnv log other) :=
  Traced.alike_call alike (fun _ _ same => same.1) fun _ _ _ _ same left => ⟨left, same.2⟩

theorem extractFolder_alike (spill : Bytes → Bytes → Nat) {stat : ZipStat}
    (plain : pathFormat.Plain stat.name) :
    Traced.Alike (ExtractMirrors cwd root view)
      (extractFolder (plainEnvironment os spill root) root stat)
      (extractFolder (plainEnvironment (fileSystemOs cwd) spill root) root stat) := by
  refine Traced.alike_bind (Traced.alike_act fun state shown same => ?_) fun created =>
    Traced.alike_bind (Traced.alike_emit _) fun _ => ?_
  · obtain ⟨mirrors, counted⟩ := same
    have answer := createDirectory_shows acts obliges plain mirrors.ready
    rw [← mirrors.os] at answer
    have frame := acts.createDirectory_frame (targetPath root stat.name) state.env.os
    refine ⟨congrArg Prod.fst answer.symm, ⟨congrArg Prod.snd answer, mirrors.ofs,
      mirrors.ready.kept frame, ?_⟩, counted⟩
    exact fun ofs opened => (mirrors.stands ofs opened).kept frame
  · cases created with
    | false => exact Traced.alike_pure false
    | true => exact callEnv_alike _ (Traced.alike_pure true)

theorem readLoop_alike (spill : Bytes → Bytes → Nat) (chunks : List Bytes) (last : Int)
    (fsz : UInt64) :
    Traced.Alike (ExtractMirrors cwd root view)
      (readLoop (plainEnvironment os spill root) chunks last fsz)
      (readLoop (plainEnvironment (fileSystemOs cwd) spill root) chunks last fsz) := by
  induction chunks generalizing fsz with
  | nil => exact Traced.alike_bind (Traced.alike_emit _) fun _ => Traced.alike_pure _
  | cons chunk chunks ih =>
    refine Traced.alike_bind (Traced.alike_emit _) fun _ => Traced.alike_bind
      (callEnv_alike _ (ofstreamWrite_alike acts obliges spill chunk)) fun accepted => ?_
    cases accepted with
    | false => exact Traced.alike_pure none
    | true => exact ih _

theorem readFile_alike (spill : Bytes → Bytes → Nat) (stat : ZipStat) (file : ZipFile) :
    Traced.Alike (ExtractMirrors cwd root view)
      (readFile (plainEnvironment os spill root) stat file)
      (readFile (plainEnvironment (fileSystemOs cwd) spill root) stat file) := by
  refine Traced.alike_bind (readLoop_alike acts obliges spill _ _ _) fun fsz => ?_
  cases fsz with
  | none => exact Traced.alike_pure _
  | some fsz => exact Traced.alike_pure _

theorem extractFile_alike (spill : Bytes → Bytes → Nat) (i : Nat) {stat : ZipStat}
    (entry : ZipEntry) (plain : pathFormat.Plain stat.name) (folder : stat.isFolder = false) :
    Traced.Alike (ExtractMirrors cwd root view)
      (extractFile (plainEnvironment os spill root) i stat entry)
      (extractFile (plainEnvironment (fileSystemOs cwd) spill root) i stat entry) := by
  rw [stat.isFolder_of_nonempty plain.nonempty] at folder
  rw [extractFile, extractFile]
  cases entry.file with
  | none => exact Traced.alike_bind (Traced.alike_emit _) fun _ => Traced.alike_pure _
  | some file =>
    refine Traced.alike_bind (Traced.alike_emit _) fun _ => Traced.alike_bind
      (callEnv_alike _ (createWriteLambda_alike acts obliges plain folder)) fun given => ?_
    cases given with
    | false => exact Traced.alike_pure false
    | true =>
      exact Traced.alike_ensure (readFile_alike acts obliges spill stat file)
        (callEnv_alike _ (ofstreamDestroy_alike acts obliges))

theorem extractEntry_alike (spill : Bytes → Bytes → Nat) (i : Nat) {entry : ZipEntry}
    (plain : ∀ stat, entry.stat = some stat → pathFormat.Plain stat.name) :
    Traced.Alike (ExtractMirrors cwd root view)
      (extractEntry (plainEnvironment os spill root) root i entry)
      (extractEntry (plainEnvironment (fileSystemOs cwd) spill root) root i entry) := by
  rw [extractEntry_eq, extractEntry_eq]
  cases described : entry.stat with
  | none => exact Traced.alike_pure true
  | some stat =>
    refine Traced.alike_bind (Traced.alike_modifyState fun state shown same => ?_) fun _ =>
      Traced.alike_bind (Traced.alike_emit _) fun _ => ?_
    · exact ⟨same.1, congrArg (· + stat.size) same.2⟩
    · cases folder : stat.isFolder with
      | true => exact extractFolder_alike acts obliges spill (plain stat described)
      | false => exact extractFile_alike acts obliges spill i entry (plain stat described) folder

theorem extractLoop_alike (spill : Bytes → Bytes → Nat) (i : Nat) {entries : List ZipEntry}
    (plain : PlainNames entries) :
    Traced.Alike (ExtractMirrors cwd root view)
      (extractLoop (plainEnvironment os spill root) root i entries)
      (extractLoop (plainEnvironment (fileSystemOs cwd) spill root) root i entries) := by
  induction entries generalizing i with
  | nil => exact Traced.alike_pure true
  | cons entry entries ih =>
    obtain ⟨here, others⟩ := List.forall_mem_cons.mp plain
    refine Traced.alike_bind (extractEntry_alike acts obliges spill i here) fun goesOn => ?_
    cases goesOn with
    | false => exact Traced.alike_pure false
    | true => exact ih (i + 1) others

/-- The whole call gives what it gives on the file system that the state shows, and leaves a
state that shows what is left there. -/
theorem archiveExtract_mirrors (spill : Bytes → Bytes → Nat)
    (zipOpen : Bytes → Option (List ZipEntry)) (zipPath : Bytes) {start : ω}
    (ready : Ready cwd root (view start)) (plain : PlainNames ((zipOpen zipPath).getD []))
    {size size' : UInt64} {success : Bool} {final : Files Bytes Bytes}
    (gives : (archiveExtract (fileSystemOs cwd) spill root zipOpen zipPath).Gives
      ⟨⟨view start, none⟩, size⟩ success ⟨⟨final, none⟩, size'⟩) :
    ∃ left, (archiveExtract os spill root zipOpen zipPath).Gives ⟨⟨start, none⟩, size⟩ success
        ⟨⟨left, none⟩, size'⟩ ∧ view left = final ∧ Ready cwd root final := by
  -- the loop reads the entries that libzip counts
  have plainRead : PlainNames (((zipOpen zipPath).getD []).take
      (zipGetNumEntries (zipOpen zipPath)).toNat) :=
    fun entry member => plain entry (List.mem_of_mem_take member)
  have alike : Traced.Alike (ExtractMirrors cwd root view)
      (archiveExtract os spill root zipOpen zipPath)
      (archiveExtract (fileSystemOs cwd) spill root zipOpen zipPath) :=
    Traced.alike_bind (Traced.alike_emit _) fun _ =>
      extractLoop_alike acts obliges spill 0 plainRead
  have mirrored : ExtractMirrors cwd root view ⟨⟨start, none⟩, size⟩ ⟨⟨view start, none⟩, size⟩ :=
    ⟨⟨rfl, rfl, ready, nofun⟩, rfl⟩
  obtain ⟨⟨⟨left, ofs⟩, counted⟩, real, mirrors, rfl⟩ := alike.gives mirrored gives
  obtain rfl : none = ofs := mirrors.ofs
  obtain rfl : final = view left := mirrors.os
  exact ⟨left, real, rfl, mirrors.ready⟩

end

end MyappsCommon.Utility.Archive
