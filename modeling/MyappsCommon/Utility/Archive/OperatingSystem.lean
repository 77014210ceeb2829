import MyappsCommon.Lib.Creation
import MyappsCommon.Lib.Simulation
import MyappsCommon.Utility.Archive.RoundTrip

/-! # Operating systems with a file system behind them

What the plain `archive_extract` can rely on is stated of any operating system: that a call
has done what it says when it succeeds, and where that is needed, that it succeeds when it can.
-/

namespace MyappsCommon.Utility.Archive

open MyappsCommon.Lib

variable {ω : Type}

/-- The file system that a state shows is changed by the calls only, and by each as it answers.
A call may fail at any time, and then it has changed nothing, or has appended a part of the data.
There are no links: a path leads where its components lead. -/
structure Os.ActsOn (os : Os ω) (cwd : List Bytes) (view : ω → Files Bytes Bytes) : Prop where
  created : ∀ path state, (os.createDirectory path state).1 = true →
    (view state).create (pathFormat.resolve cwd path) .dir =
      some (view (os.createDirectory path state).2)
  notCreated : ∀ path state, (os.createDirectory path state).1 = false →
    view (os.createDirectory path state).2 = view state
  opened : ∀ path state, (os.openFile path state).1 = true →
    Files.Writable (view state) (pathFormat.resolve cwd path) ∧
      view (os.openFile path state).2 =
        (view state).put (pathFormat.resolve cwd path) (.file [])
  notOpened : ∀ path state, (os.openFile path state).1 = false →
    view (os.openFile path state).2 = view state
  appended : ∀ path data state content,
    view state (pathFormat.resolve cwd path) = some (.file content) →
      ∃ part, part <+: data ∧ ((os.append path data state).1 = true → part = data) ∧
        view (os.append path data state).2 =
          (view state).put (pathFormat.resolve cwd path) (.file (content ++ part))

/-- Whatever can be done is done: the directories on the way of a path are there, and the node
can be created or the file written. -/
structure Os.Obliges (os : Os ω) (cwd : List Bytes) (view : ω → Files Bytes Bytes) : Prop where
  creates : ∀ path state final,
    pathFormat.Walkable (fun place => view state place = some .dir) cwd path →
      (view state).create (pathFormat.resolve cwd path) .dir = some final →
        (os.createDirectory path state).1 = true
  opens : ∀ path state,
    pathFormat.Walkable (fun place => view state place = some .dir) cwd path →
      endsInSlash path = false → Files.Writable (view state) (pathFormat.resolve cwd path) →
        (os.openFile path state).1 = true
  appends : ∀ path data state content,
    view state (pathFormat.resolve cwd path) = some (.file content) →
      (os.append path data state).1 = true

/-! ## The file system itself -/

section

variable {cwd : List Bytes}

/-- A file is opened where it can be written, and is empty then. -/
theorem openFile_true_iff {path : Bytes} {files final : Files Bytes Bytes} :
    (fileSystemOs cwd).openFile path files = (true, final) ↔
      Files.Writable files (pathFormat.resolve cwd path) ∧
        final = files.put (pathFormat.resolve cwd path) (.file []) := by
  cases stands : files (pathFormat.resolve cwd path) with
  | none =>
    cases created : files.create (pathFormat.resolve cwd path) (.file []) with
    | none =>
      have homeless : files (pathFormat.resolve cwd path).dropLast ≠ some .dir := fun parent => by
        rw [Files.create_eq_some_iff.mpr ⟨stands, parent, rfl⟩] at created
        cases created
      simp [fileSystemOs, Files.Writable, stands, created, homeless]
    | some made =>
      obtain ⟨-, parent, rfl⟩ := Files.create_eq_some_iff.mp created
      simp [fileSystemOs, Files.Writable, stands, created, parent, eq_comm]
  | some node =>
    cases node with
    | dir => simp [fileSystemOs, Files.Writable, stands]
    | file content => simp [fileSystemOs, Files.Writable, stands, eq_comm]

/-- Where no file can be written, none is opened. -/
theorem openFile_blocked {path : Bytes} {files : Files Bytes Bytes}
    (shut : ¬ Files.Writable files (pathFormat.resolve cwd path)) :
    (fileSystemOs cwd).openFile path files = (false, files) := by
  cases stands : files (pathFormat.resolve cwd path) with
  | none =>
    cases created : files.create (pathFormat.resolve cwd path) (.file []) with
    | none => simp [fileSystemOs, stands, created]
    | some made =>
      obtain ⟨-, parent, -⟩ := Files.create_eq_some_iff.mp created
      simp [Files.Writable, stands, parent] at shut
  | some node =>
    cases node with
    | dir => simp [fileSystemOs, stands]
    | file content => simp [Files.Writable, stands] at shut

theorem fileSystemOs_actsOn : (fileSystemOs cwd).ActsOn cwd id where
  created path files success := by
    cases created : files.create (pathFormat.resolve cwd path) .dir with
    | none => simp [fileSystemOs, created] at success
    | some final => simp [fileSystemOs, created]
  notCreated path files failure := by
    cases created : files.create (pathFormat.resolve cwd path) .dir with
    | none => simp [fileSystemOs, created]
    | some final => simp [fileSystemOs, created] at failure
  opened path files success := openFile_true_iff.mp (Prod.ext success rfl)
  notOpened path files failure := by
    by_cases writable : Files.Writable files (pathFormat.resolve cwd path)
    · rw [openFile_true_iff.mpr ⟨writable, rfl⟩] at failure
      cases failure
    · rw [openFile_blocked writable]
  appended path data files content stands := by
    refine ⟨data, List.prefix_rfl, fun _ => rfl, ?_⟩
    change files _ = _ at stands
    simp [fileSystemOs, stands]

theorem fileSystemOs_obliges : (fileSystemOs cwd).Obliges cwd id where
  creates path files final _ created := by
    change files.create _ _ = _ at created
    simp [fileSystemOs, created]
  opens path files _ _ writable := congrArg Prod.fst (openFile_true_iff.mpr ⟨writable, rfl⟩)
  appends path data files content stands := by
    change files _ = _ at stands
    simp [fileSystemOs, stands]

end

/-! ## What a call may change -/

section

variable {os : Os ω} {cwd : List Bytes} {view : ω → Files Bytes Bytes} (acts : os.ActsOn cwd view)
include acts

theorem Os.ActsOn.createDirectory_frame (path : Bytes) (state : ω) :
    Files.Frame (· = pathFormat.resolve cwd path) (view state)
      (view (os.createDirectory path state).2) := by
  cases answer : (os.createDirectory path state).1 with
  | true => exact Files.frame_create (acts.created path state answer)
  | false =>
    rw [acts.notCreated path state answer]
    exact Files.Frame.refl _ _

theorem Os.ActsOn.openFile_frame (path : Bytes) (state : ω) :
    Files.Frame (· = pathFormat.resolve cwd path) (view state)
      (view (os.openFile path state).2) := by
  cases answer : (os.openFile path state).1 with
  | true =>
    obtain ⟨writable, left⟩ := acts.opened path state answer
    have written : (view state).install (pathFormat.resolve cwd path, .file []) = some _ :=
      Files.write_eq_some_iff.mpr ⟨writable, rfl⟩
    rw [left]
    exact Files.frame_install written
  | false =>
    rw [acts.notOpened path state answer]
    exact Files.Frame.refl _ _

theorem Os.ActsOn.append_frame {path : Bytes} {state : ω} {content : Bytes}
    (stands : view state (pathFormat.resolve cwd path) = some (.file content)) (data : Bytes) :
    Files.Frame (· = pathFormat.resolve cwd path) (view state)
      (view (os.append path data state).2) := by
  obtain ⟨part, -, -, left⟩ := acts.appended path data state content stands
  rw [left]
  exact Files.frame_put_file stands _

end

end MyappsCommon.Utility.Archive
