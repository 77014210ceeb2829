import MyappsCommon.Utility.Archive.Mirroring

/-! # The plain extraction, without its streams

Each entry installs a node in the file system: a directory that has to be new, or a file that
may take the place of another.  How the streams cut and hold back the data does not matter in
the end.
-/

namespace MyappsCommon.Utility.Archive

open MyappsCommon.Lib

/-- The node of an entry and its place; there is none without `stat` or an open file. -/
def ZipEntry.item (cwd : List Bytes) (root : Bytes) (entry : ZipEntry) :
    Option (List Bytes × Node Bytes) :=
  match entry.stat with
  | none => none
  | some stat =>
    if stat.isFolder then some (extractPlace cwd root stat.name, .dir)
    else entry.file.map fun file => (extractPlace cwd root stat.name, .file file.chunks.flatten)

/-! ## Delivery by installation -/

section

variable {cwd : List Bytes} {root : Bytes} {spill : Bytes → Bytes → Nat}

theorem entryDelivered_unique {σ ε : Type} {env : Environment σ ε} {entry : ZipEntry}
    {state first second : σ} (delivered : EntryDelivered env root entry state first)
    (again : EntryDelivered env root entry state second) : first = second := by
  obtain ⟨_, ran⟩ := extractEntry_of_delivered delivered 0 0
  obtain ⟨_, ranAgain⟩ := extractEntry_of_delivered again 0 0
  have states := congrArg Result.state (ran.symm.trans ranAgain)
  exact congrArg ExtractState.env states

theorem createWriteLambda_true_iff {fileName : Bytes} {files : Files Bytes Bytes}
    {opened : PlainState (Files Bytes Bytes)} :
    (createWriteLambda (fileSystemOs cwd) root fileName).Gives ⟨files, none⟩ true opened ↔
      Files.Writable files (extractPlace cwd root fileName) ∧
        opened = ⟨files.put (extractPlace cwd root fileName) (.file []),
          some ⟨targetPath root fileName, [], true⟩⟩ := by
  cases answer : (fileSystemOs cwd).openFile (targetPath root fileName) files with
  | mk success os =>
    cases success with
    | false =>
      have shut : ¬ Files.Writable files (extractPlace cwd root fileName) := fun writable => by
        rw [openFile_true_iff.mpr ⟨writable, rfl⟩] at answer
        cases answer
      simp [createWriteLambda, answer, Traced.Gives, shut, Result.prepend]
    | true =>
      obtain ⟨writable, rfl⟩ := openFile_true_iff.mp answer
      simp [createWriteLambda, answer, Traced.Gives, extractPlace, writable, Result.prepend,
        eq_comm]

theorem fileDelivered_of_writable {stat : ZipStat} {files : Files Bytes Bytes}
    (writable : Files.Writable files (extractPlace cwd root stat.name)) (entry : ZipEntry)
    (file : ZipFile) :
    FileDelivered (plainEnvironment (fileSystemOs cwd) spill root) stat entry file ⟨files, none⟩
      ⟨files.put (extractPlace cwd root stat.name) (.file file.chunks.flatten), none⟩ := by
  have resolved : pathFormat.resolve cwd (targetPath root stat.name) =
      extractPlace cwd root stat.name := rfl
  -- what has been written and what is still buffered make up the content
  obtain ⟨written, buffered, kept, writes⟩ :=
    writesAll_fileSystem files resolved spill root file.chunks [] []
  refine ⟨_, _, _, createWriteLambda_true_iff.mpr ⟨writable, rfl⟩, writes, rfl, ?_⟩
  change _ = ((ofstreamDestroy (fileSystemOs cwd)).run _).state
  rw [ofstreamDestroy_state files resolved, kept]
  rfl

theorem folderDelivered_iff {stat : ZipStat} {files : Files Bytes Bytes}
    {state : PlainState (Files Bytes Bytes)} :
    FolderDelivered (plainEnvironment (fileSystemOs cwd) spill root) root stat ⟨files, none⟩
        state ↔
      ∃ final, files.create (extractPlace cwd root stat.name) .dir = some final ∧
        state = ⟨final, none⟩ := by
  constructor
  · rintro ⟨between, made, answered⟩
    obtain ⟨-, rfl⟩ := Traced.gives_pure_iff.mp answered
    have success := congrArg Prod.fst made
    have left := congrArg Prod.snd made
    cases created : files.create (extractPlace cwd root stat.name) .dir with
    | none =>
      rw [extractPlace] at created
      simp [plainEnvironment, fileSystemOs, created] at success
    | some final =>
      rw [extractPlace] at created
      simp only [plainEnvironment, fileSystemOs, created] at left
      exact ⟨final, rfl, left.symm⟩
  · rintro ⟨final, created, rfl⟩
    exact folderDelivered_fileSystem rfl created

/-- An entry is delivered when it is whole and its node can be installed. -/
theorem entryDelivered_iff {entry : ZipEntry} {files : Files Bytes Bytes}
    {state : PlainState (Files Bytes Bytes)} :
    EntryDelivered (plainEnvironment (fileSystemOs cwd) spill root) root entry ⟨files, none⟩
        state ↔
      entry.Whole ∧ ∃ final, Files.unpack (entry.item cwd root).toList files = some final ∧
        state = ⟨final, none⟩ := by
  have alone {item : List Bytes × Node Bytes} {final : Files Bytes Bytes} :
      Files.unpack [item] files = some final ↔ files.install item = some final := by
    simp [Files.unpack]
  cases described : entry.stat with
  | none =>
    rw [entryDelivered_skipped described, ZipEntry.item, described]
    have whole : entry.Whole := fun stat found => by
      rw [described] at found
      cases found
    simp [whole, Files.unpack]
  | some stat =>
    cases folder : stat.isFolder with
    | true =>
      have whole : entry.Whole := fun other found file => by
        rw [described, Option.some.injEq] at found
        rw [← found, folder] at file
        cases file
      rw [entryDelivered_folder described folder, folderDelivered_iff]
      simp [whole, ZipEntry.item, described, folder, alone, Files.install]
    | false =>
      constructor
      · intro delivered
        obtain ⟨file, opens, counted, given⟩ :=
          (entryDelivered_file described folder).mp delivered
        obtain ⟨_, _, _, made, -⟩ := given
        obtain ⟨writable, -⟩ := createWriteLambda_true_iff.mp made
        have whole : entry.Whole := fun other found _ => by
          rw [described, Option.some.injEq] at found
          exact ⟨file, opens, found ▸ counted⟩
        refine ⟨whole, _, ?_, entryDelivered_unique delivered
          ((entryDelivered_file described folder).mpr
            ⟨file, opens, counted, fileDelivered_of_writable writable entry file⟩)⟩
        simp only [ZipEntry.item, described, folder, opens, Bool.false_eq_true, if_false,
          Option.map_some, Option.toList_some, alone]
        exact Files.write_eq_some_iff.mpr ⟨writable, rfl⟩
      · rintro ⟨whole, final, installed, rfl⟩
        obtain ⟨file, opens, counted⟩ := whole stat described folder
        simp only [ZipEntry.item, described, folder, opens, Bool.false_eq_true, if_false,
          Option.map_some, Option.toList_some, alone] at installed
        obtain ⟨writable, rfl⟩ := Files.write_eq_some_iff.mp installed
        exact (entryDelivered_file described folder).mpr
          ⟨file, opens, counted, fileDelivered_of_writable writable entry file⟩

theorem loopDelivered_iff {entries : List ZipEntry} {files : Files Bytes Bytes}
    {state : PlainState (Files Bytes Bytes)} :
    LoopDelivered (plainEnvironment (fileSystemOs cwd) spill root) root entries ⟨files, none⟩
        state ↔
      (∀ entry ∈ entries, entry.Whole) ∧
        ∃ final, Files.unpack (entries.filterMap (ZipEntry.item cwd root)) files = some final ∧
          state = ⟨final, none⟩ := by
  induction entries generalizing files with
  | nil => simp [LoopDelivered, Files.unpack]
  | cons entry entries ih =>
    have items : (entry :: entries).filterMap (ZipEntry.item cwd root) =
        (entry.item cwd root).toList ++ entries.filterMap (ZipEntry.item cwd root) := by
      cases item : entry.item cwd root with
      | none => simp [item]
      | some _ => simp [item]
    rw [items, Files.unpack_append, List.forall_mem_cons]
    constructor
    · rintro ⟨between, first, rest⟩
      obtain ⟨whole, files', installed, rfl⟩ := entryDelivered_iff.mp first
      obtain ⟨wholeRest, final, unpacked, rfl⟩ := ih.mp rest
      exact ⟨⟨whole, wholeRest⟩, final, by rw [installed]; exact unpacked, rfl⟩
    · rintro ⟨⟨whole, wholeRest⟩, final, unpacked, rfl⟩
      obtain ⟨files', installed, rest⟩ := Option.bind_eq_some_iff.mp unpacked
      exact ⟨⟨files', none⟩, entryDelivered_iff.mpr ⟨whole, files', installed, rfl⟩,
        ih.mpr ⟨wholeRest, final, rest, rfl⟩⟩

end

/-! ## The whole call -/

/-- What a call that gives true has installed and counted. -/
theorem archiveExtract_true_iff {cwd : List Bytes} {root : Bytes} (spill : Bytes → Bytes → Nat)
    {zipOpen : Bytes → Option (List ZipEntry)} {zipPath : Bytes} {files final : Files Bytes Bytes}
    {size size' : UInt64} :
    (archiveExtract (fileSystemOs cwd) spill root zipOpen zipPath).Gives
        ⟨⟨files, none⟩, size⟩ true ⟨⟨final, none⟩, size'⟩ ↔
      (∀ entry ∈ (zipOpen zipPath).getD [], entry.Whole) ∧
        Files.unpack (((zipOpen zipPath).getD []).filterMap (ZipEntry.item cwd root)) files =
          some final ∧
        size' = ((zipOpen zipPath).getD []).foldl (fun total entry => total + entry.declared)
          size := by
  simp only [Traced.gives_iff, archiveExtract, run_doArchiveExtract, Result.prepend_outcome,
    Result.prepend_state]
  constructor
  · rintro ⟨success, left⟩
    obtain ⟨state, _, ran⟩ := Result.eq_of_outcome success
    obtain ⟨delivered, -, counted, -⟩ := extractLoop_true ran
    obtain ⟨whole, unpacked, done, state_eq⟩ := loopDelivered_iff.mp delivered
    rw [ran] at left
    subst left
    have same : final = unpacked := congrArg PlainState.os state_eq
    exact ⟨whole, same ▸ done, counted⟩
  · rintro ⟨whole, unpacked, rfl⟩
    obtain ⟨_, ran⟩ := extractLoop_of_delivered
      (loopDelivered_iff.mpr ⟨whole, final, unpacked, rfl⟩) 0 size
    exact ⟨by rw [ran], by rw [ran]⟩

section

variable {ω : Type} {os : Os ω} {cwd : List Bytes} {root : Bytes} {view : ω → Files Bytes Bytes}
  {start : ω} (acts : os.ActsOn cwd view) (obliges : os.Obliges cwd view)
  (zipOpen : Bytes → Option (List ZipEntry)) (zipPath : Bytes)
  (ready : Ready cwd root (view start)) (plain : PlainNames ((zipOpen zipPath).getD []))
include acts obliges ready plain

/-- A call ends as on the file system that is shown, and leaves what is left there. -/
theorem archiveExtract_answers (spill : Bytes → Bytes → Nat) (size : UInt64) :
    let extracted := (archiveExtract os spill root zipOpen zipPath).run ⟨⟨start, none⟩, size⟩
    ∃ success left size', extracted.outcome = .ok success ∧
      extracted.state = ⟨⟨left, none⟩, size'⟩ ∧
      (archiveExtract (fileSystemOs cwd) spill root zipOpen zipPath).Gives
        ⟨⟨view start, none⟩, size⟩ success ⟨⟨view left, none⟩, size'⟩ ∧
      Ready cwd root (view left) := by
  obtain ⟨success, final, size', gives, -⟩ :=
    archiveExtract_confined fileSystemOs_actsOn spill root zipOpen zipPath (view start) size
  obtain ⟨left, real, rfl, readyThere⟩ :=
    archiveExtract_mirrors acts obliges spill zipOpen zipPath ready plain gives
  obtain ⟨outcome, state⟩ := Traced.gives_iff.mp real
  exact ⟨success, left, size', outcome, state, gives, readyThere⟩

/-- On an operating system that obliges, and for an archive with plain names, the call returns
true and leaves a file system exactly when every entry is whole and installing the nodes in a row
leaves it. -/
theorem archive_extract_unpacks (spill : Bytes → Bytes → Nat) (size : UInt64)
    (final : Files Bytes Bytes) :
    let extracted := (archiveExtract os spill root zipOpen zipPath).run ⟨⟨start, none⟩, size⟩
    let entries := (zipOpen zipPath).getD []
    (extracted.outcome = .ok true ∧ view extracted.state.env.os = final) ↔
      (∀ entry ∈ entries, entry.Whole) ∧
        Files.unpack (entries.filterMap (ZipEntry.item cwd root)) (view start) = some final := by
  intro extracted entries
  obtain ⟨success, left, size', outcome, state, shown, -⟩ :=
    archiveExtract_answers acts obliges zipOpen zipPath ready plain spill size
  rw [show extracted.outcome = .ok success from outcome, show extracted.state = _ from state]
  constructor
  · rintro ⟨succeeded, rfl⟩
    obtain rfl : success = true := Outcome.ok.inj succeeded
    obtain ⟨whole, unpacked, -⟩ := (archiveExtract_true_iff spill).mp shown
    exact ⟨whole, unpacked⟩
  · rintro ⟨whole, unpacked⟩
    obtain ⟨rfl, same⟩ := shown.unique ((archiveExtract_true_iff spill).mpr ⟨whole, unpacked, rfl⟩)
    exact ⟨rfl, congrArg (fun state => state.env.os) same⟩

end

/-! ## Extracting again -/

theorem no_directory_iff {cwd : List Bytes} {root : Bytes} {entries : List ZipEntry} :
    (∀ item ∈ entries.filterMap (ZipEntry.item cwd root), item.2 ≠ .dir) ↔
      ∀ entry ∈ entries, ∀ stat, entry.stat = some stat → stat.isFolder = false := by
  have single {entry : ZipEntry} : (∀ item, entry.item cwd root = some item → item.2 ≠ .dir) ↔
      ∀ stat, entry.stat = some stat → stat.isFolder = false := by
    rw [ZipEntry.item]
    cases entry.stat with
    | none => simp
    | some stat =>
      cases folder : stat.isFolder with
      | true => simp [folder]
      | false => simp [folder]
  simp only [List.forall_mem_filterMap, single]

/-- An archive that has been extracted is extracted again into the same place exactly when no
entry is a folder; then nothing changes. -/
theorem archive_extract_again {ω : Type} {os : Os ω} {cwd : List Bytes} {root : Bytes}
    {view : ω → Files Bytes Bytes} {start : ω} (acts : os.ActsOn cwd view)
    (obliges : os.Obliges cwd view) (zipOpen : Bytes → Option (List ZipEntry)) (zipPath : Bytes)
    (ready : Ready cwd root (view start)) (plain : PlainNames ((zipOpen zipPath).getD []))
    (spill spill' : Bytes → Bytes → Nat) (size size' : UInt64)
    (success : ((archiveExtract os spill root zipOpen zipPath).run
      ⟨⟨start, none⟩, size⟩).outcome = .ok true) :
    let left := ((archiveExtract os spill root zipOpen zipPath).run
      ⟨⟨start, none⟩, size⟩).state.env.os
    let again := (archiveExtract os spill' root zipOpen zipPath).run ⟨⟨left, none⟩, size'⟩
    let flat := ∀ entry ∈ (zipOpen zipPath).getD [], ∀ stat, entry.stat = some stat →
      stat.isFolder = false
    (flat → again.outcome = .ok true ∧ view again.state.env.os = view left) ∧
      (¬ flat → again.outcome = .ok false) := by
  intro left again flat
  obtain ⟨value, final, _, outcome, state, shown, readyThere⟩ :=
    archiveExtract_answers acts obliges zipOpen zipPath ready plain spill size
  obtain rfl : left = final := congrArg (fun state => state.env.os) state
  obtain rfl : true = value := Outcome.ok.inj (success.symm.trans outcome)
  obtain ⟨whole, unpacked, -⟩ := (archiveExtract_true_iff spill).mp shown
  -- the second call starts from what the first has left
  obtain ⟨second, last, _, outcomeAgain, stateAgain, shownAgain, -⟩ :=
    archiveExtract_answers acts obliges zipOpen zipPath readyThere plain spill' size'
  rw [show again.outcome = .ok second from outcomeAgain, show again.state = _ from stateAgain]
  constructor
  · intro noFolder
    have unpackedAgain := (Files.unpack_again_iff unpacked).mpr
      ⟨no_directory_iff.mpr noFolder, rfl⟩
    obtain ⟨rfl, same⟩ := shownAgain.unique
      ((archiveExtract_true_iff spill').mpr ⟨whole, unpackedAgain, rfl⟩)
    exact ⟨rfl, congrArg (fun state => state.env.os) same⟩
  · intro folders
    cases second with
    | false => rfl
    | true =>
      obtain ⟨-, unpackedAgain, -⟩ := (archiveExtract_true_iff spill').mp shownAgain
      exact absurd (no_directory_iff.mp ((Files.unpack_again_iff unpacked).mp unpackedAgain).1)
        folders

/-! ## The nested tree -/

theorem nestedFiles_rooted : nestedFiles.Rooted where
  top := by decide
  inside place node stands := by
    revert stands
    rcases place with _ | ⟨first, _ | ⟨second, _ | ⟨third, below⟩⟩⟩
    all_goals simp [nestedFiles, Files.graft, nestedTree, Forest.lookup]
    · rintro rfl _ _ different
      exact absurd rfl different
    · rintro rfl rfl rfl rfl _
      simp

theorem nestedFiles_ready : Ready [] [120] nestedFiles where
  rooted := nestedFiles_rooted
  walkable := by decide

theorem nestedViews_plain : PlainNames nestedViews := by
  intro entry member stat described
  rcases List.mem_cons.mp member with rfl | member
  · obtain rfl := Option.some.inj described
    decide
  · obtain rfl := List.mem_singleton.mp member
    obtain rfl := Option.some.inj described
    decide

theorem nestedViews_whole : ∀ entry ∈ nestedViews, entry.Whole := by
  intro entry member stat described file
  rcases List.mem_cons.mp member with rfl | member
  · obtain rfl := Option.some.inj described
    cases file
  · obtain rfl := List.mem_singleton.mp member
    obtain rfl := Option.some.inj described
    exact ⟨_, rfl, by decide⟩

/-- The directory `d` and then the file `d/f` are installed. -/
theorem archive_extract_unpacks_nested :
    ((archiveExtract (fileSystemOs []) (fun _ _ => 0) [120] (fun _ => some nestedViews) [122]).run
      ⟨⟨nestedFiles, none⟩, 0⟩).outcome = .ok true := by
  obtain ⟨final, unpacked⟩ : ∃ final, Files.unpack (nestedViews.filterMap
      (ZipEntry.item [] [120])) nestedFiles = some final :=
    Option.isSome_iff_exists.mp (by decide)
  exact ((archive_extract_unpacks fileSystemOs_actsOn fileSystemOs_obliges
    (fun _ => some nestedViews) [122] nestedFiles_ready nestedViews_plain (fun _ _ => 0) 0
    final).mpr ⟨nestedViews_whole, unpacked⟩).1

/-- The directory `d` is there when the second call wants to create it. -/
theorem archive_extract_again_nested :
    ((archiveExtract (fileSystemOs []) (fun _ _ => 0) [120] (fun _ => some nestedViews) [122]).run
      ⟨⟨((archiveExtract (fileSystemOs []) (fun _ _ => 0) [120] (fun _ => some nestedViews)
        [122]).run ⟨⟨nestedFiles, none⟩, 0⟩).state.env.os, none⟩, 0⟩).outcome = .ok false := by
  refine (archive_extract_again fileSystemOs_actsOn fileSystemOs_obliges
    (fun _ => some nestedViews) [122] nestedFiles_ready nestedViews_plain (fun _ _ => 0)
    (fun _ _ => 0) 0 0 rfl).2 fun flat => ?_
  exact absurd (flat _ List.mem_cons_self _ rfl) (by decide)

end MyappsCommon.Utility.Archive
