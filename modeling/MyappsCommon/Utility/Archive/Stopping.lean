import MyappsCommon.Utility.Archive.Unpack

/-! # Where an extraction stops

A plain extraction that returns false has come to an entry that could not be installed, or
was not as long as declared.  The entries before it are there, and nothing else but what that
entry delivered.
-/

namespace MyappsCommon.Utility.Archive

open MyappsCommon.Lib

/-- How the loop stops at an entry, and what it leaves. -/
inductive Stops (cwd : List Bytes) (root : Bytes) (entry : ZipEntry) (files : Files Bytes Bytes) :
    Files Bytes Bytes → Prop where
  | closed {stat : ZipStat} (described : entry.stat = some stat) (folder : stat.isFolder = false)
      (closed : entry.file = none) : Stops cwd root entry files files
  | blocked {item : List Bytes × Node Bytes} (installs : entry.item cwd root = some item)
      (blocked : files.install item = none) : Stops cwd root entry files files
  | miscounted {item : List Bytes × Node Bytes} {final : Files Bytes Bytes}
      (installs : entry.item cwd root = some item) (installed : files.install item = some final)
      (miscounted : ¬ entry.Whole) : Stops cwd root entry files final

/-! ## One entry -/

section

variable {cwd : List Bytes} {root : Bytes} {spill : Bytes → Bytes → Nat}

/-- An entry is delivered, or the loop stops at it. -/
theorem delivered_or_stops (entry : ZipEntry) (files : Files Bytes Bytes) :
    (∃ final, entry.Whole ∧ Files.unpack (entry.item cwd root).toList files = some final) ∨
      ∃ final, Stops cwd root entry files final := by
  cases installs : entry.item cwd root with
  | none =>
    cases described : entry.stat with
    | none =>
      have whole : entry.Whole := fun stat found => by
        rw [described] at found
        cases found
      exact .inl ⟨files, whole, rfl⟩
    | some stat =>
      cases folder : stat.isFolder with
      | true => simp [ZipEntry.item, described, folder] at installs
      | false =>
        have closed : entry.file = none := by
          simpa [ZipEntry.item, described, folder] using installs
        exact .inr ⟨files, .closed described folder closed⟩
  | some item =>
    cases installed : files.install item with
    | none => exact .inr ⟨files, .blocked installs installed⟩
    | some final =>
      by_cases whole : entry.Whole
      · exact .inl ⟨final, whole, by simp [Files.unpack, installed]⟩
      · exact .inr ⟨final, .miscounted installs installed whole⟩

theorem item_eq_some_iff {entry : ZipEntry} {item : List Bytes × Node Bytes} :
    entry.item cwd root = some item ↔ ∃ stat, entry.stat = some stat ∧
      (stat.isFolder = true ∧ item = (extractPlace cwd root stat.name, .dir) ∨
        stat.isFolder = false ∧ ∃ file, entry.file = some file ∧
          item = (extractPlace cwd root stat.name, .file file.chunks.flatten)) := by
  cases described : entry.stat with
  | none => simp [ZipEntry.item, described]
  | some stat =>
    cases folder : stat.isFolder with
    | true => simp [ZipEntry.item, described, folder, eq_comm (a := item)]
    | false => simp [ZipEntry.item, described, folder, eq_comm (a := item)]

/-- The counter goes up first, and what follows decides. -/
theorem extractEntry_gives {σ ε : Type} {env : Environment σ ε} {entry : ZipEntry} {stat : ZipStat}
    (described : entry.stat = some stat) {i : Nat} {left final : σ} {size : UInt64} {value : Bool}
    (gives : (if stat.isFolder then extractFolder env root stat
      else extractFile env i stat entry).Gives ⟨left, size + stat.size⟩ value
        ⟨final, size + stat.size⟩) :
    (extractEntry env root i entry).Gives ⟨left, size⟩ value ⟨final, size + entry.declared⟩ := by
  simp only [extractEntry_eq, ZipEntry.declared, described, logStep, Traced.gives_seq_iff,
    Traced.gives_modifyState_iff, Traced.gives_emit_iff]
  exact ⟨_, rfl, _, rfl, gives⟩

theorem extractFolder_blocked {stat : ZipStat} {files : Files Bytes Bytes}
    (blocked : files.create (extractPlace cwd root stat.name) .dir = none) (size : UInt64) :
    (extractFolder (plainEnvironment (fileSystemOs cwd) spill root) root stat).Gives
      ⟨⟨files, none⟩, size⟩ false ⟨⟨files, none⟩, size⟩ := by
  have refused : (fileSystemOs cwd).createDirectory (targetPath root stat.name) files =
      (false, files) := by
    rw [extractPlace] at blocked
    simp [fileSystemOs, blocked]
  exact ⟨_, by simp [extractFolder, plainEnvironment, refused]; rfl⟩

theorem extractFile_blocked {entry : ZipEntry} {stat : ZipStat} {file : ZipFile}
    {files : Files Bytes Bytes} (opens : entry.file = some file)
    (shut : ¬ Files.Writable files (extractPlace cwd root stat.name)) (i : Nat) (size : UInt64) :
    (extractFile (plainEnvironment (fileSystemOs cwd) spill root) i stat entry).Gives
      ⟨⟨files, none⟩, size⟩ false ⟨⟨files, none⟩, size⟩ := by
  have refused : (createWriteLambda (fileSystemOs cwd) root stat.name).Gives ⟨files, none⟩ false
      ⟨files, none⟩ :=
    ⟨_, by simp [createWriteLambda, openFile_blocked shut]; rfl⟩
  rw [extractFile, opens, Traced.gives_seq_iff]
  exact ⟨_, Traced.gives_emit_iff.mpr rfl, Traced.gives_bind_iff.mpr
    ⟨false, _, callEnv_of_gives refused _ size, Traced.gives_pure_iff.mpr ⟨rfl, rfl⟩⟩⟩

/-- An accepted file is counted at the end. -/
theorem extractFile_counts {σ ε : Type} {env : Environment σ ε} {stat : ZipStat}
    {entry : ZipEntry} {file : ZipFile} {left final : σ} (opens : entry.file = some file)
    (delivered : FileDelivered env stat entry file left final) (i : Nat) (size : UInt64) :
    (extractFile env i stat entry).Gives ⟨left, size⟩ (file.delivered == stat.size)
      ⟨final, size⟩ := by
  obtain ⟨opened, written, _, given, writes, rfl, rfl⟩ := delivered
  obtain ⟨_, looped⟩ := readLoop_of_writesAll writes file.last 0 size
  have read : (readFile env stat file).run ⟨opened, size⟩ =
      ⟨.ok (file.delivered == stat.size), ⟨written, size⟩, _⟩ :=
    Traced.bind_ok_iff.mpr ⟨_, _, _, _, looped, Traced.pure_ok_iff.mpr ⟨rfl, rfl, rfl⟩, rfl⟩
  rw [extractFile, opens, Traced.gives_seq_iff]
  exact ⟨_, Traced.gives_emit_iff.mpr rfl, Traced.gives_bind_iff.mpr
    ⟨true, _, callEnv_of_gives given _ size, _, Traced.ensure_ok_iff.mpr ⟨_, _, read, rfl, rfl⟩⟩⟩

theorem extractEntry_of_whole {entry : ZipEntry} {files final : Files Bytes Bytes}
    (whole : entry.Whole)
    (installed : Files.unpack (entry.item cwd root).toList files = some final) (i : Nat)
    (size : UInt64) :
    (extractEntry (plainEnvironment (fileSystemOs cwd) spill root) root i entry).Gives
      ⟨⟨files, none⟩, size⟩ true ⟨⟨final, none⟩, size + entry.declared⟩ :=
  extractEntry_of_delivered (entryDelivered_iff.mpr ⟨whole, final, installed, rfl⟩) i size

theorem extractEntry_of_stops {entry : ZipEntry} {files final : Files Bytes Bytes}
    (stops : Stops cwd root entry files final) (i : Nat) (size : UInt64) :
    (extractEntry (plainEnvironment (fileSystemOs cwd) spill root) root i entry).Gives
      ⟨⟨files, none⟩, size⟩ false ⟨⟨final, none⟩, size + entry.declared⟩ := by
  cases stops with
  | closed described folder closed =>
    refine extractEntry_gives described ?_
    rw [folder, if_neg Bool.false_ne_true, extractFile, closed]
    exact ⟨_, rfl⟩
  | blocked installs blocked =>
    obtain ⟨stat, described, ⟨folder, rfl⟩ | ⟨folder, file, opens, rfl⟩⟩ :=
      item_eq_some_iff.mp installs
    · refine extractEntry_gives described ?_
      rw [if_pos folder]
      exact extractFolder_blocked blocked _
    · refine extractEntry_gives described ?_
      have shut : ¬ Files.Writable files (extractPlace cwd root stat.name) := fun writable =>
        Option.some_ne_none _ ((Files.write_eq_some_iff.mpr ⟨writable, rfl⟩).symm.trans blocked)
      rw [folder, if_neg Bool.false_ne_true]
      exact extractFile_blocked opens shut i _
  | miscounted installs installed miscounted =>
    obtain ⟨stat, described, ⟨folder, rfl⟩ | ⟨folder, file, opens, rfl⟩⟩ :=
      item_eq_some_iff.mp installs
    · refine absurd (fun other found file => ?_) miscounted
      rw [described, Option.some.injEq] at found
      rw [← found, folder] at file
      cases file
    · obtain ⟨writable, rfl⟩ := Files.write_eq_some_iff.mp installed
      have short : file.delivered ≠ stat.size := fun counted => miscounted fun other found _ => by
        rw [described, Option.some.injEq] at found
        exact ⟨file, opens, found ▸ counted⟩
      have delivered : FileDelivered (plainEnvironment (fileSystemOs cwd) spill root) stat entry
          file ⟨files, none⟩ _ := fileDelivered_of_writable writable entry file
      have counts := extractFile_counts opens delivered i (size + stat.size)
      rw [beq_false_of_ne short] at counts
      refine extractEntry_gives described ?_
      rwa [folder, if_neg Bool.false_ne_true]

/-! ## All entries -/

variable (cwd root) in
/-- The loop over the entries stops with this file system and this counter. -/
def LoopStops (entries : List ZipEntry) (files : Files Bytes Bytes) (size : UInt64)
    (final : Files Bytes Bytes) (size' : UInt64) : Prop :=
  ∃ before entry after between, entries = before ++ entry :: after ∧
    (∀ earlier ∈ before, earlier.Whole) ∧
    Files.unpack (before.filterMap (ZipEntry.item cwd root)) files = some between ∧
    Stops cwd root entry between final ∧
    size' = (before ++ [entry]).foldl (fun total entry => total + entry.declared) size

theorem unpack_filterMap_cons (entry : ZipEntry) (entries : List ZipEntry)
    (files : Files Bytes Bytes) :
    Files.unpack ((entry :: entries).filterMap (ZipEntry.item cwd root)) files =
      (Files.unpack (entry.item cwd root).toList files).bind
        (Files.unpack (entries.filterMap (ZipEntry.item cwd root))) := by
  rw [← Files.unpack_append]
  cases installs : entry.item cwd root with
  | none => simp [installs]
  | some item => simp [installs]

/-- A stop at the first entry, or behind it. -/
theorem loopStops_cons_iff {entry : ZipEntry} {entries : List ZipEntry}
    {files final : Files Bytes Bytes} {size size' : UInt64} :
    LoopStops cwd root (entry :: entries) files size final size' ↔
      Stops cwd root entry files final ∧ size' = size + entry.declared ∨
        entry.Whole ∧ ∃ between,
          Files.unpack (entry.item cwd root).toList files = some between ∧
            LoopStops cwd root entries between (size + entry.declared) final size' := by
  constructor
  · rintro ⟨before, stopped, after, between, split, whole, unpacked, stops, counted⟩
    cases before with
    | nil =>
      obtain ⟨rfl, rfl⟩ := List.cons.inj split
      cases unpacked
      exact .inl ⟨stops, counted⟩
    | cons first before =>
      obtain ⟨rfl, rfl⟩ := List.cons.inj split
      rw [List.forall_mem_cons] at whole
      rw [unpack_filterMap_cons, Option.bind_eq_some_iff] at unpacked
      obtain ⟨installed, first, rest⟩ := unpacked
      exact .inr ⟨whole.1, installed, first, before, stopped, after, between, rfl, whole.2, rest,
        stops, counted⟩
  · rintro (⟨stops, counted⟩ | ⟨wholeFirst, installed, first, before, stopped, after, between, rfl,
      whole, rest, stops, counted⟩)
    · exact ⟨[], entry, entries, files, rfl, List.forall_mem_nil _, rfl, stops, counted⟩
    · refine ⟨entry :: before, stopped, after, between, rfl,
        List.forall_mem_cons.mpr ⟨wholeFirst, whole⟩, ?_, stops, counted⟩
      rw [unpack_filterMap_cons, first]
      exact rest

theorem extractLoop_false_iff {entries : List ZipEntry} {files final : Files Bytes Bytes} {i : Nat}
    {size size' : UInt64} :
    (extractLoop (plainEnvironment (fileSystemOs cwd) spill root) root i entries).Gives
        ⟨⟨files, none⟩, size⟩ false ⟨⟨final, none⟩, size'⟩ ↔
      LoopStops cwd root entries files size final size' := by
  induction entries generalizing i files size with
  | nil =>
    constructor
    · intro gives
      cases (Traced.gives_pure_iff.mp gives).1
    · rintro ⟨before, entry, after, -, split, -⟩
      simp at split
  | cons entry entries ih =>
    rw [extractLoop, Traced.gives_bind_iff, loopStops_cons_iff]
    rcases delivered_or_stops entry files with ⟨between, whole, installed⟩ | ⟨stopped, stops⟩
    · -- the loop goes on behind the entry, and it cannot stop at it
      have goesOn : (extractEntry (plainEnvironment (fileSystemOs cwd) spill root) root i
          entry).Gives ⟨⟨files, none⟩, size⟩ true ⟨⟨between, none⟩, size + entry.declared⟩ :=
        extractEntry_of_whole whole installed i size
      constructor
      · rintro ⟨value, state, first, rest⟩
        obtain ⟨rfl, rfl⟩ := goesOn.unique first
        exact .inr ⟨whole, between, installed, ih.mp rest⟩
      · rintro (⟨stops, -⟩ | ⟨-, again, installedAgain, rest⟩)
        · cases (goesOn.unique (extractEntry_of_stops stops i size)).1
        · rw [installed, Option.some.injEq] at installedAgain
          exact ⟨true, _, goesOn, ih.mpr (installedAgain ▸ rest)⟩
    · have stopsHere : (extractEntry (plainEnvironment (fileSystemOs cwd) spill root) root i
          entry).Gives ⟨⟨files, none⟩, size⟩ false ⟨⟨stopped, none⟩, size + entry.declared⟩ :=
        extractEntry_of_stops stops i size
      constructor
      · rintro ⟨value, state, first, rest⟩
        obtain ⟨rfl, rfl⟩ := stopsHere.unique first
        obtain ⟨-, left⟩ := Traced.gives_pure_iff.mp rest
        cases left
        exact .inl ⟨stops, rfl⟩
      · rintro (⟨again, rfl⟩ | ⟨whole, between, installed, -⟩)
        · exact ⟨false, _, extractEntry_of_stops again i size,
            Traced.gives_pure_iff.mpr ⟨rfl, rfl⟩⟩
        · cases (stopsHere.unique (extractEntry_of_whole whole installed i size)).1

end

/-- The call on the file system itself returns false exactly when its loop stops. -/
theorem archiveExtract_false_iff {cwd : List Bytes} {root : Bytes} (spill : Bytes → Bytes → Nat)
    {zipOpen : Bytes → Option (List ZipEntry)} {zipPath : Bytes} {files final : Files Bytes Bytes}
    {size size' : UInt64} :
    (archiveExtract (fileSystemOs cwd) spill root zipOpen zipPath).Gives
        ⟨⟨files, none⟩, size⟩ false ⟨⟨final, none⟩, size'⟩ ↔
      LoopStops cwd root ((zipOpen zipPath).getD []) files size final size' := by
  rw [← @extractLoop_false_iff cwd root spill _ files final 0, Traced.gives_iff, Traced.gives_iff,
    archiveExtract, run_doArchiveExtract, Result.prepend_outcome, Result.prepend_state]

/-- On an operating system that obliges, and for an archive with plain names, the call returns
false and leaves a file system and a counter exactly when the entries before some entry are whole
and installing their nodes in a row succeeds, the call stops at that entry, which leaves the file
system, and the counter has gone up by the declared sizes so far. -/
theorem archive_extract_stops {ω : Type} {os : Os ω} {cwd : List Bytes} {root : Bytes}
    {view : ω → Files Bytes Bytes} {start : ω} (acts : os.ActsOn cwd view)
    (obliges : os.Obliges cwd view) (zipOpen : Bytes → Option (List ZipEntry)) (zipPath : Bytes)
    (ready : Ready cwd root (view start)) (plain : PlainNames ((zipOpen zipPath).getD []))
    (spill : Bytes → Bytes → Nat) (size size' : UInt64) (final : Files Bytes Bytes) :
    let extracted := (archiveExtract os spill root zipOpen zipPath).run ⟨⟨start, none⟩, size⟩
    (extracted.outcome = .ok false ∧ view extracted.state.env.os = final ∧
        extracted.state.runcompressedSize = size') ↔
      LoopStops cwd root ((zipOpen zipPath).getD []) (view start) size final size' := by
  intro extracted
  obtain ⟨success, left, counted, outcome, state, shown, -⟩ :=
    archiveExtract_answers acts obliges zipOpen zipPath ready plain spill size
  rw [show extracted.outcome = .ok success from outcome, show extracted.state = _ from state]
  constructor
  · rintro ⟨stopped, rfl, rfl⟩
    obtain rfl : success = false := Outcome.ok.inj stopped
    exact (archiveExtract_false_iff spill).mp shown
  · intro stops
    obtain ⟨rfl, same⟩ := shown.unique ((archiveExtract_false_iff spill).mpr stops)
    exact ⟨rfl, congrArg (fun state => state.env.os) same,
      congrArg ExtractState.runcompressedSize same⟩

/-- The file `d/f` comes first, and its directory is not there. -/
theorem archive_extract_stops_nested :
    ((archiveExtract (fileSystemOs []) (fun _ _ => 0) [120] (fun _ => some nestedViews.reverse)
      [122]).run ⟨⟨nestedFiles, none⟩, 5⟩).outcome = .ok false := by
  have plain : PlainNames nestedViews.reverse := fun entry member =>
    nestedViews_plain entry (List.mem_reverse.mp member)
  refine ((archive_extract_stops fileSystemOs_actsOn fileSystemOs_obliges
    (fun _ => some nestedViews.reverse) [122] nestedFiles_ready plain (fun _ _ => 0) 5 6
    nestedFiles).mpr ⟨[], _, _, nestedFiles, rfl, List.forall_mem_nil _, rfl, ?_, rfl⟩).1
  have homeless : nestedFiles.install ([[120], [100], [102]], .file [65]) = none := by decide
  exact .blocked rfl homeless

end MyappsCommon.Utility.Archive
