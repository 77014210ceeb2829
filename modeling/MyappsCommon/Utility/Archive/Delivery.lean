import MyappsCommon.Utility.Archive.Extract

/-! # What an extraction that returns true has done

A run of the entry loop gives true exactly when every entry that can be described is
delivered, and then its steps are determined by the archive alone.
-/

namespace MyappsCommon.Utility.Archive

open MyappsCommon.Lib

variable {σ ε α : Type}

/-! ## Steps -/

def Event.step? : Event ε → Option Step
  | .step logged => some logged
  | .inner _ => none

/-- The function's own steps. -/
def steps (trace : List (Event ε)) : List Step := trace.filterMap Event.step?

@[simp] theorem steps_nil : steps ([] : List (Event ε)) = [] := rfl

@[simp] theorem steps_cons_step (step : Step) (trace : List (Event ε)) :
    steps (.step step :: trace) = step :: steps trace := rfl

@[simp] theorem steps_append (first second : List (Event ε)) :
    steps (first ++ second) = steps first ++ steps second := List.filterMap_append

@[simp] theorem steps_map_inner (events : List ε) : steps (events.map Event.inner) = [] := by
  induction events with
  | nil => rfl
  | cons event events ih => exact ih

@[simp] theorem run_logStep (step : Step) (state : ExtractState σ) :
    (logStep step : ExtractM σ ε Unit).run state = ⟨.ok (), state, [.step step]⟩ := rfl

theorem callEnv_ok_iff {log : Outcome α → Step} {program : Traced σ ε α}
    {state final : ExtractState σ} {value : α} {trace : List (Event ε)} :
    (callEnv log program).run state = ⟨.ok value, final, trace⟩ ↔
      ∃ left events, program.run state.env = ⟨.ok value, left, events⟩ ∧
        final = { state with env := left } ∧
        trace = events.map Event.inner ++ [.step (log (.ok value))] :=
  Traced.call_ok_iff

/-- The steps by which an open file is read and all of it is accepted. -/
def readSteps : List Bytes → Int → List Step
  | [], last => [.fread last]
  | chunk :: chunks, last =>
    .fread chunk.length :: .fileWrite chunk (.ok true) :: readSteps chunks last

def folderSteps (root : Bytes) (stat : ZipStat) : List Step :=
  [.createDirectory (targetPath root stat.name) true, .onCreateDir stat.name (.ok true)]

def fileSteps (i : Nat) (stat : ZipStat) (entry : ZipEntry) (file : ZipFile) : List Step :=
  let data := (entry.extraFieldById metaExtraFieldId).map ExtraField.data
  let dataSize := UInt16.ofNat ((data.getD []).length)
  .fopenIndex i true :: .createFileWriter stat.name stat.size data dataSize (.ok true) ::
    (readSteps file.chunks file.last ++ [.destroyFileWriter])

/-- The steps that deliver an entry; an entry without `stat` is passed over. -/
def entrySteps (root : Bytes) (i : Nat) (entry : ZipEntry) : List Step :=
  match entry.stat with
  | none => []
  | some stat =>
    .nameRead (stat.strlen - 1) stat.strlen ::
      if stat.isFolder then folderSteps root stat
      else
        match entry.file with
        | none => []
        | some file => fileSteps i stat entry file

def loopSteps (root : Bytes) : Nat → List ZipEntry → List Step
  | _, [] => []
  | i, entry :: entries => entrySteps root i entry ++ loopSteps root (i + 1) entries

/-- What an entry adds to the counter. -/
def ZipEntry.declared (entry : ZipEntry) : UInt64 :=
  match entry.stat with
  | none => 0
  | some stat => stat.size

/-- A file entry opens and delivers as many bytes as it declares. -/
def ZipEntry.Whole (entry : ZipEntry) : Prop :=
  ∀ stat, entry.stat = some stat → stat.isFolder = false →
    ∃ file, entry.file = some file ∧ file.delivered = stat.size

/-! ## Delivery, in the state of the environment -/

section

variable (env : Environment σ ε) (root : Bytes)

def WritesAll : List Bytes → σ → σ → Prop
  | [], state, final => final = state
  | chunk :: chunks, state, final =>
    ∃ between, Traced.Gives (env.fileWriteFunction chunk) state true between ∧
      WritesAll chunks between final

def FolderDelivered (stat : ZipStat) (state final : σ) : Prop :=
  ∃ between, env.createDirectory (targetPath root stat.name) state = (true, between) ∧
    Traced.Gives (env.onCreateDirFunction stat.name) between true final

def FileDelivered (stat : ZipStat) (entry : ZipEntry) (file : ZipFile) (state final : σ) : Prop :=
  let data := (entry.extraFieldById metaExtraFieldId).map ExtraField.data
  let dataSize := UInt16.ofNat ((data.getD []).length)
  ∃ opened written destroyed,
    Traced.Gives (env.createFileWriterFunction stat.name stat.size data dataSize) state true
      opened ∧
    WritesAll env file.chunks opened written ∧
    destroyed = env.destroyFileWriteFunction.run written ∧ final = destroyed.state

def EntryDelivered (entry : ZipEntry) (state final : σ) : Prop :=
  match entry.stat with
  | none => final = state
  | some stat =>
    if stat.isFolder then FolderDelivered env root stat state final
    else ∃ file, entry.file = some file ∧ file.delivered = stat.size ∧
      FileDelivered env stat entry file state final

def LoopDelivered : List ZipEntry → σ → σ → Prop
  | [], state, final => final = state
  | entry :: entries, state, final =>
    ∃ between, EntryDelivered env root entry state between ∧
      LoopDelivered entries between final

end

section

variable {env : Environment σ ε} {root : Bytes}

theorem entryDelivered_skipped {entry : ZipEntry} {state final : σ}
    (described : entry.stat = none) :
    EntryDelivered env root entry state final ↔ final = state := by
  rw [EntryDelivered, described]

theorem entryDelivered_folder {entry : ZipEntry} {stat : ZipStat} {state final : σ}
    (described : entry.stat = some stat) (folder : stat.isFolder = true) :
    EntryDelivered env root entry state final ↔ FolderDelivered env root stat state final := by
  simp [EntryDelivered, described, folder]

theorem entryDelivered_file {entry : ZipEntry} {stat : ZipStat} {state final : σ}
    (described : entry.stat = some stat) (folder : stat.isFolder = false) :
    EntryDelivered env root entry state final ↔
      ∃ file, entry.file = some file ∧ file.delivered = stat.size ∧
        FileDelivered env stat entry file state final := by
  simp [EntryDelivered, described, folder]

/-! ## Inversion of runs that deliver -/

theorem readLoop_nil_ok {last : Int} {fsz total : UInt64} {state final : ExtractState σ}
    {trace : List (Event ε)}
    (ran : (readLoop env [] last fsz).run state = ⟨.ok (some total), final, trace⟩) :
    total = fsz ∧ final = state ∧ trace = [.step (.fread last)] := by
  simp only [readLoop, Traced.run_bind, run_logStep, Result.andThen_ok, Traced.run_pure,
    Result.prepend, Result.mk.injEq, Outcome.ok.injEq, Option.some.injEq] at ran
  obtain ⟨rfl, rfl, rfl⟩ := ran
  exact ⟨rfl, rfl, rfl⟩

/-- A count means that the writer has accepted the first piece. -/
theorem readLoop_cons_ok {chunk : Bytes} {chunks : List Bytes} {last : Int} {fsz total : UInt64}
    {state final : ExtractState σ} {trace : List (Event ε)}
    (ran : (readLoop env (chunk :: chunks) last fsz).run state =
      ⟨.ok (some total), final, trace⟩) :
    ∃ left events rest, (env.fileWriteFunction chunk).run state.env = ⟨.ok true, left, events⟩ ∧
      (readLoop env chunks last (addChunk fsz chunk)).run { state with env := left } =
        ⟨.ok (some total), final, rest⟩ ∧
      trace = .step (.fread chunk.length) ::
        (events.map Event.inner ++ .step (.fileWrite chunk (.ok true)) :: rest) := by
  rw [readLoop, Traced.bind_ok_iff] at ran
  obtain ⟨_, _, _, _, logged, ran, rfl⟩ := ran
  cases logged
  rw [Traced.bind_ok_iff] at ran
  obtain ⟨accepted, _, _, rest, called, ran, rfl⟩ := ran
  obtain ⟨left, events, written, rfl, rfl⟩ := callEnv_ok_iff.mp called
  cases accepted with
  | false => cases ran
  | true => exact ⟨left, events, rest, written, ran, by simp⟩

theorem readFile_ok {stat : ZipStat} {file : ZipFile} {state final : ExtractState σ}
    {trace : List (Event ε)}
    (ran : (readFile env stat file).run state = ⟨.ok true, final, trace⟩) :
    (readLoop env file.chunks file.last 0).run state = ⟨.ok (some stat.size), final, trace⟩ := by
  rw [readFile, Traced.bind_ok_iff] at ran
  obtain ⟨count, _, _, _, read, ran, rfl⟩ := ran
  cases count with
  | none => cases ran
  | some fsz =>
    rw [Traced.pure_ok_iff, beq_iff_eq] at ran
    obtain ⟨rfl, rfl, rfl⟩ := ran
    rw [read, List.append_nil]

theorem extractFolder_ok {stat : ZipStat} {state final : ExtractState σ} {trace : List (Event ε)}
    (ran : (extractFolder env root stat).run state = ⟨.ok true, final, trace⟩) :
    ∃ between left events,
      env.createDirectory (targetPath root stat.name) state.env = (true, between) ∧
      (env.onCreateDirFunction stat.name).run between = ⟨.ok true, left, events⟩ ∧
      final = { state with env := left } ∧
      trace = .step (.createDirectory (targetPath root stat.name) true) ::
        (events.map Event.inner ++ [.step (.onCreateDir stat.name (.ok true))]) := by
  rw [extractFolder, Traced.bind_ok_iff] at ran
  obtain ⟨created, _, _, _, made, ran, rfl⟩ := ran
  rw [Traced.run_act, Result.mk.injEq, Outcome.ok.injEq] at made
  obtain ⟨created_eq, rfl, rfl⟩ := made
  rw [Traced.bind_ok_iff] at ran
  obtain ⟨_, _, _, _, logged, ran, rfl⟩ := ran
  cases logged
  cases created with
  | false => cases ran
  | true =>
    obtain ⟨left, events, answered, rfl, rfl⟩ := callEnv_ok_iff.mp ran
    exact ⟨_, left, events, Prod.ext created_eq rfl, answered, rfl, rfl⟩

/-- The file opens, its writer is created and gets all of it, and is then destroyed. -/
theorem extractFile_ok {i : Nat} {stat : ZipStat} {entry : ZipEntry}
    {state final : ExtractState σ} {trace : List (Event ε)}
    (ran : (extractFile env i stat entry).run state = ⟨.ok true, final, trace⟩) :
    let data := (entry.extraFieldById metaExtraFieldId).map ExtraField.data
    let dataSize := UInt16.ofNat ((data.getD []).length)
    ∃ file opened events left read, entry.file = some file ∧
      (env.createFileWriterFunction stat.name stat.size data dataSize).run state.env =
        ⟨.ok true, opened, events⟩ ∧
      (readFile env stat file).run { state with env := opened } = ⟨.ok true, left, read⟩ ∧
      final = { left with env := (env.destroyFileWriteFunction.run left.env).state } ∧
      trace = .step (.fopenIndex i true) :: (events.map Event.inner ++
        .step (.createFileWriter stat.name stat.size data dataSize (.ok true)) ::
          (read ++ ((env.destroyFileWriteFunction.run left.env).trace.map Event.inner ++
            [.step .destroyFileWriter]))) := by
  intro data dataSize
  rw [extractFile] at ran
  cases opens : entry.file with
  | none =>
    rw [opens] at ran
    cases ran
  | some file =>
    rw [opens, Traced.bind_ok_iff] at ran
    obtain ⟨_, _, _, _, logged, ran, rfl⟩ := ran
    cases logged
    rw [Traced.bind_ok_iff] at ran
    obtain ⟨given, _, _, _, called, ran, rfl⟩ := ran
    obtain ⟨opened, events, answered, rfl, rfl⟩ := callEnv_ok_iff.mp called
    cases given with
    | false => cases ran
    | true =>
      obtain ⟨left, read, readRan, rfl, rfl⟩ := Traced.ensure_ok_iff.mp ran
      refine ⟨file, opened, events, left, read, rfl, answered, readRan, rfl, ?_⟩
      simp [callEnv, data, dataSize]

/-- What a turn of the loop has done, when the loop goes on. -/
inductive EntryTurn (env : Environment σ ε) (root : Bytes) (i : Nat) (entry : ZipEntry)
    (state final : ExtractState σ) : List (Event ε) → Prop where
  | skipped (undescribed : entry.stat = none) (unchanged : final = state) :
      EntryTurn env root i entry state final []
  | folder {stat : ZipStat} (described : entry.stat = some stat) (folder : stat.isFolder = true)
      {rest : List (Event ε)}
      (ran : (extractFolder env root stat).run
        { state with runcompressedSize := state.runcompressedSize + stat.size } =
          ⟨.ok true, final, rest⟩) :
      EntryTurn env root i entry state final
        (.step (.nameRead (stat.strlen - 1) stat.strlen) :: rest)
  | file {stat : ZipStat} (described : entry.stat = some stat) (folder : stat.isFolder = false)
      {rest : List (Event ε)}
      (ran : (extractFile env i stat entry).run
        { state with runcompressedSize := state.runcompressedSize + stat.size } =
          ⟨.ok true, final, rest⟩) :
      EntryTurn env root i entry state final
        (.step (.nameRead (stat.strlen - 1) stat.strlen) :: rest)

theorem extractEntry_ok {i : Nat} {entry : ZipEntry} {state final : ExtractState σ}
    {trace : List (Event ε)}
    (ran : (extractEntry env root i entry).run state = ⟨.ok true, final, trace⟩) :
    EntryTurn env root i entry state final trace := by
  rw [extractEntry_eq] at ran
  cases described : entry.stat with
  | none =>
    rw [described, Traced.pure_ok_iff] at ran
    obtain ⟨-, rfl, rfl⟩ := ran
    exact .skipped described rfl
  | some stat =>
    -- the counter goes up before the entry is looked at
    rw [described, Traced.bind_ok_iff] at ran
    obtain ⟨_, _, _, _, added, ran, rfl⟩ := ran
    cases added
    rw [Traced.bind_ok_iff] at ran
    obtain ⟨_, _, _, _, logged, ran, rfl⟩ := ran
    cases logged
    cases folder : stat.isFolder with
    | true =>
      rw [folder] at ran
      exact .folder described folder ran
    | false =>
      rw [folder] at ran
      exact .file described folder ran

theorem extractLoop_cons_ok {i : Nat} {entry : ZipEntry} {entries : List ZipEntry}
    {state final : ExtractState σ} {trace : List (Event ε)}
    (ran : (extractLoop env root i (entry :: entries)).run state = ⟨.ok true, final, trace⟩) :
    ∃ between first rest, (extractEntry env root i entry).run state = ⟨.ok true, between, first⟩ ∧
      (extractLoop env root (i + 1) entries).run between = ⟨.ok true, final, rest⟩ ∧
      trace = first ++ rest := by
  rw [extractLoop, Traced.bind_ok_iff] at ran
  obtain ⟨goesOn, between, first, rest, ranFirst, ran, rfl⟩ := ran
  cases goesOn with
  | false => cases ran
  | true => exact ⟨between, first, rest, ranFirst, ran, rfl⟩

/-! ## What has been delivered -/

/-- The read loop ends with a count when the writer accepts every piece. -/
theorem readLoop_ok {chunks : List Bytes} {last : Int} {fsz total : UInt64}
    {state final : ExtractState σ} {trace : List (Event ε)}
    (ran : (readLoop env chunks last fsz).run state = ⟨.ok (some total), final, trace⟩) :
    WritesAll env chunks state.env final.env ∧ total = chunks.foldl addChunk fsz ∧
      final.runcompressedSize = state.runcompressedSize ∧
      steps trace = readSteps chunks last := by
  induction chunks generalizing fsz state trace with
  | nil =>
    obtain ⟨rfl, rfl, rfl⟩ := readLoop_nil_ok ran
    exact ⟨rfl, rfl, rfl, rfl⟩
  | cons chunk chunks ih =>
    obtain ⟨left, events, rest, written, later, rfl⟩ := readLoop_cons_ok ran
    obtain ⟨writes, counted, size, logged⟩ := ih later
    refine ⟨⟨left, ⟨events, written⟩, writes⟩, counted, size, ?_⟩
    simp [readSteps, logged]

/-- Reading an open file gives true when every piece is accepted and their number is the
declared size. -/
theorem readFile_true {stat : ZipStat} {file : ZipFile} {state final : ExtractState σ}
    {trace : List (Event ε)}
    (ran : (readFile env stat file).run state = ⟨.ok true, final, trace⟩) :
    WritesAll env file.chunks state.env final.env ∧ file.delivered = stat.size ∧
      final.runcompressedSize = state.runcompressedSize ∧
      steps trace = readSteps file.chunks file.last := by
  obtain ⟨writes, counted, size, logged⟩ := readLoop_ok (readFile_ok ran)
  exact ⟨writes, counted.symm, size, logged⟩

theorem extractFolder_true {stat : ZipStat} {state final : ExtractState σ}
    {trace : List (Event ε)}
    (ran : (extractFolder env root stat).run state = ⟨.ok true, final, trace⟩) :
    FolderDelivered env root stat state.env final.env ∧
      final.runcompressedSize = state.runcompressedSize ∧
      steps trace = folderSteps root stat := by
  obtain ⟨between, left, events, made, answered, rfl, rfl⟩ := extractFolder_ok ran
  exact ⟨⟨between, made, events, answered⟩, rfl, by simp [folderSteps]⟩

theorem extractFile_true {i : Nat} {stat : ZipStat} {entry : ZipEntry}
    {state final : ExtractState σ} {trace : List (Event ε)}
    (ran : (extractFile env i stat entry).run state = ⟨.ok true, final, trace⟩) :
    ∃ file, entry.file = some file ∧ file.delivered = stat.size ∧
      FileDelivered env stat entry file state.env final.env ∧
      final.runcompressedSize = state.runcompressedSize ∧
      steps trace = fileSteps i stat entry file := by
  obtain ⟨file, opened, events, left, read, opens, answered, ranRead, rfl, rfl⟩ :=
    extractFile_ok ran
  obtain ⟨writes, whole, size, logged⟩ := readFile_true ranRead
  refine ⟨file, opens, whole, ⟨opened, left.env, _, ⟨events, answered⟩, writes, rfl, rfl⟩,
    size, ?_⟩
  simp [fileSteps, logged]

theorem extractEntry_true {i : Nat} {entry : ZipEntry} {state final : ExtractState σ}
    {trace : List (Event ε)}
    (ran : (extractEntry env root i entry).run state = ⟨.ok true, final, trace⟩) :
    EntryDelivered env root entry state.env final.env ∧ entry.Whole ∧
      final.runcompressedSize = state.runcompressedSize + entry.declared ∧
      steps trace = entrySteps root i entry := by
  cases extractEntry_ok ran with
  | skipped described unchanged =>
    subst unchanged
    refine ⟨(entryDelivered_skipped described).mpr rfl, ?_, ?_, ?_⟩
    · intro stat found
      rw [described] at found
      cases found
    · rw [ZipEntry.declared, described, UInt64.add_zero]
    · rw [entrySteps, described, steps_nil]
  | @folder stat described folder rest made =>
    obtain ⟨delivered, size, logged⟩ := extractFolder_true made
    refine ⟨(entryDelivered_folder described folder).mpr delivered, ?_, ?_, ?_⟩
    · intro other found file
      rw [described, Option.some.injEq] at found
      rw [← found, folder] at file
      cases file
    · simpa only [ZipEntry.declared, described] using size
    · simp [entrySteps, described, folder, logged]
  | @file stat described folder rest written =>
    obtain ⟨file, opens, whole, delivered, size, logged⟩ := extractFile_true written
    refine ⟨(entryDelivered_file described folder).mpr ⟨file, opens, whole, delivered⟩, ?_, ?_, ?_⟩
    · intro other found _
      rw [described, Option.some.injEq] at found
      exact ⟨file, opens, found ▸ whole⟩
    · simpa only [ZipEntry.declared, described] using size
    · simp [entrySteps, described, folder, opens, logged]

/-- A run of the loop that gives true has delivered every entry. -/
theorem extractLoop_true {entries : List ZipEntry} {i : Nat} {state final : ExtractState σ}
    {trace : List (Event ε)}
    (ran : (extractLoop env root i entries).run state = ⟨.ok true, final, trace⟩) :
    LoopDelivered env root entries state.env final.env ∧ (∀ entry ∈ entries, entry.Whole) ∧
      final.runcompressedSize =
        entries.foldl (fun total entry => total + entry.declared) state.runcompressedSize ∧
      steps trace = loopSteps root i entries := by
  induction entries generalizing i state trace with
  | nil =>
    rw [extractLoop, Traced.pure_ok_iff] at ran
    obtain ⟨-, rfl, rfl⟩ := ran
    exact ⟨rfl, List.forall_mem_nil _, rfl, rfl⟩
  | cons entry entries ih =>
    obtain ⟨between, _, _, first, later, rfl⟩ := extractLoop_cons_ok ran
    obtain ⟨delivered, whole, size, logged⟩ := extractEntry_true first
    obtain ⟨deliveredRest, wholeRest, sizeRest, loggedRest⟩ := ih later
    refine ⟨⟨between.env, delivered, deliveredRest⟩, ?_, ?_, ?_⟩
    · exact List.forall_mem_cons.mpr ⟨whole, wholeRest⟩
    · rw [sizeRest, size, List.foldl_cons]
    · rw [steps_append, logged, loggedRest, loopSteps]

/-! ## Runs that deliver -/

theorem readLoop_of_writesAll {chunks : List Bytes} {left written : σ}
    (writes : WritesAll env chunks left written) (last : Int) (fsz size : UInt64) :
    ∃ trace, (readLoop env chunks last fsz).run ⟨left, size⟩ =
      ⟨.ok (some (chunks.foldl addChunk fsz)), ⟨written, size⟩, trace⟩ := by
  induction chunks generalizing fsz left with
  | nil =>
    cases writes
    exact ⟨_, rfl⟩
  | cons chunk chunks ih =>
    obtain ⟨between, ⟨events, accepted⟩, writes⟩ := writes
    obtain ⟨trace, ran⟩ := ih writes (addChunk fsz chunk)
    have called : (callEnv (Step.fileWrite chunk) (env.fileWriteFunction chunk)).run ⟨left, size⟩ =
        ⟨.ok true, ⟨between, size⟩, _⟩ := callEnv_ok_iff.mpr ⟨_, _, accepted, rfl, rfl⟩
    rw [readLoop]
    exact ⟨_, Traced.bind_ok_iff.mpr ⟨_, _, _, _, rfl,
      Traced.bind_ok_iff.mpr ⟨_, _, _, _, called, ran, rfl⟩, rfl⟩⟩

theorem callEnv_of_gives {program : Traced σ ε α} {left final : σ} {value : α}
    (gives : Traced.Gives program left value final) (log : Outcome α → Step) (size : UInt64) :
    ∃ trace, (callEnv log program).run ⟨left, size⟩ = ⟨.ok value, ⟨final, size⟩, trace⟩ := by
  obtain ⟨events, ran⟩ := gives
  exact ⟨_, callEnv_ok_iff.mpr ⟨final, events, ran, rfl, rfl⟩⟩

theorem extractFolder_of_delivered {stat : ZipStat} {left final : σ}
    (delivered : FolderDelivered env root stat left final) (size : UInt64) :
    ∃ trace, (extractFolder env root stat).run ⟨left, size⟩ =
      ⟨.ok true, ⟨final, size⟩, trace⟩ := by
  obtain ⟨between, made, answered⟩ := delivered
  obtain ⟨trace, called⟩ := callEnv_of_gives answered (.onCreateDir stat.name) size
  refine ⟨.step (.createDirectory (targetPath root stat.name) true) :: trace, ?_⟩
  simp [extractFolder, made, called, Result.prepend]

theorem extractFile_of_delivered {stat : ZipStat} {entry : ZipEntry} {file : ZipFile}
    {left final : σ} (opens : entry.file = some file) (whole : file.delivered = stat.size)
    (delivered : FileDelivered env stat entry file left final) (i : Nat) (size : UInt64) :
    ∃ trace, (extractFile env i stat entry).run ⟨left, size⟩ =
      ⟨.ok true, ⟨final, size⟩, trace⟩ := by
  obtain ⟨opened, written, _, given, writes, rfl, rfl⟩ := delivered
  obtain ⟨_, called⟩ := callEnv_of_gives given _ size
  obtain ⟨_, looped⟩ := readLoop_of_writesAll writes file.last 0 size
  have read : (readFile env stat file).run ⟨opened, size⟩ = ⟨.ok true, ⟨written, size⟩, _⟩ :=
    Traced.bind_ok_iff.mpr ⟨_, _, _, _, looped,
      Traced.pure_ok_iff.mpr ⟨beq_iff_eq.mpr whole, rfl, rfl⟩, rfl⟩
  rw [extractFile, opens]
  exact ⟨_, Traced.bind_ok_iff.mpr ⟨_, _, _, _, rfl, Traced.bind_ok_iff.mpr ⟨_, _, _, _, called,
    Traced.ensure_ok_iff.mpr ⟨_, _, read, rfl, rfl⟩, rfl⟩, rfl⟩⟩

theorem extractEntry_of_delivered {entry : ZipEntry} {left final : σ}
    (delivered : EntryDelivered env root entry left final) (i : Nat) (size : UInt64) :
    ∃ trace, (extractEntry env root i entry).run ⟨left, size⟩ =
      ⟨.ok true, ⟨final, size + entry.declared⟩, trace⟩ := by
  cases described : entry.stat with
  | none =>
    obtain rfl := (entryDelivered_skipped described).mp delivered
    simp [extractEntry_eq, ZipEntry.declared, described]
  | some stat =>
    cases folder : stat.isFolder with
    | true =>
      have made := (entryDelivered_folder described folder).mp delivered
      obtain ⟨trace, ran⟩ := extractFolder_of_delivered made (size + stat.size)
      refine ⟨.step (.nameRead (stat.strlen - 1) stat.strlen) :: trace, ?_⟩
      simp [extractEntry_eq, ZipEntry.declared, described, folder, ran, Result.prepend]
    | false =>
      obtain ⟨file, opens, whole, written⟩ := (entryDelivered_file described folder).mp delivered
      obtain ⟨trace, ran⟩ := extractFile_of_delivered opens whole written i (size + stat.size)
      refine ⟨.step (.nameRead (stat.strlen - 1) stat.strlen) :: trace, ?_⟩
      simp [extractEntry_eq, ZipEntry.declared, described, folder, ran, Result.prepend]

theorem extractLoop_of_delivered {entries : List ZipEntry} {left final : σ}
    (delivered : LoopDelivered env root entries left final) (i : Nat) (size : UInt64) :
    ∃ trace, (extractLoop env root i entries).run ⟨left, size⟩ =
      ⟨.ok true, ⟨final, entries.foldl (fun total entry => total + entry.declared) size⟩,
        trace⟩ := by
  induction entries generalizing left i size with
  | nil =>
    cases delivered
    exact ⟨_, rfl⟩
  | cons entry entries ih =>
    obtain ⟨between, first, delivered⟩ := delivered
    obtain ⟨_, ran⟩ := extractEntry_of_delivered first i size
    obtain ⟨_, ranRest⟩ := ih delivered (i + 1) (size + entry.declared)
    exact ⟨_, Traced.bind_ok_iff.mpr ⟨_, _, _, _, ran, ranRest, rfl⟩⟩

/-- Where every folder and every open file can be delivered, whole entries are. -/
theorem loopDelivered_of_whole
    (folders : ∀ stat state, ∃ final, FolderDelivered env root stat state final)
    (files : ∀ stat entry file state, ∃ final, FileDelivered env stat entry file state final)
    {entries : List ZipEntry} (whole : ∀ entry ∈ entries, entry.Whole) (state : σ) :
    ∃ final, LoopDelivered env root entries state final := by
  induction entries generalizing state with
  | nil => exact ⟨state, rfl⟩
  | cons entry entries ih =>
    rw [List.forall_mem_cons] at whole
    have first : ∃ between, EntryDelivered env root entry state between := by
      cases described : entry.stat with
      | none => exact ⟨state, (entryDelivered_skipped described).mpr rfl⟩
      | some stat =>
        cases folder : stat.isFolder with
        | true =>
          obtain ⟨between, made⟩ := folders stat state
          exact ⟨between, (entryDelivered_folder described folder).mpr made⟩
        | false =>
          obtain ⟨file, opens, delivered⟩ := whole.1 stat described folder
          obtain ⟨between, written⟩ := files stat entry file state
          exact ⟨between,
            (entryDelivered_file described folder).mpr ⟨file, opens, delivered, written⟩⟩
    obtain ⟨between, delivered⟩ := first
    obtain ⟨final, rest⟩ := ih whole.2 between
    exact ⟨final, between, delivered, rest⟩

/-! ## The whole call -/

theorem take_numEntries (pzip : Option (List ZipEntry)) :
    (pzip.getD []).take (zipGetNumEntries pzip).toNat = pzip.getD [] := by
  cases pzip with
  | none => rfl
  | some entries => simp [zipGetNumEntries]

theorem run_doArchiveExtract (zipOpen : Bytes → Option (List ZipEntry)) (zipPath : Bytes)
    (state : ExtractState σ) :
    (doArchiveExtract env root zipOpen zipPath).run state =
      ((extractLoop env root 0 ((zipOpen zipPath).getD [])).run state).prepend
        [.step (.zipOpen (zipOpen zipPath).isSome)] := by
  simp [doArchiveExtract, take_numEntries]

theorem doArchiveExtract_true {zipOpen : Bytes → Option (List ZipEntry)} {zipPath : Bytes}
    {state : ExtractState σ}
    (success : ((doArchiveExtract env root zipOpen zipPath).run state).outcome = .ok true) :
    (∀ entry ∈ (zipOpen zipPath).getD [], entry.Whole) ∧
      steps ((doArchiveExtract env root zipOpen zipPath).run state).trace =
        .zipOpen (zipOpen zipPath).isSome :: loopSteps root 0 ((zipOpen zipPath).getD []) := by
  rw [run_doArchiveExtract] at success ⊢
  rw [Result.prepend_outcome] at success
  obtain ⟨_, _, ran⟩ := Result.eq_of_outcome success
  obtain ⟨-, whole, -, logged⟩ := extractLoop_true ran
  exact ⟨whole, by simp [ran, logged]⟩

end

end MyappsCommon.Utility.Archive
