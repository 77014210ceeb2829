import MyappsCommon.Utility.Archive.ExtractSoundness

/-! # How far an extraction gets

Every run of the entry loop delivers the entries up to the first one that fails, goes into
that one as far as the failure, and stops.
-/

namespace MyappsCommon.Utility.Archive

open MyappsCommon.Lib

variable {σ ε α : Type}

/-- An answer that is not `true` ends the call in its own way. -/
def refusedWith {β : Type} (answer : Outcome α) (value : β) : Outcome β :=
  match answer with
  | .ok _ => .ok value
  | .raised => .raised
  | .unfinished => .unfinished

theorem refusedWith_false {answer : Outcome Bool} (refused : answer ≠ .ok true) :
    refusedWith answer false = answer := by
  cases answer with
  | ok accepted =>
    cases accepted with
    | true => exact absurd rfl refused
    | false => rfl
  | raised | unfinished => rfl

/-! ## The steps of an entry that fails -/

/-- The steps by which pieces are read and accepted. -/
def acceptSteps (chunks : List Bytes) : List Step :=
  chunks.flatMap fun chunk => [.fread chunk.length, .fileWrite chunk (.ok true)]

theorem readSteps_eq (chunks : List Bytes) (last : Int) :
    readSteps chunks last = acceptSteps chunks ++ [.fread last] := by
  induction chunks with
  | nil => rfl
  | cons chunk chunks ih => rw [readSteps, ih]; rfl

/-- What holds of every read and of every accepted piece. -/
theorem forall_mem_acceptSteps {P : Step → Prop} (read : ∀ count, P (.fread count))
    (written : ∀ data, P (.fileWrite data (.ok true))) (chunks : List Bytes) :
    ∀ step ∈ acceptSteps chunks, P step := by
  intro step member
  obtain ⟨chunk, -, member⟩ := List.mem_flatMap.mp member
  rcases List.mem_cons.mp member with rfl | member
  · exact read _
  · rw [List.mem_singleton.mp member]
    exact written chunk

theorem forall_mem_readSteps {P : Step → Prop} (read : ∀ count, P (.fread count))
    (written : ∀ data, P (.fileWrite data (.ok true))) (chunks : List Bytes) (last : Int) :
    ∀ step ∈ readSteps chunks last, P step := by
  rw [readSteps_eq]
  exact List.forall_mem_append.mpr
    ⟨forall_mem_acceptSteps read written chunks, List.forall_mem_singleton.mpr (read last)⟩

/-- The call of the writer-creation callback. -/
def writerStep (stat : ZipStat) (entry : ZipEntry) (answer : Outcome Bool) : Step :=
  let data := (entry.extraFieldById metaExtraFieldId).map ExtraField.data
  .createFileWriter stat.name stat.size data (UInt16.ofNat ((data.getD []).length)) answer

/-- The writer function is destroyed unless the call never ends. -/
def destroySteps {β : Type} : Outcome β → List Step
  | .ok _ | .raised => [.destroyFileWriter]
  | .unfinished => []

/-- How an open file whose writer has been created is left, when it is not delivered, and the
steps on it: as the writer function has answered, or with false. -/
inductive FileCutOff (stat : ZipStat) (file : ZipFile) : Outcome Bool → List Step → Prop where
  | fileWrite {before after : List Bytes} {chunk : Bytes} {answer : Outcome Bool}
      (reached : file.chunks = before ++ chunk :: after) (refused : answer ≠ .ok true) :
      FileCutOff stat file answer
        (acceptSteps before ++ [.fread chunk.length, .fileWrite chunk answer] ++
          destroySteps answer)
  | size (mismatch : file.delivered ≠ stat.size) :
      FileCutOff stat file (.ok false)
        (readSteps file.chunks file.last ++ [.destroyFileWriter])

/-- How a described entry that fails is left, and the steps on it after its name has been
looked at. -/
inductive StatCutOff (root : Bytes) (i : Nat) (entry : ZipEntry) (stat : ZipStat) :
    Outcome Bool → List Step → Prop where
  | createDirectory (folder : stat.isFolder = true) :
      StatCutOff root i entry stat (.ok false)
        [.createDirectory (targetPath root stat.name) false]
  | onCreateDir (folder : stat.isFolder = true) {answer : Outcome Bool}
      (refused : answer ≠ .ok true) :
      StatCutOff root i entry stat answer
        [.createDirectory (targetPath root stat.name) true, .onCreateDir stat.name answer]
  | fopenIndex (folder : stat.isFolder = false) (closed : entry.file = none) :
      StatCutOff root i entry stat (.ok false) [.fopenIndex i false]
  | createFileWriter (folder : stat.isFolder = false) {file : ZipFile}
      (opens : entry.file = some file) {answer : Outcome Bool} (refused : answer ≠ .ok true) :
      StatCutOff root i entry stat answer
        [.fopenIndex i true, writerStep stat entry answer]
  | file (folder : stat.isFolder = false) {file : ZipFile} (opens : entry.file = some file)
      {outcome : Outcome Bool} {cut : List Step} (cutOff : FileCutOff stat file outcome cut) :
      StatCutOff root i entry stat outcome
        (.fopenIndex i true :: writerStep stat entry (.ok true) :: cut)

/-- How the entry that ends the loop is left, and the steps on it. -/
inductive CutOff (root : Bytes) (i : Nat) (entry : ZipEntry) :
    Outcome Bool → List Step → Prop where
  | intro {stat : ZipStat} (described : entry.stat = some stat) {outcome : Outcome Bool}
      {cut : List Step} (cutOff : StatCutOff root i entry stat outcome cut) :
      CutOff root i entry outcome (.nameRead (stat.strlen - 1) stat.strlen :: cut)

/-! ## Runs that do not deliver -/

section

variable {env : Environment σ ε} {root : Bytes}

theorem run_callEnv (log : Outcome α → Step) (program : Traced σ ε α) (state : ExtractState σ) :
    (callEnv log program).run state =
      ⟨(program.run state.env).outcome, { state with env := (program.run state.env).state },
        (program.run state.env).trace.map Event.inner ++
          [.step (log (program.run state.env).outcome)]⟩ := rfl

/-- A call whose answer is not `true` is the last one. -/
theorem callEnv_refused {β : Type} {program : Traced σ ε Bool} {state : ExtractState σ}
    (refused : (program.run state.env).outcome ≠ .ok true) (log : Outcome Bool → Step)
    (onward : ExtractM σ ε β) (value : β) :
    let run := (callEnv log program >>= fun accepted =>
      if accepted then onward else pure value).run state
    run.outcome = refusedWith (program.run state.env).outcome value ∧
      steps run.trace = [log (program.run state.env).outcome] := by
  simp only [Traced.run_bind, run_callEnv]
  cases answered : (program.run state.env).outcome with
  | ok accepted =>
    cases accepted with
    | true => exact absurd answered refused
    | false => simp [refusedWith]
  | raised | unfinished => simp [refusedWith]

/-- The loop that gives no count has been refused a piece. -/
theorem readLoop_refused {chunks : List Bytes} {last : Int} {fsz : UInt64}
    {state : ExtractState σ}
    (refused : ∀ total, ((readLoop env chunks last fsz).run state).outcome ≠ .ok (some total)) :
    ∃ before chunk after answer, chunks = before ++ chunk :: after ∧ answer ≠ .ok true ∧
      ((readLoop env chunks last fsz).run state).outcome = refusedWith answer none ∧
      steps ((readLoop env chunks last fsz).run state).trace =
        acceptSteps before ++ [.fread chunk.length, .fileWrite chunk answer] := by
  induction chunks generalizing fsz state with
  | nil => exact absurd rfl (refused fsz)
  | cons chunk chunks ih =>
    by_cases accepted : ((env.fileWriteFunction chunk).run state.env).outcome = .ok true
    · -- the piece is accepted, so that a later one is refused
      obtain ⟨left, events, called⟩ := Result.eq_of_outcome accepted
      have unfolded : (readLoop env (chunk :: chunks) last fsz).run state =
          ((readLoop env chunks last (addChunk fsz chunk)).run
            ⟨left, state.runcompressedSize⟩).prepend (.step (.fread chunk.length) ::
              (events.map Event.inner ++ [.step (.fileWrite chunk (.ok true))])) := by
        simp [readLoop, run_callEnv, called, Result.prepend]
      rw [unfolded] at refused ⊢
      obtain ⟨before, other, after, answer, rfl, notTrue, outcome, logged⟩ := ih refused
      refine ⟨chunk :: before, other, after, answer, rfl, notTrue, outcome, ?_⟩
      simp [logged, acceptSteps]
    · let answer := ((env.fileWriteFunction chunk).run state.env).outcome
      obtain ⟨outcome, logged⟩ := callEnv_refused accepted (.fileWrite chunk)
        (readLoop env chunks last (addChunk fsz chunk)) none
      refine ⟨[], chunk, chunks, answer, rfl, accepted, ?_, ?_⟩
      · rw [readLoop]
        exact outcome
      · rw [readLoop]
        exact congrArg (Step.fread chunk.length :: ·) logged

theorem readFile_refused (stat : ZipStat) {file : ZipFile} {state : ExtractState σ}
    {answer : Outcome Bool}
    (ended : ((readLoop env file.chunks file.last 0).run state).outcome =
      refusedWith answer none) :
    ((readFile env stat file).run state).outcome = refusedWith answer false ∧
      steps ((readFile env stat file).run state).trace =
        steps ((readLoop env file.chunks file.last 0).run state).trace := by
  obtain ⟨left, trace, ran⟩ := Result.eq_of_outcome ended
  rw [readFile, Traced.run_bind, ran]
  cases answer with
  | ok _ => simp [refusedWith]
  | raised | unfinished => exact ⟨rfl, rfl⟩

/-- Reading an open file, with the destruction of its writer. -/
theorem readFile_cutOff {stat : ZipStat} {file : ZipFile} {state : ExtractState σ}
    (failed : ((readFile env stat file).run state).outcome ≠ .ok true) :
    FileCutOff stat file ((readFile env stat file).run state).outcome
      (steps ((readFile env stat file).run state).trace ++
        destroySteps ((readFile env stat file).run state).outcome) := by
  by_cases counted : ∃ total,
      ((readLoop env file.chunks file.last 0).run state).outcome = .ok (some total)
  · obtain ⟨total, counted⟩ := counted
    obtain ⟨left, trace, ran⟩ := Result.eq_of_outcome counted
    obtain ⟨-, rfl, -, logged⟩ := readLoop_ok ran
    have unfolded : (readFile env stat file).run state =
        ⟨.ok (file.chunks.foldl addChunk 0 == stat.size), left, trace⟩ := by
      simp [readFile, ran, Result.prepend]
    have mismatch : file.delivered ≠ stat.size := fun whole => failed (by
      rw [unfolded, ← whole]
      simp [ZipFile.delivered])
    have short : (file.chunks.foldl addChunk 0 == stat.size) = false := beq_false_of_ne mismatch
    rw [unfolded, logged, short]
    exact .size mismatch
  · obtain ⟨before, chunk, after, answer, reached, refused, outcome, logged⟩ :=
      readLoop_refused fun total ended => counted ⟨total, ended⟩
    obtain ⟨outcome, sameSteps⟩ := readFile_refused stat outcome
    rw [outcome, sameSteps, logged, refusedWith_false refused]
    exact .fileWrite reached refused

theorem extractFolder_cutOff {i : Nat} {entry : ZipEntry} {stat : ZipStat}
    (folder : stat.isFolder = true) {state : ExtractState σ}
    (failed : ((extractFolder env root stat).run state).outcome ≠ .ok true) :
    StatCutOff root i entry stat ((extractFolder env root stat).run state).outcome
      (steps ((extractFolder env root stat).run state).trace) := by
  cases made : env.createDirectory (targetPath root stat.name) state.env with
  | mk created left =>
    cases created with
    | false =>
      have unfolded : ((extractFolder env root stat).run state).outcome = .ok false ∧
          steps ((extractFolder env root stat).run state).trace =
            [.createDirectory (targetPath root stat.name) false] := by
        simp [extractFolder, made, Result.prepend]
      rw [unfolded.1, unfolded.2]
      exact .createDirectory folder
    | true =>
      have unfolded : (extractFolder env root stat).run state =
          ((callEnv (.onCreateDir stat.name) (env.onCreateDirFunction stat.name)).run
            ⟨left, state.runcompressedSize⟩).prepend
              [.step (.createDirectory (targetPath root stat.name) true)] := by
        simp [extractFolder, made, Result.prepend]
      rw [unfolded] at failed ⊢
      simp only [run_callEnv, Result.prepend_outcome] at failed
      simp only [run_callEnv, Result.prepend_outcome, Result.prepend_trace, steps_append,
        steps_cons_step, steps_nil, steps_map_inner]
      exact .onCreateDir folder failed

/-- Where the writer function has been created, it is destroyed when the file is left. -/
theorem steps_ensure_destroy (env : Environment σ ε) (program : ExtractM σ ε α)
    (state : ExtractState σ) :
    steps ((program.ensure (callEnv (fun _ => .destroyFileWriter)
        env.destroyFileWriteFunction)).run state).trace =
      steps (program.run state).trace ++ destroySteps (program.run state).outcome ∧
    ((program.ensure (callEnv (fun _ => .destroyFileWriter)
        env.destroyFileWriteFunction)).run state).outcome = (program.run state).outcome := by
  rw [Traced.run_ensure]
  cases program.run state with
  | mk outcome left trace =>
    cases outcome with
    | ok _ | raised | unfinished => simp [Result.settle, destroySteps, run_callEnv]

theorem extractFile_cutOff {i : Nat} {entry : ZipEntry} {stat : ZipStat}
    (folder : stat.isFolder = false) {state : ExtractState σ}
    (failed : ((extractFile env i stat entry).run state).outcome ≠ .ok true) :
    StatCutOff root i entry stat ((extractFile env i stat entry).run state).outcome
      (steps ((extractFile env i stat entry).run state).trace) := by
  cases opens : entry.file with
  | none =>
    have unfolded : ((extractFile env i stat entry).run state).outcome = .ok false ∧
        steps ((extractFile env i stat entry).run state).trace = [.fopenIndex i false] := by
      simp [extractFile, opens, Result.prepend]
    rw [unfolded.1, unfolded.2]
    exact .fopenIndex folder opens
  | some file =>
    let data := (entry.extraFieldById metaExtraFieldId).map ExtraField.data
    let create := env.createFileWriterFunction stat.name stat.size data
      (UInt16.ofNat ((data.getD []).length))
    by_cases given : (create.run state.env).outcome = .ok true
    · obtain ⟨left, events, called⟩ := Result.eq_of_outcome given
      have unfolded : (extractFile env i stat entry).run state =
          (((readFile env stat file).ensure (callEnv (fun _ => .destroyFileWriter)
            env.destroyFileWriteFunction)).run ⟨left, state.runcompressedSize⟩).prepend
              (.step (.fopenIndex i true) ::
                (events.map Event.inner ++ [.step (writerStep stat entry (.ok true))])) := by
        simp [extractFile, opens, create, data] at called ⊢
        simp [run_callEnv, called, writerStep, Result.prepend]
      rw [unfolded] at failed ⊢
      obtain ⟨logged, outcome⟩ :=
        steps_ensure_destroy env (readFile env stat file) ⟨left, state.runcompressedSize⟩
      rw [Result.prepend_outcome, outcome] at failed
      simp only [Result.prepend_outcome, Result.prepend_trace, steps_append, steps_cons_step,
        steps_nil, steps_map_inner, logged, outcome]
      exact .file folder opens (readFile_cutOff failed)
    · have unfolded : ((extractFile env i stat entry).run state).outcome =
            (create.run state.env).outcome ∧
          steps ((extractFile env i stat entry).run state).trace =
            [.fopenIndex i true, writerStep stat entry (create.run state.env).outcome] := by
        rw [extractFile, opens]
        obtain ⟨outcome, logged⟩ := callEnv_refused given _ _ _
        exact ⟨outcome.trans (refusedWith_false given),
          congrArg (Step.fopenIndex i true :: ·) logged⟩
      rw [unfolded.1, unfolded.2]
      exact .createFileWriter folder opens given

/-! ## The counter -/

theorem keeps_callEnv (log : Outcome α → Step) (program : Traced σ ε α) :
    Traced.Keeps ExtractState.runcompressedSize (callEnv log program) := by
  apply Traced.keeps_call
  intro left state
  rfl

theorem keeps_readLoop (chunks : List Bytes) (last : Int) (fsz : UInt64) :
    Traced.Keeps ExtractState.runcompressedSize (readLoop env chunks last fsz) := by
  induction chunks generalizing fsz with
  | nil => exact Traced.keeps_bind (Traced.keeps_emit _) fun _ => Traced.keeps_pure _
  | cons chunk chunks ih =>
    refine Traced.keeps_bind (Traced.keeps_emit _) fun _ =>
      Traced.keeps_bind (keeps_callEnv _ _) fun accepted => ?_
    cases accepted with
    | true => exact ih _
    | false => exact Traced.keeps_pure _

theorem keeps_extractFolder (stat : ZipStat) :
    Traced.Keeps ExtractState.runcompressedSize (extractFolder env root stat) := by
  refine Traced.keeps_bind (Traced.keeps_act fun _ => rfl) fun created =>
    Traced.keeps_bind (Traced.keeps_emit _) fun _ => ?_
  cases created with
  | true => exact keeps_callEnv _ _
  | false => exact Traced.keeps_pure _

theorem keeps_extractFile (i : Nat) (stat : ZipStat) (entry : ZipEntry) :
    Traced.Keeps ExtractState.runcompressedSize (extractFile env i stat entry) := by
  rw [extractFile]
  cases entry.file with
  | none => exact Traced.keeps_bind (Traced.keeps_emit _) fun _ => Traced.keeps_pure _
  | some file =>
    refine Traced.keeps_bind (Traced.keeps_emit _) fun _ =>
      Traced.keeps_bind (keeps_callEnv _ _) fun given => ?_
    cases given with
    | false => exact Traced.keeps_pure _
    | true =>
      refine Traced.keeps_ensure (Traced.keeps_bind (keeps_readLoop _ _ _) fun fsz => ?_)
        (keeps_callEnv _ _)
      cases fsz with
      | none | some _ => exact Traced.keeps_pure _

/-- Every run on an entry adds its declared size, and before anything else. -/
theorem extractEntry_counts (env : Environment σ ε) (root : Bytes) (i : Nat) (entry : ZipEntry)
    (state : ExtractState σ) :
    ((extractEntry env root i entry).run state).state.runcompressedSize =
      state.runcompressedSize + entry.declared := by
  rw [extractEntry_eq, ZipEntry.declared]
  cases entry.stat with
  | none => exact (UInt64.add_zero _).symm
  | some stat =>
    cases folder : stat.isFolder with
    | true =>
      simp only [folder, if_true, Traced.run_bind, Traced.run_modifyState, run_logStep,
        Result.andThen_ok, Result.prepend_state]
      exact keeps_extractFolder stat _
    | false =>
      simp only [folder, Bool.false_eq_true, if_false, Traced.run_bind, Traced.run_modifyState,
        run_logStep, Result.andThen_ok, Result.prepend_state]
      exact keeps_extractFile i stat entry _

theorem extractEntry_cutOff {i : Nat} {entry : ZipEntry} {state : ExtractState σ}
    (failed : ((extractEntry env root i entry).run state).outcome ≠ .ok true) :
    CutOff root i entry ((extractEntry env root i entry).run state).outcome
      (steps ((extractEntry env root i entry).run state).trace) := by
  cases described : entry.stat with
  | none =>
    rw [extractEntry_eq, described] at failed
    exact absurd rfl failed
  | some stat =>
    let counted : ExtractState σ :=
      { state with runcompressedSize := state.runcompressedSize + stat.size }
    cases folder : stat.isFolder with
    | true =>
      have unfolded : (extractEntry env root i entry).run state =
          ((extractFolder env root stat).run counted).prepend
            [.step (.nameRead (stat.strlen - 1) stat.strlen)] := by
        simp [extractEntry_eq, described, folder, counted, Result.prepend]
      rw [unfolded] at failed ⊢
      exact .intro described (extractFolder_cutOff folder failed)
    | false =>
      have unfolded : (extractEntry env root i entry).run state =
          ((extractFile env i stat entry).run counted).prepend
            [.step (.nameRead (stat.strlen - 1) stat.strlen)] := by
        simp [extractEntry_eq, described, folder, counted, Result.prepend]
      rw [unfolded] at failed ⊢
      exact .intro described (extractFile_cutOff folder failed)

/-! ## The loop -/

/-- The counter after the entries. -/
def counterAfter (prior : UInt64) (entries : List ZipEntry) : UInt64 :=
  entries.foldl (fun total entry => total + entry.declared) prior

/-- What a run over the entries from index `i` on is: how it ends, what the counter is then,
and its steps. -/
inductive Progress (root : Bytes) (i : Nat) (prior : UInt64) (entries : List ZipEntry) :
    Outcome Bool → UInt64 → List Step → Prop where
  | complete (whole : ∀ entry ∈ entries, entry.Whole) :
      Progress root i prior entries (.ok true) (counterAfter prior entries)
        (loopSteps root i entries)
  | cutOff {before after : List ZipEntry} {entry : ZipEntry} {outcome : Outcome Bool}
      {cut : List Step} (first : entries = before ++ entry :: after)
      (whole : ∀ entry ∈ before, entry.Whole) (failed : outcome ≠ .ok true)
      (cutOff : CutOff root (i + before.length) entry outcome cut) :
      Progress root i prior entries outcome (counterAfter prior (before ++ [entry]))
        (loopSteps root i before ++ cut)

/-- An entry that is delivered goes before the progress on the later ones. -/
theorem Progress.cons {i : Nat} {prior : UInt64} {entry : ZipEntry} {entries : List ZipEntry}
    {outcome : Outcome Bool} {counter : UInt64} {logged : List Step} (whole : entry.Whole)
    (progress : Progress root (i + 1) (prior + entry.declared) entries outcome counter logged) :
    Progress root i prior (entry :: entries) outcome counter
      (entrySteps root i entry ++ logged) := by
  cases progress with
  | complete wholeRest => exact .complete (List.forall_mem_cons.mpr ⟨whole, wholeRest⟩)
  | @cutOff before after failing _ cut first wholeBefore failed cutOff =>
    have split : entry :: entries = (entry :: before) ++ failing :: after := by
      rw [first, List.cons_append]
    -- the entry that fails is one index further from here
    rw [← List.append_assoc]
    refine .cutOff split (List.forall_mem_cons.mpr ⟨whole, wholeBefore⟩) failed ?_
    rwa [List.length_cons, Nat.add_comm before.length 1, ← Nat.add_assoc]

theorem extractLoop_progress (i : Nat) (entries : List ZipEntry) (state : ExtractState σ) :
    Progress root i state.runcompressedSize entries
      ((extractLoop env root i entries).run state).outcome
      ((extractLoop env root i entries).run state).state.runcompressedSize
      (steps ((extractLoop env root i entries).run state).trace) := by
  induction entries generalizing i state with
  | nil => exact .complete (List.forall_mem_nil _)
  | cons entry entries ih =>
    have counted := extractEntry_counts env root i entry state
    by_cases delivered : ((extractEntry env root i entry).run state).outcome = .ok true
    · -- the later entries start from the counter that this one leaves
      obtain ⟨between, trace, ran⟩ := Result.eq_of_outcome delivered
      obtain ⟨-, whole, -, logged⟩ := extractEntry_true ran
      have unfolded : (extractLoop env root i (entry :: entries)).run state =
          ((extractLoop env root (i + 1) entries).run between).prepend trace := by
        simp [extractLoop, ran]
      have later := ih (i + 1) between
      rw [ran] at counted
      change between.runcompressedSize = _ at counted
      rw [counted] at later
      rw [unfolded, Result.prepend_trace, steps_append, logged]
      exact later.cons whole
    · -- the loop ends as this entry does
      have cutOff := extractEntry_cutOff delivered
      have unfolded : ((extractLoop env root i (entry :: entries)).run state).outcome =
            ((extractEntry env root i entry).run state).outcome ∧
          ((extractLoop env root i (entry :: entries)).run state).state =
            ((extractEntry env root i entry).run state).state ∧
          ((extractLoop env root i (entry :: entries)).run state).trace =
            ((extractEntry env root i entry).run state).trace := by
        rw [extractLoop, Traced.run_bind]
        cases ran : (extractEntry env root i entry).run state with
        | mk outcome left trace =>
          cases outcome with
          | ok goesOn =>
            cases goesOn with
            | true => exact absurd (congrArg Result.outcome ran) delivered
            | false => simp [Result.prepend]
          | raised | unfinished => exact ⟨rfl, rfl, rfl⟩
      rw [unfolded.1, unfolded.2.1, unfolded.2.2, counted]
      have split : entry :: entries = [] ++ entry :: entries := rfl
      exact .cutOff split (List.forall_mem_nil _) delivered cutOff

theorem doArchiveExtract_progress (env : Environment σ ε) (root : Bytes)
    (zipOpen : Bytes → Option (List ZipEntry)) (zipPath : Bytes) (state : ExtractState σ) :
    ∃ logged,
      steps ((doArchiveExtract env root zipOpen zipPath).run state).trace =
        .zipOpen (zipOpen zipPath).isSome :: logged ∧
      Progress root 0 state.runcompressedSize ((zipOpen zipPath).getD [])
        ((doArchiveExtract env root zipOpen zipPath).run state).outcome
        ((doArchiveExtract env root zipOpen zipPath).run state).state.runcompressedSize
        logged := by
  rw [run_doArchiveExtract]
  exact ⟨_, rfl, extractLoop_progress 0 _ state⟩

/-- A call that returns true has counted the declared size of every entry. -/
theorem doArchiveExtract_counts {zipOpen : Bytes → Option (List ZipEntry)} {zipPath : Bytes}
    {state : ExtractState σ}
    (success : ((doArchiveExtract env root zipOpen zipPath).run state).outcome = .ok true) :
    ((doArchiveExtract env root zipOpen zipPath).run state).state.runcompressedSize =
      counterAfter state.runcompressedSize ((zipOpen zipPath).getD []) := by
  rw [run_doArchiveExtract] at success ⊢
  rw [Result.prepend_outcome] at success
  obtain ⟨_, _, ran⟩ := Result.eq_of_outcome success
  obtain ⟨-, -, counted, -⟩ := extractLoop_true ran
  rw [ran]
  exact counted

end

/-! ## Archives that can be read -/

def Step.handed : Step → Bytes
  | .fileWrite buf _ => buf
  | _ => []

/-- The bytes that the writer functions are given. -/
def handed (logged : List Step) : Bytes := logged.flatMap Step.handed

/-- The data of a file entry. -/
def ZipEntry.content (entry : ZipEntry) : Bytes :=
  match entry.stat, entry.file with
  | some stat, some file => if stat.isFolder then [] else file.chunks.flatten
  | _, _ => []

/-- The entry can be described, opened and read to the end. -/
def ZipEntry.Readable (entry : ZipEntry) : Prop :=
  ∃ stat, entry.stat = some stat ∧
    (stat.isFolder = false → ∃ file, entry.file = some file ∧ file.last = 0)

@[simp] theorem handed_nil : handed [] = [] := rfl

@[simp] theorem handed_append (first second : List Step) :
    handed (first ++ second) = handed first ++ handed second := List.flatMap_append

@[simp] theorem handed_cons (step : Step) (logged : List Step) :
    handed (step :: logged) = step.handed ++ handed logged := List.flatMap_cons

theorem handed_acceptSteps (chunks : List Bytes) :
    handed (acceptSteps chunks) = chunks.flatten := by
  induction chunks with
  | nil => rfl
  | cons chunk chunks ih =>
    rw [acceptSteps] at ih
    simp [acceptSteps, Step.handed, ih]

theorem handed_readSteps (chunks : List Bytes) (last : Int) :
    handed (readSteps chunks last) = chunks.flatten := by
  rw [readSteps_eq, handed_append, handed_acceptSteps]
  exact List.append_nil _

theorem handed_entrySteps (root : Bytes) (i : Nat) (entry : ZipEntry) :
    handed (entrySteps root i entry) = entry.content := by
  unfold entrySteps ZipEntry.content
  cases entry.stat with
  | none => rfl
  | some stat =>
    cases folder : stat.isFolder with
    | true => cases entry.file <;> simp [folder, folderSteps, Step.handed]
    | false =>
      cases opens : entry.file with
      | none => simp [folder, Step.handed]
      | some file => simp [folder, fileSteps, Step.handed, handed_readSteps]

theorem handed_loopSteps (root : Bytes) (i : Nat) (entries : List ZipEntry) :
    handed (loopSteps root i entries) = entries.flatMap ZipEntry.content := by
  induction entries generalizing i with
  | nil => rfl
  | cons entry entries ih =>
    rw [loopSteps, handed_append, handed_entrySteps, ih, List.flatMap_cons]

/-- The entries before the first one that fails are delivered, once each and in order, with all
their data and in their declared sizes; the one that fails is gone into as far as the failure,
which gives the call its result, and nothing is done for the later ones. -/
inductive DeliversPrefix (root : Bytes) (prior : UInt64) (entries : List ZipEntry) :
    Outcome Bool → UInt64 → List Step → Prop where
  | none {delivered : List Step} (deliveries : Deliveries root 0 entries delivered)
      (whole : ∀ entry ∈ entries, entry.Whole)
      (data : handed delivered = entries.flatMap ZipEntry.content) :
      DeliversPrefix root prior entries (.ok true) (counterAfter prior entries)
        (.zipOpen true :: delivered)
  | first {before after : List ZipEntry} {entry : ZipEntry} {outcome : Outcome Bool}
      {delivered cut : List Step} (split : entries = before ++ entry :: after)
      (deliveries : Deliveries root 0 before delivered) (whole : ∀ entry ∈ before, entry.Whole)
      (data : handed delivered = before.flatMap ZipEntry.content)
      (failed : outcome ≠ .ok true) (cutOff : CutOff root before.length entry outcome cut)
      (opens : .fopenIndex before.length false ∉ cut) :
      DeliversPrefix root prior entries outcome (counterAfter prior (before ++ [entry]))
        (.zipOpen true :: (delivered ++ cut))

theorem ZipEntry.Readable.described {entry : ZipEntry} (readable : entry.Readable) :
    entry.stat.isSome := by
  obtain ⟨stat, described, -⟩ := readable
  rw [described]
  rfl

/-- Nothing is opened while a file is read. -/
theorem FileCutOff.fopenIndex_not_mem {stat : ZipStat} {file : ZipFile} {outcome : Outcome Bool}
    {cut : List Step} (cutOff : FileCutOff stat file outcome cut) (i : Nat) (opened : Bool) :
    .fopenIndex i opened ∉ cut := by
  cases cutOff with
  | fileWrite =>
    cases outcome with
    | ok _ | raised | unfinished => simp [acceptSteps, destroySteps]
  | size mismatch => simp [readSteps_eq, acceptSteps]

theorem CutOff.opens {root : Bytes} {i : Nat} {entry : ZipEntry} {outcome : Outcome Bool}
    {cut : List Step} (cutOff : CutOff root i entry outcome cut) (readable : entry.Readable) :
    .fopenIndex i false ∉ cut := by
  obtain ⟨stat, described, opens⟩ := readable
  cases cutOff with
  | @intro other found _ cut cutOff =>
    obtain rfl := Option.some.inj (described.symm.trans found)
    cases cutOff with
    | fopenIndex folder closed =>
      obtain ⟨file, opens, -⟩ := opens folder
      rw [closed] at opens
      cases opens
    | createDirectory | onCreateDir | createFileWriter => simp [writerStep]
    | file folder _ cutOff => simp [writerStep, cutOff.fopenIndex_not_mem]

theorem extract_delivers_prefix {zipOpen : Bytes → Option (List ZipEntry)} {zipPath : Bytes}
    {entries : List ZipEntry} (opened : zipOpen zipPath = some entries)
    (readable : ∀ entry ∈ entries, entry.Readable) (env : Environment σ ε) (root : Bytes)
    (state : ExtractState σ) :
    DeliversPrefix root state.runcompressedSize entries
      ((doArchiveExtract env root zipOpen zipPath).run state).outcome
      ((doArchiveExtract env root zipOpen zipPath).run state).state.runcompressedSize
      (steps ((doArchiveExtract env root zipOpen zipPath).run state).trace) := by
  obtain ⟨logged, all, progress⟩ := doArchiveExtract_progress env root zipOpen zipPath state
  rw [all]
  rw [opened] at progress ⊢
  generalize ((doArchiveExtract env root zipOpen zipPath).run state).outcome = outcome
    at progress ⊢
  generalize ((doArchiveExtract env root zipOpen zipPath).run state).state.runcompressedSize =
    counter at progress ⊢
  cases progress with
  | complete whole =>
    have described := fun entry member => (readable entry member).described
    exact .none (deliveries_loopSteps described whole root 0) whole
      (handed_loopSteps root 0 entries)
  | @cutOff before after entry _ cut first whole failed cutOff =>
    subst first
    have described : ∀ entry ∈ before, entry.stat.isSome := fun entry member =>
      (readable entry (List.mem_append_left _ member)).described
    rw [Nat.zero_add] at cutOff
    exact .first rfl (deliveries_loopSteps described whole root 0) whole
      (handed_loopSteps root 0 before) failed cutOff (cutOff.opens (readable entry (by simp)))

/-- One byte is declared and delivered, and that is the end of the data. -/
def oneByteEntry : ZipEntry :=
  { faultyEntry with
    file := faultyEntry.file.map fun file => { file with last := 0, ended := ZipFile.empty.ended } }

theorem extract_delivers_prefix_one :
    DeliversPrefix [114] 0 [oneByteEntry]
      ((doArchiveExtract permissive [114] (fun _ => some [oneByteEntry]) [122]).run ⟨(), 0⟩).outcome
      ((doArchiveExtract permissive [114] (fun _ => some [oneByteEntry]) [122]).run
        ⟨(), 0⟩).state.runcompressedSize
      (steps ((doArchiveExtract permissive [114] (fun _ => some [oneByteEntry]) [122]).run
        ⟨(), 0⟩).trace) := by
  have readable : ∀ entry ∈ [oneByteEntry], entry.Readable := by
    intro entry member
    rw [List.mem_singleton] at member
    subst member
    exact ⟨_, rfl, fun _ => ⟨_, rfl, rfl⟩⟩
  exact extract_delivers_prefix rfl readable permissive [114] ⟨(), 0⟩

end MyappsCommon.Utility.Archive
