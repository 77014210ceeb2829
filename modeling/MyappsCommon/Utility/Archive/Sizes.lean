import MyappsCommon.Utility.Archive.Progress

/-! # Declared and delivered sizes

The declared size of every described entry is counted, but only that of a file is compared
with the data, and only after the data has been handed over.
-/

namespace MyappsCommon.Utility.Archive

open MyappsCommon.Lib

variable {σ ε : Type}

/-! ## The counter -/

/-- What the entries declare, without the wrapping of the counter. -/
def declaredTotal (entries : List ZipEntry) : Nat :=
  (entries.map fun entry => entry.declared.toNat).sum

/-- What a folder entry declares. -/
def ZipEntry.folderSize (entry : ZipEntry) : Nat :=
  match entry.stat with
  | none => 0
  | some stat => if stat.isFolder then stat.size.toNat else 0

theorem counterAfter_toNat (prior : UInt64) (entries : List ZipEntry) :
    (counterAfter prior entries).toNat = (prior.toNat + declaredTotal entries) % 2 ^ 64 := by
  unfold counterAfter declaredTotal
  induction entries generalizing prior with
  | nil => exact (Nat.mod_eq_of_lt prior.toNat_lt).symm
  | cons entry entries ih =>
    rw [List.foldl_cons, ih, UInt64.toNat_add, List.map_cons, List.sum_cons, Nat.mod_add_mod,
      Nat.add_assoc]

theorem delivered_toNat {file : ZipFile} (fits : file.chunks.flatten.length < 2 ^ 64) :
    file.delivered.toNat = file.chunks.flatten.length := by
  rw [ZipFile.delivered, foldl_addChunk, UInt64.zero_add, UInt64.toNat_ofNat_of_lt' fits]

/-- A whole entry declares its data, if it is a file. -/
theorem declared_of_whole {entry : ZipEntry} (whole : entry.Whole)
    (fits : entry.content.length < 2 ^ 64) :
    entry.declared.toNat = entry.content.length + entry.folderSize := by
  cases described : entry.stat with
  | none => simp [ZipEntry.declared, ZipEntry.content, ZipEntry.folderSize, described]
  | some stat =>
    cases folder : stat.isFolder with
    | true =>
      cases opens : entry.file <;>
        simp [ZipEntry.declared, ZipEntry.content, ZipEntry.folderSize, described, folder, opens]
    | false =>
      obtain ⟨file, opens, delivered⟩ := whole stat described folder
      have content : entry.content = file.chunks.flatten := by
        simp [ZipEntry.content, described, folder, opens]
      rw [content] at fits ⊢
      rw [← delivered_toNat fits, delivered]
      simp [ZipEntry.declared, ZipEntry.folderSize, described, folder]

theorem declaredTotal_of_whole {entries : List ZipEntry} (whole : ∀ entry ∈ entries, entry.Whole)
    (fits : (entries.flatMap ZipEntry.content).length < 2 ^ 64) :
    declaredTotal entries =
      (entries.flatMap ZipEntry.content).length + (entries.map ZipEntry.folderSize).sum := by
  induction entries with
  | nil => rfl
  | cons entry entries ih =>
    rw [List.forall_mem_cons] at whole
    rw [List.flatMap_cons, List.length_append] at fits ⊢
    have first := declared_of_whole whole.1 (by omega)
    have rest := ih whole.2 (by omega)
    rw [declaredTotal] at rest ⊢
    rw [List.map_cons, List.sum_cons, List.map_cons, List.sum_cons, first, rest]
    omega

theorem ZipEntry.folderSize_eq_zero_iff {entry : ZipEntry} :
    entry.folderSize = 0 ↔
      ∀ stat, entry.stat = some stat → stat.isFolder = true → stat.size = 0 := by
  cases described : entry.stat with
  | none => simp [ZipEntry.folderSize, described]
  | some stat => simp [ZipEntry.folderSize, described, ← UInt64.toNat_inj]

theorem folderSizes_eq_zero_iff {entries : List ZipEntry} :
    (entries.map ZipEntry.folderSize).sum = 0 ↔
      ∀ entry ∈ entries, ∀ stat, entry.stat = some stat → stat.isFolder = true →
        stat.size = 0 := by
  induction entries with
  | nil => simp
  | cons entry entries ih =>
    rw [List.map_cons, List.sum_cons, Nat.add_eq_zero_iff, ih, List.forall_mem_cons,
      ZipEntry.folderSize_eq_zero_iff]

/-- The counter has grown by the number of bytes that the writers were given, without
wrapping. -/
def TrueSize (entries : List ZipEntry) (prior final : UInt64) (logged : List Step) : Prop :=
  prior.toNat + declaredTotal entries < 2 ^ 64 ∧
    final.toNat = prior.toNat + (handed logged).length

/-- Every run that returns true reports a true size exactly when this holds: every folder
entry declares no size, or the entries are not all whole, or together they are too long to
be counted. -/
theorem extract_size_iff (zipOpen : Bytes → Option (List ZipEntry)) (zipPath : Bytes) :
    (∀ (σ ε : Type) (env : Environment σ ε) (root : Bytes) (state : ExtractState σ),
      let result := (doArchiveExtract env root zipOpen zipPath).run state
      result.outcome = .ok true →
      state.runcompressedSize.toNat + (handed (steps result.trace)).length < 2 ^ 64 →
        TrueSize ((zipOpen zipPath).getD []) state.runcompressedSize
          result.state.runcompressedSize (steps result.trace)) ↔
    ((∀ entry ∈ (zipOpen zipPath).getD [], entry.Whole) →
      (((zipOpen zipPath).getD []).flatMap ZipEntry.content).length < 2 ^ 64 →
      ∀ entry ∈ (zipOpen zipPath).getD [], ∀ stat, entry.stat = some stat →
        stat.isFolder = true → stat.size = 0) := by
  constructor
  · intro honest whole fits
    -- the run in which everything is accepted counts the folders too
    have success := permissive_true whole []
    have counter := doArchiveExtract_counts success
    have logged := (doArchiveExtract_true success).2
    have size := honest Unit Empty permissive [] ⟨(), 0⟩ success
    simp only [logged, handed_cons, Step.handed, List.nil_append, handed_loopSteps, TrueSize,
      counter, counterAfter_toNat] at size
    rw [← folderSizes_eq_zero_iff]
    have total := declaredTotal_of_whole whole fits
    obtain ⟨noWrap, size⟩ := size (by simpa using fits)
    rw [Nat.mod_eq_of_lt noWrap] at size
    omega
  · intro condition σ ε env root state result success fits
    have counter := doArchiveExtract_counts success
    obtain ⟨whole, logged⟩ := doArchiveExtract_true success
    simp only [result, logged, handed_cons, Step.handed, List.nil_append, handed_loopSteps] at fits
    have zero := folderSizes_eq_zero_iff.mpr (condition whole (by omega))
    have total := declaredTotal_of_whole whole (by omega)
    simp only [TrueSize, result, logged, counter, counterAfter_toNat, handed_cons, Step.handed,
      List.nil_append, handed_loopSteps]
    have noWrap : state.runcompressedSize.toNat + declaredTotal ((zipOpen zipPath).getD []) <
        2 ^ 64 := by omega
    rw [Nat.mod_eq_of_lt noWrap]
    omega

/-- A folder `h/` that declares one byte. -/
def heavyFolder : ZipEntry where
  stat := some ⟨[104, 47], 1, 0, by decide, by decide⟩
  file := none
  extraFields := []

theorem extract_counts_folder :
    let result := (doArchiveExtract permissive [114] (fun _ => some [heavyFolder]) [122]).run
      ⟨(), 0⟩
    result.outcome = .ok true ∧ handed (steps result.trace) = [] ∧
      result.state.runcompressedSize = 1 ∧
      ¬ TrueSize [heavyFolder] 0 result.state.runcompressedSize (steps result.trace) := by
  refine ⟨by decide +kernel, by decide +kernel, by decide +kernel, ?_⟩
  rintro ⟨-, size⟩
  revert size
  decide +kernel

/-! ## What a writer is handed -/

def Step.createsWriter : Step → Bool
  | .createFileWriter .. => true
  | _ => false

/-- No writer is created meanwhile. -/
def Quiet (during : List Step) : Prop := ∀ step ∈ during, step.createsWriter = false

@[simp] theorem quiet_nil : Quiet [] := List.forall_mem_nil _

@[simp] theorem quiet_cons {step : Step} {during : List Step} :
    Quiet (step :: during) ↔ step.createsWriter = false ∧ Quiet during := List.forall_mem_cons

@[simp] theorem quiet_append {first second : List Step} :
    Quiet (first ++ second) ↔ Quiet first ∧ Quiet second := List.forall_mem_append

/-- At every moment the bytes handed to a writer since its creation are within the size that
was announced. -/
def NeverOverruns (logged : List Step) : Prop :=
  ∀ before name size metaData metaDataSize answer during after,
    logged = before ++ .createFileWriter name size metaData metaDataSize answer ::
      (during ++ after) →
    Quiet during → (handed during).length ≤ size.toNat

/-- `room` is what the open writer may still be handed; each creation sets it anew. -/
def StaysWithin : Nat → List Step → Prop
  | _, [] => True
  | _, .createFileWriter _ size _ _ _ :: logged => StaysWithin size.toNat logged
  | room, .fileWrite buf _ :: logged => buf.length ≤ room ∧ StaysWithin (room - buf.length) logged
  | room, _ :: logged => StaysWithin room logged

theorem staysWithin_cons {room : Nat} {step : Step} {logged : List Step}
    (quiet : step.createsWriter = false) :
    StaysWithin room (step :: logged) ↔
      step.handed.length ≤ room ∧ StaysWithin (room - step.handed.length) logged := by
  cases step with
  | createFileWriter => cases quiet
  | fileWrite => exact Iff.rfl
  | _ => simp [StaysWithin, Step.handed]

/-- Steps that create no writer use up room. -/
theorem staysWithin_append {room : Nat} {during logged : List Step} (quiet : Quiet during) :
    StaysWithin room (during ++ logged) ↔
      (handed during).length ≤ room ∧ StaysWithin (room - (handed during).length) logged := by
  induction during generalizing room with
  | nil => simp
  | cons step during ih =>
    rw [quiet_cons] at quiet
    rw [List.cons_append, staysWithin_cons quiet.1, ih quiet.2, handed_cons, List.length_append,
      ← Nat.sub_sub]
    constructor
    · rintro ⟨first, rest, within⟩
      exact ⟨by omega, within⟩
    · rintro ⟨all, within⟩
      exact ⟨by omega, by omega, within⟩

theorem StaysWithin.drop {room : Nat} {before logged : List Step}
    (within : StaysWithin room (before ++ logged)) : ∃ left, StaysWithin left logged := by
  induction before generalizing room with
  | nil => exact ⟨room, within⟩
  | cons step before ih =>
    cases step with
    | fileWrite => exact ih within.2
    | _ => exact ih within

theorem StaysWithin.neverOverruns {room : Nat} {logged : List Step}
    (within : StaysWithin room logged) : NeverOverruns logged := by
  intro before name size metaData metaDataSize answer during after split quiet
  subst split
  obtain ⟨left, within⟩ := within.drop
  exact ((staysWithin_append quiet).mp within).1

theorem NeverOverruns.writer {logged before during after : List Step} {stat : ZipStat}
    {entry : ZipEntry} {answer : Outcome Bool} (bounded : NeverOverruns logged)
    (split : logged = before ++ writerStep stat entry answer :: (during ++ after))
    (quiet : Quiet during) : (handed during).length ≤ stat.size.toNat :=
  bounded _ _ _ _ _ _ _ _ split quiet

/-- The data of a file that opens is within its declared size. -/
def ZipEntry.FitsDeclared (entry : ZipEntry) : Prop :=
  ∀ stat file, entry.stat = some stat → stat.isFolder = false → entry.file = some file →
    file.chunks.flatten.length ≤ stat.size.toNat

theorem quiet_acceptSteps (chunks : List Bytes) : Quiet (acceptSteps chunks) :=
  forall_mem_acceptSteps (fun _ => rfl) (fun _ => rfl) chunks

theorem quiet_readSteps (chunks : List Bytes) (last : Int) : Quiet (readSteps chunks last) :=
  forall_mem_readSteps (fun _ => rfl) (fun _ => rfl) chunks last

/-- A file that is cut off creates no further writer and is handed a part of its data. -/
theorem FileCutOff.quiet {stat : ZipStat} {file : ZipFile} {outcome : Outcome Bool}
    {cut : List Step} (cutOff : FileCutOff stat file outcome cut) :
    Quiet cut ∧ (handed cut).length ≤ file.chunks.flatten.length := by
  cases cutOff with
  | @fileWrite before after chunk _ reached =>
    -- the piece that is refused has been handed over as well
    have quiet := quiet_acceptSteps before
    have data := handed_acceptSteps before
    cases outcome with
    | ok _ | raised | unfinished =>
      simp [reached, quiet, data, Step.createsWriter, Step.handed, destroySteps]
  | size mismatch =>
    simp [quiet_readSteps, handed_readSteps, Step.createsWriter, Step.handed]

/-- The steps on an entry leave the later ones as much room as they need. -/
theorem staysWithin_entrySteps {entry : ZipEntry} (fits : entry.FitsDeclared) (root : Bytes)
    (i room : Nat) {logged : List Step} (later : ∀ room, StaysWithin room logged) :
    StaysWithin room (entrySteps root i entry ++ logged) := by
  unfold entrySteps
  cases described : entry.stat with
  | none => exact later room
  | some stat =>
    cases folder : stat.isFolder with
    | true => simpa [folder, folderSteps, StaysWithin] using later room
    | false =>
      cases opens : entry.file with
      | none => simpa [folder, StaysWithin] using later room
      | some file =>
        -- the creation of the writer sets the room to the announced size
        have bounded := fits stat file described folder opens
        simp only [folder, Bool.false_eq_true, if_false, fileSteps, List.cons_append,
          List.append_assoc, StaysWithin]
        rw [staysWithin_append (quiet_readSteps _ _), handed_readSteps]
        exact ⟨bounded, later _⟩

theorem staysWithin_loopSteps {entries : List ZipEntry}
    (fits : ∀ entry ∈ entries, entry.FitsDeclared) (root : Bytes) (i room : Nat)
    {logged : List Step} (later : ∀ room, StaysWithin room logged) :
    StaysWithin room (loopSteps root i entries ++ logged) := by
  induction entries generalizing i room with
  | nil => exact later room
  | cons entry entries ih =>
    rw [List.forall_mem_cons] at fits
    rw [loopSteps, List.append_assoc]
    exact staysWithin_entrySteps fits.1 root i room fun room => ih fits.2 (i + 1) room

theorem staysWithin_cutOff {entry : ZipEntry} (fits : entry.FitsDeclared) {root : Bytes}
    {i : Nat} {outcome : Outcome Bool} {cut : List Step}
    (cutOff : CutOff root i entry outcome cut) (room : Nat) : StaysWithin room cut := by
  cases cutOff with
  | @intro stat described _ cut cutOff =>
    cases cutOff with
    | createDirectory | onCreateDir | fopenIndex | createFileWriter => exact trivial
    | @file folder file opens _ cut cutOff =>
      have bounded := fits stat file described folder opens
      obtain ⟨quiet, part⟩ := cutOff.quiet
      have within : StaysWithin stat.size.toNat (cut ++ []) :=
        (staysWithin_append quiet).mpr ⟨Nat.le_trans part bounded, trivial⟩
      rwa [List.append_nil] at within

/-- The data of every file that a run can come to is within its declared size. -/
def ReachedFit (entries : List ZipEntry) : Prop :=
  ∀ before entry after, entries = before ++ entry :: after →
    (∀ entry ∈ before, entry.Whole) → entry.FitsDeclared

theorem ReachedFit.of_whole {entries : List ZipEntry} (after : List ZipEntry)
    (fit : ReachedFit (entries ++ after)) (whole : ∀ entry ∈ entries, entry.Whole) :
    ∀ entry ∈ entries, entry.FitsDeclared := by
  intro entry member
  obtain ⟨before, later, rfl⟩ := List.append_of_mem member
  refine fit before entry (later ++ after) (by simp) fun first inside => ?_
  exact whole first (List.mem_append_left _ inside)

theorem Progress.staysWithin {root : Bytes} {prior counter : UInt64} {entries : List ZipEntry}
    {outcome : Outcome Bool} {logged : List Step}
    (progress : Progress root 0 prior entries outcome counter logged) (fit : ReachedFit entries) :
    StaysWithin 0 logged := by
  cases progress with
  | complete whole =>
    have fits := ReachedFit.of_whole [] ((List.append_nil entries).symm ▸ fit) whole
    have within : StaysWithin 0 (loopSteps root 0 entries ++ []) :=
      staysWithin_loopSteps fits root 0 0 fun _ => trivial
    rwa [List.append_nil] at within
  | @cutOff before after entry _ cut first whole failed cutOff =>
    have fitsBefore := ReachedFit.of_whole _ (first ▸ fit) whole
    have fits := fit before entry after first whole
    exact staysWithin_loopSteps fitsBefore root 0 0 fun room =>
      staysWithin_cutOff fits cutOff room

/-- A file that opens is handed over to the end, whatever it declares. -/
theorem steps_extractEntry_permissive {entry : ZipEntry} {stat : ZipStat} {file : ZipFile}
    (described : entry.stat = some stat) (folder : stat.isFolder = false)
    (opens : entry.file = some file) (root : Bytes) (i : Nat) (state : ExtractState Unit) :
    steps ((extractEntry permissive root i entry).run state).trace =
      .nameRead (stat.strlen - 1) stat.strlen :: .fopenIndex i true ::
        writerStep stat entry (.ok true) ::
          (readSteps file.chunks file.last ++ [.destroyFileWriter]) := by
  obtain ⟨trace, looped⟩ := readLoop_of_writesAll (writesAll_permissive file.chunks) file.last 0
    (state.runcompressedSize + stat.size)
  obtain ⟨-, -, -, logged⟩ := readLoop_ok looped
  have given (size : UInt64) (data : Option Bytes) (dataSize : UInt16) :
      permissive.createFileWriterFunction stat.name size data dataSize = pure true := rfl
  rw [← logged]
  simp [extractEntry_eq, described, folder, extractFile, opens, run_callEnv, given, writerStep,
    (steps_ensure_destroy _ _ _).1, -Traced.run_ensure, readFile, looped, destroySteps]

theorem steps_extractLoop_append {env : Environment σ ε} {root : Bytes}
    {before : List ZipEntry} {left final : σ} (delivered : LoopDelivered env root before left final)
    (rest : List ZipEntry) (i : Nat) (size : UInt64) :
    ∃ size', steps ((extractLoop env root i (before ++ rest)).run ⟨left, size⟩).trace =
      loopSteps root i before ++
        steps ((extractLoop env root (i + before.length) rest).run ⟨final, size'⟩).trace := by
  induction before generalizing left i size with
  | nil =>
    cases delivered
    exact ⟨size, rfl⟩
  | cons first before ih =>
    obtain ⟨between, deliveredFirst, delivered⟩ := delivered
    obtain ⟨trace, ran⟩ := extractEntry_of_delivered deliveredFirst i size
    obtain ⟨-, -, -, logged⟩ := extractEntry_true ran
    obtain ⟨size', later⟩ := ih delivered (i + 1) (size + first.declared)
    refine ⟨size', ?_⟩
    simp [extractLoop, ran, logged, later, loopSteps, Nat.add_assoc, Nat.add_comm 1]

/-- The steps of a loop start with those of its first entry. -/
theorem steps_extractLoop_cons (env : Environment σ ε) (root : Bytes) (i : Nat) (entry : ZipEntry)
    (entries : List ZipEntry) (state : ExtractState σ) :
    ∃ later, steps ((extractLoop env root i (entry :: entries)).run state).trace =
      steps ((extractEntry env root i entry).run state).trace ++ later := by
  rw [extractLoop, Traced.run_bind]
  cases (extractEntry env root i entry).run state with
  | mk outcome left trace =>
    cases outcome with
    | ok _ => exact ⟨_, steps_append _ _⟩
    | raised | unfinished => exact ⟨[], (List.append_nil _).symm⟩

/-- No run overruns an entry exactly when the data of every file entry that can be reached, the
ones before it being whole, is within its declared size. -/
theorem extract_never_overruns_iff (zipOpen : Bytes → Option (List ZipEntry)) (zipPath : Bytes) :
    (∀ (σ ε : Type) (env : Environment σ ε) (root : Bytes) (state : ExtractState σ),
      NeverOverruns (steps ((doArchiveExtract env root zipOpen zipPath).run state).trace)) ↔
    ReachedFit ((zipOpen zipPath).getD []) := by
  constructor
  · intro bounded before entry after split whole stat file described folder opens
    -- a run in which everything is accepted comes to the file and hands it over to the end
    obtain ⟨size, delivered⟩ := steps_extractLoop_append (loopDelivered_permissive [] whole)
      (entry :: after) 0 0
    obtain ⟨later, first⟩ := steps_extractLoop_cons permissive [] (0 + before.length) entry after
      ⟨(), size⟩
    rw [steps_extractEntry_permissive described folder opens] at first
    have run : steps ((doArchiveExtract permissive [] zipOpen zipPath).run ⟨(), 0⟩).trace =
        (.zipOpen (zipOpen zipPath).isSome :: (loopSteps [] 0 before ++
          [.nameRead (stat.strlen - 1) stat.strlen, .fopenIndex (0 + before.length) true])) ++
        writerStep stat entry (.ok true) ::
          (readSteps file.chunks file.last ++ .destroyFileWriter :: later) := by
      rw [run_doArchiveExtract, split, Result.prepend_trace, steps_append, delivered, first]
      simp
    have within := (bounded Unit Empty permissive [] ⟨(), 0⟩).writer run
      (quiet_readSteps file.chunks file.last)
    rwa [handed_readSteps] at within
  · intro fit σ ε env root state
    obtain ⟨logged, all, progress⟩ := doArchiveExtract_progress env root zipOpen zipPath state
    rw [all]
    have within : StaysWithin 0 (.zipOpen (zipOpen zipPath).isSome :: logged) :=
      progress.staysWithin fit
    exact within.neverOverruns

/-- A file `a` that declares no bytes and delivers one. -/
def overrunningEntry : ZipEntry :=
  { oneByteEntry with stat := oneByteEntry.stat.map fun stat => { stat with size := 0 } }

theorem extract_overruns :
    ¬ NeverOverruns (steps ((doArchiveExtract permissive [114] (fun _ => some [overrunningEntry])
      [122]).run ⟨(), 0⟩).trace) := by
  intro bounded
  have within := bounded [.zipOpen true, .nameRead 0 1, .fopenIndex 0 true] [97] 0 none 0 (.ok true)
    [.fread 1, .fileWrite [97] (.ok true)] [.fread 0, .destroyFileWriter] (by decide +kernel)
    (by simp [Step.createsWriter])
  revert within
  decide +kernel

end MyappsCommon.Utility.Archive
