import MyappsCommon.Utility.Archive.Delivery

/-! # What `true` promises of an extraction

The result does not tell a read error at the end of the data from the end of the data,
an archive that cannot be opened from an empty one, or an entry that cannot be described
from one that is not there.
-/

namespace MyappsCommon.Utility.Archive

open MyappsCommon.Lib

/-- Every callback and the operating system agree to everything. -/
def permissive : Environment Unit Empty where
  createDirectory _ state := (true, state)
  onCreateDirFunction _ := return true
  createFileWriterFunction _ _ _ _ := return true
  fileWriteFunction _ := return true
  destroyFileWriteFunction := return ()

theorem writesAll_permissive (chunks : List Bytes) : WritesAll permissive chunks () () := by
  induction chunks with
  | nil => rfl
  | cons chunk chunks ih => exact ⟨(), ⟨[], rfl⟩, ih⟩

theorem loopDelivered_permissive (root : Bytes) {entries : List ZipEntry}
    (whole : ∀ entry ∈ entries, entry.Whole) : LoopDelivered permissive root entries () () := by
  have folders : ∀ stat state, ∃ final, FolderDelivered permissive root stat state final :=
    fun stat state => ⟨state, state, rfl, [], rfl⟩
  have files : ∀ stat entry file state, ∃ final,
      FileDelivered permissive stat entry file state final :=
    fun stat entry file state =>
      ⟨state, state, state, _, ⟨[], rfl⟩, writesAll_permissive file.chunks, rfl, rfl⟩
  obtain ⟨_, delivered⟩ := loopDelivered_of_whole folders files whole ()
  exact delivered

/-- Where every entry is whole, the permissive run returns true. -/
theorem permissive_true {zipOpen : Bytes → Option (List ZipEntry)} {zipPath : Bytes}
    (whole : ∀ entry ∈ (zipOpen zipPath).getD [], entry.Whole) (root : Bytes) :
    ((doArchiveExtract permissive root zipOpen zipPath).run ⟨(), 0⟩).outcome = .ok true := by
  obtain ⟨trace, ran⟩ := extractLoop_of_delivered (loopDelivered_permissive root whole) 0 0
  rw [run_doArchiveExtract, ran]
  rfl

/-! ## Read errors -/

/-- The data of a file entry ends with the end of the data, not with an error. -/
def ZipEntry.EndsWell (entry : ZipEntry) : Prop :=
  ∀ stat file, entry.stat = some stat → stat.isFolder = false → entry.file = some file →
    file.last = 0

theorem fread_mem_readSteps {result : Int} {chunks : List Bytes} {last : Int} :
    .fread result ∈ readSteps chunks last ↔
      result = last ∨ ∃ chunk ∈ chunks, result = chunk.length := by
  induction chunks with
  | nil => simp [readSteps]
  | cons chunk chunks ih =>
    simp only [readSteps, List.mem_cons, Step.fread.injEq, reduceCtorEq, false_or, ih,
      exists_eq_or_imp]
    rw [or_left_comm]

/-- The reads of a delivered entry are those of its file. -/
theorem fread_mem_entrySteps {root : Bytes} {i : Nat} {entry : ZipEntry} {result : Int}
    (member : .fread result ∈ entrySteps root i entry) :
    ∃ stat file, entry.stat = some stat ∧ stat.isFolder = false ∧ entry.file = some file ∧
      .fread result ∈ readSteps file.chunks file.last := by
  unfold entrySteps at member
  cases described : entry.stat with
  | none => simp [described] at member
  | some stat =>
    cases folder : stat.isFolder with
    | true => simp [described, folder, folderSteps] at member
    | false =>
      cases opens : entry.file with
      | none => simp [described, folder, opens] at member
      | some file =>
        simp [described, folder, opens, fileSteps] at member
        exact ⟨stat, file, rfl, folder, rfl, member⟩

theorem fread_last_mem_entrySteps (root : Bytes) (i : Nat) {entry : ZipEntry} {stat : ZipStat}
    {file : ZipFile} (described : entry.stat = some stat) (folder : stat.isFolder = false)
    (opens : entry.file = some file) : .fread file.last ∈ entrySteps root i entry := by
  have read : .fread file.last ∈ readSteps file.chunks file.last :=
    fread_mem_readSteps.mpr (.inl rfl)
  simp [entrySteps, described, folder, opens, fileSteps, read]

theorem mem_loopSteps {root : Bytes} {i : Nat} {entries : List ZipEntry} {step : Step} :
    step ∈ loopSteps root i entries ↔
      ∃ k entry, entries[k]? = some entry ∧ step ∈ entrySteps root (i + k) entry := by
  induction entries generalizing i with
  | nil => simp [loopSteps]
  | cons first entries ih =>
    rw [loopSteps, List.mem_append, ih]
    constructor
    · rintro (member | ⟨k, entry, found, member⟩)
      · exact ⟨0, first, rfl, member⟩
      · exact ⟨k + 1, entry, found, by rwa [Nat.add_comm k 1, ← Nat.add_assoc]⟩
    · rintro ⟨k, entry, found, member⟩
      cases k with
      | zero =>
        cases found
        exact .inl member
      | succ k => exact .inr ⟨k, entry, found, by rwa [Nat.add_assoc, Nat.add_comm 1 k]⟩

/-- No read of the delivered entries reports an error exactly when they all end well. -/
theorem reads_nonneg_iff {root : Bytes} {entries : List ZipEntry} :
    (∀ result, .fread result ∈ loopSteps root 0 entries → ¬ result < 0) ↔
      ∀ entry ∈ entries, entry.EndsWell := by
  constructor
  · intro noError entry member stat file described folder opens
    obtain ⟨k, found⟩ := List.getElem?_of_mem member
    have logged := fread_last_mem_entrySteps root (0 + k) described folder opens
    have nonneg := noError file.last (mem_loopSteps.mpr ⟨k, entry, found, logged⟩)
    have ended := file.ended
    omega
  · intro endsWell result member
    obtain ⟨k, entry, found, logged⟩ := mem_loopSteps.mp member
    obtain ⟨stat, file, described, folder, opens, read⟩ := fread_mem_entrySteps logged
    rcases fread_mem_readSteps.mp read with rfl | ⟨chunk, -, rfl⟩
    · rw [endsWell entry (List.mem_of_getElem? found) stat file described folder opens]
      omega
    · omega

/-- In every run that returns true no read has reported an error, exactly when this holds:
either some file entry that can be described does not open or does not deliver as many
bytes as it declares, or the data of every file entry ends without an error. -/
theorem extract_integrity_iff (zipOpen : Bytes → Option (List ZipEntry)) (zipPath : Bytes) :
    (∀ (σ ε : Type) (env : Environment σ ε) (root : Bytes) (state : ExtractState σ),
      ((doArchiveExtract env root zipOpen zipPath).run state).outcome = .ok true →
        ∀ result,
          .fread result ∈ steps ((doArchiveExtract env root zipOpen zipPath).run state).trace →
            ¬ result < 0) ↔
    ((∀ entry ∈ (zipOpen zipPath).getD [], entry.Whole) →
      ∀ entry ∈ (zipOpen zipPath).getD [], entry.EndsWell) := by
  constructor
  · intro integrity whole
    -- one run that returns true is enough: its reads are those of the archive
    have success := permissive_true whole []
    have noError := integrity Unit Empty permissive [] ⟨(), 0⟩ success
    rw [(doArchiveExtract_true success).2] at noError
    exact reads_nonneg_iff.mp fun result member => noError result (List.mem_cons_of_mem _ member)
  · intro endsWell σ ε env root state success result member
    obtain ⟨whole, logged⟩ := doArchiveExtract_true success
    rw [logged, List.mem_cons] at member
    rcases member with opened | member
    · cases opened
    · exact reads_nonneg_iff.mpr (endsWell whole) result member

/-- One byte is declared and delivered, and then the read reports an error. -/
def faultyEntry : ZipEntry where
  stat := some ⟨[97], 1, 0, by decide, by decide⟩
  file := some ⟨[[97]], -1, by decide, by decide⟩
  extraFields := []

theorem extract_accepts_read_error :
    ((doArchiveExtract permissive [114] (fun _ => some [faultyEntry]) [122]).run ⟨(), 0⟩).outcome =
        .ok true ∧
      .fread (-1) ∈ steps
        ((doArchiveExtract permissive [114] (fun _ => some [faultyEntry]) [122]).run
          ⟨(), 0⟩).trace := by
  decide +kernel

/-! ## Entries that are passed over -/

/-- The steps that deliver one entry. -/
inductive Delivery (root : Bytes) (i : Nat) (entry : ZipEntry) : List Step → Prop where
  | folder {stat : ZipStat} (described : entry.stat = some stat)
      (folder : stat.isFolder = true) :
      Delivery root i entry (.nameRead (stat.strlen - 1) stat.strlen :: folderSteps root stat)
  | file {stat : ZipStat} {file : ZipFile} (described : entry.stat = some stat)
      (folder : stat.isFolder = false) (opens : entry.file = some file) :
      Delivery root i entry
        (.nameRead (stat.strlen - 1) stat.strlen :: fileSteps i stat entry file)

/-- Each entry is delivered once, in the order of the indices. -/
inductive Deliveries (root : Bytes) : Nat → List ZipEntry → List Step → Prop where
  | nil (i : Nat) : Deliveries root i [] []
  | cons {i : Nat} {entry : ZipEntry} {entries : List ZipEntry} {first rest : List Step}
      (delivery : Delivery root i entry first) (deliveries : Deliveries root (i + 1) entries rest) :
      Deliveries root i (entry :: entries) (first ++ rest)

/-- The archive is opened and each of its entries is delivered once; nothing else is done. -/
def CompleteExtraction (root : Bytes) (pzip : Option (List ZipEntry)) (logged : List Step) : Prop :=
  ∃ entries delivered, pzip = some entries ∧ Deliveries root 0 entries delivered ∧
    logged = .zipOpen true :: delivered

theorem Delivery.described {root : Bytes} {i : Nat} {entry : ZipEntry} {logged : List Step}
    (delivery : Delivery root i entry logged) : entry.stat.isSome := by
  cases delivery with
  | folder described | file described => rw [described]; rfl

theorem Deliveries.described {root : Bytes} {i : Nat} {entries : List ZipEntry}
    {logged : List Step} (deliveries : Deliveries root i entries logged) :
    ∀ entry ∈ entries, entry.stat.isSome := by
  induction deliveries with
  | nil => exact List.forall_mem_nil _
  | cons delivery _ ih => exact List.forall_mem_cons.mpr ⟨delivery.described, ih⟩

theorem delivery_entrySteps {entry : ZipEntry} (described : entry.stat.isSome)
    (whole : entry.Whole) (root : Bytes) (i : Nat) :
    Delivery root i entry (entrySteps root i entry) := by
  obtain ⟨stat, described⟩ := Option.isSome_iff_exists.mp described
  cases folder : stat.isFolder with
  | true =>
    have logged : entrySteps root i entry =
        .nameRead (stat.strlen - 1) stat.strlen :: folderSteps root stat := by
      simp [entrySteps, described, folder]
    rw [logged]
    exact .folder described folder
  | false =>
    obtain ⟨file, opens, -⟩ := whole stat described folder
    have logged : entrySteps root i entry =
        .nameRead (stat.strlen - 1) stat.strlen :: fileSteps i stat entry file := by
      simp [entrySteps, described, folder, opens]
    rw [logged]
    exact .file described folder opens

theorem deliveries_loopSteps {entries : List ZipEntry}
    (described : ∀ entry ∈ entries, entry.stat.isSome) (whole : ∀ entry ∈ entries, entry.Whole)
    (root : Bytes) (i : Nat) : Deliveries root i entries (loopSteps root i entries) := by
  induction entries generalizing i with
  | nil => exact .nil i
  | cons entry entries ih =>
    rw [List.forall_mem_cons] at described whole
    exact .cons (delivery_entrySteps described.1 whole.1 root i)
      (ih described.2 whole.2 (i + 1))

/-- Every run that returns true is complete exactly when this holds: the archive opens, and
either every entry can be described or some file entry does not open or does not deliver
as many bytes as it declares. -/
theorem extract_sound_iff (zipOpen : Bytes → Option (List ZipEntry)) (zipPath : Bytes) :
    (∀ (σ ε : Type) (env : Environment σ ε) (root : Bytes) (state : ExtractState σ),
      ((doArchiveExtract env root zipOpen zipPath).run state).outcome = .ok true →
        CompleteExtraction root (zipOpen zipPath)
          (steps ((doArchiveExtract env root zipOpen zipPath).run state).trace)) ↔
    ∃ entries, zipOpen zipPath = some entries ∧
      ((∀ entry ∈ entries, entry.stat.isSome) ∨ ∃ entry ∈ entries, ¬ entry.Whole) := by
  constructor
  · intro sound
    -- an entry that is not whole makes every run return false
    by_cases whole : ∀ entry ∈ (zipOpen zipPath).getD [], entry.Whole
    · obtain ⟨entries, _, opened, deliveries, -⟩ :=
        sound Unit Empty permissive [] ⟨(), 0⟩ (permissive_true whole [])
      exact ⟨entries, opened, .inl deliveries.described⟩
    · cases opened : zipOpen zipPath with
      | none => simp [opened] at whole
      | some entries => exact ⟨entries, rfl, .inr (by simpa [opened] using whole)⟩
  · intro ⟨entries, opened, condition⟩ σ ε env root state success
    obtain ⟨whole, logged⟩ := doArchiveExtract_true success
    rw [opened] at whole logged
    rcases condition with described | ⟨entry, member, notWhole⟩
    · exact ⟨entries, _, opened, deliveries_loopSteps described whole root 0, logged⟩
    · exact absurd (whole entry member) notWhole

/-- An archive that does not open, and an archive whose only entry cannot be described. -/
theorem extract_skips_silently :
    (((doArchiveExtract permissive [114] (fun _ => none) [122]).run ⟨(), 0⟩).outcome = .ok true ∧
      ¬ CompleteExtraction [114] none
        (steps ((doArchiveExtract permissive [114] (fun _ => none) [122]).run ⟨(), 0⟩).trace)) ∧
    (((doArchiveExtract permissive [114] (fun _ => some [⟨none, none, []⟩]) [122]).run
        ⟨(), 0⟩).outcome = .ok true ∧
      ¬ CompleteExtraction [114] (some [⟨none, none, []⟩])
        (steps ((doArchiveExtract permissive [114] (fun _ => some [⟨none, none, []⟩]) [122]).run
          ⟨(), 0⟩).trace)) := by
  refine ⟨⟨rfl, ?_⟩, rfl, ?_⟩
  · intro ⟨_, _, opened, _⟩
    cases opened
  · intro ⟨entries, _, opened, deliveries, _⟩
    cases opened
    have described := deliveries.described _ List.mem_cons_self
    cases described

end MyappsCommon.Utility.Archive
