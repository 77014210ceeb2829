import MyappsCommon.Utility.Archive.Sizes

/-! # The access to an entry's name

The test for a trailing slash reads the name at its length minus one, in unsigned
arithmetic, whether or not there is a character.
-/

namespace MyappsCommon.Utility.Archive

open MyappsCommon.Lib

variable {σ ε : Type}

/-- A read of a name is at an index from 0 to the length of the name, and the subtraction that
gave the index has not wrapped. -/
def Step.InsideName : Step → Prop
  | .nameRead index length =>
    index ≤ length ∧ (index.toNat : Int) = (length.toNat : Int) - 1
  | _ => True

def NamesReadInside (logged : List Step) : Prop := ∀ step ∈ logged, step.InsideName

def ZipEntry.Named (entry : ZipEntry) : Prop := ∀ stat, entry.stat = some stat → stat.name ≠ []

/-- The entries that a run can come to, as far as they are described, have names. -/
def ReachedNamed (entries : List ZipEntry) : Prop :=
  ∀ before entry after, entries = before ++ entry :: after →
    (∀ entry ∈ before, entry.Whole) → entry.Named

/-- The index is inside exactly when there is a character. -/
theorem insideName_nameRead_iff (stat : ZipStat) :
    (Step.nameRead (stat.strlen - 1) stat.strlen).InsideName ↔ stat.name ≠ [] := by
  have counted := stat.toNat_strlen
  constructor
  · rintro ⟨-, noWrap⟩ empty
    rw [counted, empty] at noWrap
    exact absurd noWrap (by simp)
  · intro nonempty
    have positive := List.length_pos_iff.mpr nonempty
    have index := stat.toNat_strlen_sub_one nonempty
    constructor
    · rw [UInt64.le_iff_toNat_le, index, counted]
      exact Nat.sub_le _ _
    · omega

/-! ## The steps of a run -/

@[simp] theorem namesReadInside_nil : NamesReadInside [] := List.forall_mem_nil _

@[simp] theorem namesReadInside_cons {step : Step} {logged : List Step} :
    NamesReadInside (step :: logged) ↔ step.InsideName ∧ NamesReadInside logged :=
  List.forall_mem_cons

@[simp] theorem namesReadInside_append {first second : List Step} :
    NamesReadInside (first ++ second) ↔ NamesReadInside first ∧ NamesReadInside second :=
  List.forall_mem_append

theorem namesReadInside_acceptSteps (chunks : List Bytes) :
    NamesReadInside (acceptSteps chunks) :=
  forall_mem_acceptSteps (fun _ => trivial) (fun _ => trivial) chunks

theorem namesReadInside_readSteps (chunks : List Bytes) (last : Int) :
    NamesReadInside (readSteps chunks last) :=
  forall_mem_readSteps (fun _ => trivial) (fun _ => trivial) chunks last

theorem FileCutOff.namesReadInside {stat : ZipStat} {file : ZipFile} {outcome : Outcome Bool}
    {cut : List Step} (cutOff : FileCutOff stat file outcome cut) : NamesReadInside cut := by
  cases cutOff with
  | fileWrite =>
    cases outcome with
    | ok _ | raised | unfinished =>
      simp [namesReadInside_acceptSteps, Step.InsideName, destroySteps]
  | size mismatch => simp [namesReadInside_readSteps, Step.InsideName]

/-- On an entry with a name nothing is read outside of it. -/
theorem namesReadInside_entrySteps {entry : ZipEntry} (named : entry.Named) (root : Bytes)
    (i : Nat) : NamesReadInside (entrySteps root i entry) := by
  unfold entrySteps
  cases described : entry.stat with
  | none => exact namesReadInside_nil
  | some stat =>
    have inside := (insideName_nameRead_iff stat).mpr (named stat described)
    refine namesReadInside_cons.mpr ⟨inside, ?_⟩
    cases folder : stat.isFolder with
    | true => simp [folderSteps, Step.InsideName]
    | false =>
      cases opens : entry.file with
      | none => simp
      | some file => simp [fileSteps, namesReadInside_readSteps, Step.InsideName]

theorem namesReadInside_loopSteps {entries : List ZipEntry}
    (named : ∀ entry ∈ entries, entry.Named) (root : Bytes) (i : Nat) :
    NamesReadInside (loopSteps root i entries) := by
  induction entries generalizing i with
  | nil => exact namesReadInside_nil
  | cons entry entries ih =>
    rw [List.forall_mem_cons] at named
    rw [loopSteps, namesReadInside_append]
    exact ⟨namesReadInside_entrySteps named.1 root i, ih named.2 (i + 1)⟩

theorem CutOff.namesReadInside {root : Bytes} {i : Nat} {entry : ZipEntry}
    {outcome : Outcome Bool} {cut : List Step} (cutOff : CutOff root i entry outcome cut)
    (named : entry.Named) : NamesReadInside cut := by
  cases cutOff with
  | @intro stat described _ cut cutOff =>
    have inside := (insideName_nameRead_iff stat).mpr (named stat described)
    refine namesReadInside_cons.mpr ⟨inside, ?_⟩
    cases cutOff with
    | createDirectory | onCreateDir | fopenIndex | createFileWriter =>
      simp [writerStep, Step.InsideName]
    | file _ _ cutOff =>
      simp [writerStep, Step.InsideName, cutOff.namesReadInside]

theorem Progress.namesReadInside {root : Bytes} {prior counter : UInt64}
    {entries : List ZipEntry} {outcome : Outcome Bool} {logged : List Step}
    (progress : Progress root 0 prior entries outcome counter logged)
    (named : ReachedNamed entries) : NamesReadInside logged := by
  cases progress with
  | complete whole =>
    refine namesReadInside_loopSteps (fun entry member => ?_) root 0
    obtain ⟨before, after, rfl⟩ := List.append_of_mem member
    exact named before entry after rfl fun first inside =>
      whole first (List.mem_append_left _ inside)
  | @cutOff before after entry _ cut first whole failed cutOff =>
    rw [namesReadInside_append]
    refine ⟨namesReadInside_loopSteps (fun earlier member => ?_) root 0,
      cutOff.namesReadInside (named before entry after first whole)⟩
    obtain ⟨front, back, rfl⟩ := List.append_of_mem member
    exact named front earlier (back ++ entry :: after) (by simp [first]) fun first inside =>
      whole first (List.mem_append_left _ inside)

/-- Every run on a described entry reads its name. -/
theorem nameRead_mem_extractEntry {entry : ZipEntry} {stat : ZipStat}
    (described : entry.stat = some stat) (env : Environment σ ε) (root : Bytes) (i : Nat)
    (state : ExtractState σ) :
    .nameRead (stat.strlen - 1) stat.strlen ∈
      steps ((extractEntry env root i entry).run state).trace := by
  simp [extractEntry_eq, described]

/-- No run reads outside of a name exactly when every entry that can be reached, the ones before
it being whole, has a name. -/
theorem names_read_inside_iff (zipOpen : Bytes → Option (List ZipEntry)) (zipPath : Bytes) :
    (∀ (σ ε : Type) (env : Environment σ ε) (root : Bytes) (state : ExtractState σ),
      NamesReadInside (steps ((doArchiveExtract env root zipOpen zipPath).run state).trace)) ↔
    ReachedNamed ((zipOpen zipPath).getD []) := by
  constructor
  · intro inside before entry after split whole stat described
    -- a run in which everything is accepted comes to the entry
    obtain ⟨size, delivered⟩ := steps_extractLoop_append (loopDelivered_permissive [] whole)
      (entry :: after) 0 0
    obtain ⟨later, first⟩ := steps_extractLoop_cons permissive [] (0 + before.length) entry after
      ⟨(), size⟩
    have read := nameRead_mem_extractEntry described permissive [] (0 + before.length) ⟨(), size⟩
    refine (insideName_nameRead_iff stat).mp (inside Unit Empty permissive [] ⟨(), 0⟩ _ ?_)
    rw [run_doArchiveExtract, split, Result.prepend_trace, steps_append, delivered, first]
    exact List.mem_append_right _ (List.mem_append_right _ (List.mem_append_left _ read))
  · intro named σ ε env root state
    obtain ⟨logged, all, progress⟩ := doArchiveExtract_progress env root zipOpen zipPath state
    rw [all]
    exact namesReadInside_cons.mpr ⟨trivial, progress.namesReadInside named⟩

theorem nameless_addressable : ([] : Bytes).length < 2 ^ 64 := Nat.two_pow_pos 64

/-- An entry without a name, and a byte in front of the terminator that is no slash. -/
def namelessEntry : ZipEntry where
  stat := some ⟨[], 0, 0, List.not_mem_nil, nameless_addressable⟩
  file := some ZipFile.empty
  extraFields := []

/-- The name is read at the greatest 64-bit index, and the extraction goes on. -/
theorem nameless_read_outside :
    let run := (doArchiveExtract permissive [114] (fun _ => some [namelessEntry]) [122]).run
      ⟨(), 0⟩
    run.outcome = .ok true ∧
      .nameRead 18446744073709551615 0 ∈ steps run.trace ∧
      ¬ NamesReadInside (steps run.trace) := by
  intro run
  have read : .nameRead 18446744073709551615 0 ∈ steps run.trace := by decide +kernel
  refine ⟨by decide +kernel, read, fun inside => ?_⟩
  exact absurd (inside _ read).1 (by decide)

end MyappsCommon.Utility.Archive
