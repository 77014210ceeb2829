import MyappsCommon.Utility.Archive.CreateSoundness
import MyappsCommon.Utility.Archive.ExtractSoundness

/-! # The handles of libzip

Each `zip_t` and each `zip_file` that is opened has to be given back.  `archive_create` does
this on one of its ways out, `do_archive_extract` on none.
-/

namespace MyappsCommon.Utility.Archive

open MyappsCommon.Lib

inductive HandleUse where
  | opened | given | freed
  deriving DecidableEq, Repr

/-- Each handle that has been opened has been given back. -/
def AllGiven (uses : List HandleUse) : Prop := uses.count .opened = uses.count .given

/-- As many handles are open as before. -/
def Balanced (uses : List HandleUse) : Prop := uses.count .opened = uses.count .freed

instance : DecidablePred AllGiven := fun _ => inferInstanceAs (Decidable (_ = _))

/-! ## `archive_create` -/

/-- A failing `zip_close` leaves the archive, and so its handle, as it was. -/
def CreateStep.handleUses : CreateStep → List HandleUse
  | .zipOpen true => [.opened]
  | .zipClose true => [.given, .freed]
  | .zipClose false => [.given]
  | _ => []

def createHandles (trace : List CreateStep) : List HandleUse :=
  trace.flatMap CreateStep.handleUses

section

variable (fs : SourceFs) (zip : Libzip) (metaFnc : CreateFileMetaFunction) (basePathLen : Nat)

/-- No call raises for this path, nor below it: not `is_directory`, not the iteration, and for
a file that libzip opens neither `file_size` nor, once the file is added, the function for meta
data. -/
inductive Walks : Bytes → Prop where
  | file {path : Bytes} (kind : fs.isDirectory path = .ok false)
      (sized : zip.sourceFile path = true → ∃ size, fs.fileSize path = .ok size)
      (answered : zip.sourceFile path = true → zip.fileAdd (path.drop basePathLen) = true →
        ∃ data, metaFnc path [] = .ok data) : Walks path
  | dir {path : Bytes} (kind : fs.isDirectory path = .ok true)
      (complete : (fs.list path).throws = false)
      (inside : ∀ name ∈ (fs.list path).names, Walks (childPath path name)) : Walks path

end

section

variable {fs : SourceFs} {zip : Libzip} {metaFnc : CreateFileMetaFunction} {basePathLen : Nat}

/-- The step leaves the handles alone. -/
def CreateStep.Quiet (step : CreateStep) : Prop := step.handleUses = []

/-- What is logged for the meta data of a file. -/
theorem emits_addMetaData {P : CreateStep → Prop} (asked : ∀ path, P (.metaFnc path))
    (set : ∀ index id length success, P (.extraFieldSet index id length success))
    (path name : Bytes) : Traced.Emits P (addMetaData zip metaFnc path name) := by
  refine Traced.emits_bind Traced.emits_getState fun _ =>
    Traced.emits_bind (Traced.emits_modifyState _) fun _ =>
    Traced.emits_bind (Traced.emits_emit (asked _)) fun _ =>
    Traced.emits_bind (Traced.emits_ofOutcome _) fun _ =>
    Traced.emits_bind (Traced.emits_modifyState _) fun _ => ?_
  split
  · refine Traced.emits_bind (Traced.emits_emit (set _ _ _ _)) fun _ => ?_
    split
    · exact Traced.emits_modifyState _
    · exact Traced.emits_pure _
  · exact Traced.emits_pure _

theorem emits_zipAddFile (path : Bytes) :
    Traced.Emits CreateStep.Quiet (zipAddFile fs zip metaFnc basePathLen path) := by
  have returns (result : Bool) :
      Traced.Emits CreateStep.Quiet (pure result : CreateM Bool) := Traced.emits_pure result
  refine Traced.emits_bind (Traced.emits_emit rfl) fun _ => ?_
  split
  · refine Traced.emits_bind (Traced.emits_ofOutcome _) fun _ =>
      Traced.emits_bind (Traced.emits_modifyState _) fun _ =>
      Traced.emits_bind (Traced.emits_emit rfl) fun _ => ?_
    split
    · exact Traced.emits_bind (emits_addMetaData (fun _ => rfl) (fun _ _ _ _ => rfl) _ _)
        fun _ => returns true
    · exact Traced.emits_bind (Traced.emits_emit rfl) fun _ => returns true
  · exact returns true

theorem emits_forEachEntry {dir : Bytes} {body : Bytes → CreateM Unit}
    (each : ∀ path, Traced.Emits CreateStep.Quiet (body path)) :
    Traced.Emits CreateStep.Quiet (forEachEntry fs dir body) := by
  refine Traced.emits_bind (Traced.emits_forEach (fun _ => each _) _) fun _ => ?_
  split
  · exact Traced.emits_raise
  · exact Traced.emits_pure _

theorem emits_addEntry {addDir : Bytes → CreateM Bool}
    (inside : ∀ path, Traced.Emits CreateStep.Quiet (addDir path)) (path : Bytes) :
    Traced.Emits CreateStep.Quiet (addEntry fs zip metaFnc addDir basePathLen path) := by
  refine Traced.emits_bind (Traced.emits_ofOutcome _) fun directory => ?_
  cases directory with
  | true => exact Traced.emits_bind (inside path) fun _ => Traced.emits_pure _
  | false => exact Traced.emits_bind (emits_zipAddFile path) fun _ => Traced.emits_pure _

/-- The walk neither opens nor gives back a handle. -/
theorem emits_zipAddDir (fuel : Nat) (path : Bytes) :
    Traced.Emits CreateStep.Quiet (zipAddDir fs zip metaFnc basePathLen fuel path) := by
  induction fuel generalizing path with
  | zero => exact Traced.emits_outOfSteps
  | succ fuel ih =>
    refine Traced.emits_bind (Traced.emits_emit rfl) fun _ => ?_
    -- the walk goes on below a directory that could not be added
    split
    · exact Traced.emits_bind (Traced.emits_modifyState _) fun _ =>
        Traced.emits_bind (emits_forEachEntry (emits_addEntry ih)) fun _ => Traced.emits_pure _
    · exact Traced.emits_bind (emits_forEachEntry (emits_addEntry ih)) fun _ => Traced.emits_pure _

/-! ## Walks that end -/

theorem zipAddFile_walks {path : Bytes} {state final : CreateState} {result : Bool}
    (kind : fs.isDirectory path = .ok false)
    (gives : (zipAddFile fs zip metaFnc basePathLen path).Gives state result final) :
    Walks fs zip metaFnc basePathLen path := by
  simp only [zipAddFile, Traced.gives_bind_iff, Traced.gives_emit_iff] at gives
  obtain ⟨_, _, rfl, gives⟩ := gives
  refine .file kind (fun opens => ?_) (fun opens accepts => ?_)
  -- the run has come behind both calls that can raise
  · simp only [opens, if_true, Traced.gives_bind_iff, Traced.gives_ofOutcome_iff] at gives
    obtain ⟨size, _, ⟨sized, -⟩, -⟩ := gives
    exact ⟨size, sized⟩
  · simp only [opens, accepts, if_true, addMetaData, Traced.gives_bind_iff,
      Traced.gives_ofOutcome_iff] at gives
    obtain ⟨_, _, -, _, _, -, _, _, -, _, _, stored, -⟩ := gives
    obtain ⟨_, _, -, _, _, -, _, _, -, data, _, ⟨answered, -⟩, -⟩ := stored
    exact ⟨data, answered⟩

theorem addEntry_walks {addDir : Bytes → CreateM Bool} {path : Bytes} {state final : CreateState}
    (inside : fs.isDirectory path = .ok true →
      (∃ result, (addDir path).Gives state result final) → Walks fs zip metaFnc basePathLen path)
    (gives : (addEntry fs zip metaFnc addDir basePathLen path).Gives state () final) :
    Walks fs zip metaFnc basePathLen path := by
  obtain ⟨directory, _, asked, -⟩ := Traced.gives_bind_iff.mp gives
  obtain ⟨kind, -⟩ := Traced.gives_ofOutcome_iff.mp asked
  rw [addEntry_gives_iff kind] at gives
  cases directory with
  | true => exact inside kind gives
  | false =>
    obtain ⟨_, gives⟩ := gives
    exact zipAddFile_walks kind gives

theorem forEachEntry_walks {addDir : Bytes → CreateM Bool} {dir : Bytes}
    {state final : CreateState} (kind : fs.isDirectory dir = .ok true)
    (inside : ∀ path before after result, fs.isDirectory path = .ok true →
      (addDir path).Gives before result after → Walks fs zip metaFnc basePathLen path)
    (gives : (forEachEntry fs dir (addEntry fs zip metaFnc addDir basePathLen)).Gives
      state () final) :
    Walks fs zip metaFnc basePathLen dir := by
  obtain ⟨between, looped, ended⟩ := Traced.gives_seq_iff.mp gives
  have complete : (fs.list dir).throws = false := by
    cases throws : (fs.list dir).throws with
    | false => rfl
    | true =>
      rw [throws] at ended
      exact absurd ended Traced.not_gives_raise
  refine .dir kind complete fun name listed => ?_
  obtain ⟨before, after, given⟩ := Traced.gives_of_forEach looped name listed
  refine addEntry_walks (fun kind given => ?_) given
  obtain ⟨result, given⟩ := given
  exact inside _ _ _ _ kind given

/-- A walk that has come to its end has met no exception. -/
theorem zipAddDir_walks {fuel : Nat} {path : Bytes} {state final : CreateState} {result : Bool}
    (kind : fs.isDirectory path = .ok true)
    (gives : (zipAddDir fs zip metaFnc basePathLen fuel path).Gives state result final) :
    Walks fs zip metaFnc basePathLen path := by
  induction fuel generalizing path state final result with
  | zero => exact absurd gives Traced.not_gives_outOfSteps
  | succ fuel ih =>
    rw [zipAddDir_gives_iff] at gives
    exact forEachEntry_walks kind (fun _ _ _ _ => ih) gives.2

/-! ## Walks that meet no exception -/

theorem avoids_addMetaData {failure : Traced.Failure} {path : Bytes}
    (answered : metaFnc path [] ≠ failure.outcome) (name : Bytes) :
    Traced.Avoids failure (addMetaData zip metaFnc path name) := by
  refine Traced.avoids_bind Traced.avoids_getState fun _ =>
    Traced.avoids_bind (Traced.avoids_modifyState _) fun _ =>
    Traced.avoids_bind (Traced.avoids_emit _) fun _ =>
    Traced.avoids_bind (Traced.avoids_ofOutcome answered) fun _ =>
    Traced.avoids_bind (Traced.avoids_modifyState _) fun _ => ?_
  split
  · refine Traced.avoids_bind (Traced.avoids_emit _) fun _ => ?_
    split
    · exact Traced.avoids_modifyState _
    · exact Traced.avoids_pure _
  · exact Traced.avoids_pure _

theorem avoids_zipAddFile {failure : Traced.Failure} {path : Bytes}
    (sized : zip.sourceFile path = true → fs.fileSize path ≠ failure.outcome)
    (answered : zip.sourceFile path = true → zip.fileAdd (path.drop basePathLen) = true →
      metaFnc path [] ≠ failure.outcome) :
    Traced.Avoids failure (zipAddFile fs zip metaFnc basePathLen path) := by
  have returns (result : Bool) :
      Traced.Avoids failure (pure result : CreateM Bool) := Traced.avoids_pure result
  refine Traced.avoids_bind (Traced.avoids_emit _) fun _ => ?_
  split
  case isFalse => exact returns true
  case isTrue opens =>
    refine Traced.avoids_bind (Traced.avoids_ofOutcome (sized opens)) fun _ =>
      Traced.avoids_bind (Traced.avoids_modifyState _) fun _ =>
      Traced.avoids_bind (Traced.avoids_emit _) fun _ => ?_
    split
    case isTrue accepts =>
      exact Traced.avoids_bind (avoids_addMetaData (answered opens accepts) _)
        fun _ => returns true
    case isFalse => exact Traced.avoids_bind (Traced.avoids_emit _) fun _ => returns true

theorem avoids_forEachEntry {failure : Traced.Failure} {dir : Bytes} {body : Bytes → CreateM Unit}
    (ended : (fs.list dir).throws = true → failure ≠ .raised)
    (each : ∀ name ∈ (fs.list dir).names, Traced.Avoids failure (body (childPath dir name))) :
    Traced.Avoids failure (forEachEntry fs dir body) := by
  refine Traced.avoids_bind (Traced.avoids_forEach each) fun _ => ?_
  split
  case isTrue throws => exact Traced.avoids_raise (ended throws)
  case isFalse => exact Traced.avoids_pure ()

theorem avoids_zipAddDir {failure : Traced.Failure} {fuel : Nat} {path : Bytes}
    (entered : Traced.Avoids failure (forEachEntry fs path
      (addEntry fs zip metaFnc (zipAddDir fs zip metaFnc basePathLen fuel) basePathLen))) :
    Traced.Avoids failure (zipAddDir fs zip metaFnc basePathLen (fuel + 1) path) := by
  have returns : ∀ _ : Unit, Traced.Avoids failure (pure true : CreateM Bool) :=
    fun _ => Traced.avoids_pure true
  refine Traced.avoids_bind (Traced.avoids_emit _) fun _ => ?_
  split
  · exact Traced.avoids_bind (Traced.avoids_modifyState _) fun _ =>
      Traced.avoids_bind entered returns
  · exact Traced.avoids_bind entered returns

theorem avoids_addEntry {failure : Traced.Failure} {addDir : Bytes → CreateM Bool} {path : Bytes}
    {directory : Bool} (kind : fs.isDirectory path = .ok directory)
    (entered : directory = true → Traced.Avoids failure (addDir path))
    (added : directory = false →
      Traced.Avoids failure (zipAddFile fs zip metaFnc basePathLen path)) :
    Traced.Avoids failure (addEntry fs zip metaFnc addDir basePathLen path) := by
  have returns : ∀ _ : Bool, Traced.Avoids failure (pure () : CreateM Unit) :=
    fun _ => Traced.avoids_pure ()
  cases directory with
  | true =>
    rw [addEntry_of_directory kind]
    exact Traced.avoids_bind (entered rfl) returns
  | false =>
    rw [addEntry_of_file kind]
    exact Traced.avoids_bind (added rfl) returns

theorem Walks.avoids_raised {path : Bytes} (walks : Walks fs zip metaFnc basePathLen path)
    (fuel : Nat) :
    Traced.Avoids .raised (addEntry fs zip metaFnc (zipAddDir fs zip metaFnc basePathLen fuel)
      basePathLen path) := by
  induction walks generalizing fuel with
  | file kind sized answered =>
    refine avoids_addEntry kind nofun fun _ => avoids_zipAddFile (fun opens => ?_)
      fun opens accepts => ?_
    · obtain ⟨size, sized⟩ := sized opens
      rw [sized]
      exact nofun
    · obtain ⟨data, answered⟩ := answered opens accepts
      rw [answered]
      exact nofun
  | dir kind complete inside ih =>
    refine avoids_addEntry kind (fun _ => ?_) nofun
    cases fuel with
    -- the end of the budget is not an exception
    | zero => exact Traced.avoids_outOfSteps nofun
    | succ fuel =>
      refine avoids_zipAddDir (avoids_forEachEntry ?_ fun name listed => ih name listed fuel)
      rw [complete]
      exact nofun

/-! ## The whole call -/

@[simp] theorem createHandles_nil : createHandles [] = [] := rfl

@[simp] theorem createHandles_cons (step : CreateStep) (trace : List CreateStep) :
    createHandles (step :: trace) = step.handleUses ++ createHandles trace := List.flatMap_cons

@[simp] theorem createHandles_append (first second : List CreateStep) :
    createHandles (first ++ second) = createHandles first ++ createHandles second :=
  List.flatMap_append

/-- The walk that `archive_create` makes from a root that ends in `/`. -/
def walkFrom (fs : SourceFs) (zip : Libzip) (metaFnc : CreateFileMetaFunction) (fuel : Nat)
    (root : Bytes) : CreateM Unit :=
  forEachEntry fs root
    (addEntry fs zip metaFnc (zipAddDir fs zip metaFnc root.length fuel) root.length)

/-- The root is a directory, and the walk from it meets no exception. -/
structure WalksRoot (fs : SourceFs) (zip : Libzip) (metaFnc : CreateFileMetaFunction)
    (root : Bytes) : Prop where
  directory : fs.isDirectory (withSlash root) = .ok true
  walks : Walks fs zip metaFnc (withSlash root).length (withSlash root)

theorem createHandles_walkFrom (fuel : Nat) (root : Bytes) (state : CreateState) :
    createHandles ((walkFrom fs zip metaFnc fuel root).run state).trace = [] :=
  List.flatMap_eq_nil_iff.mpr (emits_forEachEntry (emits_addEntry (emits_zipAddDir fuel)) state)

theorem WalksRoot.neverRaises {root : Bytes} (clean : WalksRoot fs zip metaFnc root)
    (fuel : Nat) : Traced.NeverRaises (walkFrom fs zip metaFnc fuel (withSlash root)) := by
  cases clean.walks with
  | file kind =>
    rw [clean.directory] at kind
    cases kind
  | dir _ complete inside =>
    refine avoids_forEachEntry (fun throws => ?_) fun name listed =>
      (inside name listed).avoids_raised fuel
    rw [complete] at throws
    exact absurd throws Bool.false_ne_true

theorem walksRoot_of_gives {fuel : Nat} {root : Bytes} {state final : CreateState}
    (directory : fs.isDirectory (withSlash root) = .ok true)
    (gives : (walkFrom fs zip metaFnc fuel (withSlash root)).Gives state () final) :
    WalksRoot fs zip metaFnc root :=
  ⟨directory, forEachEntry_walks directory (fun _ _ _ _ => zipAddDir_walks) gives⟩

/-- From a root that is a directory everything hangs on the walk. -/
theorem run_archiveCreate_directory (fuel : Nat) {root : Bytes} (state : CreateState)
    (opens : zip.opens = true) (directory : fs.isDirectory (withSlash root) = .ok true) :
    (archiveCreate fs zip metaFnc fuel root).run state =
      (((walkFrom fs zip metaFnc fuel (withSlash root)).run
          { state with runcompressedSize := 0 }).andThen fun _ => (zipClose fs zip >>= fun _ =>
        pure true).run).prepend [.zipOpen true] := by
  simp [archiveCreate, opens, directory, walkFrom]

theorem archiveCreate_directory (fuel : Nat) {root : Bytes} (state : CreateState)
    (opens : zip.opens = true) (directory : fs.isDirectory (withSlash root) = .ok true) :
    let walked := (walkFrom fs zip metaFnc fuel (withSlash root)).run
      { state with runcompressedSize := 0 }
    let created := (archiveCreate fs zip metaFnc fuel root).run state
    (walked.outcome = .unfinished → created.outcome = .unfinished) ∧
      createHandles created.trace = .opened ::
        if walked.outcome = .ok () then (CreateStep.zipClose zip.closes).handleUses else [] := by
  intro walked created
  have unfolded : created = (walked.andThen fun _ => (zipClose fs zip >>= fun _ =>
      pure true).run).prepend [.zipOpen true] :=
    run_archiveCreate_directory fuel state opens directory
  have quiet : createHandles walked.trace = [] := createHandles_walkFrom fuel _ _
  rw [unfolded]
  generalize walked = ended at quiet
  obtain ⟨outcome, between, trace⟩ := ended
  change createHandles trace = [] at quiet
  cases outcome with
  | ok _ => simp [zipClose, quiet, CreateStep.handleUses, Result.prepend]
  | raised | unfinished => simp [quiet, CreateStep.handleUses]

theorem createHandles_of_closed (fuel : Nat) (root : Bytes) (state : CreateState)
    (closed : zip.opens = false) :
    createHandles ((archiveCreate fs zip metaFnc fuel root).run state).trace = [] := by
  simp [archiveCreate, closed, Result.prepend, createHandles, CreateStep.handleUses]

/-- The handle goes to `zip_close` behind a walk that has come to its end. -/
theorem createHandles_of_walksRoot {fuel : Nat} {root : Bytes} {state : CreateState}
    (opens : zip.opens = true) (clean : WalksRoot fs zip metaFnc root)
    (ended : ((archiveCreate fs zip metaFnc fuel root).run state).outcome ≠ .unfinished) :
    createHandles ((archiveCreate fs zip metaFnc fuel root).run state).trace =
      .opened :: (CreateStep.zipClose zip.closes).handleUses := by
  obtain ⟨unfinished, handles⟩ := archiveCreate_directory fuel state opens clean.directory
  have complete : ((walkFrom fs zip metaFnc fuel (withSlash root)).run
      { state with runcompressedSize := 0 }).outcome = .ok () := by
    cases outcome : ((walkFrom fs zip metaFnc fuel (withSlash root)).run
        { state with runcompressedSize := 0 }).outcome with
    | ok _ => rfl
    | raised => exact absurd outcome (clean.neverRaises fuel _)
    | unfinished => exact absurd (unfinished outcome) ended
  rw [handles, if_pos complete]

/-- On every other way out it is kept. -/
theorem createHandles_of_not_walksRoot {fuel : Nat} {root : Bytes} {state : CreateState}
    (opens : zip.opens = true) (left : ¬ WalksRoot fs zip metaFnc root) :
    createHandles ((archiveCreate fs zip metaFnc fuel root).run state).trace = [.opened] := by
  cases asked : fs.isDirectory (withSlash root) with
  | ok directory =>
    cases directory with
    | true =>
      -- a walk that has ended would have met no exception
      rw [(archiveCreate_directory fuel state opens asked).2, if_neg]
      intro complete
      obtain ⟨_, _, ran⟩ := Result.eq_of_outcome complete
      exact left (walksRoot_of_gives asked ⟨_, ran⟩)
    | false => simp [archiveCreate, opens, asked, CreateStep.handleUses, Result.prepend]
  | raised | unfinished =>
    simp [archiveCreate, opens, asked, CreateStep.handleUses, Result.prepend]

end

/-! ## `do_archive_extract` -/

/-- The function calls neither `zip_fclose` nor `zip_close`. -/
def Step.handleUses : Step → List HandleUse
  | .zipOpen true => [.opened]
  | .fopenIndex _ true => [.opened]
  | _ => []

def extractHandles (logged : List Step) : List HandleUse := logged.flatMap Step.handleUses

theorem eq_opened_of_mem_extractHandles {logged : List Step} {use : HandleUse}
    (member : use ∈ extractHandles logged) : use = .opened := by
  obtain ⟨step, -, member⟩ := List.mem_flatMap.mp member
  unfold Step.handleUses at member
  split at member
  · exact List.mem_singleton.mp member
  · exact List.mem_singleton.mp member
  · exact absurd member List.not_mem_nil

/-- What an extraction has opened stays open, so that only a run without handles is balanced. -/
theorem count_opened_extractHandles (logged : List Step) {use : HandleUse}
    (returned : use ≠ .opened) :
    (extractHandles logged).count .opened = (extractHandles logged).count use ↔
      extractHandles logged = [] := by
  have unreturned : (extractHandles logged).count use = 0 :=
    List.count_eq_zero.mpr fun member => returned (eq_opened_of_mem_extractHandles member)
  rw [unreturned, List.count_eq_zero]
  constructor
  · intro none
    exact List.eq_nil_iff_forall_not_mem.mpr fun other member =>
      none (eq_opened_of_mem_extractHandles member ▸ member)
  · intro empty
    rw [empty]
    exact List.not_mem_nil

section

variable {σ ε : Type}

theorem extractHandles_eq_nil_iff (env : Environment σ ε) (root : Bytes)
    (zipOpen : Bytes → Option (List ZipEntry)) (zipPath : Bytes) (state : ExtractState σ) :
    extractHandles (steps ((doArchiveExtract env root zipOpen zipPath).run state).trace) = [] ↔
      zipOpen zipPath = none := by
  rw [run_doArchiveExtract]
  cases zipOpen zipPath with
  | none => simp [extractLoop, extractHandles, Step.handleUses]
  | some entries => simp [extractHandles, Step.handleUses]

end

/-! ## Both functions -/

/-- `archive_create` gives its handle to `zip_close` in the runs in which the root is a
directory and no exception comes up, and frees it when `zip_close` succeeds; an extraction
gives nothing back, in whatever way it ends. -/
theorem handles_returned_iff {σ ε : Type} (fs : SourceFs) (zip : Libzip)
    (metaFnc : CreateFileMetaFunction) (fuel : Nat) (createRoot : Bytes) (createState : CreateState)
    (env : Environment σ ε) (root : Bytes) (zipOpen : Bytes → Option (List ZipEntry))
    (zipPath : Bytes) (state : ExtractState σ) :
    (((archiveCreate fs zip metaFnc fuel createRoot).run createState).outcome ≠ .unfinished →
      (AllGiven (createHandles
          ((archiveCreate fs zip metaFnc fuel createRoot).run createState).trace) ↔
        (zip.opens = true → WalksRoot fs zip metaFnc createRoot)) ∧
      (Balanced (createHandles
          ((archiveCreate fs zip metaFnc fuel createRoot).run createState).trace) ↔
        (zip.opens = true → WalksRoot fs zip metaFnc createRoot ∧ zip.closes = true))) ∧
    (AllGiven (extractHandles
        (steps ((doArchiveExtract env root zipOpen zipPath).run state).trace)) ↔
      zipOpen zipPath = none) ∧
    (Balanced (extractHandles
        (steps ((doArchiveExtract env root zipOpen zipPath).run state).trace)) ↔
      zipOpen zipPath = none) := by
  constructor
  · intro ended
    cases opens : zip.opens with
    | false =>
      rw [createHandles_of_closed fuel createRoot createState opens]
      simp [AllGiven, Balanced]
    | true =>
      by_cases clean : WalksRoot fs zip metaFnc createRoot
      · rw [createHandles_of_walksRoot opens clean ended]
        cases zip.closes with
        | true | false => simp [CreateStep.handleUses, AllGiven, Balanced, clean]
      · rw [createHandles_of_not_walksRoot opens clean]
        simp [AllGiven, Balanced, clean]
  · rw [← extractHandles_eq_nil_iff env root zipOpen zipPath state]
    have given : HandleUse.given ≠ .opened := by decide
    have freed : HandleUse.freed ≠ .opened := by decide
    exact ⟨count_opened_extractHandles _ given, count_opened_extractHandles _ freed⟩

theorem handles_returned_nested :
    Balanced (createHandles ((archiveCreate nestedFs (zipAdding true) (fun _ _ => .ok []) 1
      [114]).run (createStart 0)).trace) := by
  have walked : (walkFrom nestedFs (zipAdding true) (fun _ _ => .ok []) 1 (withSlash [114])).Gives
      (createStart 0) () _ := ⟨_, rfl⟩
  have balanced := (handles_returned_iff nestedFs (zipAdding true) (fun _ _ => .ok []) 1 [114]
    (createStart 0) permissive [114] (fun _ => none) [122] ⟨(), 0⟩).1 (by decide)
  exact balanced.2.mpr fun _ => ⟨walksRoot_of_gives rfl walked, rfl⟩

/-- There is nothing at any path. -/
def missingFs : SourceFs where
  isDirectory _ := .ok false
  list _ := ⟨[], true⟩
  fileSize _ := .raised
  content _ := []

/-- The root is not a directory, and an archive is empty. -/
theorem handles_kept :
    (((archiveCreate missingFs (zipAdding true) (fun _ _ => .ok []) 1 [114]).run
        (createStart 0)).outcome = .ok false ∧
      ¬ AllGiven (createHandles ((archiveCreate missingFs (zipAdding true) (fun _ _ => .ok []) 1
        [114]).run (createStart 0)).trace)) ∧
    (((doArchiveExtract permissive [114] (fun _ => some []) [122]).run ⟨(), 0⟩).outcome =
        .ok true ∧
      ¬ AllGiven (extractHandles
        (steps ((doArchiveExtract permissive [114] (fun _ => some []) [122]).run
          ⟨(), 0⟩).trace))) :=
  ⟨⟨rfl, by decide⟩, rfl, by decide⟩

end MyappsCommon.Utility.Archive
