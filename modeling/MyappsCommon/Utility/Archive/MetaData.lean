import MyappsCommon.Utility.Archive.RoundTrip
import MyappsCommon.Utility.Archive.Sizes

/-! # The meta data of the files

What the function for meta data leaves goes through an extra field of 16-bit length, and
nobody looks at whether the field could be set.
-/

namespace MyappsCommon.Utility.Archive

open MyappsCommon.Lib

variable {σ ε : Type}

/-! ## The calls of the writer-creation callback -/

/-- The name, the meta data and its length. -/
structure WriterCall where
  name : Bytes
  metaData : Option Bytes
  metaDataSize : Nat
  deriving DecidableEq, Repr

def Step.writerCall? : Step → Option WriterCall
  | .createFileWriter name _ metaData metaDataSize _ => some ⟨name, metaData, metaDataSize.toNat⟩
  | _ => none

def writerCalls (logged : List Step) : List WriterCall := logged.filterMap Step.writerCall?

/-- The call for an entry, if it is a file that opens. -/
def ZipEntry.writerCalls (entry : ZipEntry) : List WriterCall :=
  match entry.stat, entry.file with
  | some stat, some _ =>
    if stat.isFolder then []
    else
      let data := (entry.extraFieldById metaExtraFieldId).map ExtraField.data
      [⟨stat.name, data, (UInt16.ofNat ((data.getD []).length)).toNat⟩]
  | _, _ => []

@[simp] theorem writerCalls_append (first second : List Step) :
    writerCalls (first ++ second) = writerCalls first ++ writerCalls second :=
  List.filterMap_append

theorem writerCalls_of_quiet {during : List Step} (quiet : Quiet during) :
    writerCalls during = [] := by
  rw [writerCalls, List.filterMap_eq_nil_iff]
  intro step member
  have notCreating := quiet step member
  cases step with
  | createFileWriter => cases notCreating
  | _ => rfl

theorem writerCalls_writerStep {entry : ZipEntry} {stat : ZipStat} {file : ZipFile}
    (described : entry.stat = some stat) (folder : stat.isFolder = false)
    (opens : entry.file = some file) (answer : Outcome Bool) {during : List Step}
    (quiet : Quiet during) :
    writerCalls (writerStep stat entry answer :: during) = entry.writerCalls := by
  have later := writerCalls_of_quiet quiet
  rw [writerCalls] at later
  simp [writerCalls, writerStep, Step.writerCall?, later, ZipEntry.writerCalls, described, folder,
    opens]

theorem writerCalls_entrySteps (root : Bytes) (i : Nat) (entry : ZipEntry) :
    writerCalls (entrySteps root i entry) = entry.writerCalls := by
  cases described : entry.stat with
  | none => simp [entrySteps, ZipEntry.writerCalls, described, writerCalls]
  | some stat =>
    cases folder : stat.isFolder with
    | true =>
      cases opens : entry.file <;>
        simp [entrySteps, ZipEntry.writerCalls, described, folder, opens, folderSteps, writerCalls,
          Step.writerCall?]
    | false =>
      cases opens : entry.file with
      | none => simp [entrySteps, ZipEntry.writerCalls, described, folder, opens, writerCalls,
          Step.writerCall?]
      | some file =>
        have quiet : Quiet (readSteps file.chunks file.last ++ [.destroyFileWriter]) := by
          simp [quiet_readSteps, Step.createsWriter]
        rw [← writerCalls_writerStep described folder opens (.ok true) quiet]
        simp only [entrySteps, described, folder, opens]
        rfl

theorem writerCalls_loopSteps (root : Bytes) (i : Nat) (entries : List ZipEntry) :
    writerCalls (loopSteps root i entries) = entries.flatMap ZipEntry.writerCalls := by
  induction entries generalizing i with
  | nil => rfl
  | cons entry entries ih =>
    rw [loopSteps, writerCalls_append, writerCalls_entrySteps, ih, List.flatMap_cons]

theorem CutOff.writerCalls_upTo {root : Bytes} {i : Nat} {entry : ZipEntry}
    {outcome : Outcome Bool} {cut : List Step} (cutOff : CutOff root i entry outcome cut) :
    writerCalls cut <+: entry.writerCalls := by
  cases cutOff with
  | @intro stat described _ cut cutOff =>
    cases cutOff with
    | createDirectory | onCreateDir | fopenIndex => exact List.nil_prefix
    | @createFileWriter folder file opens _ refused =>
      have call := writerCalls_writerStep described folder opens outcome quiet_nil
      rw [← call]
      exact List.prefix_rfl
    | @file folder file opens _ cut cutOff =>
      have call := writerCalls_writerStep described folder opens (.ok true) cutOff.quiet.1
      rw [← call]
      exact List.prefix_rfl

/-- The callback is called for the entries in their order, up to the end of the run. -/
theorem Progress.writerCalls_upTo {root : Bytes} {i : Nat} {prior counter : UInt64}
    {entries : List ZipEntry} {outcome : Outcome Bool} {logged : List Step}
    (progress : Progress root i prior entries outcome counter logged) :
    writerCalls logged <+: entries.flatMap ZipEntry.writerCalls ∧
      (outcome = .ok true → writerCalls logged = entries.flatMap ZipEntry.writerCalls) := by
  cases progress with
  | complete whole =>
    rw [writerCalls_loopSteps]
    exact ⟨List.prefix_rfl, fun _ => rfl⟩
  | @cutOff before after entry _ cut first whole failed cutOff =>
    refine ⟨?_, fun success => absurd success failed⟩
    rw [writerCalls_append, writerCalls_loopSteps, first, List.flatMap_append, List.flatMap_cons,
      List.prefix_append_right_inj]
    exact cutOff.writerCalls_upTo.trans (List.prefix_append _ _)

/-! ## What the archive keeps -/

/-- libzip gives back an entry with the extra fields that have been set. -/
structure PresentsFields (stored : ArchiveEntry) (view : ZipEntry) : Prop
    extends Presents stored view where
  extraField : view.extraFieldById metaExtraFieldId = stored.extraFields.lookup metaExtraFieldId

/-- What `zip_open` finds at the path: the archive that has been written, if one has. -/
def ReadsFieldsBack (zipOpen : Bytes → Option (List ZipEntry)) (zipPath : Bytes) :
    Option (List ArchiveEntry) → Prop
  | none => zipOpen zipPath = none
  | some stored => ∃ views, zipOpen zipPath = some views ∧
      List.Forall₂ PresentsFields stored views

/-- The name tells a directory from a file. -/
def ArchiveEntry.Named (stored : ArchiveEntry) : Prop :=
  stored.name ≠ [] ∧ endsInSlash stored.name = stored.data.isNone

/-- The call for an entry that is read back. -/
def ArchiveEntry.writerCalls (stored : ArchiveEntry) : List WriterCall :=
  match stored.data with
  | none => []
  | some _ =>
    let data := (stored.extraFields.lookup metaExtraFieldId).map ExtraField.data
    [⟨stored.name, data, (data.getD []).length⟩]

/-- The length of a field that has been set is passed as it is. -/
theorem metaDataSize_toNat (field : Option ExtraField) :
    (UInt16.ofNat (((field.map ExtraField.data).getD []).length)).toNat =
      ((field.map ExtraField.data).getD []).length := by
  cases field with
  | none => rfl
  | some field => exact UInt16.toNat_ofNat_of_lt' field.short

theorem PresentsFields.spec {stored : ArchiveEntry} {view : ZipEntry}
    (presents : PresentsFields stored view) (named : stored.Named) :
    view.writerCalls = stored.writerCalls ∧ view.Whole := by
  obtain ⟨stat, described, name_eq, -⟩ := presents.stat
  have folder := presents.toPresents.isFolder described named.1 named.2
  cases data : stored.data with
  | none =>
    rw [data] at folder
    constructor
    · cases opens : view.file <;>
        simp [ZipEntry.writerCalls, ArchiveEntry.writerCalls, described, folder, opens, data]
    · intro other found file
      obtain rfl := Option.some.inj (described.symm.trans found)
      rw [folder] at file
      cases file
  | some content =>
    obtain ⟨file, opens, rfl⟩ := presents.file content data
    rw [data] at folder
    constructor
    · simp only [ZipEntry.writerCalls, ArchiveEntry.writerCalls, described, folder, opens, data,
        presents.extraField, name_eq, metaDataSize_toNat]
      rfl
    · intro other found _
      obtain rfl := Option.some.inj (described.symm.trans found)
      exact ⟨file, opens, presents.toPresents.delivered described data⟩

/-- An archive that is read back calls for its files what they have stored. -/
theorem presentsFields_spec {stored : List ArchiveEntry} {views : List ZipEntry}
    (presents : List.Forall₂ PresentsFields stored views) (named : ∀ entry ∈ stored, entry.Named) :
    views.flatMap ZipEntry.writerCalls = stored.flatMap ArchiveEntry.writerCalls ∧
      ∀ view ∈ views, view.Whole := by
  induction presents with
  | nil => exact ⟨rfl, List.forall_mem_nil _⟩
  | cons first presents ih =>
    rw [List.forall_mem_cons] at named
    obtain ⟨calls, whole⟩ := first.spec named.1
    obtain ⟨callsRest, wholeRest⟩ := ih named.2
    rw [List.flatMap_cons, List.flatMap_cons, calls, callsRest]
    exact ⟨rfl, List.forall_mem_cons.mpr ⟨whole, wholeRest⟩⟩

/-! ## What the walk stores -/

/-- What the function for meta data leaves for a path. -/
def produced (metaFnc : CreateFileMetaFunction) (path : Bytes) : Bytes :=
  match metaFnc path [] with
  | .ok data => data
  | .raised => []
  | .unfinished => []

/-- Entry names of the files, and their meta data, in the order of the walk. -/
def fileMetaData (metaFnc : CreateFileMetaFunction) (base : Bytes) :
    DirTree → Bytes → List (Bytes × Bytes)
  | .nil, _ => []
  | .file name _ rest, within =>
    (within ++ name, produced metaFnc (base ++ (within ++ name))) ::
      fileMetaData metaFnc base rest within
  | .dir name inside rest, within =>
    fileMetaData metaFnc base inside (within ++ name ++ [slash]) ++
      fileMetaData metaFnc base rest within

/-- The call that a file's meta data asks for. -/
def wantedCall (file : Bytes × Bytes) : WriterCall :=
  ⟨file.1, if file.2 = [] then none else some file.2, file.2.length⟩

/-- The call that comes of it. -/
def storedCall (zip : Libzip) (file : Bytes × Bytes) : WriterCall :=
  let fields := if file.2 ≠ [] then fieldSet zip file.1 metaExtraFieldId file.2 else []
  let data := (fields.lookup metaExtraFieldId).map ExtraField.data
  ⟨file.1, data, (data.getD []).length⟩

theorem storedFields_eq (zip : Libzip) (metaFnc : CreateFileMetaFunction) (path name : Bytes) :
    storedFields zip metaFnc path name =
      if produced metaFnc path ≠ [] then
        fieldSet zip name metaExtraFieldId (produced metaFnc path)
      else [] := by
  unfold storedFields produced
  cases metaFnc path [] with
  | ok data => rfl
  | raised | unfinished => rfl

/-- The meta data comes through when the field can be set and its header of four bytes and
the data fit in 65535 bytes. -/
theorem storedCall_eq_iff {zip : Libzip} {name data : Bytes} :
    storedCall zip (name, data) = wantedCall (name, data) ↔
      data = [] ∨ (zip.extraFieldSet name = true ∧ data.length ≤ 65531) := by
  by_cases empty : data = []
  · simp [storedCall, wantedCall, empty]
  · have wanted : wantedCall (name, data) = ⟨name, some data, data.length⟩ := by
      simp [wantedCall, empty]
    rw [wanted, or_iff_right empty]
    constructor
    · intro same
      have stored := congrArg WriterCall.metaData same
      simp only [storedCall, if_pos empty, fieldSet] at stored
      split at stored
      case isTrue success =>
        -- the field holds all of the data, so that this is as short as the field
        simp only [List.lookup_cons_self, Option.map_some, Option.some.injEq] at stored
        rw [Bool.and_eq_true, decide_eq_true_eq, stored] at success
        exact ⟨success.1, by omega⟩
      case isFalse => cases stored
    · intro ⟨accepts, fits⟩
      have whole : (extraFieldOf data).data = data := by
        have length : (UInt16.ofNat data.length).toNat = data.length :=
          UInt16.toNat_ofNat_of_lt' (Nat.lt_of_le_of_lt fits (by decide))
        show data.take (UInt16.ofNat data.length).toNat = data
        rw [length, List.take_length]
      have success : data.length + 4 ≤ 65535 := by omega
      simp [storedCall, empty, fieldSet, accepts, whole, success]

/-- A file is in the archive that `zip_close` writes. -/
def Libzip.stores (zip : Libzip) (base name : Bytes) : Bool :=
  zip.closes && (zip.sourceFile (base ++ name) && zip.fileAdd name)

/-- The entries that the walk adds call for the meta data of the files among them. -/
theorem writerCalls_added (fs : SourceFs) {zip : Libzip} (closes : zip.closes = true)
    (metaFnc : CreateFileMetaFunction) (base : Bytes) (tree : DirTree) (within : Bytes) :
    ((added zip metaFnc base tree within).map (PendingEntry.write fs)).flatMap
        ArchiveEntry.writerCalls =
      ((fileMetaData metaFnc base tree within).filter fun file => zip.stores base file.1).map
        (storedCall zip) := by
  induction tree generalizing within with
  | nil => rfl
  | file name content rest ih =>
    rw [added, fileMetaData, List.map_append, List.flatMap_append, ih, List.filter_cons,
      Libzip.stores, closes, Bool.true_and, fileEntries]
    split
    case isTrue =>
      simp only [List.map_cons, List.map_nil, PendingEntry.write, storedFields_eq,
        List.flatMap_cons, List.flatMap_nil, ArchiveEntry.writerCalls, Option.map_some,
        List.append_nil, storedCall]
      rfl
    case isFalse => rfl
  | dir name inside rest ihInside ihRest =>
    have noCall : ((dirEntries zip (within ++ name)).map (PendingEntry.write fs)).flatMap
        ArchiveEntry.writerCalls = [] := by
      rw [dirEntries]
      split
      · rfl
      · rfl
    rw [added, fileMetaData, List.map_append, List.map_append, List.flatMap_append,
      List.flatMap_append, noCall, ihInside, ihRest, List.nil_append, List.filter_append,
      List.map_append]

/-- The entries that the walk of a tree adds can be told apart by their names. -/
theorem named_added (fs : SourceFs) (zip : Libzip) (metaFnc : CreateFileMetaFunction)
    (base within : Bytes) {tree : DirTree} (named : tree.AllNames pathFormat.IsName) :
    ∀ entry ∈ added zip metaFnc base tree within, (entry.write fs).Named := by
  intro entry member
  induction tree generalizing within with
  | nil => cases member
  | file name content rest ih =>
    obtain ⟨isName, namedRest⟩ := named
    rcases List.mem_append.mp member with first | later
    · rw [fileEntries] at first
      split at first
      case isTrue =>
        rw [List.mem_singleton.mp first]
        exact ⟨by simp [PendingEntry.write, isName.nonempty],
          endsInSlash_append_name isName.nonempty isName.whole within⟩
      case isFalse => cases first
    · exact ih within namedRest later
  | dir name inside rest ihInside ihRest =>
    obtain ⟨isName, namedInside, namedRest⟩ := named
    rcases List.mem_append.mp member with first | later
    · rw [dirEntries] at first
      split at first
      case isTrue =>
        rw [List.mem_singleton.mp first, PendingEntry.write,
          dirEntryName_name isName.nonempty isName.whole within]
        exact ⟨by simp, endsInSlash_append_slash _⟩
      case isFalse => cases first
    · rcases List.mem_append.mp later with below | beside
      · exact ihInside _ namedInside below
      · exact ihRest within namedRest beside

/-! ## There and back -/

/-- The callback is given the meta data of the files, each file's own and in their order, as
far as the run gets. -/
def HandsOver (files : List (Bytes × Bytes)) (outcome : Outcome Bool) (logged : List Step) :
    Prop :=
  writerCalls logged <+: files.map wantedCall ∧
    (outcome = .ok true → writerCalls logged = files.map wantedCall)

/-- All extractions of an archive of whole entries hand over what its entries call for. -/
theorem handsOver_iff {zipOpen : Bytes → Option (List ZipEntry)} {zipPath : Bytes}
    (whole : ∀ entry ∈ (zipOpen zipPath).getD [], entry.Whole) (files : List (Bytes × Bytes)) :
    (∀ (σ ε : Type) (env : Environment σ ε) (root : Bytes) (state : ExtractState σ),
      HandsOver files ((doArchiveExtract env root zipOpen zipPath).run state).outcome
        (steps ((doArchiveExtract env root zipOpen zipPath).run state).trace)) ↔
    ((zipOpen zipPath).getD []).flatMap ZipEntry.writerCalls = files.map wantedCall := by
  constructor
  · intro all
    -- the run in which everything is accepted makes all of the calls
    have success := permissive_true whole []
    have logged := (doArchiveExtract_true success).2
    have calls := (all Unit Empty permissive [] ⟨(), 0⟩).2 success
    rw [logged] at calls
    exact (writerCalls_loopSteps [] 0 _).symm.trans calls
  · intro same σ ε env root state
    obtain ⟨logged, all, progress⟩ := doArchiveExtract_progress env root zipOpen zipPath state
    have upTo := progress.writerCalls_upTo
    rw [same] at upTo
    rw [all]
    exact upTo

/-- What `archive_create` leaves behind, read back: whole entries that call for what has been
stored of the meta data. -/
theorem archiveCreate_writerCalls {fs : SourceFs} {zip : Libzip}
    {metaFnc : CreateFileMetaFunction} {fuel : Nat} {root : Bytes} {tree : DirTree} {size : UInt64}
    (root_shows : ShowsRoot fs root tree) (named : tree.AllNames pathFormat.IsName)
    (created : ((archiveCreate fs zip metaFnc fuel root).run (createStart size)).outcome = .ok true)
    {zipOpen : Bytes → Option (List ZipEntry)} {zipPath : Bytes}
    (readsBack : ReadsFieldsBack zipOpen zipPath
      ((archiveCreate fs zip metaFnc fuel root).run (createStart size)).state.archive) :
    ((zipOpen zipPath).getD []).flatMap ZipEntry.writerCalls =
        ((fileMetaData metaFnc (withSlash root) tree []).filter fun file =>
          zip.stores (withSlash root) file.1).map (storedCall zip) ∧
      ∀ entry ∈ (zipOpen zipPath).getD [], entry.Whole := by
  have opens : zip.opens = true := by
    cases opens : zip.opens with
    | true => rfl
    | false => simp [archiveCreate, opens] at created
  have gives := Traced.gives_iff.mpr ⟨created, rfl⟩
  obtain ⟨-, archive⟩ := archiveCreate_true root_shows named opens gives
  rw [archive] at readsBack
  cases closes : zip.closes with
  | false =>
    -- nothing has been written, so that no file is stored
    rw [closes] at readsBack
    have missing : zipOpen zipPath = none := readsBack
    have none_stored : (fileMetaData metaFnc (withSlash root) tree []).filter
        (fun file => zip.stores (withSlash root) file.1) = [] := by
      simp [Libzip.stores, closes]
    rw [missing, none_stored]
    exact ⟨rfl, List.forall_mem_nil _⟩
  | true =>
    have calls := writerCalls_added fs closes metaFnc (withSlash root) tree []
    rw [closes, Bool.true_and] at readsBack
    have entriesNamed := named_added fs zip metaFnc (withSlash root) [] named
    cases entries : added zip metaFnc (withSlash root) tree [] with
    | nil =>
      -- nothing has been written, and there is no file
      rw [entries] at readsBack calls
      have missing : zipOpen zipPath = none := readsBack
      rw [missing, ← calls]
      exact ⟨rfl, List.forall_mem_nil _⟩
    | cons first rest =>
      rw [entries] at readsBack calls entriesNamed
      obtain ⟨views, opened, presents⟩ := readsBack
      rw [opened, ← calls]
      exact presentsFields_spec presents (List.forall_mem_map.mpr entriesNamed)

/-- A list with some items left out, mapped, is the whole list mapped only if none is. -/
theorem map_filter_eq_map_iff {α β : Type} {keeps : α → Bool} {given wanted : α → β}
    {items : List α} :
    (items.filter keeps).map given = items.map wanted ↔
      ∀ item ∈ items, keeps item = true ∧ given item = wanted item := by
  constructor
  · intro same
    have lengths := congrArg List.length same
    rw [List.length_map, List.length_map, List.length_filter_eq_length_iff] at lengths
    rw [List.filter_eq_self.mpr lengths, List.map_inj_left] at same
    exact fun item member => ⟨lengths item member, same item member⟩
  · intro all
    rw [List.filter_eq_self.mpr fun item member => (all item member).1, List.map_inj_left]
    exact fun item member => (all item member).2

/-- After a creation that returns true, all extractions hand over the meta data exactly when
each file is stored and its meta data is empty, or can be set and is no longer than 65531
bytes. -/
theorem metaData_survives_iff {fs : SourceFs} {zip : Libzip} {metaFnc : CreateFileMetaFunction}
    {fuel : Nat} {root : Bytes} {tree : DirTree} {size : UInt64}
    (root_shows : ShowsRoot fs root tree) (named : tree.AllNames pathFormat.IsName)
    (created : ((archiveCreate fs zip metaFnc fuel root).run (createStart size)).outcome = .ok true)
    {zipOpen : Bytes → Option (List ZipEntry)} {zipPath : Bytes}
    (readsBack : ReadsFieldsBack zipOpen zipPath
      ((archiveCreate fs zip metaFnc fuel root).run (createStart size)).state.archive) :
    (∀ (σ ε : Type) (env : Environment σ ε) (target : Bytes) (state : ExtractState σ),
      HandsOver (fileMetaData metaFnc (withSlash root) tree [])
        ((doArchiveExtract env target zipOpen zipPath).run state).outcome
        (steps ((doArchiveExtract env target zipOpen zipPath).run state).trace)) ↔
    ∀ file ∈ fileMetaData metaFnc (withSlash root) tree [],
      zip.stores (withSlash root) file.1 = true ∧
        (file.2 = [] ∨ (zip.extraFieldSet file.1 = true ∧ file.2.length ≤ 65531)) := by
  obtain ⟨calls, whole⟩ := archiveCreate_writerCalls root_shows named created readsBack
  rw [handsOver_iff whole, calls, map_filter_eq_map_iff]
  exact forall₂_congr fun file _ => and_congr_right' storedCall_eq_iff

/-! ## The nested tree, with meta data -/

/-- The archive as it is read, with the field of the file `d/f`. -/
def nestedViewsWith (field : ExtraField) : List ZipEntry :=
  nestedViews.map fun view =>
    { view with extraFields := view.file.toList.map fun _ => (metaExtraFieldId, field) }

/-- The archive that is written, with the extra fields of the file. -/
def nestedEntries (fields : List (UInt16 × ExtraField)) : List ArchiveEntry :=
  [⟨[100, 47], none, []⟩, ⟨[100, 47, 102], some [65], fields⟩]

theorem nestedEntries_presented {dir file : ZipEntry} (views : nestedViews = [dir, file])
    (fields : List (UInt16 × ExtraField)) :
    List.Forall₂ PresentsFields (nestedEntries fields)
      [{ dir with extraFields := [] }, { file with extraFields := fields }] := by
  cases views
  have dirData : ∀ content : Bytes, (none : Option Bytes) ≠ some content := by simp
  exact .cons ⟨⟨⟨_, rfl, rfl, rfl⟩, fun content data => absurd data (dirData content)⟩, rfl⟩
    (.cons ⟨⟨⟨_, rfl, rfl, rfl⟩, fun content data => ⟨_, rfl, Option.some.inj data⟩⟩, rfl⟩ .nil)

/-- One byte of meta data. -/
def oneByteField : ExtraField := extraFieldOf [1]

theorem metaData_survives_nested :
    HandsOver (fileMetaData (fun _ _ => .ok [1]) (withSlash [114]) nestedTree [])
      ((doArchiveExtract permissive [120] (fun _ => some (nestedViewsWith oneByteField))
        [122]).run ⟨(), 0⟩).outcome
      (steps ((doArchiveExtract permissive [120] (fun _ => some (nestedViewsWith oneByteField))
        [122]).run ⟨(), 0⟩).trace) := by
  have readsBack : ReadsFieldsBack (fun _ => some (nestedViewsWith oneByteField)) [122]
      ((archiveCreate nestedFs (zipAdding true) (fun _ _ => .ok [1]) 1 [114]).run
        (createStart 0)).state.archive :=
    ⟨_, rfl, nestedEntries_presented rfl [(metaExtraFieldId, oneByteField)]⟩
  refine (metaData_survives_iff nestedFs_shows nestedTree_named rfl readsBack).mpr ?_ Unit Empty
    permissive [120] ⟨(), 0⟩
  intro file member
  rw [List.mem_singleton.mp member]
  exact ⟨rfl, .inr ⟨rfl, by decide⟩⟩

theorem storedFields_long {data : Bytes} (length : data.length = 65532) (path name : Bytes) :
    storedFields (zipAdding true) (fun _ _ => .ok data) path name = [] := by
  have tooLong : ¬ (extraFieldOf data).data.length + 4 ≤ 65535 := by
    rw [extraFieldOf, List.length_take, length]
    decide
  simp only [storedFields, fieldSet, tooLong, decide_false, Bool.and_false, Bool.false_eq_true,
    if_false, ite_self]

/-- `archive_create` returns true with this meta data for the file, and the extraction of what
it leaves hands over none. -/
def Lost (data : Bytes) : Prop :=
  let created := (archiveCreate nestedFs (zipAdding true) (fun _ _ => .ok data) 1 [114]).run
    (createStart 0)
  let extracted := (doArchiveExtract permissive [120] (fun _ => some nestedViews) [122]).run
    ⟨(), 0⟩
  created.outcome = .ok true ∧
    ReadsFieldsBack (fun _ => some nestedViews) [122] created.state.archive ∧
    writerCalls (steps extracted.trace) = [⟨[100, 47, 102], none, 0⟩] ∧
    ¬ HandsOver (fileMetaData (fun _ _ => .ok data) (withSlash [114]) nestedTree [])
      extracted.outcome (steps extracted.trace)

/-- One byte more than fits with the header. -/
theorem lost_of_length {data : Bytes} (length : data.length = 65532) : Lost data := by
  have answers : Answers fun _ _ => .ok data := fun _ => ⟨data, rfl⟩
  have opens : (zipAdding true).opens = true := rfl
  obtain ⟨final, gives⟩ := archiveCreate_total answers nestedFs_shows nestedTree_named opens
    (Nat.le_refl 1) 0
  obtain ⟨created, left⟩ := Traced.gives_iff.mp gives
  obtain ⟨-, archive⟩ := archiveCreate_true nestedFs_shows nestedTree_named opens gives
  have entries : added (zipAdding true) (fun _ _ => .ok data) (withSlash [114]) nestedTree [] =
      [⟨[100, 47], none, []⟩, ⟨[100, 47, 102], some (withSlash [114] ++ [100, 47, 102]), []⟩] := by
    simp only [added, nestedTree, fileEntries, storedFields_long length]
    rfl
  have calls : writerCalls (steps ((doArchiveExtract permissive [120]
      (fun _ => some nestedViews) [122]).run ⟨(), 0⟩).trace) = [⟨[100, 47, 102], none, 0⟩] := by
    decide +kernel
  refine ⟨created, ?_, calls, ?_⟩
  · rw [left, archive, entries]
    exact ⟨_, rfl, nestedEntries_presented rfl []⟩
  · intro handsOver
    have wanted := handsOver.1
    rw [calls] at wanted
    -- the one call that was made has no meta data
    have same := List.mem_singleton.mp (List.singleton_sublist.mp wanted.sublist)
    have lengths : 0 = data.length := congrArg WriterCall.metaDataSize same
    rw [length] at lengths
    cases lengths

theorem metaData_lost : Lost (List.replicate 65532 0) := lost_of_length List.length_replicate

end MyappsCommon.Utility.Archive
