import Mathlib.Data.List.Forall2
import MyappsCommon.Utility.Archive.Confinement
import MyappsCommon.Utility.Archive.FileSystem

/-! # An archive that is created and extracted again

The entries of the archive are met in the order of the walk, in which each directory comes
before what it contains.  Each of them is one creation in the file system, so that the
extraction is the run of creations that rebuilds the tree.
-/

namespace MyappsCommon.Utility.Archive

open MyappsCommon.Lib

/-- The size that an entry declares. -/
def memberSize : Option Bytes → UInt64
  | none => 0
  | some content => UInt64.ofNat content.length

/-- libzip gives back an entry that has been written: its name, its size and its data, in
pieces. -/
structure Presents (stored : ArchiveEntry) (view : ZipEntry) : Prop where
  stat : ∃ stat, view.stat = some stat ∧ stat.name = stored.name ∧
    stat.size = memberSize stored.data
  file : ∀ content, stored.data = some content →
    ∃ file, view.file = some file ∧ file.chunks.flatten = content

/-- Both functions tell a directory by the `/` at the end of its name. -/
theorem Presents.isFolder {stored : ArchiveEntry} {view : ZipEntry} {stat : ZipStat}
    (presents : Presents stored view) (described : view.stat = some stat)
    (named : stored.name ≠ []) (kind : endsInSlash stored.name = stored.data.isNone) :
    stat.isFolder = stored.data.isNone := by
  obtain ⟨found, described', name_eq, -⟩ := presents.stat
  obtain rfl := Option.some.inj (described.symm.trans described')
  rw [stat.isFolder_of_nonempty (name_eq ▸ named), name_eq]
  exact kind

/-- The pieces of a file are as many bytes as it declares. -/
theorem Presents.delivered {stored : ArchiveEntry} {view : ZipEntry} {stat : ZipStat}
    {file : ZipFile} (presents : Presents stored view) (described : view.stat = some stat)
    (data : stored.data = some file.chunks.flatten) : file.delivered = stat.size := by
  obtain ⟨found, described', -, size_eq⟩ := presents.stat
  obtain rfl := Option.some.inj (described.symm.trans described')
  rw [ZipFile.delivered, foldl_addChunk, UInt64.zero_add, size_eq, data, memberSize]

/-! ## The writer of the plain extraction -/

section

variable {cwd : List Bytes} {place : List Bytes} {path : Bytes}

theorem gives_flushOut (files : Files Bytes Bytes)
    (resolved : pathFormat.resolve cwd path = place) (written data : Bytes)
    (ofs : Option Ofstream) :
    (flushOut (fileSystemOs cwd) path data).Gives ⟨files.put place (.file written), ofs⟩ true
      ⟨files.put place (.file (written ++ data)), ofs⟩ := by
  rw [flushOut]
  by_cases empty : data = []
  · rw [if_pos empty, Traced.gives_pure_iff, empty, List.append_nil]
    exact ⟨rfl, rfl⟩
  · rw [if_neg empty]
    refine ⟨[.written path data true], ?_⟩
    simp [fileSystemOs, resolved, Files.put_put, Result.prepend]

/-- A write moves bytes from the buffer to the file and loses none. -/
theorem gives_ofstreamWrite (files : Files Bytes Bytes)
    (resolved : pathFormat.resolve cwd path = place) (spill : Bytes → Bytes → Nat)
    (written buffered buf : Bytes) :
    ∃ written' buffered', written' ++ buffered' = written ++ buffered ++ buf ∧
      (ofstreamWrite (fileSystemOs cwd) spill buf).Gives
        ⟨files.put place (.file written), some ⟨path, buffered, true⟩⟩ true
        ⟨files.put place (.file written'), some ⟨path, buffered', true⟩⟩ := by
  let now := spill buffered buf
  refine ⟨written ++ (buffered ++ buf).take now, (buffered ++ buf).drop now, ?_, ?_⟩
  · rw [List.append_assoc, List.take_append_drop, List.append_assoc]
  · obtain ⟨events, flushed⟩ := gives_flushOut files resolved written
      ((buffered ++ buf).take now) (some ⟨path, buffered, true⟩)
    refine ⟨events, ?_⟩
    simp only [now] at flushed
    simp [ofstreamWrite, flushed, Result.prepend, now]

theorem writesAll_fileSystem (files : Files Bytes Bytes)
    (resolved : pathFormat.resolve cwd path = place) (spill : Bytes → Bytes → Nat) (root : Bytes)
    (chunks : List Bytes) (written buffered : Bytes) :
    ∃ written' buffered', written' ++ buffered' = written ++ buffered ++ chunks.flatten ∧
      WritesAll (plainEnvironment (fileSystemOs cwd) spill root) chunks
        ⟨files.put place (.file written), some ⟨path, buffered, true⟩⟩
        ⟨files.put place (.file written'), some ⟨path, buffered', true⟩⟩ := by
  induction chunks generalizing written buffered with
  | nil => exact ⟨written, buffered, by simp, rfl⟩
  | cons chunk chunks ih =>
    obtain ⟨written₁, buffered₁, kept, first⟩ :=
      gives_ofstreamWrite files resolved spill written buffered chunk
    obtain ⟨written₂, buffered₂, keptRest, writes⟩ := ih written₁ buffered₁
    refine ⟨written₂, buffered₂, ?_, _, first, writes⟩
    rw [keptRest, kept, List.flatten_cons, List.append_assoc (written ++ buffered)]

theorem ofstreamDestroy_state (files : Files Bytes Bytes)
    (resolved : pathFormat.resolve cwd path = place) (written buffered : Bytes) (good : Bool) :
    ((ofstreamDestroy (fileSystemOs cwd)).run
      ⟨files.put place (.file written), some ⟨path, buffered, good⟩⟩).state =
        ⟨files.put place (.file (written ++ buffered)), none⟩ := by
  obtain ⟨events, flushed⟩ := gives_flushOut files resolved written buffered
    (some ⟨path, buffered, good⟩)
  simp [ofstreamDestroy, flushed]

/-- A file entry is delivered as one creation. -/
theorem fileDelivered_fileSystem {files final : Files Bytes Bytes}
    {spill : Bytes → Bytes → Nat} {root : Bytes} {stat : ZipStat} {entry : ZipEntry}
    {file : ZipFile}
    (resolved : pathFormat.resolve cwd (targetPath root stat.name) = place)
    (created : files.create place (.file file.chunks.flatten) = some final) :
    FileDelivered (plainEnvironment (fileSystemOs cwd) spill root) stat entry file
      ⟨files, none⟩ ⟨final, none⟩ := by
  obtain ⟨free, parent, rfl⟩ := Files.create_eq_some_iff.mp created
  -- what has been written and what is still buffered make up the content
  obtain ⟨written, buffered, kept, writes⟩ :=
    writesAll_fileSystem files resolved spill root file.chunks [] []
  have opened : files.create place (.file []) = some (files.put place (.file [])) :=
    Files.create_eq_some_iff.mpr ⟨free, parent, rfl⟩
  refine ⟨⟨files.put place (.file []), some ⟨targetPath root stat.name, [], true⟩⟩, _, _,
    ⟨[.opened (targetPath root stat.name) true], ?_⟩, writes, rfl, ?_⟩
  · simp [plainEnvironment, createWriteLambda, fileSystemOs, resolved, free, opened,
      Result.prepend]
  · change _ = ((ofstreamDestroy (fileSystemOs cwd)).run _).state
    rw [ofstreamDestroy_state files resolved, kept]
    rfl

theorem folderDelivered_fileSystem {files final : Files Bytes Bytes}
    {spill : Bytes → Bytes → Nat} {root : Bytes} {stat : ZipStat}
    (resolved : pathFormat.resolve cwd (targetPath root stat.name) = place)
    (created : files.create place .dir = some final) :
    FolderDelivered (plainEnvironment (fileSystemOs cwd) spill root) root stat
      ⟨files, none⟩ ⟨final, none⟩ := by
  refine ⟨⟨final, none⟩, ?_, [], rfl⟩
  simp [plainEnvironment, fileSystemOs, resolved, created]

end

/-! ## The walk, as creations -/

def nodeOf : Option Bytes → Node Bytes
  | none => .dir
  | some content => .file content

/-- A member of the archive is created as this node; `arrive` is where its name leads. -/
structure Denotes (arrive : Bytes → List Bytes) (member : Bytes × Option Bytes)
    (item : List Bytes × Node Bytes) : Prop where
  place : arrive member.1 = item.1
  node : item.2 = nodeOf member.2
  named : member.1 ≠ []
  kind : endsInSlash member.1 = member.2.isNone

/-- The names that the two helpers cut out of the paths lead to where the nodes belong. -/
theorem members_denote {arrive : Bytes → List Bytes} {tree : DirTree} {within : Bytes}
    {place : List Bytes} (leads : Path.LeadsTo pathFormat arrive within place)
    (named : tree.AllNames pathFormat.IsName) :
    List.Forall₂ (Denotes arrive) (members tree within) (tree.walk place) := by
  induction tree generalizing within place with
  | nil => exact .nil
  | file name content rest ih =>
    obtain ⟨isName, namedRest⟩ := named
    exact .cons ⟨leads.name isName, rfl, by simp [isName.nonempty],
      endsInSlash_append_name isName.nonempty isName.whole within⟩ (ih leads namedRest)
  | dir name inside rest ihInside ihRest =>
    obtain ⟨isName, namedInside, namedRest⟩ := named
    have below := ihInside (leads.down isName) namedInside
    exact .cons ⟨leads.dir isName, rfl, by simp, endsInSlash_append_slash _⟩
      (List.rel_append below (ihRest leads namedRest))

section

variable {cwd : List Bytes} {root : Bytes}

/-- Where the extraction writes what has this name. -/
def extractPlace (cwd : List Bytes) (root name : Bytes) : List Bytes :=
  pathFormat.resolve cwd (targetPath root name)

theorem extractPlace_leadsTo (cwd : List Bytes) (root : Bytes) :
    Path.LeadsTo pathFormat (extractPlace cwd root) [] (rootPlace cwd root) :=
  fun name => resolve_targetPath cwd root name

/-- An entry is delivered by the creation of its node. -/
theorem entryDelivered_of_create (spill : Bytes → Bytes → Nat) {stored : ArchiveEntry}
    {view : ZipEntry} {item : List Bytes × Node Bytes} {files final : Files Bytes Bytes}
    (presents : Presents stored view)
    (denotes : Denotes (extractPlace cwd root) (stored.name, stored.data) item)
    (created : files.create item.1 item.2 = some final) :
    EntryDelivered (plainEnvironment (fileSystemOs cwd) spill root) root view
      ⟨files, none⟩ ⟨final, none⟩ := by
  obtain ⟨stat, described, name_eq, -⟩ := presents.stat
  obtain ⟨place, node, named, kind⟩ := denotes
  have resolved : pathFormat.resolve cwd (targetPath root stat.name) = item.1 := by
    rw [name_eq]
    exact place
  have folder := presents.isFolder described named kind
  cases data : stored.data with
  | none =>
    rw [data] at folder
    rw [node, data] at created
    exact (entryDelivered_folder described folder).mpr (folderDelivered_fileSystem resolved created)
  | some content =>
    obtain ⟨file, opens, rfl⟩ := presents.file content data
    rw [data] at folder
    rw [node, data] at created
    exact (entryDelivered_file described folder).mpr
      ⟨file, opens, presents.delivered described data, fileDelivered_fileSystem resolved created⟩

/-- A run of creations that succeeds delivers every entry. -/
theorem loopDelivered_of_create (spill : Bytes → Bytes → Nat) {stored : List ArchiveEntry}
    {views : List ZipEntry} {items : List (List Bytes × Node Bytes)}
    {files final : Files Bytes Bytes}
    (presents : List.Forall₂ Presents stored views)
    (denote : List.Forall₂ (Denotes (extractPlace cwd root))
      (stored.map fun entry => (entry.name, entry.data)) items)
    (created : items.foldlM (fun files item => Files.create files item.1 item.2) files =
      some final) :
    LoopDelivered (plainEnvironment (fileSystemOs cwd) spill root) root views
      ⟨files, none⟩ ⟨final, none⟩ := by
  rw [List.forall₂_map_left_iff] at denote
  induction presents generalizing items files with
  | nil =>
    cases denote
    cases created
    rfl
  | cons first presents ih =>
    cases denote with
    | cons denotes denote =>
      rw [List.foldlM_cons, Option.bind_eq_bind, Option.bind_eq_some_iff] at created
      obtain ⟨between, here, later⟩ := created
      exact ⟨⟨between, none⟩, entryDelivered_of_create spill first denotes here, ih denote later⟩

end

/-! ## The counters -/

def memberTotal : List (Bytes × Option Bytes) → UInt64
  | [] => 0
  | member :: rest => memberSize member.2 + memberTotal rest

theorem memberTotal_append (first second : List (Bytes × Option Bytes)) :
    memberTotal (first ++ second) = memberTotal first + memberTotal second := by
  induction first with
  | nil => exact (UInt64.zero_add _).symm
  | cons member first ih => rw [List.cons_append, memberTotal, memberTotal, ih, UInt64.add_assoc]

theorem counted_eq_memberTotal {zip : Libzip} {base : Bytes} {tree : DirTree} {within : Bytes}
    (all : AddsAll zip base tree within) :
    counted zip base tree within = memberTotal (members tree within) := by
  induction tree generalizing within with
  | nil => rfl
  | file name content rest ih =>
    obtain ⟨⟨opens, -⟩, allRest⟩ := all
    rw [counted, opens, if_pos rfl, ih allRest]
    rfl
  | dir name inside rest ihInside ihRest =>
    obtain ⟨-, allInside, allRest⟩ := all
    rw [counted, members, memberTotal, memberTotal_append, ihInside allInside, ihRest allRest,
      memberSize, UInt64.zero_add]

theorem foldl_declared {stored : List ArchiveEntry} {views : List ZipEntry}
    (presents : List.Forall₂ Presents stored views) (size : UInt64) :
    views.foldl (fun total entry => total + entry.declared) size =
      size + memberTotal (stored.map fun entry => (entry.name, entry.data)) := by
  induction presents generalizing size with
  | nil => exact (UInt64.add_zero size).symm
  | cons first presents ih =>
    obtain ⟨stat, described, -, size_eq⟩ := first.stat
    rw [List.foldl_cons, ih, ZipEntry.declared, described, List.map_cons, memberTotal,
      UInt64.add_assoc, ← size_eq]

/-! ## There and back -/

/-- Every call of `archive_create` to libzip succeeds, but perhaps those that set extra
fields. -/
structure CreateSucceeds (zip : Libzip) (base : Bytes) (tree : DirTree) : Prop where
  opens : zip.opens = true
  adds : AddsAll zip base tree []
  closes : zip.closes = true

/-- The archive can be opened and is read as it was written. -/
def ReadsBack (zipOpen : Bytes → Option (List ZipEntry)) (zipPath : Bytes)
    (archive : Option (List ArchiveEntry)) : Prop :=
  ∀ stored, archive = some stored →
    ∃ views, zipOpen zipPath = some views ∧ List.Forall₂ Presents stored views

structure EmptyDirectory (files : Files Bytes Bytes) (place : List Bytes) : Prop where
  directory : files place = some .dir
  vacant : ∀ name below, files (place ++ name :: below) = none

/-- What `archive_create` leaves when every call succeeds. -/
theorem archiveCreate_stores {fs : SourceFs} {zip : Libzip} {metaFnc : CreateFileMetaFunction}
    {fuel : Nat} {root : Bytes} {tree : DirTree} (root_shows : ShowsRoot fs root tree)
    (named : tree.AllNames pathFormat.IsName) (nonempty : tree ≠ .nil)
    (succeeds : CreateSucceeds zip (withSlash root) tree) (answers : Answers metaFnc)
    (enough : tree.depth ≤ fuel) (size : UInt64) :
    ∃ final stored,
      (archiveCreate fs zip metaFnc fuel root).Gives (createStart size) true final ∧
        final.archive = some stored ∧
        stored.map (fun entry => (entry.name, entry.data)) = members tree [] ∧
        final.runcompressedSize = counted zip (withSlash root) tree [] := by
  obtain ⟨final, gives⟩ :=
    archiveCreate_total answers root_shows named succeeds.opens enough size
  obtain ⟨counter, archive⟩ := archiveCreate_true root_shows named succeeds.opens gives
  have written := written_added metaFnc root_shows.shown named succeeds.adds
  have some_added := added_ne_nil metaFnc nonempty succeeds.adds
  rw [if_pos (by simp [succeeds.closes, some_added])] at archive
  exact ⟨final, _, gives, archive, written, counter⟩

/-- Entries that are read back as the members of a tree build the tree in an empty
directory. -/
theorem archiveExtract_builds {cwd : List Bytes} {root : Bytes} {tree : DirTree}
    {files : Files Bytes Bytes} {stored : List ArchiveEntry} {views : List ZipEntry}
    {zipOpen : Bytes → Option (List ZipEntry)} {zipPath : Bytes}
    (named : tree.AllNames pathFormat.IsName) (distinct : tree.Distinct)
    (empty : EmptyDirectory files (rootPlace cwd root))
    (opens : zipOpen zipPath = some views) (presents : List.Forall₂ Presents stored views)
    (written : stored.map (fun entry => (entry.name, entry.data)) = members tree [])
    (spill : Bytes → Bytes → Nat) (size : UInt64) :
    (archiveExtract (fileSystemOs cwd) spill root zipOpen zipPath).Gives ⟨⟨files, none⟩, size⟩ true
      ⟨⟨files.graft (rootPlace cwd root) tree, none⟩, size + memberTotal (members tree [])⟩ := by
  have denote := members_denote (extractPlace_leadsTo cwd root) named
  rw [← written] at denote
  -- each directory is created before what it contains, so that no creation fails
  have created := Files.foldlM_create_walk distinct empty.directory
    fun name _ below => empty.vacant name below
  have delivered := loopDelivered_of_create spill presents denote created
  obtain ⟨trace, ran⟩ := extractLoop_of_delivered delivered 0 size
  rw [foldl_declared presents, written] at ran
  refine ⟨.step (.zipOpen true) :: trace, ?_⟩
  rw [archiveExtract, run_doArchiveExtract, opens]
  exact congrArg (Result.prepend [.step (.zipOpen true)]) ran

/-- A directory tree that is archived and extracted into an empty directory is there again,
and both calls count the same.  `source` and `target` are the file system as each call finds
it, and `leaves` is any function for meta data that returns. -/
theorem archive_round_trip {cwd : List Bytes} {source : Files Bytes Bytes}
    {listing : List Bytes → List Bytes} {root : Bytes} {tree : DirTree} {zip : Libzip}
    (leaves : Bytes → Bytes → Bytes) {fuel : Nat} (createSize : UInt64) (rootNamed : root ≠ [])
    (holds : HoldsTree source listing (pathFormat.resolve cwd (withSlash root)) tree)
    (named : tree.AllNames pathFormat.IsName) (distinct : tree.Distinct) (nonempty : tree ≠ .nil)
    (fits : totalSize tree < 2 ^ 64) (succeeds : CreateSucceeds zip (withSlash root) tree)
    (enough : tree.depth ≤ fuel) {target : Files Bytes Bytes} {targetRoot : Bytes}
    (empty : EmptyDirectory target (rootPlace cwd targetRoot))
    {zipOpen : Bytes → Option (List ZipEntry)} {zipPath : Bytes}
    (readsBack : ReadsBack zipOpen zipPath
      ((archiveCreate (SourceFs.ofFiles cwd source listing) zip
        (fun path data => .ok (leaves path data)) fuel root).run
          (createStart createSize)).state.archive)
    (spill : Bytes → Bytes → Nat) (extractSize : UInt64) :
    let created := (archiveCreate (SourceFs.ofFiles cwd source listing) zip
      (fun path data => .ok (leaves path data)) fuel root).run (createStart createSize)
    let extracted := (archiveExtract (fileSystemOs cwd) spill targetRoot zipOpen zipPath).run
      ⟨⟨target, none⟩, extractSize⟩
    created.outcome = .ok true ∧ extracted.outcome = .ok true ∧
      (∀ name below, extracted.state.env.os (rootPlace cwd targetRoot ++ name :: below) =
        source (pathFormat.resolve cwd (withSlash root) ++ name :: below)) ∧
      extracted.state.runcompressedSize = extractSize + created.state.runcompressedSize ∧
      created.state.runcompressedSize.toNat = totalSize tree := by
  have root_shows := showsRoot_ofFiles rootNamed holds named distinct
  have answers : Answers fun path data => .ok (leaves path data) :=
    fun path => ⟨leaves path [], rfl⟩
  obtain ⟨made, stored, gives, archive, written, counter⟩ :=
    archiveCreate_stores root_shows named nonempty succeeds answers enough createSize
  obtain ⟨created, left⟩ := Traced.gives_iff.mp gives
  rw [left] at readsBack
  obtain ⟨views, opens, presents⟩ := readsBack stored archive
  obtain ⟨extracted, leftThere⟩ := Traced.gives_iff.mp
    (archiveExtract_builds named distinct empty opens presents written spill extractSize)
  refine ⟨created, extracted, ?_, ?_, ?_⟩
  · intro name below
    rw [leftThere, holds.content]
    change target.graft (rootPlace cwd targetRoot) tree (_ ++ _) = _
    rw [Files.graft_below, empty.vacant, Option.or_none]
  · rw [leftThere, left, counter, counted_eq_memberTotal succeeds.adds]
  · rw [left, counter, counted_toNat succeeds.adds, Nat.mod_eq_of_lt fits]

/-! ## The nested tree in `r`, extracted into `x` -/

/-- Two directories, of which `r` holds the tree. -/
def nestedFiles : Files Bytes Bytes :=
  Files.graft [[114]] nestedTree fun place =>
    if place = [] ∨ place = [[114]] ∨ place = [[120]] then some .dir else none

def nestedListing (place : List Bytes) : List Bytes :=
  if place = [[114]] then [[100]] else [[102]]

/-- The archive as it is read: the directory `d/` and the file `d/f`. -/
def nestedViews : List ZipEntry :=
  [⟨some ⟨[100, 47], 0, 0, by decide, by decide⟩, none, []⟩,
    ⟨some ⟨[100, 47, 102], 1, 0, by decide, by decide⟩,
      some { ZipFile.empty with chunks := [[65]], pieces := by decide }, []⟩]

theorem nestedFiles_holds : HoldsTree nestedFiles nestedListing [[114]] nestedTree where
  directory := by decide
  content first below := by
    have free : ¬ ([[114]] ++ first :: below = [] ∨ [[114]] ++ first :: below = [[114]] ∨
        [[114]] ++ first :: below = [[120]]) := by simp
    rw [nestedFiles, Files.graft_below, if_neg free, Option.or_none]
  listed := rfl
  listedInside := ⟨rfl, trivial, trivial⟩

theorem nestedFiles_empty : EmptyDirectory nestedFiles (rootPlace [] [120]) where
  directory := by decide
  vacant name below := by
    have place : rootPlace [] [120] = [[120]] := by decide
    have outside : ¬ [[114]] <+: [[120]] ++ name :: below := by simp
    rw [place, nestedFiles, Files.graft_outside outside]
    simp

theorem archive_round_trip_nested :
    let created := (archiveCreate (SourceFs.ofFiles [] nestedFiles nestedListing) (zipAdding true)
      (fun _ _ => .ok []) 1 [114]).run (createStart 0)
    let extracted := (archiveExtract (fileSystemOs []) (fun _ _ => 0) [120]
      (fun _ => some nestedViews) [122]).run ⟨⟨nestedFiles, none⟩, 5⟩
    created.outcome = .ok true ∧ extracted.outcome = .ok true ∧
      (∀ name below, extracted.state.env.os (rootPlace [] [120] ++ name :: below) =
        nestedFiles (pathFormat.resolve [] (withSlash [114]) ++ name :: below)) ∧
      extracted.state.runcompressedSize = 5 + created.state.runcompressedSize ∧
      created.state.runcompressedSize.toNat = totalSize nestedTree := by
  have place : pathFormat.resolve [] (withSlash [114]) = [[114]] := by decide
  have holds : HoldsTree nestedFiles nestedListing (pathFormat.resolve [] (withSlash [114]))
      nestedTree := by
    rw [place]
    exact nestedFiles_holds
  refine archive_round_trip (fun _ _ => []) 0 (List.cons_ne_nil 114 []) holds nestedTree_named
    nestedTree_distinct nofun (by decide)
    ⟨rfl, ⟨rfl, ⟨⟨rfl, rfl⟩, trivial⟩, trivial⟩, rfl⟩ (Nat.le_refl 1) nestedFiles_empty ?_
    (fun _ _ => 0) 5
  intro stored archive
  have written : stored = [⟨[100, 47], none, []⟩, ⟨[100, 47, 102], some [65], []⟩] :=
    (Option.some.inj archive).symm
  subst written
  exact ⟨nestedViews, rfl, .cons ⟨⟨_, rfl, rfl, rfl⟩, nofun⟩
    (.cons ⟨⟨_, rfl, rfl, rfl⟩, fun content data => ⟨_, rfl, Option.some.inj data⟩⟩ .nil)⟩

end MyappsCommon.Utility.Archive
