import MyappsCommon.Utility.Archive.Extract
import MyappsCommon.Utility.Archive.CreateSoundness

/-! # One file system behind both functions

Paths are resolved in a current directory.  `archive_create` queries the file system and
the plain `archive_extract` changes it.
-/

namespace MyappsCommon.Utility.Archive

open MyappsCommon.Lib

/-- `create_directory` makes one directory in an existing one; opening for writing makes or
empties a file; data is appended to what has been written. -/
def fileSystemOs (cwd : List Bytes) : Os (Files Bytes Bytes) where
  createDirectory path files :=
    match files.create (pathFormat.resolve cwd path) .dir with
    | some files => (true, files)
    | none => (false, files)
  openFile path files :=
    let place := pathFormat.resolve cwd path
    match files place with
    | some .dir => (false, files)
    | some (.file _) => (true, files.put place (.file []))
    | none =>
      match files.create place (.file []) with
      | some files => (true, files)
      | none => (false, files)
  append path data files :=
    let place := pathFormat.resolve cwd path
    match files place with
    | some (.file content) => (true, files.put place (.file (content ++ data)))
    | some .dir => (false, files)
    | none => (false, files)

/-- What `boost::filesystem` finds; `listing` is the order in which `directory_iterator`
visits each directory. -/
def SourceFs.ofFiles (cwd : List Bytes) (files : Files Bytes Bytes)
    (listing : List Bytes → List Bytes) : SourceFs where
  isDirectory path :=
    match files (pathFormat.resolve cwd path) with
    | some .dir => .ok (path != [])
    | some (.file _) => .ok false
    | none => .ok false
  list path := ⟨listing (pathFormat.resolve cwd path), false⟩
  fileSize path :=
    match files (pathFormat.resolve cwd path) with
    | some (.file content) => .ok (UInt64.ofNat content.length)
    | some .dir => .raised
    | none => .raised
  content path :=
    match files (pathFormat.resolve cwd path) with
    | some (.file content) => content
    | some .dir => []
    | none => []

/-- The directories below are listed in the order of the tree. -/
def ListsInside (listing : List Bytes → List Bytes) : DirTree → List Bytes → Prop
  | .nil, _ => True
  | .file _ _ rest, place => ListsInside listing rest place
  | .dir name inside rest, place =>
    listing (place ++ [name]) = inside.names ∧
      ListsInside listing inside (place ++ [name]) ∧ ListsInside listing rest place

/-- The directory at `place` has the tree as its content, in the order of its listings. -/
structure HoldsTree (files : Files Bytes Bytes) (listing : List Bytes → List Bytes)
    (place : List Bytes) (tree : DirTree) : Prop where
  directory : files place = some .dir
  content : ∀ first below, files (place ++ first :: below) = tree.lookup (first :: below)
  listed : listing place = tree.names
  listedInside : ListsInside listing tree place

/-- What the file system holds is what the queries of `archive_create` show. -/
theorem shows_ofFiles {cwd : List Bytes} {files : Files Bytes Bytes}
    {listing : List Bytes → List Bytes} {base within : Bytes} {place : List Bytes}
    {tree : DirTree} (named : tree.AllNames pathFormat.IsName) (distinct : tree.Distinct)
    (leads : Path.LeadsTo pathFormat (fun tail => pathFormat.resolve cwd (base ++ tail)) within
      place)
    (content : ∀ first ∈ tree.names, ∀ below,
      files (place ++ first :: below) = tree.lookup (first :: below))
    (listedInside : ListsInside listing tree place) :
    Shows (SourceFs.ofFiles cwd files listing) base tree within := by
  induction tree generalizing within place with
  | nil => trivial
  | file name data rest ih =>
    obtain ⟨unlisted, distinctRest⟩ := distinct
    have resolved := leads.name named.1
    have stands : files (place ++ [name]) = some (.file data) := by
      rw [content name List.mem_cons_self, Forest.lookup, if_pos rfl, if_pos rfl]
    refine ⟨?_, ih named.2 distinctRest leads ?_ listedInside⟩
    · simp [SourceFs.ofFiles, resolved, stands]
    · intro first listed below
      have different : first ≠ name := fun same => unlisted (same ▸ listed)
      rw [content first (List.mem_cons_of_mem _ listed), Forest.lookup, if_neg different]
  | dir name inside rest ihInside ihRest =>
    obtain ⟨unlisted, distinctInside, distinctRest⟩ := distinct
    obtain ⟨isName, namedInside, namedRest⟩ := named
    obtain ⟨listed, listsInside, listsRest⟩ := listedInside
    have resolved := leads.name isName
    have stands : files (place ++ [name]) = some .dir := by
      rw [content name List.mem_cons_self, Forest.lookup, if_pos rfl, if_pos rfl]
    have nonempty : base ++ (within ++ name) ≠ [] := by
      simp [isName.nonempty]
    refine ⟨?_, ihInside namedInside distinctInside (leads.down isName) ?_ listsInside,
      ihRest namedRest distinctRest leads ?_ listsRest⟩
    · simpa [SourceFs.ofFiles, resolved, stands, listed] using nonempty
    · -- below the directory the tree is the one inside it
      intro first _ below
      rw [List.append_assoc, List.singleton_append, content name List.mem_cons_self,
        Forest.lookup, if_pos rfl, if_neg (List.cons_ne_nil _ _)]
    · intro first listed below
      have different : first ≠ name := fun same => unlisted (same ▸ listed)
      rw [content first (List.mem_cons_of_mem _ listed), Forest.lookup, if_neg different]

theorem leadsTo_withSlash (cwd : List Bytes) {root : Bytes} (named : root ≠ []) :
    Path.LeadsTo pathFormat (fun tail => pathFormat.resolve cwd (withSlash root ++ tail)) []
      (pathFormat.resolve cwd (withSlash root)) := by
  have ends : ∃ front, withSlash root = front ++ [slash] := by
    rw [withSlash]
    split
    case isTrue => exact ⟨root, rfl⟩
    case isFalse kept =>
      rw [not_and, not_not, endsInSlash, beq_iff_eq] at kept
      exact List.getLast?_eq_some_iff.mp (kept named)
  obtain ⟨front, ends⟩ := ends
  intro tail
  have parts : front ++ [slash] ++ ([] ++ tail) = front ++ slash :: tail := by simp
  rw [ends]
  change pathFormat.resolve cwd (front ++ [slash] ++ ([] ++ tail)) = _
  rw [parts]
  exact Path.resolve_append cwd front tail

/-- The queries show the tree that the file system holds at the root. -/
theorem showsRoot_ofFiles {cwd : List Bytes} {files : Files Bytes Bytes}
    {listing : List Bytes → List Bytes} {root : Bytes} {tree : DirTree} (rootNamed : root ≠ [])
    (holds : HoldsTree files listing (pathFormat.resolve cwd (withSlash root)) tree)
    (named : tree.AllNames pathFormat.IsName) (distinct : tree.Distinct) :
    ShowsRoot (SourceFs.ofFiles cwd files listing) root tree where
  directory := by
    have nonempty : withSlash root ≠ [] := by
      rw [withSlash]
      split
      · simp
      · exact rootNamed
    simpa [SourceFs.ofFiles, holds.directory] using nonempty
  listed := congrArg (Listing.mk · false) holds.listed
  shown := shows_ofFiles named distinct (leadsTo_withSlash cwd rootNamed)
    (fun first _ below => holds.content first below) holds.listedInside

end MyappsCommon.Utility.Archive
