import MyappsCommon.Utility.Archive.Libzip

/-! # `archive_create`

The file system and the outcome of every libzip call are parameters.  libzip collects the
entries and writes nothing before `zip_close`.
-/

namespace MyappsCommon.Utility.Archive

open MyappsCommon.Lib

/-- What `directory_iterator` gives: names, and whether it then throws. -/
structure Listing where
  names : List Bytes
  throws : Bool

/-- `boost::filesystem`, by path; an exception is the outcome `raised`.  `content` is what
libzip finds in a file when it is written to the archive. -/
structure SourceFs where
  isDirectory : Bytes → Outcome Bool
  list : Bytes → Listing
  fileSize : Bytes → Outcome UInt64
  content : Bytes → Bytes

/-- Which calls of libzip succeed: `zip_source_file` by path, the others by entry name. -/
structure Libzip where
  opens : Bool
  sourceFile : Bytes → Bool
  fileAdd : Bytes → Bool
  dirAdd : Bytes → Bool
  extraFieldSet : Bytes → Bool
  closes : Bool

/-- An entry that waits for `zip_close`; `source` is the path of its file, if it is not a
directory. -/
structure PendingEntry where
  name : Bytes
  source : Option Bytes
  extraFields : List (UInt16 × ExtraField)

/-- An entry of an archive that has been written. -/
structure ArchiveEntry where
  name : Bytes
  data : Option Bytes
  extraFields : List (UInt16 × ExtraField)

inductive CreateStep where
  | zipOpen (opened : Bool)
  | sourceFile (path : Bytes) (success : Bool)
  | fileAdd (name : Bytes) (success : Bool)
  | sourceFree
  | metaFnc (path : Bytes)
  | extraFieldSet (index : Nat) (id length : UInt16) (success : Bool)
  | dirAdd (name : Bytes) (success : Bool)
  | zipClose (success : Bool)
  deriving DecidableEq, Repr

structure CreateState where
  runcompressedSize : UInt64
  metaData : Bytes
  pending : List PendingEntry
  /-- The archive at the given path. -/
  archive : Option (List ArchiveEntry)

abbrev CreateM (α : Type) := Traced CreateState CreateStep α

/-- `_meta_fnc(path, _meta_data)` gives what it leaves in the vector, or raises. -/
abbrev CreateFileMetaFunction := Bytes → Bytes → Outcome Bytes

/-- The path ends in `/`, as the root does when entries are listed. -/
def endsInSlash (path : Bytes) : Bool := path.getLast? == some slash

/-- `_root += '/'` -/
def withSlash (root : Bytes) : Bytes :=
  if root ≠ [] ∧ ¬ endsInSlash root then root ++ [slash] else root

/-- `x.path()` for an entry of a directory: no second separator is put behind a first. -/
def childPath (dir name : Bytes) : Bytes :=
  if dir = [] ∨ endsInSlash dir then dir ++ name else dir ++ slash :: name

/-- The name under which `zip_dir_add` adds a directory. -/
def dirEntryName (name : Bytes) : Bytes :=
  if endsInSlash name then name else name ++ [slash]

/-- What is stored of the meta data: the length is passed as a `uint16_t`. -/
def extraFieldOf (data : Bytes) : ExtraField where
  data := data.take (UInt16.ofNat data.length).toNat
  short := by
    rw [List.length_take]
    exact Nat.lt_of_le_of_lt (Nat.min_le_left _ _) (UInt16.toNat_lt _)

/-- `zip_close`: the pending entries are written, if there are any. -/
def PendingEntry.write (fs : SourceFs) (entry : PendingEntry) : ArchiveEntry :=
  ⟨entry.name, entry.source.map fs.content, entry.extraFields⟩

section

variable (fs : SourceFs) (zip : Libzip) (metaFnc : CreateFileMetaFunction)

/-- The header of an extra field and its data have to fit in 65535 bytes. -/
def zipFileExtraFieldSet (index : Nat) (name : Bytes) (id : UInt16) (data : Bytes) :
    CreateM Unit := do
  let field := extraFieldOf data
  let success := zip.extraFieldSet name && decide (field.data.length + 4 ≤ 65535)
  Traced.emit (.extraFieldSet index id (UInt16.ofNat data.length) success)
  if success then
    Traced.modifyState fun state =>
      { state with
        pending := state.pending.modify index fun entry =>
          { entry with extraFields := entry.extraFields ++ [(id, field)] } }

/-- The branch of `zip_add_file` behind a successful `zip_file_add`. -/
def addMetaData (path name : Bytes) : CreateM Unit := do
  let state ← Traced.getState
  let index := state.pending.length
  Traced.modifyState fun state =>
    { state with pending := state.pending ++ [⟨name, some path, []⟩], metaData := [] }
  Traced.emit (.metaFnc path)
  let data ← Traced.ofOutcome (metaFnc path [])
  Traced.modifyState fun state => { state with metaData := data }
  if data ≠ [] then
    zipFileExtraFieldSet zip index name metaExtraFieldId data

def zipAddFile (basePathLen : Nat) (path : Bytes) : CreateM Bool := do
  Traced.emit (.sourceFile path (zip.sourceFile path))
  if zip.sourceFile path then
    let size ← Traced.ofOutcome (fs.fileSize path)
    Traced.modifyState fun state =>
      { state with runcompressedSize := state.runcompressedSize + size }
    -- `path.c_str() + _base_path_len`
    let name := path.drop basePathLen
    Traced.emit (.fileAdd name (zip.fileAdd name))
    if zip.fileAdd name then
      addMetaData zip metaFnc path name
    else
      -- the size stays counted
      Traced.emit .sourceFree
  return true

/-- A loop over `directory_iterator(dir)`. -/
def forEachEntry (dir : Bytes) (body : Bytes → CreateM Unit) : CreateM Unit := do
  Traced.forEach (fun name => body (childPath dir name)) (fs.list dir).names
  if (fs.list dir).throws then
    Traced.raise

/-- The body of both loops; the results of the helpers are not used. -/
def addEntry (zipAddDir : Bytes → CreateM Bool) (basePathLen : Nat) (path : Bytes) :
    CreateM Unit := do
  let directory ← Traced.ofOutcome (fs.isDirectory path)
  if directory then
    let _result ← zipAddDir path
  else
    let _result ← zipAddFile fs zip metaFnc basePathLen path

/-- The recursion has a budget, one for each level. -/
def zipAddDir (basePathLen : Nat) : Nat → Bytes → CreateM Bool
  | 0, _ => Traced.outOfSteps
  | fuel + 1, path => do
    let name := path.drop basePathLen
    Traced.emit (.dirAdd name (zip.dirAdd name))
    if zip.dirAdd name then
      Traced.modifyState fun state =>
        { state with pending := state.pending ++ [⟨dirEntryName name, none, []⟩] }
    forEachEntry fs path (addEntry fs zip metaFnc (zipAddDir basePathLen fuel) basePathLen)
    return true

/-- Nothing is written when the call fails or when there is no entry. -/
def zipClose : CreateM Unit := do
  Traced.emit (.zipClose zip.closes)
  Traced.modifyState fun state =>
    if zip.closes && !state.pending.isEmpty then
      { state with archive := some (state.pending.map (PendingEntry.write fs)) }
    else
      state

def archiveCreate (fuel : Nat) (root : Bytes) : CreateM Bool := do
  Traced.emit (.zipOpen zip.opens)
  if zip.opens then
    let root := withSlash root
    Traced.modifyState fun state => { state with runcompressedSize := 0 }
    let directory ← Traced.ofOutcome (fs.isDirectory root)
    if directory then
      forEachEntry fs root
        (addEntry fs zip metaFnc (zipAddDir fs zip metaFnc root.length fuel) root.length)
      zipClose fs zip
      return true
    else
      return false
  else
    return false

end

end MyappsCommon.Utility.Archive
