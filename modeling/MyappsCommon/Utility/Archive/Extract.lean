import MyappsCommon.Utility.Archive.Libzip

/-! # `do_archive_extract`

The callbacks and `create_directory` are parameters with a state of their own, in which
the writer function that is open also keeps its data.  Every call is logged.
-/

namespace MyappsCommon.Utility.Archive

open MyappsCommon.Lib

inductive Step where
  | zipOpen (opened : Bool)
  | nameRead (index length : UInt64)
  | createDirectory (path : Bytes) (created : Bool)
  | onCreateDir (name : Bytes) (answer : Outcome Bool)
  | fopenIndex (index : Nat) (opened : Bool)
  | createFileWriter (name : Bytes) (size : UInt64) (metaData : Option Bytes)
      (metaDataSize : UInt16) (answer : Outcome Bool)
  | fread (result : Int)
  | fileWrite (buf : Bytes) (answer : Outcome Bool)
  | destroyFileWriter
  deriving DecidableEq, Repr

/-- A step of the function itself, or what happens inside a call it makes. -/
inductive Event (ε : Type) where
  | step (step : Step)
  | inner (event : ε)
  deriving DecidableEq, Repr

structure ExtractState (σ : Type) where
  env : σ
  runcompressedSize : UInt64

/-- What the function calls besides libzip.  A callback may raise; an empty writer
function is the answer `false`. -/
structure Environment (σ ε : Type) where
  createDirectory : Bytes → σ → Bool × σ
  onCreateDirFunction : Bytes → Traced σ ε Bool
  createFileWriterFunction : Bytes → UInt64 → Option Bytes → UInt16 → Traced σ ε Bool
  fileWriteFunction : Bytes → Traced σ ε Bool
  destroyFileWriteFunction : Traced σ ε Unit

abbrev ExtractM (σ ε α : Type) := Traced (ExtractState σ) (Event ε) α

variable {σ ε α : Type}

def logStep (step : Step) : ExtractM σ ε Unit := Traced.emit (.step step)

/-- Call a function of the environment and log how it ended. -/
def callEnv (log : Outcome α → Step) (program : Traced σ ε α) : ExtractM σ ε α :=
  program.call ExtractState.env (fun env state => { state with env := env }) Event.inner
    fun outcome => [.step (log outcome)]

/-- `_root + '/' + name` -/
def targetPath (root name : Bytes) : Bytes := root ++ slash :: name

section

variable (env : Environment σ ε) (root : Bytes)

def extractFolder (stat : ZipStat) : ExtractM σ ε Bool := do
  let path := targetPath root stat.name
  let created ← Traced.act fun state =>
    let answer := env.createDirectory path state.env
    (answer.1, { state with env := answer.2 })
  logStep (.createDirectory path created)
  -- the callback is not asked about a directory that was not created
  if created then
    callEnv (.onCreateDir stat.name) (env.onCreateDirFunction stat.name)
  else
    return false

/-- The `do` loop; no count when the writer has refused a piece. -/
def readLoop : List Bytes → Int → UInt64 → ExtractM σ ε (Option UInt64)
  | [], last, fsz => do
    logStep (.fread last)
    return some fsz
  | chunk :: chunks, last, fsz => do
    logStep (.fread chunk.length)
    let accepted ← callEnv (.fileWrite chunk) (env.fileWriteFunction chunk)
    if accepted then
      readLoop chunks last (addChunk fsz chunk)
    else
      return none

def readFile (stat : ZipStat) (file : ZipFile) : ExtractM σ ε Bool := do
  let fsz ← readLoop env file.chunks file.last 0
  match fsz with
  | none => return false
  -- the last result of `zip_fread` does not come in here
  | some fsz => return fsz == stat.size

def extractFile (i : Nat) (stat : ZipStat) (entry : ZipEntry) : ExtractM σ ε Bool := do
  match entry.file with
  | none =>
    logStep (.fopenIndex i false)
    return false
  | some file =>
    logStep (.fopenIndex i true)
    let metaData := entry.extraFieldById metaExtraFieldId
    let data := metaData.map ExtraField.data
    -- the size stays 0 when there is no such field
    let dataSize := UInt16.ofNat ((data.getD []).length)
    let given ← callEnv (.createFileWriter stat.name stat.size data dataSize)
      (env.createFileWriterFunction stat.name stat.size data dataSize)
    if given then
      -- the writer function is destroyed when its scope is left
      (readFile env stat file).ensure
        (callEnv (fun _ => .destroyFileWriter) env.destroyFileWriteFunction)
    else
      return false

/-- `stat.name[index]` -/
def readName (stat : ZipStat) (index : UInt64) : ExtractM σ ε UInt8 := do
  logStep (.nameRead index stat.strlen)
  return stat.nameAt index

/-- One turn of the loop over the entries; `false` stands for `return false`. -/
def extractEntry (i : Nat) (entry : ZipEntry) : ExtractM σ ε Bool := do
  match entry.stat with
  | none => return true -- nothing is done for an entry whose `zip_stat_index` fails
  | some stat =>
    Traced.modifyState fun state =>
      { state with runcompressedSize := state.runcompressedSize + stat.size }
    let last ← readName stat (stat.strlen - 1)
    if last == slash then
      extractFolder env root stat
    else
      extractFile env i stat entry

/-- The character that is read says whether the entry is a folder. -/
theorem extractEntry_eq (i : Nat) (entry : ZipEntry) :
    extractEntry env root i entry =
      (match entry.stat with
      | none => pure true
      | some stat => do
        Traced.modifyState fun state =>
          { state with runcompressedSize := state.runcompressedSize + stat.size }
        logStep (.nameRead (stat.strlen - 1) stat.strlen)
        if stat.isFolder then extractFolder env root stat else extractFile env i stat entry) := by
  rw [extractEntry]
  cases entry.stat with
  | none => rfl
  | some stat => rfl

def extractLoop : Nat → List ZipEntry → ExtractM σ ε Bool
  | _, [] => return true
  | i, entry :: entries => do
    let goesOn ← extractEntry env root i entry
    if goesOn then
      extractLoop (i + 1) entries
    else
      return false

/-- `zipOpen` gives no entries for a null handle, which is not tested for. -/
def doArchiveExtract (zipOpen : Bytes → Option (List ZipEntry)) (zipPath : Bytes) :
    ExtractM σ ε Bool := do
  let pzip := zipOpen zipPath
  logStep (.zipOpen pzip.isSome)
  extractLoop env root 0 ((pzip.getD []).take (zipGetNumEntries pzip).toNat)

end

/-! ## The plain `archive_extract` -/

/-- What the operating system does: `mkdir`, opening a file for writing, and appending
to an open file. -/
structure Os (ω : Type) where
  createDirectory : Bytes → ω → Bool × ω
  openFile : Bytes → ω → Bool × ω
  append : Bytes → Bytes → ω → Bool × ω

/-- `std::ofstream` -/
structure Ofstream where
  path : Bytes
  buffered : Bytes
  good : Bool

structure PlainState (ω : Type) where
  os : ω
  ofs : Option Ofstream

inductive OsEvent where
  | opened (path : Bytes) (success : Bool)
  | written (path data : Bytes) (success : Bool)
  deriving DecidableEq, Repr

variable {ω : Type}

section

variable (os : Os ω)

/-- Hand data to the operating system; no call is made for no data. -/
def flushOut (path data : Bytes) : Traced (PlainState ω) OsEvent Bool := do
  if data = [] then
    return true
  else
    let success ← Traced.act fun state =>
      let answer := os.append path data state.os
      (answer.1, { state with os := answer.2 })
    Traced.emit (.written path data success)
    return success

/-- `ofs.write(_buf, _len)` and `ofs.good()`.  How much of the buffer and of the new data
is written out at once is left to the stream: it is `spill`. -/
def ofstreamWrite (spill : Bytes → Bytes → Nat) (buf : Bytes) :
    Traced (PlainState ω) OsEvent Bool := do
  let state ← Traced.getState
  match state.ofs with
  | none => return false
  | some ofs =>
    if ofs.good then
      let pending := ofs.buffered ++ buf
      let now := spill ofs.buffered buf
      let success ← flushOut os ofs.path (pending.take now)
      let buffered := if success then pending.drop now else ofs.buffered
      Traced.modifyState fun state =>
        { state with ofs := some { ofs with buffered := buffered, good := success } }
      return success
    else
      return false

/-- The destructor writes out what is still buffered; nobody sees how that ends. -/
def ofstreamDestroy : Traced (PlainState ω) OsEvent Unit := do
  let state ← Traced.getState
  match state.ofs with
  | none => return ()
  | some ofs =>
    let _success ← flushOut os ofs.path ofs.buffered
    Traced.modifyState fun state => { state with ofs := none }

def createWriteLambda (root fileName : Bytes) : Traced (PlainState ω) OsEvent Bool := do
  let path := targetPath root fileName
  let success ← Traced.act fun state =>
    let answer := os.openFile path state.os
    (answer.1, { state with os := answer.2 })
  Traced.emit (.opened path success)
  if success then
    Traced.modifyState fun state => { state with ofs := some ⟨path, [], true⟩ }
    return true
  else
    return false

def plainEnvironment (spill : Bytes → Bytes → Nat) (root : Bytes) :
    Environment (PlainState ω) OsEvent where
  createDirectory path state :=
    let answer := os.createDirectory path state.os
    (answer.1, { state with os := answer.2 })
  onCreateDirFunction _ := return true
  createFileWriterFunction fileName _ _ _ := createWriteLambda os root fileName
  fileWriteFunction buf := ofstreamWrite os spill buf
  destroyFileWriteFunction := ofstreamDestroy os

def archiveExtract (spill : Bytes → Bytes → Nat) (root : Bytes)
    (zipOpen : Bytes → Option (List ZipEntry)) (path : Bytes) :
    ExtractM (PlainState ω) OsEvent Bool :=
  doArchiveExtract (plainEnvironment os spill root) root zipOpen path

end

end MyappsCommon.Utility.Archive
