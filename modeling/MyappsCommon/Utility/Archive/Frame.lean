import MyappsCommon.Utility.Archive.Confinement
import MyappsCommon.Utility.Archive.OperatingSystem

/-! # What an extraction changes in the file system

The plain extraction always comes to an end.  However it ends, it has changed nothing but the
places to which the names of the entries lead that it has come to.
-/

namespace MyappsCommon.Utility.Archive

open MyappsCommon.Lib

variable {ω : Type} {os : Os ω} {cwd : List Bytes} {view : ω → Files Bytes Bytes}

/-! ## The stream -/

variable (cwd view) in
/-- A file stands where the path leads. -/
def HasFile (path : Bytes) (state : ω) : Prop :=
  ∃ content, view state (pathFormat.resolve cwd path) = some (.file content)

theorem HasFile.kept {path : Bytes} {state left : ω} (stands : HasFile cwd view path state)
    {allowed : List Bytes → Prop} (frame : Files.Frame allowed (view state) (view left)) :
    HasFile cwd view path left := by
  obtain ⟨content, stands⟩ := stands
  exact frame.files _ content stands

section

variable (acts : os.ActsOn cwd view)
include acts

theorem flushOut_frame {path : Bytes} (data : Bytes) (state : PlainState ω)
    (stands : HasFile cwd view path state.os) :
    ∃ success left, (flushOut os path data).Gives state success ⟨left, state.ofs⟩ ∧
      Files.Frame (· = pathFormat.resolve cwd path) (view state.os) (view left) := by
  obtain ⟨content, stands⟩ := stands
  rw [flushOut]
  split
  · exact ⟨true, state.os, Traced.gives_pure_iff.mpr ⟨rfl, rfl⟩, Files.Frame.refl _ _⟩
  · exact ⟨_, _, ⟨_, rfl⟩, acts.append_frame stands data⟩

/-- An open stream stays on its file. -/
theorem ofstreamWrite_frame (spill : Bytes → Bytes → Nat) (buf : Bytes) {state : ω}
    {ofs : Ofstream} (stands : HasFile cwd view ofs.path state) :
    ∃ success left ofs', (ofstreamWrite os spill buf).Gives ⟨state, some ofs⟩ success
        ⟨left, some ofs'⟩ ∧ ofs'.path = ofs.path ∧
      Files.Frame (· = pathFormat.resolve cwd ofs.path) (view state) (view left) := by
  cases good : ofs.good with
  | false =>
    refine ⟨false, state, ofs, ⟨[], ?_⟩, rfl, Files.Frame.refl _ _⟩
    simp [ofstreamWrite, good]
  | true =>
    let pending := ofs.buffered ++ buf
    let now := spill ofs.buffered buf
    obtain ⟨success, left, ⟨events, flushed⟩, frame⟩ :=
      flushOut_frame acts (pending.take now) ⟨state, some ofs⟩ stands
    refine ⟨success, left, ⟨ofs.path, if success then pending.drop now else ofs.buffered, success⟩,
      ⟨events, ?_⟩, rfl, frame⟩
    simp only [pending, now] at flushed
    simp [ofstreamWrite, good, flushed, Result.prepend, pending, now]

theorem ofstreamDestroy_frame {state : ω} {ofs : Ofstream}
    (stands : HasFile cwd view ofs.path state) :
    ∃ left, ((ofstreamDestroy os).run ⟨state, some ofs⟩).state = ⟨left, none⟩ ∧
      Files.Frame (· = pathFormat.resolve cwd ofs.path) (view state) (view left) := by
  obtain ⟨success, left, ⟨events, flushed⟩, frame⟩ :=
    flushOut_frame acts ofs.buffered ⟨state, some ofs⟩ stands
  exact ⟨left, by simp [ofstreamDestroy, flushed], frame⟩

theorem createWriteLambda_frame (root fileName : Bytes) (state : ω) :
    ∃ success left ofs, (createWriteLambda os root fileName).Gives ⟨state, none⟩ success
        ⟨left, ofs⟩ ∧
      (ofs = if success then some ⟨targetPath root fileName, [], true⟩ else none) ∧
      (success = true → HasFile cwd view (targetPath root fileName) left) ∧
      Files.Frame (· = extractPlace cwd root fileName) (view state) (view left) := by
  have frame := acts.openFile_frame (targetPath root fileName) state
  cases opened : (os.openFile (targetPath root fileName) state).1 with
  | false =>
    exact ⟨false, _, none, ⟨_, by simp [createWriteLambda, opened]; rfl⟩, rfl, nofun, frame⟩
  | true =>
    obtain ⟨-, left⟩ := acts.opened _ state opened
    exact ⟨true, _, _, ⟨_, by simp [createWriteLambda, opened]; rfl⟩, rfl,
      fun _ => ⟨[], by rw [left, Files.put_self]⟩, frame⟩

end

/-! ## The entries -/

/-- From this state the program gives a value, leaves no stream open and changes only these
places of the file system. -/
def Confined {α : Type} (view : ω → Files Bytes Bytes) (allowed : List Bytes → Prop)
    (program : ExtractM (PlainState ω) OsEvent α) (state : ω) : Prop :=
  ∀ size, ∃ value left size', program.Gives ⟨⟨state, none⟩, size⟩ value ⟨⟨left, none⟩, size'⟩ ∧
    Files.Frame allowed (view state) (view left)

section

variable (acts : os.ActsOn cwd view) (spill : Bytes → Bytes → Nat) (root : Bytes)
include acts

theorem readLoop_frame (chunks : List Bytes) (last : Int) (fsz size : UInt64) {state : ω}
    {ofs : Ofstream} (stands : HasFile cwd view ofs.path state) :
    ∃ count left ofs', (readLoop (plainEnvironment os spill root) chunks last fsz).Gives
        ⟨⟨state, some ofs⟩, size⟩ count ⟨⟨left, some ofs'⟩, size⟩ ∧ ofs'.path = ofs.path ∧
      Files.Frame (· = pathFormat.resolve cwd ofs.path) (view state) (view left) := by
  induction chunks generalizing fsz state ofs with
  | nil => exact ⟨some fsz, state, ofs, ⟨_, rfl⟩, rfl, Files.Frame.refl _ _⟩
  | cons chunk chunks ih =>
    obtain ⟨accepted, between, ofs₁, wrote, path₁, frame₁⟩ :=
      ofstreamWrite_frame acts spill chunk stands
    have called := callEnv_of_gives wrote (.fileWrite chunk) size
    cases accepted with
    | false =>
      refine ⟨none, between, ofs₁, ?_, path₁, frame₁⟩
      rw [readLoop, Traced.gives_seq_iff]
      exact ⟨_, Traced.gives_emit_iff.mpr rfl, Traced.gives_bind_iff.mpr
        ⟨false, _, called, Traced.gives_pure_iff.mpr ⟨rfl, rfl⟩⟩⟩
    | true =>
      have stillThere : HasFile cwd view ofs₁.path between := path₁ ▸ stands.kept frame₁
      obtain ⟨count, left, ofs₂, gives, path₂, frame₂⟩ := ih (addChunk fsz chunk) stillThere
      refine ⟨count, left, ofs₂, ?_, path₂.trans path₁, frame₁.trans (path₁ ▸ frame₂)⟩
      rw [readLoop, Traced.gives_seq_iff]
      exact ⟨_, Traced.gives_emit_iff.mpr rfl, Traced.gives_bind_iff.mpr ⟨true, _, called, gives⟩⟩

theorem readFile_frame (stat : ZipStat) (file : ZipFile) (size : UInt64) {state : ω}
    (ofs : Ofstream) (stands : HasFile cwd view ofs.path state) :
    ∃ result left ofs', (readFile (plainEnvironment os spill root) stat file).Gives
        ⟨⟨state, some ofs⟩, size⟩ result ⟨⟨left, some ofs'⟩, size⟩ ∧ ofs'.path = ofs.path ∧
      Files.Frame (· = pathFormat.resolve cwd ofs.path) (view state) (view left) := by
  obtain ⟨count, left, ofs', gives, path, frame⟩ := readLoop_frame acts spill root
    file.chunks file.last 0 size stands
  cases count with
  | none =>
    exact ⟨false, left, ofs', Traced.gives_bind_iff.mpr
      ⟨none, _, gives, Traced.gives_pure_iff.mpr ⟨rfl, rfl⟩⟩, path, frame⟩
  | some fsz =>
    exact ⟨fsz == stat.size, left, ofs', Traced.gives_bind_iff.mpr
      ⟨some fsz, _, gives, Traced.gives_pure_iff.mpr ⟨rfl, rfl⟩⟩, path, frame⟩

theorem extractFolder_confined (stat : ZipStat) (state : ω) :
    Confined view (· = extractPlace cwd root stat.name)
      (extractFolder (plainEnvironment os spill root) root stat) state := by
  intro size
  have frame := acts.createDirectory_frame (targetPath root stat.name) state
  cases created : (os.createDirectory (targetPath root stat.name) state).1 with
  | false =>
    exact ⟨false, _, size, ⟨_, by simp [extractFolder, plainEnvironment, created]; rfl⟩, frame⟩
  | true =>
    exact ⟨true, _, size, ⟨_, by simp [extractFolder, plainEnvironment, created, callEnv]; rfl⟩,
      frame⟩

theorem extractFile_confined (i : Nat) (stat : ZipStat) (entry : ZipEntry) (state : ω) :
    Confined view (fun place => entry.file.isSome ∧ place = extractPlace cwd root stat.name)
      (extractFile (plainEnvironment os spill root) i stat entry) state := by
  intro size
  rw [extractFile]
  cases opens : entry.file with
  | none => exact ⟨false, state, size, ⟨_, rfl⟩, Files.Frame.refl _ _⟩
  | some file =>
    have wider : ∀ place, place = extractPlace cwd root stat.name →
        (some file).isSome = true ∧ place = extractPlace cwd root stat.name :=
      fun _ here => ⟨rfl, here⟩
    obtain ⟨given, opened, ofs, answered, stream, stands, frame⟩ :=
      createWriteLambda_frame acts root stat.name state
    have called := callEnv_of_gives answered (.createFileWriter stat.name stat.size
      ((entry.extraFieldById metaExtraFieldId).map ExtraField.data)
      (UInt16.ofNat ((((entry.extraFieldById metaExtraFieldId).map ExtraField.data).getD
        []).length))) size
    cases given with
    | false =>
      subst stream
      refine ⟨false, opened, size, ?_, frame.mono wider⟩
      rw [Traced.gives_seq_iff]
      exact ⟨_, Traced.gives_emit_iff.mpr rfl, Traced.gives_bind_iff.mpr
        ⟨false, _, called, Traced.gives_pure_iff.mpr ⟨rfl, rfl⟩⟩⟩
    | true =>
      subst stream
      have standsThere := stands rfl
      -- what is read goes to the file that has just been opened
      obtain ⟨result, written, ofs, ⟨events, read⟩, path, frameRead⟩ :=
        readFile_frame acts spill root stat file size ⟨targetPath root stat.name, [], true⟩
          standsThere
      have standsStill : HasFile cwd view ofs.path written :=
        path ▸ standsThere.kept frameRead
      obtain ⟨last, destroyed, frameLast⟩ := ofstreamDestroy_frame acts standsStill
      rw [path] at frameLast
      refine ⟨result, last, size, ?_,
        ((frame.trans frameRead).trans frameLast).mono wider⟩
      rw [Traced.gives_seq_iff]
      refine ⟨_, Traced.gives_emit_iff.mpr rfl, Traced.gives_bind_iff.mpr ⟨true, _, called, ?_⟩⟩
      refine ⟨_, Traced.ensure_ok_iff.mpr ⟨_, _, read, ?_, rfl⟩⟩
      rw [callEnv, Traced.run_call]
      change _ = ExtractState.mk ((ofstreamDestroy os).run _).state size
      rw [destroyed]

/-- An entry changes its own place, if it is a folder or opens. -/
theorem extractEntry_confined (i : Nat) (entry : ZipEntry) (state : ω) :
    Confined view (fun place => ∃ stat, entry.stat = some stat ∧
        (stat.isFolder = true ∨ entry.file.isSome) ∧ place = extractPlace cwd root stat.name)
      (extractEntry (plainEnvironment os spill root) root i entry) state := by
  intro size
  rw [extractEntry_eq]
  cases described : entry.stat with
  | none => exact ⟨true, state, size, ⟨_, rfl⟩, Files.Frame.refl _ _⟩
  | some stat =>
    cases folder : stat.isFolder with
    | true =>
      obtain ⟨value, left, size', gives, frame⟩ :=
        extractFolder_confined acts spill root stat state (size + stat.size)
      refine ⟨value, left, size', ?_, frame.mono fun _ here => ⟨stat, rfl, .inl folder, here⟩⟩
      simpa [Traced.gives_seq_iff, logStep, folder] using gives
    | false =>
      obtain ⟨value, left, size', gives, frame⟩ :=
        extractFile_confined acts spill root i stat entry state (size + stat.size)
      refine ⟨value, left, size', ?_, frame.mono fun _ here => ⟨stat, rfl, .inr here.1, here.2⟩⟩
      simpa [Traced.gives_seq_iff, logStep, folder] using gives

/-- The loop comes to the places of the entries it has reached. -/
theorem extractLoop_confined (i : Nat) (entries : List ZipEntry) (state : ω) :
    Confined view (fun place => ∃ name, Reached entries name ∧ place = extractPlace cwd root name)
      (extractLoop (plainEnvironment os spill root) root i entries) state := by
  induction entries generalizing i state with
  | nil => exact fun size => ⟨true, state, size, ⟨_, rfl⟩, Files.Frame.refl _ _⟩
  | cons entry entries ih =>
    intro size
    obtain ⟨goesOn, between, size₁, first, frame⟩ :=
      extractEntry_confined acts spill root i entry state size
    have here := frame.mono fun place ⟨stat, described, usable, stands⟩ =>
      (⟨stat.name, Reached.head described usable, stands⟩ :
        ∃ name, Reached (entry :: entries) name ∧ place = extractPlace cwd root name)
    rw [extractLoop]
    cases goesOn with
    | false =>
      exact ⟨false, between, size₁, Traced.gives_bind_iff.mpr
        ⟨false, _, first, Traced.gives_pure_iff.mpr ⟨rfl, rfl⟩⟩, here⟩
    | true =>
      obtain ⟨value, left, size₂, gives, frameRest⟩ := ih (i + 1) between size₁
      -- the loop goes on only behind a whole entry
      obtain ⟨_, ran⟩ := first
      have whole := (extractEntry_true ran).2.1
      refine ⟨value, left, size₂, Traced.gives_bind_iff.mpr ⟨true, _, ⟨_, ran⟩, gives⟩,
        here.trans (frameRest.mono ?_)⟩
      rintro place ⟨name, reached, stands⟩
      exact ⟨name, reached.tail whole, stands⟩

/-- A plain extraction gives a value from every state and for every archive. -/
theorem archiveExtract_confined (zipOpen : Bytes → Option (List ZipEntry)) (zipPath : Bytes)
    (state : ω) :
    Confined view (fun place => ∃ name, Reached ((zipOpen zipPath).getD []) name ∧
        place = extractPlace cwd root name)
      (archiveExtract os spill root zipOpen zipPath) state := by
  intro size
  obtain ⟨value, left, size', ⟨events, ran⟩, frame⟩ :=
    extractLoop_confined acts spill root 0 ((zipOpen zipPath).getD []) state size
  refine ⟨value, left, size', ⟨.step (.zipOpen (zipOpen zipPath).isSome) :: events, ?_⟩, frame⟩
  rw [archiveExtract, run_doArchiveExtract, ran]
  rfl

end

/-- Whatever the archive and whichever calls fail, a plain extraction ends with true or false and
no stream open.  It removes nothing, changes no file outside the reached names, puts what is
new into directories, and stays in the directory of the root if the names do. -/
theorem archive_extract_frame (acts : os.ActsOn cwd view) (spill : Bytes → Bytes → Nat)
    (root : Bytes) (zipOpen : Bytes → Option (List ZipEntry)) (zipPath : Bytes) (start : ω)
    (size : UInt64) :
    let extracted := (archiveExtract os spill root zipOpen zipPath).run ⟨⟨start, none⟩, size⟩
    (∃ success, extracted.outcome = .ok success) ∧ extracted.state.env.ofs = none ∧
      Files.Frame (fun place => ∃ name, Reached ((zipOpen zipPath).getD []) name ∧
        place = extractPlace cwd root name) (view start) (view extracted.state.env.os) ∧
      ((∀ name, Reached ((zipOpen zipPath).getD []) name → StaysBelow (rootPlace cwd root) name) →
        ∀ place, ¬ rootPlace cwd root <+: place →
          view extracted.state.env.os place = view start place) := by
  obtain ⟨success, final, size', gives, frame⟩ :=
    archiveExtract_confined acts spill root zipOpen zipPath start size
  obtain ⟨outcome, left⟩ := Traced.gives_iff.mp gives
  refine ⟨⟨success, outcome⟩, by rw [left], by rw [left]; exact frame, ?_⟩
  intro stays place away
  rw [left]
  refine frame.outside place ?_
  rintro ⟨name, reached, rfl⟩
  exact away ((inside_targetPath_iff cwd root name).mpr (stays name reached))

/-- The directory `r` beside the target is as it was. -/
theorem archive_extract_frame_nested :
    ((archiveExtract (fileSystemOs []) (fun _ _ => 0) [120] (fun _ => some nestedViews) [122]).run
      ⟨⟨nestedFiles, none⟩, 0⟩).state.env.os [[114]] = some .dir := by
  obtain ⟨-, -, frame, -⟩ := archive_extract_frame fileSystemOs_actsOn (fun _ _ => 0) [120]
    (fun _ => some nestedViews) [122] nestedFiles 0
  exact frame.directories [[114]] (by decide)

end MyappsCommon.Utility.Archive
