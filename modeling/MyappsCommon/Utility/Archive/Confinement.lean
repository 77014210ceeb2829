import MyappsCommon.Utility.Archive.Delivery

/-! # Where an extraction writes

Target paths are put together from the root and the name in the archive, with `/` between
them.  Such a path leaves the root exactly when the name climbs above it and does not come
back by the same directories.
-/

namespace MyappsCommon.Utility.Archive

open MyappsCommon.Lib

/-- The directory that `_root + '/'` names, by the names that lead to it from the top. -/
def rootPlace (cwd : List Bytes) (root : Bytes) : List Bytes :=
  pathFormat.resolve cwd (root ++ [slash])

/-- Once its `.` and `..` are resolved, the path lies in the directory of the root. -/
def Inside (cwd : List Bytes) (root path : Bytes) : Prop :=
  rootPlace cwd root <+: pathFormat.resolve cwd path

/-- The names that are climbed from a place are the first to be gone down again. -/
def StaysBelow (place : List Bytes) (name : Bytes) : Prop :=
  place.drop (place.length - (pathFormat.climbOf name).ups) <+: (pathFormat.climbOf name).downs

instance (place : List Bytes) (name : Bytes) : Decidable (StaysBelow place name) :=
  inferInstanceAs (Decidable (_ <+: _))

instance (cwd : List Bytes) (root path : Bytes) : Decidable (Inside cwd root path) :=
  inferInstanceAs (Decidable (_ <+: _))

theorem resolve_targetPath (cwd : List Bytes) (root name : Bytes) :
    pathFormat.resolve cwd (targetPath root name) =
      pathFormat.follow (rootPlace cwd root) name := Path.resolve_append cwd root name

theorem inside_targetPath_iff (cwd : List Bytes) (root name : Bytes) :
    Inside cwd root (targetPath root name) ↔ StaysBelow (rootPlace cwd root) name := by
  rw [Inside, resolve_targetPath, Path.prefix_follow_iff, StaysBelow]

/-- A name that climbs nowhere stays below any place. -/
theorem staysBelow_of_ups_eq_zero {name : Bytes} (level : (pathFormat.climbOf name).ups = 0)
    (place : List Bytes) : StaysBelow place name := by
  rw [StaysBelow, level, Nat.sub_zero, List.drop_length]
  exact List.nil_prefix

/-- The extraction comes to an entry of this name, and the entry is a folder or opens. -/
inductive Reached (entries : List ZipEntry) (name : Bytes) : Prop where
  | intro {before after : List ZipEntry} {entry : ZipEntry} {stat : ZipStat}
      (split : entries = before ++ entry :: after) (whole : ∀ earlier ∈ before, earlier.Whole)
      (described : entry.stat = some stat)
      (usable : stat.isFolder = true ∨ entry.file.isSome) (named : stat.name = name)

theorem Reached.head {entries : List ZipEntry} {entry : ZipEntry} {stat : ZipStat}
    (described : entry.stat = some stat) (usable : stat.isFolder = true ∨ entry.file.isSome) :
    Reached (entry :: entries) stat.name :=
  .intro (List.nil_append _).symm (List.forall_mem_nil _) described usable rfl

theorem Reached.tail {entries : List ZipEntry} {entry : ZipEntry} {name : Bytes}
    (reached : Reached entries name) (whole : entry.Whole) : Reached (entry :: entries) name := by
  obtain ⟨split, wholeBefore, described, usable, named⟩ := reached
  exact .intro (congrArg (entry :: ·) split) (List.forall_mem_cons.mpr ⟨whole, wholeBefore⟩)
    described usable named

variable {σ ε ω : Type}

/-- The path of a directory that is created by an event, or what `inner` says of an event
inside a callback. -/
def Event.touched (inner : ε → Option Bytes) : Event ε → Option Bytes
  | .step (.createDirectory path true) => some path
  | .step _ => none
  | .inner event => inner event

/-- The path of a file that is opened for writing. -/
def OsEvent.openedPath : OsEvent → Option Bytes
  | .opened path true => some path
  | .opened _ false => none
  | .written _ _ _ => none

/-! ## What a run touches -/

section

/-- Nothing is touched but perhaps this path. -/
def OnlyTouches (inner : ε → Option Bytes) (allowed : Bytes → Prop) (event : ε) : Prop :=
  ∀ path, inner event = some path → allowed path

/-- The writer is created at the target path of its name, and the other callbacks touch
nothing. -/
structure Environment.WritesAtTarget (env : Environment σ ε) (inner : ε → Option Bytes)
    (root : Bytes) : Prop where
  onCreateDir : ∀ name, Traced.Emits (OnlyTouches inner fun _ => False)
    (env.onCreateDirFunction name)
  create : ∀ name size data dataSize, Traced.Emits (OnlyTouches inner (· = targetPath root name))
    (env.createFileWriterFunction name size data dataSize)
  write : ∀ buf, Traced.Emits (OnlyTouches inner fun _ => False) (env.fileWriteFunction buf)
  destroy : Traced.Emits (OnlyTouches inner fun _ => False) env.destroyFileWriteFunction

variable {env : Environment σ ε} {root : Bytes} {inner : ε → Option Bytes}
  {allowed : Bytes → Prop}

theorem onlyTouches_of_none {event : ε} (quiet : inner event = none) :
    OnlyTouches inner allowed event := by
  intro path touched
  rw [quiet] at touched
  cases touched

/-- A step that creates no directory. -/
theorem emits_quietStep {step : Step} (quiet : (Event.step step).touched inner = none) :
    Traced.Emits (OnlyTouches (Event.touched inner) allowed) (logStep step : ExtractM σ ε Unit) :=
  Traced.emits_emit (onlyTouches_of_none quiet)

theorem emits_callEnv {α : Type} {log : Outcome α → Step} {program : Traced σ ε α}
    (inside : Traced.Emits (OnlyTouches inner allowed) program)
    (quiet : ∀ outcome, (Event.step (log outcome)).touched inner = none) :
    Traced.Emits (OnlyTouches (Event.touched inner) allowed) (callEnv log program) := by
  refine Traced.emits_call (Q := OnlyTouches (Event.touched inner) allowed) inside ?_
  intro outcome event member
  rw [List.mem_singleton] at member
  exact member ▸ onlyTouches_of_none (quiet outcome)

theorem emits_mono {allowed' : Bytes → Prop} {α : Type} {program : Traced σ ε α}
    (emits : Traced.Emits (OnlyTouches inner allowed) program)
    (more : ∀ path, allowed path → allowed' path) :
    Traced.Emits (OnlyTouches inner allowed') program :=
  fun state event member path touched => more path (emits state event member path touched)

theorem emits_of_quiet {α : Type} {program : Traced σ ε α}
    (quiet : Traced.Emits (OnlyTouches inner fun _ => False) program) :
    Traced.Emits (OnlyTouches inner allowed) program := emits_mono quiet fun _ => False.elim

theorem emits_readLoop (confined : env.WritesAtTarget inner root) (chunks : List Bytes)
    (last : Int) (fsz : UInt64) :
    Traced.Emits (OnlyTouches (Event.touched inner) allowed) (readLoop env chunks last fsz) := by
  induction chunks generalizing fsz with
  | nil =>
    rw [readLoop]
    exact Traced.emits_bind (emits_quietStep rfl) fun _ => Traced.emits_pure _
  | cons chunk chunks ih =>
    have written : Traced.Emits (OnlyTouches inner allowed) (env.fileWriteFunction chunk) :=
      emits_of_quiet (confined.write chunk)
    rw [readLoop]
    refine Traced.emits_bind (emits_quietStep rfl) fun _ => ?_
    refine Traced.emits_bind (emits_callEnv written fun _ => rfl) fun accepted => ?_
    cases accepted with
    | false => exact Traced.emits_pure _
    | true => exact ih _

theorem emits_readFile (confined : env.WritesAtTarget inner root) (stat : ZipStat)
    (file : ZipFile) :
    Traced.Emits (OnlyTouches (Event.touched inner) allowed) (readFile env stat file) := by
  rw [readFile]
  refine Traced.emits_bind (emits_readLoop confined _ _ _) fun count => ?_
  cases count with
  | none => exact Traced.emits_pure _
  | some fsz => exact Traced.emits_pure _

theorem emits_extractFolder (confined : env.WritesAtTarget inner root) (stat : ZipStat) :
    Traced.Emits (OnlyTouches (Event.touched inner) (· = targetPath root stat.name))
      (extractFolder env root stat) := by
  rw [extractFolder]
  refine Traced.emits_bind (Traced.emits_act _) fun created => ?_
  cases created with
  | false => exact Traced.emits_bind (emits_quietStep rfl) fun _ => Traced.emits_pure _
  | true =>
    refine Traced.emits_bind (Traced.emits_emit ?_) fun _ =>
      emits_callEnv (emits_of_quiet (confined.onCreateDir stat.name)) fun _ => rfl
    intro path touched
    cases touched
    rfl

theorem emits_extractFile (confined : env.WritesAtTarget inner root) (i : Nat) (stat : ZipStat)
    (entry : ZipEntry) :
    Traced.Emits (OnlyTouches (Event.touched inner)
        fun path => entry.file.isSome ∧ path = targetPath root stat.name)
      (extractFile env i stat entry) := by
  rw [extractFile]
  cases opens : entry.file with
  | none => exact Traced.emits_bind (emits_quietStep rfl) fun _ => Traced.emits_pure _
  | some file =>
    refine Traced.emits_bind (emits_quietStep rfl) fun _ => ?_
    refine Traced.emits_bind (emits_callEnv ?_ fun _ => rfl) fun given => ?_
    · exact emits_mono (confined.create _ _ _ _) fun _ at_target => ⟨rfl, at_target⟩
    · cases given with
      | false => exact Traced.emits_pure _
      | true =>
        exact Traced.emits_ensure (emits_readFile confined stat file)
          (emits_callEnv (emits_of_quiet confined.destroy) fun _ => rfl)

/-- An entry touches its own target path, if it is a folder or opens. -/
theorem emits_extractEntry (confined : env.WritesAtTarget inner root) (i : Nat)
    (entry : ZipEntry) :
    Traced.Emits (OnlyTouches (Event.touched inner) fun path =>
        ∃ stat, entry.stat = some stat ∧ (stat.isFolder = true ∨ entry.file.isSome) ∧
          path = targetPath root stat.name)
      (extractEntry env root i entry) := by
  rw [extractEntry_eq]
  cases described : entry.stat with
  | none => exact Traced.emits_pure _
  | some stat =>
    refine Traced.emits_bind (Traced.emits_modifyState _) fun _ => ?_
    refine Traced.emits_bind (emits_quietStep rfl) fun _ => ?_
    cases folder : stat.isFolder with
    | true =>
      exact emits_mono (emits_extractFolder confined stat)
        fun _ at_target => ⟨stat, rfl, .inl folder, at_target⟩
    | false =>
      exact emits_mono (emits_extractFile confined i stat entry)
        fun _ both => ⟨stat, rfl, .inr both.1, both.2⟩

/-- The entry loop goes on to the next entry only behind a whole one. -/
theorem touched_of_mem_extractLoop (confined : env.WritesAtTarget inner root)
    {entries : List ZipEntry} {i : Nat} {state : ExtractState σ} {event : Event ε} {path : Bytes}
    (member : event ∈ ((extractLoop env root i entries).run state).trace)
    (touched : event.touched inner = some path) :
    ∃ name, Reached entries name ∧ path = targetPath root name := by
  induction entries generalizing i state with
  | nil => cases member
  | cons entry entries ih =>
    rw [extractLoop, Traced.mem_trace_bind_iff] at member
    rcases member with member | ⟨goesOn, between, _, ran, member⟩
    · obtain ⟨stat, described, usable, rfl⟩ :=
        emits_extractEntry confined i entry state event member path touched
      exact ⟨stat.name, Reached.head described usable, rfl⟩
    · cases goesOn with
      | false => cases member
      | true =>
        obtain ⟨-, first, -, -⟩ := extractEntry_true ran
        obtain ⟨name, reached, rfl⟩ := ih member
        exact ⟨name, reached.tail first, rfl⟩

/-- Whatever the callbacks do, the function itself creates directories at target paths. -/
theorem writesAtTarget_none : env.WritesAtTarget (fun _ => none) root where
  onCreateDir _ _ _ _ := nofun
  create _ _ _ _ _ _ _ := nofun
  write _ _ _ _ := nofun
  destroy _ _ _ := nofun

theorem emits_flushOut (os : Os ω) (path data : Bytes) :
    Traced.Emits (OnlyTouches OsEvent.openedPath allowed) (flushOut os path data) := by
  rw [flushOut]
  split
  · exact Traced.emits_pure _
  · refine Traced.emits_bind (Traced.emits_act _) fun success => ?_
    refine Traced.emits_bind (Traced.emits_emit (onlyTouches_of_none rfl)) fun _ => ?_
    exact Traced.emits_pure _

theorem emits_ofstreamWrite (os : Os ω) (spill : Bytes → Bytes → Nat) (buf : Bytes) :
    Traced.Emits (OnlyTouches OsEvent.openedPath allowed) (ofstreamWrite os spill buf) := by
  rw [ofstreamWrite]
  refine Traced.emits_bind Traced.emits_getState fun state => ?_
  split
  · exact Traced.emits_pure _
  · split
    · refine Traced.emits_bind (emits_flushOut _ _ _) fun success => ?_
      exact Traced.emits_bind (Traced.emits_modifyState _) fun _ => Traced.emits_pure _
    · exact Traced.emits_pure _

theorem emits_ofstreamDestroy (os : Os ω) :
    Traced.Emits (OnlyTouches OsEvent.openedPath allowed) (ofstreamDestroy os) := by
  rw [ofstreamDestroy]
  refine Traced.emits_bind Traced.emits_getState fun state => ?_
  split
  · exact Traced.emits_pure _
  · exact Traced.emits_bind (emits_flushOut _ _ _) fun _ => Traced.emits_modifyState _

theorem emits_createWriteLambda (os : Os ω) (fileName : Bytes) :
    Traced.Emits (OnlyTouches OsEvent.openedPath (· = targetPath root fileName))
      (createWriteLambda os root fileName) := by
  rw [createWriteLambda]
  refine Traced.emits_bind (Traced.emits_act _) fun success => ?_
  refine Traced.emits_bind (Traced.emits_emit ?_) fun _ => ?_
  · intro path touched
    cases success with
    | false => cases touched
    | true =>
      cases touched
      rfl
  · split
    · exact Traced.emits_bind (Traced.emits_modifyState _) fun _ => Traced.emits_pure _
    · exact Traced.emits_pure _

theorem writesAtTarget_plain (os : Os ω) (spill : Bytes → Bytes → Nat) (root : Bytes) :
    (plainEnvironment os spill root).WritesAtTarget OsEvent.openedPath root where
  onCreateDir _ := Traced.emits_pure _
  create fileName _ _ _ := emits_createWriteLambda os fileName
  write buf := emits_ofstreamWrite os spill buf
  destroy := emits_ofstreamDestroy os

/-- What a whole call touches are target paths of reached names. -/
theorem touched_of_mem_doArchiveExtract (confined : env.WritesAtTarget inner root)
    {zipOpen : Bytes → Option (List ZipEntry)} {zipPath : Bytes} {state : ExtractState σ}
    {event : Event ε} {path : Bytes}
    (member : event ∈ ((doArchiveExtract env root zipOpen zipPath).run state).trace)
    (touched : event.touched inner = some path) :
    ∃ name, Reached ((zipOpen zipPath).getD []) name ∧ path = targetPath root name := by
  rw [run_doArchiveExtract, Result.prepend_trace, List.singleton_append, List.mem_cons] at member
  rcases member with rfl | member
  · cases touched
  · exact touched_of_mem_extractLoop confined member touched

end

/-! ## Runs that come to every reached name -/

/-- An operating system that carries out every call. -/
def willingOs : Os Unit where
  createDirectory _ _ := (true, ())
  openFile _ _ := (true, ())
  append _ _ _ := (true, ())

/-- A stream that buffers nothing. -/
def writeAtOnce (buffered buf : Bytes) : Nat := (buffered ++ buf).length

def willing (root : Bytes) : Environment (PlainState Unit) OsEvent :=
  plainEnvironment willingOs writeAtOnce root

theorem run_flushOut_willing (path data : Bytes) (state : PlainState Unit) :
    ∃ events, (flushOut willingOs path data).run state = ⟨.ok true, state, events⟩ := by
  rw [flushOut]
  split
  · exact ⟨[], rfl⟩
  · exact ⟨[.written path data true], rfl⟩

theorem gives_ofstreamWrite_willing (spill : Bytes → Bytes → Nat) (buf : Bytes) {ofs : Ofstream}
    (good : ofs.good = true) :
    ∃ after : Ofstream, after.good = true ∧
      Traced.Gives (ofstreamWrite willingOs spill buf) ⟨(), some ofs⟩ true ⟨(), some after⟩ := by
  obtain ⟨events, flushed⟩ := run_flushOut_willing ofs.path
    ((ofs.buffered ++ buf).take (spill ofs.buffered buf)) ⟨(), some ofs⟩
  refine ⟨⟨ofs.path, (ofs.buffered ++ buf).drop (spill ofs.buffered buf), true⟩, rfl, events, ?_⟩
  simp [ofstreamWrite, good, flushed, Result.prepend]

theorem writesAll_willing (root : Bytes) (chunks : List Bytes) (ofs : Ofstream)
    (good : ofs.good = true) : ∃ final, WritesAll (willing root) chunks ⟨(), some ofs⟩ final := by
  induction chunks generalizing ofs with
  | nil => exact ⟨_, rfl⟩
  | cons chunk chunks ih =>
    obtain ⟨after, good, written⟩ := gives_ofstreamWrite_willing writeAtOnce chunk good
    obtain ⟨final, writes⟩ := ih after good
    exact ⟨final, _, written, writes⟩

/-- The run passes over whole entries. -/
theorem loopDelivered_willing (root : Bytes) {entries : List ZipEntry}
    (whole : ∀ entry ∈ entries, entry.Whole) (state : PlainState Unit) :
    ∃ final, LoopDelivered (willing root) root entries state final := by
  refine loopDelivered_of_whole (fun stat state => ⟨state, state, rfl, [], rfl⟩) ?_ whole state
  intro stat entry file state
  obtain ⟨written, writes⟩ := writesAll_willing root file.chunks
    ⟨targetPath root stat.name, [], true⟩ rfl
  exact ⟨_, _, written, _, ⟨_, rfl⟩, writes, rfl, rfl⟩

/-- What happens at an entry behind delivered ones happens in the run. -/
theorem mem_extractLoop_append {env : Environment σ ε} {root : Bytes}
    {before after : List ZipEntry} {entry : ZipEntry} {left final : σ} {i : Nat} {size : UInt64}
    {event : Event ε} (delivered : LoopDelivered env root before left final)
    (member : ∀ state, state.env = final →
      event ∈ ((extractEntry env root (i + before.length) entry).run state).trace) :
    event ∈ ((extractLoop env root i (before ++ entry :: after)).run ⟨left, size⟩).trace := by
  induction before generalizing left i size with
  | nil =>
    cases delivered
    rw [List.nil_append, extractLoop, Traced.mem_trace_bind_iff]
    exact .inl (member _ rfl)
  | cons first before ih =>
    obtain ⟨between, deliveredFirst, delivered⟩ := delivered
    obtain ⟨_, ran⟩ := extractEntry_of_delivered deliveredFirst i size
    rw [List.cons_append, extractLoop, Traced.mem_trace_bind_iff]
    refine .inr ⟨true, _, _, ran, ih delivered fun state same => ?_⟩
    rw [Nat.add_assoc, Nat.add_comm 1]
    exact member state same

theorem created_mem_extractEntry {entry : ZipEntry} {stat : ZipStat}
    (described : entry.stat = some stat) (folder : stat.isFolder = true) (root : Bytes) (i : Nat)
    (state : ExtractState (PlainState Unit)) :
    .step (.createDirectory (targetPath root stat.name) true) ∈
      ((extractEntry (willing root) root i entry).run state).trace := by
  simp [extractEntry_eq, described, folder, extractFolder, willing, plainEnvironment, willingOs]

theorem opened_mem_extractEntry {entry : ZipEntry} {stat : ZipStat} {file : ZipFile}
    (described : entry.stat = some stat) (folder : stat.isFolder = false)
    (opens : entry.file = some file) (root : Bytes) (i : Nat)
    (state : ExtractState (PlainState Unit)) :
    .inner (.opened (targetPath root stat.name) true) ∈
      ((extractEntry (willing root) root i entry).run state).trace := by
  rw [extractEntry_eq, described]
  refine Traced.mem_trace_bind_iff.mpr (.inr ⟨_, _, _, rfl, ?_⟩)
  refine Traced.mem_trace_bind_iff.mpr (.inr ⟨_, _, _, rfl, ?_⟩)
  rw [folder, extractFile, opens]
  refine Traced.mem_trace_bind_iff.mpr (.inr ⟨_, _, _, rfl, ?_⟩)
  exact Traced.mem_trace_bind List.mem_cons_self

/-- A folder is created and a file is opened at the target path of a reached name. -/
theorem exists_touched_of_reached {zipOpen : Bytes → Option (List ZipEntry)} {zipPath name : Bytes}
    (reached : Reached ((zipOpen zipPath).getD []) name) (root : Bytes) :
    .step (.createDirectory (targetPath root name) true) ∈
        ((doArchiveExtract (willing root) root zipOpen zipPath).run ⟨⟨(), none⟩, 0⟩).trace ∨
      .inner (.opened (targetPath root name) true) ∈
        ((doArchiveExtract (willing root) root zipOpen zipPath).run ⟨⟨(), none⟩, 0⟩).trace := by
  obtain ⟨split, whole, described, usable, rfl⟩ := reached
  rename_i before after entry stat
  obtain ⟨final, delivered⟩ := loopDelivered_willing root whole ⟨(), none⟩
  rw [run_doArchiveExtract, split]
  cases folder : stat.isFolder with
  | true =>
    exact .inl (List.mem_append_right _ (mem_extractLoop_append delivered fun state _ =>
      created_mem_extractEntry described folder root _ state))
  | false =>
    have opens : entry.file.isSome := by simpa [folder] using usable
    obtain ⟨file, opens⟩ := Option.isSome_iff_exists.mp opens
    exact .inr (List.mem_append_right _ (mem_extractLoop_append delivered fun state _ =>
      opened_mem_extractEntry described folder opens root _ state))

/-- Every directory that any run creates and every file that a plain run opens for writing
lies inside the root exactly when every name that is reached stays below it. -/
theorem confinement_iff (zipOpen : Bytes → Option (List ZipEntry)) (zipPath root : Bytes)
    (cwd : List Bytes) :
    ((∀ (σ ε : Type) (env : Environment σ ε) (state : ExtractState σ) (path : Bytes),
        .step (.createDirectory path true) ∈
            ((doArchiveExtract env root zipOpen zipPath).run state).trace →
          Inside cwd root path) ∧
      ∀ (ω : Type) (os : Os ω) (spill : Bytes → Bytes → Nat) (state : ExtractState (PlainState ω))
        (path : Bytes),
        .inner (.opened path true) ∈
            ((archiveExtract os spill root zipOpen zipPath).run state).trace →
          Inside cwd root path) ↔
    ∀ name, Reached ((zipOpen zipPath).getD []) name → StaysBelow (rootPlace cwd root) name := by
  constructor
  · intro ⟨foldersInside, filesInside⟩ name reached
    rw [← inside_targetPath_iff]
    -- with everything permitted, some run comes to the entry of this name
    rcases exists_touched_of_reached reached root with created | opened
    · exact foldersInside _ _ _ _ _ created
    · exact filesInside Unit willingOs writeAtOnce _ _ opened
  · intro stays
    constructor
    · intro σ ε env state path created
      obtain ⟨name, reached, rfl⟩ :=
        touched_of_mem_doArchiveExtract writesAtTarget_none created rfl
      exact (inside_targetPath_iff cwd root name).mpr (stays name reached)
    · intro ω os spill state path opened
      obtain ⟨name, reached, rfl⟩ :=
        touched_of_mem_doArchiveExtract (writesAtTarget_plain os spill root) opened rfl
      exact (inside_targetPath_iff cwd root name).mpr (stays name reached)

/-- An empty file named `../x`. -/
def climbingEntry : ZipEntry where
  stat := some ⟨[46, 46, 47, 120], 0, 0, by decide, by decide⟩
  file := some .empty
  extraFields := []

/-- Extracted to `r`, it is opened as `r/../x`, which is `x` beside `r`. -/
theorem extract_opens_outside :
    .inner (.opened [114, 47, 46, 46, 47, 120] true) ∈
        ((archiveExtract willingOs writeAtOnce [114] (fun _ => some [climbingEntry]) [122]).run
          ⟨⟨(), none⟩, 0⟩).trace ∧
      ¬ Inside [] [114] [114, 47, 46, 46, 47, 120] := by
  decide +kernel

end MyappsCommon.Utility.Archive
