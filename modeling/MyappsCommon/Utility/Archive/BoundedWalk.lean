import MyappsCommon.Utility.Archive.DirGraph

/-! # How far the walk of `archive_create` goes

The recursion keeps no record of the directories that it has been in.  It ends where no
directory leads back to itself, and adds each listed name once where each directory is reached
by one path.
-/

namespace MyappsCommon.Utility.Archive

open MyappsCommon.Lib

/-- The place in the archive of an entry that is added. -/
def CreateStep.addedPlace : CreateStep → Option (List Bytes)
  | .dirAdd name true => some (pathFormat.follow [] name)
  | .fileAdd name true => some (pathFormat.follow [] name)
  | _ => none

def addedPlaces (trace : List CreateStep) : List (List Bytes) :=
  trace.filterMap CreateStep.addedPlace

/-- Some budget is enough for the call. -/
def WalkEnds (fs : SourceFs) (zip : Libzip) (metaFnc : CreateFileMetaFunction) (root : Bytes)
    (state : CreateState) : Prop :=
  ∃ fuel, ((archiveCreate fs zip metaFnc fuel root).run state).outcome ≠ .unfinished

/-- Two places are not one name in one real directory. -/
def DirGraph.Apart (graph : DirGraph) (first second : List Bytes) : Prop :=
  ∀ dir name, graph.Denotes first dir name → ¬ graph.Denotes second dir name

instance (graph : DirGraph) : Std.Symm graph.Apart :=
  ⟨fun _ _ apart dir name second first => apart dir name first second⟩

/-- The call does not add two entries for one name in one real directory, however far it
comes. -/
def DirGraph.AddsOnce (graph : DirGraph) (fs : SourceFs) (zip : Libzip)
    (metaFnc : CreateFileMetaFunction) (root : Bytes) (state : CreateState) : Prop :=
  ∀ fuel,
    (addedPlaces ((archiveCreate fs zip metaFnc fuel root).run state).trace).Pairwise graph.Apart

variable {graph : DirGraph} {fs : SourceFs} {zip : Libzip} {metaFnc : CreateFileMetaFunction}
  {root : Bytes}

/-! ## One turn of a loop -/

/-- The path strings of the entries of a directory at `path`. -/
def ListsAt (root : Bytes) (path : List Bytes) (dir : Bytes) : Prop :=
  ∀ name, childPath dir name = withSlash root ++ (within path ++ name)

theorem listsAt_root (root : Bytes) : ListsAt root [] (withSlash root) :=
  childPath_withSlash root

theorem listsAt_below (root : Bytes) (path : List Bytes) {name : Bytes}
    (isName : pathFormat.IsName name) :
    ListsAt root (path ++ [name]) (withSlash root ++ (within path ++ name)) := by
  intro child
  rw [childPath_below isName, within_concat]

/-- What a loop does for a name of a directory: an exception, a file, or a directory that is
entered. -/
theorem addEntry_cases (presents : graph.Presents fs metaFnc root) {path : List Bytes}
    {dir : graph.Dir} {name : Bytes} (reached : graph.follow path = some dir)
    (listed : name ∈ graph.names dir) (addDir : Bytes → CreateM Bool) :
    let place := withSlash root ++ (within path ++ name)
    let turn := addEntry fs zip metaFnc addDir (withSlash root).length place
    turn = Traced.raise ∨
      turn = (zipAddFile fs zip metaFnc (withSlash root).length place >>= fun _ => pure ()) ∨
      ∃ child, graph.step dir name = some child ∧ turn = (addDir place >>= fun _ => pure ()) := by
  intro place turn
  rcases presents.kind path dir name reached listed with known | thrown
  · cases target : graph.target dir name with
    | none =>
      rw [target] at known
      exact .inr (.inl (addEntry_of_file known))
    | some child =>
      rw [target] at known
      exact .inr (.inr ⟨child, DirGraph.step_eq_some_iff.mpr ⟨listed, target⟩,
        addEntry_of_directory known⟩)
  · refine .inl ?_
    simp only [turn, place, addEntry, thrown, Traced.ofOutcome_raised_bind]

/-! ## The walk ends -/

/-- The budget that is enough below a directory. -/
noncomputable def DirGraph.rank (graph : DirGraph) (dir : graph.Dir) : Nat :=
  (Graph.beyond graph.step dir).ncard

theorem DirGraph.rank_lt (noReturn : Graph.NoReturn graph.step graph.root) {path : List Bytes}
    {dir child : graph.Dir} {name : Bytes} (reached : graph.follow path = some dir)
    (entered : graph.step dir name = some child) : graph.rank child < graph.rank dir := by
  have := graph.finite
  exact Graph.ncard_beyond_lt noReturn reached entered

/-- A loop over a directory ends if the directories in it are left again. -/
theorem halts_walk (presents : graph.Presents fs metaFnc root) {path : List Bytes}
    {dir : graph.Dir} {place : Bytes} (reached : graph.follow path = some dir)
    (listed : ListedFrom (fs.list place) (graph.names dir)) (listsAt : ListsAt root path place)
    {addDir : Bytes → CreateM Bool} (inside : ∀ name child, graph.step dir name = some child →
      Traced.Avoids .unfinished (addDir (withSlash root ++ (within path ++ name)))) :
    Traced.Avoids .unfinished (forEachEntry fs place
      (addEntry fs zip metaFnc addDir (withSlash root).length)) := by
  have returns : ∀ _ : Bool, Traced.Avoids .unfinished (pure () : CreateM Unit) :=
    fun _ => Traced.avoids_pure ()
  refine avoids_forEachEntry (fun _ => nofun) fun name given => ?_
  rw [listsAt]
  rcases addEntry_cases presents reached (listed.part given) addDir with
    thrown | file | ⟨child, entered, directory⟩
  · rw [thrown]
    exact Traced.avoids_raise nofun
  · rw [file]
    exact Traced.avoids_bind
      (avoids_zipAddFile (fun _ => presents.sized _) fun _ _ => presents.answered _ _) returns
  · rw [directory]
    exact Traced.avoids_bind (inside name child entered) returns

/-- The rank of the directory is the measure of the recursion. -/
theorem halts_zipAddDir (noReturn : Graph.NoReturn graph.step graph.root)
    (presents : graph.Presents fs metaFnc root) {fuel : Nat} {path : List Bytes}
    {dir child : graph.Dir} {name : Bytes} (reached : graph.follow path = some dir)
    (entered : graph.step dir name = some child) (enough : graph.rank child < fuel) :
    Traced.Avoids .unfinished (zipAddDir fs zip metaFnc (withSlash root).length fuel
      (withSlash root ++ (within path ++ name))) := by
  induction fuel generalizing path dir child name with
  | zero => exact absurd enough (Nat.not_lt_zero _)
  | succ fuel ih =>
    have listed := (DirGraph.step_eq_some_iff.mp entered).1
    have inChild := DirGraph.follow_concat reached entered
    refine avoids_zipAddDir (halts_walk presents inChild
      (presents.listedBelow _ _ _ _ reached entered)
      (listsAt_below root path (graph.named dir name listed)) fun next below further => ?_)
    have less := DirGraph.rank_lt noReturn inChild further
    exact ih inChild further (by omega)

theorem halts_walkFrom (noReturn : Graph.NoReturn graph.step graph.root)
    (presents : graph.Presents fs metaFnc root) :
    Traced.Avoids .unfinished
      (walkFrom fs zip metaFnc (graph.rank graph.root) (withSlash root)) := by
  refine halts_walk presents rfl presents.listed (listsAt_root root) fun name child entered => ?_
  exact halts_zipAddDir noReturn presents DirGraph.follow_nil entered
    (DirGraph.rank_lt noReturn DirGraph.follow_nil entered)

theorem ends_of_noReturn (noReturn : Graph.NoReturn graph.step graph.root)
    (presents : graph.Presents fs metaFnc root) (zip : Libzip) (state : CreateState) :
    WalkEnds fs zip metaFnc root state := by
  have returns (result : Bool) :
      Traced.Avoids .unfinished (pure result : CreateM Bool) := Traced.avoids_pure result
  have closes : Traced.Avoids .unfinished (zipClose fs zip) :=
    Traced.avoids_bind (Traced.avoids_emit _) fun _ => Traced.avoids_modifyState _
  have halts : Traced.Avoids .unfinished
      (archiveCreate fs zip metaFnc (graph.rank graph.root) root) := by
    refine Traced.avoids_bind (Traced.avoids_emit _) fun _ => ?_
    split
    · refine Traced.avoids_bind (Traced.avoids_modifyState _) fun _ =>
        Traced.avoids_bind (Traced.avoids_ofOutcome presents.asked) fun directory => ?_
      split
      · exact Traced.avoids_bind (halts_walkFrom noReturn presents) fun _ =>
          Traced.avoids_bind closes fun _ => returns true
      · exact returns false
    · exact returns false
  exact ⟨graph.rank graph.root, halts state⟩

/-! ## The places are different -/

/-- The places are different and lie at or below a path. -/
def DistinctBelow (path : List Bytes) (places : List (List Bytes)) : Prop :=
  places.Nodup ∧ ∀ place ∈ places, path <+: place

/-- The places are different and lie at or below names in a directory. -/
def DistinctIn (path names : List Bytes) (places : List (List Bytes)) : Prop :=
  places.Nodup ∧ ∀ place ∈ places, ∃ name ∈ names, path ++ [name] <+: place

theorem distinctBelow_nil (path : List Bytes) : DistinctBelow path [] :=
  ⟨List.nodup_nil, List.forall_mem_nil _⟩

theorem distinctIn_nil (path names : List Bytes) : DistinctIn path names [] :=
  ⟨List.nodup_nil, List.forall_mem_nil _⟩

/-- A directory goes before what is in it. -/
theorem DistinctIn.cons {path names : List Bytes} {places : List (List Bytes)}
    (inside : DistinctIn path names places) : DistinctBelow path (path :: places) := by
  refine ⟨List.nodup_cons.mpr ⟨fun member => ?_, inside.1⟩, List.forall_mem_cons.mpr
    ⟨List.prefix_refl _, fun place member => ?_⟩⟩
  · obtain ⟨name, -, below⟩ := inside.2 path member
    have length := below.length_le
    simp at length
  · obtain ⟨name, -, below⟩ := inside.2 place member
    exact (List.prefix_append path [name]).trans below

/-- What is below one name goes before what is below others. -/
theorem DistinctBelow.append {path names : List Bytes} {name : Bytes}
    {first second : List (List Bytes)} (unlisted : name ∉ names)
    (below : DistinctBelow (path ++ [name]) first) (others : DistinctIn path names second) :
    DistinctIn path (name :: names) (first ++ second) := by
  constructor
  · refine List.nodup_append.mpr ⟨below.1, others.1, fun place member other later same => ?_⟩
    subst same
    -- the place would begin with both names behind the path
    obtain ⟨otherName, listed, otherBelow⟩ := others.2 place later
    have both := List.prefix_of_prefix_length_le (below.2 place member) otherBelow (by simp)
    have same := List.append_cancel_left (both.eq_of_length (by simp))
    exact unlisted (List.head_eq_of_cons_eq same ▸ listed)
  · intro place member
    rcases List.mem_append.mp member with member | member
    · exact ⟨name, List.mem_cons_self, below.2 place member⟩
    · obtain ⟨other, listed, otherBelow⟩ := others.2 place member
      exact ⟨other, List.mem_cons_of_mem _ listed, otherBelow⟩

theorem DistinctIn.below {path names : List Bytes} {places : List (List Bytes)}
    (inside : DistinctIn path names places) : DistinctBelow path places := by
  refine ⟨inside.1, fun place member => ?_⟩
  obtain ⟨name, -, below⟩ := inside.2 place member
  exact (List.prefix_append path [name]).trans below

/-- The bytes behind the root are the place of the name. -/
theorem follow_drop_base {path : List Bytes} {dir : graph.Dir} {name : Bytes}
    (reached : graph.follow path = some dir) (listed : name ∈ graph.names dir) :
    pathFormat.follow [] ((withSlash root ++ (within path ++ name)).drop (withSlash root).length) =
      path ++ [name] := by
  rw [List.drop_left]
  exact DirGraph.follow_within reached listed

theorem addedPlace_dirAdd {path : List Bytes} {dir : graph.Dir} {name : Bytes}
    (reached : graph.follow path = some dir) (listed : name ∈ graph.names dir) :
    (CreateStep.dirAdd ((withSlash root ++ (within path ++ name)).drop (withSlash root).length)
      true).addedPlace = some (path ++ [name]) := congrArg some (follow_drop_base reached listed)

theorem addedPlace_fileAdd {path : List Bytes} {dir : graph.Dir} {name : Bytes}
    (reached : graph.follow path = some dir) (listed : name ∈ graph.names dir) :
    (CreateStep.fileAdd ((withSlash root ++ (within path ++ name)).drop (withSlash root).length)
      true).addedPlace = some (path ++ [name]) := congrArg some (follow_drop_base reached listed)

/-- A file has one place at most. -/
theorem logs_zipAddFile {path : List Bytes} {dir : graph.Dir} {name : Bytes}
    (reached : graph.follow path = some dir) (listed : name ∈ graph.names dir) :
    Traced.Logs CreateStep.addedPlace (DistinctBelow (path ++ [name]))
      (zipAddFile fs zip metaFnc (withSlash root).length
        (withSlash root ++ (within path ++ name))) := by
  have returns (result : Bool) :
      Traced.Emits (fun step => CreateStep.addedPlace step = none) (pure result : CreateM Bool) :=
    Traced.emits_pure result
  have nothing := distinctBelow_nil (path ++ [name])
  refine Traced.logs_bind_right (Traced.emits_emit rfl) (fun _ => ?_) nothing
  split
  · refine Traced.logs_bind_right (Traced.emits_ofOutcome _) (fun _ => ?_) nothing
    refine Traced.logs_bind_right (Traced.emits_modifyState _) (fun _ => ?_) nothing
    refine Traced.logs_bind_left (Traced.logs_emit ?_) fun _ => ?_
    · cases zip.fileAdd (List.drop (withSlash root).length _) with
      | true =>
        rw [addedPlace_fileAdd reached listed]
        exact (distinctIn_nil _ []).cons
      | false => exact nothing
    · split
      · exact Traced.emits_bind (emits_addMetaData (fun _ => rfl) (fun _ _ _ _ => rfl) _ _)
          fun _ => returns true
      · exact Traced.emits_bind (Traced.emits_emit rfl) fun _ => returns true
  · exact (returns true).logs nothing

/-- What a loop over some names of a directory adds lies below these names. -/
theorem logs_forEach {path names : List Bytes} {body : Bytes → CreateM Unit}
    (distinct : names.Nodup) (each : ∀ name ∈ names,
      Traced.Logs CreateStep.addedPlace (DistinctBelow (path ++ [name])) (body name)) :
    Traced.Logs CreateStep.addedPlace (DistinctIn path names) (Traced.forEach body names) := by
  induction names with
  | nil => exact fun _ => distinctIn_nil path []
  | cons name names ih =>
    obtain ⟨unlisted, distinct⟩ := List.nodup_cons.mp distinct
    rw [List.forall_mem_cons] at each
    exact Traced.logs_bind each.1 (fun _ => ih distinct each.2) (distinctIn_nil path names)
      fun _ _ => DistinctBelow.append unlisted

theorem logs_walk (presents : graph.Presents fs metaFnc root) {path : List Bytes}
    {dir : graph.Dir} {place : Bytes} (reached : graph.follow path = some dir)
    (listed : ListedFrom (fs.list place) (graph.names dir)) (listsAt : ListsAt root path place)
    {addDir : Bytes → CreateM Bool} (inside : ∀ name child, graph.step dir name = some child →
      Traced.Logs CreateStep.addedPlace (DistinctBelow (path ++ [name]))
        (addDir (withSlash root ++ (within path ++ name)))) :
    Traced.Logs CreateStep.addedPlace (DistinctIn path (fs.list place).names)
      (forEachEntry fs place (addEntry fs zip metaFnc addDir (withSlash root).length)) := by
  have returns : ∀ _ : Bool,
      Traced.Emits (fun step => CreateStep.addedPlace step = none) (pure () : CreateM Unit) :=
    fun _ => Traced.emits_pure ()
  refine Traced.logs_bind_left (logs_forEach listed.distinct
    fun name given => ?_) fun _ => ?_
  · rw [listsAt]
    have ofDir := listed.part given
    rcases addEntry_cases presents reached ofDir addDir with
      thrown | file | ⟨child, entered, directory⟩
    · rw [thrown]
      exact Traced.emits_raise.logs (distinctBelow_nil _)
    · rw [file]
      exact Traced.logs_bind_left (logs_zipAddFile reached ofDir) returns
    · rw [directory]
      exact Traced.logs_bind_left (inside name child entered) returns
  · split
    · exact Traced.emits_raise
    · exact Traced.emits_pure ()

theorem logs_zipAddDir (presents : graph.Presents fs metaFnc root) {fuel : Nat}
    {path : List Bytes} {dir child : graph.Dir} {name : Bytes}
    (reached : graph.follow path = some dir) (entered : graph.step dir name = some child) :
    Traced.Logs CreateStep.addedPlace (DistinctBelow (path ++ [name]))
      (zipAddDir fs zip metaFnc (withSlash root).length fuel
        (withSlash root ++ (within path ++ name))) := by
  induction fuel generalizing path dir child name with
  | zero => exact Traced.emits_outOfSteps.logs (distinctBelow_nil _)
  | succ fuel ih =>
    have listed := (DirGraph.step_eq_some_iff.mp entered).1
    have inChild := DirGraph.follow_concat reached entered
    have loop : Traced.Logs CreateStep.addedPlace
        (DistinctIn (path ++ [name]) (fs.list (withSlash root ++ (within path ++ name))).names)
        (forEachEntry fs (withSlash root ++ (within path ++ name))
          (addEntry fs zip metaFnc (zipAddDir fs zip metaFnc (withSlash root).length fuel)
            (withSlash root).length)) :=
      logs_walk presents inChild (presents.listedBelow _ _ _ _ reached entered)
        (listsAt_below root path (graph.named dir name listed)) fun _ _ => ih inChild
    have returns : ∀ _ : Unit,
        Traced.Emits (fun step => CreateStep.addedPlace step = none) (pure true : CreateM Bool) :=
      fun _ => Traced.emits_pure true
    have nothing := distinctIn_nil (path ++ [name])
      (fs.list (withSlash root ++ (within path ++ name))).names
    have own : ∀ step : CreateStep, Traced.Logs CreateStep.addedPlace
        (fun places => places = step.addedPlace.toList) (Traced.emit step : CreateM Unit) :=
      fun _ => Traced.logs_emit rfl
    refine Traced.logs_bind (own _) (fun _ => ?_) nothing ?_
    · split
      · exact Traced.logs_bind_right (Traced.emits_modifyState _)
          (fun _ => Traced.logs_bind_left loop returns) nothing
      · exact Traced.logs_bind_left loop returns
    · rintro _ after rfl inside
      cases zip.dirAdd ((withSlash root ++ (within path ++ name)).drop (withSlash root).length) with
      | true =>
        -- the directory, then what is in it
        rw [addedPlace_dirAdd reached listed]
        exact inside.cons
      | false => exact inside.below

theorem logs_walkFrom (presents : graph.Presents fs metaFnc root) (fuel : Nat) :
    Traced.Logs CreateStep.addedPlace (DistinctBelow [])
      (walkFrom fs zip metaFnc fuel (withSlash root)) := by
  have walked : Traced.Logs CreateStep.addedPlace
      (DistinctIn [] (fs.list (withSlash root)).names)
      (walkFrom fs zip metaFnc fuel (withSlash root)) :=
    logs_walk presents DirGraph.follow_nil presents.listed (listsAt_root root)
      fun _ _ entered => logs_zipAddDir presents DirGraph.follow_nil entered
  exact fun state => (walked state).below

/-- Each place is added once at most, whatever fails. -/
theorem nodup_addedPlaces (presents : graph.Presents fs metaFnc root) (fuel : Nat)
    (state : CreateState) :
    (addedPlaces ((archiveCreate fs zip metaFnc fuel root).run state).trace).Nodup := by
  have returns (result : Bool) :
      Traced.Emits (fun step => CreateStep.addedPlace step = none) (pure result : CreateM Bool) :=
    Traced.emits_pure result
  have closes : Traced.Emits (fun step => CreateStep.addedPlace step = none) (zipClose fs zip) :=
    Traced.emits_bind (Traced.emits_emit rfl) fun _ => Traced.emits_modifyState _
  have nothing := distinctBelow_nil []
  have created : Traced.Logs CreateStep.addedPlace (DistinctBelow [])
      (archiveCreate fs zip metaFnc fuel root) := by
    refine Traced.logs_bind_right (Traced.emits_emit rfl) (fun _ => ?_) nothing
    split
    · refine Traced.logs_bind_right (Traced.emits_modifyState _) (fun _ => ?_) nothing
      refine Traced.logs_bind_right (Traced.emits_ofOutcome _) (fun _ => ?_) nothing
      split
      · exact Traced.logs_bind_left (logs_walkFrom presents fuel) fun _ =>
          Traced.emits_bind closes fun _ => returns true
      · exact (returns false).logs nothing
    · exact (returns false).logs nothing
  exact (created state).1

/-- Two places for one name in one directory are two paths to the directory. -/
theorem addsOnce_of_onePath
    (onePath : Graph.OnePath graph.step graph.root fun dir => graph.names dir ≠ [])
    (presents : graph.Presents fs metaFnc root) (zip : Libzip) (state : CreateState) :
    graph.AddsOnce fs zip metaFnc root state := by
  intro fuel
  refine (nodup_addedPlaces presents fuel state).imp ?_
  rintro first second different dir name ⟨path, rfl, reached, listed⟩ ⟨other, rfl, again, -⟩
  have same := onePath path other dir reached again (List.ne_nil_of_mem listed)
  exact different (by rw [same])

end MyappsCommon.Utility.Archive
