import MyappsCommon.Utility.Archive.BoundedWalk

/-! # The paths that a walk goes along

Where no query fails, a walk that ends has gone along all paths of the file system; where libzip
takes everything it has added each name once for each path to its directory.
-/

namespace MyappsCommon.Utility.Archive

open MyappsCommon.Lib

section

variable (fs : SourceFs) (zip : Libzip) (metaFnc : CreateFileMetaFunction) (root : Bytes)
  (fuel : Nat)

/-- One turn of a loop. -/
def turn : Bytes → CreateM Unit :=
  addEntry fs zip metaFnc (zipAddDir fs zip metaFnc (withSlash root).length fuel)
    (withSlash root).length

def turns (place : Bytes) : CreateM Unit := forEachEntry fs place (turn fs zip metaFnc root fuel)

end

/-- libzip opens an archive and takes each entry. -/
structure Libzip.TakesAll (zip : Libzip) : Prop where
  opens : zip.opens = true
  sourceFile : ∀ path, zip.sourceFile path = true
  fileAdd : ∀ name, zip.fileAdd name = true
  dirAdd : ∀ name, zip.dirAdd name = true

variable {graph : DirGraph} {fs : SourceFs} {zip : Libzip} {metaFnc : CreateFileMetaFunction}
  {root : Bytes} {fuel : Nat} {path : List Bytes} {dir child : graph.Dir} {name : Bytes}

/-- A name is asked about and known. -/
theorem isDirectory_of_neverFails (presents : graph.Presents fs metaFnc root)
    (faultless : graph.NeverFails fs metaFnc root) (reached : graph.follow path = some dir)
    (listed : name ∈ graph.names dir) :
    fs.isDirectory (withSlash root ++ (within path ++ name)) =
      .ok (graph.target dir name).isSome := by
  rcases presents.kind path dir name reached listed with known | thrown
  · exact known
  · exact absurd thrown (faultless.kind path dir name reached listed)

theorem turn_of_file (presents : graph.Presents fs metaFnc root)
    (faultless : graph.NeverFails fs metaFnc root) (reached : graph.follow path = some dir)
    (listed : name ∈ graph.names dir) (file : graph.target dir name = none) :
    turn fs zip metaFnc root fuel (withSlash root ++ (within path ++ name)) =
      (zipAddFile fs zip metaFnc (withSlash root).length
        (withSlash root ++ (within path ++ name)) >>= fun _ => pure ()) := by
  have known := isDirectory_of_neverFails presents faultless reached listed
  rw [file] at known
  exact addEntry_of_file known

theorem turn_of_directory (presents : graph.Presents fs metaFnc root)
    (faultless : graph.NeverFails fs metaFnc root) (reached : graph.follow path = some dir)
    (entered : graph.step dir name = some child) :
    turn fs zip metaFnc root fuel (withSlash root ++ (within path ++ name)) =
      (zipAddDir fs zip metaFnc (withSlash root).length fuel
        (withSlash root ++ (within path ++ name)) >>= fun _ => pure ()) := by
  obtain ⟨listed, target⟩ := DirGraph.step_eq_some_iff.mp entered
  have known := isDirectory_of_neverFails presents faultless reached listed
  rw [target] at known
  exact addEntry_of_directory known

/-- A directory is added, and then gone through. -/
theorem run_zipAddDir_succ (place : Bytes) (state : CreateState) :
    (zipAddDir fs zip metaFnc (withSlash root).length (fuel + 1) place).run state =
      (Traced.emit (.dirAdd (place.drop (withSlash root).length)
          (zip.dirAdd (place.drop (withSlash root).length))) >>= fun _ =>
        Traced.modifyState (afterDirAdd zip (place.drop (withSlash root).length)) >>= fun _ =>
          turns fs zip metaFnc root fuel place >>= fun _ => pure true).run state := by
  cases accepts : zip.dirAdd (place.drop (withSlash root).length) with
  | true | false => simp [zipAddDir, afterDirAdd, accepts, turns, turn]

/-- The names of a directory are listed at a place. -/
structure Lists (graph : DirGraph) (fs : SourceFs) (root : Bytes) (path : List Bytes)
    (dir : graph.Dir) (place : Bytes) : Prop where
  reached : graph.follow path = some dir
  listed : ListedFrom (fs.list place) (graph.names dir)
  complete : (fs.list place).throws = false
  listsAt : ListsAt root path place

theorem lists_root (presents : graph.Presents fs metaFnc root)
    (faultless : graph.NeverFails fs metaFnc root) :
    Lists graph fs root [] graph.root (withSlash root) :=
  ⟨DirGraph.follow_nil, presents.listed, faultless.complete, listsAt_root root⟩

theorem lists_below (presents : graph.Presents fs metaFnc root)
    (faultless : graph.NeverFails fs metaFnc root) (reached : graph.follow path = some dir)
    (entered : graph.step dir name = some child) :
    Lists graph fs root (path ++ [name]) child (withSlash root ++ (within path ++ name)) :=
  ⟨DirGraph.follow_concat reached entered, presents.listedBelow _ _ _ _ reached entered,
    faultless.completeBelow _ _ _ _ reached entered,
    listsAt_below root path (graph.named dir name (DirGraph.step_eq_some_iff.mp entered).1)⟩

/-! ## Nothing raises -/

theorem avoids_turns_of (presents : graph.Presents fs metaFnc root)
    (faultless : graph.NeverFails fs metaFnc root) {place : Bytes}
    (lists : Lists graph fs root path dir place)
    (inside : ∀ name child, graph.step dir name = some child →
      Traced.Avoids .raised (zipAddDir fs zip metaFnc (withSlash root).length fuel
        (withSlash root ++ (within path ++ name)))) :
    Traced.Avoids .raised (turns fs zip metaFnc root fuel place) := by
  refine avoids_forEachEntry (fun throws => ?_) fun name given => ?_
  · rw [lists.complete] at throws
    exact absurd throws Bool.false_ne_true
  · have listed := lists.listed.part given
    rw [lists.listsAt]
    refine avoids_addEntry (isDirectory_of_neverFails presents faultless lists.reached listed)
      (fun directory => ?_) fun _ => avoids_zipAddFile (fun _ => faultless.sized _)
        fun _ _ => faultless.answered _ _
    obtain ⟨child, target⟩ := Option.isSome_iff_exists.mp directory
    exact inside name child (DirGraph.step_eq_some_iff.mpr ⟨listed, target⟩)

theorem avoids_turns (presents : graph.Presents fs metaFnc root)
    (faultless : graph.NeverFails fs metaFnc root) {place : Bytes}
    (lists : Lists graph fs root path dir place) :
    Traced.Avoids .raised (turns fs zip metaFnc root fuel place) := by
  induction fuel generalizing path dir place with
  | zero =>
    exact avoids_turns_of presents faultless lists fun _ _ _ => Traced.avoids_outOfSteps nofun
  | succ fuel ih =>
    refine avoids_turns_of presents faultless lists fun name child entered => ?_
    exact avoids_zipAddDir (ih (lists_below presents faultless lists.reached entered))

/-! ## What has been gone along -/

theorem mem_addedPlaces {step : CreateStep} {place : List Bytes} {trace : List CreateStep}
    (logged : step ∈ trace) (added : step.addedPlace = some place) :
    place ∈ addedPlaces trace := List.mem_filterMap.mpr ⟨step, logged, added⟩

theorem addedPlaces_mono {first second : List CreateStep} (part : first ⊆ second) :
    addedPlaces first ⊆ addedPlaces second := by
  intro place member
  obtain ⟨step, logged, added⟩ := List.mem_filterMap.mp member
  exact mem_addedPlaces (part logged) added

variable {place : Bytes} {state final : CreateState} {trace : List CreateStep}

/-- Every listed name has had its turn. -/
theorem turn_of_turns (lists : Lists graph fs root path dir place)
    (ran : (turns fs zip metaFnc root fuel place).run state = ⟨.ok (), final, trace⟩)
    (listed : name ∈ graph.names dir) :
    ∃ before after events,
      (turn fs zip metaFnc root fuel (withSlash root ++ (within path ++ name))).run before =
        ⟨.ok (), after, events⟩ ∧ events ⊆ trace := by
  obtain ⟨_, between, first, second, looped, -, rfl⟩ := Traced.bind_ok_iff.mp ran
  have given := lists.listed.whole lists.complete listed
  obtain ⟨before, after, events, here, part⟩ := Traced.ran_of_forEach looped name given
  rw [lists.listsAt] at here
  exact ⟨before, after, events, here, List.Subset.trans part (List.subset_append_left _ _)⟩

/-- In its turn a directory is added, if libzip takes it, and gone through. -/
theorem turns_of_turn (presents : graph.Presents fs metaFnc root)
    (faultless : graph.NeverFails fs metaFnc root) (reached : graph.follow path = some dir)
    (entered : graph.step dir name = some child)
    (ran : (turn fs zip metaFnc root fuel (withSlash root ++ (within path ++ name))).run state =
      ⟨.ok (), final, trace⟩) :
    (zip.TakesAll → path ++ [name] ∈ addedPlaces trace) ∧
      ∃ less before after events, fuel = less + 1 ∧
        (turns fs zip metaFnc root less (withSlash root ++ (within path ++ name))).run before =
          ⟨.ok (), after, events⟩ ∧ events ⊆ trace := by
  have listed := (DirGraph.step_eq_some_iff.mp entered).1
  rw [turn_of_directory presents faultless reached entered] at ran
  obtain ⟨_, between, first, _, inside, -, rfl⟩ := Traced.bind_ok_iff.mp ran
  cases fuel with
  | zero => exact absurd (congrArg Result.outcome inside) nofun
  | succ less =>
    rw [run_zipAddDir_succ] at inside
    obtain ⟨_, _, own, _, logged, rest, rfl⟩ := Traced.bind_ok_iff.mp inside
    obtain ⟨_, _, none, _, -, walked, rfl⟩ := Traced.bind_ok_iff.mp rest
    obtain ⟨_, _, events, _, through, -, rfl⟩ := Traced.bind_ok_iff.mp walked
    rw [Traced.run_emit] at logged
    cases logged
    refine ⟨fun takes => mem_addedPlaces (List.mem_append_left _ List.mem_cons_self) ?_,
      less, _, _, events, rfl, through, fun step member => by simp [member]⟩
    rw [takes.dirAdd]
    exact addedPlace_dirAdd reached listed

/-- A file that libzip takes is logged as added. -/
theorem fileAdd_mem_of_ok (takes : zip.TakesAll) {basePathLen : Nat} {result : Bool}
    (ran : (zipAddFile fs zip metaFnc basePathLen place).run state = ⟨.ok result, final, trace⟩) :
    .fileAdd (place.drop basePathLen) true ∈ trace := by
  rw [zipAddFile, takes.sourceFile, if_pos rfl] at ran
  obtain ⟨_, _, _, _, -, sized, rfl⟩ := Traced.bind_ok_iff.mp ran
  obtain ⟨_, _, _, _, -, counted, rfl⟩ := Traced.bind_ok_iff.mp sized
  obtain ⟨_, _, _, _, -, adds, rfl⟩ := Traced.bind_ok_iff.mp counted
  obtain ⟨_, _, _, _, logged, -, rfl⟩ := Traced.bind_ok_iff.mp adds
  rw [Traced.run_emit, takes.fileAdd] at logged
  cases logged
  simp

/-- In its turn a name is added. -/
theorem added_of_turn (presents : graph.Presents fs metaFnc root)
    (faultless : graph.NeverFails fs metaFnc root) (takes : zip.TakesAll)
    (reached : graph.follow path = some dir) (listed : name ∈ graph.names dir)
    (ran : (turn fs zip metaFnc root fuel (withSlash root ++ (within path ++ name))).run state =
      ⟨.ok (), final, trace⟩) : path ++ [name] ∈ addedPlaces trace := by
  cases target : graph.target dir name with
  | none =>
    rw [turn_of_file presents faultless reached listed target] at ran
    obtain ⟨_, between, first, _, inside, -, rfl⟩ := Traced.bind_ok_iff.mp ran
    exact mem_addedPlaces (List.mem_append_left _ (fileAdd_mem_of_ok takes inside))
      (addedPlace_fileAdd reached listed)
  | some child =>
    exact (turns_of_turn presents faultless reached
      (DirGraph.step_eq_some_iff.mpr ⟨listed, target⟩) ran).1 takes

/-- A walk that ends has gone along each path, and has added the names at its end. -/
theorem along_of_turns (presents : graph.Presents fs metaFnc root)
    (faultless : graph.NeverFails fs metaFnc root) {way : List Bytes} {node : graph.Dir}
    (along : Graph.follow graph.step dir way = some node)
    (lists : Lists graph fs root path dir place)
    (ran : (turns fs zip metaFnc root fuel place).run state = ⟨.ok (), final, trace⟩) :
    way.length ≤ fuel ∧
      (zip.TakesAll → ∀ name ∈ graph.names node, path ++ way ++ [name] ∈ addedPlaces trace) := by
  induction way generalizing fuel path dir place state final trace with
  | nil =>
    obtain rfl : dir = node := Option.some.inj along
    refine ⟨Nat.zero_le _, fun takes name listed => ?_⟩
    obtain ⟨before, after, events, here, part⟩ := turn_of_turns lists ran listed
    rw [List.append_nil]
    exact addedPlaces_mono part
      (added_of_turn presents faultless takes lists.reached listed here)
  | cons first way ih =>
    obtain ⟨child, entered, further⟩ := Option.bind_eq_some_iff.mp along
    have listed := (DirGraph.step_eq_some_iff.mp entered).1
    obtain ⟨_, _, events, here, part⟩ := turn_of_turns lists ran listed
    obtain ⟨-, less, _, _, inner, rfl, inside, within⟩ :=
      turns_of_turn presents faultless lists.reached entered here
    obtain ⟨bound, added⟩ :=
      ih further (lists_below presents faultless lists.reached entered) inside
    refine ⟨Nat.succ_le_succ bound, fun takes name ends => ?_⟩
    have inTrace := addedPlaces_mono (List.Subset.trans within part) (added takes name ends)
    rwa [List.append_assoc path [first] way] at inTrace

theorem along_of_ended (presents : graph.Presents fs metaFnc root)
    (faultless : graph.NeverFails fs metaFnc root) (opens : zip.opens = true)
    (ended : ((archiveCreate fs zip metaFnc fuel root).run state).outcome ≠ .unfinished)
    {way : List Bytes} {node : graph.Dir} (along : graph.follow way = some node) :
    way.length ≤ fuel ∧
      (zip.TakesAll → ∀ name ∈ graph.names node, way ++ [name] ∈
        addedPlaces ((archiveCreate fs zip metaFnc fuel root).run state).trace) := by
  have lists := lists_root presents faultless
  have walked : ((turns fs zip metaFnc root fuel (withSlash root)).run
      { state with runcompressedSize := 0 }).outcome = .ok () := by
    cases outcome : ((turns fs zip metaFnc root fuel (withSlash root)).run
        { state with runcompressedSize := 0 }).outcome with
    | ok _ => rfl
    | raised => exact absurd outcome (avoids_turns presents faultless lists _)
    | unfinished =>
      exact absurd ((archiveCreate_directory fuel state opens faultless.directory).1 outcome) ended
  obtain ⟨_, trace, ran⟩ := Result.eq_of_outcome walked
  obtain ⟨bound, added⟩ := along_of_turns presents faultless along lists ran
  refine ⟨bound, fun takes name listed => addedPlaces_mono ?_ (added takes name listed)⟩
  have walk : walkFrom fs zip metaFnc fuel (withSlash root) =
      turns fs zip metaFnc root fuel (withSlash root) := rfl
  rw [run_archiveCreate_directory fuel state opens faultless.directory, walk, ran]
  intro step member
  simp [member]

/-! ## Where the walk ends -/

theorem noReturn_of_ends (presents : graph.Presents fs metaFnc root)
    (faultless : graph.NeverFails fs metaFnc root) (opens : zip.opens = true)
    (ends : WalkEnds fs zip metaFnc root state) : Graph.NoReturn graph.step graph.root := by
  obtain ⟨fuel, ended⟩ := ends
  exact Graph.noReturn_of_bounded fun path node reached =>
    (along_of_ended presents faultless opens ended reached).1

/-- Two paths to a directory with a name in it give that name two places. -/
theorem onePath_of_addsOnce (presents : graph.Presents fs metaFnc root)
    (faultless : graph.NeverFails fs metaFnc root) (takes : zip.TakesAll)
    (ends : WalkEnds fs zip metaFnc root state)
    (once : graph.AddsOnce fs zip metaFnc root state) :
    Graph.OnePath graph.step graph.root fun dir => graph.names dir ≠ [] := by
  obtain ⟨fuel, ended⟩ := ends
  intro first second node reached again lists
  obtain ⟨name, listed⟩ := List.exists_mem_of_ne_nil _ lists
  by_contra different
  have added :=
    (along_of_ended presents faultless takes.opens ended reached).2 takes name listed
  have addedAgain :=
    (along_of_ended presents faultless takes.opens ended again).2 takes name listed
  have apart := (once fuel).forall added addedAgain
    fun same => different (List.append_cancel_right same)
  exact apart node name ⟨first, rfl, reached, listed⟩ ⟨second, rfl, again, listed⟩

/-- Whatever fails, the recursion ends where no directory leads back to itself, and also adds
each name of a real directory once at most where the directories with names are reached by one
path each.  If no query fails and libzip opens the archive, or takes each entry too, then this is
the only way. -/
theorem walk_bounded_iff (presents : graph.Presents fs metaFnc root) (zip : Libzip)
    (state : CreateState) :
    (Graph.NoReturn graph.step graph.root → WalkEnds fs zip metaFnc root state) ∧
      (Graph.OnePath graph.step graph.root (fun dir => graph.names dir ≠ []) →
        WalkEnds fs zip metaFnc root state ∧ graph.AddsOnce fs zip metaFnc root state) ∧
      (graph.NeverFails fs metaFnc root →
        (zip.opens = true →
          (WalkEnds fs zip metaFnc root state ↔ Graph.NoReturn graph.step graph.root)) ∧
        (zip.TakesAll →
          (WalkEnds fs zip metaFnc root state ∧ graph.AddsOnce fs zip metaFnc root state ↔
            Graph.OnePath graph.step graph.root fun dir => graph.names dir ≠ []))) := by
  have ends (noReturn : Graph.NoReturn graph.step graph.root) :
      WalkEnds fs zip metaFnc root state := ends_of_noReturn noReturn presents zip state
  have once (onePath : Graph.OnePath graph.step graph.root fun dir => graph.names dir ≠ []) :
      WalkEnds fs zip metaFnc root state ∧ graph.AddsOnce fs zip metaFnc root state := by
    refine ⟨ends (Graph.noReturn_of_onePath onePath ?_),
      addsOnce_of_onePath onePath presents zip state⟩
    -- an edge has a name
    exact fun _ _ _ entered => List.ne_nil_of_mem (DirGraph.step_eq_some_iff.mp entered).1
  refine ⟨ends, once, fun faultless => ⟨fun opens => ⟨?_, ends⟩, fun takes => ⟨?_, once⟩⟩⟩
  · exact noReturn_of_ends presents faultless opens
  · exact fun ⟨ended, addedOnce⟩ =>
      onePath_of_addsOnce presents faultless takes ended addedOnce

def linkedNames (below : Bool) : List Bytes := [[if below then 97 else 100]]

theorem linkedNames_named (below : Bool) : ∀ name ∈ linkedNames below, pathFormat.IsName name := by
  intro name listed
  cases List.mem_singleton.mp listed
  cases below with
  | true | false => exact ⟨by decide, by decide, by decide, by decide⟩

/-- The root has a directory `d`, and that has a link `a` to the root. -/
def linkedBack : DirGraph where
  Dir := Bool
  finite := inferInstance
  root := false
  names := linkedNames
  target below _ := some (!below)
  distinct _ := List.nodup_singleton _
  named := linkedNames_named

theorem walk_bounded_linkedBack : ¬ WalkEnds (.ofGraph linkedBack [114]) (zipAdding true)
    (fun _ _ => .ok []) [114] (createStart 0) := by
  have bounded := walk_bounded_iff (ofGraph_presents linkedBack [114]) (zipAdding true)
    (createStart 0)
  rw [(bounded.2.2 (ofGraph_neverFails linkedBack [114])).1 rfl]
  exact fun noReturn => List.cons_ne_nil _ _ (noReturn [] false rfl [[100], [97]] rfl)

/-- No budget is enough, and `d` of the root is added again below the link. -/
theorem linkedBack_unbounded :
    linkedBack.Presents (.ofGraph linkedBack [114]) (fun _ _ => .ok []) [114] ∧
    (∀ fuel, ((archiveCreate (.ofGraph linkedBack [114]) (zipAdding true) (fun _ _ => .ok []) fuel
      [114]).run (createStart 0)).outcome = .unfinished) ∧
    addedPlaces ((archiveCreate (.ofGraph linkedBack [114]) (zipAdding true) (fun _ _ => .ok []) 3
      [114]).run (createStart 0)).trace = [[[100]], [[100], [97]], [[100], [97], [100]]] ∧
    linkedBack.Denotes [[100]] false [100] ∧
    linkedBack.Denotes [[100], [97], [100]] false [100] := by
  have start : Graph.follow linkedBack.step linkedBack.root [] = some false := rfl
  have back : Graph.follow linkedBack.step linkedBack.root [[100], [97]] = some false := rfl
  refine ⟨ofGraph_presents linkedBack [114], fun fuel => ?_, by decide, ?_, ?_⟩
  · by_contra ended
    obtain ⟨path, long, reached⟩ :=
      Graph.exists_long_path start back (List.cons_ne_nil _ _) (fuel + 1)
    have bound := (along_of_ended (ofGraph_presents linkedBack [114])
      (ofGraph_neverFails linkedBack [114]) rfl ended reached).1
    omega
  · exact ⟨[], rfl, rfl, by decide⟩
  · exact ⟨[[100], [97]], rfl, back, by decide⟩

end MyappsCommon.Utility.Archive
