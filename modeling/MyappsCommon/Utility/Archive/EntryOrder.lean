import MyappsCommon.Utility.Archive.PartialArchive

/-! # The order of the entries

Entries with places of their own can be extracted when no entry comes before its directory.
What is left does not depend on their order.  An archive of what has been extracted has the
entries that were there before, in the order of the walk.
-/

namespace MyappsCommon.Utility.Archive

open MyappsCommon.Lib

/-- Nothing stands where the entries lead, and no two of them lead to the same place. -/
structure Fresh (cwd : List Bytes) (root : Bytes) (files : Files Bytes Bytes)
    (entries : List ZipEntry) : Prop where
  distinct : ((entries.filterMap (ZipEntry.item cwd root)).map Prod.fst).Nodup
  vacant : ∀ item ∈ entries.filterMap (ZipEntry.item cwd root), files item.1 = none

section

variable {cwd : List Bytes} {root : Bytes} {files : Files Bytes Bytes}
  {entries others : List ZipEntry}

theorem Fresh.perm (fresh : Fresh cwd root files entries) (same : entries.Perm others) :
    Fresh cwd root files others where
  distinct := ((same.filterMap _).map Prod.fst).nodup_iff.mp fresh.distinct
  vacant item member := fresh.vacant item ((same.filterMap _).symm.subset member)

theorem Fresh.unpack_iff (fresh : Fresh cwd root files entries) {final : Files Bytes Bytes} :
    Files.unpack (entries.filterMap (ZipEntry.item cwd root)) files = some final ↔
      Files.ParentsFirst files (entries.filterMap (ZipEntry.item cwd root)) ∧
        final = Files.putAll (entries.filterMap (ZipEntry.item cwd root)) files := by
  rw [Files.unpack_eq_createAll fresh.distinct fresh.vacant,
    Files.createAll_iff fresh.distinct fresh.vacant]

theorem foldl_declared_perm (same : entries.Perm others) (size : UInt64) :
    entries.foldl (fun total entry => total + entry.declared) size =
      others.foldl (fun total entry => total + entry.declared) size := by
  refine same.foldl_eq' (fun first _ second _ total => ?_) size
  rw [UInt64.add_assoc, UInt64.add_assoc, UInt64.add_comm first.declared]

end

section

variable {ω : Type} {os : Os ω} {cwd : List Bytes} {root : Bytes} {view : ω → Files Bytes Bytes}
  {start : ω} (acts : os.ActsOn cwd view) (obliges : os.Obliges cwd view)
  (zipOpen : Bytes → Option (List ZipEntry)) (ready : Ready cwd root (view start))
include acts obliges ready

/-- Where nothing is in the way, no entry may come before its directory. -/
theorem archiveExtract_fresh {zipPath : Bytes} (plain : PlainNames ((zipOpen zipPath).getD []))
    (fresh : Fresh cwd root (view start) ((zipOpen zipPath).getD []))
    (spill : Bytes → Bytes → Nat) (size : UInt64) :
    let extracted := (archiveExtract os spill root zipOpen zipPath).run ⟨⟨start, none⟩, size⟩
    let entries := (zipOpen zipPath).getD []
    let items := entries.filterMap (ZipEntry.item cwd root)
    (extracted.outcome = .ok true ↔
        (∀ entry ∈ entries, entry.Whole) ∧ Files.ParentsFirst (view start) items) ∧
      (extracted.outcome = .ok true →
        view extracted.state.env.os = Files.putAll items (view start) ∧
          extracted.state.runcompressedSize =
            entries.foldl (fun total entry => total + entry.declared) size) := by
  intro extracted entries items
  obtain ⟨success, left, size', outcome, state, shown, -⟩ :=
    archiveExtract_answers acts obliges zipOpen zipPath ready plain spill size
  rw [show extracted.outcome = .ok success from outcome, show extracted.state = _ from state]
  refine ⟨⟨fun succeeded => ?_, ?_⟩, fun succeeded => ?_⟩
  · obtain rfl : success = true := Outcome.ok.inj succeeded
    obtain ⟨whole, unpacked, -⟩ := (archiveExtract_true_iff spill).mp shown
    exact ⟨whole, (fresh.unpack_iff.mp unpacked).1⟩
  · rintro ⟨whole, order⟩
    obtain ⟨rfl, -⟩ := shown.unique ((archiveExtract_true_iff spill).mpr
      ⟨whole, fresh.unpack_iff.mpr ⟨order, rfl⟩, rfl⟩)
    rfl
  · obtain rfl : success = true := Outcome.ok.inj succeeded
    obtain ⟨-, unpacked, counted⟩ := (archiveExtract_true_iff spill).mp shown
    exact ⟨(fresh.unpack_iff.mp unpacked).2, counted⟩

/-- Two archives with the same entries, extracted to where nothing is in the way: each is
extracted exactly when its entries are whole and none comes before its directory, and if both
are, the same files and the same counter are left. -/
theorem archive_extract_order (first second : Bytes)
    (same : ((zipOpen first).getD []).Perm ((zipOpen second).getD []))
    (plain : PlainNames ((zipOpen first).getD []))
    (fresh : Fresh cwd root (view start) ((zipOpen first).getD []))
    (spill : Bytes → Bytes → Nat) (size : UInt64) :
    let extracted := fun zipPath => (archiveExtract os spill root zipOpen zipPath).run
      ⟨⟨start, none⟩, size⟩
    let inOrder := fun zipPath => Files.ParentsFirst (view start)
      (((zipOpen zipPath).getD []).filterMap (ZipEntry.item cwd root))
    let whole := ∀ entry ∈ (zipOpen first).getD [], entry.Whole
    ((extracted first).outcome = .ok true ↔ whole ∧ inOrder first) ∧
      ((extracted second).outcome = .ok true ↔ whole ∧ inOrder second) ∧
      (whole → inOrder first → inOrder second →
        view (extracted first).state.env.os = view (extracted second).state.env.os ∧
          (extracted first).state.runcompressedSize =
            (extracted second).state.runcompressedSize) := by
  intro extracted inOrder whole
  have wholeSecond : (∀ entry ∈ (zipOpen second).getD [], entry.Whole) ↔ whole :=
    ⟨fun all entry member => all entry (same.subset member),
      fun all entry member => all entry (same.symm.subset member)⟩
  have plainSecond : PlainNames ((zipOpen second).getD []) :=
    fun entry member => plain entry (same.symm.subset member)
  obtain ⟨firstTrue, firstLeft⟩ :=
    archiveExtract_fresh acts obliges zipOpen ready plain fresh spill size
  obtain ⟨secondTrue, secondLeft⟩ :=
    archiveExtract_fresh acts obliges zipOpen ready plainSecond (fresh.perm same) spill size
  rw [wholeSecond] at secondTrue
  refine ⟨firstTrue, secondTrue, fun all orderFirst orderSecond => ?_⟩
  -- neither the nodes nor the sum of the sizes depend on the order
  obtain ⟨filesFirst, sizeFirst⟩ := firstLeft (firstTrue.mpr ⟨all, orderFirst⟩)
  obtain ⟨filesSecond, sizeSecond⟩ := secondLeft (secondTrue.mpr ⟨all, orderSecond⟩)
  constructor
  · rw [filesFirst, filesSecond, Files.putAll_perm (same.filterMap _) fresh.distinct]
  · rw [sizeFirst, sizeSecond, foldl_declared_perm same]

end

/-- The directory `d/` and the file `d/f`, and the other way round. -/
def nestedOrders (zipPath : Bytes) : Option (List ZipEntry) :=
  some (if zipPath = [97] then nestedViews else nestedViews.reverse)

theorem archive_extract_order_nested :
    ((archiveExtract (fileSystemOs []) (fun _ _ => 0) [120] nestedOrders [97]).run
        ⟨⟨nestedFiles, none⟩, 0⟩).outcome = .ok true ∧
      ((archiveExtract (fileSystemOs []) (fun _ _ => 0) [120] nestedOrders [98]).run
        ⟨⟨nestedFiles, none⟩, 0⟩).outcome ≠ .ok true := by
  have same : ((nestedOrders [97]).getD []).Perm ((nestedOrders [98]).getD []) :=
    (List.reverse_perm nestedViews).symm
  have fresh : Fresh [] [120] nestedFiles ((nestedOrders [97]).getD []) :=
    ⟨by decide, by decide⟩
  refine ⟨rfl, fun success => ?_⟩
  obtain ⟨-, order⟩ := (archive_extract_order fileSystemOs_actsOn fileSystemOs_obliges nestedOrders
    nestedFiles_ready [97] [98] same nestedViews_plain fresh (fun _ _ => 0) 0).2.1.mp success
  rcases order [] _ _ rfl with there | earlier
  · revert there
    decide
  · cases earlier

/-! ## Archiving what has been extracted -/

/-- Entry names as `archive_create` makes them, for places of their own. -/
structure PlainMembers (items : List (List Bytes × Node Bytes)) : Prop where
  nonempty : ∀ item ∈ items, item.1 ≠ []
  named : ∀ item ∈ items, ∀ name ∈ item.1, pathFormat.IsName name
  distinct : (items.map Prod.fst).Nodup

/-- A path of names leads down by these names. -/
theorem follow_joined {names : List Bytes} (nonempty : names ≠ [])
    (named : ∀ name ∈ names, pathFormat.IsName name) (place : List Bytes) :
    pathFormat.follow place (joined names) = place ++ names := by
  have notHere : pathFormat.here ∉ names := fun member => (named _ member).notHere rfl
  have notParent : pathFormat.parent ∉ names := fun member => (named _ member).notParent rfl
  rw [Path.Format.follow, components_joined nonempty named,
    Path.foldl_enter_plain notHere notParent, List.filter_eq_self.mpr]
  exact fun name member => decide_eq_true (named name member).nonempty

theorem denotes_plain {cwd : List Bytes} {root : Bytes} {item : List Bytes × Node Bytes}
    (nonempty : item.1 ≠ []) (named : ∀ name ∈ item.1, pathFormat.IsName name) :
    Denotes (extractPlace cwd root) (memberOf item) (rootPlace cwd root ++ item.1, item.2) := by
  obtain ⟨place, node⟩ := item
  have leads := extractPlace_leadsTo cwd root
  have file : extractPlace cwd root (joined place) = rootPlace cwd root ++ place :=
    (leads (joined place)).trans (follow_joined nonempty named _)
  have directory : extractPlace cwd root (joined place ++ [slash]) =
      rootPlace cwd root ++ place := by
    rw [← file]
    refine (leads (joined place ++ [slash])).trans (.trans ?_ (leads (joined place)).symm)
    change pathFormat.follow _ (joined place ++ pathFormat.separator :: []) = _
    rw [Path.follow_append, Path.follow_nil]
  -- the last name is what the path ends with
  obtain ⟨front, last, rfl⟩ : ∃ front last, place = front ++ [last] :=
    ⟨_, _, (List.dropLast_append_getLast nonempty).symm⟩
  have isName := named last (by simp)
  have ends : ∃ before, joined (front ++ [last]) = before ++ last := by
    by_cases top : front = []
    · exact ⟨[], by rw [top]; exact List.intercalate_singleton⟩
    · exact ⟨_, joined_concat top last⟩
  obtain ⟨before, ends⟩ := ends
  cases node with
  | dir => exact ⟨directory, rfl, by simp [memberOf], endsInSlash_append_slash _⟩
  | file content =>
    refine ⟨file, rfl, ?_, ?_⟩
    · simp [memberOf, ends, isName.nonempty]
    · simp only [memberOf, ends]
      exact endsInSlash_append_name isName.nonempty isName.whole before

theorem memberTotal_perm {members others : List (Bytes × Option Bytes)}
    (same : members.Perm others) : memberTotal members = memberTotal others := by
  induction same with
  | nil => rfl
  | cons member _ ih => rw [memberTotal, memberTotal, ih]
  | swap first second rest =>
    simp only [memberTotal]
    rw [← UInt64.add_assoc, UInt64.add_comm (memberSize _), UInt64.add_assoc]
  | trans _ _ ih₁ ih₂ => exact ih₁.trans ih₂

/-- A tree that holds just these nodes is walked over just them. -/
theorem walk_perm {files final : Files Bytes Bytes} {place : List Bytes}
    {items : List (List Bytes × Node Bytes)} {tree : DirTree} (plain : PlainMembers items)
    (empty : EmptyDirectory files place) (left : final = Files.putAll (placedAt place items) files)
    (holds : ∀ first below, final (place ++ first :: below) = tree.lookup (first :: below))
    (distinct : tree.Distinct) :
    (tree.walk []).Perm items := by
  have walked := Files.nodup_of_descending (Forest.walk_descending distinct [])
  rw [List.perm_ext_iff_of_nodup (.of_map _ walked) (.of_map _ plain.distinct)]
  rintro ⟨path, node⟩
  cases path with
  | nil =>
    constructor
    · intro member
      exact absurd rfl (ne_nil_of_part (List.Sublist.refl _) member)
    · intro member
      exact absurd rfl (plain.nonempty _ member)
  | cons first below =>
    rw [Forest.mem_walk_iff distinct, ← holds, left,
      putAll_placedAt_iff empty plain.distinct]

/-- On an operating system that obliges, an archive with plain names that has been extracted into
an empty directory and is made again there, all calls succeeding, has the same entries as before,
and both calls count the same. -/
theorem archive_repack {ω : Type} {os : Os ω} {cwd : List Bytes} {view : ω → Files Bytes Bytes}
    (acts : os.ActsOn cwd view) (obliges : os.Obliges cwd view) {root : Bytes} {start : ω}
    (ready : Ready cwd root (view start)) (empty : EmptyDirectory (view start) (rootPlace cwd root))
    {zipOpen : Bytes → Option (List ZipEntry)} {zipPath : Bytes} {views : List ZipEntry}
    (opens : zipOpen zipPath = some views) {stored : List ArchiveEntry}
    (presents : List.Forall₂ Presents stored views) {items : List (List Bytes × Node Bytes)}
    (written : stored.map (fun entry => (entry.name, entry.data)) = items.map memberOf)
    (plain : PlainMembers items) (something : stored ≠ []) (spill : Bytes → Bytes → Nat)
    (size : UInt64)
    (success : ((archiveExtract os spill root zipOpen zipPath).run
      ⟨⟨start, none⟩, size⟩).outcome = .ok true)
    {fs : SourceFs} {tree : DirTree} (shows : ShowsRoot fs root tree)
    (named : tree.AllNames pathFormat.IsName) (distinct : tree.Distinct)
    (holds : ∀ first below, view ((archiveExtract os spill root zipOpen zipPath).run
      ⟨⟨start, none⟩, size⟩).state.env.os (rootPlace cwd root ++ first :: below) =
        tree.lookup (first :: below))
    {zip : Libzip} (succeeds : CreateSucceeds zip (withSlash root) tree)
    (leaves : Bytes → Bytes → Bytes) {fuel : Nat} (enough : tree.depth ≤ fuel)
    (createSize : UInt64) :
    let extracted := (archiveExtract os spill root zipOpen zipPath).run ⟨⟨start, none⟩, size⟩
    let created := (archiveCreate fs zip (fun path data => .ok (leaves path data)) fuel root).run
      (createStart createSize)
    created.outcome = .ok true ∧
      (∃ again, created.state.archive = some again ∧
        (again.map fun entry => (entry.name, entry.data)).Perm
          (stored.map fun entry => (entry.name, entry.data))) ∧
      extracted.state.runcompressedSize = size + created.state.runcompressedSize := by
  intro extracted created
  -- what the extraction has left
  have denote : List.Forall₂ (Denotes (extractPlace cwd root))
      (stored.map fun entry => (entry.name, entry.data)) (placedAt (rootPlace cwd root) items) := by
    rw [written, placedAt, List.forall₂_map_left_iff, List.forall₂_map_right_iff,
      List.forall₂_same]
    exact fun item member => denotes_plain (plain.nonempty item member) (plain.named item member)
  obtain ⟨-, same⟩ := items_of_presents presents denote
  have plainNames : PlainNames ((zipOpen zipPath).getD []) := by
    rw [opens]
    exact plainNames_of_written presents written plain.nonempty plain.named
  obtain ⟨value, final, size', outcome, left, shown, -⟩ :=
    archiveExtract_answers acts obliges zipOpen zipPath ready plainNames spill size
  obtain rfl : true = value := Outcome.ok.inj (success.symm.trans outcome)
  obtain ⟨-, unpacked, counted⟩ := (archiveExtract_true_iff spill).mp shown
  rw [opens, Option.getD_some] at unpacked counted
  rw [same] at unpacked
  rw [foldl_declared presents, written] at counted
  have put := Files.unpack_eq_putAll unpacked
  -- the nodes that the walk meets there
  have extractedLeft : extracted.state = _ := left
  rw [left] at holds
  have walked := walk_perm plain empty put holds distinct
  have members_eq : (members tree []).Perm (items.map memberOf) := by
    rw [members_eq_map spells_root]
    exact walked.map _
  have nonempty : tree ≠ .nil := by
    rintro rfl
    have nothing : items = [] := List.nil_perm.mp walked
    rw [nothing, List.map_nil, List.map_eq_nil_iff] at written
    exact something written
  have answers : Answers fun path data => .ok (leaves path data) :=
    fun path => ⟨leaves path [], rfl⟩
  obtain ⟨made, again, givesAgain, archive, againWritten, counter⟩ :=
    archiveCreate_stores shows named nonempty succeeds answers enough createSize
  obtain ⟨createdTrue, createdLeft⟩ := Traced.gives_iff.mp givesAgain
  refine ⟨createdTrue, ⟨again, ?_, ?_⟩, ?_⟩
  · exact (congrArg CreateState.archive createdLeft).trans archive
  · rw [againWritten, written]
    exact members_eq
  · have createdSize : created.state.runcompressedSize = made.runcompressedSize :=
      congrArg CreateState.runcompressedSize createdLeft
    rw [extractedLeft, createdSize, counted, counter, counted_eq_memberTotal succeeds.adds,
      memberTotal_perm members_eq]

/-- The listing of `x` after the extraction. -/
def repackListing (place : List Bytes) : List Bytes :=
  if place = [[120]] then [[100]] else [[102]]

theorem archive_repack_nested :
    let extracted := (archiveExtract (fileSystemOs []) (fun _ _ => 0) [120] nestedOrders [97]).run
      ⟨⟨nestedFiles, none⟩, 5⟩
    let created := (archiveCreate (SourceFs.ofFiles [] extracted.state.env.os repackListing)
      (zipAdding true) (fun _ _ => .ok []) 1 [120]).run (createStart 0)
    created.outcome = .ok true ∧
      (∃ again, created.state.archive = some again ∧
        (again.map fun entry => (entry.name, entry.data)).Perm
          [([100, 47], none), ([100, 47, 102], some [65])]) ∧
      extracted.state.runcompressedSize = 5 + created.state.runcompressedSize := by
  let stored : List ArchiveEntry := [⟨[100, 47], none, []⟩, ⟨[100, 47, 102], some [65], []⟩]
  have presents : List.Forall₂ Presents stored nestedViews :=
    .cons ⟨⟨_, rfl, rfl, rfl⟩, nofun⟩ (.cons ⟨⟨_, rfl, rfl, rfl⟩, fun content data =>
      ⟨_, rfl, Option.some.inj data⟩⟩ .nil)
  have isName : ∀ name ∈ [([100] : Bytes), [102]], pathFormat.IsName name := by
    intro name member
    rcases List.mem_cons.mp member with rfl | member
    · exact ⟨by decide, by decide, by decide, by decide⟩
    · obtain rfl := List.mem_singleton.mp member
      exact ⟨by decide, by decide, by decide, by decide⟩
  have plain : PlainMembers [([[100]], .dir), ([[100], [102]], .file [65])] := by
    refine ⟨by simp, ?_, by decide⟩
    intro item member name part
    refine isName name ?_
    rcases List.mem_cons.mp member with rfl | member
    · exact List.mem_cons.mpr (.inl (List.mem_singleton.mp part))
    · obtain rfl := List.mem_singleton.mp member
      exact part
  have opens : nestedOrders [97] = some nestedViews := rfl
  have gives := archiveExtract_builds nestedTree_named nestedTree_distinct
    nestedFiles_empty opens presents rfl (fun _ _ => 0) 5
  obtain ⟨success, left⟩ := Traced.gives_iff.mp gives
  have holds : HoldsTree ((archiveExtract (fileSystemOs []) (fun _ _ => 0) [120] nestedOrders
      [97]).run ⟨⟨nestedFiles, none⟩, 5⟩).state.env.os repackListing (rootPlace [] [120])
      nestedTree := by
    rw [left]
    refine ⟨by decide, fun first below => ?_, rfl, ⟨rfl, trivial, trivial⟩⟩
    simp only [Files.graft_below, nestedFiles_empty.vacant, Option.or_none]
  have shows := showsRoot_ofFiles (List.cons_ne_nil 120 []) holds nestedTree_named
    nestedTree_distinct
  exact archive_repack fileSystemOs_actsOn fileSystemOs_obliges nestedFiles_ready
    nestedFiles_empty opens presents rfl plain (List.cons_ne_nil _ _) (fun _ _ => 0) 5 success
    shows nestedTree_named nestedTree_distinct holds.content
    ⟨rfl, ⟨rfl, ⟨⟨rfl, rfl⟩, trivial⟩, trivial⟩, rfl⟩ (fun _ _ => []) (Nat.le_refl 1) 0

end MyappsCommon.Utility.Archive
