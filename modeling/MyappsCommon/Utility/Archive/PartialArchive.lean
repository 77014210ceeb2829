import Mathlib.Data.List.Nodup
import MyappsCommon.Utility.Archive.Unpack

/-! # An archive that misses some of the nodes

`archive_create` goes on when libzip does not take a node, and tells nobody.  What it leaves
can be extracted exactly when no node has been added below a directory that has not.
-/

namespace MyappsCommon.Utility.Archive

open MyappsCommon.Lib

/-- The name that leads from the root to what stands at a place below it. -/
def joined (place : List Bytes) : Bytes := [slash].intercalate place

/-- The calls that add the node at a place below the root succeed. -/
def addsNode (zip : Libzip) (base : Bytes) (item : List Bytes × Node Bytes) : Bool :=
  match item.2 with
  | .dir => zip.dirAdd (joined item.1)
  | .file _ => zip.sourceFile (base ++ joined item.1) && zip.fileAdd (joined item.1)

/-- The entry that is made of a node. -/
def memberOf (item : List Bytes × Node Bytes) : Bytes × Option Bytes :=
  match item.2 with
  | .dir => (joined item.1 ++ [slash], none)
  | .file content => (joined item.1, some content)

/-- The nodes that get into the archive, in the order of the walk. -/
def addedNodes (zip : Libzip) (base : Bytes) (tree : DirTree) : List (List Bytes × Node Bytes) :=
  (tree.walk []).filter (addsNode zip base)

/-- There is a node at a place below the root, and it gets into the archive. -/
def isAdded (zip : Libzip) (base : Bytes) (tree : DirTree) (place : List Bytes) : Bool :=
  match tree.lookup place with
  | none => false
  | some node => addsNode zip base (place, node)

theorem joined_concat {place : List Bytes} (nonempty : place ≠ []) (name : Bytes) :
    joined (place ++ [name]) = joined place ++ [slash] ++ name := by
  unfold joined
  induction place with
  | nil => exact absurd rfl nonempty
  | cons first place ih =>
    by_cases last : place = []
    · simp [last]
    · rw [List.cons_append, List.intercalate_cons_of_ne_nil (by simp),
        List.intercalate_cons_of_ne_nil last, ih last]
      simp only [List.append_assoc]

theorem components_joined {place : List Bytes} (nonempty : place ≠ [])
    (named : ∀ name ∈ place, pathFormat.IsName name) :
    pathFormat.components (joined place) = place :=
  List.splitOn_intercalate slash (fun name member => (named name member).whole) nonempty

/-- The name of an entry that is made of a node has no `.` and no `..`. -/
theorem plain_memberOf {item : List Bytes × Node Bytes} (nonempty : item.1 ≠ [])
    (named : ∀ name ∈ item.1, pathFormat.IsName name) : pathFormat.Plain (memberOf item).1 := by
  obtain ⟨place, node⟩ := item
  have components : pathFormat.components (joined place) = place :=
    components_joined nonempty named
  have notHere : pathFormat.here ∉ place := fun member => (named _ member).notHere rfl
  have notParent : pathFormat.parent ∉ place := fun member => (named _ member).notParent rfl
  cases node with
  | dir =>
    -- behind the last separator there is an empty component
    have withLast : pathFormat.components (joined place ++ [slash]) = place ++ [[]] :=
      (List.splitOn_append_cons_self ..).trans
        (congrArg₂ (· ++ ·) components (List.splitOn_nil slash))
    refine ⟨by simp [memberOf], ?_, ?_⟩
    · rw [memberOf, withLast, List.mem_append, not_or]
      exact ⟨notHere, by decide⟩
    · rw [memberOf, withLast, List.mem_append, not_or]
      exact ⟨notParent, by decide⟩
  | file content =>
    refine ⟨fun empty => ?_, ?_, ?_⟩
    · have single : [[]] = place := (congrArg pathFormat.components empty).symm.trans components
      exact (named [] (single ▸ List.mem_singleton_self [])).nonempty rfl
    · rwa [memberOf, components]
    · rwa [memberOf, components]

/-- `within` is how names begin that lead into the directory at `place`. -/
def Spells (within : Bytes) (place : List Bytes) : Prop :=
  ∀ name, joined (place ++ [name]) = within ++ name

theorem spells_root : Spells [] [] := fun _ => List.intercalate_singleton

theorem Spells.down {within : Bytes} {place : List Bytes} (spells : Spells within place)
    (name : Bytes) : Spells (within ++ name ++ [slash]) (place ++ [name]) := by
  intro child
  rw [joined_concat (by simp), spells]

/-! ## What is written -/

section

variable {fs : SourceFs} {zip : Libzip} {base : Bytes}

theorem members_eq_map {tree : DirTree} {within : Bytes} {place : List Bytes}
    (spells : Spells within place) : members tree within = (tree.walk place).map memberOf := by
  induction tree generalizing within place with
  | nil => rfl
  | file name content rest ih =>
    rw [members, Forest.walk, List.map_cons, ih spells, memberOf, spells]
  | dir name inside rest ihInside ihRest =>
    rw [members, Forest.walk, List.map_cons, List.map_append, ihInside (spells.down name),
      ihRest spells, memberOf, spells]

/-- `zip_close` writes the nodes that have been added. -/
theorem written_filter (zip : Libzip) (metaFnc : CreateFileMetaFunction) {tree : DirTree}
    {within : Bytes} {place : List Bytes} (shown : Shows fs base tree within)
    (named : tree.AllNames pathFormat.IsName) (spells : Spells within place) :
    ((added zip metaFnc base tree within).map (PendingEntry.write fs)).map
        (fun entry => (entry.name, entry.data)) =
      ((tree.walk place).filter (addsNode zip base)).map memberOf := by
  induction tree generalizing within place with
  | nil => rfl
  | file name content rest ih =>
    obtain ⟨⟨-, -, content_eq⟩, shownRest⟩ := shown
    rw [added, Forest.walk, List.map_append, List.map_append, ih shownRest named.2 spells,
      List.filter_cons]
    cases takes : zip.sourceFile (base ++ (within ++ name)) && zip.fileAdd (within ++ name) with
    | false => simp [fileEntries, addsNode, spells name, takes]
    | true =>
      simp [fileEntries, addsNode, spells name, takes, PendingEntry.write, content_eq, memberOf]
  | dir name inside rest ihInside ihRest =>
    obtain ⟨-, shownInside, shownRest⟩ := shown
    obtain ⟨isName, namedInside, namedRest⟩ := named
    have entryName := dirEntryName_name isName.nonempty isName.whole within
    rw [added, Forest.walk, List.map_append, List.map_append, List.map_append, List.map_append,
      ihInside shownInside namedInside (spells.down name), ihRest shownRest namedRest spells,
      List.filter_cons, List.filter_append]
    cases takes : zip.dirAdd (within ++ name) with
    | false => simp [dirEntries, addsNode, spells name, takes]
    | true => simp [dirEntries, addsNode, spells name, takes, PendingEntry.write, entryName,
        memberOf]

/-- Where every file that opens is also added, the counter is that of the entries. -/
theorem counted_of_accepts {tree : DirTree} {within : Bytes} {place : List Bytes}
    (spells : Spells within place)
    (accepts : ∀ name, zip.sourceFile (base ++ name) = true → zip.fileAdd name = true) :
    counted zip base tree within =
      memberTotal (((tree.walk place).filter (addsNode zip base)).map memberOf) := by
  induction tree generalizing within place with
  | nil => rfl
  | file name content rest ih =>
    rw [counted, Forest.walk, ih spells, List.filter_cons]
    cases opens : zip.sourceFile (base ++ (within ++ name)) with
    | false => simp [addsNode, spells name, opens]
    | true =>
      simp [addsNode, spells name, opens, accepts _ opens, memberOf, memberTotal, memberSize]
  | dir name inside rest ihInside ihRest =>
    rw [counted, Forest.walk, ihInside (spells.down name), ihRest spells, List.filter_cons,
      List.filter_append]
    cases takes : zip.dirAdd (within ++ name) with
    | false => simp [addsNode, spells name, takes, memberTotal_append]
    | true => simp [addsNode, spells name, takes, memberOf, memberTotal, memberSize,
        memberTotal_append]

end

/-! ## What is extracted -/

section

variable {cwd : List Bytes} {root : Bytes} {spill : Bytes → Bytes → Nat}

/-- What is read back of an entry has the node that the entry was made of. -/
theorem item_of_presents {stored : ArchiveEntry} {view : ZipEntry}
    {item : List Bytes × Node Bytes} (presents : Presents stored view)
    (denotes : Denotes (extractPlace cwd root) (stored.name, stored.data) item) :
    view.Whole ∧ view.item cwd root = some item := by
  obtain ⟨stat, described, name_eq, -⟩ := presents.stat
  have folder := presents.isFolder described denotes.named denotes.kind
  have resolved : extractPlace cwd root stat.name = item.1 := name_eq ▸ denotes.place
  have node := denotes.node
  rw [ZipEntry.item, described]
  cases data : stored.data with
  | none =>
    rw [data] at folder node
    refine ⟨fun other found file => ?_, by
      simp [folder, resolved, Prod.ext_iff, node, nodeOf]⟩
    rw [described, Option.some.injEq] at found
    rw [← found, folder] at file
    cases file
  | some content =>
    obtain ⟨file, opens, whole⟩ := presents.file content data
    rw [data] at folder node
    refine ⟨fun other found _ => ?_, ?_⟩
    · rw [described, Option.some.injEq] at found
      exact ⟨file, opens, found ▸ presents.delivered described (by rw [data, whole])⟩
    · simp [folder, opens, resolved, whole, Prod.ext_iff, node, nodeOf]

theorem items_of_presents {stored : List ArchiveEntry} {views : List ZipEntry}
    {items : List (List Bytes × Node Bytes)} (presents : List.Forall₂ Presents stored views)
    (denote : List.Forall₂ (Denotes (extractPlace cwd root))
      (stored.map fun entry => (entry.name, entry.data)) items) :
    (∀ view ∈ views, view.Whole) ∧ views.filterMap (ZipEntry.item cwd root) = items := by
  rw [List.forall₂_map_left_iff] at denote
  induction presents generalizing items with
  | nil =>
    cases denote
    exact ⟨nofun, rfl⟩
  | cons first presents ih =>
    cases denote with
    | cons denotes denote =>
      obtain ⟨whole, item⟩ := item_of_presents first denotes
      obtain ⟨wholeRest, rest⟩ := ih denote
      exact ⟨List.forall_mem_cons.mpr ⟨whole, wholeRest⟩,
        by rw [List.filterMap_cons_some item, rest]⟩

/-- Each node is in the root itself or has its directory among the nodes. -/
def HasParents (items : List (List Bytes × Node Bytes)) : Prop :=
  ∀ item ∈ items, item.1.dropLast = [] ∨ (item.1.dropLast, .dir) ∈ items

/-- The nodes, below another root. -/
def placedAt (root : List Bytes) (items : List (List Bytes × Node Bytes)) :
    List (List Bytes × Node Bytes) := items.map fun item => (root ++ item.1, item.2)

theorem placedAt_walk (place : List Bytes) (tree : DirTree) :
    placedAt place (tree.walk []) = tree.walk place := by
  rw [placedAt, ← Forest.walk_append, List.append_nil]

/-- A name in the archive leads to the place of its node. -/
theorem denotes_memberOf {tree : DirTree} (named : tree.AllNames pathFormat.IsName)
    {items : List (List Bytes × Node Bytes)} (part : items.Sublist (tree.walk [])) :
    List.Forall₂ (Denotes (extractPlace cwd root)) (items.map memberOf)
      (placedAt (rootPlace cwd root) items) := by
  have all := members_denote (extractPlace_leadsTo cwd root) named
  rw [members_eq_map spells_root, ← placedAt_walk (rootPlace cwd root), placedAt,
    List.forall₂_map_left_iff, List.forall₂_map_right_iff, List.forall₂_same] at all
  rw [placedAt, List.forall₂_map_left_iff, List.forall₂_map_right_iff, List.forall₂_same]
  exact fun item member => all item (part.subset member)

/-- What is read back of entries that are made of nodes has plain names. -/
theorem plainNames_of_written {stored : List ArchiveEntry} {views : List ZipEntry}
    {items : List (List Bytes × Node Bytes)} (presents : List.Forall₂ Presents stored views)
    (written : stored.map (fun entry => (entry.name, entry.data)) = items.map memberOf)
    (nonempty : ∀ item ∈ items, item.1 ≠ [])
    (named : ∀ item ∈ items, ∀ name ∈ item.1, pathFormat.IsName name) : PlainNames views := by
  have plain : ∀ entry ∈ stored, pathFormat.Plain entry.name := by
    intro entry member
    have made : (entry.name, entry.data) ∈ items.map memberOf :=
      written ▸ List.mem_map_of_mem member
    obtain ⟨item, listed, same⟩ := List.mem_map.mp made
    have name : entry.name = (memberOf item).1 := congrArg Prod.fst same.symm
    rw [name]
    exact plain_memberOf (nonempty item listed) (named item listed)
  -- libzip gives the names back as they have been written
  clear written
  induction presents with
  | nil => exact nofun
  | cons first presents ih =>
    rw [List.forall_mem_cons] at plain
    refine List.forall_mem_cons.mpr ⟨fun stat described => ?_, ih plain.2⟩
    obtain ⟨found, described', name, -⟩ := first.stat
    obtain rfl := Option.some.inj (described.symm.trans described')
    rw [name]
    exact plain.1

variable {tree : DirTree} {items : List (List Bytes × Node Bytes)} {files : Files Bytes Bytes}

theorem placedAt_descending (distinct : tree.Distinct) (part : items.Sublist (tree.walk []))
    (place : List Bytes) : Descending (placedAt place items) := by
  have whole := Forest.walk_descending distinct place
  rw [← placedAt_walk] at whole
  exact whole.sublist (part.map _)

/-- What a walk meets lies below the root. -/
theorem ne_nil_of_part (part : items.Sublist (tree.walk [])) {item : List Bytes × Node Bytes}
    (member : item ∈ items) : item.1 ≠ [] := by
  obtain ⟨name, -, below, place⟩ := Forest.listed_of_mem_walk (part.subset member)
  rw [place]
  exact List.cons_ne_nil name below

theorem vacant_placedAt {place : List Bytes} (part : items.Sublist (tree.walk []))
    (empty : EmptyDirectory files place) : ∀ item ∈ placedAt place items, files item.1 = none := by
  rw [placedAt, List.forall_mem_map]
  intro item member
  obtain ⟨first, below, deep⟩ := List.exists_cons_of_ne_nil (ne_nil_of_part part member)
  rw [deep]
  exact empty.vacant first below

theorem nodup_placedAt (distinct : (items.map Prod.fst).Nodup) (place : List Bytes) :
    ((placedAt place items).map Prod.fst).Nodup := by
  have places : (placedAt place items).map Prod.fst = (items.map Prod.fst).map (place ++ ·) := by
    simp [placedAt]
  rw [places]
  exact distinct.map (List.append_right_injective place)

/-- Where there was nothing, there are the nodes in the end. -/
theorem putAll_placedAt_iff {place : List Bytes} (empty : EmptyDirectory files place)
    (distinct : (items.map Prod.fst).Nodup) {first : Bytes} {below : List Bytes}
    {node : Node Bytes} :
    Files.putAll (placedAt place items) files (place ++ first :: below) = some node ↔
      (first :: below, node) ∈ items := by
  by_cases listed : ∃ other, (first :: below, other) ∈ items
  · obtain ⟨other, member⟩ := listed
    have there : (place ++ first :: below, other) ∈ placedAt place items :=
      List.mem_map.mpr ⟨_, member, rfl⟩
    rw [Files.putAll_of_mem (nodup_placedAt distinct place) there, Option.some.injEq]
    constructor
    · rintro rfl
      exact member
    · intro again
      -- one place has one node
      exact congrArg Prod.snd (List.inj_on_of_nodup_map distinct member again rfl)
  · have nothing : ∀ item ∈ placedAt place items, item.1 ≠ place ++ first :: below := by
      rw [placedAt, List.forall_mem_map]
      rintro ⟨path, other⟩ member same
      rw [List.append_cancel_left_eq] at same
      exact listed ⟨other, same ▸ member⟩
    rw [Files.putAll_of_not_mem nothing, empty.vacant]
    exact ⟨nofun, fun member => absurd ⟨node, member⟩ listed⟩

/-- In an empty directory a part of a tree can be created when it has its parents. -/
theorem createAll_placedAt_iff {place : List Bytes} (distinct : tree.Distinct)
    (part : items.Sublist (tree.walk [])) (empty : EmptyDirectory files place)
    {final : Files Bytes Bytes} :
    Files.createAll (placedAt place items) files = some final ↔
      HasParents items ∧ final = Files.putAll (placedAt place items) files := by
  have descending := placedAt_descending distinct part place
  rw [Files.createAll_iff (Files.nodup_of_descending descending) (vacant_placedAt part empty),
    Files.parentsFirst_iff descending, HasParents]
  refine and_congr_left fun _ => ?_
  unfold placedAt
  rw [List.forall_mem_map]
  refine forall₂_congr fun item member => ?_
  have deep := ne_nil_of_part part member
  rw [List.dropLast_append_of_ne_nil deep, List.mem_map]
  have inside : (∃ other ∈ items, (place ++ other.1, other.2) =
      (place ++ item.1.dropLast, Node.dir)) ↔ (item.1.dropLast, Node.dir) ∈ items := by
    simp [Prod.ext_iff]
  rw [inside]
  constructor
  · rintro (there | ⟨-, inside⟩)
    · refine .inl ?_
      by_contra below
      obtain ⟨first, below, path⟩ := List.exists_cons_of_ne_nil below
      rw [path, empty.vacant] at there
      cases there
    · exact .inr inside
  · rintro (top | inside)
    · exact .inl (by rw [top, List.append_nil, empty.directory])
    · exact .inr ⟨by simp [deep], inside⟩

section

variable {stored : List ArchiveEntry} {views : List ZipEntry}
  {zipOpen : Bytes → Option (List ZipEntry)} {zipPath : Bytes}
  (named : tree.AllNames pathFormat.IsName) (distinct : tree.Distinct)
  (empty : EmptyDirectory files (rootPlace cwd root)) (opens : zipOpen zipPath = some views)
  (presents : List.Forall₂ Presents stored views) (part : items.Sublist (tree.walk []))
  (written : stored.map (fun entry => (entry.name, entry.data)) = items.map memberOf)

include named distinct empty opens presents part written

/-- A part of a tree is extracted exactly when it has its parents. -/
theorem archiveExtract_part_iff (spill : Bytes → Bytes → Nat) (size : UInt64)
    {final : Files Bytes Bytes} {size' : UInt64} :
    (archiveExtract (fileSystemOs cwd) spill root zipOpen zipPath).Gives ⟨⟨files, none⟩, size⟩ true
        ⟨⟨final, none⟩, size'⟩ ↔
      HasParents items ∧ final = Files.putAll (placedAt (rootPlace cwd root) items) files ∧
        size' = size + memberTotal (items.map memberOf) := by
  have denote : List.Forall₂ (Denotes (extractPlace cwd root)) _ _ := denotes_memberOf named part
  rw [← written] at denote
  obtain ⟨whole, same⟩ := items_of_presents presents denote
  rw [archiveExtract_true_iff, opens, Option.getD_some, same,
    Files.unpack_eq_createAll (Files.nodup_of_descending (placedAt_descending distinct part _))
      (vacant_placedAt part empty),
    createAll_placedAt_iff distinct part empty, foldl_declared presents, written, and_assoc]
  exact and_iff_right whole

end

/-- On an operating system that obliges, a part of a tree is extracted into an empty directory
exactly when it has its parents. -/
theorem archiveExtract_part {ω : Type} {os : Os ω} {view : ω → Files Bytes Bytes} {start : ω}
    {stored : List ArchiveEntry} {views : List ZipEntry}
    {zipOpen : Bytes → Option (List ZipEntry)} {zipPath : Bytes} (acts : os.ActsOn cwd view)
    (obliges : os.Obliges cwd view) (ready : Ready cwd root (view start))
    (named : tree.AllNames pathFormat.IsName) (distinct : tree.Distinct)
    (empty : EmptyDirectory (view start) (rootPlace cwd root))
    (opens : zipOpen zipPath = some views) (presents : List.Forall₂ Presents stored views)
    (part : items.Sublist (tree.walk []))
    (written : stored.map (fun entry => (entry.name, entry.data)) = items.map memberOf)
    (spill : Bytes → Bytes → Nat) (size : UInt64) :
    let extracted := (archiveExtract os spill root zipOpen zipPath).run ⟨⟨start, none⟩, size⟩
    (HasParents items → extracted.outcome = .ok true ∧
      view extracted.state.env.os =
        Files.putAll (placedAt (rootPlace cwd root) items) (view start) ∧
      extracted.state.runcompressedSize = size + memberTotal (items.map memberOf)) ∧
    (¬ HasParents items → extracted.outcome = .ok false) := by
  intro extracted
  -- the names in the archive are made of the names of the tree
  have plain : PlainNames ((zipOpen zipPath).getD []) := by
    rw [opens]
    exact plainNames_of_written presents written (fun _ => ne_nil_of_part part) fun _ member =>
      Forest.named_of_mem_walk named (List.forall_mem_nil _) (part.subset member)
  obtain ⟨success, left, size', outcome, state, shown, -⟩ :=
    archiveExtract_answers acts obliges zipOpen zipPath ready plain spill size
  rw [show extracted.outcome = .ok success from outcome, show extracted.state = _ from state]
  constructor
  · intro parents
    obtain ⟨rfl, same⟩ := shown.unique ((archiveExtract_part_iff named distinct empty opens
      presents part written spill size).mpr ⟨parents, rfl, rfl⟩)
    exact ⟨rfl, congrArg (fun state => state.env.os) same,
      congrArg ExtractState.runcompressedSize same⟩
  · intro orphans
    cases success with
    | false => rfl
    | true =>
      exact absurd ((archiveExtract_part_iff named distinct empty opens presents part written
        spill size).mp shown).1 orphans

end

/-! ## There and back -/

section

variable {tree : DirTree} {zip : Libzip} {base : Bytes}

theorem mem_addedNodes_iff (distinct : tree.Distinct) {place : List Bytes} {node : Node Bytes} :
    (place, node) ∈ addedNodes zip base tree ↔
      tree.lookup place = some node ∧ addsNode zip base (place, node) = true := by
  rw [addedNodes, List.mem_filter, Forest.mem_walk_iff distinct]

theorem isAdded_iff (distinct : tree.Distinct) {place : List Bytes} :
    isAdded zip base tree place = true ↔
      ∃ node, (place, node) ∈ addedNodes zip base tree := by
  simp only [mem_addedNodes_iff distinct, isAdded]
  cases tree.lookup place with
  | none => simp
  | some node => simp

theorem addedNodes_eq_nil_iff (distinct : tree.Distinct) :
    addedNodes zip base tree = [] ↔ ¬ ∃ place, isAdded zip base tree place = true := by
  simp only [isAdded_iff distinct, List.eq_nil_iff_forall_not_mem, Prod.forall, not_exists]

theorem addedNodes_part (zip : Libzip) (base : Bytes) (tree : DirTree) :
    (addedNodes zip base tree).Sublist (tree.walk []) := List.filter_sublist

/-- Parents are there when no node is added below one that is not. -/
theorem hasParents_iff (distinct : tree.Distinct) :
    HasParents (addedNodes zip base tree) ↔
      ∀ first below name, isAdded zip base tree (first :: below ++ [name]) = true →
        isAdded zip base tree (first :: below) = true := by
  constructor
  · intro parents first below name added
    obtain ⟨node, member⟩ := (isAdded_iff distinct).mp added
    have above : (first :: below ++ [name]).dropLast = first :: below := List.dropLast_concat
    rcases parents _ member with top | parent
    · rw [above] at top
      cases top
    · rw [above] at parent
      exact (isAdded_iff distinct).mpr ⟨.dir, parent⟩
  · rintro closed ⟨path, node⟩ member
    by_cases top : path.dropLast = []
    · exact .inl top
    refine .inr ?_
    have deep : path ≠ [] := ne_nil_of_part (addedNodes_part zip base tree) member
    have parts := List.dropLast_append_getLast deep
    obtain ⟨first, below, above⟩ := List.exists_cons_of_ne_nil top
    simp only [above]
    rw [above] at parts
    rw [← parts] at member
    obtain ⟨other, parent⟩ := (isAdded_iff distinct).mp
      (closed first below _ ((isAdded_iff distinct).mpr ⟨node, member⟩))
    -- it has a node below it
    have stands := (Forest.mem_walk_iff distinct).mp (List.mem_of_mem_filter member)
    have directory := Forest.lookup_above (List.cons_ne_nil first below) stands
    have found := (Forest.mem_walk_iff distinct).mp (List.mem_of_mem_filter parent)
    rw [directory, Option.some.injEq] at found
    rwa [found]

theorem putAll_addedNodes (distinct : tree.Distinct) {target : Files Bytes Bytes}
    {place : List Bytes} (empty : EmptyDirectory target place) (first : Bytes)
    (below : List Bytes) :
    Files.putAll (placedAt place (addedNodes zip base tree)) target (place ++ first :: below) =
      if isAdded zip base tree (first :: below) then tree.lookup (first :: below) else none := by
  have once : ((addedNodes zip base tree).map Prod.fst).Nodup :=
    (Files.nodup_of_descending (Forest.walk_descending distinct [])).sublist
      ((addedNodes_part zip base tree).map Prod.fst)
  refine Option.ext fun node => ?_
  rw [putAll_placedAt_iff empty once, mem_addedNodes_iff distinct, isAdded]
  cases tree.lookup (first :: below) with
  | none => simp
  | some other =>
    by_cases takes : addsNode zip base (first :: below, other) = true
    · simp only [takes, if_true, Option.some.injEq, and_iff_left_iff_imp]
      rintro rfl
      exact takes
    · simp only [takes, Option.some.injEq]
      refine ⟨?_, nofun⟩
      rintro ⟨rfl, taken⟩
      exact absurd taken takes

end

/-- Whatever calls fail between the opening and the closing of the archive, `archive_create`
returns true, and leaves an archive if it has added something.  On an operating system that obliges
the archive is extracted into an empty directory exactly when no node was added below a directory
that was not, and then the directory holds what was added. -/
theorem archive_partial_round_trip {ω : Type} {os : Os ω} {cwd : List Bytes}
    {view : ω → Files Bytes Bytes} (acts : os.ActsOn cwd view) (obliges : os.Obliges cwd view)
    {fs : SourceFs} {root : Bytes} {tree : DirTree} (shows : ShowsRoot fs root tree)
    (named : tree.AllNames pathFormat.IsName) (distinct : tree.Distinct) {zip : Libzip}
    (opens : zip.opens = true) (closes : zip.closes = true) (leaves : Bytes → Bytes → Bytes)
    {fuel : Nat} (enough : tree.depth ≤ fuel) (createSize : UInt64) {start : ω}
    {targetRoot : Bytes} (ready : Ready cwd targetRoot (view start))
    (empty : EmptyDirectory (view start) (rootPlace cwd targetRoot))
    {zipOpen : Bytes → Option (List ZipEntry)} {zipPath : Bytes}
    (readsBack : ReadsBack zipOpen zipPath
      ((archiveCreate fs zip (fun path data => .ok (leaves path data)) fuel root).run
        (createStart createSize)).state.archive)
    (spill : Bytes → Bytes → Nat) (extractSize : UInt64) :
    let created := (archiveCreate fs zip (fun path data => .ok (leaves path data)) fuel root).run
      (createStart createSize)
    let extracted := (archiveExtract os spill targetRoot zipOpen zipPath).run
      ⟨⟨start, none⟩, extractSize⟩
    let added := isAdded zip (withSlash root) tree
    let something := ∃ place, added place = true
    let closed := ∀ first below name, added (first :: below ++ [name]) = true →
      added (first :: below) = true
    created.outcome = .ok true ∧
      (something → closed → extracted.outcome = .ok true ∧
        (∀ first below, view extracted.state.env.os (rootPlace cwd targetRoot ++ first :: below) =
          if added (first :: below) then tree.lookup (first :: below) else none) ∧
        ((∀ name, zip.sourceFile (withSlash root ++ name) = true → zip.fileAdd name = true) →
          extracted.state.runcompressedSize =
            extractSize + created.state.runcompressedSize)) ∧
      (something → ¬ closed → extracted.outcome = .ok false) ∧
      (¬ something → created.state.archive = none) := by
  intro created extracted added something closed
  have answers : Answers fun path data => .ok (leaves path data) :=
    fun path => ⟨leaves path [], rfl⟩
  have part := addedNodes_part zip (withSlash root) tree
  obtain ⟨final, gives⟩ := archiveCreate_total answers shows named opens enough createSize
  obtain ⟨counter, archive⟩ := archiveCreate_true shows named opens gives
  obtain ⟨success, left⟩ := Traced.gives_iff.mp gives
  have createdLeft : created.state = final := left
  have entries := written_filter zip (fun path data => .ok (leaves path data))
    shows.shown named spells_root
  have nothing_iff : MyappsCommon.Utility.Archive.added zip
      (fun path data => .ok (leaves path data)) (withSlash root) tree [] = [] ↔ ¬ something := by
    rw [← addedNodes_eq_nil_iff distinct, addedNodes, ← List.map_eq_nil_iff (f := memberOf),
      ← entries, List.map_eq_nil_iff, List.map_eq_nil_iff]
  have parents_iff : HasParents (addedNodes zip (withSlash root) tree) ↔ closed :=
    hasParents_iff distinct
  -- when there is an entry, `zip_close` writes the archive
  have isRead (taken : something) : ∃ views, zipOpen zipPath = some views ∧ List.Forall₂ Presents
      ((MyappsCommon.Utility.Archive.added zip (fun path data => .ok (leaves path data))
        (withSlash root) tree []).map (PendingEntry.write fs)) views := by
    refine readsBack _ ?_
    have nonempty := mt nothing_iff.mp (not_not_intro taken)
    rw [left, archive, if_pos (by simp [closes, nonempty])]
  rw [createdLeft]
  refine ⟨success, fun taken whole => ?_, fun taken orphans => ?_, fun nothing => ?_⟩
  · obtain ⟨views, opensThere, presents⟩ := isRead taken
    obtain ⟨outcome, contents, counted⟩ := (archiveExtract_part acts obliges ready named distinct
      empty opensThere presents part entries spill extractSize).1 (parents_iff.mpr whole)
    refine ⟨outcome, fun first below => ?_, fun accepts => ?_⟩
    · rw [contents]
      exact putAll_addedNodes distinct empty first below
    · rw [counted, counter, counted_of_accepts spells_root accepts]
      rfl
  · obtain ⟨views, opensThere, presents⟩ := isRead taken
    exact (archiveExtract_part acts obliges ready named distinct empty opensThere presents part
      entries spill extractSize).2 fun parents => orphans (parents_iff.mp parents)
  · rw [archive, if_neg (by simp [nothing_iff.mpr nothing])]

/-- No directory is added. -/
def zipWithoutDirs : Libzip :=
  ⟨true, fun _ => true, fun _ => true, fun _ => false, fun _ => true, true⟩

/-- The file `d/f` gets into the archive, but not the directory `d`. -/
theorem archive_partial_nested :
    ((archiveCreate (SourceFs.ofFiles [] nestedFiles nestedListing) zipWithoutDirs
        (fun _ _ => .ok []) 1 [114]).run (createStart 0)).outcome = .ok true ∧
      ((archiveExtract (fileSystemOs []) (fun _ _ => 0) [120]
        (fun _ => some nestedViews.tail) [122]).run ⟨⟨nestedFiles, none⟩, 5⟩).outcome =
          .ok false := by
  have readsBack : ReadsBack (fun _ => some nestedViews.tail) [122]
      ((archiveCreate (SourceFs.ofFiles [] nestedFiles nestedListing) zipWithoutDirs
        (fun _ _ => .ok []) 1 [114]).run (createStart 0)).state.archive := by
    intro stored archive
    have written : stored = [⟨[100, 47, 102], some [65], []⟩] := (Option.some.inj archive).symm
    subst written
    exact ⟨_, rfl, .cons ⟨⟨_, rfl, rfl, rfl⟩, fun content data =>
      ⟨_, rfl, Option.some.inj data⟩⟩ .nil⟩
  have shows : ShowsRoot (SourceFs.ofFiles [] nestedFiles nestedListing) [114] nestedTree := by
    refine showsRoot_ofFiles (List.cons_ne_nil 114 []) ?_ nestedTree_named nestedTree_distinct
    exact nestedFiles_holds
  obtain ⟨created, -, refused, -⟩ := archive_partial_round_trip fileSystemOs_actsOn
    fileSystemOs_obliges shows nestedTree_named nestedTree_distinct rfl rfl (fun _ _ => [])
    (Nat.le_refl 1) 0 nestedFiles_ready nestedFiles_empty readsBack (fun _ _ => 0) 5
  refine ⟨created, refused ⟨[[100], [102]], by decide⟩ fun closed => ?_⟩
  exact absurd (closed [100] [] [102] (by decide)) (by decide)

end MyappsCommon.Utility.Archive
