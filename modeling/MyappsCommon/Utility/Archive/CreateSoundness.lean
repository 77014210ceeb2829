import MyappsCommon.Utility.Archive.Walk

/-! # What `true` promises of a created archive

The walk and `zip_close` report their failures to nobody, so that `archive_create` returns
true whenever the archive could be opened and the root is a directory.
-/

namespace MyappsCommon.Utility.Archive

open MyappsCommon.Lib

/-- The file system shows the tree in the root directory. -/
structure ShowsRoot (fs : SourceFs) (root : Bytes) (tree : DirTree) : Prop where
  directory : fs.isDirectory (withSlash root) = .ok true
  listed : fs.list (withSlash root) = ⟨tree.names, false⟩
  shown : Shows fs (withSlash root) tree []

/-- One entry for each directory and each regular file, with its data, and the sum of the
sizes of the files in the archive. -/
def SoundArchive (tree : DirTree) (final : CreateState) : Prop :=
  ∃ entries, final.archive = some entries ∧
    (entries.map fun entry => (entry.name, entry.data)).Perm (members tree []) ∧
    final.runcompressedSize.toNat = ((entries.filterMap ArchiveEntry.data).map List.length).sum

/-- The calls that add the nodes of the tree succeed. -/
def AddsAll (zip : Libzip) (base : Bytes) : DirTree → Bytes → Prop
  | .nil, _ => True
  | .file name _ rest, within =>
    (zip.sourceFile (base ++ (within ++ name)) = true ∧ zip.fileAdd (within ++ name) = true) ∧
      AddsAll zip base rest within
  | .dir name inside rest, within =>
    zip.dirAdd (within ++ name) = true ∧
      AddsAll zip base inside (within ++ name ++ [slash]) ∧ AddsAll zip base rest within

/-! ## The entries of the archive -/

section

variable (zip : Libzip) (metaFnc : CreateFileMetaFunction) (base : Bytes)

theorem fileEntries_length_le (path name : Bytes) :
    (fileEntries zip metaFnc path name).length ≤ 1 := by
  rw [fileEntries]
  split <;> simp

theorem dirEntries_length_le (name : Bytes) : (dirEntries zip name).length ≤ 1 := by
  rw [dirEntries]
  split <;> simp

theorem added_length_le (tree : DirTree) (within : Bytes) :
    (added zip metaFnc base tree within).length ≤ (members tree within).length := by
  induction tree generalizing within with
  | nil => exact Nat.le_refl 0
  | file name content rest ih =>
    have first := fileEntries_length_le zip metaFnc (base ++ (within ++ name)) (within ++ name)
    have others := ih within
    simp only [added, members, List.length_append, List.length_cons]
    omega
  | dir name inside rest ihInside ihRest =>
    have first := dirEntries_length_le zip (within ++ name)
    have below := ihInside (within ++ name ++ [slash])
    have others := ihRest within
    simp only [added, members, List.length_append, List.length_cons]
    omega

end

variable {fs : SourceFs} {zip : Libzip} {metaFnc : CreateFileMetaFunction} {base : Bytes}

/-- No entry is missing only if every call has succeeded. -/
theorem addsAll_of_added_length (metaFnc : CreateFileMetaFunction) {tree : DirTree}
    {within : Bytes}
    (complete : (members tree within).length ≤ (added zip metaFnc base tree within).length) :
    AddsAll zip base tree within := by
  induction tree generalizing within with
  | nil => trivial
  | file name content rest ih =>
    have first := fileEntries_length_le zip metaFnc (base ++ (within ++ name)) (within ++ name)
    have others := added_length_le zip metaFnc base rest within
    simp only [added, members, List.length_append, List.length_cons] at complete
    refine ⟨?_, ih (by omega)⟩
    have present : fileEntries zip metaFnc (base ++ (within ++ name)) (within ++ name) ≠ [] := by
      intro missing
      rw [missing, List.length_nil] at complete
      omega
    simpa [fileEntries] using present
  | dir name inside rest ihInside ihRest =>
    have first := dirEntries_length_le zip (within ++ name)
    have below := added_length_le zip metaFnc base inside (within ++ name ++ [slash])
    have others := added_length_le zip metaFnc base rest within
    simp only [added, members, List.length_append, List.length_cons] at complete
    refine ⟨?_, ihInside (by omega), ihRest (by omega)⟩
    have present : dirEntries zip (within ++ name) ≠ [] := by
      intro missing
      rw [missing, List.length_nil] at complete
      omega
    simpa [dirEntries] using present

/-- What `zip_close` writes of the walk's entries is the tree. -/
theorem written_added (metaFnc : CreateFileMetaFunction) {tree : DirTree} {within : Bytes}
    (shown : Shows fs base tree within)
    (named : tree.AllNames pathFormat.IsName) (all : AddsAll zip base tree within) :
    ((added zip metaFnc base tree within).map (PendingEntry.write fs)).map
        (fun entry => (entry.name, entry.data)) = members tree within := by
  induction tree generalizing within with
  | nil => rfl
  | file name content rest ih =>
    obtain ⟨⟨-, -, content_eq⟩, shownRest⟩ := shown
    obtain ⟨⟨opens, accepts⟩, allRest⟩ := all
    rw [added, members, fileEntries, opens, accepts, List.map_append, List.map_append,
      ih shownRest named.2 allRest]
    simp [PendingEntry.write, content_eq]
  | dir name inside rest ihInside ihRest =>
    obtain ⟨-, shownInside, shownRest⟩ := shown
    obtain ⟨isName, namedInside, namedRest⟩ := named
    obtain ⟨accepts, allInside, allRest⟩ := all
    have entryName := dirEntryName_name isName.nonempty isName.whole within
    rw [added, members, dirEntries, accepts, List.map_append, List.map_append, List.map_append,
      List.map_append, ihInside shownInside namedInside allInside,
      ihRest shownRest namedRest allRest]
    simp [PendingEntry.write, entryName]

theorem added_ne_nil (metaFnc : CreateFileMetaFunction) {tree : DirTree} {within : Bytes}
    (nonempty : tree ≠ .nil) (all : AddsAll zip base tree within) :
    added zip metaFnc base tree within ≠ [] := by
  cases tree with
  | nil => exact absurd rfl nonempty
  | file name content rest => simp [added, fileEntries, all.1]
  | dir name inside rest => simp [added, dirEntries, all.1]

theorem members_data (tree : DirTree) (within : Bytes) :
    (members tree within).filterMap Prod.snd = tree.contents := by
  induction tree generalizing within with
  | nil => rfl
  | file name content rest ih =>
    simp [members, Forest.contents, ih]
  | dir name inside rest ihInside ihRest =>
    simp [members, Forest.contents, ihInside, ihRest]

/-- The sizes of the files of a tree. -/
def totalSize (tree : DirTree) : Nat := (tree.contents.map List.length).sum

theorem counted_toNat {tree : DirTree} {within : Bytes} (all : AddsAll zip base tree within) :
    (counted zip base tree within).toNat = totalSize tree % 2 ^ 64 := by
  unfold totalSize
  induction tree generalizing within with
  | nil => rfl
  | file name content rest ih =>
    obtain ⟨⟨opens, -⟩, allRest⟩ := all
    rw [counted, opens, if_pos rfl, UInt64.toNat_add, ih allRest, UInt64.toNat_ofNat',
      Forest.contents, List.map_cons, List.sum_cons]
    omega
  | dir name inside rest ihInside ihRest =>
    obtain ⟨-, allInside, allRest⟩ := all
    rw [counted, UInt64.toNat_add, ihInside allInside, ihRest allRest, Forest.contents,
      List.map_append, List.sum_append]
    omega

/-! ## The whole call -/

/-- The state that `zip_close` leaves. -/
def afterClose (fs : SourceFs) (zip : Libzip) (state : CreateState) : CreateState :=
  if zip.closes && !state.pending.isEmpty then
    { state with archive := some (state.pending.map (PendingEntry.write fs)) }
  else state

theorem childPath_withSlash (root name : Bytes) :
    childPath (withSlash root) name = withSlash root ++ ([] ++ name) := by
  rw [withSlash]
  split
  case isTrue extended =>
    exact childPath_of_endsInSlash (endsInSlash_append_slash root) name
  case isFalse kept =>
    rw [not_and, not_not] at kept
    by_cases empty : root = []
    · rw [empty]
      rfl
    · exact childPath_of_endsInSlash (kept empty) name

theorem archiveCreate_opens {fuel : Nat} {root : Bytes} {tree : DirTree} {state final : CreateState}
    (root_shows : ShowsRoot fs root tree) (opens : zip.opens = true) :
    (archiveCreate fs zip metaFnc fuel root).Gives state true final ↔
      ∃ between,
        (Traced.forEach (fun name => addEntry fs zip metaFnc
            (zipAddDir fs zip metaFnc (withSlash root).length fuel) (withSlash root).length
            (childPath (withSlash root) name)) tree.names).Gives
          { state with runcompressedSize := 0 } () between ∧
        final = afterClose fs zip between := by
  have complete : (fs.list (withSlash root)).throws = false := by rw [root_shows.listed]
  simp [archiveCreate, opens, root_shows.directory, zipClose, afterClose, Traced.gives_bind_iff,
    forEachEntry_gives_iff complete, root_shows.listed]

/-- The state in which a call on a free path begins. -/
def createStart (size : UInt64) : CreateState := ⟨size, [], [], none⟩

/-- What a call that returns true leaves: the archive that `zip_close` makes of the walk. -/
theorem archiveCreate_true {fuel : Nat} {root : Bytes} {tree : DirTree} {size : UInt64}
    {final : CreateState} (root_shows : ShowsRoot fs root tree)
    (named : tree.AllNames pathFormat.IsName) (opens : zip.opens = true)
    (gives : (archiveCreate fs zip metaFnc fuel root).Gives (createStart size) true final) :
    final.runcompressedSize = counted zip (withSlash root) tree [] ∧
      final.archive =
        if zip.closes && !(added zip metaFnc (withSlash root) tree []).isEmpty then
          some ((added zip metaFnc (withSlash root) tree []).map (PendingEntry.write fs))
        else none := by
  obtain ⟨between, walked, rfl⟩ := (archiveCreate_opens root_shows opens).mp gives
  have adds := forEach_gives root_shows.shown named (childPath_withSlash root) walked
  have pending : between.pending = added zip metaFnc (withSlash root) tree [] := adds.pending
  have counter : between.runcompressedSize = counted zip (withSlash root) tree [] := by
    rw [adds.counter, UInt64.zero_add]
  have unwritten : between.archive = none := adds.archive
  rw [afterClose, ← pending]
  split
  · exact ⟨counter, rfl⟩
  · exact ⟨counter, unwritten⟩

theorem archiveCreate_total (answers : Answers metaFnc) {fuel : Nat} {root : Bytes}
    {tree : DirTree} (root_shows : ShowsRoot fs root tree)
    (named : tree.AllNames pathFormat.IsName) (opens : zip.opens = true)
    (enough : tree.depth ≤ fuel) (size : UInt64) :
    ∃ final, (archiveCreate fs zip metaFnc fuel root).Gives (createStart size) true final := by
  obtain ⟨between, walked⟩ := forEach_total zip answers root_shows.shown named
    (childPath_withSlash root) enough { createStart size with runcompressedSize := 0 }
  exact ⟨_, (archiveCreate_opens root_shows opens).mpr ⟨between, walked, rfl⟩⟩

/-- A walk that adds every node, closed, makes a sound archive. -/
theorem soundArchive_of_addsAll {root : Bytes} {tree : DirTree} {final : CreateState}
    (root_shows : ShowsRoot fs root tree) (named : tree.AllNames pathFormat.IsName)
    (all : AddsAll zip (withSlash root) tree []) (closes : zip.closes = true)
    (nonempty : tree ≠ .nil) (fits : totalSize tree < 2 ^ 64)
    (counter : final.runcompressedSize = counted zip (withSlash root) tree [])
    (archive : final.archive =
      if zip.closes && !(added zip metaFnc (withSlash root) tree []).isEmpty then
        some ((added zip metaFnc (withSlash root) tree []).map (PendingEntry.write fs))
      else none) : SoundArchive tree final := by
  have written := written_added metaFnc root_shows.shown named all
  have stored : final.archive =
      some ((added zip metaFnc (withSlash root) tree []).map (PendingEntry.write fs)) := by
    rw [archive, if_pos (by simp [closes, added_ne_nil metaFnc nonempty all])]
  refine ⟨_, stored, by rw [written], ?_⟩
  have contents := members_data tree []
  rw [← written, List.filterMap_map] at contents
  rw [counter, counted_toNat all, Nat.mod_eq_of_lt fits]
  exact congrArg (fun data => (data.map List.length).sum) contents.symm

/-- A sound archive has come from a walk that adds every node. -/
theorem addsAll_of_soundArchive {root : Bytes} {tree : DirTree} {final : CreateState}
    (archive : final.archive =
      if zip.closes && !(added zip metaFnc (withSlash root) tree []).isEmpty then
        some ((added zip metaFnc (withSlash root) tree []).map (PendingEntry.write fs))
      else none) (sound : SoundArchive tree final) :
    AddsAll zip (withSlash root) tree [] ∧ zip.closes = true ∧ tree ≠ .nil ∧
      totalSize tree < 2 ^ 64 := by
  obtain ⟨entries, stored, same, counter⟩ := sound
  rw [archive] at stored
  split at stored
  case isFalse => cases stored
  case isTrue closed =>
    rw [Bool.and_eq_true] at closed
    cases stored
    have lengths := same.length_eq
    rw [List.length_map, List.length_map] at lengths
    have all : AddsAll zip (withSlash root) tree [] :=
      addsAll_of_added_length metaFnc (Nat.le_of_eq lengths.symm)
    refine ⟨all, closed.1, ?_, ?_⟩
    · rintro rfl
      exact absurd closed.2 (by simp [added])
    · have sizes := ((same.filterMap Prod.snd).map List.length).sum_nat
      rw [members_data, List.filterMap_map] at sizes
      have bound := UInt64.toNat_lt final.runcompressedSize
      rw [counter] at bound
      rw [totalSize, ← sizes]
      exact bound

/-- Whatever the meta data, the budget and the counter's old value: every call that returns
true leaves a sound archive exactly when the archive does not open, or every node is added,
`zip_close` succeeds, there is a node and the sizes fit the counter. -/
theorem create_sound_iff (fs : SourceFs) (zip : Libzip) (root : Bytes) (tree : DirTree)
    (root_shows : ShowsRoot fs root tree) (named : tree.AllNames pathFormat.IsName) :
    (∀ (metaFnc : CreateFileMetaFunction) (fuel : Nat) (size : UInt64),
      ((archiveCreate fs zip metaFnc fuel root).run (createStart size)).outcome = .ok true →
        SoundArchive tree ((archiveCreate fs zip metaFnc fuel root).run (createStart size)).state) ↔
    (zip.opens = false ∨
      AddsAll zip (withSlash root) tree [] ∧ zip.closes = true ∧ tree ≠ .nil ∧
        totalSize tree < 2 ^ 64) := by
  constructor
  · intro sound
    cases opens : zip.opens with
    | false => exact .inl rfl
    | true =>
      -- without meta data and with enough budget the call does return true
      have answers : Answers fun _ _ => .ok [] := fun _ => ⟨[], rfl⟩
      obtain ⟨final, gives⟩ := archiveCreate_total answers root_shows named opens
        (Nat.le_refl tree.depth) 0
      obtain ⟨-, archive⟩ := archiveCreate_true root_shows named opens gives
      obtain ⟨success, left⟩ := Traced.gives_iff.mp gives
      exact .inr (addsAll_of_soundArchive archive (left ▸ sound _ _ _ success))
  · intro condition metaFnc fuel size success
    have gives := Traced.gives_iff.mpr ⟨success, rfl⟩
    rcases condition with closed | ⟨all, closes, nonempty, fits⟩
    · -- the call returns false
      simp [archiveCreate, closed] at success
    · cases opens : zip.opens with
      | false => simp [archiveCreate, opens] at success
      | true =>
        obtain ⟨counter, archive⟩ := archiveCreate_true root_shows named opens gives
        exact soundArchive_of_addsAll root_shows named all closes nonempty fits counter archive

/-! ## A directory with one file, in the root `r` -/

/-- The directory `d` with the file `f`. -/
def nestedTree : DirTree := .dir [100] (.file [102] [65] .nil) .nil

def nestedFs : SourceFs where
  isDirectory path := .ok (path != [114, 47, 100, 47, 102])
  list path := ⟨if path = [114, 47] then [[100]] else [[102]], false⟩
  fileSize _ := .ok 1
  content _ := [65]

/-- Every call succeeds, but perhaps those that add a file. -/
def zipAdding (files : Bool) : Libzip := ⟨true, fun _ => true, fun _ => files, fun _ => true,
  fun _ => true, true⟩

theorem nestedFs_shows : ShowsRoot nestedFs [114] nestedTree :=
  ⟨rfl, rfl, ⟨rfl, rfl⟩, ⟨⟨rfl, rfl, rfl⟩, trivial⟩, trivial⟩

theorem nestedTree_named : nestedTree.AllNames pathFormat.IsName :=
  ⟨⟨by decide, by decide, by decide, by decide⟩,
    ⟨⟨by decide, by decide, by decide, by decide⟩, trivial⟩, trivial⟩

theorem nestedTree_distinct : nestedTree.Distinct := ⟨nofun, ⟨nofun, trivial⟩, trivial⟩

theorem create_sound_nested :
    SoundArchive nestedTree ((archiveCreate nestedFs (zipAdding true) (fun _ _ => .ok []) 1
      [114]).run (createStart 0)).state :=
  (create_sound_iff nestedFs (zipAdding true) [114] nestedTree nestedFs_shows
    nestedTree_named).mpr
      (.inr ⟨⟨rfl, ⟨⟨rfl, rfl⟩, trivial⟩, trivial⟩, rfl, nofun, by decide⟩) _ 1 0 rfl

/-- The file is not added, as when its name is not valid: the call returns true and counts
its size all the same. -/
theorem create_drops_file :
    ((archiveCreate nestedFs (zipAdding false) (fun _ _ => .ok []) 1 [114]).run
        (createStart 0)).outcome = .ok true ∧
      ¬ SoundArchive nestedTree ((archiveCreate nestedFs (zipAdding false) (fun _ _ => .ok []) 1
        [114]).run (createStart 0)).state := by
  refine ⟨rfl, fun sound => ?_⟩
  have gives : (archiveCreate nestedFs (zipAdding false) (fun _ _ => .ok []) 1 [114]).Gives
      (createStart 0) true _ := ⟨_, rfl⟩
  obtain ⟨-, archive⟩ := archiveCreate_true nestedFs_shows nestedTree_named rfl gives
  obtain ⟨⟨-, ⟨⟨-, fileAdded⟩, -⟩, -⟩, -⟩ := addsAll_of_soundArchive archive sound
  cases fileAdded

end MyappsCommon.Utility.Archive
