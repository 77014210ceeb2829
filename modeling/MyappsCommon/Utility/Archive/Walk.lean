import MyappsCommon.Lib.Forest
import MyappsCommon.Utility.Archive.Create

/-! # What the walk of `archive_create` adds

The two helpers and the two loops follow a directory tree in its listing order.  The effect
of the walk is a function of the tree and of the calls of libzip that succeed.
-/

namespace MyappsCommon.Utility.Archive

open MyappsCommon.Lib

/-- The content of a directory: file and directory names, and file contents. -/
abbrev DirTree := Forest Bytes Bytes

/-- `base`, which ends in `/`, is the root; `within` is a path from the root, empty or
ending in `/`, to the directory whose content the tree is.  The file system shows it. -/
def Shows (fs : SourceFs) (base : Bytes) : DirTree → Bytes → Prop
  | .nil, _ => True
  | .file name content rest, within =>
    (fs.isDirectory (base ++ (within ++ name)) = .ok false ∧
      fs.fileSize (base ++ (within ++ name)) = .ok (UInt64.ofNat content.length) ∧
      fs.content (base ++ (within ++ name)) = content) ∧
    Shows fs base rest within
  | .dir name inside rest, within =>
    (fs.isDirectory (base ++ (within ++ name)) = .ok true ∧
      fs.list (base ++ (within ++ name)) = ⟨inside.names, false⟩) ∧
    Shows fs base inside (within ++ name ++ [slash]) ∧ Shows fs base rest within

/-- Entry names and data, in the order of the walk. -/
def members : DirTree → Bytes → List (Bytes × Option Bytes)
  | .nil, _ => []
  | .file name content rest, within => (within ++ name, some content) :: members rest within
  | .dir name inside rest, within =>
    (within ++ name ++ [slash], none) ::
      (members inside (within ++ name ++ [slash]) ++ members rest within)

section

variable (zip : Libzip) (metaFnc : CreateFileMetaFunction) (base : Bytes)

/-- The extra field that a call sets, if it succeeds. -/
def fieldSet (name : Bytes) (id : UInt16) (data : Bytes) : List (UInt16 × ExtraField) :=
  if zip.extraFieldSet name && decide ((extraFieldOf data).data.length + 4 ≤ 65535) then
    [(id, extraFieldOf data)]
  else []

/-- The extra fields that are set for a file. -/
def storedFields (path name : Bytes) : List (UInt16 × ExtraField) :=
  match metaFnc path [] with
  | .ok data => if data ≠ [] then fieldSet zip name metaExtraFieldId data else []
  | .raised => []
  | .unfinished => []

def fileEntries (path name : Bytes) : List PendingEntry :=
  if zip.sourceFile path && zip.fileAdd name then
    [⟨name, some path, storedFields zip metaFnc path name⟩]
  else []

def dirEntries (name : Bytes) : List PendingEntry :=
  if zip.dirAdd name then [⟨dirEntryName name, none, []⟩] else []

/-- The entries that the walk adds. -/
def added : DirTree → Bytes → List PendingEntry
  | .nil, _ => []
  | .file name _ rest, within =>
    fileEntries zip metaFnc (base ++ (within ++ name)) (within ++ name) ++ added rest within
  | .dir name inside rest, within =>
    dirEntries zip (within ++ name) ++
      (added inside (within ++ name ++ [slash]) ++ added rest within)

/-- What the walk adds to the counter: a file counts once `zip_source_file` succeeds. -/
def counted : DirTree → Bytes → UInt64
  | .nil, _ => 0
  | .file name content rest, within =>
    (if zip.sourceFile (base ++ (within ++ name)) then UInt64.ofNat content.length else 0) +
      counted rest within
  | .dir name inside rest, within =>
    counted inside (within ++ name ++ [slash]) + counted rest within

end

/-! ## Path strings -/

theorem endsInSlash_append_slash (path : Bytes) : endsInSlash (path ++ [slash]) = true := by
  simp [endsInSlash]

/-- What stands between a directory and the names in it. -/
theorem childPath_of_endsInSlash {dir : Bytes} (ends : endsInSlash dir = true) (name : Bytes) :
    childPath dir name = dir ++ name := by
  simp [childPath, ends]

theorem childPath_of_not_endsInSlash {dir : Bytes} (nonempty : dir ≠ [])
    (ends : endsInSlash dir = false) (name : Bytes) :
    childPath dir name = dir ++ [slash] ++ name := by
  simp [childPath, nonempty, ends]

/-- The path of a name does not end in `/`. -/
theorem endsInSlash_append_name {name : Bytes} (nonempty : name ≠ []) (whole : slash ∉ name)
    (before : Bytes) : endsInSlash (before ++ name) = false := by
  have last : (before ++ name).getLast? = name.getLast? := by
    rw [List.getLast?_append, List.getLast?_eq_some_getLast nonempty, Option.some_or]
  rw [endsInSlash, last, beq_eq_false_iff_ne]
  exact fun ends => whole (List.mem_of_getLast? ends)

/-- The entries of a directory below the root. -/
theorem childPath_below {name : Bytes} (isName : pathFormat.IsName name) (base within : Bytes)
    (child : Bytes) :
    childPath (base ++ (within ++ name)) child = base ++ (within ++ name ++ [slash] ++ child) := by
  have nonempty : base ++ (within ++ name) ≠ [] := by
    simp [isName.nonempty]
  have ends : endsInSlash (base ++ (within ++ name)) = false := by
    rw [← List.append_assoc]
    exact endsInSlash_append_name isName.nonempty isName.whole _
  rw [childPath_of_not_endsInSlash nonempty ends]
  simp only [List.append_assoc]

theorem dirEntryName_name {name : Bytes} (nonempty : name ≠ []) (whole : slash ∉ name)
    (within : Bytes) : dirEntryName (within ++ name) = within ++ name ++ [slash] := by
  rw [dirEntryName, endsInSlash_append_name nonempty whole]
  simp

/-! ## Adding entries -/

/-- The step from one state to another adds these entries and this much to the counter. -/
structure Adds (state final : CreateState) (entries : List PendingEntry) (size : UInt64) :
    Prop where
  pending : final.pending = state.pending ++ entries
  counter : final.runcompressedSize = state.runcompressedSize + size
  archive : final.archive = state.archive

theorem Adds.refl (state : CreateState) : Adds state state [] 0 :=
  ⟨(List.append_nil _).symm, (UInt64.add_zero _).symm, rfl⟩

theorem Adds.trans {state between final : CreateState} {first second : List PendingEntry}
    {size more : UInt64} (adds : Adds state between first size)
    (then_adds : Adds between final second more) :
    Adds state final (first ++ second) (size + more) := by
  constructor
  · rw [then_adds.pending, adds.pending, List.append_assoc]
  · rw [then_adds.counter, adds.counter, UInt64.add_assoc]
  · rw [then_adds.archive, adds.archive]

theorem modify_append_last {α : Type} (items : List α) (last : α) (change : α → α) :
    (items ++ [last]).modify items.length change = items ++ [change last] := by
  rw [List.modify_eq_take_drop]
  simp

variable {fs : SourceFs} {zip : Libzip} {metaFnc : CreateFileMetaFunction}

theorem zipFileExtraFieldSet_gives {name data : Bytes} {id : UInt16} {entry : PendingEntry}
    {before : List PendingEntry} {state final : CreateState}
    (last : state.pending = before ++ [entry])
    (gives : (zipFileExtraFieldSet zip before.length name id data).Gives state () final) :
    final = { state with
      pending := before ++
        [{ entry with extraFields := entry.extraFields ++ fieldSet zip name id data }] } := by
  simp only [zipFileExtraFieldSet, Traced.gives_bind_iff, Traced.gives_emit_iff] at gives
  obtain ⟨_, _, rfl, gives⟩ := gives
  unfold fieldSet
  split at gives
  case isTrue success =>
    rw [Traced.gives_modifyState_iff] at gives
    rw [gives, if_pos success, last, modify_append_last]
  case isFalse failure =>
    rw [Traced.gives_pure_iff] at gives
    rw [gives.2, if_neg failure, List.append_nil, ← last]

theorem addMetaData_gives {path name : Bytes} {state final : CreateState}
    (gives : (addMetaData zip metaFnc path name).Gives state () final) :
    Adds state final [⟨name, some path, storedFields zip metaFnc path name⟩] 0 := by
  simp only [addMetaData, Traced.gives_bind_iff, Traced.gives_getState_iff,
    Traced.gives_modifyState_iff, Traced.gives_emit_iff, Traced.gives_ofOutcome_iff] at gives
  obtain ⟨_, _, ⟨rfl, rfl⟩, _, _, rfl, _, _, rfl, data, _, ⟨left, rfl⟩, _, _, rfl, gives⟩ := gives
  rw [storedFields, left]
  by_cases empty : data = []
  · simp only [empty, ne_eq, not_true_eq_false, if_false, Traced.gives_pure_iff] at gives ⊢
    rw [gives.2]
    exact ⟨rfl, (UInt64.add_zero _).symm, rfl⟩
  · simp only [empty, ne_eq, not_false_eq_true, if_true] at gives ⊢
    rw [zipFileExtraFieldSet_gives rfl gives]
    exact ⟨rfl, (UInt64.add_zero _).symm, rfl⟩

theorem zipAddFile_gives {basePathLen : Nat} {path : Bytes} {size : UInt64} {result : Bool}
    {state final : CreateState} (sized : fs.fileSize path = .ok size)
    (gives : (zipAddFile fs zip metaFnc basePathLen path).Gives state result final) :
    Adds state final (fileEntries zip metaFnc path (path.drop basePathLen))
      (if zip.sourceFile path then size else 0) := by
  simp only [zipAddFile, Traced.gives_bind_iff, Traced.gives_emit_iff] at gives
  obtain ⟨_, _, rfl, gives⟩ := gives
  unfold fileEntries
  cases opens : zip.sourceFile path with
  | false =>
    simp only [opens, Bool.false_eq_true, if_false, Traced.gives_pure_iff] at gives
    rw [gives.2]
    exact Adds.refl _
  | true =>
    simp only [opens, if_true, Traced.gives_bind_iff, Traced.gives_ofOutcome_iff,
      Traced.gives_modifyState_iff, Traced.gives_emit_iff, sized, Outcome.ok.injEq] at gives
    obtain ⟨_, start, ⟨rfl, rfl⟩, _, _, rfl, _, _, rfl, gives⟩ := gives
    have counts : Adds start { start with runcompressedSize := start.runcompressedSize + size }
        [] size := ⟨(List.append_nil _).symm, rfl, rfl⟩
    cases accepts : zip.fileAdd (path.drop basePathLen) with
    | false =>
      simp only [accepts, Bool.false_eq_true, if_false, Traced.gives_bind_iff,
        Traced.gives_emit_iff, Traced.gives_pure_iff] at gives
      obtain ⟨_, _, rfl, -, rfl⟩ := gives
      exact counts
    | true =>
      simp only [accepts, if_true, Traced.gives_bind_iff, Traced.gives_pure_iff] at gives
      obtain ⟨_, _, stored, -, rfl⟩ := gives
      have adds := counts.trans (addMetaData_gives stored)
      rwa [UInt64.add_zero] at adds

/-- The state in which the loop over a directory starts. -/
def afterDirAdd (zip : Libzip) (name : Bytes) (state : CreateState) : CreateState :=
  if zip.dirAdd name then
    { state with pending := state.pending ++ [⟨dirEntryName name, none, []⟩] }
  else state

theorem afterDirAdd_adds (state : CreateState) (name : Bytes) :
    Adds state (afterDirAdd zip name state) (dirEntries zip name) 0 := by
  unfold dirEntries afterDirAdd
  split
  · exact ⟨rfl, (UInt64.add_zero _).symm, rfl⟩
  · exact Adds.refl _

theorem forEachEntry_gives_iff {dir : Bytes} {body : Bytes → CreateM Unit}
    {state final : CreateState} (complete : (fs.list dir).throws = false) :
    (forEachEntry fs dir body).Gives state () final ↔
      (Traced.forEach (fun name => body (childPath dir name)) (fs.list dir).names).Gives
        state () final := by
  simp [forEachEntry, complete, Traced.gives_seq_iff]

/-- A directory is added, then what is in it. -/
theorem zipAddDir_gives_iff {basePathLen fuel : Nat} {path : Bytes} {result : Bool}
    {state final : CreateState} :
    (zipAddDir fs zip metaFnc basePathLen (fuel + 1) path).Gives state result final ↔
      result = true ∧
        (forEachEntry fs path (addEntry fs zip metaFnc
            (zipAddDir fs zip metaFnc basePathLen fuel) basePathLen)).Gives
          (afterDirAdd zip (path.drop basePathLen) state) () final := by
  cases accepts : zip.dirAdd (path.drop basePathLen) with
  | false => simp [zipAddDir, afterDirAdd, accepts, Traced.gives_seq_iff, and_comm]
  | true => simp [zipAddDir, afterDirAdd, accepts, Traced.gives_seq_iff, and_comm]

theorem addEntry_of_file {addDir : Bytes → CreateM Bool} {basePathLen : Nat} {path : Bytes}
    (kind : fs.isDirectory path = .ok false) :
    addEntry fs zip metaFnc addDir basePathLen path =
      (zipAddFile fs zip metaFnc basePathLen path >>= fun _ => pure ()) := by
  rw [addEntry, kind, Traced.ofOutcome_ok_bind]
  rfl

theorem addEntry_of_directory {addDir : Bytes → CreateM Bool} {basePathLen : Nat} {path : Bytes}
    (kind : fs.isDirectory path = .ok true) :
    addEntry fs zip metaFnc addDir basePathLen path = (addDir path >>= fun _ => pure ()) := by
  rw [addEntry, kind, Traced.ofOutcome_ok_bind]
  rfl

theorem addEntry_gives_iff {addDir : Bytes → CreateM Bool} {basePathLen : Nat} {path : Bytes}
    {directory : Bool} {state final : CreateState} (kind : fs.isDirectory path = .ok directory) :
    (addEntry fs zip metaFnc addDir basePathLen path).Gives state () final ↔
      if directory then ∃ result, (addDir path).Gives state result final
      else ∃ result, (zipAddFile fs zip metaFnc basePathLen path).Gives state result final := by
  cases directory with
  | false => simp [addEntry_of_file kind, Traced.gives_bind_iff]
  | true => simp [addEntry_of_directory kind, Traced.gives_bind_iff]

/-- What a loop over a directory gives has the entries of its tree added. -/
theorem forEach_gives {base : Bytes} {tree : DirTree} {within dir : Bytes} {fuel : Nat}
    {state final : CreateState} (shown : Shows fs base tree within)
    (named : tree.AllNames pathFormat.IsName)
    (children : ∀ name, childPath dir name = base ++ (within ++ name))
    (gives : (Traced.forEach (fun name => addEntry fs zip metaFnc
        (zipAddDir fs zip metaFnc base.length fuel) base.length (childPath dir name))
      tree.names).Gives state () final) :
    Adds state final (added zip metaFnc base tree within) (counted zip base tree within) := by
  induction tree generalizing within dir fuel state final with
  | nil =>
    rw [Forest.names, Traced.forEach, Traced.gives_pure_iff] at gives
    rw [gives.2]
    exact Adds.refl _
  | file name content rest ih =>
    obtain ⟨⟨kind, sized, -⟩, shownRest⟩ := shown
    rw [Forest.names, Traced.forEach, Traced.gives_seq_iff] at gives
    obtain ⟨between, first, gives⟩ := gives
    rw [children, addEntry_gives_iff kind] at first
    obtain ⟨_, first⟩ := first
    have adds := zipAddFile_gives sized first
    rw [List.drop_left] at adds
    exact adds.trans (ih shownRest named.2 children gives)
  | dir name inside rest ihInside ihRest =>
    obtain ⟨⟨kind, listed⟩, shownInside, shownRest⟩ := shown
    obtain ⟨isName, namedInside, namedRest⟩ := named
    rw [Forest.names, Traced.forEach, Traced.gives_seq_iff] at gives
    obtain ⟨between, first, gives⟩ := gives
    rw [children, addEntry_gives_iff kind] at first
    obtain ⟨_, first⟩ := first
    -- a directory is entered with one less of the budget
    cases fuel with
    | zero => exact absurd first Traced.not_gives_outOfSteps
    | succ fuel =>
      rw [zipAddDir_gives_iff, forEachEntry_gives_iff (by rw [listed]), listed,
        List.drop_left] at first
      have addsInside := ihInside shownInside namedInside
        (childPath_below isName base within) first.2
      have addsDir := (afterDirAdd_adds state (within ++ name)).trans addsInside
      have adds := addsDir.trans (ihRest shownRest namedRest children gives)
      rwa [UInt64.zero_add, List.append_assoc] at adds

/-! ## The walk comes to an end -/

/-- The function for meta data does not raise. -/
def Answers (metaFnc : CreateFileMetaFunction) : Prop := ∀ path, ∃ data, metaFnc path [] = .ok data

theorem zipFileExtraFieldSet_total (zip : Libzip) (index : Nat) (name data : Bytes) (id : UInt16)
    (state : CreateState) :
    ∃ final, (zipFileExtraFieldSet zip index name id data).Gives state () final := by
  simp only [zipFileExtraFieldSet, Traced.gives_seq_iff, Traced.gives_emit_iff,
    exists_eq_left]
  split
  · exact ⟨_, Traced.gives_modifyState_iff.mpr rfl⟩
  · exact ⟨_, Traced.gives_pure_iff.mpr ⟨rfl, rfl⟩⟩

theorem addMetaData_total (zip : Libzip) (answers : Answers metaFnc) (path name : Bytes)
    (state : CreateState) :
    ∃ final, (addMetaData zip metaFnc path name).Gives state () final := by
  obtain ⟨data, left⟩ := answers path
  simp only [addMetaData, Traced.gives_bind_iff, Traced.gives_getState_iff,
    Traced.gives_modifyState_iff, Traced.gives_emit_iff, Traced.gives_ofOutcome_iff, left,
    Outcome.ok.injEq]
  by_cases empty : data = []
  · exact ⟨_, _, _, ⟨rfl, rfl⟩, (), _, rfl, (), _, rfl, data, _, ⟨rfl, rfl⟩, (), _, rfl,
      by rw [if_neg (not_not.mpr empty)]; exact Traced.gives_pure_iff.mpr ⟨rfl, rfl⟩⟩
  · obtain ⟨final, set⟩ := zipFileExtraFieldSet_total zip state.pending.length name data
      metaExtraFieldId _
    exact ⟨final, _, _, ⟨rfl, rfl⟩, (), _, rfl, (), _, rfl, data, _, ⟨rfl, rfl⟩, (), _, rfl,
      by rw [if_pos empty]; exact set⟩

theorem zipAddFile_total (answers : Answers metaFnc) {path : Bytes} {size : UInt64}
    (sized : fs.fileSize path = .ok size) (basePathLen : Nat) (state : CreateState) :
    ∃ result final, (zipAddFile fs zip metaFnc basePathLen path).Gives state result final := by
  cases opens : zip.sourceFile path with
  | false => simp [zipAddFile, opens, Traced.gives_seq_iff]
  | true =>
    cases accepts : zip.fileAdd (path.drop basePathLen) with
    | false => simp [zipAddFile, opens, accepts, sized, Traced.gives_bind_iff]
    | true =>
      obtain ⟨final, stored⟩ := addMetaData_total zip answers path
        (path.drop basePathLen)
        { state with runcompressedSize := state.runcompressedSize + size }
      have storedAny : ∃ result, (addMetaData zip metaFnc path (path.drop basePathLen)).Gives
          { state with runcompressedSize := state.runcompressedSize + size } result final :=
        ⟨(), stored⟩
      exact ⟨true, final, by
        simpa [zipAddFile, opens, accepts, sized, Traced.gives_bind_iff] using storedAny⟩

/-- A budget of one for each level of the tree is enough. -/
theorem forEach_total (zip : Libzip) (answers : Answers metaFnc) {base : Bytes} {tree : DirTree}
    {within dir : Bytes} {fuel : Nat} (shown : Shows fs base tree within)
    (named : tree.AllNames pathFormat.IsName)
    (children : ∀ name, childPath dir name = base ++ (within ++ name))
    (enough : tree.depth ≤ fuel) (state : CreateState) :
    ∃ final, (Traced.forEach (fun name => addEntry fs zip metaFnc
        (zipAddDir fs zip metaFnc base.length fuel) base.length (childPath dir name))
      tree.names).Gives state () final := by
  induction tree generalizing within dir fuel state with
  | nil => exact ⟨state, Traced.gives_pure_iff.mpr ⟨rfl, rfl⟩⟩
  | file name content rest ih =>
    obtain ⟨⟨kind, sized, -⟩, shownRest⟩ := shown
    obtain ⟨result, between, first⟩ := zipAddFile_total answers sized base.length state
    obtain ⟨final, gives⟩ := ih shownRest named.2 children enough between
    refine ⟨final, ?_⟩
    rw [Forest.names, Traced.forEach, Traced.gives_seq_iff]
    refine ⟨between, ?_, gives⟩
    rw [children, addEntry_gives_iff kind]
    exact ⟨result, first⟩
  | dir name inside rest ihInside ihRest =>
    obtain ⟨⟨kind, listed⟩, shownInside, shownRest⟩ := shown
    obtain ⟨isName, namedInside, namedRest⟩ := named
    rw [Forest.depth] at enough
    obtain ⟨fuel, rfl⟩ : ∃ below, fuel = below + 1 := ⟨fuel - 1, by omega⟩
    have enoughInside : inside.depth ≤ fuel := by omega
    have enoughRest : rest.depth ≤ fuel + 1 := by omega
    obtain ⟨between, first⟩ := ihInside shownInside namedInside (childPath_below isName base within)
      enoughInside (afterDirAdd zip (within ++ name) state)
    obtain ⟨final, gives⟩ := ihRest shownRest namedRest children enoughRest between
    refine ⟨final, ?_⟩
    rw [Forest.names, Traced.forEach, Traced.gives_seq_iff]
    refine ⟨between, ?_, gives⟩
    rw [children, addEntry_gives_iff kind]
    refine ⟨true, ?_⟩
    rw [zipAddDir_gives_iff, forEachEntry_gives_iff (by rw [listed]), listed, List.drop_left]
    exact ⟨rfl, first⟩

end MyappsCommon.Utility.Archive
