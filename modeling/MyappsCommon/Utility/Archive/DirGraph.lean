import MyappsCommon.Lib.Graph
import MyappsCommon.Utility.Archive.Handles

/-! # Directories with links

`is_directory` and `directory_iterator` follow symbolic links, so that for `archive_create` a
file system is a graph of directories, in which a directory may have several names and may be
reached from itself.
-/

namespace MyappsCommon.Utility.Archive

open MyappsCommon.Lib

/-- A finite file system below a root.  `target` is the real directory that a name in a
directory stands for, itself or as a link, if it stands for one. -/
structure DirGraph where
  Dir : Type
  finite : Finite Dir
  root : Dir
  names : Dir → List Bytes
  target : Dir → Bytes → Option Dir
  distinct : ∀ dir, (names dir).Nodup
  named : ∀ dir, ∀ name ∈ names dir, pathFormat.IsName name

namespace DirGraph

variable (graph : DirGraph)

def step (dir : graph.Dir) (name : Bytes) : Option graph.Dir :=
  if name ∈ graph.names dir then graph.target dir name else none

/-- The directory at the end of a path from the root. -/
def follow (path : List Bytes) : Option graph.Dir := Graph.follow graph.step graph.root path

/-- A place below the root is a name in a real directory. -/
def Denotes (place : List Bytes) (dir : graph.Dir) (name : Bytes) : Prop :=
  ∃ path, place = path ++ [name] ∧ graph.follow path = some dir ∧ name ∈ graph.names dir

end DirGraph

/-- The names on the way into a directory below the root. -/
def within (path : List Bytes) : Bytes := path.flatMap fun name => name ++ [slash]

/-- The iteration gives names of the directory in some order, all of them unless it throws. -/
structure ListedFrom (listing : Listing) (names : List Bytes) : Prop where
  distinct : listing.names.Nodup
  part : listing.names ⊆ names
  whole : listing.throws = false → names ⊆ listing.names

/-- The file system below `root` is the graph.  Queries may throw, and all calls return. -/
structure DirGraph.Presents (graph : DirGraph) (fs : SourceFs) (metaFnc : CreateFileMetaFunction)
    (root : Bytes) : Prop where
  asked : fs.isDirectory (withSlash root) ≠ .unfinished
  listed : ListedFrom (fs.list (withSlash root)) (graph.names graph.root)
  kind : ∀ path dir name, graph.follow path = some dir → name ∈ graph.names dir →
    fs.isDirectory (withSlash root ++ (within path ++ name)) =
        .ok (graph.target dir name).isSome ∨
      fs.isDirectory (withSlash root ++ (within path ++ name)) = .raised
  listedBelow : ∀ path dir name child, graph.follow path = some dir →
    graph.step dir name = some child →
    ListedFrom (fs.list (withSlash root ++ (within path ++ name))) (graph.names child)
  sized : ∀ path, fs.fileSize path ≠ .unfinished
  answered : ∀ path data, metaFnc path data ≠ .unfinished

/-- The root is a directory, and no query throws. -/
structure DirGraph.NeverFails (graph : DirGraph) (fs : SourceFs)
    (metaFnc : CreateFileMetaFunction) (root : Bytes) : Prop where
  directory : fs.isDirectory (withSlash root) = .ok true
  complete : (fs.list (withSlash root)).throws = false
  kind : ∀ path dir name, graph.follow path = some dir → name ∈ graph.names dir →
    fs.isDirectory (withSlash root ++ (within path ++ name)) ≠ .raised
  completeBelow : ∀ path dir name child, graph.follow path = some dir →
    graph.step dir name = some child →
    (fs.list (withSlash root ++ (within path ++ name))).throws = false
  sized : ∀ path, fs.fileSize path ≠ .raised
  answered : ∀ path data, metaFnc path data ≠ .raised

/-! ## Paths -/

@[simp] theorem within_nil : within [] = [] := rfl

theorem within_concat (path : List Bytes) (name : Bytes) :
    within (path ++ [name]) = within path ++ name ++ [slash] := by
  simp [within]

namespace DirGraph

variable {graph : DirGraph}

theorem follow_nil : graph.follow [] = some graph.root := rfl

theorem follow_concat {path : List Bytes} {dir child : graph.Dir} {name : Bytes}
    (reached : graph.follow path = some dir) (entered : graph.step dir name = some child) :
    graph.follow (path ++ [name]) = some child := Graph.follow_concat reached entered

theorem step_eq_some_iff {dir child : graph.Dir} {name : Bytes} :
    graph.step dir name = some child ↔
      name ∈ graph.names dir ∧ graph.target dir name = some child := by
  rw [step]
  split
  case isTrue listed => exact (and_iff_right listed).symm
  case isFalse unlisted => simp [unlisted]

/-- The bytes of a path from the root lead to the place of that name. -/
theorem leadsTo_within {path : List Bytes} {dir : graph.Dir}
    (reached : graph.follow path = some dir) :
    Path.LeadsTo pathFormat (pathFormat.follow []) (within path) path := by
  induction path using List.reverseRecOn generalizing dir with
  | nil => exact fun tail => rfl
  | append_singleton path name ih =>
    rw [follow, Graph.follow_append] at reached
    obtain ⟨between, before, last⟩ := Option.bind_eq_some_iff.mp reached
    obtain ⟨child, entered, -⟩ := Option.bind_eq_some_iff.mp last
    have listed := (step_eq_some_iff.mp entered).1
    rw [within_concat]
    exact (ih before).down (graph.named between name listed)

/-- The place of a name in a directory. -/
theorem follow_within {path : List Bytes} {dir : graph.Dir} {name : Bytes}
    (reached : graph.follow path = some dir) (listed : name ∈ graph.names dir) :
    pathFormat.follow [] (within path ++ name) = path ++ [name] :=
  (leadsTo_within reached).name (graph.named dir name listed)

end DirGraph

/-! ## A file system that never throws -/

/-- The graph below `root`, without any failure. -/
def SourceFs.ofGraph (graph : DirGraph) (root : Bytes) : SourceFs where
  isDirectory path :=
    .ok (graph.follow (pathFormat.follow [] (path.drop (withSlash root).length))).isSome
  list path :=
    ⟨((graph.follow (pathFormat.follow [] (path.drop (withSlash root).length))).map
      graph.names).getD [], false⟩
  fileSize _ := .ok 0
  content _ := []

theorem ofGraph_below {graph : DirGraph} (root : Bytes) {path : List Bytes} {dir : graph.Dir}
    {name : Bytes} (reached : graph.follow path = some dir) (listed : name ∈ graph.names dir) :
    (SourceFs.ofGraph graph root).isDirectory (withSlash root ++ (within path ++ name)) =
        .ok (graph.target dir name).isSome ∧
      (SourceFs.ofGraph graph root).list (withSlash root ++ (within path ++ name)) =
        ⟨((graph.target dir name).map graph.names).getD [], false⟩ := by
  have entered : graph.follow (path ++ [name]) = graph.target dir name := by
    rw [DirGraph.follow, Graph.follow_append_of_eq reached, Graph.follow_cons, DirGraph.step,
      if_pos listed]
    cases graph.target dir name <;> rfl
  simp [SourceFs.ofGraph, DirGraph.follow_within reached listed, entered]

theorem ofGraph_root (graph : DirGraph) (root : Bytes) :
    (SourceFs.ofGraph graph root).isDirectory (withSlash root) = .ok true ∧
      (SourceFs.ofGraph graph root).list (withSlash root) = ⟨graph.names graph.root, false⟩ := by
  have start : pathFormat.follow [] ((withSlash root).drop (withSlash root).length) = [] := by
    rw [List.drop_length]
    rfl
  simp only [SourceFs.ofGraph, start]
  exact ⟨by rfl, by rfl⟩

theorem listedFrom_names (graph : DirGraph) (dir : graph.Dir) :
    ListedFrom ⟨graph.names dir, false⟩ (graph.names dir) :=
  ⟨graph.distinct dir, List.Subset.refl _, fun _ => List.Subset.refl _⟩

theorem ofGraph_presents (graph : DirGraph) (root : Bytes) :
    graph.Presents (SourceFs.ofGraph graph root) (fun _ _ => .ok []) root where
  asked := by
    rw [(ofGraph_root graph root).1]
    exact nofun
  listed := by
    rw [(ofGraph_root graph root).2]
    exact listedFrom_names graph graph.root
  kind _ _ _ reached listed := .inl (ofGraph_below root reached listed).1
  listedBelow path dir name child reached entered := by
    obtain ⟨listed, target⟩ := DirGraph.step_eq_some_iff.mp entered
    rw [(ofGraph_below root reached listed).2, target]
    exact listedFrom_names graph child
  sized _ := nofun
  answered _ _ := nofun

theorem ofGraph_neverFails (graph : DirGraph) (root : Bytes) :
    graph.NeverFails (SourceFs.ofGraph graph root) (fun _ _ => .ok []) root where
  directory := (ofGraph_root graph root).1
  complete := by rw [(ofGraph_root graph root).2]
  kind path dir name reached listed := by
    rw [(ofGraph_below root reached listed).1]
    exact nofun
  completeBelow path dir name child reached entered := by
    rw [(ofGraph_below root reached (DirGraph.step_eq_some_iff.mp entered).1).2]
  sized _ := nofun
  answered _ _ := nofun

end MyappsCommon.Utility.Archive
