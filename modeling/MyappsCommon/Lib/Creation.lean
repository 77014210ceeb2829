import MyappsCommon.Lib.Forest

/-! # Creations in a row

Nodes are created one after the other, none of them above an earlier one.  All the creations
succeed exactly when the directory of each node was there or is one of the nodes.  The walk of
a forest, and any part of it, is such a row.
-/

namespace MyappsCommon.Lib

variable {ι α : Type}

/-- No node belongs at a place of an earlier one, or above it. -/
def Descending (items : List (List ι × Node α)) : Prop :=
  items.Pairwise fun earlier later => ¬ later.1 <+: earlier.1

/-! ## The walk of a forest -/

namespace Forest

variable {forest : Forest ι α}

/-- What the walk meets lies below a name that is listed. -/
theorem listed_of_mem_walk {base : List ι} {item : List ι × Node α}
    (member : item ∈ forest.walk base) :
    ∃ name ∈ forest.names, ∃ below, item.1 = base ++ name :: below := by
  induction forest generalizing base with
  | nil => cases member
  | file name content rest ih =>
    rcases List.mem_cons.mp member with rfl | member
    · exact ⟨name, List.mem_cons_self, [], rfl⟩
    · obtain ⟨other, listed, below, place⟩ := ih member
      exact ⟨other, List.mem_cons_of_mem _ listed, below, place⟩
  | dir name inside rest ihInside ihRest =>
    rcases List.mem_cons.mp member with rfl | member
    · exact ⟨name, List.mem_cons_self, [], rfl⟩
    rcases List.mem_append.mp member with member | member
    · obtain ⟨other, -, below, place⟩ := ihInside member
      exact ⟨name, List.mem_cons_self, other :: below, by rw [place, List.append_assoc]; rfl⟩
    · obtain ⟨other, listed, below, place⟩ := ihRest member
      exact ⟨other, List.mem_cons_of_mem _ listed, below, place⟩

/-- What the walk meets is reached by names of the forest. -/
theorem named_of_mem_walk {P : ι → Prop} (named : forest.AllNames P) {base : List ι}
    (above : ∀ name ∈ base, P name) {item : List ι × Node α} (member : item ∈ forest.walk base) :
    ∀ name ∈ item.1, P name := by
  induction forest generalizing base with
  | nil => cases member
  | file name content rest ih =>
    rcases List.mem_cons.mp member with rfl | member
    · exact List.forall_mem_append.mpr ⟨above, List.forall_mem_singleton.mpr named.1⟩
    · exact ih named.2 above member
  | dir name inside rest ihInside ihRest =>
    have within : ∀ part ∈ base ++ [name], P part :=
      List.forall_mem_append.mpr ⟨above, List.forall_mem_singleton.mpr named.1⟩
    rcases List.mem_cons.mp member with rfl | member
    · exact within
    rcases List.mem_append.mp member with member | member
    · exact ihInside named.2.1 within member
    · exact ihRest named.2.2 above member

/-- The walk from another place meets the same, there. -/
theorem walk_append (base place : List ι) (forest : Forest ι α) :
    forest.walk (base ++ place) =
      (forest.walk place).map fun item => (base ++ item.1, item.2) := by
  induction forest generalizing place with
  | nil => rfl
  | file name content rest ih =>
    rw [walk, walk, ih, List.map_cons, List.append_assoc]
  | dir name inside rest ihInside ihRest =>
    rw [walk, walk, List.append_assoc, ihInside, ihRest, List.map_cons, List.map_append]

private theorem not_prefix_beside {base place below : List ι} {name other : ι}
    (different : other ≠ name) : ¬ base ++ other :: below <+: base ++ name :: place := by
  rw [List.prefix_append_right_inj, List.cons_prefix_cons]
  exact fun same => different same.1

/-- Every directory is met before what it contains, and nothing is met twice. -/
theorem walk_descending (distinct : forest.Distinct) (base : List ι) :
    Descending (forest.walk base) := by
  induction forest generalizing base with
  | nil => exact .nil
  | file name content rest ih =>
    obtain ⟨unlisted, distinct⟩ := distinct
    refine .cons (fun later member => ?_) (ih distinct base)
    obtain ⟨other, listed, below, place⟩ := listed_of_mem_walk member
    rw [place]
    exact not_prefix_beside fun same => unlisted (same ▸ listed)
  | dir name inside rest ihInside ihRest =>
    obtain ⟨unlisted, distinctInside, distinctRest⟩ := distinct
    have beside : ∀ place, ∀ later ∈ rest.walk base, ¬ later.1 <+: base ++ name :: place := by
      intro place later member
      obtain ⟨other, listed, below, stands⟩ := listed_of_mem_walk member
      rw [stands]
      exact not_prefix_beside fun same => unlisted (same ▸ listed)
    refine .cons (fun later member => ?_) (List.pairwise_append.mpr
      ⟨ihInside distinctInside _, ihRest distinctRest _, fun earlier first later second => ?_⟩)
    · rcases List.mem_append.mp member with member | member
      · -- what is inside lies deeper
        obtain ⟨other, -, below, stands⟩ := listed_of_mem_walk member
        intro above
        have lengths := above.length_le
        simp only [stands, List.length_append, List.length_cons, List.length_nil] at lengths
        omega
      · exact beside [] later member
    · obtain ⟨other, -, below, stands⟩ := listed_of_mem_walk first
      rw [stands, List.append_assoc]
      exact beside (other :: below) later second

/-- The walk meets what stands below the directory. -/
theorem mem_walk_iff [DecidableEq ι] (distinct : forest.Distinct) {place : List ι}
    {node : Node α} : (place, node) ∈ forest.walk [] ↔ forest.lookup place = some node := by
  have inside (name : ι) (place : List ι) (forest : Forest ι α) :
      (name :: place, node) ∈ forest.walk [name] ↔ (place, node) ∈ forest.walk [] := by
    rw [← List.append_nil [name], walk_append]
    simp
  have elsewhere {name other : ι} (different : other ≠ name) (place : List ι)
      (forest : Forest ι α) : (other :: place, node) ∉ forest.walk [name] := by
    intro member
    obtain ⟨_, -, _, stands⟩ := listed_of_mem_walk member
    exact different (List.cons.inj stands).1
  induction forest generalizing place with
  | nil => simp [walk, lookup]
  | file name content rest ih =>
    obtain ⟨unlisted, distinct⟩ := distinct
    have others : (place, node) ∈ rest.walk [] ↔ rest.lookup place = some node := ih distinct
    rw [walk, List.mem_cons, others]
    cases place with
    | nil => simp [lookup, lookup_nil_path]
    | cons first below =>
      by_cases same : first = name
      · subst same
        rw [lookup, if_pos rfl, lookup_of_not_listed unlisted]
        by_cases whole : below = []
        · simp [whole, eq_comm]
        · simp [whole]
      · simp [lookup, same]
  | dir name within rest ihInside ihRest =>
    obtain ⟨unlisted, distinctInside, distinctRest⟩ := distinct
    have others : (place, node) ∈ rest.walk [] ↔ rest.lookup place = some node :=
      ihRest distinctRest
    rw [walk, List.nil_append, List.mem_cons, List.mem_append, others]
    cases place with
    | nil =>
      have nothing : (([] : List ι), node) ∉ within.walk [name] := by
        intro member
        obtain ⟨_, -, _, stands⟩ := listed_of_mem_walk member
        cases stands
      simp [lookup, lookup_nil_path, nothing]
    | cons first below =>
      by_cases same : first = name
      · subst same
        have below_iff : (below, node) ∈ within.walk [] ↔ within.lookup below = some node :=
          ihInside distinctInside
        rw [lookup, if_pos rfl, lookup_of_not_listed unlisted, inside, below_iff]
        by_cases whole : below = []
        · simp [whole, lookup_nil_path, eq_comm]
        · simp [whole]
      · rw [lookup, if_neg same]
        simp [same, elsewhere same]

/-- What has something below it is a directory. -/
theorem lookup_above [DecidableEq ι] {place : List ι} {name : ι} {node : Node α}
    (nonempty : place ≠ []) (stands : forest.lookup (place ++ [name]) = some node) :
    forest.lookup place = some .dir := by
  obtain ⟨first, below, rfl⟩ := List.exists_cons_of_ne_nil nonempty
  rw [List.cons_append] at stands
  induction forest generalizing first below with
  | nil => cases stands
  | file other content rest ih =>
    rw [lookup] at stands ⊢
    by_cases same : first = other
    · rw [if_pos same, if_neg (by simp)] at stands
      cases stands
    · rw [if_neg same] at stands ⊢
      exact ih first below nonempty stands
  | dir other inside rest ihInside ihRest =>
    rw [lookup] at stands ⊢
    by_cases same : first = other
    · rw [if_pos same, if_neg (by simp)] at stands
      rw [if_pos same]
      cases below with
      | nil => rfl
      | cons second below => exact ihInside second below (List.cons_ne_nil _ _) stands
    · rw [if_neg same] at stands ⊢
      exact ihRest first below nonempty stands

end Forest

/-! ## Creating -/

namespace Files

variable [DecidableEq ι]

def createAll (items : List (List ι × Node α)) (files : Files ι α) : Option (Files ι α) :=
  items.foldlM (fun files item => files.create item.1 item.2) files

def putAll (items : List (List ι × Node α)) (files : Files ι α) : Files ι α :=
  items.foldl (fun files item => files.put item.1 item.2) files

@[simp] theorem putAll_cons (item : List ι × Node α) (items : List (List ι × Node α))
    (files : Files ι α) : putAll (item :: items) files = putAll items (files.put item.1 item.2) :=
  rfl

theorem createAll_cons (item : List ι × Node α) (items : List (List ι × Node α))
    (files : Files ι α) :
    createAll (item :: items) files = (files.create item.1 item.2).bind (createAll items) := rfl

theorem putAll_of_not_mem {items : List (List ι × Node α)} {place : List ι}
    (elsewhere : ∀ item ∈ items, item.1 ≠ place) (files : Files ι α) :
    putAll items files place = files place := by
  induction items generalizing files with
  | nil => rfl
  | cons item items ih =>
    rw [List.forall_mem_cons] at elsewhere
    rw [putAll_cons, ih elsewhere.2, put_of_ne elsewhere.1.symm]

theorem putAll_of_mem {items : List (List ι × Node α)} (distinct : (items.map Prod.fst).Nodup)
    {place : List ι} {node : Node α} (member : (place, node) ∈ items) (files : Files ι α) :
    putAll items files place = some node := by
  induction items generalizing files with
  | nil => cases member
  | cons item items ih =>
    obtain ⟨once, distinct⟩ := List.nodup_cons.mp distinct
    rcases List.mem_cons.mp member with rfl | member
    · have elsewhere : ∀ later ∈ items, later.1 ≠ place := fun later behind same =>
        once (List.mem_map.mpr ⟨later, behind, same⟩)
      rw [putAll_cons, putAll_of_not_mem elsewhere, put_self]
    · exact ih distinct member _

/-- Nodes for different places can be put in any order. -/
theorem putAll_perm {items others : List (List ι × Node α)} (same : items.Perm others)
    (distinct : (items.map Prod.fst).Nodup) (files : Files ι α) :
    putAll items files = putAll others files := by
  have distinctOthers : (others.map Prod.fst).Nodup := (same.map Prod.fst).nodup_iff.mp distinct
  funext place
  by_cases listed : ∃ node, (place, node) ∈ items
  · obtain ⟨node, member⟩ := listed
    rw [putAll_of_mem distinct member, putAll_of_mem distinctOthers (same.subset member)]
  · have elsewhere : ∀ item ∈ items, item.1 ≠ place := fun item member here =>
      listed ⟨item.2, here ▸ member⟩
    rw [putAll_of_not_mem elsewhere,
      putAll_of_not_mem fun item member => elsewhere item (same.symm.subset member)]

/-- The directory of each node was there or is one of the nodes before it. -/
def ParentsFirst (files : Files ι α) (items : List (List ι × Node α)) : Prop :=
  ∀ before item after, items = before ++ item :: after →
    files item.1.dropLast = some .dir ∨ (item.1.dropLast, .dir) ∈ before

theorem parentsFirst_cons {files : Files ι α} {item : List ι × Node α}
    {items : List (List ι × Node α)} (free : files item.1 = none) :
    ParentsFirst files (item :: items) ↔
      files item.1.dropLast = some .dir ∧ ParentsFirst (files.put item.1 item.2) items := by
  -- the first node is there for the others
  have passed (place : List ι) :
      files.put item.1 item.2 place = some .dir ↔
        files place = some .dir ∨ (place, .dir) = item := by
    by_cases same : place = item.1
    · rw [same, put_self, free, Prod.ext_iff]
      simp [eq_comm]
    · rw [put_of_ne same, Prod.ext_iff]
      simp [same]
  constructor
  · intro parents
    have here : files item.1.dropLast = some .dir :=
      (parents [] item items rfl).resolve_right List.not_mem_nil
    refine ⟨here, fun before other after split => ?_⟩
    rcases parents (item :: before) other after (by rw [split]; rfl) with there | earlier
    · exact .inl ((passed _).mpr (.inl there))
    · rcases List.mem_cons.mp earlier with first | earlier
      · exact .inl ((passed _).mpr (.inr first))
      · exact .inr earlier
  · rintro ⟨here, parents⟩ before other after split
    cases before with
    | nil =>
      cases split
      exact .inl here
    | cons first before =>
      cases split
      rcases parents before other after rfl with there | earlier
      · rcases (passed _).mp there with there | same
        · exact .inl there
        · exact .inr (same ▸ List.mem_cons_self)
      · exact .inr (List.mem_cons_of_mem _ earlier)

/-- A row of creations succeeds exactly when no node comes before its directory. -/
theorem createAll_iff {items : List (List ι × Node α)} {files final : Files ι α}
    (distinct : (items.map Prod.fst).Nodup) (vacant : ∀ item ∈ items, files item.1 = none) :
    createAll items files = some final ↔
      ParentsFirst files items ∧ final = putAll items files := by
  induction items generalizing files with
  | nil =>
    have nothing : ParentsFirst files [] := fun before item after split => by simp at split
    simp [createAll, putAll, nothing, eq_comm]
  | cons item items ih =>
    obtain ⟨free, vacant⟩ := List.forall_mem_cons.mp vacant
    obtain ⟨once, distinct⟩ := List.nodup_cons.mp distinct
    have untouched : ∀ other ∈ items, files.put item.1 item.2 other.1 = none := by
      intro other member
      have elsewhere : other.1 ≠ item.1 := fun same => once (same ▸ List.mem_map_of_mem member)
      rw [put_of_ne elsewhere, vacant other member]
    rw [createAll_cons, Option.bind_eq_some_iff, parentsFirst_cons free, putAll_cons]
    constructor
    · rintro ⟨between, made, rest⟩
      obtain ⟨-, parent, rfl⟩ := create_eq_some_iff.mp made
      obtain ⟨parents, rfl⟩ := (ih distinct untouched).mp rest
      exact ⟨⟨parent, parents⟩, rfl⟩
    · rintro ⟨⟨parent, parents⟩, rfl⟩
      exact ⟨_, create_eq_some_iff.mpr ⟨free, parent, rfl⟩,
        (ih distinct untouched).mpr ⟨parents, rfl⟩⟩

omit [DecidableEq ι] in
theorem nodup_of_descending {items : List (List ι × Node α)} (descending : Descending items) :
    (items.map Prod.fst).Nodup := by
  rw [List.Nodup, List.pairwise_map]
  refine descending.imp fun {earlier later} apart same => apart ?_
  exact same ▸ List.prefix_refl earlier.1

omit [DecidableEq ι] in
/-- In a descending row a directory that is there at all comes first. -/
theorem parentsFirst_iff {items : List (List ι × Node α)} (descending : Descending items)
    (files : Files ι α) :
    ParentsFirst files items ↔ ∀ item ∈ items, files item.1.dropLast = some .dir ∨
      item.1 ≠ [] ∧ (item.1.dropLast, .dir) ∈ items := by
  constructor
  · intro parents item member
    obtain ⟨before, after, split⟩ := List.append_of_mem member
    refine (parents before item after split).imp id fun earlier => ⟨fun top => ?_, ?_⟩
    · rw [split, Descending, List.pairwise_append] at descending
      exact descending.2.2 _ earlier item List.mem_cons_self (top ▸ List.nil_prefix)
    · exact split ▸ List.mem_append_left _ earlier
  · rintro parents before item after rfl
    refine (parents item (by simp)).imp id fun ⟨deep, member⟩ => ?_
    rcases List.mem_append.mp member with earlier | member
    · exact earlier
    rcases List.mem_cons.mp member with same | later
    · have lengths := congrArg (fun item => item.1.length) same
      have long := List.length_pos_iff.mpr deep
      simp only [List.length_dropLast] at lengths
      omega
    · -- nothing further on stands above the node
      have apart := (List.pairwise_cons.mp (List.pairwise_append.mp descending).2.1).1
      exact absurd (List.dropLast_prefix _) (apart _ later)

/-! ## What may change -/

/-- Nothing changes but at these places, nothing is removed or becomes a node of the other
kind, and what is new stands in a directory. -/
structure Frame (allowed : List ι → Prop) (before after : Files ι α) : Prop where
  outside : ∀ place, ¬ allowed place → after place = before place
  directories : ∀ place, before place = some .dir → after place = some .dir
  files : ∀ place content, before place = some (.file content) →
    ∃ content', after place = some (.file content')
  grounded : ∀ place, before place = none → after place ≠ none → after place.dropLast = some .dir

variable {allowed : List ι → Prop} {before between after : Files ι α}

omit [DecidableEq ι] in
theorem Frame.refl (allowed : List ι → Prop) (files : Files ι α) : Frame allowed files files where
  outside _ _ := rfl
  directories _ stands := stands
  files _ content stands := ⟨content, stands⟩
  grounded _ free taken := absurd free taken

omit [DecidableEq ι] in
theorem Frame.trans (first : Frame allowed before between) (second : Frame allowed between after) :
    Frame allowed before after where
  outside place other := (second.outside place other).trans (first.outside place other)
  directories place stands := second.directories place (first.directories place stands)
  files place content stands := by
    obtain ⟨content', stands'⟩ := first.files place content stands
    exact second.files place content' stands'
  grounded place free taken := by
    by_cases late : between place = none
    · exact second.grounded place late taken
    · exact second.directories _ (first.grounded place free late)

omit [DecidableEq ι] in
theorem Frame.mono {more : List ι → Prop} (frame : Frame allowed before after)
    (wider : ∀ place, allowed place → more place) : Frame more before after where
  outside place other := frame.outside place fun inside => other (wider place inside)
  directories := frame.directories
  files := frame.files
  grounded := frame.grounded

theorem frame_create {place : List ι} {node : Node α}
    (created : before.create place node = some after) : Frame (· = place) before after := by
  obtain ⟨free, parent, rfl⟩ := create_eq_some_iff.mp created
  have kept {other : List ι} {stands : Node α} (there : before other = some stands) :
      before.put place node other = some stands := by
    rw [put_of_ne (fun same => by rw [same, free] at there; cases there), there]
  refine ⟨fun other different => put_of_ne different, fun _ there => kept there,
    fun _ content there => ⟨content, kept there⟩, fun other absent taken => ?_⟩
  by_cases same : other = place
  · rw [same, kept parent]
  · rw [put_of_ne same] at taken
    exact absurd absent taken

/-- A file gets another content. -/
theorem frame_put_file {place : List ι} {content : α} (stands : before place = some (.file content))
    (content' : α) : Frame (· = place) before (before.put place (.file content')) where
  outside other different := put_of_ne different
  directories other there := by
    rw [put_of_ne (fun same => by rw [same, stands] at there; cases there), there]
  files other content there := by
    by_cases same : other = place
    · exact ⟨content', by rw [same, put_self]⟩
    · exact ⟨content, by rw [put_of_ne same, there]⟩
  grounded other free taken := by
    by_cases same : other = place
    · rw [same, stands] at free
      cases free
    · rw [put_of_ne same] at taken
      exact absurd free taken

/-- The top is a directory, and so is what anything stands in. -/
structure Rooted (files : Files ι α) : Prop where
  top : files [] = some .dir
  inside : ∀ place node, files place = some node → files place.dropLast = some .dir

omit [DecidableEq ι] in
theorem Rooted.above {files : Files ι α} (rooted : files.Rooted) (place : List ι) (name : ι)
    (stands : files (place ++ [name]) = some .dir) : files place = some .dir := by
  have parent := rooted.inside _ _ stands
  rwa [List.dropLast_concat] at parent

omit [DecidableEq ι] in
theorem Frame.rooted (frame : Frame allowed before after) (rooted : before.Rooted) :
    after.Rooted where
  top := frame.directories [] rooted.top
  inside place node stands := by
    cases earlier : before place with
    | none => exact frame.grounded place earlier (by rw [stands]; exact Option.some_ne_none node)
    | some other => exact frame.directories _ (rooted.inside place other earlier)

/-! ## Unpacking -/

/-- Put a file where one is, or create it. -/
def write (files : Files ι α) (place : List ι) (content : α) : Option (Files ι α) :=
  match files place with
  | some .dir => none
  | some (.file _) => some (files.put place (.file content))
  | none => files.create place (.file content)

/-- A directory has to be new, a file may take the place of another. -/
def install (files : Files ι α) (item : List ι × Node α) : Option (Files ι α) :=
  match item.2 with
  | .dir => files.create item.1 .dir
  | .file content => files.write item.1 content

def unpack (items : List (List ι × Node α)) (files : Files ι α) : Option (Files ι α) :=
  items.foldlM install files

def Writable (files : Files ι α) (place : List ι) : Prop :=
  files place ≠ some .dir ∧ (files place = none → files place.dropLast = some .dir)

theorem write_eq_some_iff {files final : Files ι α} {place : List ι} {content : α} :
    files.write place content = some final ↔
      Writable files place ∧ final = files.put place (.file content) := by
  rw [write, Writable]
  cases stands : files place with
  | none => simp [create_eq_some_iff, stands]
  | some node =>
    cases node with
    | dir => simp
    | file other => simp [eq_comm]

theorem unpack_cons_iff {item : List ι × Node α} {items : List (List ι × Node α)}
    {files final : Files ι α} :
    unpack (item :: items) files = some final ↔
      ∃ between, files.install item = some between ∧ unpack items between = some final :=
  Option.bind_eq_some_iff

theorem unpack_append (first second : List (List ι × Node α)) (files : Files ι α) :
    unpack (first ++ second) files = (unpack first files).bind (unpack second) :=
  List.foldlM_append

theorem install_eq_put {files final : Files ι α} {item : List ι × Node α}
    (installed : files.install item = some final) : final = files.put item.1 item.2 := by
  obtain ⟨place, node⟩ := item
  cases node with
  | dir => exact (create_eq_some_iff.mp installed).2.2
  | file content => exact (write_eq_some_iff.mp installed).2

theorem frame_install {files final : Files ι α} {item : List ι × Node α}
    (installed : files.install item = some final) : Frame (· = item.1) files final := by
  obtain ⟨place, node⟩ := item
  cases node with
  | dir => exact frame_create installed
  | file content =>
    change files.write place content = some final at installed
    rw [write] at installed
    cases stands : files place with
    | none =>
      rw [stands] at installed
      exact frame_create installed
    | some node =>
      cases node with
      | dir => simp [stands] at installed
      | file other =>
        rw [stands] at installed
        cases installed
        exact frame_put_file stands content

theorem unpack_eq_putAll {items : List (List ι × Node α)} {files final : Files ι α}
    (unpacked : unpack items files = some final) : final = putAll items files := by
  induction items generalizing files with
  | nil => exact (Option.some.inj unpacked).symm
  | cons item items ih =>
    obtain ⟨between, installed, rest⟩ := unpack_cons_iff.mp unpacked
    rw [ih rest, install_eq_put installed, putAll_cons]

theorem frame_unpack {items : List (List ι × Node α)} {files final : Files ι α}
    (unpacked : unpack items files = some final) :
    Frame (fun place => ∃ item ∈ items, item.1 = place) files final := by
  induction items generalizing files with
  | nil =>
    cases unpacked
    exact Frame.refl _ _
  | cons item items ih =>
    obtain ⟨between, installed, rest⟩ := unpack_cons_iff.mp unpacked
    refine ((frame_install installed).mono ?_).trans ((ih rest).mono ?_)
    · exact fun place here => ⟨item, List.mem_cons_self, here.symm⟩
    · exact fun place ⟨other, member, here⟩ => ⟨other, List.mem_cons_of_mem _ member, here⟩

/-- Every node is still of its kind in the end. -/
theorem kind_of_unpack {items : List (List ι × Node α)} {files final : Files ι α}
    (unpacked : unpack items files = some final) {item : List ι × Node α} (member : item ∈ items) :
    (item.2 = .dir → final item.1 = some .dir) ∧
      (item.2 ≠ .dir → ∃ content, final item.1 = some (.file content)) := by
  induction items generalizing files with
  | nil => cases member
  | cons first items ih =>
    obtain ⟨between, installed, rest⟩ := unpack_cons_iff.mp unpacked
    rcases List.mem_cons.mp member with rfl | member
    · have frame := frame_unpack rest
      have stands : between item.1 = some item.2 := by
        rw [install_eq_put installed, put_self]
      cases kind : item.2 with
      | dir => exact ⟨fun _ => frame.directories _ (kind ▸ stands), fun other => absurd rfl other⟩
      | file content => exact ⟨nofun, fun _ => frame.files _ content (kind ▸ stands)⟩
    · exact ih rest member

theorem unpack_of_files {items : List (List ι × Node α)} {files : Files ι α}
    (there : ∀ item ∈ items, item.2 ≠ .dir ∧ ∃ content, files item.1 = some (.file content)) :
    unpack items files = some (putAll items files) := by
  induction items generalizing files with
  | nil => rfl
  | cons item items ih =>
    obtain ⟨⟨kind, content, stands⟩, there⟩ := List.forall_mem_cons.mp there
    have installed : files.install item = some (files.put item.1 item.2) := by
      obtain ⟨place, node⟩ := item
      cases node with
      | dir => exact absurd rfl kind
      | file other => simp only [install, write, stands]
    refine unpack_cons_iff.mpr ⟨_, installed, ih fun other member => ⟨(there other member).1, ?_⟩⟩
    obtain ⟨content', stands'⟩ := (there other member).2
    exact (frame_install installed).files _ content' stands'

/-- The last node for a place is what counts, however often all of them are put. -/
theorem putAll_putAll (items : List (List ι × Node α)) (files : Files ι α) :
    putAll items (putAll items files) = putAll items files := by
  have last : ∀ place, (∀ item ∈ items, item.1 ≠ place) ∨
      ∃ node, ∀ files : Files ι α, putAll items files place = some node := by
    intro place
    induction items with
    | nil => exact .inl nofun
    | cons item items ih =>
      rcases ih with elsewhere | ⟨node, found⟩
      · by_cases same : item.1 = place
        · refine .inr ⟨item.2, fun files => ?_⟩
          rw [putAll_cons, putAll_of_not_mem elsewhere, same, put_self]
        · exact .inl (List.forall_mem_cons.mpr ⟨same, elsewhere⟩)
      · exact .inr ⟨node, fun files => found _⟩
  funext place
  rcases last place with elsewhere | ⟨node, found⟩
  · rw [putAll_of_not_mem elsewhere]
  · rw [found, found]

/-- The same nodes can be unpacked again exactly when no directory is among them, and then
nothing changes. -/
theorem unpack_again_iff {items : List (List ι × Node α)} {files final again : Files ι α}
    (unpacked : unpack items files = some final) :
    unpack items final = some again ↔ (∀ item ∈ items, item.2 ≠ .dir) ∧ again = final := by
  have whole := unpack_eq_putAll unpacked
  constructor
  · intro unpackedAgain
    have kinds : ∀ item ∈ items, item.2 ≠ .dir := by
      intro item member directory
      -- it is there before the item is come to, and it stays there
      obtain ⟨before, after, split⟩ := List.append_of_mem member
      rw [split, unpack_append, Option.bind_eq_some_iff] at unpackedAgain
      obtain ⟨between, earlier, later⟩ := unpackedAgain
      obtain ⟨_, installed, -⟩ := unpack_cons_iff.mp later
      have stands := (frame_unpack earlier).directories _
        ((kind_of_unpack unpacked member).1 directory)
      rw [install, directory] at installed
      rw [(create_eq_some_iff.mp installed).1] at stands
      cases stands
    refine ⟨kinds, ?_⟩
    rw [unpack_eq_putAll unpackedAgain, whole, putAll_putAll]
  · rintro ⟨kinds, rfl⟩
    rw [unpack_of_files fun item member =>
      ⟨kinds item member, (kind_of_unpack unpacked member).2 (kinds item member)⟩]
    rw [whole, putAll_putAll]

/-- Where nothing is in the way, unpacking is creating. -/
theorem unpack_eq_createAll {items : List (List ι × Node α)} {files : Files ι α}
    (distinct : (items.map Prod.fst).Nodup) (vacant : ∀ item ∈ items, files item.1 = none) :
    unpack items files = createAll items files := by
  induction items generalizing files with
  | nil => rfl
  | cons item items ih =>
    obtain ⟨free, vacant⟩ := List.forall_mem_cons.mp vacant
    have first : files.install item = files.create item.1 item.2 := by
      obtain ⟨place, node⟩ := item
      cases node with
      | dir => rfl
      | file content => simp only [install, write, free]
    change (files.install item).bind (unpack items) = (files.create item.1 item.2).bind _
    rw [first]
    refine Option.bind_congr fun between created => ?_
    obtain ⟨-, -, rfl⟩ := create_eq_some_iff.mp created
    obtain ⟨once, distinct⟩ := List.nodup_cons.mp distinct
    refine ih distinct fun other member => ?_
    have elsewhere : other.1 ≠ item.1 := fun same => once (same ▸ List.mem_map_of_mem member)
    rw [put_of_ne elsewhere, vacant other member]

end Files

end MyappsCommon.Lib
