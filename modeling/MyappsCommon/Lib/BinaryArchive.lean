import Mathlib.Algebra.Ring.Nat
import MyappsCommon.Lib.Traced

/-! # Binary archives

A serializer that describes an object once, for saving and for loading: numbers of a
fixed width, containers behind their length, the parts of a pair in order, and the class
version of a versioned type in front of the first object of that type in the archive.

`Carries` says that a saving and a loading run keep in step.  It composes along a
sequence, so that the law of a type is assembled from the laws of its parts.
-/

namespace MyappsCommon.Lib.BinaryArchive

/-! ## Numbers -/

/-- The `width` low bytes of a number, the lowest first. -/
def leBytes : Nat → Nat → List UInt8
  | 0, _ => []
  | width + 1, value => UInt8.ofNat value :: leBytes width (value / 256)

def ofLeBytes : List UInt8 → Nat
  | [] => 0
  | byte :: bytes => byte.toNat + 256 * ofLeBytes bytes

@[simp] theorem length_leBytes (width value : Nat) : (leBytes width value).length = width := by
  induction width generalizing value with
  | zero => rfl
  | succ width ih => rw [leBytes, List.length_cons, ih]

theorem ofLeBytes_leBytes {width value : Nat} (fits : value < 256 ^ width) :
    ofLeBytes (leBytes width value) = value := by
  induction width generalizing value with
  | zero => exact (Nat.lt_one_iff.mp fits).symm
  | succ width ih =>
    have high : value / 256 < 256 ^ width := by
      rw [Nat.div_lt_iff_lt_mul (by decide), ← Nat.pow_succ]
      exact fits
    rw [leBytes, ofLeBytes, ih high, UInt8.toNat_ofNat']
    exact Nat.mod_add_div value 256

/-! ## Containers -/

/-- The content of a container or a string, whose length is a 64-bit number. -/
structure Sized (α : Type) where
  items : List α
  bounded : items.length < 2 ^ 64

variable {κ α β γ δ : Type}

namespace Sized

@[ext] theorem ext {a b : Sized α} (same : a.items = b.items) : a = b := by
  cases a
  cases b
  cases same
  rfl

def empty : Sized α := ⟨[], Nat.two_pow_pos 64⟩

/-- What has been loaded behind a length. -/
def ofCount (size : UInt64) (loaded : {items : List α // items.length = size.toNat}) : Sized α where
  items := loaded.1
  bounded := by
    rw [loaded.2]
    exact size.toNat_lt

instance [DecidableEq α] : DecidableEq (Sized α) := fun a b =>
  decidable_of_iff (a.items = b.items) ⟨ext, congrArg items⟩

/-- The elements are compared in order. -/
instance [BEq α] : BEq (Sized α) := ⟨fun a b => a.items == b.items⟩

instance [BEq α] [LawfulBEq α] : LawfulBEq (Sized α) where
  eq_of_beq same := ext (eq_of_beq same)
  rfl {this} := beq_self_eq_true this.items

end Sized

/-! ## The archive -/

/-- The bytes written so far or still to be read, and the class versions that have been
written or read. -/
structure Store (κ : Type) where
  bytes : List UInt8
  versions : List (κ × UInt32)

abbrev ArchiveM (κ : Type) := Traced (Store κ) Empty

inductive Archive where
  | output | input
  deriving DecidableEq, Repr

/-- How a type is transferred.  The result is the value that the object has afterwards. -/
abbrev Serializer (κ α : Type) := Archive → α → ArchiveM κ α

def saveBinary (bytes : List UInt8) : ArchiveM κ Unit :=
  Traced.modifyState fun store => { store with bytes := store.bytes ++ bytes }

/-- An exception when fewer bytes are left. -/
def loadBinary (count : Nat) : ArchiveM κ {bytes : List UInt8 // bytes.length = count} :=
  ⟨fun store =>
    if enough : count ≤ store.bytes.length then
      ⟨.ok ⟨store.bytes.take count, List.length_take_of_le enough⟩,
        { store with bytes := store.bytes.drop count }, []⟩
    else ⟨.raised, store, []⟩⟩

def u32 : Serializer κ UInt32
  | .output, value => do
    saveBinary (leBytes 4 value.toNat)
    return value
  | .input, _ => do
    let bytes ← loadBinary 4
    return UInt32.ofNat (ofLeBytes bytes.1)

def u64 : Serializer κ UInt64
  | .output, value => do
    saveBinary (leBytes 8 value.toNat)
    return value
  | .input, _ => do
    let bytes ← loadBinary 8
    return UInt64.ofNat (ofLeBytes bytes.1)

/-- The length, then the bytes. -/
def text : Serializer κ (Sized UInt8)
  | .output, value => do
    let _ ← u64 .output (UInt64.ofNat value.items.length)
    saveBinary value.items
    return value
  | .input, _ => do
    let size ← u64 .input 0
    let bytes ← loadBinary size.toNat
    return Sized.ofCount size bytes

def saveItems (item : Serializer κ α) : List α → ArchiveM κ Unit
  | [] => pure ()
  | value :: values => do
    let _ ← item .output value
    saveItems item values

/-- Load `count` elements into the old content, which has been resized to `count`: an
element beyond its end is a fresh one. -/
def loadItems (item : Serializer κ α) (fresh : α) :
    (count : Nat) → List α → ArchiveM κ {items : List α // items.length = count}
  | 0, _ => pure ⟨[], rfl⟩
  | count + 1, old => do
    -- the elements that were there are kept, and loaded into
    let value ← item .input (old.headD fresh)
    let values ← loadItems item fresh count old.tail
    return ⟨value :: values.1, congrArg (· + 1) values.2⟩

/-- The length, then the elements. -/
def sequence (item : Serializer κ α) (fresh : α) : Serializer κ (Sized α)
  | .output, value => do
    let _ ← u64 .output (UInt64.ofNat value.items.length)
    saveItems item value.items
    return value
  | .input, old => do
    let size ← u64 .input 0
    let values ← loadItems item fresh size.toNat old.items
    return Sized.ofCount size values

def pair (first : Serializer κ α) (second : Serializer κ β) : Serializer κ (α × β) :=
  fun archive value => do
    let a ← first archive value.1
    let b ← second archive value.2
    return (a, b)

section Versioned

variable [DecidableEq κ]

/-- The class version of a type, transferred when it has not been before. -/
def registerClassVersion (classVersion : κ → UInt32) (key : κ) : Archive → ArchiveM κ UInt32
  | .output => do
    let store ← Traced.getState
    match store.versions.lookup key with
    -- an object of the type has been written before
    | some _ => return classVersion key
    | none =>
      Traced.modifyState fun store =>
        { store with versions := (key, classVersion key) :: store.versions }
      u32 .output (classVersion key)
  | .input => do
    let store ← Traced.getState
    match store.versions.lookup key with
    | some version => return version
    | none =>
      let version ← u32 .input 0
      Traced.modifyState fun store => { store with versions := (key, version) :: store.versions }
      return version

/-- A type whose `serialize` is given the class version. -/
def versioned (classVersion : κ → UInt32) (key : κ)
    (serialize : Archive → UInt32 → α → ArchiveM κ α) : Serializer κ α :=
  fun archive value => do
    let version ← registerClassVersion classVersion key archive
    serialize archive version value

end Versioned

/-! ## Saving and loading in step -/

section Carries

variable (classVersion : κ → UInt32)

/-- The versions known to an archive are those of the program. -/
def Agree (versions : List (κ × UInt32)) : Prop :=
  ∀ entry ∈ versions, entry.2 = classVersion entry.1

/-- From any versions in agreement, saving appends some bytes that loading takes again, and
both know the same versions afterwards. -/
def Carries (save : ArchiveM κ α) (load : ArchiveM κ β) (sent : α) (received : β) : Prop :=
  ∀ versions, Agree classVersion versions → ∃ bytes versions', Agree classVersion versions' ∧
    (∀ written, Traced.Gives save ⟨written, versions⟩ sent ⟨written ++ bytes, versions'⟩) ∧
    ∀ rest, Traced.Gives load ⟨bytes ++ rest, versions⟩ received ⟨rest, versions'⟩

/-- Every value is carried over, whatever the object held that it is loaded into. -/
def Faithful (item : Serializer κ α) : Prop :=
  ∀ value old, Carries classVersion (item .output value) (item .input old) value value

variable {classVersion}

theorem carries_pure (sent : α) (received : β) :
    Carries classVersion (pure sent) (pure received) sent received := by
  intro versions agree
  refine ⟨[], versions, agree, fun written => ?_, fun rest => ?_⟩
  · rw [Traced.gives_pure_iff, List.append_nil]
    exact ⟨rfl, rfl⟩
  · exact Traced.gives_pure_iff.mpr ⟨rfl, rfl⟩

theorem Carries.bind {save : ArchiveM κ α} {load : ArchiveM κ β} {sent : α} {received : β}
    {saveNext : α → ArchiveM κ γ} {loadNext : β → ArchiveM κ δ} {lastSent : γ} {lastReceived : δ}
    (first : Carries classVersion save load sent received)
    (second : Carries classVersion (saveNext sent) (loadNext received) lastSent lastReceived) :
    Carries classVersion (save >>= saveNext) (load >>= loadNext) lastSent lastReceived := by
  intro versions agree
  obtain ⟨bytes₁, between, agreeBetween, saved₁, loaded₁⟩ := first versions agree
  -- the second part starts with the versions that both sides know after the first
  obtain ⟨bytes₂, final, agreeFinal, saved₂, loaded₂⟩ := second between agreeBetween
  refine ⟨bytes₁ ++ bytes₂, final, agreeFinal, fun written => ?_, fun rest => ?_⟩
  · have next := saved₂ (written ++ bytes₁)
    rw [List.append_assoc] at next
    exact Traced.gives_bind_iff.mpr ⟨_, _, saved₁ written, next⟩
  · have first := loaded₁ (bytes₂ ++ rest)
    rw [← List.append_assoc] at first
    exact Traced.gives_bind_iff.mpr ⟨_, _, first, loaded₂ rest⟩

/-- Only the loading side goes on, without the archive. -/
theorem Carries.received {save : ArchiveM κ α} {load : ArchiveM κ β} {sent : α} {received : β}
    (first : Carries classVersion save load sent received) (finish : β → γ) :
    Carries classVersion save (load >>= fun value => pure (finish value)) sent
      (finish received) := by
  intro versions agree
  obtain ⟨bytes, final, agreeFinal, saved, loaded⟩ := first versions agree
  refine ⟨bytes, final, agreeFinal, saved, fun rest => ?_⟩
  exact Traced.gives_bind_iff.mpr ⟨_, _, loaded rest, Traced.gives_pure_iff.mpr ⟨rfl, rfl⟩⟩

theorem carries_binary (bytes : List UInt8) {count : Nat} (counted : bytes.length = count) :
    Carries classVersion (saveBinary bytes) (loadBinary count) () ⟨bytes, counted⟩ := by
  subst counted
  intro versions agree
  refine ⟨bytes, versions, agree, fun written => ⟨[], rfl⟩, fun rest => ⟨[], ?_⟩⟩
  simp [loadBinary]

theorem gives_u32_output (value : UInt32) (store : Store κ) :
    Traced.Gives (u32 .output value) store value
      { store with bytes := store.bytes ++ leBytes 4 value.toNat } := ⟨[], rfl⟩

theorem gives_u32_input (value old : UInt32) (rest : List UInt8)
    (versions : List (κ × UInt32)) :
    Traced.Gives (u32 .input old) ⟨leBytes 4 value.toNat ++ rest, versions⟩ value
      ⟨rest, versions⟩ := by
  have decoded : UInt32.ofNat (ofLeBytes (leBytes 4 value.toNat)) = value := by
    rw [ofLeBytes_leBytes value.toNat_lt, UInt32.ofNat_toNat]
  refine ⟨[], ?_⟩
  simp [u32, loadBinary, decoded, Result.prepend]

theorem faithful_u64 : Faithful classVersion u64 := by
  intro value old
  have decoded : UInt64.ofNat (ofLeBytes (leBytes 8 value.toNat)) = value := by
    rw [ofLeBytes_leBytes value.toNat_lt, UInt64.ofNat_toNat]
  refine (carries_binary _ (length_leBytes 8 _)).bind ?_
  simp only [decoded]
  exact carries_pure value value

/-- The length that is saved is the length that is there. -/
theorem Sized.toNat_length (this : Sized α) :
    (UInt64.ofNat this.items.length).toNat = this.items.length :=
  UInt64.toNat_ofNat_of_lt' this.bounded

theorem faithful_text : Faithful classVersion text := by
  intro value old
  refine (faithful_u64 _ _).bind ?_
  exact (carries_binary value.items value.toNat_length.symm).bind (carries_pure value value)

theorem carries_items {item : Serializer κ α} (faithful : Faithful classVersion item) (fresh : α)
    (values : List α) {count : Nat} (counted : values.length = count) (old : List α) :
    Carries classVersion (saveItems item values) (loadItems item fresh count old) ()
      ⟨values, counted⟩ := by
  subst counted
  -- over the saved values; what the container held does not matter
  induction values generalizing old with
  | nil => exact carries_pure () _
  | cons value values ih =>
    exact (faithful value _).bind ((ih old.tail).received _)

theorem faithful_sequence {item : Serializer κ α} (faithful : Faithful classVersion item)
    (fresh : α) : Faithful classVersion (sequence item fresh) := by
  intro value old
  refine (faithful_u64 _ _).bind ?_
  exact (carries_items faithful fresh value.items value.toNat_length.symm _).bind
    (carries_pure value value)

theorem faithful_pair {first : Serializer κ α} {second : Serializer κ β}
    (left : Faithful classVersion first) (right : Faithful classVersion second) :
    Faithful classVersion (pair first second) := by
  intro value old
  exact (left _ _).bind ((right _ _).bind (carries_pure value value))

variable [DecidableEq κ]

theorem Agree.lookup {versions : List (κ × UInt32)} (agree : Agree classVersion versions)
    {key : κ} {version : UInt32} (known : versions.lookup key = some version) :
    version = classVersion key := by
  induction versions with
  | nil => cases known
  | cons entry versions ih =>
    rw [List.lookup_cons] at known
    split at known
    case h_1 same =>
      obtain rfl := Option.some.inj known
      rw [eq_of_beq same]
      exact agree entry List.mem_cons_self
    case h_2 => exact ih (fun other member => agree other (List.mem_cons_of_mem _ member)) known

/-- Both sides transfer the version at the same places: where the type is not among the
versions, which are the same. -/
theorem carries_classVersion (key : κ) :
    Carries classVersion (registerClassVersion classVersion key .output)
      (registerClassVersion classVersion key .input) (classVersion key) (classVersion key) := by
  intro versions agree
  cases known : versions.lookup key with
  | some version =>
    -- neither side transfers anything
    obtain rfl := agree.lookup known
    refine ⟨[], versions, agree, fun written => ⟨[], ?_⟩, fun rest => ⟨[], ?_⟩⟩
    · simp [registerClassVersion, known, Result.prepend]
    · simp [registerClassVersion, known, Result.prepend]
  | none =>
    -- both sides transfer four bytes and know the version from then on
    have agreeAfter : Agree classVersion ((key, classVersion key) :: versions) := by
      intro entry member
      rcases List.mem_cons.mp member with rfl | member
      · rfl
      · exact agree entry member
    refine ⟨leBytes 4 (classVersion key).toNat, _, agreeAfter, fun written => ?_, fun rest => ?_⟩
    · simp only [registerClassVersion, Traced.gives_bind_iff, Traced.gives_getState_iff]
      refine ⟨_, _, ⟨rfl, rfl⟩, ?_⟩
      simp only [known, Traced.gives_bind_iff, Traced.gives_modifyState_iff]
      exact ⟨(), _, rfl, gives_u32_output _ _⟩
    · simp only [registerClassVersion, Traced.gives_bind_iff, Traced.gives_getState_iff]
      refine ⟨_, _, ⟨rfl, rfl⟩, ?_⟩
      simp only [known, Traced.gives_bind_iff, Traced.gives_modifyState_iff,
        Traced.gives_pure_iff]
      exact ⟨_, _, gives_u32_input _ _ _ _, (), _, rfl, rfl, rfl⟩

theorem faithful_versioned {key : κ} {serialize : Archive → UInt32 → α → ArchiveM κ α}
    (faithful : Faithful classVersion fun archive => serialize archive (classVersion key)) :
    Faithful classVersion (versioned classVersion key serialize) := by
  intro value old
  exact (carries_classVersion key).bind (faithful value old)

end Carries

end MyappsCommon.Lib.BinaryArchive
