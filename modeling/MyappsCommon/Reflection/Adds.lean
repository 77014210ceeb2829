import MyappsCommon.Lib.Format
import MyappsCommon.Reflection

/-! # Records on the wire

What a type shows of itself by `add` calls, for both reflectors at once.  How the reflector
transfers the basic types is a parameter; the limits are those of `metadata_factory`.
-/

namespace MyappsCommon.Reflection

open MyappsCommon.Lib MyappsCommon.Lib.Format
open MyappsCommon.Lib.BinaryArchive (Sized)

variable {σ α β τ : Type}

/-- The transfer of the basic types, of the length of a container and of the type id that
goes before a message. -/
structure Basics (σ : Type) where
  u8 : Unlimited σ UInt8
  u32 : Unlimited σ UInt32
  u64 : Unlimited σ UInt64
  i64 : Unlimited σ Int64
  bool : Unlimited σ Bool
  bitset : (width : Nat) → Unlimited σ (BitVec width)
  string : Unlimited σ (List UInt8)
  stream : Unlimited σ (List UInt8)
  size : Unlimited σ UInt64
  typeId : Unlimited σ (UInt8 × UInt16)
  u32_advances : u32.Advances
  typeId_advances : typeId.Advances

namespace Basics

/-- Every basic type has one spelling for each value. -/
class Canonical (basics : Basics σ) : Prop where
  u8 : basics.u8.Canonical
  u32 : basics.u32.Canonical
  u64 : basics.u64.Canonical
  i64 : basics.i64.Canonical
  bool : basics.bool.Canonical
  bitset : ∀ width, (basics.bitset width).Canonical
  string : basics.string.Canonical
  stream : basics.stream.Canonical
  size : basics.size.Canonical
  typeId : basics.typeId.Canonical

attribute [instance] Canonical.u8 Canonical.u32 Canonical.u64 Canonical.i64 Canonical.bool
  Canonical.bitset Canonical.string Canonical.stream Canonical.size Canonical.typeId

/-- `metadata::String{1024 * 4}` -/
def characters (basics : Basics σ) : Format σ (List UInt8) :=
  basics.string.atMost List.length (1024 * 4)

/-- A string has no more characters than its length can count. -/
def counted (items : List UInt8) : Option (Sized UInt8) :=
  if bounded : items.length < 2 ^ 64 then some ⟨items, bounded⟩ else none

theorem counted_eq_some_iff (items : List UInt8) (value : Sized UInt8) :
    counted items = some value ↔ items = value.items := by
  constructor
  · intro known
    obtain ⟨bounded, same⟩ := Option.dite_none_right_eq_some.mp known
    exact congrArg Sized.items (Option.some.inj same)
  · rintro rfl
    exact dif_pos value.bounded

def text (basics : Basics σ) : Format σ (Sized UInt8) :=
  basics.characters.embed Sized.items counted counted_eq_some_iff

def containerAtMost (basics : Basics σ) (maxSize : Nat) (item : Format σ α) :
    Format σ (Sized α) :=
  sequence basics.size maxSize item

/-- `metadata::Container{1024 * 4}` -/
def container (basics : Basics σ) (item : Format σ α) : Format σ (Sized α) :=
  basics.containerAtMost (1024 * 4) item

/-- `size` is set where a stream is sent and `maxSize` where it is received, and they are equal.
That a longer stream is not sent is assumed of `solid`, as that it is not taken. -/
def file (basics : Basics σ) (size maxSize : Nat) (same : maxSize = size) :
    Format σ (List UInt8) :=
  { basics.stream.atMost List.length size with
    read := basics.stream.read.decoded fun content =>
      if content.length ≤ maxSize then some content else none
    read_write := same ▸ (basics.stream.atMost List.length size).read_write
    of_read := same ▸ (basics.stream.atMost List.length size).of_read
    read_front := same ▸ (basics.stream.atMost List.length size).read_front }

theorem file_eq (basics : Basics σ) {size maxSize : Nat} (same : maxSize = size) :
    basics.file size maxSize same = basics.stream.atMost List.length size := by
  subst same
  rfl

end Basics

/-- A sequence of `add` calls. -/
structure Adds (σ α : Type) extends Format σ α where
  accesses : List Access

instance : CoeOut (Adds σ α) (Format σ α) := ⟨Adds.toFormat⟩

namespace Adds

/-- No `add` call. -/
def none : Adds σ Unit := ⟨constant (), []⟩

/-- `_r.add(field, _rctx, index, name)`, then the others. -/
def add (index : Nat) (name : String) (field : Format σ α) (others : Adds σ β) :
    Adds σ (α × β) :=
  ⟨field.pair others, ⟨index, name⟩ :: others.accesses⟩

/-- `_r.add(field, _rctx, index, name)`, then an added closure that goes on if the field is
`present`.  Otherwise the members keep the values of a fresh object. -/
def addClosure (index : Nat) (name : String) (field : Format σ α) (present : α → Bool)
    (others : Adds σ β) (fresh : β) : Adds σ (α × β) :=
  ⟨field.gated present others fresh, ⟨index, name⟩ :: others.accesses⟩

/-- The calls are made under a condition on the context. -/
def when (present : Bool) (adds : Adds σ α) (fresh : α) : Adds σ α :=
  ⟨adds.optional present fresh, if present then adds.accesses else []⟩

/-- The members of an object are what the calls are made for. -/
def members (same : α ≃ τ) (adds : Adds σ τ) : Adds σ α :=
  ⟨adds.iso same, adds.accesses⟩

end Adds

/-! ## One spelling for each value -/

instance (basics : Basics σ) [basics.Canonical] : basics.characters.Canonical :=
  inferInstanceAs (atMost ..).Canonical

instance (basics : Basics σ) [basics.Canonical] : basics.text.Canonical :=
  inferInstanceAs (embed ..).Canonical

instance (basics : Basics σ) [basics.Canonical] (maxSize : Nat) (item : Format σ α)
    [item.Canonical] : (basics.containerAtMost maxSize item).Canonical :=
  inferInstanceAs (sequence ..).Canonical

instance (basics : Basics σ) [basics.Canonical] (item : Format σ α) [item.Canonical] :
    (basics.container item).Canonical :=
  inferInstanceAs (basics.containerAtMost ..).Canonical

instance (basics : Basics σ) [basics.Canonical] (size maxSize : Nat) (same : maxSize = size) :
    (basics.file size maxSize same).Canonical := by
  rw [basics.file_eq same]
  exact inferInstanceAs (atMost ..).Canonical

namespace Adds

instance : (none : Adds σ Unit).Canonical := inferInstanceAs (constant ()).Canonical

instance (index : Nat) (name : String) (field : Format σ α) (others : Adds σ β)
    [field.Canonical] [others.Canonical] : (add index name field others).Canonical :=
  inferInstanceAs (pair ..).Canonical

instance (index : Nat) (name : String) (field : Format σ α) (present : α → Bool)
    (others : Adds σ β) (fresh : β) [field.Canonical] [others.Canonical] :
    (addClosure index name field present others fresh).Canonical :=
  inferInstanceAs (gated ..).Canonical

instance (present : Bool) (adds : Adds σ α) (fresh : α) [adds.Canonical] :
    (when present adds fresh).Canonical :=
  inferInstanceAs (optional ..).Canonical

instance (same : α ≃ τ) (adds : Adds σ τ) [adds.Canonical] : (members same adds).Canonical :=
  inferInstanceAs (iso ..).Canonical

end Adds

/-! ## What a reader takes -/

namespace Adds

variable {stream rest : List σ}

@[simp] theorem takes_none_iff {value : Unit} :
    (none : Adds σ Unit).read.Takes stream value rest ↔ stream = rest :=
  takes_constant_iff.trans (and_iff_right (unit_eq _))

@[simp] theorem takes_add_iff {index : Nat} {name : String} {field : Format σ α}
    {others : Adds σ β} {value : α × β} :
    (add index name field others).read.Takes stream value rest ↔
      ∃ between, field.read.Takes stream value.1 between ∧
        others.read.Takes between value.2 rest :=
  takes_pair_iff

@[simp] theorem takes_addClosure_iff {index : Nat} {name : String} {field : Format σ α}
    {present : α → Bool} {others : Adds σ β} {fresh : β} {value : α × β} :
    (addClosure index name field present others fresh).read.Takes stream value rest ↔
      ∃ between, field.read.Takes stream value.1 between ∧
        if present value.1 then others.read.Takes between value.2 rest
        else value.2 = fresh ∧ between = rest :=
  takes_gated_iff

@[simp] theorem takes_when_iff {present : Bool} {adds : Adds σ α} {fresh value : α} :
    (when present adds fresh).read.Takes stream value rest ↔
      if present then adds.read.Takes stream value rest else value = fresh ∧ stream = rest :=
  takes_optional_iff

@[simp] theorem takes_members_iff {same : α ≃ τ} {adds : Adds σ τ} {value : α} :
    (members same adds).read.Takes stream value rest ↔
      adds.read.Takes stream (same value) rest :=
  takes_iso_iff

end Adds

/-! ## What a writer shows -/

namespace Adds

@[simp] theorem write_none (value : Unit) : (none : Adds σ Unit).write value = some [] := rfl

@[simp] theorem write_add (index : Nat) (name : String) (field : Format σ α)
    (others : Adds σ β) (value : α × β) :
    (add index name field others).write value =
      Option.map₂ (· ++ ·) (field.write value.1) (others.write value.2) := rfl

@[simp] theorem write_addClosure (index : Nat) (name : String) (field : Format σ α)
    (present : α → Bool) (others : Adds σ β) (fresh : β) (value : α × β) :
    (addClosure index name field present others fresh).write value =
      Option.map₂ (· ++ ·) (field.write value.1)
        (if present value.1 then others.write value.2 else some []) := by
  show Option.map₂ _ _ ((others.optional (present value.1) fresh).write value.2) = _
  cases present value.1 <;> rfl

@[simp] theorem write_when (present : Bool) (adds : Adds σ α) (fresh value : α) :
    (when present adds fresh).write value = if present then adds.write value else some [] := by
  cases present <;> rfl

@[simp] theorem write_members (same : α ≃ τ) (adds : Adds σ τ) (value : α) :
    (members same adds).write value = adds.write (same value) := rfl

end Adds

/-! ## What is left out, and the sizes that are limited -/

@[simp] theorem intact_unlimited (format : Unlimited σ α) (value : α) :
    (format : Format σ α).Intact value := format.whole value

@[simp] theorem Basics.intact_text (basics : Basics σ) (value : Sized UInt8) :
    basics.text.Intact value := basics.string.whole value.items

@[simp] theorem Basics.intact_characters (basics : Basics σ) (value : List UInt8) :
    basics.characters.Intact value := basics.string.whole value

@[simp] theorem Basics.intact_file (basics : Basics σ) (size maxSize : Nat)
    (same : maxSize = size) (content : List UInt8) :
    (basics.file size maxSize same).Intact content := basics.stream.whole content

@[simp] theorem Basics.intact_containerAtMost (basics : Basics σ) (maxSize : Nat)
    (item : Format σ α) (value : Sized α) :
    (basics.containerAtMost maxSize item).Intact value ↔
      ∀ element ∈ value.items, item.Intact element := intact_sequence ..

@[simp] theorem Basics.intact_container (basics : Basics σ) (item : Format σ α)
    (value : Sized α) :
    (basics.container item).Intact value ↔ ∀ element ∈ value.items, item.Intact element :=
  intact_sequence ..

namespace Adds

@[simp] theorem intact_none (value : Unit) : (none : Adds σ Unit).Intact value := rfl

@[simp] theorem intact_add (index : Nat) (name : String) (field : Format σ α)
    (others : Adds σ β) (value : α × β) :
    (add index name field others).Intact value ↔
      field.Intact value.1 ∧ others.Intact value.2 := Iff.rfl

@[simp] theorem intact_addClosure (index : Nat) (name : String) (field : Format σ α)
    (present : α → Bool) (others : Adds σ β) (fresh : β) (value : α × β) :
    (addClosure index name field present others fresh).Intact value ↔
      field.Intact value.1 ∧
        if present value.1 then others.Intact value.2 else value.2 = fresh :=
  intact_gated ..

@[simp] theorem intact_when (present : Bool) (adds : Adds σ α) (fresh value : α) :
    (when present adds fresh).Intact value ↔
      if present then adds.Intact value else value = fresh :=
  intact_optional ..

@[simp] theorem intact_members (same : α ≃ τ) (adds : Adds σ τ) (value : α) :
    (members same adds).Intact value ↔ adds.Intact (same value) := Iff.rfl

end Adds

@[simp] theorem Basics.extents_characters (basics : Basics σ) (value : List UInt8) :
    basics.characters.extents value = [⟨value.length, 1024 * 4⟩] := by
  show ⟨value.length, 1024 * 4⟩ :: basics.string.extents value = _
  rw [basics.string.unlimited]

@[simp] theorem Basics.extents_text (basics : Basics σ) (value : Sized UInt8) :
    basics.text.extents value = [⟨value.items.length, 1024 * 4⟩] := by
  show ⟨value.items.length, 1024 * 4⟩ :: basics.string.extents value.items = _
  rw [basics.string.unlimited]

@[simp] theorem Basics.extents_containerAtMost (basics : Basics σ) (maxSize : Nat)
    (item : Format σ α) (value : Sized α) :
    (basics.containerAtMost maxSize item).extents value =
      ⟨value.items.length, maxSize⟩ :: value.items.flatMap item.extents :=
  extents_sequence ..

@[simp] theorem Basics.extents_container (basics : Basics σ) (item : Format σ α)
    (value : Sized α) :
    (basics.container item).extents value =
      ⟨value.items.length, 1024 * 4⟩ :: value.items.flatMap item.extents :=
  extents_sequence ..

@[simp] theorem extents_unlimited (format : Unlimited σ α) (value : α) :
    (format : Format σ α).extents value = [] := format.unlimited value

namespace Adds

@[simp] theorem extents_none (value : Unit) : (none : Adds σ Unit).extents value = [] := rfl

@[simp] theorem extents_add (index : Nat) (name : String) (field : Format σ α)
    (others : Adds σ β) (value : α × β) :
    (add index name field others).extents value =
      field.extents value.1 ++ others.extents value.2 := rfl

@[simp] theorem extents_addClosure (index : Nat) (name : String) (field : Format σ α)
    (present : α → Bool) (others : Adds σ β) (fresh : β) (value : α × β) :
    (addClosure index name field present others fresh).extents value =
      field.extents value.1 ++ if present value.1 then others.extents value.2 else [] := by
  show _ ++ (others.optional (present value.1) fresh).extents value.2 = _
  cases present value.1 <;> rfl

@[simp] theorem extents_when (present : Bool) (adds : Adds σ α) (fresh value : α) :
    (when present adds fresh).extents value = if present then adds.extents value else [] := by
  cases present <;> rfl

@[simp] theorem extents_members (same : α ≃ τ) (adds : Adds σ τ) (value : α) :
    (members same adds).extents value = adds.extents (same value) := rfl

end Adds

end MyappsCommon.Reflection
