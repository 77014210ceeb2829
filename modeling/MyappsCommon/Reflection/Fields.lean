import MyappsCommon.Reflection.Adds

/-! # Basic types as fields

The reflectors of the opening messages transfer numbers and texts as fields.  With these for
the basic types, a record has the format that its `add` calls have there.
-/

namespace MyappsCommon.Reflection

open MyappsCommon.Lib MyappsCommon.Lib.Format

variable {α β τ : Type}

namespace Field

def asU32 : Field → Option UInt32
  | u32 value => some value
  | _ => none

def asU64 : Field → Option UInt64
  | u64 value => some value
  | _ => none

def asStr : Field → Option (List UInt8)
  | str value => some value
  | _ => none

theorem asU32_eq_some_iff (field : Field) (value : UInt32) :
    field.asU32 = some value ↔ field = u32 value := by
  cases field <;> simp [asU32]

theorem asU64_eq_some_iff (field : Field) (value : UInt64) :
    field.asU64 = some value ↔ field = u64 value := by
  cases field <;> simp [asU64]

theorem asStr_eq_some_iff (field : Field) (value : List UInt8) :
    field.asStr = some value ↔ field = str value := by
  cases field <;> simp [asStr]

end Field

namespace Fields

def u32 : Unlimited Field UInt32 := symbol.embed Field.u32 Field.asU32 Field.asU32_eq_some_iff
def u64 : Unlimited Field UInt64 := symbol.embed Field.u64 Field.asU64 Field.asU64_eq_some_iff
def str : Unlimited Field (List UInt8) := symbol.embed Field.str Field.asStr Field.asStr_eq_some_iff

def u8 : Unlimited Field UInt8 := u32.spelled UInt8.toUInt32 UInt32.toUInt8 UInt8.toUInt8_toUInt32

def i64 : Unlimited Field Int64 :=
  u64.spelled Int64.toUInt64 UInt64.toInt64 Int64.toInt64_toUInt64

def bool : Unlimited Field Bool :=
  u32.spelled (fun value => if value then 1 else 0) (fun number => decide (number = 1)) (by decide)

/-- The bytes that hold the bits. -/
def bitset (width : Nat) : Unlimited Field (BitVec width) :=
  str.spelled (fun value => BinaryArchive.leBytes ((width + 7) / 8) value.toNat)
    (fun bytes => BitVec.ofNat width (BinaryArchive.ofLeBytes bytes)) fun value => by
      have fits : value.toNat < 256 ^ ((width + 7) / 8) := by
        have bits : 256 ^ ((width + 7) / 8) = 2 ^ (8 * ((width + 7) / 8)) := by
          rw [Nat.pow_mul]
        rw [bits]
        exact Nat.lt_of_lt_of_le value.isLt (Nat.pow_le_pow_right Nat.two_pos (by omega))
      rw [BinaryArchive.ofLeBytes_leBytes fits, BitVec.ofNat_toNat, BitVec.setWidth_eq]

def typeId : Unlimited Field (UInt8 × UInt16) :=
  u32.spelled (fun value => UInt32.ofNat (value.1.toNat * 65536 + value.2.toNat))
    (fun number => (UInt8.ofNat (number.toNat / 65536), UInt16.ofNat number.toNat)) fun value => by
      obtain ⟨protocol, message⟩ := value
      have small := protocol.toNat_lt
      have small' := message.toNat_lt
      have joined : (UInt32.ofNat (protocol.toNat * 65536 + message.toNat)).toNat =
          protocol.toNat * 65536 + message.toNat := UInt32.toNat_ofNat_of_lt' (by
        show _ < 4294967296
        omega)
      rw [joined, Prod.mk.injEq, ← UInt8.toNat_inj, ← UInt16.toNat_inj, UInt8.toNat_ofNat',
        UInt16.toNat_ofNat']
      omega

instance : u32.Canonical := by
  rw [u32]
  infer_instance

instance : u64.Canonical := by
  rw [u64]
  infer_instance

instance : str.Canonical := by
  rw [str]
  infer_instance

instance : u8.Canonical := by
  rw [u8]
  infer_instance

instance : i64.Canonical := by
  rw [i64]
  infer_instance

instance : bool.Canonical := by
  rw [bool]
  infer_instance

instance : typeId.Canonical := by
  rw [typeId]
  infer_instance

instance (width : Nat) : (bitset width).Canonical := by
  rw [bitset]
  infer_instance

theorem advances_u32 : u32.Advances := advances_symbol.unlimited _ _ Field.asU32_eq_some_iff

theorem advances_typeId : typeId.Advances := advances_u32.unlimited _ _ _

end Fields

/-- Every basic type is one field. -/
def fieldBasics : Basics Field where
  u8 := Fields.u8
  u32 := Fields.u32
  u64 := Fields.u64
  i64 := Fields.i64
  bool := Fields.bool
  bitset := Fields.bitset
  string := Fields.str
  stream := Fields.str
  size := Fields.u64
  typeId := Fields.typeId
  u32_advances := Fields.advances_u32
  typeId_advances := Fields.advances_typeId

instance : fieldBasics.Canonical where
  u8 := inferInstanceAs Fields.u8.Canonical
  u32 := inferInstanceAs Fields.u32.Canonical
  u64 := inferInstanceAs Fields.u64.Canonical
  i64 := inferInstanceAs Fields.i64.Canonical
  bool := inferInstanceAs Fields.bool.Canonical
  bitset width := inferInstanceAs (Fields.bitset width).Canonical
  string := inferInstanceAs Fields.str.Canonical
  stream := inferInstanceAs Fields.str.Canonical
  size := inferInstanceAs Fields.u64.Canonical
  typeId := inferInstanceAs Fields.typeId.Canonical

namespace Fields

@[simp] theorem write_u32 (value : UInt32) :
    fieldBasics.u32.write value = some [.u32 value] := rfl

@[simp] theorem takes_u32_iff {stream rest : List Field} {value : UInt32} :
    fieldBasics.u32.read.Takes stream value rest ↔ stream = .u32 value :: rest := by
  show (symbol.toFormat.embed _ _ Field.asU32_eq_some_iff).read.Takes _ _ _ ↔ _
  rw [takes_embed_iff, takes_symbol_iff]

@[simp] theorem takes_u64_iff {stream rest : List Field} {value : UInt64} :
    fieldBasics.u64.read.Takes stream value rest ↔ stream = .u64 value :: rest := by
  show (symbol.toFormat.embed _ _ Field.asU64_eq_some_iff).read.Takes _ _ _ ↔ _
  rw [takes_embed_iff, takes_symbol_iff]

@[simp] theorem write_u64 (value : UInt64) :
    fieldBasics.u64.write value = some [.u64 value] := rfl

@[simp] theorem write_string (value : List UInt8) :
    fieldBasics.string.write value = some [.str value] := rfl

@[simp] theorem takes_string_iff {stream rest : List Field} {value : List UInt8} :
    fieldBasics.string.read.Takes stream value rest ↔ stream = .str value :: rest := by
  show (symbol.toFormat.embed _ _ Field.asStr_eq_some_iff).read.Takes _ _ _ ↔ _
  rw [takes_embed_iff, takes_symbol_iff]

/-- At most 4096 bytes of text are transferred. -/
@[simp] theorem write_characters (value : List UInt8) :
    fieldBasics.characters.write value =
      if value.length ≤ 1024 * 4 then some [.str value] else none := rfl

@[simp] theorem takes_characters_iff {stream rest : List Field} {value : List UInt8} :
    fieldBasics.characters.read.Takes stream value rest ↔
      stream = .str value :: rest ∧ value.length ≤ 1024 * 4 := by
  rw [Basics.characters, takes_atMost_iff, takes_string_iff]

@[simp] theorem write_text (value : BinaryArchive.Sized UInt8) :
    fieldBasics.text.write value =
      if value.items.length ≤ 1024 * 4 then some [.str value.items] else none := rfl

@[simp] theorem takes_text_iff {stream rest : List Field} {value : BinaryArchive.Sized UInt8} :
    fieldBasics.text.read.Takes stream value rest ↔
      stream = .str value.items :: rest ∧ value.items.length ≤ 1024 * 4 := by
  rw [Basics.text, takes_embed_iff, takes_characters_iff]

end Fields

end MyappsCommon.Reflection
