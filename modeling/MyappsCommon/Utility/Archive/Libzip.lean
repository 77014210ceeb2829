import Mathlib.Algebra.Ring.Nat
import MyappsCommon.Lib.Path
import MyappsCommon.Lib.Traced

/-! # What the archive functions see of libzip

An archive that is open for reading is the list of what the calls on each index give.
-/

namespace MyappsCommon.Utility.Archive

open MyappsCommon.Lib

abbrev Bytes := List UInt8

/-- The character `/`. -/
def slash : UInt8 := 47

/-- Components `.` and `..` between slashes. -/
def pathFormat : Path.Format UInt8 := ⟨slash, [46], [46, 46]⟩

def metaExtraFieldId : UInt16 := 0x3333

/-- The capacity of the read buffer. -/
def bufcp : Nat := 1024 * 64

/-- `zip_stat_t`.  The name is a C string; `before` is the byte that memory holds in
front of it. -/
structure ZipStat where
  name : Bytes
  size : UInt64
  before : UInt8
  terminated : 0 ∉ name
  addressable : name.length < 2 ^ 64

namespace ZipStat

def strlen (stat : ZipStat) : UInt64 := UInt64.ofNat stat.name.length

/-- `stat.name[index]`: a character, the terminator, or, where the index has wrapped,
the byte in front. -/
def nameAt (stat : ZipStat) (index : UInt64) : UInt8 :=
  if inside : index.toNat < stat.name.length then stat.name.get ⟨index.toNat, inside⟩
  else if index.toNat = stat.name.length then 0
  else stat.before

/-- `stat.name[name_len - 1] == '/'` -/
def isFolder (stat : ZipStat) : Bool := stat.nameAt (stat.strlen - 1) == slash

end ZipStat

/-- An open entry: the pieces that `zip_fread` delivers into the buffer, and the first
result that is not positive, 0 at the end of the data and negative for an error. -/
structure ZipFile where
  chunks : List Bytes
  last : Int
  pieces : ∀ chunk ∈ chunks, 0 < chunk.length ∧ chunk.length ≤ bufcp
  ended : last ≤ 0

/-- The read loop's count, kept in a `uint64_t`. -/
def addChunk (total : UInt64) (chunk : Bytes) : UInt64 := total + UInt64.ofNat chunk.length

theorem foldl_addChunk (chunks : List Bytes) (total : UInt64) :
    chunks.foldl addChunk total = total + UInt64.ofNat chunks.flatten.length := by
  induction chunks generalizing total with
  | nil => exact (UInt64.add_zero total).symm
  | cons chunk chunks ih =>
    rw [List.foldl_cons, ih, addChunk, List.flatten_cons, List.length_append,
      UInt64.ofNat_add, UInt64.add_assoc]

/-- A file without data. -/
def ZipFile.empty : ZipFile := ⟨[], 0, List.forall_mem_nil _, Int.le_refl 0⟩

def ZipFile.delivered (file : ZipFile) : UInt64 := file.chunks.foldl addChunk 0

structure ExtraField where
  data : Bytes
  short : data.length < 2 ^ 16

/-- What the calls on one index give: no `stat` when `zip_stat_index` fails, no `file`
when `zip_fopen_index` does. -/
structure ZipEntry where
  stat : Option ZipStat
  file : Option ZipFile
  extraFields : List (UInt16 × ExtraField)

/-- `zip_file_extra_field_get_by_id`, for the first field of that id. -/
def ZipEntry.extraFieldById (entry : ZipEntry) (id : UInt16) : Option ExtraField :=
  entry.extraFields.lookup id

/-- `zip_get_num_entries`; a null handle has -1 entries. -/
def zipGetNumEntries : Option (List ZipEntry) → Int
  | none => -1
  | some entries => entries.length

theorem ZipStat.toNat_strlen (stat : ZipStat) : stat.strlen.toNat = stat.name.length :=
  UInt64.toNat_ofNat_of_lt' stat.addressable

/-- The index of the last character, if there is one. -/
theorem ZipStat.toNat_strlen_sub_one (stat : ZipStat) (nonempty : stat.name ≠ []) :
    (stat.strlen - 1).toNat = stat.name.length - 1 := by
  have counted := stat.toNat_strlen
  rw [UInt64.toNat_sub_of_le, counted]
  · rfl
  · rw [UInt64.le_iff_toNat_le, counted]
    exact List.length_pos_iff.mpr nonempty

/-- A name is read at its last character, if it has one. -/
theorem ZipStat.isFolder_of_nonempty (stat : ZipStat) (nonempty : stat.name ≠ []) :
    stat.isFolder = (stat.name.getLast? == some slash) := by
  have positive := List.length_pos_iff.mpr nonempty
  have index := stat.toNat_strlen_sub_one nonempty
  rw [isFolder, nameAt, dif_pos (by omega), List.getLast?_eq_some_getLast nonempty,
    List.getLast_eq_getElem]
  simp only [index, List.get_eq_getElem, Option.some_beq_some]

end MyappsCommon.Utility.Archive
