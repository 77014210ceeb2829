import MyappsCommon.Lib.BitField
import MyappsCommon.Lib.FlagWord
import MyappsCommon.Utility.AppItem
import MyappsCommon.Utility.Build

/-! # Flags of applications, list items, fetch requests and configurations -/

namespace MyappsCommon.Utility

open MyappsCommon.Lib MyappsCommon.Lib.BinaryArchive

/-! ## `Application` -/

inductive ApplicationFlagE where
  | test
  deriving DecidableEq, Repr

namespace ApplicationFlagE

def value : ApplicationFlagE → Nat
  | test => 0

theorem value_lt (flag : ApplicationFlagE) : flag.value < 64 := by
  cases flag
  decide

theorem value_injective : Function.Injective value := by
  intro first second _
  cases first
  cases second
  rfl

def places : FlagWord 64 ApplicationFlagE := ⟨value, value_lt, value_injective⟩

end ApplicationFlagE

namespace Application

def isFlagSet (this : Application) (flag : ApplicationFlagE) : Bool :=
  ApplicationFlagE.places.test this.flags_.toBitVec flag

def setFlag (this : Application) (flag : ApplicationFlagE) : Application :=
  { this with flags_ := ⟨ApplicationFlagE.places.set this.flags_.toBitVec flag⟩ }

def resetFlag (this : Application) (flag : ApplicationFlagE) : Application :=
  { this with flags_ := ⟨ApplicationFlagE.places.reset this.flags_.toBitVec flag⟩ }

def call (this : Application) : FlagWord.Call ApplicationFlagE → Application
  | .set flag => this.setFlag flag
  | .reset flag => this.resetFlag flag

theorem foldl_call (this : Application) (calls : List (FlagWord.Call ApplicationFlagE)) :
    calls.foldl call this =
      { this with
        flags_ := ⟨calls.foldl (FlagWord.Call.onWord ApplicationFlagE.places)
          this.flags_.toBitVec⟩ } := by
  induction calls generalizing this with
  | nil => rfl
  | cons first calls ih =>
    rw [List.foldl_cons, ih]
    cases first <;> rfl

end Application

/-! ## `ApplicationListItem` -/

inductive AppFlagE where
  | reviewRequest | owned | default
  deriving DecidableEq, Repr

namespace AppFlagE

def value : AppFlagE → Nat
  | reviewRequest => 0
  | owned => 1
  | default => 2

theorem value_lt (flag : AppFlagE) : flag.value < 32 := by
  cases flag <;> decide

theorem value_injective : Function.Injective value := by
  intro first second same
  cases first <;> cases second <;> first | rfl | cases same

def places : FlagWord 32 AppFlagE := ⟨value, value_lt, value_injective⟩

end AppFlagE

structure ApplicationListItem where
  id_ : Text := Sized.empty
  unique_ : Text := Sized.empty
  name_ : Text := Sized.empty
  flags_ : UInt32 := 0

namespace ApplicationListItem

def flags (this : ApplicationListItem) : UInt32 := this.flags_

def setFlags (this : ApplicationListItem) (flags : UInt32) : ApplicationListItem :=
  { this with flags_ := flags }

/-- `1UL << static_cast<uint8_t>(_flag)`; an `unsigned long` has at least 32 bits. -/
def bit (long : Nat) (flag : AppFlagE) : BitVec long := BitVec.ofNat long 1 <<< flag.value

/-- The number is widened for the operation and cut down when it is stored. -/
def setFlag (long : Nat) (this : ApplicationListItem) (flag : AppFlagE) : ApplicationListItem :=
  this.setFlags ⟨(this.flags.toBitVec.setWidth long ||| bit long flag).setWidth 32⟩

def resetFlag (long : Nat) (this : ApplicationListItem) (flag : AppFlagE) :
    ApplicationListItem :=
  this.setFlags ⟨(this.flags.toBitVec.setWidth long &&& ~~~bit long flag).setWidth 32⟩

def isFlagSet (long : Nat) (this : ApplicationListItem) (flag : AppFlagE) : Bool :=
  this.flags.toBitVec.setWidth long &&& bit long flag != BitVec.ofNat long 0

def call (long : Nat) (this : ApplicationListItem) :
    FlagWord.Call AppFlagE → ApplicationListItem
  | .set flag => this.setFlag long flag
  | .reset flag => this.resetFlag long flag

section Widened

variable {long : Nat} (wide : 32 ≤ long)
include wide

theorem value_lt_long (flag : AppFlagE) : flag.value < long := flag.value_lt.trans_le wide

/-- The places of the flags in the widened number. -/
def longPlaces : FlagWord long AppFlagE :=
  ⟨AppFlagE.value, value_lt_long wide, AppFlagE.value_injective⟩

/-- The width of an `unsigned long` does not matter. -/
theorem setFlag_eq (this : ApplicationListItem) (flag : AppFlagE) :
    this.setFlag long flag =
      this.setFlags ⟨AppFlagE.places.set this.flags_.toBitVec flag⟩ := by
  rw [setFlag]
  congr 2
  apply BitVec.eq_of_getLsbD_eq
  intro i inside
  rw [FlagWord.getLsbD_set, BitVec.getLsbD_setWidth, BitVec.getLsbD_or, BitVec.getLsbD_setWidth,
    decide_eq_true inside, decide_eq_true (inside.trans_le wide), Bool.true_and, Bool.true_and]
  congr 1
  exact (longPlaces wide).getLsbD_bit flag i

theorem resetFlag_eq (this : ApplicationListItem) (flag : AppFlagE) :
    this.resetFlag long flag =
      this.setFlags ⟨AppFlagE.places.reset this.flags_.toBitVec flag⟩ := by
  rw [resetFlag]
  congr 2
  apply BitVec.eq_of_getLsbD_eq
  intro i inside
  have widened := inside.trans_le wide
  rw [FlagWord.getLsbD_reset, BitVec.getLsbD_setWidth, BitVec.getLsbD_and, BitVec.getLsbD_setWidth,
    BitVec.getLsbD_not, decide_eq_true inside, decide_eq_true widened, Bool.true_and,
    Bool.true_and, Bool.true_and]
  congr 2
  exact (longPlaces wide).getLsbD_bit flag i

theorem isFlagSet_eq (this : ApplicationListItem) (flag : AppFlagE) :
    this.isFlagSet long flag = AppFlagE.places.test this.flags_.toBitVec flag := by
  have bits := (longPlaces wide).test_eq (this.flags_.toBitVec.setWidth long) flag
  rw [BitVec.getLsbD_setWidth, decide_eq_true ((longPlaces wide).inside flag), Bool.true_and]
    at bits
  rw [FlagWord.test_eq]
  exact bits

theorem foldl_call (this : ApplicationListItem) (calls : List (FlagWord.Call AppFlagE)) :
    calls.foldl (call long) this =
      this.setFlags ⟨calls.foldl (FlagWord.Call.onWord AppFlagE.places) this.flags_.toBitVec⟩ := by
  induction calls generalizing this with
  | nil => rfl
  | cons first calls ih =>
    rw [List.foldl_cons, ih]
    cases first with
    | set flag =>
      rw [call, setFlag_eq wide]
      rfl
    | reset flag =>
      rw [call, resetFlag_eq wide]
      rfl

end Widened

end ApplicationListItem

/-! ## `Build::FetchOptionsE` -/

namespace Build

inductive FetchOptionsE where
  | name | directory | flags | oses | mounts | exes | shortcuts | image | media | fetchCount
  deriving DecidableEq, Repr

def FetchOptionsE.value : FetchOptionsE → Nat
  | name => 0
  | directory => 1
  | flags => 2
  | oses => 3
  | mounts => 4
  | exes => 5
  | shortcuts => 6
  | image => 7
  | media => 8
  | fetchCount => 9

def optionsCount : Nat := FetchOptionsE.fetchCount.value

/-- `std::bitset<OptionsCount>` -/
abbrev FetchOptionBitsetT := BitVec optionsCount

def optionBit (opt : FetchOptionsE) : FetchOptionBitsetT :=
  BitVec.ofNat optionsCount 1 <<< opt.value

/-- `set` and `reset` throw for a position that the bits do not have. -/
def setOption (optBs : FetchOptionBitsetT) (opt : FetchOptionsE) : Option FetchOptionBitsetT :=
  if opt.value < optionsCount then some (optBs ||| optionBit opt) else none

def resetOption (optBs : FetchOptionBitsetT) (opt : FetchOptionsE) : Option FetchOptionBitsetT :=
  if opt.value < optionsCount then some (optBs &&& ~~~optionBit opt) else none

/-- `operator[]` is undefined for such a position. -/
def hasOption (optBs : FetchOptionBitsetT) (opt : FetchOptionsE) : Option Bool :=
  if opt.value < optionsCount then some (optBs.getLsbD opt.value) else none

/-- The options that stand for something to fetch. -/
abbrev FetchOption := {opt : FetchOptionsE // opt ≠ .fetchCount}

theorem value_lt_optionsCount (opt : FetchOption) : opt.1.value < optionsCount := by
  obtain ⟨opt, named⟩ := opt
  cases opt with
  | fetchCount => exact absurd rfl named
  | name | directory | flags | oses | mounts | exes | shortcuts | image | media =>
    exact Nat.lt_of_sub_pos (Nat.succ_pos _)

theorem value_injective : Function.Injective fun opt : FetchOption => opt.1.value := by
  rintro ⟨first, _⟩ ⟨second, _⟩ same
  apply Subtype.ext
  cases first <;> cases second <;> first | rfl | cases same

def optionPlaces : FlagWord optionsCount FetchOption :=
  ⟨fun opt => opt.1.value, value_lt_optionsCount, value_injective⟩

def optionCall (optBs : FetchOptionBitsetT) :
    FlagWord.Call FetchOption → Option FetchOptionBitsetT
  | .set opt => setOption optBs opt.1
  | .reset opt => resetOption optBs opt.1

theorem optionCall_eq (optBs : FetchOptionBitsetT) (call : FlagWord.Call FetchOption) :
    optionCall optBs call = some (call.onWord optionPlaces optBs) := by
  cases call with
  | set opt => exact if_pos (value_lt_optionsCount opt)
  | reset opt => exact if_pos (value_lt_optionsCount opt)

theorem hasOption_eq (optBs : FetchOptionBitsetT) (opt : FetchOption) :
    hasOption optBs opt.1 = some (optionPlaces.test optBs opt) := by
  rw [hasOption, if_pos (value_lt_optionsCount opt), FlagWord.test_eq]
  rfl

theorem foldlM_optionCall (optBs : FetchOptionBitsetT) (calls : List (FlagWord.Call FetchOption)) :
    calls.foldlM optionCall optBs =
      some (calls.foldl (FlagWord.Call.onWord optionPlaces) optBs) := by
  induction calls generalizing optBs with
  | nil => rfl
  | cons call calls ih =>
    rw [List.foldlM_cons, optionCall_eq]
    exact ih _

end Build

/-! ## The three words of flags are sets -/

/-- After any calls on any application, list item or set of fetch options the tests give the
set of flags that the same calls make of the initial one.  The other bits and the other
members are those that were there. -/
theorem flag_words_are_sets :
    (∀ (this : Application) (calls : List (FlagWord.Call ApplicationFlagE)),
      ∃ word, calls.foldl Application.call this = { this with flags_ := ⟨word⟩ } ∧
        ApplicationFlagE.places.Holds this.flags_.toBitVec word
          (calls.foldl FlagWord.Call.onFlags {flag | this.isFlagSet flag = true})) ∧
    (∀ (long : Nat), 32 ≤ long →
      ∀ (this : ApplicationListItem) (calls : List (FlagWord.Call AppFlagE)),
        ∃ word, calls.foldl (ApplicationListItem.call long) this = { this with flags_ := ⟨word⟩ } ∧
          AppFlagE.places.Holds this.flags_.toBitVec word
            (calls.foldl FlagWord.Call.onFlags {flag | this.isFlagSet long flag = true}) ∧
          ∀ flag, ({ this with flags_ := ⟨word⟩ } : ApplicationListItem).isFlagSet long flag =
            AppFlagE.places.test word flag) ∧
    ∀ (optBs : Build.FetchOptionBitsetT) (calls : List (FlagWord.Call Build.FetchOption)),
      ∃ word, calls.foldlM Build.optionCall optBs = some word ∧
        Build.optionPlaces.Holds optBs word
          (calls.foldl FlagWord.Call.onFlags {opt | Build.hasOption optBs opt.1 = some true}) := by
  refine ⟨fun this calls => ?_, fun long wide this calls => ?_, fun optBs calls => ?_⟩
  · refine ⟨_, Application.foldl_call this calls, ?_⟩
    exact (ApplicationFlagE.places.holds_initial this.flags_.toBitVec).calls calls
  · refine ⟨_, ApplicationListItem.foldl_call wide this calls, ?_, fun flag => ?_⟩
    · simp only [ApplicationListItem.isFlagSet_eq wide]
      exact (AppFlagE.places.holds_initial this.flags_.toBitVec).calls calls
    · exact ApplicationListItem.isFlagSet_eq wide _ flag
  · refine ⟨_, Build.foldlM_optionCall optBs calls, ?_⟩
    simp only [Build.hasOption_eq, Option.some.injEq]
    exact (Build.optionPlaces.holds_initial optBs).calls calls

/-! ## `Build::Configuration` -/

namespace Build.Configuration

def lastFlagId : Nat := 1

def flagNames : List (List UInt8) := [literal "HiddenDirectory"]

theorem flagNames_fit : flagNames.length ≤ 64 := by decide

/-- `casecmp` of a name and a C string. -/
def flagTable (casecmp : List UInt8 → List UInt8 → Int) : FlagNames 64 (List UInt8) :=
  ⟨flagNames, fun name text => casecmp name text == 0, flagNames_fit⟩

def flag (casecmp : List UInt8 → List UInt8 → Int) (name : List UInt8) : UInt64 :=
  ⟨(flagTable casecmp).flag name⟩

/-- The names that the function is called with, in order. -/
def forEachFlag (casecmp : List UInt8 → List UInt8 → Int) (flags : UInt64) : List (List UInt8) :=
  (flagTable casecmp).flagged flags.toBitVec

def computeFlags (casecmp : List UInt8 → List UInt8 → Int) (l : List (List UInt8)) : UInt64 :=
  ⟨(flagTable casecmp).ofTexts l⟩

/-- `1 << HiddenDirectory` is an `int`. -/
def hasHiddenDirectoryFlag (this : Configuration) : Bool :=
  this.flags_ &&& ((1 : UInt64) <<< 0) != 0

theorem hasHiddenDirectoryFlag_eq (this : Configuration) :
    this.hasHiddenDirectoryFlag = this.flags_.toBitVec.getLsbD 0 := by
  rw [← FlagNames.mask_eq (Nat.zero_lt_succ 63), Bool.eq_iff_iff, hasHiddenDirectoryFlag,
    bne_iff_ne, bne_iff_ne, Ne, Ne, ← UInt64.toBitVec_inj]
  rfl

theorem zero_notMem_flagNames : ∀ name ∈ flagNames, 0 ∉ name := by decide

section IgnoresCase

variable {casecmp : List UInt8 → List UInt8 → Int} (ignoresCase : IgnoresCase casecmp)
include ignoresCase

theorem flagTable_unambiguous : (flagTable casecmp).Unambiguous where
  unique {i j first second text} isAt isAt' isName isName' := by
    have inside : i < 1 := (List.getElem?_eq_some_iff.mp isAt).1
    have inside' : j < 1 := (List.getElem?_eq_some_iff.mp isAt').1
    omega
  self name member := by
    have noZero := zero_notMem_flagNames name member
    exact beq_iff_eq.mpr ((ignoresCase name name noZero noZero).mpr rfl)

/-- The flags of some names are visited under the names of the table, whatever the spelling. -/
theorem forEachFlag_computeFlags (l : List (List UInt8)) :
    forEachFlag casecmp (computeFlags casecmp l) =
      flagNames.filter fun name => l.any fun text => casecmp name text == 0 :=
  (flagTable_unambiguous ignoresCase).flagged_ofTexts l

/-- The names that are visited give the named flags back. -/
theorem computeFlags_forEachFlag (flags : UInt64) (i : Nat) :
    (computeFlags casecmp (forEachFlag casecmp flags)).toBitVec.getLsbD i =
      (decide (i < lastFlagId) && flags.toBitVec.getLsbD i) :=
  (flagTable_unambiguous ignoresCase).getLsbD_ofTexts_flagged flags.toBitVec i

/-- The flag of a configuration is set exactly if one of the texts spells its name. -/
theorem hasHiddenDirectoryFlag_computeFlags (this : Configuration) (l : List (List UInt8)) :
    { this with flags_ := computeFlags casecmp l }.hasHiddenDirectoryFlag =
      l.any fun text => casecmp (literal "HiddenDirectory") text == 0 := by
  rw [hasHiddenDirectoryFlag_eq, Bool.eq_iff_iff, List.any_eq_true]
  refine ((flagTable_unambiguous ignoresCase).getLsbD_ofTexts l 0).trans ⟨?_, ?_⟩
  · rintro ⟨name, isAt, text, member, isName⟩
    cases isAt
    exact ⟨text, member, isName⟩
  · rintro ⟨text, member, isName⟩
    exact ⟨_, rfl, text, member, isName⟩

end IgnoresCase

end Build.Configuration

/-! ## `StorageFetchChunk` -/

/-- `data_` is the number that the two bit fields of the union make up. -/
structure StorageFetchChunk where
  data_ : UInt32 := 0
  crc_ : UInt32 := 0
  deriving DecidableEq, Repr

namespace StorageFetchChunk

theorem size_fits : 0 + 31 ≤ 32 := by decide
theorem isCompressed_fits : 31 + 1 ≤ 32 := by decide

/-- `size_` -/
def sizeField : BitField 32 31 := ⟨0, size_fits⟩
/-- `is_compressed_` -/
def isCompressedField : BitField 32 1 := ⟨31, isCompressed_fits⟩

def size (this : StorageFetchChunk) : Nat := (sizeField.get this.data_.toBitVec).toNat

def isCompressed (this : StorageFetchChunk) : Bool :=
  isCompressedField.get this.data_.toBitVec == 1#1

/-- Assign to `size_`. -/
def setSize (this : StorageFetchChunk) (size : UInt32) : StorageFetchChunk :=
  { this with data_ := ⟨sizeField.set size.toBitVec this.data_.toBitVec⟩ }

/-- Assign to `is_compressed_`. -/
def setIsCompressed (this : StorageFetchChunk) (value : UInt32) : StorageFetchChunk :=
  { this with data_ := ⟨isCompressedField.set value.toBitVec this.data_.toBitVec⟩ }

theorem fields_disjoint : BitField.Disjoint sizeField isCompressedField :=
  BitField.disjoint_of_le (by decide)

theorem size_eq (this : StorageFetchChunk) : this.size = this.data_.toNat % 2 ^ 31 := by
  simp [size, sizeField, BitField.get]

theorem isCompressed_iff (this : StorageFetchChunk) :
    this.isCompressed = true ↔ 2 ^ 31 ≤ this.data_.toNat := by
  have bound := this.data_.toNat_lt
  have value : (isCompressedField.get this.data_.toBitVec).toNat =
      this.data_.toNat / 2 ^ 31 % 2 := by
    simp [isCompressedField, BitField.get, Nat.shiftRight_eq_div_pow]
  rw [isCompressed, beq_iff_eq, ← BitVec.toNat_inj, value, BitVec.toNat_ofNat]
  omega

/-- The two fields are all that `data_` says. -/
theorem toNat_data (this : StorageFetchChunk) :
    this.data_.toNat = this.size + if this.isCompressed then 2 ^ 31 else 0 := by
  have bound := this.data_.toNat_lt
  have high := this.isCompressed_iff
  rw [size_eq]
  split
  case isTrue compressed =>
    have := high.mp compressed
    omega
  case isFalse plain =>
    have := mt high.mpr plain
    omega

theorem setSize_parts (this : StorageFetchChunk) (size : UInt32) :
    (this.setSize size).size = size.toNat % 2 ^ 31 ∧
      (this.setSize size).isCompressed = this.isCompressed := by
  constructor
  · rw [StorageFetchChunk.size, setSize, BitField.get_set_self, BitVec.toNat_setWidth]
    rfl
  · rw [isCompressed, isCompressed, setSize, BitField.get_set_of_disjoint fields_disjoint.symm]

theorem setIsCompressed_parts (this : StorageFetchChunk) (value : UInt32) :
    (this.setIsCompressed value).size = this.size ∧
      (this.setIsCompressed value).isCompressed = decide (value.toNat % 2 = 1) := by
  constructor
  · rw [size, size, setIsCompressed, BitField.get_set_of_disjoint fields_disjoint]
  · rw [isCompressed, setIsCompressed, BitField.get_set_self, Bool.eq_iff_iff, beq_iff_eq,
      ← BitVec.toNat_inj, BitVec.toNat_setWidth, decide_eq_true_iff]
    rfl

end StorageFetchChunk

end MyappsCommon.Utility
