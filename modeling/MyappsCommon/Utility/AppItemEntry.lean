import MyappsCommon.Lib.BitField
import MyappsCommon.Reflection
import MyappsCommon.Utility.AppItem
import MyappsCommon.Utility.Build

/-! # `utility::AppItemEntry`

The state, the type and the flags of an item are bit fields of one 64-bit word, allocated
from the least significant bit.
-/

namespace MyappsCommon.Utility

open MyappsCommon.Lib MyappsCommon.Lib.BinaryArchive MyappsCommon.Reflection

/-- A value of the `enum` is any 8-bit number. -/
structure AppItemTypeE where
  value : UInt8
  deriving DecidableEq, Repr

namespace AppItemTypeE

def build : AppItemTypeE := ⟨0⟩
def media : AppItemTypeE := ⟨1⟩

end AppItemTypeE

inductive AppItemFlagE where
  | invalid | reviewAccepted | reviewRejected
  deriving DecidableEq, Repr

def AppItemFlagE.value : AppItemFlagE → Int8
  | invalid => -1
  | reviewAccepted => 0
  | reviewRejected => 1

/-- `static_cast<uint8_t>(_flag)` -/
def AppItemFlagE.number (flag : AppItemFlagE) : Nat := flag.value.toUInt8.toNat

/-- `1ULL << static_cast<uint8_t>(_flag)`, which is undefined from the width on. -/
def AppItemFlagE.bit (flag : AppItemFlagE) : Option UInt64 :=
  if flag.number < 64 then some ⟨1#64 <<< flag.number⟩ else none

/-- Which of 52 flags has this name. -/
def AppItemFlagE.place : (flag : AppItemFlagE) → flag ≠ .invalid → Fin 52
  | .reviewAccepted, _ => 0
  | .reviewRejected, _ => 1
  | .invalid, named => absurd rfl named

structure AppItemEntry where
  name_ : Text := Sized.empty
  /-- `u_`, read as one number. -/
  value_ : UInt64 := 0
  deriving DecidableEq

namespace AppItemEntry

theorem state_fits : 0 + 8 ≤ 64 := by decide
theorem type_fits : 8 + 4 ≤ 64 := by decide
theorem flags_fits : 12 + 52 ≤ 64 := by decide

/-- `u_.s_.state_` -/
def stateField : BitField 64 8 := ⟨0, state_fits⟩
/-- `u_.s_.type_` -/
def typeField : BitField 64 4 := ⟨8, type_fits⟩
/-- `u_.s_.flags_` -/
def flagsField : BitField 64 52 := ⟨12, flags_fits⟩

/-- Assign to a bit field of `u_.s_`. -/
def assign {width v : Nat} (this : AppItemEntry) (field : BitField 64 width) (value : BitVec v) :
    AppItemEntry :=
  { this with value_ := ⟨field.set value this.value_.toBitVec⟩ }

def flags (this : AppItemEntry) : UInt64 :=
  ⟨(flagsField.get this.value_.toBitVec).setWidth 64⟩

def setFlags (this : AppItemEntry) (flags : UInt64) : AppItemEntry :=
  this.assign flagsField flags.toBitVec

def setFlag (this : AppItemEntry) (flag : AppItemFlagE) : Option AppItemEntry :=
  flag.bit.map fun bit => this.setFlags (this.flags ||| bit)

def resetFlag (this : AppItemEntry) (flag : AppItemFlagE) : Option AppItemEntry :=
  flag.bit.map fun bit => this.setFlags (this.flags &&& ~~~bit)

def isFlagSet (this : AppItemEntry) (flag : AppItemFlagE) : Option Bool :=
  flag.bit.map fun bit => this.flags &&& bit != 0

def state (this : AppItemEntry) : AppItemStateE := ⟨⟨stateField.get this.value_.toBitVec⟩⟩

def setState (this : AppItemEntry) (state : AppItemStateE) : AppItemEntry :=
  this.assign stateField state.value.toBitVec

def type (this : AppItemEntry) : AppItemTypeE :=
  ⟨⟨(typeField.get this.value_.toBitVec).setWidth 8⟩⟩

def setType (this : AppItemEntry) (type : AppItemTypeE) : AppItemEntry :=
  this.assign typeField type.value.toBitVec

def value (this : AppItemEntry) : UInt64 := this.value_

def setValue (this : AppItemEntry) (value : UInt64) : AppItemEntry := { this with value_ := value }

/-- The constructor from a number. -/
def ofValue (value : UInt64) : AppItemEntry := { value_ := value }

/-- The constructor from a name and a state. -/
def ofName (name : Text) (state : AppItemStateE) : AppItemEntry :=
  setState { name_ := name } state

def serialize : Serializer Versioned AppItemEntry := fun a this => do
  let name_ ← text a this.name_
  let value_ ← u64 a this.value_
  return ⟨name_, value_⟩

/-- A string has no more bytes than its length can count. -/
def textOf (items : List UInt8) : ReflectM Text :=
  if bounded : items.length < 2 ^ 64 then return ⟨items, bounded⟩ else Traced.raise

def reflect (r : Reflector) (this : AppItemEntry) : ReflectM AppItemEntry := do
  let items ← r.addStr this.name_.items 1 "name"
  let name_ ← textOf items
  let value_ ← r.addU64 this.value_ 2 "value"
  return ⟨name_, value_⟩

/-! ## The record that the word stands for -/

/-- An 8-bit state, a 4-bit type and 52 flags, each on its own. -/
@[ext] structure Parts where
  state : Fin (2 ^ 8)
  type : Fin (2 ^ 4)
  flag : Fin 52 → Bool

/-- The parts of a number, from the least significant bit. -/
def Parts.ofNumber (value : Nat) : Parts where
  state := Fin.ofNat (2 ^ 8) value
  type := Fin.ofNat (2 ^ 4) (value / 2 ^ 8)
  flag i := value.testBit (12 + i)

/-- The calls that change an entry; the flags are the named ones. -/
inductive Call where
  | state (given : AppItemStateE)
  | type (given : AppItemTypeE)
  | flags (given : UInt64)
  | setFlag (flag : AppItemFlagE) (named : flag ≠ .invalid)
  | resetFlag (flag : AppItemFlagE) (named : flag ≠ .invalid)
  | value (given : UInt64)

def Call.onEntry (entry : AppItemEntry) : Call → Option AppItemEntry
  | .state given => some (entry.setState given)
  | .type given => some (entry.setType given)
  | .flags given => some (entry.setFlags given)
  | .setFlag flag _ => entry.setFlag flag
  | .resetFlag flag _ => entry.resetFlag flag
  | .value given => some (entry.setValue given)

/-- What a call does to the record: one part changes, or one flag. -/
def Call.onParts (parts : Parts) : Call → Parts
  | .state given => { parts with state := Fin.ofNat (2 ^ 8) given.value.toNat }
  | .type given => { parts with type := Fin.ofNat (2 ^ 4) given.value.toNat }
  | .flags given => { parts with flag := fun i => (given.toNat % 2 ^ 52).testBit i }
  | .setFlag flag named =>
    { parts with flag := fun i => if i = flag.place named then true else parts.flag i }
  | .resetFlag flag named =>
    { parts with flag := fun i => if i = flag.place named then false else parts.flag i }
  | .value given => Parts.ofNumber given.toNat

/-- The three getters give the parts of the record. -/
structure Shows (entry : AppItemEntry) (parts : Parts) : Prop where
  state : entry.state.value.toNat = parts.state
  type : entry.type.value.toNat = parts.type
  flags : entry.flags.toNat = Nat.ofBits parts.flag

/-! ## The fields of the word -/

/-- The parts of a word, read field by field. -/
theorem ofNumber_toNat (word : BitVec 64) :
    Parts.ofNumber word.toNat =
      ⟨(stateField.get word).toFin, (typeField.get word).toFin,
        fun i => (flagsField.get word).getLsbD i⟩ := by
  ext i
  case state => simp [Parts.ofNumber, BitField.get, stateField]
  case type =>
    simp [Parts.ofNumber, BitField.get, typeField, Nat.shiftRight_eq_div_pow]
  case flag => exact (BitField.getLsbD_get flagsField word i.isLt).symm

/-- The getters read the parts of the word. -/
theorem shows_ofNumber (entry : AppItemEntry) :
    Shows entry (Parts.ofNumber entry.value_.toNat) := by
  rw [← UInt64.toNat_toBitVec, ofNumber_toNat]
  constructor
  case state => rfl
  case type => exact BitVec.toNat_setWidth_of_le (by decide)
  case flags =>
    have bits := Nat.ofBits_testBit (flagsField.get entry.value_.toBitVec).toNat 52
    rw [Nat.mod_eq_of_lt (BitVec.isLt _)] at bits
    exact (BitVec.toNat_setWidth_of_le (by decide)).trans bits.symm

theorem state_type_disjoint : BitField.Disjoint stateField typeField :=
  BitField.disjoint_of_le (by decide)

theorem state_flags_disjoint : BitField.Disjoint stateField flagsField :=
  BitField.disjoint_of_le (by decide)

theorem type_flags_disjoint : BitField.Disjoint typeField flagsField :=
  BitField.disjoint_of_le (by decide)

theorem ofNumber_set_state {v : Nat} (given : BitVec v) (word : BitVec 64) :
    Parts.ofNumber (stateField.set given word).toNat =
      { Parts.ofNumber word.toNat with state := Fin.ofNat (2 ^ 8) given.toNat } := by
  rw [ofNumber_toNat, ofNumber_toNat, BitField.get_set_self,
    BitField.get_set_of_disjoint state_type_disjoint.symm,
    BitField.get_set_of_disjoint state_flags_disjoint.symm, BitVec.toFin_setWidth]

theorem ofNumber_set_type {v : Nat} (given : BitVec v) (word : BitVec 64) :
    Parts.ofNumber (typeField.set given word).toNat =
      { Parts.ofNumber word.toNat with type := Fin.ofNat (2 ^ 4) given.toNat } := by
  rw [ofNumber_toNat, ofNumber_toNat, BitField.get_set_self,
    BitField.get_set_of_disjoint state_type_disjoint,
    BitField.get_set_of_disjoint type_flags_disjoint.symm, BitVec.toFin_setWidth]

theorem ofNumber_set_flags {v : Nat} (given : BitVec v) (word : BitVec 64) :
    Parts.ofNumber (flagsField.set given word).toNat =
      { Parts.ofNumber word.toNat with flag := fun i => given.getLsbD i } := by
  rw [ofNumber_toNat, ofNumber_toNat, BitField.get_set_self,
    BitField.get_set_of_disjoint state_flags_disjoint,
    BitField.get_set_of_disjoint type_flags_disjoint]
  simp

/-! ## Calls -/

/-- The parts that an entry has. -/
def parts (this : AppItemEntry) : Parts := Parts.ofNumber this.value_.toNat

theorem parts_setFlags {this : AppItemEntry} {given : UInt64} {flag : Fin 52 → Bool}
    (bits : ∀ i : Fin 52, given.toBitVec.getLsbD i = flag i) :
    (this.setFlags given).parts = { this.parts with flag := flag } := by
  have same : (fun i : Fin 52 => given.toBitVec.getLsbD i) = flag := funext bits
  rw [← same]
  exact ofNumber_set_flags given.toBitVec this.value_.toBitVec

/-- Bit `i` of the number that `flags` gives. -/
theorem getLsbD_flags (this : AppItemEntry) (i : Fin 52) :
    this.flags.toBitVec.getLsbD i = this.parts.flag i := by
  have bits := congrFun (congrArg Parts.flag (ofNumber_toNat this.value_.toBitVec)) i
  rw [parts, ← UInt64.toNat_toBitVec, bits, flags, BitVec.getLsbD_setWidth,
    decide_eq_true (i.isLt.trans (by decide)), Bool.true_and]

theorem place_val {flag : AppItemFlagE} (named : flag ≠ .invalid) :
    (flag.place named).val = flag.number := by
  cases flag with
  | invalid => exact absurd rfl named
  | reviewAccepted | reviewRejected => rfl

theorem place_eq_iff {first second : AppItemFlagE} (named : first ≠ .invalid)
    (named' : second ≠ .invalid) : first.place named = second.place named' ↔ first = second := by
  refine ⟨fun same => ?_, fun same => by subst same; rfl⟩
  cases first with
  | invalid => exact absurd rfl named
  | reviewAccepted | reviewRejected =>
    cases second with
    | invalid => exact absurd rfl named'
    | reviewAccepted | reviewRejected => first | rfl | cases congrArg Fin.val same

/-- The bit of a named flag is the one with its number. -/
theorem bit_named {flag : AppItemFlagE} (named : flag ≠ .invalid) :
    ∃ bit, flag.bit = some bit ∧
      ∀ i < 64, bit.toBitVec.getLsbD i = decide (i = flag.number) := by
  have small : flag.number < 64 := by
    cases flag with
    | invalid => exact absurd rfl named
    | reviewAccepted | reviewRejected => decide
  refine ⟨_, if_pos small, fun i bound => ?_⟩
  rw [BitVec.getLsbD_shiftLeft, BitVec.getLsbD_one]
  by_cases same : i = flag.number
  · simp [same, small]
  · by_cases low : i < flag.number
    · simp [same, low]
    · have above : i - flag.number ≠ 0 := by omega
      simp [same, above]

/-- Every call that changes an entry changes its parts as the record says. -/
theorem parts_onEntry (entry : AppItemEntry) (call : Call) :
    ∃ after, call.onEntry entry = some after ∧ after.parts = call.onParts entry.parts := by
  cases call with
  | state given => exact ⟨_, rfl, ofNumber_set_state given.value.toBitVec entry.value_.toBitVec⟩
  | type given => exact ⟨_, rfl, ofNumber_set_type given.value.toBitVec entry.value_.toBitVec⟩
  | flags given =>
    refine ⟨_, rfl, parts_setFlags fun i => ?_⟩
    rw [Nat.testBit_mod_two_pow, decide_eq_true i.isLt, Bool.true_and]
    rfl
  | setFlag flag named =>
    obtain ⟨bit, defined, bits⟩ := bit_named named
    refine ⟨entry.setFlags (entry.flags ||| bit), ?_, parts_setFlags fun i => ?_⟩
    · rw [Call.onEntry, setFlag, defined, Option.map_some]
    · rw [UInt64.toBitVec_or, BitVec.getLsbD_or, getLsbD_flags, bits i (i.isLt.trans (by decide))]
      rw [← place_val named]
      by_cases same : i = flag.place named <;> simp [same, Fin.val_inj]
  | resetFlag flag named =>
    obtain ⟨bit, defined, bits⟩ := bit_named named
    refine ⟨entry.setFlags (entry.flags &&& ~~~bit), ?_, parts_setFlags fun i => ?_⟩
    · rw [Call.onEntry, resetFlag, defined, Option.map_some]
    · have bound : i.val < 64 := i.isLt.trans (by decide)
      rw [UInt64.toBitVec_and, BitVec.getLsbD_and, getLsbD_flags, UInt64.toBitVec_not,
        BitVec.getLsbD_not, bits i bound, decide_eq_true bound]
      rw [← place_val named]
      by_cases same : i = flag.place named <;> simp [same, Fin.val_inj]
  | value given => exact ⟨_, rfl, rfl⟩

/-- The calls of a sequence, one after the other. -/
def after (this : AppItemEntry) (calls : List Call) : Option AppItemEntry :=
  calls.foldlM Call.onEntry this

theorem parts_after (initial : AppItemEntry) (calls : List Call) :
    ∃ entry, initial.after calls = some entry ∧
      entry.parts = calls.foldl Call.onParts initial.parts := by
  induction calls generalizing initial with
  | nil => exact ⟨initial, rfl, rfl⟩
  | cons call calls ih =>
    obtain ⟨between, called, changed⟩ := parts_onEntry initial call
    obtain ⟨entry, others, ends⟩ := ih between
    refine ⟨entry, ?_, ?_⟩
    · rw [after, List.foldlM_cons, called]
      exact others
    · rw [List.foldl_cons, ← changed]
      exact ends

/-- Testing a named flag gives its part. -/
theorem isFlagSet_named (this : AppItemEntry) {flag : AppItemFlagE} (named : flag ≠ .invalid) :
    this.isFlagSet flag = some (this.parts.flag (flag.place named)) := by
  have number := place_val named
  have bound : flag.number < 64 := number ▸ (flag.place named).isLt.trans (by decide)
  obtain ⟨bit, defined, bits⟩ := bit_named named
  have own : (this.flags &&& bit).toBitVec.getLsbD flag.number =
      this.parts.flag (flag.place named) := by
    rw [UInt64.toBitVec_and, BitVec.getLsbD_and, bits _ bound, decide_eq_true rfl, Bool.and_true,
      ← number]
    exact getLsbD_flags this (flag.place named)
  rw [isFlagSet, defined, Option.map_some, ← own, Option.some.injEq]
  by_cases isSet : (this.flags &&& bit).toBitVec.getLsbD flag.number = true
  · rw [isSet, bne_iff_ne]
    intro isZero
    rw [isZero] at isSet
    simp at isSet
  · -- no other bit is left by the mask
    have isZero : this.flags &&& bit = 0 := by
      apply UInt64.toBitVec_inj.mp
      apply BitVec.eq_of_getLsbD_eq
      intro i inside
      by_cases same : i = flag.number
      · simpa [same] using isSet
      · simp [bits i inside, same]
    rw [Bool.eq_false_iff.mpr isSet, isZero]
    rfl

/-! ## Transfer -/

theorem textOf_items (value : Text) : textOf value.items = pure value := dif_pos value.bounded

/-- What the const reflector shows of an entry is read back into any entry. -/
theorem gives_reflect (entry fresh : AppItemEntry) (rest : List Field) :
    Traced.Gives (reflect reader fresh) (((reflect writer entry).run []).state ++ rest) entry
      rest := by
  have written : ((reflect writer entry).run []).state =
      [.str entry.name_.items, .u64 entry.value_] := by
    simp [reflect, textOf_items]
  rw [written]
  refine ⟨[⟨1, "name"⟩, ⟨2, "value"⟩], ?_⟩
  simp [reflect, textOf_items, Result.prepend]

theorem faithful : Faithful Versioned.classVersion serialize := by
  intro value old
  exact (faithful_text _ _).bind ((faithful_u64 _ _).bind (carries_pure value value))

/-- The entry behaves as the record: by its getters, with `flags` taken modulo 2^52, and after
it has been rebuilt from its number, in place, by the reflection or from an archive. -/
structure BehavesAs (entry : AppItemEntry) (parts : Parts) : Prop where
  shows : Shows entry parts
  flagsKept : ∀ given, (entry.setFlags given).flags.toNat = given.toNat % 2 ^ 52
  rebuilt : Shows (ofValue entry.value) parts
  reflected : ∀ fresh rest, ∃ received,
    Traced.Gives (reflect reader fresh) (((reflect writer entry).run []).state ++ rest) received
      rest ∧ Shows received parts
  archived : ∀ old, ∃ received,
    Carries Versioned.classVersion (serialize .output entry) (serialize .input old) entry
      received ∧ Shows received parts

theorem behavesAs_parts (entry : AppItemEntry) : BehavesAs entry entry.parts where
  shows := shows_ofNumber entry
  flagsKept := by
    intro given
    have kept := (shows_ofNumber (entry.setFlags given)).flags
    have assigned : (entry.setFlags given).parts.flag =
        fun i : Fin 52 => given.toNat.testBit i :=
      congrArg Parts.flag (parts_setFlags fun i => rfl)
    rw [kept, ← Nat.ofBits_testBit, ← assigned]
    rfl
  rebuilt := shows_ofNumber (ofValue entry.value)
  reflected fresh rest := ⟨entry, gives_reflect entry fresh rest, shows_ofNumber entry⟩
  archived old := ⟨entry, faithful entry old, shows_ofNumber entry⟩

/-- A new entry has its state, the first type and no flags. -/
theorem behavesAs_ofName (name : Text) (state : AppItemStateE) :
    BehavesAs (ofName name state)
      ⟨Fin.ofNat (2 ^ 8) state.value.toNat, 0, fun _ => false⟩ := by
  have zero : Parts.ofNumber 0 = ⟨0, 0, fun _ => false⟩ := by
    ext i
    case state | type => rfl
    case flag => exact Nat.zero_testBit _
  have parts : (ofName name state).parts = { Parts.ofNumber 0 with
      state := Fin.ofNat (2 ^ 8) state.value.toNat } :=
    ofNumber_set_state state.value.toBitVec 0#64
  rw [zero] at parts
  exact parts ▸ behavesAs_parts (ofName name state)

/-- After any calls on any entry the packed word behaves as the record after the same calls. -/
theorem packed_word_simulates (initial : AppItemEntry) (calls : List Call) :
    ∃ entry, initial.after calls = some entry ∧
      BehavesAs entry (calls.foldl Call.onParts (Parts.ofNumber initial.value_.toNat)) := by
  obtain ⟨entry, ran, ends⟩ := parts_after initial calls
  exact ⟨entry, ran, ends ▸ behavesAs_parts entry⟩

end AppItemEntry

end MyappsCommon.Utility
