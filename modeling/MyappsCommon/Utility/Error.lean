import Mathlib.Data.List.Nodup
import MyappsCommon.Lib.Decimal
import MyappsCommon.Utility.AppItem

/-! # Errors and their texts

An error is told to the peer by its number and by a text.  The text shows the number too, so
that no two errors have the same one.
-/

namespace MyappsCommon.Utility

open MyappsCommon.Lib

inductive ErrorE where
  | generic | exist | backend | pending | version | state | requestInvalid
  | authenticationInvalid | authenticationValidate | authenticationLocked | authenticationWait
  | authenticationRelogin | authenticationDemo | authenticationDemoInvalid
  | authenticationConnectionCount | accountInvalid | accountApplicationQuota
  | accountStorageQuota | accountNoReservation | storage | storageLimit | storageSum
  | storageZip | storageSize | storageInvalid | applicationInvalid | applicationReservation
  | applicationSystem | retry | argumentInvalid | requestCount
  deriving DecidableEq, Repr

/-- `cast` -/
def ErrorE.cast : ErrorE → UInt32
  | generic => 1
  | exist => 2
  | backend => 3
  | pending => 4
  | version => 5
  | state => 6
  | requestInvalid => 7
  | authenticationInvalid => 8
  | authenticationValidate => 9
  | authenticationLocked => 10
  | authenticationWait => 11
  | authenticationRelogin => 12
  | authenticationDemo => 13
  | authenticationDemoInvalid => 14
  | authenticationConnectionCount => 15
  | accountInvalid => 16
  | accountApplicationQuota => 17
  | accountStorageQuota => 18
  | accountNoReservation => 19
  | storage => 20
  | storageLimit => 21
  | storageSum => 22
  | storageZip => 23
  | storageSize => 24
  | storageInvalid => 25
  | applicationInvalid => 26
  | applicationReservation => 27
  | applicationSystem => 28
  | retry => 29
  | argumentInvalid => 30
  | requestCount => 31

namespace ErrorCategory

def name : List UInt8 := literal "myapps::common"

/-- The cases of `switch (_ev)`; the enumerators are converted to `int`. -/
def cases : List (UInt32 × List UInt8) :=
  [(0, literal "Success"),
    (ErrorE.generic.cast, literal "Generic"),
    (ErrorE.exist.cast, literal "Exist"),
    (ErrorE.backend.cast, literal "Backend unavailable"),
    (ErrorE.pending.cast, literal "Operation pending"),
    (ErrorE.version.cast, literal "Version mismatch"),
    (ErrorE.state.cast, literal "Invalid state"),
    (ErrorE.requestInvalid.cast, literal "Request Invalid"),
    (ErrorE.authenticationInvalid.cast, literal "Authentication: Invalid"),
    (ErrorE.authenticationValidate.cast, literal "Authentication: Validate Required"),
    (ErrorE.authenticationLocked.cast, literal "Authentication: Locked"),
    (ErrorE.authenticationWait.cast, literal "Authentication: Wait"),
    (ErrorE.authenticationRelogin.cast, literal "Authentication: Relogin"),
    (ErrorE.authenticationDemo.cast, literal "Authentication: No demo slot available"),
    (ErrorE.authenticationDemoInvalid.cast, literal "Authentication: Demo not supported"),
    (ErrorE.authenticationConnectionCount.cast, literal " Authentication: Connection Count"),
    (ErrorE.accountInvalid.cast, literal "Account: Invalid"),
    (ErrorE.accountApplicationQuota.cast, literal "Account: Application count quota exceeded"),
    (ErrorE.accountStorageQuota.cast, literal "Account: Storage quota exceeded"),
    (ErrorE.accountNoReservation.cast, literal "Account: No reservation"),
    (ErrorE.storage.cast, literal "Storage"),
    (ErrorE.storageLimit.cast, literal "Storage: Limit"),
    (ErrorE.storageSum.cast, literal "Storage: Sum"),
    (ErrorE.storageInvalid.cast, literal "Storage: Invalid"),
    (ErrorE.storageZip.cast, literal "Storage: Zip"),
    (ErrorE.storageSize.cast, literal "Storage: Size"),
    (ErrorE.applicationInvalid.cast, literal "Application: Invalid"),
    (ErrorE.applicationReservation.cast, literal "Application: Reservation"),
    (ErrorE.applicationSystem.cast, literal "Application: System"),
    (ErrorE.retry.cast, literal "Retry"),
    (ErrorE.argumentInvalid.cast, literal "Invalid Argument"),
    (ErrorE.requestCount.cast, literal "Request Count")]

def unknown : List UInt8 := literal "Unknown"

/-- What `switch (_ev)` prints. -/
def description (ev : Int32) : List UInt8 := (cases.lookup ev.toUInt32).getD unknown

def message (ev : Int32) : List UInt8 :=
  literal "(" ++ name ++ literal ":" ++ decimal ev.toInt ++ literal "): " ++ description ev

end ErrorCategory

/-- `solid::ErrorConditionT` of the category. -/
structure ErrorCondition where
  value : Int32
  deriving DecidableEq, Repr

namespace ErrorCondition

def message (this : ErrorCondition) : List UInt8 := ErrorCategory.message this.value

end ErrorCondition

/-- The number is converted to `int`. -/
def makeError (err : UInt32) : ErrorCondition := ⟨err.toInt32⟩

/-- `error_generic` and the other conditions, each of its enumerator. -/
def ErrorE.condition (this : ErrorE) : ErrorCondition := ⟨this.cast.toInt32⟩

/-! ## What an error is told by -/

namespace ErrorCategory

/-- A literal is not decoded again where its characters are known. -/
theorem literal_ofList (text : List Char) :
    literal (String.ofList text) = text.map fun c => UInt8.ofNat c.toNat := by
  rw [literal, String.toList_ofList]

theorem texts_nodup : (unknown :: cases.map Prod.snd).Nodup := by
  rw [cases, unknown]
  repeat rw [literal_ofList]
  decide +kernel

theorem cases_injective {first second : UInt32 × List UInt8} (member : first ∈ cases)
    (member' : second ∈ cases) (same : first.2 = second.2) : first = second :=
  List.inj_on_of_nodup_map (List.nodup_cons.mp texts_nodup).2 member member' same

theorem cases_ne_unknown {case : UInt32 × List UInt8} (member : case ∈ cases) :
    case.2 ≠ unknown := by
  intro same
  exact (List.nodup_cons.mp texts_nodup).1 (List.mem_map.mpr ⟨case, member, same⟩)

theorem texts_short : ∀ text ∈ unknown :: cases.map Prod.snd, text.length ≤ 100 := by
  rw [cases, unknown]
  repeat rw [literal_ofList]
  decide +kernel

theorem mem_numbers_iff (number : UInt32) : number ∈ cases.map Prod.fst ↔ number ≤ 31 := by
  constructor
  · intro listed
    -- over the list, not over all the numbers there are
    have each : (cases.map Prod.fst).all (· ≤ 31) := by decide +kernel
    exact of_decide_eq_true (List.all_eq_true.mp each number listed)
  · intro small
    have each : ∀ n < 32, UInt32.ofNat n ∈ cases.map Prod.fst := by decide +kernel
    have found := each number.toNat (Nat.lt_succ_of_le (UInt32.le_iff_toNat_le.mp small))
    rwa [UInt32.ofNat_toNat] at found

theorem mem_of_lookup {number : UInt32} {text : List UInt8}
    (found : cases.lookup number = some text) : (number, text) ∈ cases := by
  obtain ⟨before, after, split, -⟩ := List.lookup_eq_some_iff.mp found
  rw [split]
  exact List.mem_append_right before List.mem_cons_self

/-- A number outside the cases is unknown. -/
theorem lookup_eq_none_iff (number : UInt32) : cases.lookup number = none ↔ 31 < number := by
  rw [← UInt32.not_le, ← mem_numbers_iff, List.lookup_eq_none_iff, List.mem_map]
  constructor
  · rintro others ⟨case, member, rfl⟩
    exact absurd (others case member) (by simp)
  · intro outside case member
    exact bne_iff_ne.mpr fun same => outside ⟨case, member, same.symm⟩

/-- Only unknown numbers share a description. -/
theorem description_eq_iff (first second : Int32) :
    description first = description second ↔
      first = second ∨ 31 < first.toUInt32 ∧ 31 < second.toUInt32 := by
  rw [← lookup_eq_none_iff, ← lookup_eq_none_iff, description, description]
  cases found : cases.lookup first.toUInt32 with
  | none =>
    cases found' : cases.lookup second.toUInt32 with
    | none => simp
    | some text =>
      have known := cases_ne_unknown (mem_of_lookup found')
      have apart : first ≠ second := fun same => by simp [same, found'] at found
      simp [apart, known.symm]
  | some text =>
    cases found' : cases.lookup second.toUInt32 with
    | none =>
      have known := cases_ne_unknown (mem_of_lookup found)
      have apart : first ≠ second := fun same => by simp [same, found'] at found
      simp [apart, known]
    | some text' =>
      simp only [Option.getD_some, reduceCtorEq, false_and, or_false]
      constructor
      · intro same
        have alike := cases_injective (mem_of_lookup found) (mem_of_lookup found') same
        exact congrArg UInt32.toInt32 (congrArg Prod.fst alike)
      · rintro rfl
        exact Option.some.inj (found.symm.trans found')

theorem description_length_le (ev : Int32) : (description ev).length ≤ 100 := by
  rw [description]
  cases found : cases.lookup ev.toUInt32 with
  | none => exact texts_short _ List.mem_cons_self
  | some text =>
    have listed := List.mem_map_of_mem (f := Prod.snd) (mem_of_lookup found)
    exact texts_short _ (List.mem_cons_of_mem _ listed)

/-- The number can be read off the text. -/
theorem message_injective : Function.Injective message := by
  intro first second same
  simp only [message, List.append_assoc] at same
  have numbers := List.append_cancel_left (List.append_cancel_left (List.append_cancel_left same))
  have colon : literal "): " = 41 :: [58, 32] := by decide
  rw [colon] at numbers
  have stops : ¬ Numeral 41 := by decide
  exact Int32.toInt_inj.mp (decimal_append_inj stops stops numbers).1

/-- The texts are far from the limit of `metadata::String`. -/
theorem message_length_le (ev : Int32) : (message ev).length ≤ 4096 := by
  have digits : (decimal ev.toInt).length ≤ 11 := by
    refine decimal_length_le (Nat.succ_pos 9) ?_
    have low := ev.le_toInt
    have high := ev.toInt_lt
    omega
  have text := description_length_le ev
  have front : (literal "(" ++ name ++ literal ":").length = 16 := by decide
  have behind : (literal "): ").length = 3 := by decide
  rw [message, List.length_append, List.length_append, List.length_append, front, behind]
  omega

end ErrorCategory

end MyappsCommon.Utility
