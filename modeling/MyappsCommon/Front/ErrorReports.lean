import MyappsCommon.Front.CoreMessages
import MyappsCommon.Utility.Error
import MyappsCommon.Utility.Sendable

/-! # Errors on the wire

A response carries the number of an error and its text.  Every error can be reported, and the
peer makes the same condition of the number.
-/

namespace MyappsCommon.Front

open MyappsCommon.Lib MyappsCommon.Lib.BinaryArchive MyappsCommon.Reflection MyappsCommon.Utility

variable {σ : Type}

theorem message_bounded (this : ErrorCondition) : this.message.length < 2 ^ 64 :=
  Nat.lt_of_le_of_lt (ErrorCategory.message_length_le this.value) (by decide)

/-- The response with the number and the text of a condition. -/
def report (this : ErrorCondition) : Core.Response where
  error_ := this.value.toUInt32
  message_ := ⟨this.message, message_bounded this⟩

/-- The response for any number can be sent, and the peer makes the same condition of the number
it reads.  It could tell the condition from the text alone; without the number in them, the
texts of two conditions are the same from 32 on only. -/
theorem errors_reported (basics : Basics σ) (err : UInt32) :
    (∃ symbols, (Core.Response.adds basics).write (report (makeError err)) = some symbols ∧
      ∀ rest, (Core.Response.adds basics).read.Takes (symbols ++ rest) (report (makeError err))
        rest) ∧
    makeError (report (makeError err)).error_ = makeError err ∧
    ∀ other : UInt32,
      ((report (makeError err)).message_ = (report (makeError other)).message_ ↔ err = other) ∧
      (ErrorCategory.description (makeError err).value =
          ErrorCategory.description (makeError other).value ↔
        err = other ∨ 31 < err ∧ 31 < other) := by
  refine ⟨?_, rfl, fun other => ⟨?_, ?_⟩⟩
  · have intact : (Core.Response.adds basics).Intact (report (makeError err)) := by
      simp [Core.Response.adds]
    have within : (Core.Response.adds basics).Within (report (makeError err)) := by
      have short : Short (report (makeError err)).message_ :=
        ErrorCategory.message_length_le err.toInt32
      simpa [Core.Response.adds] using short
    obtain ⟨symbols, sends⟩ := (Format.exists_sends_iff _ _).mpr ⟨intact, within⟩
    exact ⟨symbols, sends.2, sends.read⟩
  · constructor
    · intro same
      have texts : (makeError err).message = (makeError other).message :=
        congrArg Sized.items same
      exact congrArg Int32.toUInt32 (ErrorCategory.message_injective texts)
    · rintro rfl
      rfl
  · rw [ErrorCategory.description_eq_iff]
    exact or_congr_left ⟨congrArg Int32.toUInt32, congrArg UInt32.toInt32⟩

end MyappsCommon.Front
