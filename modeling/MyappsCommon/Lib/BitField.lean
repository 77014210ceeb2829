import Mathlib.Tactic.Common
import Mathlib.Data.Nat.Bitwise

/-! # Bit fields of a word

A field is a range of bits of a word.  Reading it gives these bits as a number of their own,
writing it replaces them by the low bits of a number and leaves the others.
-/

namespace MyappsCommon.Lib

/-- The `width` bits of a word of `w` bits that begin at `offset`. -/
structure BitField (w width : Nat) where
  offset : Nat
  fits : offset + width ≤ w

namespace BitField

variable {w width width' v : Nat}

def get (field : BitField w width) (word : BitVec w) : BitVec width :=
  word.extractLsb' field.offset width

/-- The word that has a number in the field and is zero elsewhere. -/
def place (field : BitField w width) (value : BitVec width) : BitVec w :=
  value.setWidth w <<< field.offset

/-- A number that is wider than the field is truncated. -/
def set (field : BitField w width) (value : BitVec v) (word : BitVec w) : BitVec w :=
  word &&& ~~~field.place (BitVec.allOnes width) |||
    field.place (value.setWidth width)

/-- The bit of a word belongs to the field. -/
def Covers (field : BitField w width) (i : Nat) : Prop :=
  field.offset ≤ i ∧ i < field.offset + width

instance (field : BitField w width) (i : Nat) : Decidable (field.Covers i) :=
  inferInstanceAs (Decidable (_ ∧ _))

/-- No bit belongs to both fields. -/
def Disjoint (first : BitField w width) (second : BitField w width') : Prop :=
  ∀ i, first.Covers i → ¬ second.Covers i

theorem covers_add (field : BitField w width) {i : Nat} (inside : i < width) :
    field.Covers (field.offset + i) :=
  ⟨Nat.le_add_right .., Nat.add_lt_add_left inside _⟩

/-- A field that ends where or before another one begins. -/
theorem disjoint_of_le {first : BitField w width} {second : BitField w width'}
    (before : first.offset + width ≤ second.offset) : Disjoint first second :=
  fun _ low high => Nat.lt_irrefl _ (low.2.trans_le (before.trans high.1))

theorem Disjoint.symm {first : BitField w width} {second : BitField w width'}
    (disjoint : Disjoint first second) : Disjoint second first :=
  fun i high low => disjoint i low high

theorem getLsbD_get (field : BitField w width) (word : BitVec w) {i : Nat} (inside : i < width) :
    (field.get word).getLsbD i = word.getLsbD (field.offset + i) := by
  rw [get, BitVec.getLsbD_extractLsb', decide_eq_true inside, Bool.true_and]

theorem getLsbD_place (field : BitField w width) (value : BitVec width) (i : Nat) :
    (field.place value).getLsbD i =
      (decide (field.Covers i) && value.getLsbD (i - field.offset)) := by
  have fits := field.fits
  rw [place, BitVec.getLsbD_shiftLeft, BitVec.getLsbD_setWidth]
  by_cases inside : field.Covers i
  · have low : ¬ i < field.offset := Nat.not_lt.mpr inside.1
    have high : i < w := inside.2.trans_le fits
    simp [inside, low, high, (Nat.sub_le i field.offset).trans_lt high]
  · by_cases low : i < field.offset
    · simp [inside, low]
    · -- above the field the number has no bit
      have above : value.getLsbD (i - field.offset) = false := by
        apply BitVec.getLsbD_of_ge
        unfold Covers at inside
        omega
      simp [above]

/-- What a word has at each place after a write. -/
theorem getLsbD_set (field : BitField w width) (value : BitVec v) (word : BitVec w) (i : Nat) :
    (field.set value word).getLsbD i =
      if field.Covers i then value.getLsbD (i - field.offset) else word.getLsbD i := by
  rw [set, BitVec.getLsbD_or, BitVec.getLsbD_and, BitVec.getLsbD_not, getLsbD_place,
    getLsbD_place, BitVec.getLsbD_allOnes, BitVec.getLsbD_setWidth]
  by_cases inside : field.Covers i
  · have offset : i - field.offset < width := Nat.sub_lt_left_of_lt_add inside.1 inside.2
    simp [inside, offset]
  · by_cases bound : i < w
    · simp [inside, bound]
    · simp [inside, bound, BitVec.getLsbD_of_ge word i (Nat.not_lt.mp bound)]

theorem get_set_self (field : BitField w width) (value : BitVec v) (word : BitVec w) :
    field.get (field.set value word) = value.setWidth width := by
  apply BitVec.eq_of_getLsbD_eq
  intro i inside
  rw [getLsbD_get field _ inside, getLsbD_set, if_pos (field.covers_add inside),
    Nat.add_sub_cancel_left, BitVec.getLsbD_setWidth, decide_eq_true inside, Bool.true_and]

theorem get_set_of_disjoint {field : BitField w width} {other : BitField w width'}
    (disjoint : Disjoint field other) (value : BitVec v) (word : BitVec w) :
    field.get (other.set value word) = field.get word := by
  apply BitVec.eq_of_getLsbD_eq
  intro i inside
  rw [getLsbD_get field _ inside, getLsbD_get field _ inside, getLsbD_set,
    if_neg (disjoint _ (field.covers_add inside))]

end BitField

end MyappsCommon.Lib
