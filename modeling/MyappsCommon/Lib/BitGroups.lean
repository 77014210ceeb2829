import Mathlib.Tactic.Common
import Mathlib.Data.List.Basic

/-! # Regrouping bits

A list of `w`-bit digits is a bit string, most significant bit of a digit first; a bit
string is cut into digits of any width, and what is left over at the end is dropped or
filled up with zeros.
-/

namespace MyappsCommon.Lib

variable {w : Nat}

/-- The bits of a digit, most significant first. -/
def toBits (digit : BitVec w) : List Bool := List.ofFn fun i : Fin w => digit.getMsbD i

/-- The digit whose bits are the first `w` of the list. -/
def ofBits (w : Nat) (bits : List Bool) : BitVec w :=
  (BitVec.ofBoolListBE (List.ofFn fun i : Fin w => bits.getD i false)).cast List.length_ofFn

/-- The bit string of a list of digits. -/
def bitsOf (digits : List (BitVec w)) : List Bool := digits.flatMap toBits

/-- Cut a bit string into digits; fewer than `w` bits at the end are dropped. -/
def groups (w : Nat) (bits : List Bool) : List (BitVec w) :=
  (List.range (bits.length / w)).map fun i => ofBits w (bits.drop (i * w))

/-- Fill up a bit string with zeros to a whole number of digits. -/
def padded (w : Nat) (bits : List Bool) : List Bool :=
  bits ++ List.replicate ((w - bits.length % w) % w) false

@[simp] theorem toBits_length (digit : BitVec w) : (toBits digit).length = w := List.length_ofFn

@[simp] theorem bitsOf_nil : bitsOf ([] : List (BitVec w)) = [] := rfl

@[simp] theorem bitsOf_cons (digit : BitVec w) (digits : List (BitVec w)) :
    bitsOf (digit :: digits) = toBits digit ++ bitsOf digits := rfl

theorem bitsOf_append (first second : List (BitVec w)) :
    bitsOf (first ++ second) = bitsOf first ++ bitsOf second := List.flatMap_append

@[simp] theorem bitsOf_length (digits : List (BitVec w)) :
    (bitsOf digits).length = digits.length * w := by
  induction digits with
  | nil => simp
  | cons digit digits ih =>
    rw [bitsOf_cons, List.length_append, toBits_length, ih, List.length_cons, Nat.succ_mul,
      Nat.add_comm]

theorem getMsbD_ofBits (bits : List Bool) (i : Nat) :
    (ofBits w bits).getMsbD i = (decide (i < w) && bits.getD i false) := by
  rw [ofBits, BitVec.getMsbD_cast, BitVec.getMsbD_ofBoolListBE]
  by_cases bound : i < w <;> simp [bound, List.getD_eq_getElem?_getD]

/-! ## One digit -/

theorem ofBits_toBits_append (digit : BitVec w) (tail : List Bool) :
    ofBits w (toBits digit ++ tail) = digit := by
  apply BitVec.eq_of_getMsbD_eq
  intro i bound
  rw [getMsbD_ofBits, List.getD_eq_getElem?_getD,
    List.getElem?_append_left (by simpa using bound)]
  simp [bound, toBits]

theorem toBits_ofBits {bits : List Bool} (enough : w ≤ bits.length) :
    toBits (ofBits w bits) = bits.take w := by
  apply List.ext_getElem
  · rw [toBits_length, List.length_take, Nat.min_eq_left enough]
  · intro i bound takeBound
    rw [toBits_length] at bound
    have inside : i < bits.length := by omega
    simp [toBits, getMsbD_ofBits, List.getD_eq_getElem?_getD, List.getElem?_eq_getElem inside]

/-! ## All digits -/

@[simp] theorem groups_length (bits : List Bool) : (groups w bits).length = bits.length / w := by
  simp [groups]

theorem groups_of_short {bits : List Bool} (short : bits.length < w) : groups w bits = [] := by
  rw [groups, Nat.div_eq_of_lt short]
  rfl

/-- The first digit, and the digits of what follows it. -/
theorem groups_of_long (positive : 0 < w) {bits : List Bool} (long : w ≤ bits.length) :
    groups w bits = ofBits w bits :: groups w (bits.drop w) := by
  have count : bits.length / w = (bits.length - w) / w + 1 := by
    rw [← Nat.add_div_right _ positive, Nat.sub_add_cancel long]
  rw [groups, count, List.range_succ_eq_map, List.map_cons, List.map_map, groups,
    List.length_drop]
  congr 1
  · rw [Nat.zero_mul, List.drop_zero]
  · apply List.map_congr_left
    intro i _
    rw [Function.comp_apply, List.drop_drop, Nat.succ_mul, Nat.add_comm]

theorem ofBits_append {bits : List Bool} (enough : w ≤ bits.length) (tail : List Bool) :
    ofBits w (bits ++ tail) = ofBits w bits := by
  apply BitVec.eq_of_getMsbD_eq
  intro i bound
  rw [getMsbD_ofBits, getMsbD_ofBits, List.getD_eq_getElem?_getD, List.getD_eq_getElem?_getD,
    List.getElem?_append_left (by omega)]

theorem groups_append_of_long (positive : 0 < w) {bits : List Bool} (long : w ≤ bits.length)
    (tail : List Bool) :
    groups w (bits ++ tail) = ofBits w bits :: groups w (bits.drop w ++ tail) := by
  have longer : w ≤ (bits ++ tail).length := by
    rw [List.length_append]
    omega
  rw [groups_of_long positive longer, ofBits_append long, List.drop_append_of_le_length long]

/-- Cutting the bits of a list of digits gives the digits back; less than a digit at the
end is lost. -/
theorem groups_bitsOf_append (digits : List (BitVec w)) {tail : List Bool}
    (short : tail.length < w) : groups w (bitsOf digits ++ tail) = digits := by
  have positive : 0 < w := by omega
  induction digits with
  | nil => exact groups_of_short short
  | cons digit digits ih =>
    have long : w ≤ (toBits digit ++ (bitsOf digits ++ tail)).length := by
      rw [List.length_append, toBits_length]
      omega
    rw [bitsOf_cons, List.append_assoc, groups_of_long positive long, ofBits_toBits_append,
      List.drop_left' (toBits_length digit), ih]

theorem groups_bitsOf (positive : 0 < w) (digits : List (BitVec w)) :
    groups w (bitsOf digits) = digits := by
  rw [← List.append_nil (bitsOf digits)]
  exact groups_bitsOf_append digits positive

/-- The bits of the digits are the bits that were cut, less what was left over. -/
theorem bitsOf_groups (positive : 0 < w) (bits : List Bool) :
    bitsOf (groups w bits) = bits.take (bits.length / w * w) := by
  by_cases long : w ≤ bits.length
  · -- the recursion is on the bits behind the first digit
    have smaller : bits.length - w < bits.length := by omega
    have rest := bitsOf_groups positive (bits.drop w)
    have count : bits.length / w * w = w + (bits.length - w) / w * w := by
      have once := Nat.add_div_right (bits.length - w) positive
      rw [Nat.sub_add_cancel long] at once
      rw [once, Nat.succ_mul, Nat.add_comm]
    rw [groups_of_long positive long, bitsOf_cons, rest, toBits_ofBits long, count,
      List.take_add, List.length_drop]
  · have short : bits.length < w := by omega
    rw [groups_of_short short, Nat.div_eq_of_lt short]
    simp
termination_by bits.length
decreasing_by simpa using smaller

/-- The digits of a bit string, and those of what is added behind whole digits. -/
theorem groups_append (positive : 0 < w) {bits : List Bool} (whole : bits.length % w = 0)
    (tail : List Bool) : groups w (bits ++ tail) = groups w bits ++ groups w tail := by
  have behind (digits : List (BitVec w)) :
      groups w (bitsOf digits ++ tail) = digits ++ groups w tail := by
    induction digits with
    | nil => rfl
    | cons digit digits ih =>
      have long : w ≤ (toBits digit).length := Nat.le_of_eq (toBits_length digit).symm
      rw [bitsOf_cons, List.append_assoc, groups_append_of_long positive long,
        List.drop_eq_nil_of_le (Nat.le_of_eq (toBits_length digit)), List.nil_append, ih,
        ← List.append_nil (toBits digit), ofBits_toBits_append]
      rfl
  have cut : bitsOf (groups w bits) = bits := by
    rw [bitsOf_groups positive, Nat.div_mul_cancel (Nat.dvd_of_mod_eq_zero whole),
      List.take_length]
  have joined := behind (groups w bits)
  rwa [cut] at joined

theorem padded_append {bits : List Bool} (whole : bits.length % w = 0) (tail : List Bool) :
    padded w (bits ++ tail) = bits ++ padded w tail := by
  rw [padded, padded, List.append_assoc, List.length_append, Nat.add_mod, whole, Nat.zero_add,
    Nat.mod_mod]

theorem padded_length_mod (positive : 0 < w) (bits : List Bool) :
    (padded w bits).length % w = 0 := by
  have small := Nat.mod_lt bits.length positive
  rw [padded, List.length_append, List.length_replicate, Nat.add_mod, Nat.mod_mod]
  by_cases exact : bits.length % w = 0
  · simp [exact]
  · rw [Nat.mod_eq_of_lt (show w - bits.length % w < w by omega),
      Nat.add_sub_cancel' (Nat.le_of_lt small), Nat.mod_self]

theorem bitsOf_groups_padded (positive : 0 < w) (bits : List Bool) :
    bitsOf (groups w (padded w bits)) = padded w bits := by
  have whole := Nat.div_mul_cancel (Nat.dvd_of_mod_eq_zero (padded_length_mod positive bits))
  rw [bitsOf_groups positive, whole, List.take_length]

/-- The number of digits that hold a bit string. -/
theorem groups_padded_length (positive : 0 < w) (bits : List Bool) :
    (groups w (padded w bits)).length = (bits.length + (w - 1)) / w := by
  have small := Nat.mod_lt bits.length positive
  have divided := Nat.div_add_mod bits.length w
  rw [groups_length, padded, List.length_append, List.length_replicate]
  -- nothing is filled up behind whole digits, where `w - 0` has to be taken modulo `w`
  by_cases exact : bits.length % w = 0
  · rw [exact, Nat.sub_zero, Nat.mod_self, Nat.add_zero]
    rw [exact, Nat.add_zero] at divided
    rw [← divided, Nat.mul_add_div positive, Nat.div_eq_of_lt (by omega : w - 1 < w),
      Nat.mul_div_cancel_left _ positive, Nat.add_zero]
  · rw [Nat.mod_eq_of_lt (show w - bits.length % w < w by omega)]
    have filled : bits.length + (w - bits.length % w) = w * (bits.length / w) + w := by omega
    have ceiling : bits.length + (w - 1) = w * (bits.length / w) + w + (bits.length % w - 1) := by
      omega
    rw [filled, ceiling, ← Nat.mul_succ, Nat.mul_div_cancel_left _ positive,
      Nat.mul_add_div positive, Nat.div_eq_of_lt (by omega : bits.length % w - 1 < w),
      Nat.add_zero]

end MyappsCommon.Lib
