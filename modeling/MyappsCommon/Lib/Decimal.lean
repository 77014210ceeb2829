import Mathlib.Algebra.Ring.Nat
import Mathlib.Tactic.Common
import Mathlib.Data.List.Basic

/-! # Numbers in a text

The decimal digits of a number, behind a minus if it is negative.  A number can be read off a
text in which a character that is none of its own follows.
-/

namespace MyappsCommon.Lib

/-- The bytes of the decimal digits. -/
def digits (n : Nat) : List UInt8 := (Nat.toDigits 10 n).map fun c => UInt8.ofNat c.toNat

/-- A number as a stream prints it. -/
def decimal : Int → List UInt8
  | .ofNat n => digits n
  | .negSucc n => 45 :: digits (n + 1)

/-- A digit or the minus. -/
def Numeral (c : UInt8) : Prop := c = 45 ∨ 48 ≤ c ∧ c ≤ 57

instance : DecidablePred Numeral := fun c => inferInstanceAs (Decidable (c = 45 ∨ 48 ≤ c ∧ c ≤ 57))

theorem isDigit_iff (c : Char) : c.isDigit = true ↔ 48 ≤ c.toNat ∧ c.toNat ≤ 57 := by
  simp [Char.isDigit, UInt32.le_iff_toNat_le]

theorem toNat_digit {c : Char} (digit : c.isDigit = true) :
    (UInt8.ofNat c.toNat).toNat = c.toNat := by
  have bounds := (isDigit_iff c).mp digit
  rw [UInt8.toNat_ofNat']
  omega

theorem isDigit_of_mem {n : Nat} {c : Char} (member : c ∈ Nat.toDigits 10 n) :
    c.isDigit = true :=
  Nat.isDigit_of_mem_toDigits (Nat.succ_pos 9) (Nat.le_refl 10) member

theorem digits_injective : Function.Injective digits := by
  intro first second same
  have back (n : Nat) : (digits n).map (fun b => Char.ofNat b.toNat) = Nat.toDigits 10 n := by
    rw [digits, List.map_map]
    refine (List.map_congr_left fun c member => ?_).trans (List.map_id _)
    have digit := isDigit_of_mem member
    rw [Function.comp_apply, toNat_digit digit, Char.ofNat_toNat, id]
  have sameDigits : Nat.toDigits 10 first = Nat.toDigits 10 second := by
    rw [← back first, same, back second]
  rw [← @Nat.ofDigitChars_ten_toDigits first, sameDigits, Nat.ofDigitChars_ten_toDigits]

theorem mem_digits {n : Nat} {b : UInt8} (member : b ∈ digits n) : 48 ≤ b ∧ b ≤ 57 := by
  obtain ⟨c, listed, rfl⟩ := List.mem_map.mp member
  have digit := isDigit_of_mem listed
  rw [UInt8.le_iff_toNat_le, UInt8.le_iff_toNat_le, toNat_digit digit]
  exact (isDigit_iff c).mp digit

theorem digits_ne_minus (n : Nat) (rest : List UInt8) : digits n ≠ 45 :: rest := by
  intro same
  have member : 45 ∈ digits n := same ▸ List.mem_cons_self
  exact absurd (mem_digits member).1 (by decide)

theorem decimal_injective : Function.Injective decimal := by
  intro first second same
  cases first with
  | ofNat n =>
    cases second with
    | ofNat m => rw [digits_injective same]
    | negSucc m => exact absurd same (digits_ne_minus n _)
  | negSucc n =>
    cases second with
    | ofNat m => exact absurd same.symm (digits_ne_minus m _)
    | negSucc m => rw [Nat.succ.inj (digits_injective (List.cons.inj same).2)]

theorem numeral_of_mem_decimal {n : Int} {b : UInt8} (member : b ∈ decimal n) : Numeral b := by
  cases n with
  | ofNat n => exact .inr (mem_digits member)
  | negSucc n =>
    rcases List.mem_cons.mp member with rfl | member
    · exact .inl rfl
    · exact .inr (mem_digits member)

/-- What comes before the first element that is not among those before it. -/
theorem append_cons_inj {α : Type} {P : α → Prop} {first second : List α} {stop stop' : α}
    {rest rest' : List α} (each : ∀ item ∈ first, P item) (each' : ∀ item ∈ second, P item)
    (stops : ¬ P stop) (stops' : ¬ P stop')
    (same : first ++ stop :: rest = second ++ stop' :: rest') :
    first = second ∧ stop = stop' ∧ rest = rest' := by
  induction first generalizing second with
  | nil =>
    cases second with
    | nil => exact ⟨rfl, List.cons.inj same⟩
    | cons item second =>
      obtain ⟨rfl, -⟩ := List.cons.inj same
      exact absurd (each' stop List.mem_cons_self) stops
  | cons item first ih =>
    cases second with
    | nil =>
      obtain ⟨rfl, -⟩ := List.cons.inj same
      exact absurd (each item List.mem_cons_self) stops'
    | cons other second =>
      obtain ⟨rfl, later⟩ := List.cons.inj same
      rw [List.forall_mem_cons] at each each'
      obtain ⟨rfl, behind⟩ := ih each.2 each'.2 later
      exact ⟨rfl, behind⟩

/-- The number and the text behind it can be told from the whole. -/
theorem decimal_append_inj {first second : Int} {stop stop' : UInt8} {rest rest' : List UInt8}
    (stops : ¬ Numeral stop) (stops' : ¬ Numeral stop')
    (same : decimal first ++ stop :: rest = decimal second ++ stop' :: rest') :
    first = second ∧ stop = stop' ∧ rest = rest' := by
  obtain ⟨sameNumber, sameRest⟩ := append_cons_inj (fun _ => numeral_of_mem_decimal)
    (fun _ => numeral_of_mem_decimal) stops stops' same
  exact ⟨decimal_injective sameNumber, sameRest⟩

theorem digits_length_le {n k : Nat} (positive : 0 < k) (small : n < 10 ^ k) :
    (digits n).length ≤ k := by
  rw [digits, List.length_map]
  exact (Nat.length_toDigits_le_iff (by decide) positive).mpr small

/-- A number of at most so many digits, with its sign. -/
theorem decimal_length_le {n : Int} {k : Nat} (positive : 0 < k) (small : n.natAbs < 10 ^ k) :
    (decimal n).length ≤ k + 1 := by
  cases n with
  | ofNat n => exact Nat.le_succ_of_le (digits_length_le positive small)
  | negSucc n => exact Nat.succ_le_succ (digits_length_le positive small)

end MyappsCommon.Lib
