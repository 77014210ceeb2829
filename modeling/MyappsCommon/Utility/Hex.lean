import MyappsCommon.Utility.Base64.Codec

/-! # `hex_encode` and `hex_decode`

A character is signed and is widened to a 32-bit `int` before anything is computed from
it.  The decoder takes the address of the first character before it looks at the length.
-/

namespace MyappsCommon.Utility.Hex

open MyappsCommon.Lib
open MyappsCommon.Utility.Base64 (StringView)

/-! ## Formatted output -/

/-- What `hex` makes of an `int` that is not negative. -/
def formatHex (value : Nat) : List UInt8 :=
  (Nat.toDigits 16 value).map fun digit => UInt8.ofNat digit.toNat

/-- `setw(width)` and `setfill(fill)`, for the next output only. -/
def setw (width : Nat) (fill : UInt8) (output : List UInt8) : List UInt8 :=
  List.replicate (width - output.length) fill ++ output

/-- The output for one character, by way of `uint8_t`. -/
def hexEncodeChar (c : UInt8) : List UInt8 := setw 2 48 (formatHex c.toNat)

def hexEncode (text : List UInt8) : List UInt8 := text.flatMap hexEncodeChar

/-! ## The decoder -/

/-- An access to the text: `operator[]` of the view, or a read through the pointer. -/
inductive Access where
  | subscript (position : Nat)
  | pointer (position : Nat)
  deriving DecidableEq, Repr

def Access.position : Access → Nat
  | subscript position => position
  | pointer position => position

/-- `hex_char_decode(const char)`: what is no digit is taken for a letter. -/
def hexCharDecode (c : Int8) : Int32 :=
  if 48 ≤ c ∧ c ≤ 57 then c.toInt32 - 48 else c.toInt32 - 97 + 10

/-- The byte of two characters. -/
def hexByte (high low : UInt8) : UInt8 :=
  let rv := (hexCharDecode high.toInt8 <<< 4) ||| hexCharDecode low.toInt8
  rv.toUInt32.toUInt8

/-- `*_pc` -/
def readPointer (view : StringView) (pc : Nat) : Traced Unit Access UInt8 := do
  Traced.emit (.pointer pc)
  return view.get pc

/-- `hex_char_decode(const char*)` -/
def hexCharDecodeAt (view : StringView) (p : Nat) : Traced Unit Access UInt8 := do
  let high ← readPointer view p
  let low ← readPointer view (p + 1)
  return hexByte high low

/-- The loop, with the characters of `out` that are still to be set. -/
def hexDecodeLoop (view : StringView) : Nat → Nat → Traced Unit Access (List UInt8)
  | 0, _ => return []
  | left + 1, p => do
    let c ← hexCharDecodeAt view p
    let out ← hexDecodeLoop view left (p + 2)
    return c :: out

def hexDecode (view : StringView) : Traced Unit Access (List UInt8) := do
  -- `&_txt[0]`, also when there is no character
  Traced.emit (.subscript 0)
  hexDecodeLoop view (view.text.length / 2) 0

/-! ## Digits -/

/-- A digit of a lower-case hexadecimal number. -/
def IsHexDigit (c : UInt8) : Prop := (48 ≤ c ∧ c ≤ 57) ∨ (97 ≤ c ∧ c ≤ 102)

def hexDigit (value : Nat) : UInt8 := UInt8.ofNat (if value < 10 then 48 + value else 87 + value)

theorem hexDigit_isHexDigit : ∀ value < 16, IsHexDigit (hexDigit value) := by
  unfold IsHexDigit
  decide

theorem IsHexDigit.exists_value {c : UInt8} (digit : IsHexDigit c) :
    ∃ value < 16, hexDigit value = c := by
  have bounds : (48 ≤ c.toNat ∧ c.toNat ≤ 57) ∨ (97 ≤ c.toNat ∧ c.toNat ≤ 102) := digit
  rcases bounds with ⟨atLeast, atMost⟩ | ⟨atLeast, atMost⟩
  · refine ⟨c.toNat - 48, by omega, ?_⟩
    rw [hexDigit, if_pos (by omega), Nat.add_sub_cancel' atLeast, UInt8.ofNat_toNat]
  · refine ⟨c.toNat - 87, by omega, ?_⟩
    rw [hexDigit, if_neg (by omega), Nat.add_sub_cancel' (by omega), UInt8.ofNat_toNat]

/-- Each half of a byte is written as one digit. -/
theorem setw_formatHex :
    ∀ value < 256, setw 2 48 (formatHex value) =
      [hexDigit (value / 16), hexDigit (value % 16)] := by
  decide +kernel

theorem hexEncodeChar_eq (c : UInt8) :
    hexEncodeChar c = [hexDigit (c.toNat / 16), hexDigit (c.toNat % 16)] :=
  setw_formatHex c.toNat c.toNat_lt

theorem hexByte_hexDigit :
    ∀ high < 16, ∀ low < 16,
      hexByte (hexDigit high) (hexDigit low) = UInt8.ofNat (16 * high + low) := by
  decide +kernel

theorem hexByte_hexEncodeChar (c : UInt8) :
    hexByte (hexDigit (c.toNat / 16)) (hexDigit (c.toNat % 16)) = c := by
  have bound := c.toNat_lt
  rw [hexByte_hexDigit _ (by omega) _ (by omega), Nat.div_add_mod, UInt8.ofNat_toNat]

/-- A pair of characters is written again when they are digits, and only then: whatever the
byte, it is written as digits. -/
theorem hexEncodeChar_hexByte_iff (high low : UInt8) :
    hexEncodeChar (hexByte high low) = [high, low] ↔ IsHexDigit high ∧ IsHexDigit low := by
  constructor
  · intro same
    have bound := (hexByte high low).toNat_lt
    rw [hexEncodeChar_eq, List.cons.injEq, List.cons.injEq] at same
    obtain ⟨highSame, lowSame, -⟩ := same
    have highDigit := hexDigit_isHexDigit ((hexByte high low).toNat / 16) (by omega)
    have lowDigit := hexDigit_isHexDigit ((hexByte high low).toNat % 16) (by omega)
    rw [highSame] at highDigit
    rw [lowSame] at lowDigit
    exact ⟨highDigit, lowDigit⟩
  · rintro ⟨highDigit, lowDigit⟩
    obtain ⟨highValue, highSmall, rfl⟩ := highDigit.exists_value
    obtain ⟨lowValue, lowSmall, rfl⟩ := lowDigit.exists_value
    have value : (UInt8.ofNat (16 * highValue + lowValue)).toNat = 16 * highValue + lowValue :=
      UInt8.toNat_ofNat_of_lt' (by rw [UInt8.size]; omega)
    have highHalf : (16 * highValue + lowValue) / 16 = highValue := by omega
    have lowHalf : (16 * highValue + lowValue) % 16 = lowValue := by omega
    rw [hexByte_hexDigit _ highSmall _ lowSmall, hexEncodeChar_eq, value, highHalf, lowHalf]

/-! ## Whole texts -/

/-- The bytes of a text, two characters for each; an odd character at the end is left out. -/
def pairs : List UInt8 → List UInt8
  | high :: low :: text => hexByte high low :: pairs text
  | [_] => []
  | [] => []

@[simp] theorem hexEncode_nil : hexEncode [] = [] := rfl

@[simp] theorem hexEncode_cons (c : UInt8) (text : List UInt8) :
    hexEncode (c :: text) = hexEncodeChar c ++ hexEncode text := List.flatMap_cons

theorem hexEncode_length (text : List UInt8) : (hexEncode text).length = 2 * text.length := by
  induction text with
  | nil => rfl
  | cons c text ih =>
    rw [hexEncode_cons, hexEncodeChar_eq, List.length_append, ih, List.length_cons]
    exact Nat.add_comm 2 _

theorem pairs_hexEncode (text : List UInt8) : pairs (hexEncode text) = text := by
  induction text with
  | nil => rfl
  | cons c text ih =>
    rw [hexEncode_cons, hexEncodeChar_eq]
    show hexByte _ _ :: pairs (hexEncode text) = _
    rw [ih, hexByte_hexEncodeChar]

theorem hexEncode_pairs_iff (text : List UInt8) :
    hexEncode (pairs text) = text ↔ text.length % 2 = 0 ∧ ∀ c ∈ text, IsHexDigit c := by
  induction text using pairs.induct with
  | case1 high low text ih =>
    have first : (hexEncodeChar (hexByte high low)).length = [high, low].length := by
      rw [hexEncodeChar_eq]
      rfl
    -- the first pair and the other pairs are written apart from each other
    have split : hexEncode (pairs (high :: low :: text)) = high :: low :: text ↔
        hexEncodeChar (hexByte high low) = [high, low] ∧ hexEncode (pairs text) = text := by
      rw [pairs, hexEncode_cons]
      constructor
      · intro same
        exact List.append_inj same first
      · rintro ⟨firstSame, restSame⟩
        rw [firstSame, restSame]
        rfl
    have even : (high :: low :: text).length % 2 = text.length % 2 := Nat.add_mod_right _ 2
    rw [split, hexEncodeChar_hexByte_iff, ih, even, List.forall_mem_cons, List.forall_mem_cons]
    constructor
    · rintro ⟨⟨highDigit, lowDigit⟩, evenRest, rest⟩
      exact ⟨evenRest, highDigit, lowDigit, rest⟩
    · rintro ⟨evenRest, highDigit, lowDigit, rest⟩
      exact ⟨⟨highDigit, lowDigit⟩, evenRest, rest⟩
  | case2 c => simp [pairs]
  | case3 => simp [pairs]

/-! ## Runs of the decoder -/

/-- The positions that the pointer reads from `p` on. -/
def pointers (p count : Nat) : List Access := (List.range' p count).map .pointer

theorem pointers_succ (p turns : Nat) :
    pointers p (2 * (turns + 1)) =
      .pointer p :: .pointer (p + 1) :: pointers (p + 2) (2 * turns) := rfl

theorem run_hexCharDecodeAt (view : StringView) (p : Nat) :
    (hexCharDecodeAt view p).run () =
      ⟨.ok (hexByte (view.get p) (view.get (p + 1))), (), [.pointer p, .pointer (p + 1)]⟩ := rfl

theorem get_of_drop {view : StringView} {p : Nat} {c : UInt8} {rest : List UInt8}
    (stands : view.text.drop p = c :: rest) :
    view.get p = c ∧ view.text.drop (p + 1) = rest := by
  have found : view.text[p]? = some c := by
    rw [← List.head?_drop, stands, List.head?_cons]
  constructor
  · rw [StringView.get, List.getD_eq_getElem?_getD, found, Option.getD_some]
  · rw [← List.tail_drop, stands, List.tail_cons]

/-- The loop reads the text from the pointer on, in order, but for an odd character. -/
theorem run_hexDecodeLoop (view : StringView) (p : Nat) (rest : List UInt8)
    (stands : view.text.drop p = rest) :
    (hexDecodeLoop view (rest.length / 2) p).run () =
      ⟨.ok (pairs rest), (), pointers p (2 * (rest.length / 2))⟩ := by
  induction rest using pairs.induct generalizing p with
  | case1 high low text ih =>
    obtain ⟨highRead, standsLow⟩ := get_of_drop stands
    obtain ⟨lowRead, standsText⟩ := get_of_drop standsLow
    have turns : (high :: low :: text).length / 2 = text.length / 2 + 1 :=
      Nat.add_div_right text.length Nat.two_pos
    rw [turns, hexDecodeLoop, Traced.run_bind, run_hexCharDecodeAt, Result.andThen_ok,
      Traced.run_bind, ih (p + 2) standsText, highRead, lowRead, pointers_succ, pairs]
    simp [Result.prepend]
  | case2 c =>
    have none_left : [c].length / 2 = 0 := Nat.div_eq_of_lt Nat.one_lt_two
    rw [none_left]
    rfl
  | case3 => rfl

/-- The decoder gives the pairs of the text, and reads inside it, but for the subscript. -/
theorem run_hexDecode (view : StringView) :
    (hexDecode view).run () =
      ⟨.ok (pairs view.text), (),
        .subscript 0 :: pointers 0 (2 * (view.text.length / 2))⟩ := by
  rw [hexDecode, Traced.run_bind, Traced.run_emit, Result.andThen_ok,
    run_hexDecodeLoop view 0 view.text List.drop_zero]
  rfl

/-! ## The two directions -/

/-- What the decoder gives; it comes to an end on every text. -/
def Decodes (view : StringView) (bytes : List UInt8) : Prop :=
  ((hexDecode view).run ()).outcome = .ok bytes

theorem decodes_iff {view : StringView} {bytes : List UInt8} :
    Decodes view bytes ↔ bytes = pairs view.text := by
  rw [Decodes, run_hexDecode, Outcome.ok.injEq]
  exact eq_comm

theorem hex_inverse :
    (∀ bytes beyond, (hexEncode bytes).length = 2 * bytes.length ∧
      Decodes ⟨hexEncode bytes, beyond⟩ bytes) ∧
    ∀ text beyond, (∃ bytes, Decodes ⟨text, beyond⟩ bytes ∧ hexEncode bytes = text) ↔
      text.length % 2 = 0 ∧ ∀ c ∈ text, IsHexDigit c := by
  constructor
  · intro bytes beyond
    exact ⟨hexEncode_length bytes, decodes_iff.mpr (pairs_hexEncode bytes).symm⟩
  · intro text beyond
    rw [← hexEncode_pairs_iff]
    simp only [decodes_iff, exists_eq_left]

/-! ## Where the text is accessed -/

/-- All accesses are at characters of the text. -/
def Inside (view : StringView) (accesses : List Access) : Prop :=
  ∀ access ∈ accesses, access.position < view.text.length

theorem hexDecode_inside_iff (view : StringView) :
    Inside view ((hexDecode view).run ()).trace ↔ view.text ≠ [] := by
  rw [run_hexDecode, Inside, List.forall_mem_cons]
  constructor
  · rintro ⟨first, -⟩
    exact List.length_pos_iff.mp first
  · intro nonempty
    refine ⟨List.length_pos_iff.mpr nonempty, fun access member => ?_⟩
    obtain ⟨position, below, rfl⟩ := List.mem_map.mp member
    rw [List.mem_range'_1] at below
    show position < view.text.length
    omega

/-- There is no character 0 in an empty text. -/
theorem hexDecode_empty_outside : ¬ Inside ⟨[], fun _ => 0⟩
    ((hexDecode ⟨[], fun _ => 0⟩).run ()).trace := by
  intro inside
  exact absurd (inside (.subscript 0) List.mem_cons_self) (Nat.lt_irrefl 0)

end MyappsCommon.Utility.Hex
