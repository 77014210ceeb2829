import MyappsCommon.Utility.Base64.Termination

/-! # `base64_encode` and `base64_decode` are inverse

Both directions are statements about one bit string.  Encoding fills it up with zeros
to whole 6-bit digits, which are fewer bits than a byte; decoding drops what is left
over after whole bytes, which is what the encoder filled in.
-/

namespace MyappsCommon.Utility.Base64

open MyappsCommon.Lib

/-- Decoding gives this value, with any sufficient budget of steps. -/
def Decodes (boost : Boost) (view : StringView) (bytes : List UInt8) : Prop :=
  ∃ enough, ∀ fuel, enough ≤ fuel → ((base64Decode boost fuel view).run ()).outcome = .ok bytes

/-- Digits, then at most two `=` up to a multiple of four characters, and the bits after
the last whole byte are zero. -/
structure Canonical (text : List UInt8) (digits : List (BitVec 6)) (count : Nat) : Prop where
  spelled : text = digits.map alphabet ++ List.replicate count pad
  few : count ≤ 2
  fours : text.length % 4 = 0
  zeros : ∀ bit ∈ (bitsOf digits).drop (digits.length * 6 / 8 * 8), bit = false

theorem alphabet_ne_pad (digit : BitVec 6) : alphabet digit ≠ pad := by
  revert digit
  decide +kernel

theorem base64Padding_eq (length : Nat) :
    base64Padding (length % 3) = List.replicate ((3 - length % 3) % 3) pad := by
  rcases (by omega : length % 3 = 0 ∨ length % 3 = 1 ∨ length % 3 = 2) with rest | rest | rest
  all_goals
    rw [rest]
    rfl

/-- The bytes of 8-bit digits, and back. -/
theorem map_toBitVec_map_ofBitVec (digits : List (BitVec 8)) :
    (digits.map UInt8.ofBitVec).map UInt8.toBitVec = digits := by
  rw [List.map_map]
  exact List.map_id _

theorem map_ofBitVec_map_toBitVec (bytes : List UInt8) :
    (bytes.map UInt8.toBitVec).map UInt8.ofBitVec = bytes := by
  rw [List.map_map]
  exact List.map_id _

@[simp] theorem bytesBits_length (bytes : List UInt8) :
    (bytesBits bytes).length = bytes.length * 8 := by
  rw [bytesBits, bitsOf_length, List.length_map]

theorem map_alphabet_ne_pad (digits : List (BitVec 6)) : ∀ c ∈ digits.map alphabet, c ≠ pad := by
  intro c member
  obtain ⟨digit, -, rfl⟩ := List.mem_map.mp member
  exact alphabet_ne_pad digit

section

variable {boost : Boost} (documented : boost.Documented)

include documented in
theorem base64Encode_eq (bytes : List UInt8) :
    base64Encode boost bytes =
      (groups 6 (padded 6 (bytesBits bytes))).map alphabet ++
        List.replicate ((3 - bytes.length % 3) % 3) pad := by
  rw [base64Encode, documented.narrows, base64Padding_eq]
  congr 1
  exact List.map_congr_left fun digit _ => documented.encodes digit

include documented in
theorem base64Encode_length (bytes : List UInt8) :
    (base64Encode boost bytes).length = 4 * ((bytes.length + 2) / 3) := by
  rw [base64Encode_eq documented, List.length_append, List.length_map, List.length_replicate,
    groups_padded_length (by decide), bytesBits_length]
  omega

include documented in
/-- Characters of the alphabet spell their digits, wherever they stand in the text. -/
theorem spells_alphabet {view : StringView} (digits : List (BitVec 6)) (position : Nat)
    (stands : ∀ offset (inside : offset < digits.length),
      view.get (position + offset) = alphabet digits[offset]) :
    Spells boost view position digits := by
  induction digits generalizing position with
  | nil => trivial
  | cons digit digits ih =>
    refine ⟨?_, ih (position + 1) fun offset inside => ?_⟩
    · have first := stands 0 (Nat.succ_pos _)
      rw [Nat.add_zero] at first
      rw [first]
      exact documented.decodes digit
    · rw [Nat.add_assoc, Nat.add_comm 1]
      exact stands (offset + 1) (Nat.succ_lt_succ inside)

include documented in
/-- The decoding of spelled digits and at most two `=`. -/
theorem decodes_spelled (view : StringView) {digits : List (BitVec 6)} {count : Nat}
    (text : view.text = digits.map alphabet ++ List.replicate count pad) (few : count ≤ 2)
    (short : view.text.length < 2 ^ 32) (met : digits.length % 4 ≠ 1) :
    Decodes boost view ((groups 8 (bitsOf digits)).map UInt8.ofBitVec) := by
  have left : unpadded view.text = digits.map alphabet := by
    rw [text, unpadded_append_replicate count few (map_alphabet_ne_pad digits)]
  have length : (unpadded view.text).length = digits.length := by rw [left, List.length_map]
  have spelled : Spells boost view 0 digits := by
    apply spells_alphabet documented
    intro offset inside
    rw [Nat.zero_add, get_unpadded (by omega)]
    simp [left]
  refine ⟨digits.length + 1, fun fuel enough => ?_⟩
  obtain ⟨reads, -, run⟩ :=
    run_base64Decode_spelled documented short (by rwa [length]) length.symm spelled enough
  rw [run, Result.prepend_outcome]

include documented in
/-- What `base64_encode` gives is decoded to the bytes it was given. -/
theorem decodes_base64Encode (bytes : List UInt8) (beyond : Nat → UInt8)
    (short : (base64Encode boost bytes).length < 2 ^ 32) :
    Decodes boost ⟨base64Encode boost bytes, beyond⟩ bytes := by
  have digitCount := groups_padded_length (w := 6) (by decide) (bytesBits bytes)
  rw [bytesBits_length] at digitCount
  have decoded := decodes_spelled documented ⟨base64Encode boost bytes, beyond⟩
    (base64Encode_eq documented bytes) (by omega) short (by omega)
  -- the zeros that were filled in are less than a byte
  rw [bitsOf_groups_padded (by decide), padded, bytesBits, groups_bitsOf_append _
    (by rw [List.length_replicate]; omega), map_ofBitVec_map_toBitVec] at decoded
  exact decoded

/-- A number of digits that is not one more than a multiple of four: the zeros that fill up
the whole bytes are the bits after them, and the padding makes up for the missing digits. -/
theorem digits_met {count : Nat} (met : count % 4 ≠ 1) :
    (6 - (count * 6 / 8 * 8) % 6) % 6 = count * 6 % 8 ∧
      (3 - count * 6 / 8 % 3) % 3 = (4 - count % 4) % 4 := by
  obtain ⟨fours, rest, small, rfl⟩ : ∃ fours rest, rest < 4 ∧ count = 4 * fours + rest :=
    ⟨count / 4, count % 4, by omega, by omega⟩
  rcases (by omega : rest = 0 ∨ rest = 2 ∨ rest = 3) with rfl | rfl | rfl
  all_goals omega

/-- Filling up the bits of whole bytes gives back the zeros that decoding dropped. -/
theorem padded_take_bitsOf {digits : List (BitVec 6)} (met : digits.length % 4 ≠ 1)
    (zeros : ∀ bit ∈ (bitsOf digits).drop (digits.length * 6 / 8 * 8), bit = false) :
    padded 6 ((bitsOf digits).take (digits.length * 6 / 8 * 8)) = bitsOf digits := by
  have dropped : (bitsOf digits).drop (digits.length * 6 / 8 * 8) =
      List.replicate (digits.length * 6 % 8) false := by
    rw [List.eq_replicate_iff]
    refine ⟨?_, zeros⟩
    rw [List.length_drop, bitsOf_length]
    omega
  rw [padded, List.length_take, bitsOf_length, Nat.min_eq_left (by omega), (digits_met met).1,
    ← dropped, List.take_append_drop]

include documented in
/-- A canonical text is decoded, and its value is encoded to it. -/
theorem decodes_canonical {text : List UInt8} {digits : List (BitVec 6)} {count : Nat}
    (canonical : Canonical text digits count) (beyond : Nat → UInt8)
    (short : text.length < 2 ^ 32) :
    ∃ bytes, Decodes boost ⟨text, beyond⟩ bytes ∧ base64Encode boost bytes = text := by
  obtain ⟨spelled, few, fours, zeros⟩ := canonical
  have length : text.length = digits.length + count := by
    rw [spelled, List.length_append, List.length_map, List.length_replicate]
  have met : digits.length % 4 ≠ 1 := by omega
  refine ⟨_, decodes_spelled documented ⟨text, beyond⟩ spelled few short met, ?_⟩
  have byteCount : (groups 8 (bitsOf digits)).length = digits.length * 6 / 8 := by
    rw [groups_length, bitsOf_length]
  have padding : (3 - digits.length * 6 / 8 % 3) % 3 = count := by
    rw [(digits_met met).2]
    omega
  rw [base64Encode_eq documented, bytesBits, map_toBitVec_map_ofBitVec,
    bitsOf_groups (by decide), bitsOf_length, padded_take_bitsOf met zeros,
    groups_bitsOf (by decide), List.length_map, byteCount, padding, spelled]

end

/-- The length of the encoding, and the two round trips. -/
theorem base64_inverse (boost : Boost) (documented : boost.Documented) :
    (∀ bytes beyond, (base64Encode boost bytes).length < 2 ^ 32 →
      (base64Encode boost bytes).length = 4 * ((bytes.length + 2) / 3) ∧
        Decodes boost ⟨base64Encode boost bytes, beyond⟩ bytes) ∧
    ∀ text digits count beyond, Canonical text digits count → text.length < 2 ^ 32 →
      ∃ bytes, Decodes boost ⟨text, beyond⟩ bytes ∧ base64Encode boost bytes = text :=
  ⟨fun bytes beyond short =>
    ⟨base64Encode_length documented bytes, decodes_base64Encode documented bytes beyond short⟩,
    fun _ _ _ beyond canonical short => decodes_canonical documented canonical beyond short⟩

/-- The byte `0x41`, whose text is `QQ==`. -/
theorem base64_inverse_A :
    base64Encode Reference.boost [65] = [81, 81, 61, 61] ∧
      Decodes Reference.boost ⟨base64Encode Reference.boost [65], fun _ => 0⟩ [65] ∧
      ∃ bytes, Decodes Reference.boost ⟨[81, 81, 61, 61], fun _ => 0⟩ bytes ∧
        base64Encode Reference.boost bytes = [81, 81, 61, 61] :=
  ⟨by decide, ((base64_inverse Reference.boost Reference.documented).1 [65] _ (by decide)).2,
    (base64_inverse Reference.boost Reference.documented).2 _ [16, 16] 2 _
      ⟨by decide, by decide, by decide, by decide⟩ (by decide)⟩

end MyappsCommon.Utility.Base64
