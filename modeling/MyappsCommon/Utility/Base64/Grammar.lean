import MyappsCommon.Utility.Base64.RoundTrip

/-! # What `base64_decode` accepts

The decoder leaves all tests of characters to Boost, which has a digit for `=` as well.  An
`=` before the padding is decoded like the first character of the alphabet.
-/

namespace MyappsCommon.Utility.Base64

open MyappsCommon.Lib

/-- Digits and then this many `=`. -/
structure Spelling (text : List UInt8) (digits : List (BitVec 6)) (count : Nat) : Prop where
  spelled : text = digits.map alphabet ++ List.replicate count pad
  few : count ≤ 2

/-- Characters of the alphabet, and then at most two `=`. -/
def InGrammar (text : List UInt8) : Prop := ∃ digits count, Spelling text digits count

/-- The decoder leaves by an exception, with any sufficient budget of steps. -/
def Throws (boost : Boost) (view : StringView) : Prop :=
  ∃ enough, ∀ fuel, enough ≤ fuel → ((base64Decode boost fuel view).run ()).outcome = .raised

/-- The decoder returns on the texts of the grammar, with the standard decoding, and throws on
all others. -/
structure FollowsGrammar (boost : Boost) (view : StringView) : Prop where
  returns_iff : (∃ bytes, Decodes boost view bytes) ↔ InGrammar view.text
  standard : ∀ digits count, Spelling view.text digits count →
    Decodes boost view ((groups 8 (bitsOf digits)).map UInt8.ofBitVec)
  otherwise : ¬ InGrammar view.text → Throws boost view

/-! ## The padding -/

theorem eq_unpadded_append (text : List UInt8) :
    ∃ count ≤ 2, text = unpadded text ++ List.replicate count pad := by
  have last {characters : List UInt8} (ends : characters.getLast? = some pad) :
      characters.dropLast ++ [pad] = characters := List.dropLast_append_getLast? pad ends
  unfold unpadded
  split
  case isTrue ends =>
    split
    case isTrue twice =>
      refine ⟨2, Nat.le_refl 2, ?_⟩
      rw [List.replicate_succ', List.replicate_one, ← List.append_assoc, last twice, last ends]
    case isFalse => exact ⟨1, Nat.le_succ 1, (last ends).symm⟩
  case isFalse => exact ⟨0, Nat.zero_le 2, (List.append_nil text).symm⟩

theorem Spelling.unpadded_eq {text : List UInt8} {digits : List (BitVec 6)} {count : Nat}
    (spelling : Spelling text digits count) : unpadded text = digits.map alphabet := by
  rw [spelling.spelled, unpadded_append_replicate count spelling.few (map_alphabet_ne_pad digits)]

/-- A text is in the grammar when the characters before its padding are in the alphabet. -/
theorem inGrammar_of_unpadded {text : List UInt8} {digits : List (BitVec 6)}
    (spelled : unpadded text = digits.map alphabet) : InGrammar text := by
  obtain ⟨count, few, text_eq⟩ := eq_unpadded_append text
  rw [spelled] at text_eq
  exact ⟨digits, count, text_eq, few⟩

/-! ## Texts of digits, and others -/

section

variable {boost : Boost} (documented : boost.Documented)

include documented in
/-- A character that is decoded and is no `=` is that of the digit. -/
theorem eq_alphabet_of_decoded {c : UInt8} {digit : BitVec 6}
    (decoded : boost.binaryFromBase64 c = some digit) (notPad : c ≠ pad) : c = alphabet digit := by
  have known : ¬ Foreign c := by
    intro foreign
    rw [documented.rejects c foreign] at decoded
    cases decoded
  simp only [Foreign, notPad, ne_eq, not_false_eq_true, true_and, not_forall, not_not] at known
  obtain ⟨other, rfl⟩ := known
  rw [documented.decodes, Option.some.injEq] at decoded
  rw [decoded]

include documented in
/-- A text without `=` before its padding whose characters are all decoded is made of the
digits. -/
theorem unpadded_eq_of_spells {view : StringView} {digits : List (BitVec 6)}
    (length : digits.length = (unpadded view.text).length) (spelled : Spells boost view 0 digits)
    (clean : pad ∉ unpadded view.text) : unpadded view.text = digits.map alphabet := by
  apply List.ext_getElem
  · rw [List.length_map, length]
  · intro i inside _
    have decoded := spelled.get_eq_some view (by omega : i < digits.length)
    rw [Nat.zero_add, get_unpadded inside] at decoded
    rw [List.getElem_map]
    exact eq_alphabet_of_decoded documented decoded fun isPad =>
      clean (isPad ▸ List.getElem_mem inside)

include documented in
theorem throws_of_foreign {view : StringView} (short : view.text.length < 2 ^ 32)
    {c : UInt8} (member : c ∈ unpadded view.text) (foreign : Foreign c) : Throws boost view := by
  rcases spells_or_foreign boost view 0 (unpadded view.text).length with
    ⟨digits, length, spelled⟩ | ⟨digits, inside, spelled, stops⟩
  · exact absurd foreign (not_foreign_of_spells documented length spelled c member)
  · rw [Nat.zero_add] at stops
    refine ⟨digits.length + 1, fun fuel enough => ?_⟩
    obtain ⟨reads, -, run⟩ :=
      run_base64Decode_foreign documented short inside spelled stops enough
    rw [run, Result.prepend_outcome]

include documented in
/-- Without foreign characters the decoder returns. -/
theorem decodes_of_clean {view : StringView} (short : view.text.length < 2 ^ 32)
    (met : (unpadded view.text).length % 4 ≠ 1) (clean : ∀ c ∈ unpadded view.text, ¬ Foreign c) :
    ∃ digits : List (BitVec 6), digits.length = (unpadded view.text).length ∧
      Spells boost view 0 digits ∧
        Decodes boost view ((groups 8 (bitsOf digits)).map UInt8.ofBitVec) := by
  rcases spells_or_foreign boost view 0 (unpadded view.text).length with
    ⟨digits, length, spelled⟩ | ⟨digits, inside, spelled, stops⟩
  · refine ⟨digits, length, spelled, digits.length + 1, fun fuel enough => ?_⟩
    obtain ⟨reads, -, run⟩ :=
      run_base64Decode_spelled documented short met length spelled enough
    rw [run, Result.prepend_outcome]
  · rw [Nat.zero_add, get_unpadded inside, binaryFromBase64_eq_none_iff documented] at stops
    exact absurd stops (clean _ (List.getElem_mem inside))

/-- What the decoder gives with one sufficient budget it gives with all. -/
theorem Decodes.not_throws {view : StringView} {bytes : List UInt8}
    (decodes : Decodes boost view bytes) : ¬ Throws boost view := by
  obtain ⟨enough, returns⟩ := decodes
  rintro ⟨enough', throws⟩
  have both := returns (max enough enough') (Nat.le_max_left _ _)
  rw [throws _ (Nat.le_max_right _ _)] at both
  cases both

include documented in
/-- With a foreign character the decoder throws, and the text is not in the grammar. -/
theorem followsGrammar_of_foreign {view : StringView} (short : view.text.length < 2 ^ 32)
    {c : UInt8} (member : c ∈ unpadded view.text) (foreign : Foreign c) :
    FollowsGrammar boost view := by
  have throws := throws_of_foreign documented short member foreign
  have outside : ¬ InGrammar view.text := by
    rintro ⟨digits, count, spelling⟩
    rw [spelling.unpadded_eq] at member
    obtain ⟨digit, -, rfl⟩ := List.mem_map.mp member
    exact foreign.2 digit rfl
  constructor
  case returns_iff => exact iff_of_false (fun ⟨_, decodes⟩ => decodes.not_throws throws) outside
  case standard => exact fun digits count spelling => absurd ⟨digits, count, spelling⟩ outside
  case otherwise => exact fun _ => throws

include documented in
/-- A text of the grammar is decoded as the grammar says. -/
theorem followsGrammar_of_inGrammar {view : StringView} (short : view.text.length < 2 ^ 32)
    (met : (unpadded view.text).length % 4 ≠ 1) (inGrammar : InGrammar view.text) :
    FollowsGrammar boost view := by
  have standard : ∀ digits count, Spelling view.text digits count →
      Decodes boost view ((groups 8 (bitsOf digits)).map UInt8.ofBitVec) := by
    intro digits count spelling
    rw [spelling.unpadded_eq, List.length_map] at met
    exact decodes_spelled documented view spelling.spelled spelling.few short met
  constructor
  case returns_iff =>
    obtain ⟨digits, count, spelling⟩ := inGrammar
    exact iff_of_true ⟨_, standard digits count spelling⟩ ⟨digits, count, spelling⟩
  case standard => exact standard
  case otherwise => exact fun outside => absurd inGrammar outside

end

/-- For texts whose length fits `unsigned int` and leaves an end that the decoder meets: the
grammar is followed exactly when there is no `=` before the padding, or also a foreign
character. -/
theorem followsGrammar_iff (boost : Boost) (documented : boost.Documented) (view : StringView)
    (short : view.text.length < 2 ^ 32) (met : (unpadded view.text).length % 4 ≠ 1) :
    FollowsGrammar boost view ↔
      (pad ∉ unpadded view.text ∨ ∃ c ∈ unpadded view.text, Foreign c) := by
  by_cases found : ∃ c ∈ unpadded view.text, Foreign c
  · obtain ⟨c, member, foreign⟩ := found
    exact iff_of_true (followsGrammar_of_foreign documented short member foreign)
      (.inr ⟨c, member, foreign⟩)
  · have clean : ∀ c ∈ unpadded view.text, ¬ Foreign c := fun c member foreign =>
      found ⟨c, member, foreign⟩
    obtain ⟨digits, length, spelled, decodes⟩ := decodes_of_clean documented short met clean
    rw [or_iff_left found]
    constructor
    · -- the text is decoded, so that it is in the grammar, which has no such `=`
      intro follows member
      obtain ⟨others, count, spelling⟩ := follows.returns_iff.mp ⟨_, decodes⟩
      rw [spelling.unpadded_eq] at member
      exact map_alphabet_ne_pad others pad member rfl
    · intro noPad
      have unpadded_eq := unpadded_eq_of_spells documented length spelled noPad
      exact followsGrammar_of_inGrammar documented short met (inGrammar_of_unpadded unpadded_eq)

/-- `QQ==` -/
theorem followsGrammar_QQ : FollowsGrammar Reference.boost ⟨[81, 81, 61, 61], fun _ => 0⟩ :=
  (followsGrammar_iff Reference.boost Reference.documented _ (by decide) (by decide)).mpr
    (.inl (by decide))

/-- `=AAA` is no text of the grammar, and is decoded like `AAAA`. -/
theorem leading_pad_decoded :
    Decodes Reference.boost ⟨[61, 65, 65, 65], fun _ => 0⟩ [0, 0, 0] ∧
      ¬ InGrammar [61, 65, 65, 65] ∧
      ¬ FollowsGrammar Reference.boost ⟨[61, 65, 65, 65], fun _ => 0⟩ := by
  have spelled : Spells Reference.boost ⟨[61, 65, 65, 65], fun _ => 0⟩ 0 [0, 0, 0, 0] := by
    refine ⟨by decide, by decide, by decide, by decide, trivial⟩
  have outside : ¬ InGrammar [61, 65, 65, 65] := by
    rintro ⟨digits, count, spelling⟩
    have first : pad ∈ digits.map alphabet := by
      rw [← spelling.unpadded_eq]
      decide
    exact map_alphabet_ne_pad digits pad first rfl
  have decodes : Decodes Reference.boost ⟨[61, 65, 65, 65], fun _ => 0⟩ [0, 0, 0] := by
    refine ⟨5, fun fuel enough => ?_⟩
    obtain ⟨reads, -, run⟩ := run_base64Decode_spelled Reference.documented (by decide)
      (by decide) (by decide) spelled enough
    rw [run, Result.prepend_outcome]
    rfl
  exact ⟨decodes, outside, fun follows => outside (follows.returns_iff.mp ⟨_, decodes⟩)⟩

end MyappsCommon.Utility.Base64
