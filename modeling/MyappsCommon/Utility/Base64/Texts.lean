import MyappsCommon.Utility.Base64.Length

/-! # Texts that are encodings

The canonical texts are those that `base64_encode` makes.  Texts that are put together from
encodings are decoded without an exception, whatever the padding inside; the bytes are those
that were encoded only when there is none.
-/

namespace MyappsCommon.Utility.Base64

open MyappsCommon.Lib

section

variable {boost : Boost} (documented : boost.Documented)

/-! ## Canonical texts -/

include documented in
theorem canonical_base64Encode (bytes : List UInt8) :
    ∃ digits count, Canonical (base64Encode boost bytes) digits count := by
  refine ⟨groups 6 (padded 6 (bytesBits bytes)), (3 - bytes.length % 3) % 3,
    base64Encode_eq documented bytes, by omega, ?_, ?_⟩
  · rw [base64Encode_length documented]
    exact Nat.mul_mod_right 4 _
  · -- the bits behind the last whole byte are those that were filled in
    have whole : (groups 6 (padded 6 (bytesBits bytes))).length * 6 / 8 * 8 =
        (bytesBits bytes).length := by
      rw [groups_padded_length (by decide), bytesBits_length]
      omega
    rw [whole, bitsOf_groups_padded (by decide), padded, List.drop_left]
    exact fun bit member => List.eq_of_mem_replicate member

/-- Two values of one text are the same. -/
theorem Decodes.unique {view : StringView} {first second : List UInt8}
    (decodes : Decodes boost view first) (again : Decodes boost view second) : first = second := by
  obtain ⟨enough, returns⟩ := decodes
  obtain ⟨enough', returns'⟩ := again
  have both := returns (max enough enough') (Nat.le_max_left _ _)
  rw [returns' _ (Nat.le_max_right _ _)] at both
  exact (Outcome.ok.inj both).symm

end

/-- The texts that `base64_encode` makes are the canonical ones, and of the texts that are
decoded these and no others are what their value is encoded to. -/
theorem base64_canonical_iff (boost : Boost) (documented : boost.Documented) (view : StringView)
    (short : view.text.length < 2 ^ 32) :
    ((∃ bytes, base64Encode boost bytes = view.text) ↔
      ∃ digits count, Canonical view.text digits count) ∧
    ∀ bytes, Decodes boost view bytes →
      (base64Encode boost bytes = view.text ↔
        ∃ digits count, Canonical view.text digits count) := by
  have canonical {bytes : List UInt8} (encoded : base64Encode boost bytes = view.text) :
      ∃ digits count, Canonical view.text digits count :=
    encoded ▸ canonical_base64Encode documented bytes
  constructor
  · refine ⟨fun ⟨bytes, encoded⟩ => canonical encoded, ?_⟩
    rintro ⟨digits, count, isCanonical⟩
    obtain ⟨bytes, -, encoded⟩ := decodes_canonical documented isCanonical view.beyond short
    exact ⟨bytes, encoded⟩
  · intro bytes decodes
    refine ⟨canonical, ?_⟩
    rintro ⟨digits, count, isCanonical⟩
    obtain ⟨others, decodesOthers, encoded⟩ :=
      decodes_canonical documented isCanonical view.beyond short
    rw [decodes.unique decodesOthers]
    exact encoded

/-- `QR==` is decoded like `QQ==`, and is not canonical. -/
theorem base64_canonical_QQ :
    (∃ bytes, base64Encode Reference.boost bytes = [81, 81, 61, 61]) ∧
      ¬ ∃ digits count, Canonical [81, 82, 61, 61] digits count := by
  constructor
  · exact (base64_canonical_iff Reference.boost Reference.documented ⟨[81, 81, 61, 61], fun _ => 0⟩
      (by decide)).1.mpr ⟨[16, 16], 2, by decide, by decide, by decide, by decide⟩
  · have spelled : (⟨[81, 82, 61, 61], fun _ => 0⟩ : StringView).text =
        [(16 : BitVec 6), 17].map alphabet ++ List.replicate 2 pad := by decide
    have decodes : Decodes Reference.boost ⟨[81, 82, 61, 61], fun _ => 0⟩ [65] :=
      decodes_spelled Reference.documented _ spelled (Nat.le_refl 2) (by decide) (by decide)
    rw [← (base64_canonical_iff Reference.boost Reference.documented
      ⟨[81, 82, 61, 61], fun _ => 0⟩ (by decide)).2 [65] decodes]
    decide

/-! ## Texts put together from encodings -/

/-- Only behind a multiple of three bytes comes another piece. -/
def Aligned (pieces : List (List UInt8)) : Prop :=
  pieces.Pairwise fun earlier later => later ≠ [] → earlier.length % 3 = 0

/-- The texts of the pieces, one after the other. -/
def texts (boost : Boost) (pieces : List (List UInt8)) : List UInt8 :=
  pieces.flatMap (base64Encode boost)

@[simp] theorem texts_cons (boost : Boost) (piece : List UInt8) (pieces : List (List UInt8)) :
    texts boost (piece :: pieces) = base64Encode boost piece ++ texts boost pieces :=
  List.flatMap_cons

/-- The number of `=` in the texts of the pieces. -/
def filled (pieces : List (List UInt8)) : Nat :=
  (pieces.map fun piece => (3 - piece.length % 3) % 3).sum

@[simp] theorem filled_cons (piece : List UInt8) (pieces : List (List UInt8)) :
    filled (piece :: pieces) = (3 - piece.length % 3) % 3 + filled pieces := rfl

section

variable {boost : Boost} (documented : boost.Documented)

include documented in
theorem base64Encode_append {first : List UInt8} (whole : first.length % 3 = 0)
    (second : List UInt8) :
    base64Encode boost (first ++ second) =
      base64Encode boost first ++ base64Encode boost second := by
  have split : bytesBits (first ++ second) = bytesBits first ++ bytesBits second := by
    rw [bytesBits, List.map_append, bitsOf_append]
    rfl
  have wholeBits : (bytesBits first).length % 6 = 0 := by
    rw [bytesBits_length]
    omega
  have unpadded_first : padded 6 (bytesBits first) = bytesBits first := by
    rw [padded, wholeBits]
    exact List.append_nil _
  have count : (first ++ second).length % 3 = second.length % 3 := by
    rw [List.length_append]
    omega
  rw [base64Encode_eq documented, base64Encode_eq documented, base64Encode_eq documented, split,
    padded_append wholeBits, groups_append (by decide) wholeBits, unpadded_first, count, whole,
    List.map_append, List.append_assoc]
  exact congrArg (· ++ _) (List.append_nil _).symm

include documented in
theorem base64Encode_eq_nil_iff (bytes : List UInt8) :
    base64Encode boost bytes = [] ↔ bytes = [] := by
  rw [← List.length_eq_zero_iff, base64Encode_length documented, ← List.length_eq_zero_iff]
  omega

include documented in
/-- No text in front changes how many `=` an encoding ends in. -/
theorem padCount_append_base64Encode (front : List UInt8) {piece : List UInt8}
    (nonempty : piece ≠ []) :
    padCount (front ++ base64Encode boost piece) = (3 - piece.length % 3) % 3 := by
  have positive := List.length_pos_iff.mpr nonempty
  have some_digit : groups 6 (padded 6 (bytesBits piece)) ≠ [] := by
    rw [← List.length_pos_iff, groups_padded_length (by decide), bytesBits_length]
    omega
  obtain ⟨digits, last, split⟩ := List.eq_nil_or_concat _ |>.resolve_left some_digit
  have notPad : (alphabet last == pad) = false := beq_false_of_ne (alphabet_ne_pad last)
  rw [padCount, base64Encode_eq documented, split, List.map_concat]
  simp [List.takeWhile_append_of_pos, notPad]
  omega

include documented in
theorem texts_eq_nil_iff (pieces : List (List UInt8)) :
    texts boost pieces = [] ↔ ∀ piece ∈ pieces, piece = [] := by
  simp [texts, base64Encode_eq_nil_iff documented]

include documented in
/-- Four characters of the texts stand for three bytes or `=`. -/
theorem texts_length (pieces : List (List UInt8)) :
    (texts boost pieces).length % 4 = 0 ∧
      3 * (texts boost pieces).length = 4 * (pieces.flatten.length + filled pieces) := by
  induction pieces with
  | nil => exact ⟨rfl, rfl⟩
  | cons piece pieces ih =>
    have length := base64Encode_length documented piece
    rw [texts_cons, List.length_append, List.flatten_cons, List.length_append, filled_cons]
    omega

include documented in
/-- The `=` at the end are those of the last piece that is not empty. -/
theorem padCount_append_texts (front : List UInt8) {pieces : List (List UInt8)}
    (nonempty : texts boost pieces ≠ []) :
    padCount (front ++ texts boost pieces) = padCount (texts boost pieces) := by
  induction pieces generalizing front with
  | nil => exact absurd rfl nonempty
  | cons piece pieces ih =>
    rw [texts_cons] at nonempty ⊢
    by_cases none_later : texts boost pieces = []
    · rw [none_later, List.append_nil, ne_eq, base64Encode_eq_nil_iff documented] at nonempty
      rw [none_later, List.append_nil, padCount_append_base64Encode documented front nonempty]
      exact (padCount_append_base64Encode documented [] nonempty).symm
    · rw [← List.append_assoc, ih _ none_later, ih _ none_later]

include documented in
/-- There is no `=` before the end exactly when the pieces are aligned. -/
theorem padCount_texts (pieces : List (List UInt8)) :
    padCount (texts boost pieces) ≤ filled pieces ∧
      (padCount (texts boost pieces) = filled pieces ↔ Aligned pieces) := by
  induction pieces with
  | nil => exact ⟨Nat.zero_le _, iff_of_true rfl List.Pairwise.nil⟩
  | cons piece pieces ih =>
    obtain ⟨le, ih⟩ := ih
    rw [Aligned, List.pairwise_cons, ← Aligned, ← ih, filled_cons, texts_cons]
    by_cases none_later : texts boost pieces = []
    · -- the piece is the last one, if it is not empty
      have empty := (texts_eq_nil_iff documented pieces).mp none_later
      have nothing : filled pieces = 0 := by
        rw [none_later] at ih
        exact (ih.mpr (List.pairwise_iff_forall_sublist.mpr fun two filled =>
          absurd (empty _ (two.subset (by simp))) filled)).symm
      have own : padCount (base64Encode boost piece) = (3 - piece.length % 3) % 3 := by
        by_cases none_here : piece = []
        · rw [none_here, (base64Encode_eq_nil_iff documented []).mpr rfl]
          rfl
        · exact padCount_append_base64Encode documented [] none_here
      rw [none_later, List.append_nil, own, nothing]
      exact ⟨Nat.le_refl _, iff_of_true rfl
        ⟨fun later member filled => absurd (empty later member) filled, rfl⟩⟩
    · rw [padCount_append_texts documented _ none_later]
      rw [texts_eq_nil_iff documented, not_forall] at none_later
      obtain ⟨later, none_later⟩ := none_later
      rw [Classical.not_imp] at none_later
      constructor
      · omega
      · constructor
        · intro same
          exact ⟨fun _ _ _ => by omega, by omega⟩
        · rintro ⟨whole, same⟩
          have := whole later none_later.1 none_later.2
          omega

include documented in
/-- The encoding of aligned pieces can be made piece by piece. -/
theorem texts_of_aligned {pieces : List (List UInt8)} (aligned : Aligned pieces) :
    texts boost pieces = base64Encode boost pieces.flatten := by
  induction pieces with
  | nil => exact ((base64Encode_eq_nil_iff documented []).mpr rfl).symm
  | cons piece pieces ih =>
    obtain ⟨whole, aligned⟩ := List.pairwise_cons.mp aligned
    rw [texts_cons, List.flatten_cons, ih aligned]
    by_cases none_later : pieces.flatten = []
    · rw [none_later, (base64Encode_eq_nil_iff documented []).mpr rfl, List.append_nil,
        List.append_nil]
    · obtain ⟨later, member, filled⟩ : ∃ later ∈ pieces, later ≠ [] := by
        simpa [List.flatten_eq_nil_iff] using none_later
      exact (base64Encode_append documented (whole later member filled) _).symm

include documented in
theorem not_foreign_of_mem_texts {pieces : List (List UInt8)} {c : UInt8}
    (member : c ∈ texts boost pieces) : ¬ Foreign c := by
  obtain ⟨piece, -, member⟩ := List.mem_flatMap.mp member
  rw [base64Encode_eq documented, List.mem_append, List.mem_map] at member
  rintro ⟨notPad, outside⟩
  rcases member with ⟨digit, -, same⟩ | padding
  · exact outside digit same
  · exact notPad (List.eq_of_mem_replicate padding)

include documented in
/-- The texts are always decoded, and the `=` before the end are taken for digits. -/
theorem decodes_texts (pieces : List (List UInt8)) (beyond : Nat → UInt8)
    (short : (texts boost pieces).length < 2 ^ 32) :
    ∃ bytes, Decodes boost ⟨texts boost pieces, beyond⟩ bytes ∧
      bytes.length + padCount (texts boost pieces) = pieces.flatten.length + filled pieces := by
  obtain ⟨fours, thirds⟩ := texts_length documented pieces
  have few := padCount_le (texts boost pieces)
  have le := (padCount_texts documented pieces).1
  have left := length_unpadded (texts boost pieces)
  have met : (unpadded (texts boost pieces)).length % 4 ≠ 1 := by omega
  let view : StringView := ⟨texts boost pieces, beyond⟩
  have clean : ∀ c ∈ unpadded view.text, ¬ Foreign c := fun c member =>
    not_foreign_of_mem_texts documented ((unpadded_isPrefix (texts boost pieces)).subset member)
  obtain ⟨digits, length, -, decodes⟩ := decodes_of_clean documented short met clean
  refine ⟨_, decodes, ?_⟩
  have sameLength : digits.length = (unpadded (texts boost pieces)).length := length
  rw [List.length_map, groups_length, bitsOf_length, sameLength]
  omega

end

/-- The texts of several pieces are the text of all of them together exactly when the pieces
are aligned.  They are decoded in any case: to the bytes of the pieces if they are aligned, and
else to more bytes than there are. -/
theorem base64_pieces (boost : Boost) (documented : boost.Documented)
    (pieces : List (List UInt8)) :
    (texts boost pieces = base64Encode boost pieces.flatten ↔ Aligned pieces) ∧
    ∀ beyond, (texts boost pieces).length < 2 ^ 32 →
      ∃ bytes, Decodes boost ⟨texts boost pieces, beyond⟩ bytes ∧
        (Aligned pieces → bytes = pieces.flatten) ∧
        (¬ Aligned pieces → pieces.flatten.length < bytes.length) := by
  obtain ⟨le, aligned_iff⟩ := padCount_texts documented pieces
  have aligned_of_eq (same : texts boost pieces = base64Encode boost pieces.flatten) :
      Aligned pieces := by
    obtain ⟨-, thirds⟩ := texts_length documented pieces
    have whole := base64Encode_length documented pieces.flatten
    rw [← aligned_iff, same]
    rw [same] at thirds
    by_cases nothing : pieces.flatten = []
    · rw [nothing] at thirds whole ⊢
      rw [(base64Encode_eq_nil_iff documented []).mpr rfl] at thirds ⊢
      simp at thirds
      simp [padCount, thirds]
    · have ends := padCount_append_base64Encode documented [] nothing
      rw [List.nil_append] at ends
      omega
  refine ⟨⟨aligned_of_eq, texts_of_aligned documented⟩, fun beyond short => ?_⟩
  obtain ⟨bytes, decodes, length⟩ := decodes_texts documented pieces beyond short
  refine ⟨bytes, decodes, fun aligned => ?_, fun misaligned => ?_⟩
  · rw [texts_of_aligned documented aligned] at decodes short
    exact decodes.unique (decodes_base64Encode documented _ beyond short)
  · rw [← aligned_iff] at misaligned
    omega

end MyappsCommon.Utility.Base64
