import MyappsCommon.Utility.Base64.Decoding

/-! # Where `base64_decode` ends

The end is met from every size that is not 1 modulo 4.  From a size that is, it is
skipped, unless a character before it makes the decoder throw first.
-/

namespace MyappsCommon.Utility.Base64

open MyappsCommon.Lib

/-- The run ends, with a value or by an exception, and reads the text inside its bounds:
the padding test inside the text, the decoder before the padding. -/
def EndsInside (view : StringView) (result : Result Unit Read (List UInt8)) : Prop :=
  result.outcome ≠ .unfinished ∧ ∀ read ∈ result.trace, match read with
    | .padding position => position < view.text.length
    | .source position => position < (unpadded view.text).length

section

variable {boost : Boost} (documented : boost.Documented) (view : StringView)

include documented in
theorem binaryFromBase64_eq_none_iff (c : UInt8) :
    boost.binaryFromBase64 c = none ↔ Foreign c := by
  refine ⟨fun refused => ⟨?_, ?_⟩, documented.rejects c⟩
  · rintro rfl
    rw [documented.decodesPad] at refused
    cases refused
  · rintro digit rfl
    rw [documented.decodes] at refused
    cases refused

/-- Up to a bound, the characters are digits, or some first character is none. -/
theorem spells_or_foreign (boost : Boost) (view : StringView) (position count : Nat) :
    (∃ digits, digits.length = count ∧ Spells boost view position digits) ∨
    ∃ digits, digits.length < count ∧ Spells boost view position digits ∧
      boost.binaryFromBase64 (view.get (position + digits.length)) = none := by
  induction count generalizing position with
  | zero => exact .inl ⟨[], rfl, trivial⟩
  | succ count ih =>
    cases read : boost.binaryFromBase64 (view.get position) with
    | none => exact .inr ⟨[], Nat.succ_pos _, trivial, read⟩
    | some digit =>
      rcases ih (position + 1) with ⟨digits, length, spelled⟩ | ⟨digits, short, spelled, foreign⟩
      · exact .inl ⟨digit :: digits, by rw [List.length_cons, length], read, spelled⟩
      · refine .inr ⟨digit :: digits, by rw [List.length_cons]; omega, ⟨read, spelled⟩, ?_⟩
        rw [List.length_cons, Nat.add_comm digits.length, ← Nat.add_assoc]
        exact foreign

/-- Each character of a spelled text has its digit. -/
theorem Spells.get_eq_some {position : Nat} {digits : List (BitVec 6)}
    (spelled : Spells boost view position digits) {offset : Nat}
    (inside : offset < digits.length) :
    boost.binaryFromBase64 (view.get (position + offset)) = some digits[offset] := by
  induction digits generalizing position offset with
  | nil => cases inside
  | cons digit digits ih =>
    cases offset with
    | zero => exact spelled.1
    | succ offset =>
      have later := ih spelled.2 (Nat.lt_of_succ_lt_succ inside)
      rwa [Nat.add_assoc, Nat.add_comm 1] at later

include documented in
/-- No character of a text that is spelled is foreign. -/
theorem not_foreign_of_spells {view : StringView} {digits : List (BitVec 6)}
    (length : digits.length = (unpadded view.text).length) (spelled : Spells boost view 0 digits) :
    ∀ c ∈ unpadded view.text, ¬ Foreign c := by
  intro c member foreign
  obtain ⟨position, inside, rfl⟩ := List.getElem_of_mem member
  have read := spelled.get_eq_some view (by omega : position < digits.length)
  rw [Nat.zero_add, get_unpadded inside, documented.rejects _ foreign] at read
  cases read

include documented in
theorem standing_start : Standing boost (boost.widen.ofBase 0) := by
  rw [Standing, documented.pulled_ofBase, documented.base_ofBase]
  exact ⟨rfl, by decide⟩

/-- A run of the decoder is the padding test and then a run of the copy loop. -/
theorem run_base64Decode (boost : Boost) {view : StringView} (short : view.text.length < 2 ^ 32)
    (some_left : unpadded view.text ≠ []) (fuel : Nat) :
    ∃ reads, (∀ read ∈ reads, ∃ position < view.text.length, read = .padding position) ∧
      (base64Decode boost fuel view).run () =
        ((copy boost.widen (decodeSource boost view)
          (boost.widen.ofBase (unpadded view.text).length) fuel
          (boost.widen.ofBase 0)).run ()).prepend reads := by
  obtain ⟨reads, size, inside⟩ := run_decodeSize short
  refine ⟨reads, inside, ?_⟩
  have positive := List.length_pos_iff.mpr some_left
  rw [base64Decode, Traced.run_bind, size, Result.andThen_ok, if_neg (by omega)]

/-- Nothing is decoded when nothing is left of the text. -/
theorem run_base64Decode_nil (boost : Boost) {view : StringView}
    (short : view.text.length < 2 ^ 32) (none_left : unpadded view.text = []) (fuel : Nat) :
    ∃ reads, (∀ read ∈ reads, ∃ position < view.text.length, read = .padding position) ∧
      (base64Decode boost fuel view).run () = ⟨.ok [], (), reads⟩ := by
  obtain ⟨reads, size, inside⟩ := run_decodeSize short
  refine ⟨reads, inside, ?_⟩
  rw [base64Decode, Traced.run_bind, size, Result.andThen_ok, none_left]
  simp [Result.prepend]

/-- Source reads below the bound, behind the reads of the padding test. -/
theorem endsInside_of_sources {view : StringView} {reads : List Read}
    {outcome : Outcome (List UInt8)} {count : Nat}
    (padding : ∀ read ∈ reads, ∃ position < view.text.length, read = .padding position)
    (ended : outcome ≠ .unfinished) (bound : count ≤ (unpadded view.text).length) :
    EndsInside view ((Result.mk outcome () (sources 0 count)).prepend reads) := by
  refine ⟨ended, fun read member => ?_⟩
  rcases List.mem_append.mp member with member | member
  · obtain ⟨position, inside, rfl⟩ := padding read member
    exact inside
  · obtain ⟨position, below, rfl⟩ := List.mem_map.mp member
    rw [List.mem_range'_1] at below
    show position < _
    omega

include documented in
/-- A foreign character stops the decoder before the end, whatever the size. -/
theorem run_base64Decode_foreign {view : StringView} (short : view.text.length < 2 ^ 32)
    {digits : List (BitVec 6)} (inside : digits.length < (unpadded view.text).length)
    (spelled : Spells boost view 0 digits)
    (foreign : boost.binaryFromBase64 (view.get digits.length) = none) {fuel : Nat}
    (enough : digits.length < fuel) :
    ∃ reads, (∀ read ∈ reads, ∃ position < view.text.length, read = .padding position) ∧
      (base64Decode boost fuel view).run () =
        (Result.mk .raised () (sources 0 (digits.length + 1))).prepend reads := by
  have some_left : unpadded view.text ≠ [] := List.length_pos_iff.mp (by omega)
  obtain ⟨reads, padding, run⟩ := run_base64Decode boost short some_left fuel
  have start := documented.base_ofBase 0
  have stop := documented.base_ofBase (unpadded view.text).length
  refine ⟨reads, padding, ?_⟩
  rw [run, copy_foreign documented view fuel digits _ (standing_start documented)
    (by rwa [start]) (by rwa [start, Nat.zero_add]) (by rw [start, stop]; omega) enough, start]

include documented in
/-- Digits only, and an end that can be met: all digits are decoded. -/
theorem run_base64Decode_spelled {view : StringView} (short : view.text.length < 2 ^ 32)
    (met : (unpadded view.text).length % 4 ≠ 1) {digits : List (BitVec 6)}
    (length : digits.length = (unpadded view.text).length) (spelled : Spells boost view 0 digits)
    {fuel : Nat} (enough : digits.length < fuel) :
    ∃ reads, (∀ read ∈ reads, ∃ position < view.text.length, read = .padding position) ∧
      (base64Decode boost fuel view).run () =
        (Result.mk (.ok ((groups 8 (bitsOf digits)).map UInt8.ofBitVec)) ()
          (sources 0 digits.length)).prepend reads := by
  by_cases none_left : unpadded view.text = []
  · -- `base64_decode` returns before the copy loop
    obtain ⟨reads, padding, run⟩ := run_base64Decode_nil boost short none_left fuel
    rw [none_left, List.length_nil, List.length_eq_zero_iff] at length
    subst length
    refine ⟨reads, padding, ?_⟩
    rw [run, Result.prepend, List.length_nil, sources_zero, List.append_nil]
    rfl
  · obtain ⟨reads, padding, run⟩ := run_base64Decode boost short none_left fuel
    have start := documented.base_ofBase 0
    have stop := documented.base_ofBase (unpadded view.text).length
    refine ⟨reads, padding, ?_⟩
    rw [run, copy_spelled documented view (by rwa [stop]) fuel digits _
      (standing_start documented) (by rwa [start]) (by rw [start, stop]; omega) enough, start,
      documented.pulled_ofBase, List.nil_append]

include documented in
/-- Digits only, and an end that is skipped: no run ends without a read at the end. -/
theorem not_endsInside_of_skipped {view : StringView} (short : view.text.length < 2 ^ 32)
    (skipped : (unpadded view.text).length % 4 = 1) {digits : List (BitVec 6)}
    (length : digits.length = (unpadded view.text).length) (spelled : Spells boost view 0 digits)
    (fuel : Nat) : ¬ EndsInside view ((base64Decode boost fuel view).run ()) := by
  have some_left : unpadded view.text ≠ [] := List.length_pos_iff.mp (by omega)
  obtain ⟨reads, -, run⟩ := run_base64Decode boost short some_left fuel
  have start := documented.base_ofBase 0
  have stop := documented.base_ofBase (unpadded view.text).length
  rintro ⟨ended, inside⟩
  rw [run] at ended inside
  rcases copy_overrun documented view (by rwa [stop]) fuel digits _ (standing_start documented)
    (by rwa [start]) (by rw [start, stop]; omega) with unfinished | overrun
  · exact ended unfinished
  · have below := inside _ (List.mem_append_right reads overrun)
    simp only [stop] at below
    omega

end

/-- For texts whose length fits `unsigned int`: the decoder ends and reads only before the
padding exactly when the length before the padding is not 1 modulo 4 or a character
before the padding is foreign. -/
theorem base64Decode_endsInside_iff (boost : Boost) (documented : boost.Documented)
    (view : StringView) (short : view.text.length < 2 ^ 32) :
    (∃ enough, ∀ fuel, enough ≤ fuel → EndsInside view ((base64Decode boost fuel view).run ())) ↔
      ((unpadded view.text).length % 4 ≠ 1 ∨ ∃ c ∈ unpadded view.text, Foreign c) := by
  rcases spells_or_foreign boost view 0 (unpadded view.text).length with
    ⟨digits, length, spelled⟩ | ⟨digits, inside, spelled, foreign⟩
  · -- digits only: whether the run ends depends on the length alone
    have clean : ¬ ∃ c ∈ unpadded view.text, Foreign c := fun ⟨c, member, foreign⟩ =>
      not_foreign_of_spells documented length spelled c member foreign
    constructor
    · rintro ⟨enough, ends⟩
      left
      intro skipped
      exact not_endsInside_of_skipped documented short skipped length spelled enough
        (ends enough (Nat.le_refl _))
    · intro condition
      have met := condition.resolve_right clean
      refine ⟨digits.length + 1, fun fuel enough => ?_⟩
      obtain ⟨reads, padding, run⟩ :=
        run_base64Decode_spelled documented short met length spelled enough
      rw [run]
      exact endsInside_of_sources padding (by simp) (Nat.le_of_eq length)
  · -- the first foreign character stops the run, and both sides hold
    rw [Nat.zero_add] at foreign
    have found : ∃ c ∈ unpadded view.text, Foreign c := by
      refine ⟨_, List.getElem_mem inside, ?_⟩
      rw [← get_unpadded inside]
      exact (binaryFromBase64_eq_none_iff documented _).mp foreign
    refine iff_of_true ?_ (.inr found)
    refine ⟨digits.length + 1, fun fuel enough => ?_⟩
    obtain ⟨reads, padding, run⟩ :=
      run_base64Decode_foreign documented short inside spelled foreign enough
    rw [run]
    exact endsInside_of_sources padding (by simp) inside

/-- `QQ==` -/
theorem base64Decode_endsInside_QQ :
    ∃ enough, ∀ fuel, enough ≤ fuel →
      EndsInside ⟨[81, 81, 61, 61], fun _ => 0⟩
        ((base64Decode Reference.boost fuel ⟨[81, 81, 61, 61], fun _ => 0⟩).run ()) :=
  (base64Decode_endsInside_iff Reference.boost Reference.documented _ (by decide)).mpr
    (.inl (by decide))

/-- The text `A`: position 1 is read, behind the only character. -/
theorem base64Decode_overruns_A :
    ¬ ∃ enough, ∀ fuel, enough ≤ fuel →
      EndsInside ⟨[65], fun _ => 0⟩
        ((base64Decode Reference.boost fuel ⟨[65], fun _ => 0⟩).run ()) := by
  rintro ⟨enough, ends⟩
  have digit : Spells Reference.boost ⟨[65], fun _ => 0⟩ 0 [0] := ⟨by decide, trivial⟩
  exact not_endsInside_of_skipped Reference.documented (by decide) (by decide) (by decide) digit
    enough (ends enough (Nat.le_refl _))

end MyappsCommon.Utility.Base64
