import MyappsCommon.Utility.Base64.Grammar

/-! # How much of its text `base64_decode` uses

The length is kept in an `unsigned int`.  Of a text that is too long for it the decoder sees
only as many characters as are left modulo `2 ^ 32`.
-/

namespace MyappsCommon.Utility.Base64

open MyappsCommon.Lib

/-- The number of trailing `=`, counted up to two. -/
def padCount (text : List UInt8) : Nat := min 2 (text.reverse.takeWhile (· == pad)).length

/-- Whenever the decoder returns, the length is that of the whole text decoded. -/
def UsesWhole (boost : Boost) (view : StringView) : Prop :=
  ∀ fuel bytes, ((base64Decode boost fuel view).run ()).outcome = .ok bytes →
    bytes.length = 6 * (view.text.length - padCount view.text) / 8

/-- The characters that are left of the length in an `unsigned int`, and all others behind. -/
def StringView.wrapped (view : StringView) : StringView where
  text := view.text.take (view.text.length % 2 ^ 32)
  beyond offset := view.get (view.text.length % 2 ^ 32 + offset)

/-! ## The wrapped view -/

theorem length_wrapped (view : StringView) :
    view.wrapped.text.length = view.text.length % 2 ^ 32 := by
  rw [StringView.wrapped, List.length_take]
  exact Nat.min_eq_left (Nat.mod_le _ _)

theorem wrapped_short (view : StringView) : view.wrapped.text.length < 2 ^ 32 := by
  rw [length_wrapped]
  exact Nat.mod_lt _ (Nat.two_pow_pos 32)

theorem get_wrapped (view : StringView) (position : Nat) :
    view.wrapped.get position = view.get position := by
  by_cases inside : position < view.text.length % 2 ^ 32
  · have within : position < view.text.length := Nat.lt_of_lt_of_le inside (Nat.mod_le _ _)
    rw [get_of_lt (by rwa [length_wrapped]), get_of_lt within]
    exact List.getElem_take
  · have outside : view.wrapped.text.length ≤ position := by
      rw [length_wrapped]
      exact Nat.le_of_not_lt inside
    rw [StringView.get, List.getD_eq_getElem?_getD, List.getElem?_eq_none outside,
      length_wrapped]
    show view.get (_ + _) = _
    rw [Nat.add_sub_cancel' (Nat.le_of_not_lt inside)]

/-- Both have the same length in an `unsigned int`, and the same characters. -/
theorem base64Decode_wrapped (boost : Boost) (fuel : Nat) (view : StringView) :
    base64Decode boost fuel view.wrapped = base64Decode boost fuel view := by
  have size : view.wrapped.text.length % 2 ^ 32 = view.text.length % 2 ^ 32 := by
    rw [length_wrapped, Nat.mod_mod]
  have tests : isPadding view.wrapped = isPadding view := by
    funext position
    rw [isPadding, get_wrapped, isPadding]
  have source : decodeSource boost view.wrapped = decodeSource boost view := by
    funext position
    rw [decodeSource, get_wrapped, decodeSource]
  rw [base64Decode, decodeSize, size, tests, source]
  rfl

theorem wrapped_of_short {view : StringView} (short : view.text.length < 2 ^ 32) :
    view.wrapped.text = view.text := by
  rw [StringView.wrapped, Nat.mod_eq_of_lt short]
  exact List.take_length

/-! ## Runs that return -/

section

variable {boost : Boost} (documented : boost.Documented) (view : StringView)

/-- With one more step a run that returns is the same. -/
theorem copy_ok_succ {widen : TransformWidth} {source : Nat → Traced Unit Read (BitVec 6)}
    {last : widen.Iter} (fuel : Nat) {it : widen.Iter} {bytes : List UInt8} {reads : List Read}
    (ran : (copy widen source last fuel it).run () = ⟨.ok bytes, (), reads⟩) :
    (copy widen source last (fuel + 1) it).run () = ⟨.ok bytes, (), reads⟩ := by
  induction fuel generalizing it bytes reads with
  | zero => cases ran
  | succ fuel ih =>
    rw [copy] at ran ⊢
    split
    case isTrue equal => rwa [if_pos equal] at ran
    case isFalse notEqual =>
      rw [if_neg notEqual, Traced.bind_ok_iff] at ran
      obtain ⟨delivered, _, first, second, delivers, later, rfl⟩ := ran
      rw [Traced.bind_ok_iff] at later
      obtain ⟨rest, _, _, _, copied, ended, rfl⟩ := later
      exact Traced.bind_ok_iff.mpr ⟨delivered, (), first, _, delivers,
        Traced.bind_ok_iff.mpr ⟨rest, (), _, _, ih copied, ended, rfl⟩, rfl⟩

theorem copy_ok_mono {widen : TransformWidth} {source : Nat → Traced Unit Read (BitVec 6)}
    {last : widen.Iter} {fuel more : Nat} (le : fuel ≤ more) {it : widen.Iter}
    {bytes : List UInt8} {reads : List Read}
    (ran : (copy widen source last fuel it).run () = ⟨.ok bytes, (), reads⟩) :
    (copy widen source last more it).run () = ⟨.ok bytes, (), reads⟩ := by
  induction le with
  | refl => exact ran
  | step _ ih => exact copy_ok_succ _ ih

include documented in
/-- Wherever the iterator comes from a standing position, it stands again. -/
theorem standing_of_next {it after : boost.widen.Iter} {byte : BitVec 8} {reads : List Read}
    (standing : Standing boost it)
    (delivers : (boost.widen.next (decodeSource boost view) it).run () =
      ⟨.ok (byte, after), (), reads⟩) : Standing boost after := by
  have of_enough {digits : List (BitVec 6)}
      (spelled : Spells boost view (boost.widen.base it) digits)
      (enough : 8 ≤ (boost.widen.pulled it ++ bitsOf digits).length) : Standing boost after := by
    obtain ⟨taken, rest, reached, -, turn, -⟩ := next_byte documented view spelled enough
    rw [turn.delivers] at delivers
    cases delivers
    exact (turn.standing view standing).1
  -- two digits are enough for a byte
  rcases spells_or_foreign boost view (boost.widen.base it) 2 with
    ⟨digits, length, spelled⟩ | ⟨digits, -, spelled, foreign⟩
  · refine of_enough spelled ?_
    rw [List.length_append, bitsOf_length]
    omega
  · by_cases enough : 8 ≤ (boost.widen.pulled it ++ bitsOf digits).length
    · exact of_enough spelled enough
    · rw [next_foreign documented view spelled (by omega) foreign] at delivers
      cases delivers

include documented in
/-- A loop whose end is 1 modulo 4 never returns. -/
theorem copy_not_ok {last : boost.widen.Iter} (skipped : boost.widen.base last % 4 = 1)
    (fuel : Nat) {it : boost.widen.Iter} (standing : Standing boost it) {bytes : List UInt8}
    {reads : List Read} :
    (copy boost.widen (decodeSource boost view) last fuel it).run () ≠ ⟨.ok bytes, (), reads⟩ := by
  induction fuel generalizing it bytes reads with
  | zero => exact nofun
  | succ fuel ih =>
    intro ran
    have notEqual : ¬ boost.widen.equal it last = true := by
      rw [documented.equal_iff]
      have notOne := standing.2
      omega
    rw [copy, if_neg notEqual, Traced.bind_ok_iff] at ran
    obtain ⟨⟨byte, after⟩, _, _, _, delivers, later, rfl⟩ := ran
    obtain ⟨rest, _, _, _, copied, -, -⟩ := Traced.bind_ok_iff.mp later
    exact ih (standing_of_next documented view standing delivers) copied

include documented in
/-- A run that returns has decoded all digits before the padding. -/
theorem base64Decode_ok {view : StringView} (short : view.text.length < 2 ^ 32) {fuel : Nat}
    {bytes : List UInt8} (ok : ((base64Decode boost fuel view).run ()).outcome = .ok bytes) :
    (unpadded view.text).length % 4 ≠ 1 ∧ (∀ c ∈ unpadded view.text, ¬ Foreign c) ∧
      bytes.length = 6 * (unpadded view.text).length / 8 := by
  by_cases none_left : unpadded view.text = []
  · obtain ⟨reads, -, run⟩ := run_base64Decode_nil boost short none_left fuel
    rw [run, Outcome.ok.injEq] at ok
    rw [none_left, ← ok]
    exact ⟨by decide, List.forall_mem_nil _, rfl⟩
  obtain ⟨_, -, run⟩ := run_base64Decode boost short none_left fuel
  rw [run, Result.prepend_outcome] at ok
  obtain ⟨_, _, ran⟩ := Result.eq_of_outcome ok
  have start := documented.base_ofBase 0
  have stop := documented.base_ofBase (unpadded view.text).length
  have standing := standing_start documented
  rcases spells_or_foreign boost view 0 (unpadded view.text).length with
    ⟨digits, length, spelled⟩ | ⟨digits, inside, spelled, foreign⟩
  · have met : (unpadded view.text).length % 4 ≠ 1 := fun skipped =>
      copy_not_ok documented view (by rwa [stop]) fuel standing ran
    have more := copy_ok_mono (Nat.le_add_right fuel (digits.length + 1)) ran
    rw [copy_spelled documented view (by rwa [stop]) _ digits _ standing (by rwa [start])
      (by rw [start, stop]; omega) (by omega), documented.pulled_ofBase, List.nil_append] at more
    cases more
    refine ⟨met, not_foreign_of_spells documented length spelled, ?_⟩
    rw [List.length_map, groups_length, bitsOf_length, length, Nat.mul_comm]
  · -- with enough steps the run is left by the exception
    have more := copy_ok_mono (Nat.le_add_right fuel (digits.length + 1)) ran
    rw [copy_foreign documented view _ digits _ standing (by rwa [start]) (by rwa [start])
      (by rw [start, stop]; omega) (by omega)] at more
    cases more

end

/-! ## The length -/

theorem padCount_le (text : List UInt8) : padCount text ≤ 2 := Nat.min_le_left _ _

theorem length_unpadded (text : List UInt8) :
    (unpadded text).length = text.length - padCount text := by
  -- the padding is at the front of the reversed text
  rw [← List.reverse_reverse text]
  generalize text.reverse = characters
  rw [padCount, List.reverse_reverse]
  cases characters with
  | nil => rfl
  | cons last characters =>
    by_cases lastPad : last = pad
    · cases characters with
      | nil => simp [unpadded, lastPad]
      | cons previous characters =>
        by_cases previousPad : previous = pad <;> simp [unpadded, lastPad, previousPad]
    · simp [unpadded, lastPad]

/-- All of a text is used exactly when its length fits `unsigned int`, or when what is left of
the text makes the decoder not return. -/
theorem usesWhole_iff (boost : Boost) (documented : boost.Documented) (view : StringView) :
    UsesWhole boost view ↔
      (view.text.length < 2 ^ 32 ∨ (unpadded view.wrapped.text).length % 4 = 1 ∨
        ∃ c ∈ unpadded view.wrapped.text, Foreign c) := by
  constructor
  · intro whole
    by_contra unmet
    simp only [not_or, not_exists, not_and] at unmet
    obtain ⟨long, met, clean⟩ := unmet
    -- what is left is decoded, and is shorter by the length that has been lost
    obtain ⟨digits, length, -, enough, decodes⟩ :=
      decodes_of_clean documented (wrapped_short view) met clean
    have returns := decodes enough (Nat.le_refl enough)
    rw [base64Decode_wrapped] at returns
    have sameLength := whole enough _ returns
    have fewer := (unpadded_isPrefix view.wrapped.text).length_le
    have padding := padCount_le view.text
    rw [length_wrapped] at fewer
    rw [List.length_map, groups_length, bitsOf_length, length] at sameLength
    omega
  · intro condition fuel bytes ok
    rw [← base64Decode_wrapped] at ok
    obtain ⟨met, clean, length⟩ := base64Decode_ok documented (wrapped_short view) ok
    rcases condition with short | skipped | ⟨c, member, foreign⟩
    · rw [length, wrapped_of_short short, length_unpadded]
    · exact absurd skipped met
    · exact absurd foreign (clean c member)

/-- `QQ==` -/
theorem usesWhole_QQ : UsesWhole Reference.boost ⟨[81, 81, 61, 61], fun _ => 0⟩ :=
  (usesWhole_iff Reference.boost Reference.documented _).mpr (.inl (by decide))

/-- Of `2 ^ 32` characters none is left. -/
theorem long_text_ignored :
    ((base64Decode Reference.boost 0 ⟨List.replicate (2 ^ 32) 65, fun _ => 0⟩).run ()).outcome =
        .ok [] ∧
      ¬ UsesWhole Reference.boost ⟨List.replicate (2 ^ 32) 65, fun _ => 0⟩ := by
  have returns : ((base64Decode Reference.boost 0
      ⟨List.replicate (2 ^ 32) 65, fun _ => 0⟩).run ()).outcome = .ok [] := by
    simp only [base64Decode, decodeSize, List.length_replicate, Nat.mod_self, if_true,
      Traced.run_bind, Traced.run_pure, Result.andThen_ok, Result.prepend_outcome]
  refine ⟨returns, fun whole => ?_⟩
  have length := whole 0 [] returns
  have padding := padCount_le (List.replicate (2 ^ 32) 65)
  simp only [List.length_replicate, List.length_nil] at length
  omega

end MyappsCommon.Utility.Base64
