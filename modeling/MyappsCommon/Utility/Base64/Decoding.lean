import MyappsCommon.Utility.Base64.Codec

/-! # Runs of `base64_decode`

The iterator delivers its bytes at the source positions 2, 3, 4, 6, 7, 8, … and so
skips every position that is 1 modulo 4.  The three runs of the copy loop follow: to
an end it can meet, into a character that is no digit, and past an end it skips.
-/

namespace MyappsCommon.Utility.Base64

open MyappsCommon.Lib

/-! ## The size that is decoded -/

/-- The text without at most two trailing `=`. -/
def unpadded (text : List UInt8) : List UInt8 :=
  if text.getLast? = some pad then
    if text.dropLast.getLast? = some pad then text.dropLast.dropLast else text.dropLast
  else text

theorem unpadded_isPrefix (text : List UInt8) : unpadded text <+: text := by
  unfold unpadded
  split
  · split
    · exact (List.dropLast_prefix _).trans (List.dropLast_prefix _)
    · exact List.dropLast_prefix _
  · exact List.prefix_refl _

theorem get_of_lt {view : StringView} {position : Nat} (inside : position < view.text.length) :
    view.get position = view.text[position] := by
  rw [StringView.get, List.getD_eq_getElem?_getD, List.getElem?_eq_getElem inside]
  rfl

theorem get_unpadded {view : StringView} {position : Nat}
    (inside : position < (unpadded view.text).length) :
    view.get position = (unpadded view.text)[position] := by
  have bound := (unpadded_isPrefix view.text).length_le
  rw [get_of_lt (by omega)]
  exact ((unpadded_isPrefix view.text).getElem inside).symm

/-- Removing up to two trailing `=` from a text that has at most two of them, after
characters that are not `=`. -/
theorem unpadded_append_replicate {characters : List UInt8} (count : Nat) (few : count ≤ 2)
    (clean : ∀ c ∈ characters, c ≠ pad) :
    unpadded (characters ++ List.replicate count pad) = characters := by
  have lastClean : characters.getLast? ≠ some pad := by
    intro last
    exact clean pad (List.mem_of_getLast? last) rfl
  match count, few with
  | 0, _ => simp [unpadded, lastClean]
  | 1, _ => simp [unpadded, lastClean]
  | 2, _ => simp [unpadded, List.replicate, List.getLast?_append]

/-- The test of one position of the text. -/
theorem run_isPadding (view : StringView) (position : Nat) :
    (isPadding view position).run () =
      ⟨.ok (view.get position == pad), (), [.padding position]⟩ := rfl

theorem get_length_pred {view : StringView} (nonempty : view.text ≠ []) :
    (view.get (view.text.length - 1) == pad) = decide (view.text.getLast? = some pad) := by
  have positive := List.length_pos_iff.mpr nonempty
  rw [get_of_lt (by omega), List.getLast?_eq_getElem?, List.getElem?_eq_getElem (by omega)]
  simp [beq_eq_decide]

/-- For a text whose length fits `unsigned int`, the size is that of the text without
its padding, and only characters of the text are looked at. -/
theorem run_decodeSize {view : StringView} (short : view.text.length < 2 ^ 32) :
    ∃ reads, (decodeSize view).run () = ⟨.ok (unpadded view.text).length, (), reads⟩ ∧
      ∀ read ∈ reads, ∃ position < view.text.length, read = .padding position := by
  have size : view.text.length % 2 ^ 32 = view.text.length := Nat.mod_eq_of_lt short
  simp only [decodeSize, size]
  by_cases empty : view.text = []
  · exact ⟨[], by simp [empty, unpadded], by simp⟩
  have positive := List.length_pos_iff.mpr empty
  have last := get_length_pred empty
  rw [if_neg (by omega)]
  by_cases lastPad : view.text.getLast? = some pad
  · simp only [Traced.run_bind, run_isPadding, last, lastPad, decide_true, Bool.not_true,
      Bool.false_eq_true, if_false, Result.andThen_ok, unpadded, if_true]
    by_cases single : view.text.length - 1 = 0
    · have noMore : view.text.dropLast = [] := by
        rw [← List.length_eq_zero_iff, List.length_dropLast, single]
      refine ⟨[.padding (view.text.length - 1)], ?_, ?_⟩
      · simp [single, noMore, Result.prepend]
      · simpa using Nat.sub_lt positive Nat.one_pos
    · have previous : (view.get (view.text.length - 1 - 1) == pad) =
          decide (view.text.dropLast.getLast? = some pad) := by
        rw [get_of_lt (by omega), List.getLast?_eq_getElem?, List.length_dropLast,
          List.getElem?_dropLast, if_pos (by omega), List.getElem?_eq_getElem (by omega)]
        simp [beq_eq_decide]
      refine ⟨[.padding (view.text.length - 1), .padding (view.text.length - 1 - 1)], ?_, ?_⟩
      · simp only [single, if_false, Traced.run_bind, run_isPadding, previous, Result.andThen_ok]
        by_cases previousPad : view.text.dropLast.getLast? = some pad <;>
          simp [previousPad, Result.prepend]
      · intro read member
        simp only [List.mem_cons, List.not_mem_nil, or_false] at member
        rcases member with rfl | rfl
        · exact ⟨_, by omega, rfl⟩
        · exact ⟨_, by omega, rfl⟩
  · refine ⟨[.padding (view.text.length - 1)], ?_, ?_⟩
    · simp [run_isPadding, last, lastPad, unpadded, Result.prepend]
    · simpa using Nat.sub_lt positive Nat.one_pos

/-! ## One turn of the copy loop -/

section

variable {boost : Boost} (documented : boost.Documented) (view : StringView)

/-- The characters from `position` on are the digits, as `binary_from_base64` reads them. -/
def Spells (boost : Boost) (view : StringView) : Nat → List (BitVec 6) → Prop
  | _, [] => True
  | position, digit :: digits =>
    boost.binaryFromBase64 (view.get position) = some digit ∧
      Spells boost view (position + 1) digits

/-- The source positions read for `count` digits from `position` on. -/
def sources (position count : Nat) : List Read := (List.range' position count).map .source

@[simp] theorem sources_zero (position : Nat) : sources position 0 = [] := rfl

theorem sources_succ (position count : Nat) :
    sources position (count + 1) = .source position :: sources (position + 1) count := rfl

theorem sources_append (position first second : Nat) :
    sources position first ++ sources (position + first) second =
      sources position (first + second) := by
  rw [sources, sources, sources, ← List.map_append, List.range'_append_1]

include documented in
theorem next_pulls {it : boost.widen.Iter} {digit : BitVec 6}
    (lacking : (boost.widen.pulled it).length < 8)
    (spelled : boost.binaryFromBase64 (view.get (boost.widen.base it)) = some digit) :
    ∃ fetched, boost.widen.base fetched = boost.widen.base it + 1 ∧
      boost.widen.pulled fetched = boost.widen.pulled it ++ toBits digit ∧
      (boost.widen.next (decodeSource boost view) it).run () =
        ((boost.widen.next (decodeSource boost view) fetched).run ()).prepend
          [.source (boost.widen.base it)] := by
  obtain ⟨fetched, moved, unfolds⟩ := documented.pulls (decodeSource boost view) it lacking
  refine ⟨fetched digit, (moved digit).1, (moved digit).2, ?_⟩
  rw [unfolds, Traced.run_bind, decodeSource, Traced.run_bind, Traced.run_emit,
    Result.andThen_ok, spelled]
  rfl

include documented in
theorem next_raises {it : boost.widen.Iter} (lacking : (boost.widen.pulled it).length < 8)
    (foreign : boost.binaryFromBase64 (view.get (boost.widen.base it)) = none) :
    (boost.widen.next (decodeSource boost view) it).run () =
      ⟨.raised, (), [.source (boost.widen.base it)]⟩ := by
  obtain ⟨_, _, unfolds⟩ := documented.pulls (decodeSource boost view) it lacking
  rw [unfolds, Traced.run_bind, decodeSource, Traced.run_bind, Traced.run_emit,
    Result.andThen_ok, foreign]
  rfl

include documented in
theorem next_reads {it : boost.widen.Iter} (lacking : (boost.widen.pulled it).length < 8) :
    .source (boost.widen.base it) ∈
      ((boost.widen.next (decodeSource boost view) it).run ()).trace := by
  obtain ⟨_, _, unfolds⟩ := documented.pulls (decodeSource boost view) it lacking
  rw [unfolds]
  apply Traced.mem_trace_bind
  apply Traced.mem_trace_bind
  exact List.mem_singleton_self _

include documented in
theorem next_delivers {it : boost.widen.Iter} (enough : 8 ≤ (boost.widen.pulled it).length) :
    ∃ after, boost.widen.base after = boost.widen.base it ∧
      boost.widen.pulled after = (boost.widen.pulled it).drop 8 ∧
      (boost.widen.next (decodeSource boost view) it).run () =
        ⟨.ok (ofBits 8 (boost.widen.pulled it), after), (), []⟩ := by
  obtain ⟨after, base, pulled, unfolds⟩ := documented.delivers (decodeSource boost view) it enough
  exact ⟨after, base, pulled, by rw [unfolds, Traced.run_pure]⟩

/-- The iterator takes these digits for one byte, and none that it does not need. -/
structure Turn (boost : Boost) (view : StringView) (it : boost.widen.Iter)
    (taken : List (BitVec 6)) (after : boost.widen.Iter) : Prop where
  whole : 8 ≤ (boost.widen.pulled it ++ bitsOf taken).length
  tight : taken = [] ∨ (boost.widen.pulled it ++ bitsOf taken).length < 14
  base : boost.widen.base after = boost.widen.base it + taken.length
  pulled : boost.widen.pulled after = (boost.widen.pulled it ++ bitsOf taken).drop 8
  delivers : (boost.widen.next (decodeSource boost view) it).run () =
    ⟨.ok (ofBits 8 (boost.widen.pulled it ++ bitsOf taken), after), (),
      sources (boost.widen.base it) taken.length⟩

include documented in
/-- The bits of a byte are already there. -/
theorem turn_full {it : boost.widen.Iter} (full : 8 ≤ (boost.widen.pulled it).length) :
    ∃ after, Turn boost view it [] after ∧ boost.widen.base after = boost.widen.base it := by
  obtain ⟨after, base, pulled, delivers⟩ := next_delivers documented view full
  refine ⟨after, ⟨?_, .inl rfl, base, ?_, ?_⟩, base⟩
  · simpa using full
  · simpa using pulled
  · simpa using delivers

include documented in
/-- The iterator pulls digits until it has the bits of a byte. -/
theorem next_byte {it : boost.widen.Iter} {digits : List (BitVec 6)}
    (spelled : Spells boost view (boost.widen.base it) digits)
    (enough : 8 ≤ (boost.widen.pulled it ++ bitsOf digits).length) :
    ∃ taken rest after, digits = taken ++ rest ∧ Turn boost view it taken after ∧
      Spells boost view (boost.widen.base after) rest := by
  induction digits generalizing it with
  | nil =>
    rw [bitsOf_nil, List.append_nil] at enough
    obtain ⟨after, turn, -⟩ := turn_full documented view enough
    exact ⟨[], [], after, rfl, turn, trivial⟩
  | cons digit digits ih =>
    by_cases full : 8 ≤ (boost.widen.pulled it).length
    · obtain ⟨after, turn, base⟩ := turn_full documented view full
      rw [← base] at spelled
      exact ⟨[], digit :: digits, after, rfl, turn, spelled⟩
    · -- one digit is pulled, and the turn goes on as that of the iterator behind it
      obtain ⟨spelledFirst, spelled⟩ := spelled
      obtain ⟨fetched, fetchedBase, fetchedPulled, pulls⟩ :=
        next_pulls documented view (by omega) spelledFirst
      rw [← fetchedBase] at spelled
      rw [bitsOf_cons, ← List.append_assoc, ← fetchedPulled] at enough
      obtain ⟨taken, rest, after, rfl, turn, spelledRest⟩ := ih spelled enough
      have bits : boost.widen.pulled it ++ bitsOf (digit :: taken) =
          boost.widen.pulled fetched ++ bitsOf taken := by
        rw [bitsOf_cons, ← List.append_assoc, fetchedPulled]
      refine ⟨digit :: taken, rest, after, rfl, ⟨?_, .inr ?_, ?_, ?_, ?_⟩, spelledRest⟩
      · rw [bits]
        exact turn.whole
      · rw [bits]
        rcases turn.tight with none_taken | tight
        · rw [none_taken, bitsOf_nil, List.append_nil, fetchedPulled, List.length_append,
            toBits_length]
          omega
        · exact tight
      · rw [turn.base, fetchedBase, List.length_cons]
        omega
      · rw [bits, turn.pulled]
      · rw [pulls, turn.delivers, bits, fetchedBase, List.length_cons, sources_succ]
        rfl

include documented in
/-- A character that is no digit stops an iterator that needs more digits than stand
before it. -/
theorem next_foreign {it : boost.widen.Iter} {digits : List (BitVec 6)}
    (spelled : Spells boost view (boost.widen.base it) digits)
    (lacking : (boost.widen.pulled it ++ bitsOf digits).length < 8)
    (foreign : boost.binaryFromBase64
      (view.get (boost.widen.base it + digits.length)) = none) :
    (boost.widen.next (decodeSource boost view) it).run () =
      ⟨.raised, (), sources (boost.widen.base it) (digits.length + 1)⟩ := by
  induction digits generalizing it with
  | nil =>
    rw [bitsOf_nil, List.append_nil] at lacking
    exact next_raises documented view lacking foreign
  | cons digit digits ih =>
    obtain ⟨spelledFirst, spelled⟩ := spelled
    rw [bitsOf_cons, ← List.append_assoc] at lacking
    obtain ⟨fetched, base, pulled, pulls⟩ :=
      next_pulls documented view (by rw [List.length_append, List.length_append] at lacking; omega)
        spelledFirst
    rw [← base] at spelled
    rw [← pulled] at lacking
    rw [List.length_cons, Nat.add_comm digits.length, ← Nat.add_assoc, ← base] at foreign
    rw [pulls, ih spelled lacking foreign, base, List.length_cons, sources_succ _ (_ + 1)]
    rfl

include documented in
/-- An iterator that needs more digits than there are goes on to the character behind. -/
theorem next_reads_on {it : boost.widen.Iter} {digits : List (BitVec 6)}
    (spelled : Spells boost view (boost.widen.base it) digits)
    (lacking : (boost.widen.pulled it ++ bitsOf digits).length < 8) :
    .source (boost.widen.base it + digits.length) ∈
      ((boost.widen.next (decodeSource boost view) it).run ()).trace := by
  induction digits generalizing it with
  | nil =>
    rw [bitsOf_nil, List.append_nil] at lacking
    exact next_reads documented view lacking
  | cons digit digits ih =>
    obtain ⟨spelledFirst, spelled⟩ := spelled
    rw [bitsOf_cons, ← List.append_assoc] at lacking
    obtain ⟨fetched, base, pulled, pulls⟩ :=
      next_pulls documented view (by rw [List.length_append, List.length_append] at lacking; omega)
        spelledFirst
    rw [← base] at spelled
    rw [← pulled] at lacking
    rw [List.length_cons, Nat.add_comm digits.length, ← Nat.add_assoc, ← base, pulls]
    exact List.mem_append_right _ (ih spelled lacking)

/-- The bits left over at a source position where the loop can stand. -/
def Standing (boost : Boost) (it : boost.widen.Iter) : Prop :=
  (boost.widen.pulled it).length = 6 * boost.widen.base it % 8 ∧ boost.widen.base it % 4 ≠ 1

/-- Fewer than six bits are left over behind a byte, which at a position that is 1 modulo 4
would be six. -/
theorem Turn.standing {it after : boost.widen.Iter} {taken : List (BitVec 6)}
    (turn : Turn boost view it taken after) (standing : Standing boost it) :
    Standing boost after ∧ 0 < taken.length := by
  obtain ⟨left, notOne⟩ := standing
  have whole := turn.whole
  have tight := turn.tight
  rw [List.length_append, bitsOf_length] at whole tight
  have some_taken : 0 < taken.length := by omega
  have bound := tight.resolve_left (List.length_pos_iff.mp some_taken)
  refine ⟨⟨?_, ?_⟩, some_taken⟩
  · rw [turn.pulled, turn.base, List.length_drop, List.length_append, bitsOf_length]
    omega
  · rw [turn.base]
    omega

/-! ## Runs of the copy loop -/

include documented in
/-- A turn that delivers a byte, and the turns that follow. -/
theorem copy_turn {last it after : boost.widen.Iter} {byte : BitVec 8} {reads : List Read}
    (before : boost.widen.base it ≠ boost.widen.base last)
    (delivers : (boost.widen.next (decodeSource boost view) it).run () =
      ⟨.ok (byte, after), (), reads⟩) (fuel : Nat) :
    (copy boost.widen (decodeSource boost view) last (fuel + 1) it).run () =
      (((copy boost.widen (decodeSource boost view) last fuel after).run ()).andThen
        fun bytes _ => ⟨.ok (UInt8.ofBitVec byte :: bytes), (), []⟩).prepend reads := by
  have notEqual : ¬ boost.widen.equal it last = true :=
    fun equal => before ((documented.equal_iff it last).mp equal)
  rw [copy, if_neg notEqual, Traced.run_bind, delivers]
  rfl

include documented in
/-- A loop that meets its end cuts all digits into bytes and reads each once. -/
theorem copy_spelled {last : boost.widen.Iter} (met : boost.widen.base last % 4 ≠ 1)
    (fuel : Nat) (digits : List (BitVec 6)) (it : boost.widen.Iter)
    (standing : Standing boost it) (spelled : Spells boost view (boost.widen.base it) digits)
    (ends : boost.widen.base last = boost.widen.base it + digits.length)
    (enough : digits.length < fuel) :
    (copy boost.widen (decodeSource boost view) last fuel it).run () =
      ⟨.ok ((groups 8 (boost.widen.pulled it ++ bitsOf digits)).map UInt8.ofBitVec), (),
        sources (boost.widen.base it) digits.length⟩ := by
  induction fuel generalizing digits it with
  | zero => omega
  | succ fuel ih =>
    by_cases more : 8 ≤ (boost.widen.pulled it ++ bitsOf digits).length
    · obtain ⟨taken, rest, after, rfl, turn, spelledRest⟩ := next_byte documented view spelled more
      obtain ⟨standingAfter, some_taken⟩ := turn.standing view standing
      rw [List.length_append] at ends enough
      have endsAfter : boost.widen.base last = boost.widen.base after + rest.length := by
        rw [turn.base]
        omega
      rw [copy_turn documented view (by omega) turn.delivers,
        ih rest after standingAfter spelledRest endsAfter (by omega), bitsOf_append,
        ← List.append_assoc, groups_append_of_long (by decide) turn.whole, turn.pulled, turn.base,
        List.length_append, ← sources_append]
      simp [Result.prepend]
    · -- fewer bits than a byte: the last position is 1 modulo 4 if a digit is left
      have lengths := standing.1
      have notOne := standing.2
      rw [List.length_append, bitsOf_length] at more
      have none_left : digits = [] := List.eq_nil_of_length_eq_zero (by omega)
      subst none_left
      have equal := (documented.equal_iff it last).mpr ends.symm
      have short : (boost.widen.pulled it ++ bitsOf ([] : List (BitVec 6))).length < 8 := by
        rw [bitsOf_nil, List.append_nil]
        omega
      rw [copy, if_pos equal, groups_of_short short]
      rfl

include documented in
/-- A loop that comes to a character that is no digit, before its end, throws there. -/
theorem copy_foreign {last : boost.widen.Iter} (fuel : Nat) (digits : List (BitVec 6))
    (it : boost.widen.Iter) (standing : Standing boost it)
    (spelled : Spells boost view (boost.widen.base it) digits)
    (foreign : boost.binaryFromBase64
      (view.get (boost.widen.base it + digits.length)) = none)
    (inside : boost.widen.base it + digits.length < boost.widen.base last)
    (enough : digits.length < fuel) :
    (copy boost.widen (decodeSource boost view) last fuel it).run () =
      ⟨.raised, (), sources (boost.widen.base it) (digits.length + 1)⟩ := by
  induction fuel generalizing digits it with
  | zero => omega
  | succ fuel ih =>
    by_cases more : 8 ≤ (boost.widen.pulled it ++ bitsOf digits).length
    · obtain ⟨taken, rest, after, rfl, turn, spelledRest⟩ := next_byte documented view spelled more
      obtain ⟨standingAfter, some_taken⟩ := turn.standing view standing
      rw [List.length_append] at inside enough
      rw [List.length_append, ← Nat.add_assoc, ← turn.base] at foreign
      have insideAfter : boost.widen.base after + rest.length < boost.widen.base last := by
        rw [turn.base]
        omega
      rw [copy_turn documented view (by omega) turn.delivers,
        ih rest after standingAfter spelledRest foreign insideAfter (by omega), turn.base,
        List.length_append, Nat.add_assoc,
        ← sources_append (boost.widen.base it) taken.length (rest.length + 1)]
      rfl
    · -- too few bits before the foreign character, which is before the end
      have notEqual : ¬ boost.widen.equal it last = true := by
        rw [documented.equal_iff]
        omega
      rw [copy, if_neg notEqual, Traced.run_bind,
        next_foreign documented view spelled (by omega) foreign]
      rfl

include documented in
/-- What later turns have read, and that they have not ended, holds of the whole run. -/
theorem overrun_turn {last it after : boost.widen.Iter} {byte : BitVec 8} {reads : List Read}
    {fuel : Nat} (before : boost.widen.base it ≠ boost.widen.base last)
    (delivers : (boost.widen.next (decodeSource boost view) it).run () =
      ⟨.ok (byte, after), (), reads⟩)
    (later : ((copy boost.widen (decodeSource boost view) last fuel after).run ()).outcome =
        .unfinished ∨
      .source (boost.widen.base last) ∈
        ((copy boost.widen (decodeSource boost view) last fuel after).run ()).trace) :
    ((copy boost.widen (decodeSource boost view) last (fuel + 1) it).run ()).outcome =
        .unfinished ∨
      .source (boost.widen.base last) ∈
        ((copy boost.widen (decodeSource boost view) last (fuel + 1) it).run ()).trace := by
  rw [copy_turn documented view before delivers]
  cases ran : (copy boost.widen (decodeSource boost view) last fuel after).run () with
  | mk outcome state trace =>
    rw [ran] at later
    rcases later with unfinished | read
    · change outcome = .unfinished at unfinished
      subst unfinished
      exact .inl rfl
    · cases outcome with
      | ok bytes => exact .inr (List.mem_append_right _ (List.mem_append_left _ read))
      | raised | unfinished => exact .inr (List.mem_append_right _ read)

include documented in
/-- A loop whose end is 1 modulo 4 skips it: however long it runs, it has either read
the character there or not come so far. -/
theorem copy_overrun {last : boost.widen.Iter} (skipped : boost.widen.base last % 4 = 1)
    (fuel : Nat) (digits : List (BitVec 6)) (it : boost.widen.Iter)
    (standing : Standing boost it) (spelled : Spells boost view (boost.widen.base it) digits)
    (ends : boost.widen.base last = boost.widen.base it + digits.length) :
    ((copy boost.widen (decodeSource boost view) last fuel it).run ()).outcome = .unfinished ∨
      .source (boost.widen.base last) ∈
        ((copy boost.widen (decodeSource boost view) last fuel it).run ()).trace := by
  induction fuel generalizing digits it with
  | zero => exact .inl rfl
  | succ fuel ih =>
    -- no standing position is the end
    have before : boost.widen.base it ≠ boost.widen.base last := by
      have notOne := standing.2
      omega
    by_cases more : 8 ≤ (boost.widen.pulled it ++ bitsOf digits).length
    · obtain ⟨taken, rest, after, rfl, turn, spelledRest⟩ := next_byte documented view spelled more
      have endsAfter : boost.widen.base last = boost.widen.base after + rest.length := by
        rw [ends, turn.base, List.length_append, Nat.add_assoc]
      exact overrun_turn documented view before turn.delivers
        (ih rest after (turn.standing view standing).1 spelledRest endsAfter)
    · -- the digits are used up inside a byte, and the iterator does not look at the end
      have notEqual : ¬ boost.widen.equal it last = true :=
        fun equal => before ((documented.equal_iff it last).mp equal)
      right
      rw [copy, if_neg notEqual, ends]
      exact Traced.mem_trace_bind (next_reads_on documented view spelled (by omega))

end

end MyappsCommon.Utility.Base64
