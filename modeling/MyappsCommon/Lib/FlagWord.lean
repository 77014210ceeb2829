import Mathlib.Tactic.Common
import Mathlib.Data.Set.Insert
import Mathlib.Data.Nat.Bitwise

/-! # Words of flags

The flags of an enumeration have a bit of a word each.  Setting and resetting them makes the
word a set of flags, and the bits that belong to no flag stay as they are.
-/

namespace MyappsCommon.Lib

/-- The places that the flags have in a word of `w` bits. -/
structure FlagWord (w : Nat) (F : Type) where
  number : F → Nat
  inside : ∀ flag, number flag < w
  distinct : Function.Injective number

namespace FlagWord

variable {w : Nat} {F : Type}

def bit (places : FlagWord w F) (flag : F) : BitVec w := 1#w <<< places.number flag

def set (places : FlagWord w F) (word : BitVec w) (flag : F) : BitVec w := word ||| places.bit flag

def reset (places : FlagWord w F) (word : BitVec w) (flag : F) : BitVec w :=
  word &&& ~~~places.bit flag

def test (places : FlagWord w F) (word : BitVec w) (flag : F) : Bool :=
  word &&& places.bit flag != 0#w

inductive Call (F : Type) where
  | set (flag : F)
  | reset (flag : F)

def Call.onWord (places : FlagWord w F) (word : BitVec w) : Call F → BitVec w
  | set flag => places.set word flag
  | reset flag => places.reset word flag

def Call.onFlags (flags : Set F) : Call F → Set F
  | set flag => insert flag flags
  | reset flag => flags \ {flag}

/-- The word has the flags of the set, and otherwise the bits of the initial word. -/
structure Holds (places : FlagWord w F) (initial word : BitVec w) (flags : Set F) : Prop where
  flag : ∀ flag, places.test word flag = true ↔ flag ∈ flags
  others : ∀ i, (∀ flag, i ≠ places.number flag) → word.getLsbD i = initial.getLsbD i

theorem getLsbD_bit (places : FlagWord w F) (flag : F) (i : Nat) :
    (places.bit flag).getLsbD i = decide (i = places.number flag) := by
  have inside := places.inside flag
  rw [bit, BitVec.getLsbD_shiftLeft, BitVec.getLsbD_one]
  by_cases same : i = places.number flag
  · simp only [same, Nat.sub_self, decide_true, Bool.and_true]
    simp [inside, Nat.zero_lt_of_lt inside]
  · by_cases low : i < places.number flag
    · simp [same, low]
    · have above : i - places.number flag ≠ 0 := by omega
      simp [same, above]

/-- The mask leaves one bit. -/
theorem test_eq (places : FlagWord w F) (word : BitVec w) (flag : F) :
    places.test word flag = word.getLsbD (places.number flag) := by
  have masked (i : Nat) : (word &&& places.bit flag).getLsbD i =
      (word.getLsbD i && decide (i = places.number flag)) := by
    rw [BitVec.getLsbD_and, getLsbD_bit]
  cases isSet : word.getLsbD (places.number flag) with
  | true =>
    rw [test, bne_iff_ne]
    intro isZero
    have own := masked (places.number flag)
    rw [isZero, isSet, decide_eq_true rfl] at own
    simp at own
  | false =>
    have isZero : word &&& places.bit flag = 0#w := by
      apply BitVec.eq_of_getLsbD_eq
      intro i _
      rw [masked]
      by_cases same : i = places.number flag <;> simp [same, isSet]
    rw [test, isZero, bne_self_eq_false]

theorem getLsbD_set (places : FlagWord w F) (word : BitVec w) (flag : F) (i : Nat) :
    (places.set word flag).getLsbD i = (word.getLsbD i || decide (i = places.number flag)) := by
  rw [set, BitVec.getLsbD_or, getLsbD_bit]

theorem getLsbD_reset (places : FlagWord w F) (word : BitVec w) (flag : F) (i : Nat) :
    (places.reset word flag).getLsbD i = (word.getLsbD i && !decide (i = places.number flag)) := by
  rw [reset, BitVec.getLsbD_and, BitVec.getLsbD_not, getLsbD_bit]
  by_cases bound : i < w
  · rw [decide_eq_true bound, Bool.true_and]
  · rw [BitVec.getLsbD_of_ge word i (Nat.not_lt.mp bound), Bool.false_and, Bool.false_and]

/-- One call on the word is the call on the set. -/
theorem Holds.call {places : FlagWord w F} {initial word : BitVec w} {flags : Set F}
    (holds : places.Holds initial word flags) (call : Call F) :
    places.Holds initial (call.onWord places word) (call.onFlags flags) := by
  have before (other : F) : word.getLsbD (places.number other) = true ↔ other ∈ flags := by
    rw [← places.test_eq]
    exact holds.flag other
  cases call with
  | set flag =>
    constructor
    case flag =>
      intro other
      rw [places.test_eq, Call.onWord, getLsbD_set, Bool.or_eq_true, before, decide_eq_true_iff,
        places.distinct.eq_iff, or_comm]
      exact Set.mem_insert_iff.symm
    case others =>
      intro i free
      rw [Call.onWord, getLsbD_set, decide_eq_false (free flag), Bool.or_false, holds.others i free]
  | reset flag =>
    constructor
    case flag =>
      intro other
      rw [places.test_eq, Call.onWord, getLsbD_reset, Bool.and_eq_true, before, Bool.not_eq_true',
        decide_eq_false_iff_not, places.distinct.eq_iff]
      rfl
    case others =>
      intro i free
      rw [Call.onWord, getLsbD_reset, decide_eq_false (free flag), Bool.not_false, Bool.and_true,
        holds.others i free]

theorem Holds.calls {places : FlagWord w F} {initial word : BitVec w} {flags : Set F}
    (holds : places.Holds initial word flags) (calls : List (Call F)) :
    places.Holds initial (calls.foldl (Call.onWord places) word)
      (calls.foldl Call.onFlags flags) := by
  induction calls generalizing word flags with
  | nil => exact holds
  | cons call calls ih => exact ih (holds.call call)

/-- The set that a word begins with is what its tests give. -/
theorem holds_initial (places : FlagWord w F) (initial : BitVec w) :
    places.Holds initial initial {flag | places.test initial flag = true} :=
  ⟨fun _ => Iff.rfl, fun _ _ => rfl⟩

end FlagWord

/-! ## Flags by name -/

/-- The names of the flags, in the order of their bits, and when a text is taken for one. -/
structure FlagNames (w : Nat) (α : Type) where
  names : List α
  same : α → α → Bool
  fits : names.length ≤ w

namespace FlagNames

variable {w : Nat} {α : Type}

/-- The bit of the first name that the text is taken for. -/
def flag (table : FlagNames w α) (text : α) : BitVec w :=
  match table.names.findIdx? (table.same · text) with
  | some i => 1#w <<< i
  | none => 0#w

/-- The names of the bits that are set, in order. -/
def flagged (table : FlagNames w α) (word : BitVec w) : List α :=
  (table.names.zipIdx.filter fun entry => word &&& 1#w <<< entry.2 != 0#w).map (·.1)

def ofTexts (table : FlagNames w α) (texts : List α) : BitVec w :=
  texts.foldl (fun word text => word ||| table.flag text) 0#w

/-- No text is taken for two names, and every name for itself. -/
structure Unambiguous (table : FlagNames w α) : Prop where
  unique : ∀ {i j : Nat} {first second text : α}, table.names[i]? = some first →
    table.names[j]? = some second → table.same first text = true →
    table.same second text = true → i = j
  self : ∀ name ∈ table.names, table.same name name = true

/-- The bits of a word are flags of their own numbers. -/
def allBits (w : Nat) : FlagWord w (Fin w) := ⟨Fin.val, Fin.isLt, fun _ _ => Fin.ext⟩

theorem mask_eq {i : Nat} (inside : i < w) (word : BitVec w) :
    (word &&& 1#w <<< i != 0#w) = word.getLsbD i :=
  (allBits w).test_eq word ⟨i, inside⟩

theorem getLsbD_one_shiftLeft {i : Nat} (inside : i < w) (j : Nat) :
    (1#w <<< i).getLsbD j = decide (j = i) :=
  (allBits w).getLsbD_bit ⟨i, inside⟩ j

variable {table : FlagNames w α}

theorem Unambiguous.findIdx?_iff (unambiguous : table.Unambiguous) {text : α} {i : Nat} :
    table.names.findIdx? (table.same · text) = some i ↔
      ∃ name, table.names[i]? = some name ∧ table.same name text = true := by
  constructor
  · intro found
    obtain ⟨inside, isName, -⟩ := List.findIdx?_eq_some_iff_getElem.mp found
    exact ⟨table.names[i], List.getElem?_eq_getElem inside, isName⟩
  · rintro ⟨name, isAt, isName⟩
    cases found : table.names.findIdx? (table.same · text) with
    | none =>
      have member := List.mem_of_getElem? isAt
      exact absurd isName (Bool.eq_false_iff.mp (List.findIdx?_eq_none_iff.mp found name member))
    | some j =>
      obtain ⟨inside, isName', -⟩ := List.findIdx?_eq_some_iff_getElem.mp found
      rw [unambiguous.unique isAt (List.getElem?_eq_getElem inside) isName isName']

theorem Unambiguous.getLsbD_flag (unambiguous : table.Unambiguous) (text : α) (i : Nat) :
    (table.flag text).getLsbD i = true ↔
      ∃ name, table.names[i]? = some name ∧ table.same name text = true := by
  rw [← unambiguous.findIdx?_iff, flag]
  cases found : table.names.findIdx? (table.same · text) with
  | none => simp
  | some j =>
    obtain ⟨inside, -⟩ := List.findIdx?_eq_some_iff_getElem.mp found
    rw [getLsbD_one_shiftLeft (inside.trans_le table.fits), decide_eq_true_iff, Option.some.injEq]
    exact eq_comm

theorem getLsbD_foldl_or (table : FlagNames w α) (texts : List α) (word : BitVec w) (i : Nat) :
    (texts.foldl (fun word text => word ||| table.flag text) word).getLsbD i = true ↔
      word.getLsbD i = true ∨ ∃ text ∈ texts, (table.flag text).getLsbD i = true := by
  induction texts generalizing word with
  | nil => simp
  | cons text texts ih =>
    rw [List.foldl_cons, ih, BitVec.getLsbD_or, Bool.or_eq_true, or_assoc]
    simp only [List.mem_cons, exists_eq_or_imp]

theorem Unambiguous.getLsbD_ofTexts (unambiguous : table.Unambiguous) (texts : List α) (i : Nat) :
    (table.ofTexts texts).getLsbD i = true ↔
      ∃ name, table.names[i]? = some name ∧ ∃ text ∈ texts, table.same name text = true := by
  rw [ofTexts, getLsbD_foldl_or]
  simp only [BitVec.getLsbD_zero, Bool.false_eq_true, false_or, unambiguous.getLsbD_flag]
  constructor
  · rintro ⟨text, member, name, isAt, isName⟩
    exact ⟨name, isAt, text, member, isName⟩
  · rintro ⟨name, isAt, text, member, isName⟩
    exact ⟨text, member, name, isAt, isName⟩

theorem mem_flagged_iff (table : FlagNames w α) (word : BitVec w) (name : α) :
    name ∈ table.flagged word ↔
      ∃ i : Nat, table.names[i]? = some name ∧ word.getLsbD i = true := by
  rw [flagged, List.mem_map]
  constructor
  · rintro ⟨⟨other, i⟩, member, rfl⟩
    obtain ⟨listed, isSet⟩ := List.mem_filter.mp member
    have isAt := List.mem_zipIdx_iff_getElem?.mp listed
    obtain ⟨inside, -⟩ := List.getElem?_eq_some_iff.mp isAt
    rw [mask_eq (inside.trans_le table.fits)] at isSet
    exact ⟨i, isAt, isSet⟩
  · rintro ⟨i, isAt, isSet⟩
    obtain ⟨inside, -⟩ := List.getElem?_eq_some_iff.mp isAt
    refine ⟨(name, i), List.mem_filter.mpr ⟨List.mem_zipIdx_iff_getElem?.mpr isAt, ?_⟩, rfl⟩
    rwa [mask_eq (inside.trans_le table.fits)]

/-- The names of a word give back the bits that have a name. -/
theorem Unambiguous.getLsbD_ofTexts_flagged (unambiguous : table.Unambiguous) (word : BitVec w)
    (i : Nat) :
    (table.ofTexts (table.flagged word)).getLsbD i =
      (decide (i < table.names.length) && word.getLsbD i) := by
  rw [Bool.eq_iff_iff, unambiguous.getLsbD_ofTexts, Bool.and_eq_true, decide_eq_true_iff]
  constructor
  · rintro ⟨name, isAt, text, member, isName⟩
    obtain ⟨j, isAt', isSet⟩ := (mem_flagged_iff ..).mp member
    have self := unambiguous.self text (List.mem_of_getElem? isAt')
    obtain rfl := unambiguous.unique isAt isAt' isName self
    exact ⟨(List.getElem?_eq_some_iff.mp isAt).1, isSet⟩
  · rintro ⟨inside, isSet⟩
    have isAt := List.getElem?_eq_getElem inside
    have member : table.names[i] ∈ table.names := List.getElem_mem inside
    exact ⟨_, isAt, _, (mem_flagged_iff ..).mpr ⟨i, isAt, isSet⟩, unambiguous.self _ member⟩

/-- The texts are turned into the names that they are taken for, in the order of the bits. -/
theorem Unambiguous.flagged_ofTexts (unambiguous : table.Unambiguous) (texts : List α) :
    table.flagged (table.ofTexts texts) =
      table.names.filter fun name => texts.any (table.same name ·) := by
  have taken (entry : α × Nat) (listed : entry ∈ table.names.zipIdx) :
      (table.ofTexts texts &&& 1#w <<< entry.2 != 0#w) = texts.any (table.same entry.1 ·) := by
    have isAt := List.mem_zipIdx_iff_getElem?.mp listed
    obtain ⟨inside, -⟩ := List.getElem?_eq_some_iff.mp isAt
    rw [mask_eq (inside.trans_le table.fits), Bool.eq_iff_iff, unambiguous.getLsbD_ofTexts,
      List.any_eq_true, isAt]
    simp only [Option.some.injEq, exists_eq_left']
  rw [flagged, List.filter_congr taken]
  calc (table.names.zipIdx.filter fun entry => texts.any (table.same entry.1 ·)).map (·.1)
      = (table.names.zipIdx.map (·.1)).filter fun name => texts.any (table.same name ·) := by
        rw [List.filter_map]
        rfl
    _ = table.names.filter fun name => texts.any (table.same name ·) :=
        congrArg _ (List.zipIdx_map_fst 0 _)

end FlagNames

end MyappsCommon.Lib
