import Mathlib.Tactic.Common

/-! # Input streams

An `istream` over finite content: its three error bits, and `read`.  Where the content
ends, a read either meets the end of the file or fails with bad.
-/

namespace MyappsCommon.Lib

/-- What a read meets behind the last byte that it can deliver. -/
inductive Ending where
  | endOfFile | failure
  deriving DecidableEq, Repr

structure Istream where
  /-- The bytes that can still be delivered. -/
  remaining : List UInt8
  ending : Ending
  eofbit : Bool := false
  failbit : Bool := false
  badbit : Bool := false
  gcount : Nat := 0
  deriving DecidableEq, Repr

namespace Istream

def good (this : Istream) : Bool := !this.eofbit && !this.failbit && !this.badbit

/-- The bits that are set by a read that gets fewer bytes than requested. -/
def cutShort (this : Istream) : Istream :=
  match this.ending with
  | .endOfFile => { this with eofbit := true, failbit := true }
  | .failure => { this with badbit := true }

/-- `read(buf, count)`: the buffer afterwards, and the stream. -/
def read (this : Istream) (buf : List UInt8) (count : Nat) : List UInt8 × Istream :=
  if this.good then
    let taken := this.remaining.take count
    let after :=
      { this with remaining := this.remaining.drop count, gcount := taken.length }
    (taken ++ buf.drop taken.length, if taken.length < count then after.cutShort else after)
  else
    -- nothing is extracted, and eof stays as it is
    (buf, { this with failbit := true, gcount := 0 })

/-- `while (!eof()) { read(buf, count); … }`, where `body` is given the bytes that have been
read. -/
def readUntilEof {σ : Type} (count : Nat) (body : σ → List UInt8 → σ) :
    (fuel : Nat) → List UInt8 → Istream → σ → Option σ
  | 0, _, _, _ => none
  | fuel + 1, buf, this, state =>
    -- the only way out
    if this.eofbit then some state
    else
      let (buf, after) := this.read buf count
      readUntilEof count body fuel buf after (body state (buf.take after.gcount))

variable {this : Istream} {buf : List UInt8} {count : Nat}

/-! ## One read -/

/-- The stream is good and delivers `content` without an error. -/
structure Delivers (this : Istream) (content : List UInt8) : Prop where
  good : this.good = true
  content : this.remaining = content
  ending : this.ending = .endOfFile

/-- The bytes that `body` is given. -/
def readBytes (this : Istream) (buf : List UInt8) (count : Nat) : List UInt8 :=
  (this.read buf count).1.take (this.read buf count).2.gcount

theorem good_iff : this.good = true ↔
    this.eofbit = false ∧ this.failbit = false ∧ this.badbit = false := by
  simp [good, and_assoc]

@[simp] theorem cutShort_gcount : this.cutShort.gcount = this.gcount := by
  rw [cutShort]
  cases this.ending with
  | endOfFile => rfl
  | failure => rfl

theorem readBytes_of_good (good : this.good = true) :
    this.readBytes buf count = this.remaining.take count := by
  have gcount : (this.read buf count).2.gcount = (this.remaining.take count).length := by
    simp only [read, if_pos good]
    split
    · exact cutShort_gcount
    · rfl
  rw [readBytes, gcount]
  simp only [read, if_pos good, List.take_left']

/-- A read of no more than is there leaves the stream good. -/
theorem Delivers.read_of_le {content : List UInt8} (delivers : this.Delivers content)
    (enough : count ≤ content.length) :
    (this.read buf count).2.Delivers (content.drop count) := by
  obtain ⟨good, rfl, ending⟩ := delivers
  have full : ¬ (this.remaining.take count).length < count := by
    rw [List.length_take_of_le enough]
    exact Nat.lt_irrefl _
  simp only [read, if_pos good, if_neg full]
  exact ⟨good, rfl, ending⟩

/-- A read of more than is there meets the end. -/
theorem Delivers.read_of_lt {content : List UInt8} (delivers : this.Delivers content)
    (short : content.length < count) : (this.read buf count).2.eofbit = true := by
  obtain ⟨good, rfl, ending⟩ := delivers
  have short : (this.remaining.take count).length < count := by
    rw [List.take_of_length_le (Nat.le_of_lt short)]
    exact short
  simp only [read, if_pos good, if_pos short, cutShort, ending]

/-- The end of the file will never be met: the stream has failed already, or it will. -/
structure NeverEnds (this : Istream) : Prop where
  notEof : this.eofbit = false
  fails : this.good = false ∨ this.ending = .failure

theorem NeverEnds.read (never : this.NeverEnds) (buf : List UInt8) (count : Nat) :
    (this.read buf count).2.NeverEnds := by
  obtain ⟨notEof, fails⟩ := never
  by_cases good : this.good = true
  · -- bad is all that the end of the content can set
    have failure : this.ending = .failure := by
      rcases fails with bad | failure
      · rw [bad] at good
        cases good
      · exact failure
    simp only [Istream.read, if_pos good]
    split
    · simp only [cutShort, failure]
      exact ⟨notEof, .inr rfl⟩
    · exact ⟨notEof, .inr failure⟩
  · simp only [Istream.read, if_neg good]
    refine ⟨notEof, .inl ?_⟩
    simp [Istream.good]

/-! ## The loop -/

variable {σ : Type} {body : σ → List UInt8 → σ}

theorem readUntilEof_succ {fuel : Nat} {state : σ} (notEof : this.eofbit = false) :
    readUntilEof count body (fuel + 1) buf this state =
      readUntilEof count body fuel (this.read buf count).1 (this.read buf count).2
        (body state (this.readBytes buf count)) := by
  rw [readUntilEof, if_neg (Bool.eq_false_iff.mp notEof)]
  rfl

theorem readUntilEof_of_eof {fuel : Nat} {state : σ} (eof : this.eofbit = true) :
    readUntilEof count body (fuel + 1) buf this state = some state := by
  rw [readUntilEof, if_pos eof]

theorem NeverEnds.readUntilEof (never : this.NeverEnds) (fuel : Nat) (state : σ) :
    readUntilEof count body fuel buf this state = none := by
  induction fuel generalizing this buf state with
  | zero => rfl
  | succ fuel ih =>
    rw [readUntilEof_succ never.notEof]
    exact ih (never.read buf count) _

/-- The loop hands over the content in pieces, each byte once and in order. -/
theorem Delivers.readUntilEof {content : List UInt8} (delivers : this.Delivers content)
    (positive : 0 < count) (body : σ → List UInt8 → σ) (buf : List UInt8) :
    ∃ pieces : List (List UInt8), pieces.flatten = content ∧ ∃ enough, ∀ fuel ≥ enough, ∀ state,
      readUntilEof count body fuel buf this state = some (pieces.foldl body state) := by
  -- on what is left: a full read takes `count` bytes of it, a shorter one is the last
  induction measured : content.length using Nat.strongRecOn generalizing this buf content with
  | ind size ih =>
    have notEof := (good_iff.mp delivers.good).1
    have bytes : this.readBytes buf count = content.take count := by
      rw [readBytes_of_good delivers.good, delivers.content]
    by_cases enough : count ≤ content.length
    · have shorter : (content.drop count).length < size := by
        rw [List.length_drop]
        omega
      obtain ⟨pieces, joined, steps, runs⟩ :=
        ih _ shorter (delivers.read_of_le enough) (this.read buf count).1 rfl
      refine ⟨content.take count :: pieces, ?_, steps + 1, fun fuel atLeast state => ?_⟩
      · rw [List.flatten_cons, joined, List.take_append_drop]
      · obtain ⟨fuel, rfl⟩ := Nat.exists_eq_add_of_le' atLeast
        rw [← Nat.add_assoc, readUntilEof_succ notEof, bytes]
        exact runs _ (Nat.le_add_left _ _) _
    · -- the last piece, which may be empty
      have short : content.length < count := Nat.lt_of_not_le enough
      have whole : content.take count = content := List.take_of_length_le (Nat.le_of_lt short)
      refine ⟨[content], List.append_nil _, 2, fun fuel atLeast state => ?_⟩
      obtain ⟨fuel, rfl⟩ := Nat.exists_eq_add_of_le' atLeast
      rw [readUntilEof_succ notEof, bytes, whole]
      exact readUntilEof_of_eof (delivers.read_of_lt short)

/-- The loop ends exactly when the end of the file has been met or will be. -/
theorem readUntilEof_ends_iff (positive : 0 < count) (body : σ → List UInt8 → σ)
    (buf : List UInt8) (state : σ) :
    (∃ fuel result, readUntilEof count body fuel buf this state = some result) ↔
      this.eofbit = true ∨ (this.good = true ∧ this.ending = .endOfFile) := by
  constructor
  · rintro ⟨fuel, result, ended⟩
    by_contra otherwise
    rw [not_or, not_and_or, Bool.not_eq_true, Bool.not_eq_true] at otherwise
    have never : this.NeverEnds := by
      refine ⟨otherwise.1, otherwise.2.imp_right fun notEnd => ?_⟩
      cases ending : this.ending with
      | endOfFile => exact absurd ending notEnd
      | failure => rfl
    rw [never.readUntilEof] at ended
    cases ended
  · rintro (eof | ⟨good, ending⟩)
    · exact ⟨1, state, readUntilEof_of_eof eof⟩
    · have delivers : this.Delivers this.remaining := ⟨good, rfl, ending⟩
      obtain ⟨pieces, -, steps, runs⟩ :=
        delivers.readUntilEof positive body buf
      exact ⟨steps, _, runs steps (Nat.le_refl _) state⟩

end Istream

end MyappsCommon.Lib
