import MyappsCommon.Lib.Istream

/-! # `sha256`

The digest of a string and of a stream.
-/

namespace MyappsCommon.Utility

open MyappsCommon.Lib

/-- The digest interface of OpenSSL, for one digest type.  `digestFinal` gives the first
`md_len` bytes of `md_value`. -/
structure Evp where
  Context : Type
  digestInit : Context
  digestUpdate : Context → List UInt8 → Context
  digestFinal : Context → List UInt8

/-- A digest does not see how its input was cut into updates. -/
structure Evp.Lawful (evp : Evp) : Prop where
  update_update : ∀ context a b,
    evp.digestFinal (evp.digestUpdate (evp.digestUpdate context a) b) =
      evp.digestFinal (evp.digestUpdate context (a ++ b))
  update_nil : ∀ context, evp.digestFinal (evp.digestUpdate context []) = evp.digestFinal context

namespace Sha256

variable (evp : Evp)

/-- `sha256(const std::string&)` -/
def ofString (str : List UInt8) : List UInt8 :=
  evp.digestFinal (evp.digestUpdate evp.digestInit str)

def bufsz : Nat := 1024 * 64

theorem bufsz_pos : 0 < bufsz := by decide

/-- `sha256(std::istream&)`.  The buffer is on the stack and has any content at first. -/
def ofIstream (fuel : Nat) (buf : List UInt8) (ris : Istream) : Option (List UInt8) :=
  (ris.readUntilEof bufsz evp.digestUpdate fuel buf evp.digestInit).map evp.digestFinal

variable {evp}

theorem digestFinal_pieces (lawful : evp.Lawful) (pieces : List (List UInt8))
    (context : evp.Context) :
    evp.digestFinal (pieces.foldl evp.digestUpdate context) =
      evp.digestFinal (evp.digestUpdate context pieces.flatten) := by
  -- from the left, as the updates are made
  induction pieces generalizing context with
  | nil => exact (lawful.update_nil context).symm
  | cons piece pieces ih =>
    rw [List.foldl_cons, ih, lawful.update_update, List.flatten_cons]

/-- Both functions give the same digest. -/
theorem ofIstream_eq_ofString (lawful : evp.Lawful) {ris : Istream} {str : List UInt8}
    (delivers : ris.Delivers str) (buf : List UInt8) :
    ∃ enough, ∀ fuel ≥ enough, ofIstream evp fuel buf ris = some (ofString evp str) := by
  obtain ⟨pieces, joined, steps, runs⟩ := delivers.readUntilEof bufsz_pos evp.digestUpdate buf
  refine ⟨steps, fun fuel enough => ?_⟩
  rw [ofIstream, runs fuel enough, Option.map_some, digestFinal_pieces lawful, joined, ofString]

/-- A digest that keeps its input to the end and knows the SHA3-256 of `abc`. -/
def knowsAbc : Evp where
  Context := List UInt8
  digestInit := []
  digestUpdate context data := context ++ data
  digestFinal context :=
    if context = [97, 98, 99] then
      [58, 152, 93, 167, 79, 226, 37, 178, 4, 92, 23, 45, 107, 211, 144, 189, 133, 95, 8, 110,
        62, 157, 82, 91, 70, 191, 226, 69, 17, 67, 21, 50]
    else []

theorem ofIstream_eq_ofString_abc :
    ∃ enough, ∀ fuel ≥ enough,
      ofIstream knowsAbc fuel [] ⟨[97, 98, 99], .endOfFile, false, false, false, 0⟩ =
        some (ofString knowsAbc [97, 98, 99]) := by
  have lawful : knowsAbc.Lawful := by
    constructor
    · intro context a b
      exact congrArg knowsAbc.digestFinal (List.append_assoc context a b)
    · intro context
      exact congrArg knowsAbc.digestFinal (List.append_nil context)
  exact ofIstream_eq_ofString lawful ⟨rfl, rfl, rfl⟩ []

/-- The loop ends exactly when the end of the file has been met before, or the stream is good
and no read fails before it. -/
theorem ofIstream_ends_iff (evp : Evp) (buf : List UInt8) (ris : Istream) :
    (∃ fuel digest, ofIstream evp fuel buf ris = some digest) ↔
      ris.eofbit = true ∨ (ris.good = true ∧ ris.ending = .endOfFile) := by
  rw [← Istream.readUntilEof_ends_iff bufsz_pos evp.digestUpdate buf evp.digestInit]
  simp only [ofIstream, Option.map_eq_some_iff]
  constructor
  · rintro ⟨fuel, digest, context, ended, -⟩
    exact ⟨fuel, context, ended⟩
  · rintro ⟨fuel, context, ended⟩
    exact ⟨fuel, _, context, ended, rfl⟩

/-- No number of iterations is enough for a file stream whose file could not be opened, nor
for one whose first read fails. -/
theorem ofIstream_never_ends :
    (¬ ∃ fuel digest, ofIstream knowsAbc fuel [] ⟨[], .endOfFile, false, true, false, 0⟩ =
      some digest) ∧
    ¬ ∃ fuel digest, ofIstream knowsAbc fuel [] ⟨[], .failure, false, false, false, 0⟩ =
      some digest := by
  have unopened : Istream.NeverEnds ⟨[], .endOfFile, false, true, false, 0⟩ := ⟨rfl, .inl rfl⟩
  have failing : Istream.NeverEnds ⟨[], .failure, false, false, false, 0⟩ := ⟨rfl, .inr rfl⟩
  constructor
  · rintro ⟨fuel, digest, ended⟩
    rw [ofIstream, unopened.readUntilEof] at ended
    cases ended
  · rintro ⟨fuel, digest, ended⟩
    rw [ofIstream, failing.readUntilEof] at ended
    cases ended

end Sha256

end MyappsCommon.Utility
