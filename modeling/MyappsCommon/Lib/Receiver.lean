import Mathlib.Data.List.Induction
import MyappsCommon.Lib.Format

/-! # Receiving values in pieces

Values are written one after the other into one stream, which arrives cut anywhere.  A
receiver keeps what it cannot read yet and goes on when more arrives.
-/

namespace MyappsCommon.Lib.Format

variable {σ α : Type}

/-- The values that a stream begins with, at most `count`, and the rest. -/
def readUpTo (format : Format σ α) : (count : Nat) → List σ → List α × List σ
  | 0, stream => ([], stream)
  | count + 1, stream =>
    match format.read.run stream with
    | none => ([], stream)
    | some (value, rest) =>
      let others := readUpTo format count rest
      (value :: others.1, others.2)

/-- As many values as can be read, and the rest. -/
def readAll (format : Format σ α) (stream : List σ) : List α × List σ :=
  format.readUpTo stream.length stream

/-- The symbols of several values. -/
inductive SendsAll (format : Format σ α) : List α → List σ → Prop where
  | nil : SendsAll format [] []
  | cons {value : α} {values : List α} {symbols others : List σ}
      (sends : format.Sends value symbols) (rest : SendsAll format values others) :
      SendsAll format (value :: values) (symbols ++ others)

structure Receiver (σ α : Type) where
  delivered : List α := []
  pending : List σ := []

/-- More of the stream arrives. -/
def receive (format : Format σ α) (receiver : Receiver σ α) (piece : List σ) : Receiver σ α :=
  let taken := format.readAll (receiver.pending ++ piece)
  ⟨receiver.delivered ++ taken.1, taken.2⟩

/-- How far a receiver has got when a part of the stream has arrived. -/
structure Arrived (format : Format σ α) (values : List α) (part : List σ)
    (delivered : List α) (pending : List σ) : Prop where
  inOrder : delivered <+: values
  complete : ∃ symbols, SendsAll format delivered symbols ∧ part = symbols ++ pending
  /-- Of the next value at least one symbol is missing. -/
  waiting : ∀ next late, values = delivered ++ next :: late →
    ∃ missing, missing ≠ [] ∧ format.Sends next (pending ++ missing)
  finished : delivered = values → pending = []

section ReadAll

variable {format : Format σ α} {value : α} {stream rest : List σ}

theorem readUpTo_of_none (refused : format.read.run stream = none) (count : Nat) :
    format.readUpTo count stream = ([], stream) := by
  cases count with
  | zero => rfl
  | succ count => simp only [readUpTo, refused]

theorem readUpTo_of_takes (taken : format.read.Takes stream value rest) (count : Nat) :
    format.readUpTo (count + 1) stream =
      (value :: (format.readUpTo count rest).1, (format.readUpTo count rest).2) := by
  simp only [readUpTo, show format.read.run stream = some (value, rest) from taken]

/-- Any count that is as large as the stream gives the same. -/
theorem readUpTo_enough (advances : format.Advances) {count count' : Nat}
    (enough : stream.length ≤ count) (enough' : stream.length ≤ count') :
    format.readUpTo count stream = format.readUpTo count' stream := by
  induction count generalizing count' stream with
  | zero =>
    obtain rfl := List.length_eq_zero_iff.mp (Nat.le_zero.mp enough)
    cases known : format.read.run ([] : List σ) with
    | none => rw [readUpTo_of_none known, readUpTo_of_none known]
    | some result => exact absurd (advances [] result.1 result.2 known) (Nat.not_lt_zero _)
  | succ count ih =>
    cases known : format.read.run stream with
    | none => rw [readUpTo_of_none known, readUpTo_of_none known]
    | some result =>
      have shorter := advances stream result.1 result.2 known
      cases count' with
      | zero => omega
      | succ count' =>
        have inner : format.readUpTo count result.2 = format.readUpTo count' result.2 :=
          ih (by omega) (by omega)
        rw [readUpTo_of_takes known, readUpTo_of_takes known, inner]

theorem readAll_of_none (refused : format.read.run stream = none) :
    format.readAll stream = ([], stream) := readUpTo_of_none refused _

theorem readAll_of_takes (advances : format.Advances)
    (taken : format.read.Takes stream value rest) :
    format.readAll stream = (value :: (format.readAll rest).1, (format.readAll rest).2) := by
  have shorter := advances stream value rest taken
  rw [readAll, readUpTo_enough advances (Nat.le_refl _) (Nat.le_succ _), readUpTo_of_takes taken,
    readUpTo_enough advances (Nat.le_of_lt shorter) (Nat.le_refl _)]
  rfl

theorem readAll_nil (advances : format.Advances) : format.readAll [] = ([], []) := by
  cases known : format.read.run ([] : List σ) with
  | none => exact readAll_of_none known
  | some result => exact absurd (advances [] result.1 result.2 known) (Nat.not_lt_zero _)

/-- What is left over cannot be read. -/
theorem run_readAll_rest (advances : format.Advances) (stream : List σ) :
    format.read.run (format.readAll stream).2 = none := by
  induction size : stream.length using Nat.strongRecOn generalizing stream with
  | ind size ih =>
    cases known : format.read.run stream with
    | none => rwa [readAll_of_none known]
    | some result =>
      rw [readAll_of_takes advances known]
      exact ih result.2.length (size ▸ advances stream _ _ known) result.2 rfl

/-- The values read so far do not depend on what arrives later. -/
theorem readAll_append (advances : format.Advances) (stream more : List σ) :
    format.readAll (stream ++ more) =
      ((format.readAll stream).1 ++ (format.readAll ((format.readAll stream).2 ++ more)).1,
        (format.readAll ((format.readAll stream).2 ++ more)).2) := by
  induction size : stream.length using Nat.strongRecOn generalizing stream with
  | ind size ih =>
    cases known : format.read.run stream with
    | none =>
      rw [readAll_of_none known]
      rfl
    | some result =>
      have shorter := advances stream _ _ known
      rw [readAll_of_takes advances known,
        readAll_of_takes advances (read_append known more),
        ih result.2.length (size ▸ shorter) result.2 rfl]
      rfl

/-! ## Runs of a receiver -/

/-- However a stream is cut, a receiver gets what a single reading of it gives. -/
theorem receive_pieces (advances : format.Advances) (pieces : List (List σ)) :
    pieces.foldl format.receive {} =
      ⟨(format.readAll pieces.flatten).1, (format.readAll pieces.flatten).2⟩ := by
  induction pieces using List.reverseRecOn with
  | nil =>
    rw [List.flatten_nil, readAll_nil advances]
    rfl
  | append_singleton pieces piece ih =>
    rw [List.foldl_append, ih, List.flatten_append, List.flatten_singleton,
      readAll_append advances pieces.flatten piece]
    rfl

/-- Everything that was sent is read. -/
theorem SendsAll.readAll (advances : format.Advances) {values : List α} {symbols : List σ}
    (sends : format.SendsAll values symbols) : format.readAll symbols = (values, []) := by
  induction sends with
  | nil => exact readAll_nil advances
  | cons sends _ ih => rw [readAll_of_takes advances (sends.read _), ih]

/-- The part of what was sent that has arrived determines what has been delivered: the
values that are complete, and nothing else. -/
theorem SendsAll.arrived (advances : format.Advances) {values : List α} {part missing : List σ}
    (sends : format.SendsAll values (part ++ missing)) :
    format.Arrived values part (format.readAll part).1 (format.readAll part).2 := by
  generalize whole : part ++ missing = symbols at sends
  -- over the values, each of which has arrived or not
  induction sends generalizing part with
  | nil =>
    obtain ⟨rfl, rfl⟩ := List.append_eq_nil_iff.mp whole
    rw [readAll_nil advances]
    exact ⟨List.nil_prefix, ⟨[], .nil, rfl⟩, nofun, fun _ => rfl⟩
  | @cons value values symbols others sends rest ih =>
    by_cases short : part.length < symbols.length
    · -- the first value is not complete
      obtain ⟨tail, rfl⟩ : part <+: symbols :=
        List.prefix_of_prefix_length_le ⟨missing, whole⟩ (List.prefix_append _ _)
          (Nat.le_of_lt short)
      have cut : tail ≠ [] := by
        rintro rfl
        simp at short
      rw [readAll_of_none (sends.refuses_cut cut)]
      refine ⟨List.nil_prefix, ⟨[], .nil, rfl⟩, ?_, nofun⟩
      intro next late same
      obtain ⟨rfl, rfl⟩ := List.cons.inj same
      exact ⟨tail, cut, sends⟩
    · obtain ⟨more, rfl⟩ : symbols <+: part :=
        List.prefix_of_prefix_length_le (List.prefix_append _ _) ⟨missing, whole⟩
          (Nat.le_of_not_lt short)
      rw [List.append_assoc, List.append_cancel_left_eq] at whole
      obtain ⟨inOrder, ⟨front, sent, split⟩, waiting, finished⟩ := ih whole
      rw [readAll_of_takes advances (sends.read more)]
      refine ⟨List.cons_prefix_cons.mpr ⟨rfl, inOrder⟩, ⟨symbols ++ front, .cons sends sent, ?_⟩,
        ?_, ?_⟩
      · rw [List.append_assoc, ← split]
      · intro next late same
        exact waiting next late (List.cons.inj same).2
      · intro same
        exact finished (List.cons.inj same).2

end ReadAll

/-- A whole run: at every moment the receiver has the values that have arrived. -/
theorem SendsAll.received {format : Format σ α} (advances : format.Advances) {values : List α}
    {symbols : List σ} (sends : format.SendsAll values symbols) {pieces : List (List σ)}
    {missing : List σ} (arriving : pieces.flatten ++ missing = symbols) :
    format.Arrived values pieces.flatten (pieces.foldl format.receive {}).delivered
      (pieces.foldl format.receive {}).pending := by
  subst arriving
  rw [receive_pieces advances]
  exact sends.arrived advances

/-- At the end of a run the receiver has everything. -/
theorem SendsAll.received_all {format : Format σ α} (advances : format.Advances)
    {values : List α} {pieces : List (List σ)} (sends : format.SendsAll values pieces.flatten) :
    pieces.foldl format.receive {} = ⟨values, []⟩ := by
  rw [receive_pieces advances, sends.readAll advances]

/-- Several values are sent when each of them is. -/
theorem exists_sendsAll {format : Format σ α} {values : List α}
    (each : ∀ value ∈ values, ∃ symbols, format.Sends value symbols) :
    ∃ symbols, format.SendsAll values symbols := by
  induction values with
  | nil => exact ⟨[], .nil⟩
  | cons value values ih =>
    obtain ⟨symbols, sends⟩ := each value List.mem_cons_self
    obtain ⟨others, rest⟩ := ih fun other member => each other (List.mem_cons_of_mem _ member)
    exact ⟨symbols ++ others, .cons sends rest⟩

/-- Whatever arrives, what is read of it could have been sent. -/
theorem readAll_sound {format : Format σ α} (advances : format.Advances) (stream : List σ) :
    ∀ value ∈ (format.readAll stream).1,
      format.Intact value ∧ ∀ extent ∈ format.extents value, extent.size ≤ extent.limit := by
  induction size : stream.length using Nat.strongRecOn generalizing stream with
  | ind size ih =>
    cases known : format.read.run stream with
    | none =>
      rw [readAll_of_none known]
      exact nofun
    | some result =>
      rw [readAll_of_takes advances known, List.forall_mem_cons]
      obtain ⟨intact, writable⟩ := format.of_read known
      exact ⟨⟨intact, (format.write_isSome _).mp writable⟩,
        ih result.2.length (size ▸ advances stream _ _ known) result.2 rfl⟩

/-- With one spelling for each value, what has been read is what would be sent for it. -/
theorem sendsAll_readAll {format : Format σ α} [format.Canonical]
    (advances : format.Advances) (stream : List σ) :
    ∃ symbols, format.SendsAll (format.readAll stream).1 symbols ∧
      stream = symbols ++ (format.readAll stream).2 := by
  induction size : stream.length using Nat.strongRecOn generalizing stream with
  | ind size ih =>
    cases known : format.read.run stream with
    | none =>
      rw [readAll_of_none known]
      exact ⟨[], .nil, rfl⟩
    | some result =>
      obtain ⟨symbols, sends, split⟩ := takes_iff.mp known
      obtain ⟨others, rest, split'⟩ :=
        ih result.2.length (size ▸ advances stream _ _ known) result.2 rfl
      rw [readAll_of_takes advances known]
      refine ⟨symbols ++ others, .cons sends rest, ?_⟩
      rw [List.append_assoc, ← split', ← split]

end MyappsCommon.Lib.Format
