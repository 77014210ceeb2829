import Mathlib.Data.Option.NAry
import Mathlib.Logic.Equiv.Defs
import MyappsCommon.Lib.BinaryArchive

/-! # Formats of a stream

A format writes values of a type as symbols and reads them back from the front of a
stream.  It carries its own laws: what is written is read back, what is read could have been
written, and reading does not depend on what follows.  Formats are built from formats, so
that the laws of a record are those of its parts.
-/

namespace MyappsCommon.Lib

open BinaryArchive

variable {σ α τ : Type}

/-- Take a value from the front of a stream, or refuse. -/
abbrev StreamReader (σ α : Type) := StateT (List σ) Option α

namespace StreamReader

def Takes (reader : StreamReader σ α) (stream : List σ) (value : α) (rest : List σ) : Prop :=
  reader.run stream = some (value, rest)

@[simp] theorem takes_pure_iff {given value : α} {stream rest : List σ} :
    Takes (pure given : StreamReader σ α) stream value rest ↔ given = value ∧ stream = rest := by
  rw [Takes, StateT.run_pure, Option.pure_def, Option.some.injEq, Prod.mk.injEq]

theorem takes_bind_iff {β : Type} {reader : StreamReader σ α} {next : α → StreamReader σ β}
    {stream rest : List σ} {value : β} :
    Takes (reader >>= next) stream value rest ↔
      ∃ first between, reader.Takes stream first between ∧
        (next first).Takes between value rest := by
  rw [Takes, StateT.run_bind, Option.bind_eq_bind, Option.bind_eq_some_iff]
  constructor
  · rintro ⟨⟨first, between⟩, taken, continued⟩
    exact ⟨first, between, taken, continued⟩
  · rintro ⟨first, between, taken, continued⟩
    exact ⟨(first, between), taken, continued⟩

/-- A value, then one that is read as the first one says. -/
def both {β : α → Type} (first : StreamReader σ α) (second : (a : α) → StreamReader σ (β a)) :
    StreamReader σ ((a : α) × β a) := do
  let a ← first
  let b ← second a
  return ⟨a, b⟩

/-- A value that another one stands for. -/
def decoded (reader : StreamReader σ τ) (decode : τ → Option α) : StreamReader σ α := do
  let encoded ← reader
  match decode encoded with
  | some value => return value
  | none => failure

theorem takes_both_iff {β : α → Type} {first : StreamReader σ α}
    {second : (a : α) → StreamReader σ (β a)} {stream rest : List σ} {value : (a : α) × β a} :
    (both first second).Takes stream value rest ↔
      ∃ between, first.Takes stream value.1 between ∧
        (second value.1).Takes between value.2 rest := by
  simp only [both, takes_bind_iff, takes_pure_iff]
  constructor
  · rintro ⟨a, between, takenFirst, b, left, takenSecond, rfl, rfl⟩
    exact ⟨between, takenFirst, takenSecond⟩
  · rintro ⟨between, takenFirst, takenSecond⟩
    exact ⟨_, between, takenFirst, _, rest, takenSecond, rfl, rfl⟩

theorem takes_decoded_iff {reader : StreamReader σ τ} {decode : τ → Option α}
    {stream rest : List σ} {value : α} :
    (reader.decoded decode).Takes stream value rest ↔
      ∃ encoded, reader.Takes stream encoded rest ∧ decode encoded = some value := by
  rw [decoded, takes_bind_iff]
  constructor
  · rintro ⟨encoded, between, taken, ends⟩
    cases known : decode encoded with
    | none =>
      rw [known] at ends
      cases ends
    | some other =>
      rw [known, takes_pure_iff] at ends
      obtain ⟨rfl, rfl⟩ := ends
      exact ⟨encoded, taken, known⟩
  · rintro ⟨encoded, taken, known⟩
    refine ⟨encoded, rest, taken, ?_⟩
    rw [known, takes_pure_iff]
    exact ⟨rfl, rfl⟩

end StreamReader

/-- A size of a value and the most that a format takes. -/
structure Extent where
  size : Nat
  limit : Nat
  deriving DecidableEq, Repr

structure Format (σ α : Type) where
  /-- The symbols of a value, which may be refused. -/
  write : α → Option (List σ)
  read : StreamReader σ α
  extents : α → List Extent
  /-- What the format leaves out of the value is as a reader assumes it. -/
  Intact : α → Prop
  write_isSome : ∀ value,
    (write value).isSome ↔ ∀ extent ∈ extents value, extent.size ≤ extent.limit
  read_write : ∀ {value symbols}, Intact value → write value = some symbols →
    ∀ rest, read.Takes (symbols ++ rest) value rest
  of_read : ∀ {stream value rest}, read.Takes stream value rest →
    Intact value ∧ (write value).isSome
  /-- A reader takes a front part of the stream, which alone decides. -/
  read_front : ∀ {stream value rest}, read.Takes stream value rest →
    ∃ front, stream = front ++ rest ∧ ∀ more, read.Takes (front ++ more) value more

namespace Format

/-! ## Building blocks -/

/-- Nothing is transferred, and the reader assumes a value. -/
def constant (value : α) : Format σ α where
  write _ := some []
  read := pure value
  extents _ := []
  Intact other := other = value
  write_isSome _ := by simp
  read_write intact written rest := by
    cases written
    exact StreamReader.takes_pure_iff.mpr ⟨intact.symm, rfl⟩
  of_read taken := ⟨(StreamReader.takes_pure_iff.mp taken).1.symm, rfl⟩
  read_front taken := by
    obtain ⟨rfl, rfl⟩ := StreamReader.takes_pure_iff.mp taken
    exact ⟨[], rfl, fun more => StreamReader.takes_pure_iff.mpr ⟨rfl, rfl⟩⟩

/-- A value, then one whose format depends on it. -/
def dependent {β : α → Type} (first : Format σ α) (second : (a : α) → Format σ (β a)) :
    Format σ ((a : α) × β a) where
  write value := Option.map₂ (· ++ ·) (first.write value.1) ((second value.1).write value.2)
  read := first.read.both fun a => (second a).read
  extents value := first.extents value.1 ++ (second value.1).extents value.2
  Intact value := first.Intact value.1 ∧ (second value.1).Intact value.2
  write_isSome value := by
    rw [List.forall_mem_append, ← first.write_isSome, ← (second value.1).write_isSome]
    cases first.write value.1 <;> cases (second value.1).write value.2 <;> simp
  read_write intact written rest := by
    obtain ⟨front, back, writtenFirst, writtenSecond, rfl⟩ := Option.map₂_eq_some_iff.mp written
    rw [List.append_assoc, StreamReader.takes_both_iff]
    exact ⟨back ++ rest, first.read_write intact.1 writtenFirst _,
      (second _).read_write intact.2 writtenSecond rest⟩
  of_read taken := by
    obtain ⟨between, takenFirst, takenSecond⟩ := StreamReader.takes_both_iff.mp taken
    obtain ⟨intactFirst, writable⟩ := first.of_read takenFirst
    obtain ⟨intactSecond, writable'⟩ := (second _).of_read takenSecond
    refine ⟨⟨intactFirst, intactSecond⟩, ?_⟩
    obtain ⟨front, writtenFirst⟩ := Option.isSome_iff_exists.mp writable
    obtain ⟨back, writtenSecond⟩ := Option.isSome_iff_exists.mp writable'
    rw [writtenFirst, writtenSecond]
    rfl
  read_front taken := by
    obtain ⟨between, takenFirst, takenSecond⟩ := StreamReader.takes_both_iff.mp taken
    obtain ⟨front, rfl, alone⟩ := first.read_front takenFirst
    obtain ⟨back, rfl, alone'⟩ := (second _).read_front takenSecond
    refine ⟨front ++ back, (List.append_assoc ..).symm, fun more => ?_⟩
    rw [List.append_assoc, StreamReader.takes_both_iff]
    exact ⟨back ++ more, alone _, alone' more⟩

/-- Values that are transferred as others, from which they can be told. -/
def embed (format : Format σ τ) (encode : α → τ) (decode : τ → Option α)
    (exact : ∀ encoded value, decode encoded = some value ↔ encoded = encode value) :
    Format σ α where
  write value := format.write (encode value)
  read := format.read.decoded decode
  extents value := format.extents (encode value)
  Intact value := format.Intact (encode value)
  write_isSome value := format.write_isSome (encode value)
  read_write intact written rest :=
    StreamReader.takes_decoded_iff.mpr
      ⟨_, format.read_write intact written rest, (exact _ _).mpr rfl⟩
  of_read taken := by
    obtain ⟨encoded, taken, known⟩ := StreamReader.takes_decoded_iff.mp taken
    obtain rfl := (exact _ _).mp known
    exact format.of_read taken
  read_front taken := by
    obtain ⟨encoded, taken, known⟩ := StreamReader.takes_decoded_iff.mp taken
    obtain ⟨front, split, alone⟩ := format.read_front taken
    exact ⟨front, split, fun more =>
      StreamReader.takes_decoded_iff.mpr ⟨encoded, alone more, known⟩⟩

/-- Values of a size above the limit are refused on either side. -/
def atMost (format : Format σ α) (size : α → Nat) (limit : Nat) : Format σ α where
  write value := if size value ≤ limit then format.write value else none
  read := format.read.decoded fun value => if size value ≤ limit then some value else none
  extents value := ⟨size value, limit⟩ :: format.extents value
  Intact := format.Intact
  write_isSome value := by
    rw [List.forall_mem_cons, ← format.write_isSome]
    by_cases small : size value ≤ limit <;> simp [small]
  read_write intact written rest := by
    obtain ⟨small, written⟩ := Option.ite_none_right_eq_some.mp written
    exact StreamReader.takes_decoded_iff.mpr
      ⟨_, format.read_write intact written rest, if_pos small⟩
  of_read taken := by
    obtain ⟨encoded, taken, known⟩ := StreamReader.takes_decoded_iff.mp taken
    obtain ⟨small, same⟩ := Option.ite_none_right_eq_some.mp known
    cases same
    rw [if_pos small]
    exact format.of_read taken
  read_front taken := by
    obtain ⟨encoded, taken, known⟩ := StreamReader.takes_decoded_iff.mp taken
    obtain ⟨front, split, alone⟩ := format.read_front taken
    exact ⟨front, split, fun more =>
      StreamReader.takes_decoded_iff.mpr ⟨encoded, alone more, known⟩⟩

/-! ## What follows from the laws -/

/-- The symbols of a value that a reader gets as it is. -/
def Sends (format : Format σ α) (value : α) (symbols : List σ) : Prop :=
  format.Intact value ∧ format.write value = some symbols

variable {format : Format σ α} {value other : α} {symbols symbols' : List σ}

theorem Sends.read (sends : format.Sends value symbols) (rest : List σ) :
    format.read.Takes (symbols ++ rest) value rest :=
  format.read_write sends.1 sends.2 rest

theorem Sends.read_all (sends : format.Sends value symbols) :
    format.read.Takes symbols value [] := by
  have taken := sends.read []
  rwa [List.append_nil] at taken

/-- Every size is within its limit. -/
def Within (format : Format σ α) (value : α) : Prop :=
  ∀ extent ∈ format.extents value, extent.size ≤ extent.limit

/-- A value is sent exactly when it is intact and within the limits. -/
theorem exists_sends_iff (format : Format σ α) (value : α) :
    (∃ symbols, format.Sends value symbols) ↔
      format.Intact value ∧ ∀ extent ∈ format.extents value, extent.size ≤ extent.limit := by
  rw [← format.write_isSome, Option.isSome_iff_exists]
  exact exists_and_left

theorem takes_unique {stream rest rest' : List σ} (first : format.read.Takes stream value rest)
    (second : format.read.Takes stream other rest') : value = other ∧ rest = rest' :=
  Prod.mk.inj (Option.some.inj (first.symm.trans second))

theorem read_append {stream rest : List σ} (taken : format.read.Takes stream value rest)
    (more : List σ) : format.read.Takes (stream ++ more) value (rest ++ more) := by
  obtain ⟨front, rfl, alone⟩ := format.read_front taken
  rw [List.append_assoc]
  exact alone (rest ++ more)

/-- What is written of a value is read back as this value exactly when it is intact. -/
theorem takes_written_iff (written : format.write value = some symbols) (rest : List σ) :
    format.read.Takes (symbols ++ rest) value rest ↔ format.Intact value :=
  ⟨fun taken => (format.of_read taken).1, fun intact => format.read_write intact written rest⟩

/-- A reader refuses the symbols of a value as long as one of them is missing. -/
theorem Sends.refuses_cut {part missing : List σ}
    (sends : format.Sends value (part ++ missing)) (cut : missing ≠ []) :
    format.read.run part = none := by
  cases taken : format.read.run part with
  | none => rfl
  | some result =>
    -- what is read of the part would be read of the whole, with symbols left over
    have whole : format.read.Takes (part ++ missing) result.1 (result.2 ++ missing) :=
      read_append taken missing
    obtain ⟨-, noneLeft⟩ := takes_unique whole sends.read_all
    exact absurd (List.append_eq_nil_iff.mp noneLeft).2 cut

/-- There is one way to write a value. -/
class Canonical (format : Format σ α) : Prop where
  writes_taken : ∀ stream value rest, format.read.Takes stream value rest →
    ∃ symbols, format.write value = some symbols ∧ stream = symbols ++ rest

theorem takes_iff [format.Canonical] {stream rest : List σ} :
    format.read.Takes stream value rest ↔
      ∃ symbols, format.Sends value symbols ∧ stream = symbols ++ rest := by
  constructor
  · intro taken
    obtain ⟨symbols, written, split⟩ := Canonical.writes_taken stream value rest taken
    exact ⟨symbols, ⟨(format.of_read taken).1, written⟩, split⟩
  · rintro ⟨symbols, sends, rfl⟩
    exact sends.read rest

instance (value : α) : (constant value : Format σ α).Canonical where
  writes_taken _ _ _ taken := ⟨[], rfl, (StreamReader.takes_pure_iff.mp taken).2⟩

instance {β : α → Type} {first : Format σ α} {second : (a : α) → Format σ (β a)}
    [first.Canonical] [∀ a, (second a).Canonical] : (first.dependent second).Canonical where
  writes_taken stream value rest taken := by
    obtain ⟨between, takenFirst, takenSecond⟩ := StreamReader.takes_both_iff.mp taken
    obtain ⟨front, writtenFirst, rfl⟩ := Canonical.writes_taken _ _ _ takenFirst
    obtain ⟨back, writtenSecond, rfl⟩ := Canonical.writes_taken _ _ _ takenSecond
    exact ⟨front ++ back, Option.map₂_eq_some_iff.mpr ⟨_, _, writtenFirst, writtenSecond, rfl⟩,
      (List.append_assoc ..).symm⟩

instance {format : Format σ τ} {encode : α → τ} {decode : τ → Option α}
    {exact : ∀ encoded value, decode encoded = some value ↔ encoded = encode value}
    [format.Canonical] : (format.embed encode decode exact).Canonical where
  writes_taken stream value rest taken := by
    obtain ⟨encoded, taken, known⟩ := StreamReader.takes_decoded_iff.mp taken
    obtain rfl := (exact _ _).mp known
    have written : ∃ symbols, format.write (encode value) = some symbols ∧
        stream = symbols ++ rest := Canonical.writes_taken _ _ _ taken
    exact written

instance [format.Canonical] (size : α → Nat) (limit : Nat) :
    (format.atMost size limit).Canonical where
  writes_taken stream value rest taken := by
    obtain ⟨encoded, taken, known⟩ := StreamReader.takes_decoded_iff.mp taken
    obtain ⟨small, same⟩ := Option.ite_none_right_eq_some.mp known
    cases same
    obtain ⟨symbols, written, split⟩ := Canonical.writes_taken _ _ _ taken
    exact ⟨symbols, (if_pos small).trans written, split⟩

/-- Reading a value takes at least one symbol. -/
def Advances (format : Format σ α) : Prop :=
  ∀ stream value rest, format.read.Takes stream value rest → rest.length < stream.length

theorem Advances.embed {format : Format σ τ} {encode : α → τ} {decode : τ → Option α}
    {exact : ∀ encoded value, decode encoded = some value ↔ encoded = encode value}
    (advances : format.Advances) : (format.embed encode decode exact).Advances := by
  intro stream value rest taken
  obtain ⟨encoded, taken, -⟩ := StreamReader.takes_decoded_iff.mp taken
  exact advances _ _ _ taken

theorem Advances.dependent {β : α → Type} {first : Format σ α} (advances : first.Advances)
    (second : (a : α) → Format σ (β a)) : (first.dependent second).Advances := by
  intro stream value rest taken
  obtain ⟨between, takenFirst, takenSecond⟩ := StreamReader.takes_both_iff.mp taken
  obtain ⟨front, rfl, -⟩ := (second _).read_front takenSecond
  have shorter := advances _ _ _ takenFirst
  rw [List.length_append] at shorter
  omega

/-! ## Pairs and parts that may be left out -/

/-- Values that correspond to others one by one. -/
def iso (format : Format σ τ) (same : α ≃ τ) : Format σ α :=
  format.embed same (fun encoded => some (same.symm encoded)) fun encoded value => by
    rw [Option.some.injEq, Equiv.symm_apply_eq]

def pair (first : Format σ α) (second : Format σ τ) : Format σ (α × τ) :=
  (first.dependent fun _ => second).iso (Equiv.sigmaEquivProd α τ).symm

/-- A part that is there under a condition; a reader assumes `absent` otherwise. -/
def optional (present : Bool) (format : Format σ α) (absent : α) : Format σ α :=
  if present then format else constant absent

/-- A part that the one before it decides about. -/
def gated (first : Format σ α) (present : α → Bool) (second : Format σ τ) (absent : τ) :
    Format σ (α × τ) :=
  (first.dependent fun a => second.optional (present a) absent).iso (Equiv.sigmaEquivProd α τ).symm

instance {format : Format σ τ} [format.Canonical] (same : α ≃ τ) : (format.iso same).Canonical :=
  inferInstanceAs (format.embed ..).Canonical

instance {first : Format σ α} {second : Format σ τ} [first.Canonical] [second.Canonical] :
    (first.pair second).Canonical :=
  inferInstanceAs (iso ..).Canonical

instance [format.Canonical] (present : Bool) (absent : α) :
    (format.optional present absent).Canonical := by
  cases present with
  | true => exact inferInstanceAs format.Canonical
  | false => exact inferInstanceAs (constant absent).Canonical

instance {first : Format σ α} {second : Format σ τ} [first.Canonical] [second.Canonical]
    (present : α → Bool) (absent : τ) : (first.gated present second absent).Canonical :=
  inferInstanceAs (iso ..).Canonical

@[simp] theorem extents_iso (format : Format σ τ) (same : α ≃ τ) (value : α) :
    (format.iso same).extents value = format.extents (same value) := rfl

@[simp] theorem extents_pair (first : Format σ α) (second : Format σ τ) (value : α × τ) :
    (first.pair second).extents value = first.extents value.1 ++ second.extents value.2 := rfl

@[simp] theorem intact_iso (format : Format σ τ) (same : α ≃ τ) (value : α) :
    (format.iso same).Intact value ↔ format.Intact (same value) := Iff.rfl

@[simp] theorem intact_atMost (format : Format σ α) (size : α → Nat) (limit : Nat) (value : α) :
    (format.atMost size limit).Intact value ↔ format.Intact value := Iff.rfl

@[simp] theorem intact_pair (first : Format σ α) (second : Format σ τ) (value : α × τ) :
    (first.pair second).Intact value ↔ first.Intact value.1 ∧ second.Intact value.2 := Iff.rfl

theorem intact_optional (present : Bool) (format : Format σ α) (absent value : α) :
    (format.optional present absent).Intact value ↔
      if present then format.Intact value else value = absent := by
  cases present <;> rfl

theorem intact_gated (first : Format σ α) (present : α → Bool) (second : Format σ τ)
    (absent : τ) (value : α × τ) :
    (first.gated present second absent).Intact value ↔
      first.Intact value.1 ∧
        if present value.1 then second.Intact value.2 else value.2 = absent :=
  and_congr_right fun _ => intact_optional ..

theorem takes_constant_iff {given value : α} {stream rest : List σ} :
    (constant given).read.Takes stream value rest ↔ value = given ∧ stream = rest := by
  rw [eq_comm (a := value)]
  exact StreamReader.takes_pure_iff

theorem takes_embed_iff {format : Format σ τ} {encode : α → τ} {decode : τ → Option α}
    {exact : ∀ encoded value, decode encoded = some value ↔ encoded = encode value} {value : α}
    {stream rest : List σ} :
    (format.embed encode decode exact).read.Takes stream value rest ↔
      format.read.Takes stream (encode value) rest := by
  constructor
  · intro taken
    obtain ⟨encoded, taken, known⟩ := StreamReader.takes_decoded_iff.mp taken
    rwa [← (exact _ _).mp known]
  · intro taken
    exact StreamReader.takes_decoded_iff.mpr ⟨_, taken, (exact _ _).mpr rfl⟩

theorem takes_atMost_iff {format : Format σ α} {size : α → Nat} {limit : Nat} {value : α}
    {stream rest : List σ} :
    (format.atMost size limit).read.Takes stream value rest ↔
      format.read.Takes stream value rest ∧ size value ≤ limit := by
  constructor
  · intro taken
    obtain ⟨encoded, taken, known⟩ := StreamReader.takes_decoded_iff.mp taken
    obtain ⟨small, same⟩ := Option.ite_none_right_eq_some.mp known
    exact Option.some.inj same ▸ ⟨taken, small⟩
  · rintro ⟨taken, small⟩
    exact StreamReader.takes_decoded_iff.mpr ⟨_, taken, if_pos small⟩

theorem takes_iso_iff {format : Format σ τ} {same : α ≃ τ} {value : α} {stream rest : List σ} :
    (format.iso same).read.Takes stream value rest ↔
      format.read.Takes stream (same value) rest := by
  rw [iso, takes_embed_iff]

theorem takes_pair_iff {first : Format σ α} {second : Format σ τ} {value : α × τ}
    {stream rest : List σ} :
    (first.pair second).read.Takes stream value rest ↔
      ∃ between, first.read.Takes stream value.1 between ∧
        second.read.Takes between value.2 rest :=
  takes_iso_iff.trans StreamReader.takes_both_iff

theorem takes_optional_iff {present : Bool} {format : Format σ α} {absent value : α}
    {stream rest : List σ} :
    (format.optional present absent).read.Takes stream value rest ↔
      if present then format.read.Takes stream value rest else value = absent ∧ stream = rest := by
  cases present with
  | true => exact Iff.rfl
  | false => exact takes_constant_iff

theorem takes_gated_iff {first : Format σ α} {present : α → Bool} {second : Format σ τ}
    {absent : τ} {value : α × τ} {stream rest : List σ} :
    (first.gated present second absent).read.Takes stream value rest ↔
      ∃ between, first.read.Takes stream value.1 between ∧
        if present value.1 then second.read.Takes between value.2 rest
        else value.2 = absent ∧ between = rest :=
  takes_iso_iff.trans <| StreamReader.takes_both_iff.trans <|
    exists_congr fun _ => and_congr_right fun _ => takes_optional_iff

/-! ## Containers -/

/-- A format that takes every value. -/
structure Unlimited (σ α : Type) extends Format σ α where
  whole : ∀ value, Intact value
  unlimited : ∀ value, extents value = []

instance : CoeOut (Unlimited σ α) (Format σ α) := ⟨Unlimited.toFormat⟩

/-- A symbol stands for itself. -/
def symbol : Unlimited σ σ where
  write value := some [value]
  read
    | [] => none
    | value :: rest => some (value, rest)
  extents _ := []
  Intact _ := True
  write_isSome _ := by simp
  read_write _ written rest := by
    cases written
    rfl
  of_read _ := ⟨trivial, rfl⟩
  read_front {stream value rest} taken := by
    cases stream with
    | nil => cases taken
    | cons first others =>
      cases taken
      exact ⟨[value], rfl, fun more => rfl⟩
  whole _ := trivial
  unlimited _ := rfl

def Unlimited.embed (format : Unlimited σ τ) (encode : α → τ) (decode : τ → Option α)
    (exact : ∀ encoded value, decode encoded = some value ↔ encoded = encode value) :
    Unlimited σ α where
  toFormat := format.toFormat.embed encode decode exact
  whole value := format.whole (encode value)
  unlimited value := format.unlimited (encode value)

/-- Only the encoding of the value itself is read as a value. -/
def Unlimited.spelled [DecidableEq τ] (format : Unlimited σ τ) (encode : α → τ) (decode : τ → α)
    (inverse : ∀ value, decode (encode value) = value) : Unlimited σ α :=
  format.embed encode
    (fun encoded => if encode (decode encoded) = encoded then some (decode encoded) else none)
    fun encoded value => by
      rw [Option.ite_none_right_eq_some, Option.some.injEq]
      constructor
      · rintro ⟨same, rfl⟩
        exact same.symm
      · rintro rfl
        rw [inverse]
        exact ⟨rfl, rfl⟩

instance {format : Unlimited σ τ} {encode : α → τ} {decode : τ → Option α}
    {exact : ∀ encoded value, decode encoded = some value ↔ encoded = encode value}
    [format.Canonical] : (format.embed encode decode exact).Canonical :=
  inferInstanceAs (format.toFormat.embed encode decode exact).Canonical

instance [DecidableEq τ] {format : Unlimited σ τ} {encode : α → τ} {decode : τ → α}
    {inverse : ∀ value, decode (encode value) = value} [format.Canonical] :
    (format.spelled encode decode inverse).Canonical :=
  inferInstanceAs (format.embed _ _ _).Canonical

theorem Advances.unlimited {format : Unlimited σ τ} (advances : format.Advances) (encode : α → τ)
    (decode : τ → Option α)
    (exact : ∀ encoded value, decode encoded = some value ↔ encoded = encode value) :
    (format.embed encode decode exact).Advances := by
  intro stream value rest taken
  obtain ⟨encoded, taken, -⟩ := StreamReader.takes_decoded_iff.mp taken
  exact advances _ _ _ taken

theorem takes_symbol_iff {stream rest : List σ} {value : σ} :
    (symbol : Unlimited σ σ).read.Takes stream value rest ↔ stream = value :: rest := by
  cases stream with
  | nil => exact iff_of_false (fun taken => by cases taken) nofun
  | cons first others =>
    show some (first, others) = some (value, rest) ↔ _
    rw [Option.some.injEq, Prod.mk.injEq, List.cons.injEq]

instance : (symbol : Unlimited σ σ).Canonical where
  writes_taken _ value _ taken := ⟨[value], rfl, takes_symbol_iff.mp taken⟩

theorem advances_symbol : (symbol : Unlimited σ σ).Advances := by
  intro stream value rest taken
  rw [takes_symbol_iff.mp taken]
  exact Nat.lt_succ_self _

/-- A given number of items. -/
abbrev Items (α : Type) (count : Nat) := {items : List α // items.length = count}

theorem unit_eq (value : Unit) : () = value := rfl

/-- A type with one value only. -/
def single (value : α) (only : ∀ other, value = other) : α ≃ Unit where
  toFun _ := ()
  invFun _ := value
  left_inv := only
  right_inv := unit_eq

theorem nil_eq (items : Items α 0) : ⟨[], List.length_nil⟩ = items :=
  Subtype.ext (List.length_eq_zero_iff.mp items.2).symm

def itemsNil : Items α 0 ≃ Unit := single ⟨[], List.length_nil⟩ nil_eq

def itemsCons (count : Nat) : Items α (count + 1) ≃ α × Items α count where
  toFun
    | ⟨item :: items, counted⟩ => (item, ⟨items, Nat.succ.inj counted⟩)
  invFun split := ⟨split.1 :: split.2.1, congrArg Nat.succ split.2.2⟩
  left_inv
    | ⟨_ :: _, _⟩ => rfl
  right_inv _ := rfl

/-- The items one after the other. -/
def replicate (item : Format σ α) : (count : Nat) → Format σ (Items α count)
  | 0 => (constant ()).iso itemsNil
  | count + 1 => (item.pair (replicate item count)).iso (itemsCons count)

/-- A container is its length and then its items. -/
def sizedItems : Sized α ≃ (size : UInt64) × Items α size.toNat where
  toFun value := ⟨UInt64.ofNat value.items.length, value.items, value.toNat_length.symm⟩
  invFun split := Sized.ofCount split.1 split.2
  left_inv _ := rfl
  right_inv := by
    rintro ⟨size, items, counted⟩
    have same : UInt64.ofNat items.length = size := by rw [counted, UInt64.ofNat_toNat]
    subst same
    rfl

def sequence (size : Unlimited σ UInt64) (limit : Nat) (item : Format σ α) : Format σ (Sized α) :=
  ((size.atMost UInt64.toNat limit).dependent fun count => item.replicate count.toNat).iso
    sizedItems

theorem extents_replicate (item : Format σ α) {count : Nat} (items : Items α count) :
    (item.replicate count).extents items = items.1.flatMap item.extents := by
  induction count with
  | zero =>
    obtain ⟨items, counted⟩ := items
    obtain rfl := List.length_eq_zero_iff.mp counted
    rfl
  | succ count ih =>
    match items with
    | ⟨first :: others, counted⟩ =>
      exact congrArg (item.extents first ++ ·) (ih ⟨others, Nat.succ.inj counted⟩)

theorem intact_replicate (item : Format σ α) {count : Nat} (items : Items α count) :
    (item.replicate count).Intact items ↔ ∀ value ∈ items.1, item.Intact value := by
  induction count with
  | zero =>
    obtain ⟨items, counted⟩ := items
    obtain rfl := List.length_eq_zero_iff.mp counted
    exact iff_of_true rfl nofun
  | succ count ih =>
    match items with
    | ⟨first :: others, counted⟩ =>
      rw [List.forall_mem_cons]
      exact and_congr_right fun _ => ih ⟨others, Nat.succ.inj counted⟩

/-- A container has its own size beside those of its items. -/
theorem extents_sequence (size : Unlimited σ UInt64) (limit : Nat) (item : Format σ α)
    (value : Sized α) :
    (sequence size limit item).extents value =
      ⟨value.items.length, limit⟩ :: value.items.flatMap item.extents := by
  show (⟨(UInt64.ofNat value.items.length).toNat, limit⟩ :: size.extents _) ++ _ = _
  rw [size.unlimited, value.toNat_length, List.singleton_append]
  exact congrArg _ (extents_replicate item _)

theorem intact_sequence (size : Unlimited σ UInt64) (limit : Nat) (item : Format σ α)
    (value : Sized α) :
    (sequence size limit item).Intact value ↔ ∀ element ∈ value.items, item.Intact element := by
  have items := intact_replicate item (sizedItems value).2
  exact (and_iff_right (size.whole _)).trans items

instance {item : Format σ α} [item.Canonical] (count : Nat) :
    (item.replicate count).Canonical := by
  induction count with
  | zero => exact inferInstanceAs ((constant ()).iso itemsNil).Canonical
  | succ count ih => exact inferInstanceAs ((item.pair _).iso (itemsCons count)).Canonical

instance {size : Unlimited σ UInt64} {item : Format σ α} [size.Canonical] [item.Canonical]
    (limit : Nat) : (sequence size limit item).Canonical :=
  inferInstanceAs (iso ..).Canonical

/-! ## Tagged values -/

/-- The place of a tag. -/
def placeOf [DecidableEq τ] {count : Nat} (tags : Fin count → τ) (tag : τ) : Option (Fin count) :=
  (List.finRange count).find? fun place => tags place = tag

theorem tag_of_placeOf [DecidableEq τ] {count : Nat} {tags : Fin count → τ} {tag : τ}
    {place : Fin count} (found : placeOf tags tag = some place) : tags place = tag := by
  rw [placeOf] at found
  have isTag := List.find?_some found
  exact of_decide_eq_true isTag

theorem placeOf_eq_some_iff [DecidableEq τ] {count : Nat} {tags : Fin count → τ}
    (distinct : Function.Injective tags) (tag : τ) (place : Fin count) :
    placeOf tags tag = some place ↔ tag = tags place := by
  constructor
  · intro found
    exact (tag_of_placeOf found).symm
  · rintro rfl
    cases found : placeOf tags (tags place) with
    | none => simpa using List.find?_eq_none.mp found place (List.mem_finRange place)
    | some other => exact congrArg some (distinct (tag_of_placeOf found))

/-- A tag, then a value of the kind that the tag stands for. -/
def tagged [DecidableEq τ] (tag : Format σ τ) {count : Nat} {tags : Fin count → τ}
    (distinct : Function.Injective tags) {β : Fin count → Type}
    (body : (place : Fin count) → Format σ (β place)) :
    Format σ ((place : Fin count) × β place) :=
  (tag.embed tags (placeOf tags) (placeOf_eq_some_iff distinct)).dependent body

instance [DecidableEq τ] {tag : Format σ τ} {count : Nat} {tags : Fin count → τ}
    {distinct : Function.Injective tags} {β : Fin count → Type}
    {body : (place : Fin count) → Format σ (β place)} [tag.Canonical]
    [∀ place, (body place).Canonical] : (tag.tagged distinct body).Canonical :=
  inferInstanceAs (dependent ..).Canonical

theorem takes_tagged_iff [DecidableEq τ] {tag : Format σ τ} {count : Nat} {tags : Fin count → τ}
    {distinct : Function.Injective tags} {β : Fin count → Type}
    {body : (place : Fin count) → Format σ (β place)} {place : Fin count} {value : β place}
    {stream rest : List σ} :
    (tag.tagged distinct body).read.Takes stream ⟨place, value⟩ rest ↔
      ∃ between, tag.read.Takes stream (tags place) between ∧
        (body place).read.Takes between value rest :=
  StreamReader.takes_both_iff.trans <| exists_congr fun _ => and_congr_left fun _ => takes_embed_iff

theorem sends_tagged_iff [DecidableEq τ] {tag : Format σ τ} {count : Nat} {tags : Fin count → τ}
    {distinct : Function.Injective tags} {β : Fin count → Type}
    {body : (place : Fin count) → Format σ (β place)} {place : Fin count} {value : β place}
    {symbols : List σ} :
    (tag.tagged distinct body).Sends ⟨place, value⟩ symbols ↔
      ∃ front back, tag.Sends (tags place) front ∧ (body place).Sends value back ∧
        symbols = front ++ back := by
  constructor
  · rintro ⟨⟨intactTag, intactBody⟩, written⟩
    obtain ⟨front, back, writtenTag, writtenBody, rfl⟩ := Option.map₂_eq_some_iff.mp written
    exact ⟨front, back, ⟨intactTag, writtenTag⟩, ⟨intactBody, writtenBody⟩, rfl⟩
  · rintro ⟨front, back, ⟨intactTag, writtenTag⟩, ⟨intactBody, writtenBody⟩, rfl⟩
    exact ⟨⟨intactTag, intactBody⟩,
      Option.map₂_eq_some_iff.mpr ⟨front, back, writtenTag, writtenBody, rfl⟩⟩

theorem Advances.tagged [DecidableEq τ] {tag : Format σ τ} {count : Nat} {tags : Fin count → τ}
    {distinct : Function.Injective tags} {β : Fin count → Type}
    {body : (place : Fin count) → Format σ (β place)} (advances : tag.Advances) :
    (tag.tagged distinct body).Advances :=
  advances.embed.dependent body

end Format

end MyappsCommon.Lib
