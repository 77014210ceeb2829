import Mathlib.Algebra.Ring.Nat
import MyappsCommon.Lib.Traced
import MyappsCommon.Lib.BitGroups

/-! # `base64_encode` and `base64_decode`

The two functions drive iterator adaptors of Boost.  These are parameters here:
`Boost` lists what the functions use of them, and `Boost.Documented` what they rely on.
-/

namespace MyappsCommon.Utility.Base64

open MyappsCommon.Lib

/-- `std::string_view`: the text, and the bytes that memory holds behind it. -/
structure StringView where
  text : List UInt8
  beyond : Nat → UInt8

/-- `_txt[position]`, and also the character a pointer reads there. -/
def StringView.get (view : StringView) (position : Nat) : UInt8 :=
  view.text.getD position (view.beyond (position - view.text.length))

/-- A read of a character, by the padding test or through the source iterator. -/
inductive Read where
  | padding (position : Nat)
  | source (position : Nat)
  deriving DecidableEq, Repr

/-! ## What the functions use of Boost -/

/-- `transform_width<binary_from_base64<const char*>, 8, 6>`: an iterator that pulls
6-bit digits from a source position and delivers bytes. -/
structure TransformWidth where
  Iter : Type
  ofBase : Nat → Iter
  base : Iter → Nat
  /-- The bits pulled from the source and not yet delivered. -/
  pulled : Iter → List Bool
  equal : Iter → Iter → Bool
  /-- `*it` followed by `++it`; the function argument dereferences the source. -/
  next : (Nat → Traced Unit Read (BitVec 6)) → Iter → Traced Unit Read (BitVec 8 × Iter)

structure Boost where
  /-- `base64_from_binary` -/
  base64FromBinary : BitVec 6 → UInt8
  /-- `binary_from_base64`; no value stands for the exception. -/
  binaryFromBase64 : UInt8 → Option (BitVec 6)
  /-- The range that `transform_width<const char*, 6, 8>` makes of a range of characters. -/
  narrow : List UInt8 → List (BitVec 6)
  widen : TransformWidth

/-- The character `=`. -/
def pad : UInt8 := 61

/-- The standard alphabet: `A` to `Z`, `a` to `z`, `0` to `9`, `+` and `/`. -/
def alphabet (digit : BitVec 6) : UInt8 :=
  let n := digit.toNat
  if n < 26 then UInt8.ofNat (65 + n)
  else if n < 52 then UInt8.ofNat (97 + (n - 26))
  else if n < 62 then UInt8.ofNat (48 + (n - 52))
  else if n = 62 then 43
  else 47

/-- Neither a character of the alphabet nor `=`. -/
def Foreign (c : UInt8) : Prop := c ≠ pad ∧ ∀ digit, alphabet digit ≠ c

def bytesBits (bytes : List UInt8) : List Bool := bitsOf (bytes.map UInt8.toBitVec)

structure Boost.Documented (boost : Boost) : Prop where
  encodes : ∀ digit, boost.base64FromBinary digit = alphabet digit
  decodes : ∀ digit, boost.binaryFromBase64 (alphabet digit) = some digit
  decodesPad : boost.binaryFromBase64 pad = some 0
  rejects : ∀ c, Foreign c → boost.binaryFromBase64 c = none
  narrows : ∀ bytes, boost.narrow bytes = groups 6 (padded 6 (bytesBits bytes))
  base_ofBase : ∀ position, boost.widen.base (boost.widen.ofBase position) = position
  pulled_ofBase : ∀ position, boost.widen.pulled (boost.widen.ofBase position) = []
  equal_iff : ∀ it other, boost.widen.equal it other = true ↔
    boost.widen.base it = boost.widen.base other
  /-- While bits are lacking for a byte, the next source element is pulled. -/
  pulls : ∀ source it, (boost.widen.pulled it).length < 8 →
    ∃ fetched : BitVec 6 → boost.widen.Iter,
      (∀ digit, boost.widen.base (fetched digit) = boost.widen.base it + 1 ∧
        boost.widen.pulled (fetched digit) = boost.widen.pulled it ++ toBits digit) ∧
      boost.widen.next source it =
        source (boost.widen.base it) >>= fun digit => boost.widen.next source (fetched digit)
  delivers : ∀ source it, 8 ≤ (boost.widen.pulled it).length →
    ∃ after, boost.widen.base after = boost.widen.base it ∧
      boost.widen.pulled after = (boost.widen.pulled it).drop 8 ∧
      boost.widen.next source it = pure (ofBits 8 (boost.widen.pulled it), after)

/-! ## The functions -/

/-- `base64_padding` -/
def base64Padding : Nat → List UInt8
  | 1 => [pad, pad]
  | 2 => [pad]
  | _ => []

def base64Encode (boost : Boost) (text : List UInt8) : List UInt8 :=
  (boost.narrow text).map boost.base64FromBinary ++ base64Padding (text.length % 3)

def isPadding (view : StringView) (position : Nat) : Traced Unit Read Bool := do
  Traced.emit (.padding position)
  pure (view.get position == pad)

/-- The `unsigned int size` of `base64_decode`, after the padding is removed. -/
def decodeSize (view : StringView) : Traced Unit Read Nat :=
  -- `size_t` to `unsigned int`
  let size := view.text.length % 2 ^ 32
  if size = 0 then pure size
  else do
    let last ← isPadding view (size - 1)
    if !last then pure size
    -- `--size`, and the second test is guarded by `size` again
    else if size - 1 = 0 then pure (size - 1)
    else do
      let previous ← isPadding view (size - 1 - 1)
      if previous then pure (size - 1 - 1) else pure (size - 1)

/-- `binary_from_base64` over a pointer into the text. -/
def decodeSource (boost : Boost) (view : StringView) (position : Nat) :
    Traced Unit Read (BitVec 6) := do
  Traced.emit (.source position)
  match boost.binaryFromBase64 (view.get position) with
  | some digit => pure digit
  | none => Traced.raise

/-- `std::copy`, with a budget of steps: the loop ends on equality with `last` only. -/
def copy (widen : TransformWidth) (source : Nat → Traced Unit Read (BitVec 6))
    (last : widen.Iter) : Nat → widen.Iter → Traced Unit Read (List UInt8)
  | 0, _ => Traced.outOfSteps
  | fuel + 1, it =>
    if widen.equal it last then pure []
    else do
      let (byte, it) ← widen.next source it
      let bytes ← copy widen source last fuel it
      pure (UInt8.ofBitVec byte :: bytes)

def base64Decode (boost : Boost) (fuel : Nat) (view : StringView) :
    Traced Unit Read (List UInt8) := do
  let size ← decodeSize view
  if size = 0 then pure []
  else
    copy boost.widen (decodeSource boost view) (boost.widen.ofBase size) fuel
      (boost.widen.ofBase 0)

/-! ## A Boost that behaves as documented -/

namespace Reference

/-- A source position and the bits pulled so far. -/
abbrev Iter := Nat × List Bool

def next (source : Nat → Traced Unit Read (BitVec 6)) (it : Iter) :
    Traced Unit Read (BitVec 8 × Iter) :=
  if it.2.length < 8 then do
    let digit ← source it.1
    next source (it.1 + 1, it.2 ++ toBits digit)
  else pure (ofBits 8 it.2, (it.1, it.2.drop 8))
termination_by 8 - it.2.length
decreasing_by
  rw [List.length_append, toBits_length]
  omega

theorem next_lacking (source : Nat → Traced Unit Read (BitVec 6)) {it : Iter}
    (lacking : it.2.length < 8) :
    next source it = source it.1 >>= fun digit => next source (it.1 + 1, it.2 ++ toBits digit) := by
  rw [next, if_pos lacking]

theorem next_enough (source : Nat → Traced Unit Read (BitVec 6)) {it : Iter}
    (enough : 8 ≤ it.2.length) : next source it = pure (ofBits 8 it.2, (it.1, it.2.drop 8)) := by
  rw [next, if_neg (by omega)]

def boost : Boost where
  base64FromBinary := alphabet
  binaryFromBase64 c :=
    if c = pad then some 0
    else ((List.range 64).map (BitVec.ofNat 6)).find? fun digit => alphabet digit == c
  narrow bytes := groups 6 (padded 6 (bytesBits bytes))
  widen :=
    { Iter := Iter
      ofBase := fun position => (position, [])
      base := Prod.fst
      pulled := Prod.snd
      equal := fun it other => it.1 == other.1
      next := next }

theorem documented : boost.Documented where
  encodes _ := rfl
  decodes := by decide +kernel
  decodesPad := by decide
  rejects := by
    intro c ⟨notPad, foreign⟩
    simp only [boost, notPad, if_false, List.find?_eq_none]
    intro digit _
    simpa using foreign digit
  narrows _ := rfl
  base_ofBase _ := rfl
  pulled_ofBase _ := rfl
  equal_iff _ _ := beq_iff_eq
  pulls source it lacking :=
    ⟨fun digit => (it.1 + 1, it.2 ++ toBits digit), fun _ => ⟨rfl, rfl⟩,
      next_lacking source lacking⟩
  delivers source it enough :=
    ⟨(it.1, it.2.drop 8), rfl, rfl, next_enough source enough⟩

end Reference

end MyappsCommon.Utility.Base64
