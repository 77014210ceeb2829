import MyappsCommon.Lib.Traced

/-! # Reflection

The part of solid's reflector that the messages use.  A message describes itself
once, by `add` calls; a const reflector writes the fields it is shown, a
non-const one reads them.  The `add` calls are visited in order, and an added
closure runs after the fields added before it, so that both kinds are sequences
in one monad whose state is the stream of basic fields.
-/

namespace MyappsCommon.Reflection

open MyappsCommon.Lib

inductive Field where
  | u32 (value : UInt32)
  | u64 (value : UInt64)
  | str (value : List UInt8)
  deriving DecidableEq, Repr

/-- One `add` call for a basic field, by the index and the name it is given. -/
structure Access where
  index : Nat
  name : String
  deriving DecidableEq, Repr

abbrev ReflectM := Traced (List Field) Access

structure Reflector where
  isConstReflector : Bool
  /-- Transfer a field; the result is the value the object holds afterwards. -/
  u32 : UInt32 → ReflectM UInt32
  u64 : UInt64 → ReflectM UInt64
  str : List UInt8 → ReflectM (List UInt8)

/-- `_r.add(field, _rctx, index, name)` for a 32-bit field. -/
def Reflector.addU32 (r : Reflector) (value : UInt32) (index : Nat) (name : String) :
    ReflectM UInt32 := do
  Traced.emit ⟨index, name⟩
  r.u32 value

def Reflector.addU64 (r : Reflector) (value : UInt64) (index : Nat) (name : String) :
    ReflectM UInt64 := do
  Traced.emit ⟨index, name⟩
  r.u64 value

def Reflector.addStr (r : Reflector) (value : List UInt8) (index : Nat) (name : String) :
    ReflectM (List UInt8) := do
  Traced.emit ⟨index, name⟩
  r.str value

/-- The const reflector: every field is appended to the stream. -/
def writer : Reflector where
  isConstReflector := true
  u32 value := do
    Traced.modifyState (· ++ [.u32 value])
    pure value
  u64 value := do
    Traced.modifyState (· ++ [.u64 value])
    pure value
  str value := do
    Traced.modifyState (· ++ [.str value])
    pure value

/-- The non-const reflector: every field is taken from the front of the stream, and
the message is refused when the stream has no such field. -/
def reader : Reflector where
  isConstReflector := false
  u32 _ := ⟨fun
    | .u32 value :: rest => ⟨.ok value, rest, []⟩
    | stream => ⟨.raised, stream, []⟩⟩
  u64 _ := ⟨fun
    | .u64 value :: rest => ⟨.ok value, rest, []⟩
    | stream => ⟨.raised, stream, []⟩⟩
  str _ := ⟨fun
    | .str value :: rest => ⟨.ok value, rest, []⟩
    | stream => ⟨.raised, stream, []⟩⟩

@[simp] theorem writer_isConstReflector : writer.isConstReflector = true := rfl
@[simp] theorem reader_isConstReflector : reader.isConstReflector = false := rfl

@[simp] theorem run_writer_addU32 (value : UInt32) (index : Nat) (name : String)
    (stream : List Field) :
    (writer.addU32 value index name).run stream =
      ⟨.ok value, stream ++ [.u32 value], [⟨index, name⟩]⟩ := rfl

@[simp] theorem run_reader_addU32 (old value : UInt32) (index : Nat) (name : String)
    (rest : List Field) :
    (reader.addU32 old index name).run (.u32 value :: rest) =
      ⟨.ok value, rest, [⟨index, name⟩]⟩ := rfl

@[simp] theorem run_writer_addU64 (value : UInt64) (index : Nat) (name : String)
    (stream : List Field) :
    (writer.addU64 value index name).run stream =
      ⟨.ok value, stream ++ [.u64 value], [⟨index, name⟩]⟩ := rfl

@[simp] theorem run_reader_addU64 (old value : UInt64) (index : Nat) (name : String)
    (rest : List Field) :
    (reader.addU64 old index name).run (.u64 value :: rest) =
      ⟨.ok value, rest, [⟨index, name⟩]⟩ := rfl

@[simp] theorem run_writer_addStr (value : List UInt8) (index : Nat) (name : String)
    (stream : List Field) :
    (writer.addStr value index name).run stream =
      ⟨.ok value, stream ++ [.str value], [⟨index, name⟩]⟩ := rfl

@[simp] theorem run_reader_addStr (old value : List UInt8) (index : Nat) (name : String)
    (rest : List Field) :
    (reader.addStr old index name).run (.str value :: rest) =
      ⟨.ok value, rest, [⟨index, name⟩]⟩ := rfl

@[simp] theorem run_reader_addU32_nil (old : UInt32) (index : Nat) (name : String) :
    (reader.addU32 old index name).run [] = ⟨.raised, [], [⟨index, name⟩]⟩ := rfl

end MyappsCommon.Reflection
