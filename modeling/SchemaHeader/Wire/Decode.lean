import SchemaHeader.Text
import SchemaHeader.Wire.Grammar
import SchemaHeader.Wire.Key

/-! Reading messages by a grammar. -/
namespace SchemaHeader.Wire

/-- The low 32 bits of a varint as a signed number. -/
def int32OfVarint (n : Nat) : Int32 := (UInt32.ofNat n).toInt32

/-- The word that eight bytes hold, the lowest first. -/
def wordOfBytes : List UInt8 → UInt64
  | [] => 0
  | b :: rest => b.toUInt64 ||| (wordOfBytes rest <<< 8)

def expect (actual expected : WireType) : Reader Unit :=
  if actual = expected then pure () else fail (.wrongWireType actual expected)

def int32 : Reader Int32 := int32OfVarint <$> varint

variable {σ α : Type}

/-- A value of the given kind. `enter?` reads the fields of a message out of a block; there is
none where messages may not go deeper. -/
def value (enter? : Option (σ → Reader Record)) (wireType : WireType) : Kind σ → Reader Value
  | .text => do
    expect wireType .lengthDelimited
    match Text.ofUtf8Bytes? (← block) with
    | some s => pure (.text s)
    | none => fail .notUtf8
  | .bytes => do
    expect wireType .lengthDelimited
    return .bytes (← block)
  | .int32 => do
    expect wireType .varint
    return .int32 (← int32)
  | .int32s => do
    if wireType = .lengthDelimited then return .packed (← blockOf int32)
    else
      expect wireType .varint
      return .int32 (← int32)
  | .word => do
    expect wireType .varint
    return .word (UInt64.ofNat (← varint))
  | .bool => do
    expect wireType .varint
    return .bool ((← varint) != 0)
  | .double => do
    expect wireType .sixtyFourBit
    return .double (wordOfBytes (← chunk 8))
  | .message shape => do
    expect wireType .lengthDelimited
    match enter? with
    | some enter => return .message (← enter shape)
    | none => fail .tooDeep

/-- A fault that arises in `reader` arose inside the field. -/
def inside (title field : String) (reader : Reader α) : Reader α := fun input =>
  (reader input).mapError (·.inside title field)

/-- One occurrence of a field, or none where the field is not in the grammar. -/
def occurrence (g : Grammar σ) (depth : Nat) (enter? : Option (σ → Reader Record)) (shape : σ) :
    Reader (Option (Nat × Value)) := do
  let k ← key
  match g.rule? shape k.field with
  | some rule =>
    let v ← inside (g.title shape) rule.name (value enter? k.wireType rule.kind)
    return some (k.field, v)
  | none =>
    skip depth k
    return none

/-- One occurrence in a message below which there can be `depth` levels of messages. -/
def occurrenceAt (g : Grammar σ) : (depth : Nat) → (shape : σ) → Reader (Option (Nat × Value))
  | 0 => occurrence g 0 none
  | depth + 1 => occurrence g (depth + 1) (some fun shape =>
      (·.reduceOption) <$> blockOf (occurrenceAt g depth shape))

/-- The number of levels of messages that there can be below the outermost one. -/
def depthLimit : Nat := 100

/-- The message of the given shape that the bytes hold. -/
def decode (g : Grammar σ) (shape : σ) (bytes : List UInt8) : Except Fault Record := do
  let (occurrences, _) ← many (occurrenceAt g depthLimit shape) bytes.length (.ofBytes bytes)
  return occurrences.reduceOption

end SchemaHeader.Wire
