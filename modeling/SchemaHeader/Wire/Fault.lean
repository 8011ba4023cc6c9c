/-! What can be wrong with the bytes of a message, and the sentence for it. -/
namespace SchemaHeader.Wire

/-- How the value that follows a key is laid out. -/
inductive WireType where
  | varint
  | sixtyFourBit
  | lengthDelimited
  | startGroup
  | endGroup
  | thirtyTwoBit
  deriving DecidableEq

namespace WireType

def code : WireType → Nat
  | .varint => 0
  | .sixtyFourBit => 1
  | .lengthDelimited => 2
  | .startGroup => 3
  | .endGroup => 4
  | .thirtyTwoBit => 5

def ofCode? : Nat → Option WireType
  | 0 => some .varint
  | 1 => some .sixtyFourBit
  | 2 => some .lengthDelimited
  | 3 => some .startGroup
  | 4 => some .endGroup
  | 5 => some .thirtyTwoBit
  | _ => none

theorem ofCode?_code (t : WireType) : ofCode? t.code = some t := by
  cases t <;> rfl

def name : WireType → String
  | .varint => "Varint"
  | .sixtyFourBit => "SixtyFourBit"
  | .lengthDelimited => "LengthDelimited"
  | .startGroup => "StartGroup"
  | .endGroup => "EndGroup"
  | .thirtyTwoBit => "ThirtyTwoBit"

end WireType

inductive Cause where
  | invalidVarint
  | keyTooLarge (key : Nat)
  | unknownWireType (code : Nat)
  | fieldNumberZero
  | wrongWireType (actual expected : WireType)
  | bufferUnderflow
  | notUtf8
  /-- The last value of a block does not end where the block ends. -/
  | lengthExceeded
  | tooDeep
  | endOfOtherGroup
  deriving DecidableEq

def Cause.text : Cause → String
  | .invalidVarint => "invalid varint"
  | .keyTooLarge key => "invalid key value: " ++ toString key
  | .unknownWireType code => "invalid wire type value: " ++ toString code
  | .fieldNumberZero => "invalid tag value: 0"
  | .wrongWireType actual expected =>
    "invalid wire type: " ++ actual.name ++ " (expected " ++ expected.name ++ ")"
  | .bufferUnderflow => "buffer underflow"
  | .notUtf8 => "invalid string value: data is not UTF-8 encoded"
  | .lengthExceeded => "delimited length exceeded"
  | .tooDeep => "recursion limit reached"
  | .endOfOtherGroup => "unexpected end group tag"

/-- A cause, and the fields inside which it arose, the innermost first: each with the title of
its message and its own name. -/
structure Fault where
  cause : Cause
  within : List (String × String) := []
  deriving DecidableEq

namespace Fault

def inside (title field : String) (f : Fault) : Fault :=
  { f with within := f.within ++ [(title, field)] }

def text (f : Fault) : String :=
  "failed to decode Protobuf message: " ++
    String.join (f.within.map fun (title, field) => title ++ "." ++ field ++ ": ") ++ f.cause.text

end Fault

end SchemaHeader.Wire
