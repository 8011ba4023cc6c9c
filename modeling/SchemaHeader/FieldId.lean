import SchemaHeader.FieldId.DeclaredType
import SchemaHeader.Text

/-! Field IDs: a field's number, declared type and cardinality in one 64-bit word. -/
namespace SchemaHeader

/-- A run of adjacent bits in a 64-bit word. -/
structure BitField where
  shift : UInt64
  width : UInt64

namespace BitField

variable (f : BitField)

/-- The word in which exactly the bits of the field are set. -/
def mask : UInt64 := ((1 <<< f.width) - 1) <<< f.shift

def place (value : UInt64) : UInt64 := value <<< f.shift

def read (word : UInt64) : UInt64 := (word &&& f.mask) >>> f.shift

end BitField

structure FieldId where
  raw : UInt64
  deriving DecidableEq

namespace FieldId

def numberBits : BitField := ⟨0, 32⟩
def typeBits : BitField := ⟨32, 8⟩
def cardinalityBits : BitField := ⟨40, 4⟩

/-- A negative number is kept as its 32 bits. -/
def ofParts (number : Int32) (type : DeclaredType) (cardinality : Cardinality) : FieldId where
  raw := numberBits.place number.toUInt32.toUInt64 ||| typeBits.place type.code |||
    cardinalityBits.place cardinality.code

/-- A field has an ID when its declared type is known. -/
def ofField? (f : FieldDescriptor) : Option FieldId :=
  f.declaredType?.map fun type => ofParts f.number type f.cardinality

variable (id : FieldId)

def number : UInt32 := (numberBits.read id.raw).toUInt32

def type? : Option DeclaredType := DeclaredType.ofCode? (typeBits.read id.raw)

def cardinality? : Option Cardinality := Cardinality.ofCode? (cardinalityBits.read id.raw)

/-- The constant as it stands in a header. -/
def literal : String :=
  "0x" ++ String.ofList (Text.hexDigits 16 id.raw.toNat) ++ "ULL"

/-- IDs by rising value, each once. -/
def sorted (ids : List FieldId) : List FieldId :=
  (ids.mergeSort fun a b => a.raw ≤ b.raw).eraseReps

end FieldId

end SchemaHeader
