import SchemaHeader.Text
import SchemaHeader.Wire.Grammar
import SchemaHeader.Wire.Key

/-! Writing messages. -/
namespace SchemaHeader.Wire

/-- A negative number is written with the 64 bits of its two's complement. -/
def varintOfInt32 (n : Int32) : List UInt8 :=
  Varint.encode n.toInt64.toUInt64.toNat

/-- The `count` lowest bytes of a word, the lowest first. -/
def bytesOfWord : (count : Nat) → UInt64 → List UInt8
  | 0, _ => []
  | count + 1, n => n.toUInt8 :: bytesOfWord count (n >>> 8)

def Value.wireType : Value → WireType
  | .text _ | .bytes _ | .packed _ | .message _ => .lengthDelimited
  | .int32 _ | .word _ | .bool _ => .varint
  | .double _ => .sixtyFourBit

mutual

def Value.encode : Value → List UInt8
  | .text s => delimited (Text.utf8Bytes s)
  | .bytes bs => delimited bs
  | .int32 n => varintOfInt32 n
  | .packed ns => delimited (ns.flatMap varintOfInt32)
  | .word n => Varint.encode n.toNat
  | .bool b => Varint.encode b.toNat
  | .double bits => bytesOfWord 8 bits
  | .message r => delimited (encode r)

/-- The occurrences in the order of the record. -/
def encode : List (Nat × Value) → List UInt8
  | [] => []
  | (field, v) :: rest =>
    Key.encode ⟨field, v.wireType⟩ ++ Value.encode v ++ encode rest

end

end SchemaHeader.Wire
