import SchemaHeader.Descriptor

/-! The types a field can be declared with, and how often it can occur, with their codes. -/
namespace SchemaHeader

inductive DeclaredType where
  | double | float | int64 | uint64 | int32 | fixed64 | fixed32 | bool | string
  | group | message | bytes | uint32 | enum | sfixed32 | sfixed64 | sint32 | sint64
  deriving DecidableEq

namespace DeclaredType

/-- Every type, by rising code. -/
def all : List DeclaredType :=
  [.double, .float, .int64, .uint64, .int32, .fixed64, .fixed32, .bool, .string,
   .group, .message, .bytes, .uint32, .enum, .sfixed32, .sfixed64, .sint32, .sint64]

def code : DeclaredType → UInt64
  | .double => 1 | .float => 2 | .int64 => 3 | .uint64 => 4 | .int32 => 5 | .fixed64 => 6
  | .fixed32 => 7 | .bool => 8 | .string => 9 | .group => 10 | .message => 11 | .bytes => 12
  | .uint32 => 13 | .enum => 14 | .sfixed32 => 15 | .sfixed64 => 16 | .sint32 => 17 | .sint64 => 18

/-- The word a schema uses for the type. -/
def keyword : DeclaredType → String
  | .double => "double" | .float => "float" | .int64 => "int64" | .uint64 => "uint64"
  | .int32 => "int32" | .fixed64 => "fixed64" | .fixed32 => "fixed32" | .bool => "bool"
  | .string => "string" | .group => "group" | .message => "message" | .bytes => "bytes"
  | .uint32 => "uint32" | .enum => "enum" | .sfixed32 => "sfixed32" | .sfixed64 => "sfixed64"
  | .sint32 => "sint32" | .sint64 => "sint64"

def ofCode? (code : UInt64) : Option DeclaredType :=
  all.find? (·.code == code)

end DeclaredType

inductive Cardinality where
  | single
  | repeated
  | packed
  deriving DecidableEq

namespace Cardinality

def all : List Cardinality := [.single, .repeated, .packed]

def code : Cardinality → UInt64
  | .single => 1
  | .repeated => 2
  | .packed => 5

def ofCode? (code : UInt64) : Option Cardinality :=
  all.find? (·.code == code)

end Cardinality

namespace FieldDescriptor

variable (f : FieldDescriptor)

/-- No type where none is declared or the number declared stands for none. -/
def declaredType? : Option DeclaredType :=
  f.type?.bind fun number => DeclaredType.ofCode? number.toUInt32.toUInt64

/-- A packed field is packed whatever its label. -/
def cardinality : Cardinality :=
  if f.isPacked then .packed else if f.label = .repeated then .repeated else .single

end FieldDescriptor

end SchemaHeader
