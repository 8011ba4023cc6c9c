import SchemaHeader.Descriptor
import SchemaHeader.Wire.Grammar

/-! Descriptors as records: reading one takes the fields that a header is made from, and writing
one gives those fields in the order of their numbers. -/
namespace SchemaHeader

open Wire (Record Value)

namespace FieldOptions

def ofRecord (r : Record) : FieldOptions where
  packed? := r.last? 2 Value.bool?

def toRecord (o : FieldOptions) : Record :=
  .single 2 .bool o.packed?

end FieldOptions

namespace FieldDescriptor

def ofRecord (r : Record) : FieldDescriptor where
  name? := r.last? 1 Value.text?
  number? := r.last? 3 Value.int32?
  label? := r.last? 4 Value.int32?
  type? := r.last? 5 Value.int32?
  typeName? := r.last? 6 Value.text?
  options? := (r.merged? 8).map FieldOptions.ofRecord

def toRecord (f : FieldDescriptor) : Record :=
  .single 1 .text f.name? ++ .single 3 .int32 f.number? ++ .single 4 .int32 f.label? ++
    .single 5 .int32 f.type? ++ .single 6 .text f.typeName? ++
    .single 8 (.message ·.toRecord) f.options?

end FieldDescriptor

namespace EnumValue

def ofRecord (r : Record) : EnumValue where
  name? := r.last? 1 Value.text?
  number? := r.last? 2 Value.int32?

def toRecord (v : EnumValue) : Record :=
  .single 1 .text v.name? ++ .single 2 .int32 v.number?

end EnumValue

namespace EnumDescriptor

def ofRecord (r : Record) : EnumDescriptor where
  name? := r.last? 1 Value.text?
  values := (r.all 2 Value.message?).map EnumValue.ofRecord

def toRecord (e : EnumDescriptor) : Record :=
  .single 1 .text e.name? ++ .each 2 (.message ·.toRecord) e.values

end EnumDescriptor

namespace MessageDescriptor

/-- All but the nested messages is read off `r`. -/
def ofRecord (r : Record) (nested : List MessageDescriptor) : MessageDescriptor where
  name? := r.last? 1 Value.text?
  fields := (r.all 2 Value.message?).map FieldDescriptor.ofRecord
  nested := nested
  enums := (r.all 4 Value.message?).map EnumDescriptor.ofRecord

mutual

/-- The message that a value holds; one without fields where it holds something else. -/
def ofValue : Value → MessageDescriptor
  | .message r => ofRecord r (ofOccurrences 3 r)
  | _ => {}

def ofOccurrences (field : Nat) : List (Nat × Value) → List MessageDescriptor
  | [] => []
  | (n, v) :: rest =>
    if n = field then ofValue v :: ofOccurrences field rest else ofOccurrences field rest

end

mutual

def toRecord : MessageDescriptor → Record
  | ⟨name?, fields, nested, enums⟩ =>
    .single 1 .text name? ++ .each 2 (.message ·.toRecord) fields ++ toOccurrences 3 nested ++
      .each 4 (.message ·.toRecord) enums

def toOccurrences (field : Nat) : List MessageDescriptor → Record
  | [] => []
  | m :: rest => (field, .message m.toRecord) :: toOccurrences field rest

end

end MessageDescriptor

namespace FileDescriptor

def ofRecord (r : Record) : FileDescriptor where
  name? := r.last? 1 Value.text?
  package? := r.last? 2 Value.text?
  messages := MessageDescriptor.ofOccurrences 4 r
  enums := (r.all 5 Value.message?).map EnumDescriptor.ofRecord

def toRecord (f : FileDescriptor) : Record :=
  .single 1 .text f.name? ++ .single 2 .text f.package? ++
    MessageDescriptor.toOccurrences 4 f.messages ++ .each 5 (.message ·.toRecord) f.enums

end FileDescriptor

end SchemaHeader
