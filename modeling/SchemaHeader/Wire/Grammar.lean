import SchemaHeader.Wire.Fault

/-! Which fields a message has, and the values that they hold. -/
namespace SchemaHeader.Wire

variable {σ : Type}

/-- What a field holds. A message is named by its shape. -/
inductive Kind (σ : Type) where
  | text
  | bytes
  | int32
  /-- Any number of occurrences, each with one number or packed with many. -/
  | int32s
  | word
  | bool
  | double
  | message (shape : σ)

/-- The layout that a field of this kind is written in. -/
def Kind.wireType : Kind σ → WireType
  | .text | .bytes | .message _ => .lengthDelimited
  | .int32 | .int32s | .word | .bool => .varint
  | .double => .sixtyFourBit

structure Rule (σ : Type) where
  name : String
  kind : Kind σ

/-- The title of each shape of message, and its fields by number. -/
structure Grammar (σ : Type) where
  title : σ → String
  rule? : σ → Nat → Option (Rule σ)

inductive Value where
  | text (s : String)
  | bytes (bs : List UInt8)
  | int32 (n : Int32)
  | packed (ns : List Int32)
  | word (n : UInt64)
  | bool (b : Bool)
  | double (bits : UInt64)
  | message (occurrences : List (Nat × Value))

/-- The fields of a message as they occur, each with its number. -/
abbrev Record := List (Nat × Value)

namespace Value

def text? : Value → Option String
  | .text s => some s
  | _ => none

def int32? : Value → Option Int32
  | .int32 n => some n
  | _ => none

def word? : Value → Option UInt64
  | .word n => some n
  | _ => none

def bool? : Value → Option Bool
  | .bool b => some b
  | _ => none

def message? : Value → Option Record
  | .message r => some r
  | _ => none

end Value

namespace Record

variable {α : Type} (r : Record) (field : Nat) (pick : Value → Option α)

/-- What every occurrence of the field holds. -/
def all : List α :=
  r.filterMap fun (n, v) => if n = field then pick v else none

/-- The last occurrence of a field counts. -/
def last? : Option α := (r.all field pick).getLast?

/-- The occurrences of a single message are read as parts of one. -/
def merged? : Option Record :=
  match r.all field Value.message? with
  | [] => none
  | parts => some parts.flatten

/-- The occurrence of a field that may be absent. -/
def single (field : Nat) (wrap : α → Value) (a? : Option α) : Record :=
  a?.toList.map fun a => (field, wrap a)

/-- One occurrence for each member of a list. -/
def each (field : Nat) (wrap : α → Value) (as : List α) : Record :=
  as.map fun a => (field, wrap a)

end Record

end SchemaHeader.Wire
