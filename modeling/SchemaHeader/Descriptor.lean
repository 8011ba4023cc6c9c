/-! Descriptors of schema files, with what a header is made from. A name ending in `?` is a field
that may be absent; the same name without it reads an absent text as empty and an absent number
as zero. -/
namespace SchemaHeader

structure FieldOptions where
  packed? : Option Bool := none
  deriving DecidableEq

structure FieldDescriptor where
  name? : Option String := none
  number? : Option Int32 := none
  label? : Option Int32 := none
  type? : Option Int32 := none
  typeName? : Option String := none
  options? : Option FieldOptions := none
  deriving DecidableEq

structure EnumValue where
  name? : Option String := none
  number? : Option Int32 := none
  deriving DecidableEq

structure EnumDescriptor where
  name? : Option String := none
  values : List EnumValue := []
  deriving DecidableEq

structure MessageDescriptor where
  name? : Option String := none
  fields : List FieldDescriptor := []
  nested : List MessageDescriptor := []
  enums : List EnumDescriptor := []

structure FileDescriptor where
  name? : Option String := none
  package? : Option String := none
  messages : List MessageDescriptor := []
  enums : List EnumDescriptor := []

def FieldDescriptor.name (f : FieldDescriptor) : String := f.name?.getD ""
def FieldDescriptor.number (f : FieldDescriptor) : Int32 := f.number?.getD 0
def FieldDescriptor.typeName (f : FieldDescriptor) : String := f.typeName?.getD ""
def EnumValue.name (v : EnumValue) : String := v.name?.getD ""
def EnumValue.number (v : EnumValue) : Int32 := v.number?.getD 0
def EnumDescriptor.name (e : EnumDescriptor) : String := e.name?.getD ""
def MessageDescriptor.name (m : MessageDescriptor) : String := m.name?.getD ""
def FileDescriptor.name (f : FileDescriptor) : String := f.name?.getD ""
def FileDescriptor.package (f : FileDescriptor) : String := f.package?.getD ""

inductive Label where
  | optional
  | required
  | repeated
  deriving DecidableEq

/-- A label that is absent or unknown counts as optional. -/
def FieldDescriptor.label (f : FieldDescriptor) : Label :=
  match f.label? with
  | some 2 => .required
  | some 3 => .repeated
  | _ => .optional

/-- The option has to be there and to be true. -/
def FieldDescriptor.isPacked (f : FieldDescriptor) : Bool :=
  (f.options?.bind (·.packed?)).getD false

mutual

/-- The number of messages in the tree, its root included. -/
def MessageDescriptor.size : MessageDescriptor → Nat
  | ⟨_, _, nested, _⟩ => MessageDescriptor.sizes nested + 1

def MessageDescriptor.sizes : List MessageDescriptor → Nat
  | [] => 0
  | m :: rest => m.size + MessageDescriptor.sizes rest

end

end SchemaHeader
