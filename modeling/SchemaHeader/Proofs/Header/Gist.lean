import SchemaHeader.Proofs.Descriptor.Tree
import SchemaHeader.FieldId.DeclaredType
import SchemaHeader.Text

/-! What the text of a header tells of its schema. An absent part and one with the value it is
read as are told apart nowhere. -/
namespace SchemaHeader

structure FieldGist where
  name : String
  number : Int32
  label : Label
  type? : Option DeclaredType
  typeName? : Option String
  isPacked : Bool
  deriving DecidableEq

structure EnumGist where
  name : String
  values : List (String × Int32)
  deriving DecidableEq

structure MessageGist where
  name : String
  enums : List EnumGist
  nested : List MessageGist
  fields : List FieldGist

structure FileGist where
  name : String
  scopes : List String
  enums : List EnumGist
  messages : List MessageGist

/-- The name of the type where it is not one of the scalar types. -/
def FieldDescriptor.namedType? (f : FieldDescriptor) : Option String :=
  if f.declaredType? ∈ [some .message, some .enum, some .group] then some f.typeName else none

def FieldDescriptor.gist (f : FieldDescriptor) : FieldGist :=
  ⟨f.name, f.number, f.label, f.declaredType?, f.namedType?, f.isPacked⟩

def EnumDescriptor.gist (e : EnumDescriptor) : EnumGist :=
  ⟨e.name, e.values.map fun v => (v.name, v.number)⟩

mutual

def MessageDescriptor.gist : MessageDescriptor → MessageGist
  | ⟨name?, fields, nested, enums⟩ =>
    ⟨name?.getD "", enums.map EnumDescriptor.gist, MessageDescriptor.gists nested,
      fields.map FieldDescriptor.gist⟩

def MessageDescriptor.gists : List MessageDescriptor → List MessageGist
  | [] => []
  | m :: rest => m.gist :: MessageDescriptor.gists rest

end

def FileDescriptor.gist (f : FileDescriptor) : FileGist :=
  ⟨f.name, Text.segments f.package '.', f.enums.map EnumDescriptor.gist,
    MessageDescriptor.gists f.messages⟩

namespace MessageDescriptor

theorem gists_eq_map (ms : List MessageDescriptor) : gists ms = ms.map gist := by
  induction ms with
  | nil => rfl
  | cons m rest ih => rw [gists, ih, List.map_cons]

theorem gist_eq (m : MessageDescriptor) : m.gist =
    ⟨m.name, m.enums.map EnumDescriptor.gist, m.nested.map gist,
      m.fields.map FieldDescriptor.gist⟩ := by
  obtain ⟨name?, fields, nested, enums⟩ := m
  rw [gist, gists_eq_map]
  rfl

end MessageDescriptor

end SchemaHeader
