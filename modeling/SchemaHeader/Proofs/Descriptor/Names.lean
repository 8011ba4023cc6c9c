import SchemaHeader.Proofs.Descriptor.Tree
import SchemaHeader.Proofs.Text.Identifier

/-! Schemas whose elements all have names of the usual form, and schemas as a parser of schema
files hands them over. -/
namespace SchemaHeader

open Text (isIdentifier isPathChar)

def EnumDescriptor.IsWellNamed (e : EnumDescriptor) : Prop :=
  isIdentifier e.name ∧ ∀ v ∈ e.values, isIdentifier v.name

/-- Only the message itself counts, with its fields and its enums. -/
def MessageDescriptor.IsWellNamed (m : MessageDescriptor) : Prop :=
  isIdentifier m.name ∧ (∀ e ∈ m.enums, e.IsWellNamed) ∧ ∀ x ∈ m.fields, isIdentifier x.name

def FileDescriptor.IsWellNamed (f : FileDescriptor) : Prop :=
  (∀ e ∈ f.enums, e.IsWellNamed) ∧ ∀ m ∈ f.everyMessage, m.IsWellNamed

instance (e : EnumDescriptor) : Decidable e.IsWellNamed :=
  inferInstanceAs (Decidable (_ ∧ _))

instance (m : MessageDescriptor) : Decidable m.IsWellNamed :=
  inferInstanceAs (Decidable (_ ∧ _ ∧ _))

instance (f : FileDescriptor) : Decidable f.IsWellNamed :=
  inferInstanceAs (Decidable (_ ∧ _))

/-- The types of the fields have names too, which are paths. -/
structure MessageDescriptor.IsRegular (m : MessageDescriptor) : Prop where
  names : m.IsWellNamed
  types : ∀ x ∈ m.fields, ∀ c ∈ x.typeName.toList, isPathChar c

structure FileDescriptor.IsRegular (f : FileDescriptor) : Prop where
  file : '\n' ∉ f.name.toList
  package : ∀ c ∈ f.package.toList, isPathChar c
  enums : ∀ e ∈ f.enums, e.IsWellNamed
  messages : ∀ m ∈ f.everyMessage, m.IsRegular

instance (m : MessageDescriptor) : Decidable m.IsRegular :=
  decidable_of_iff (m.IsWellNamed ∧ ∀ x ∈ m.fields, x.typeName.toList.all isPathChar)
    ⟨fun h => ⟨h.1, fun x hx => List.all_eq_true.mp (h.2 x hx)⟩,
      fun h => ⟨h.names, fun x hx => List.all_eq_true.mpr (h.types x hx)⟩⟩

instance (f : FileDescriptor) : Decidable f.IsRegular :=
  decidable_of_iff ('\n' ∉ f.name.toList ∧ f.package.toList.all isPathChar ∧
      (∀ e ∈ f.enums, e.IsWellNamed) ∧ ∀ m ∈ f.everyMessage, m.IsRegular)
    ⟨fun h => ⟨h.1, List.all_eq_true.mp h.2.1, h.2.2.1, h.2.2.2⟩,
      fun h => ⟨h.file, List.all_eq_true.mpr h.package, h.enums, h.messages⟩⟩

end SchemaHeader
