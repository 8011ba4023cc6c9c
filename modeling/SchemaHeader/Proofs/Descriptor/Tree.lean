import SchemaHeader.Descriptor

/-! The messages of a schema at every depth, and its fields, each with the names of the messages
around it. -/
namespace SchemaHeader

namespace MessageDescriptor

/-- What holds of a message whenever it holds of the messages nested in it holds of them all. -/
@[elab_as_elim]
theorem tree_induction {motive : MessageDescriptor → Prop}
    (step : ∀ m, (∀ n ∈ m.nested, motive n) → motive m) : ∀ m, motive m
  | ⟨name?, fields, nested, enums⟩ => step _ fun n _ => tree_induction step n

mutual

/-- A message and all those below it. -/
def tree : MessageDescriptor → List MessageDescriptor
  | ⟨name?, fields, nested, enums⟩ => ⟨name?, fields, nested, enums⟩ :: trees nested

def trees : List MessageDescriptor → List MessageDescriptor
  | [] => []
  | m :: rest => m.tree ++ trees rest

end

variable {m : MessageDescriptor} {p : MessageDescriptor → Prop}

theorem trees_eq_flatMap (ms : List MessageDescriptor) : trees ms = ms.flatMap tree := by
  induction ms with
  | nil => rfl
  | cons m rest ih => rw [trees, ih, List.flatMap_cons]

theorem tree_eq (m : MessageDescriptor) : m.tree = m :: m.nested.flatMap tree := by
  obtain ⟨name?, fields, nested, enums⟩ := m
  rw [tree, trees_eq_flatMap]

/-- What holds all through a message holds of it and all through those inside it. -/
theorem forall_mem_tree : (∀ n ∈ m.tree, p n) ↔ p m ∧ ∀ k ∈ m.nested, ∀ n ∈ k.tree, p n := by
  rw [tree_eq]
  simp only [List.mem_cons, List.mem_flatMap]
  constructor
  · intro h
    exact ⟨h m (Or.inl rfl), fun k hk n hn => h n (Or.inr ⟨k, hk, hn⟩)⟩
  · rintro ⟨hm, hnested⟩ n (rfl | ⟨k, hk, hn⟩)
    · exact hm
    · exact hnested k hk n hn

end MessageDescriptor

/-- Every message of the file, at whatever depth. -/
def FileDescriptor.everyMessage (f : FileDescriptor) : List MessageDescriptor :=
  MessageDescriptor.trees f.messages

theorem FileDescriptor.forall_mem_everyMessage {f : FileDescriptor}
    {p : MessageDescriptor → Prop} :
    (∀ n ∈ f.everyMessage, p n) ↔ ∀ m ∈ f.messages, ∀ n ∈ m.tree, p n := by
  simp only [everyMessage, MessageDescriptor.trees_eq_flatMap, List.mem_flatMap]
  constructor
  · intro h m hm n hn
    exact h n ⟨m, hm, hn⟩
  · rintro h n ⟨m, hm, hn⟩
    exact h m hm n hn

/-- A field and the messages that it lies in, the outermost first. -/
structure PlacedField where
  scopes : List String
  field : FieldDescriptor

/-- The same field seen from one message further out. -/
def PlacedField.within (scope : String) (p : PlacedField) : PlacedField :=
  { p with scopes := scope :: p.scopes }

namespace MessageDescriptor

mutual

/-- The fields of nested messages come before the message's own. -/
def placedFields : MessageDescriptor → List PlacedField
  | ⟨name?, fields, nested, _⟩ =>
    (placedFieldsIn nested ++ fields.map (PlacedField.mk [])).map (·.within (name?.getD ""))

def placedFieldsIn : List MessageDescriptor → List PlacedField
  | [] => []
  | m :: rest => m.placedFields ++ placedFieldsIn rest

end

theorem placedFieldsIn_eq_flatMap (ms : List MessageDescriptor) :
    placedFieldsIn ms = ms.flatMap placedFields := by
  induction ms with
  | nil => rfl
  | cons m rest ih => rw [placedFieldsIn, ih, List.flatMap_cons]

/-- The fields of nested messages come before the message's own. -/
theorem placedFields_eq (m : MessageDescriptor) : m.placedFields =
    (m.nested.flatMap placedFields ++ m.fields.map (PlacedField.mk [])).map (·.within m.name) := by
  obtain ⟨name?, fields, nested, enums⟩ := m
  rw [placedFields, placedFieldsIn_eq_flatMap]
  rfl

end MessageDescriptor

def FileDescriptor.placedFields (f : FileDescriptor) : List PlacedField :=
  MessageDescriptor.placedFieldsIn f.messages

end SchemaHeader
