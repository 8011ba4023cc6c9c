import SchemaHeader.Descriptor.Record
import SchemaHeader.Descriptor.Shape
import SchemaHeader.Proofs.Descriptor.Tree
import SchemaHeader.Proofs.Wire.Depth

/-! Descriptors are what is read off the records that are made of them, and these records are
messages of the shapes that they are meant for. -/
namespace SchemaHeader

open Wire (Record Value)
open Wire.Record Wire.Grammar

theorem Shape.number_bounds (shape : Shape) : ∀ e ∈ shape.fields, 0 < e.1 ∧ e.1 < 2 ^ 29 := by
  cases shape <;> decide

/-- Every number of a field fits in a key. -/
theorem isNumbered_schemaGrammar : schemaGrammar.IsNumbered := by
  intro shape n rule hrule
  obtain ⟨before, after, hfields, -⟩ := List.lookup_eq_some_iff.mp hrule
  exact shape.number_bounds (n, rule) (by rw [hfields]; simp)

namespace FieldOptions

theorem ofRecord_toRecord (o : FieldOptions) : ofRecord o.toRecord = o := by
  simp [ofRecord, toRecord, last?, getLast?_toList, Function.comp_def, Value.bool?]

theorem isMessage_toRecord (o : FieldOptions) :
    schemaGrammar.IsMessage .fieldOptions o.toRecord :=
  isMessage_of_holds (holds_single rfl fun packed _ => .bool packed)

end FieldOptions

namespace FieldDescriptor

/-- A field is read back from its record, where its options are the only part of themselves. -/
theorem ofRecord_toRecord (f : FieldDescriptor) : ofRecord f.toRecord = f := by
  obtain ⟨name?, number?, label?, type?, typeName?, options?⟩ := f
  cases options? <;> simp [ofRecord, toRecord, last?, merged?, all_single_of_ne, getLast?_toList,
    Function.comp_def, Value.int32?, Value.text?, Value.message?, FieldOptions.ofRecord_toRecord]

theorem isMessage_toRecord (f : FieldDescriptor) : schemaGrammar.IsMessage .field f.toRecord :=
  isMessage_of_holds <|
    (((((holds_single rfl fun name _ => .text name).append
      (holds_single rfl fun number _ => .int32 number)).append
        (holds_single rfl fun label _ => .int32 label)).append
          (holds_single rfl fun type _ => .int32 type)).append
            (holds_single rfl fun typeName _ => .text typeName)).append
              (holds_single rfl fun options _ => .message options.isMessage_toRecord)

end FieldDescriptor

namespace EnumValue

theorem ofRecord_toRecord (v : EnumValue) : ofRecord v.toRecord = v := by
  simp [ofRecord, toRecord, last?, all_single_of_ne, getLast?_toList, Function.comp_def,
    Value.int32?, Value.text?]

theorem isMessage_toRecord (v : EnumValue) : schemaGrammar.IsMessage .enumValue v.toRecord :=
  isMessage_of_holds <| (holds_single rfl fun name _ => .text name).append
    (holds_single rfl fun number _ => .int32 number)

end EnumValue

namespace EnumDescriptor

theorem ofRecord_toRecord (e : EnumDescriptor) : ofRecord e.toRecord = e := by
  simp [ofRecord, toRecord, last?, all_single_of_ne, all_each_of_ne, getLast?_toList,
    Function.comp_def, Value.text?, Value.message?, EnumValue.ofRecord_toRecord]

theorem isMessage_toRecord (e : EnumDescriptor) : schemaGrammar.IsMessage .enum e.toRecord :=
  isMessage_of_holds <| (holds_single rfl fun name _ => .text name).append
    (holds_each rfl fun v _ => .message v.isMessage_toRecord)

end EnumDescriptor

namespace MessageDescriptor

theorem toOccurrences_eq_each (field : Nat) (ms : List MessageDescriptor) :
    toOccurrences field ms = .each field (fun m => .message m.toRecord) ms := by
  induction ms with
  | nil => rfl
  | cons m rest ih =>
    rw [toOccurrences, ih]
    rfl

theorem ofOccurrences_eq_all (field : Nat) (r : Record) :
    ofOccurrences field r = r.all field (fun v => some (ofValue v)) := by
  induction r with
  | nil => rfl
  | cons e rest ih =>
    obtain ⟨n, v⟩ := e
    by_cases h : n = field
    · simp [ofOccurrences, all, h, ih]
    · simp [ofOccurrences, all, h, ih]

/-- A message is read back from its record, by induction on the messages inside it. -/
theorem ofValue_toRecord (m : MessageDescriptor) : ofValue (.message m.toRecord) = m := by
  induction m using tree_induction with
  | step m ih =>
    obtain ⟨name?, fields, nested, enums⟩ := m
    have hnested : nested.map (fun m => ofValue (.message m.toRecord)) = nested :=
      (List.map_congr_left ih).trans (List.map_id _)
    rw [ofValue, ofRecord]
    simp [toRecord, last?, ofOccurrences_eq_all, toOccurrences_eq_each, all_single_of_ne,
      all_each_of_ne, getLast?_toList, Function.comp_def, Value.text?, Value.message?,
      FieldDescriptor.ofRecord_toRecord, EnumDescriptor.ofRecord_toRecord, hnested]

/-- The record of a message is one of its shape, however deep it is. -/
theorem isMessage_toRecord (m : MessageDescriptor) :
    schemaGrammar.IsMessage .message m.toRecord := by
  induction m using tree_induction with
  | step m ih =>
    obtain ⟨name?, fields, nested, enums⟩ := m
    rw [toRecord, toOccurrences_eq_each]
    exact isMessage_of_holds <|
      (((holds_single rfl fun name _ => .text name).append
        (holds_each rfl fun f _ => .message f.isMessage_toRecord)).append
          (holds_each rfl fun m hm => .message (ih m hm))).append
            (holds_each rfl fun e _ => .message e.isMessage_toRecord)

end MessageDescriptor

namespace FileDescriptor

/-- A file is read back from its record. -/
theorem ofRecord_toRecord (f : FileDescriptor) : ofRecord f.toRecord = f := by
  simp [ofRecord, toRecord, last?, MessageDescriptor.ofOccurrences_eq_all,
    MessageDescriptor.toOccurrences_eq_each, all_single_of_ne, all_each_of_ne, getLast?_toList,
    Function.comp_def, Value.text?, Value.message?, MessageDescriptor.ofValue_toRecord,
    EnumDescriptor.ofRecord_toRecord]

theorem isMessage_toRecord (f : FileDescriptor) : schemaGrammar.IsMessage .file f.toRecord := by
  rw [toRecord, MessageDescriptor.toOccurrences_eq_each]
  exact isMessage_of_holds <|
    (((holds_single rfl fun name _ => .text name).append
      (holds_single rfl fun package _ => .text package)).append
        (holds_each rfl fun m _ => .message m.isMessage_toRecord)).append
          (holds_each rfl fun e _ => .message e.isMessage_toRecord)

end FileDescriptor

/-! The levels of messages that a descriptor takes up on the wire: options lie below their field,
values below their enum, and all of them below the message that they are in. -/

def FieldDescriptor.depth (f : FieldDescriptor) : Nat :=
  Wire.levelsOf (f.options?.toList.map fun _ => 0)

def EnumDescriptor.depth (e : EnumDescriptor) : Nat :=
  Wire.levelsOf (e.values.map fun _ => 0)

mutual

def MessageDescriptor.depth : MessageDescriptor → Nat
  | ⟨_, fields, nested, enums⟩ =>
    max (max (Wire.levelsOf (fields.map FieldDescriptor.depth)) (MessageDescriptor.levels nested))
      (Wire.levelsOf (enums.map EnumDescriptor.depth))

/-- The messages themselves are one level. -/
def MessageDescriptor.levels : List MessageDescriptor → Nat
  | [] => 0
  | m :: rest => max (m.depth + 1) (MessageDescriptor.levels rest)

end

def FileDescriptor.depth (f : FileDescriptor) : Nat :=
  max (MessageDescriptor.levels f.messages) (Wire.levelsOf (f.enums.map EnumDescriptor.depth))

theorem FieldOptions.depth_toRecord (o : FieldOptions) : Wire.Record.depth o.toRecord = 0 :=
  depth_each_plain 2 (fun _ => rfl) o.packed?.toList

theorem EnumValue.depth_toRecord (v : EnumValue) : Wire.Record.depth v.toRecord = 0 := by
  simp [toRecord, depth_append, depth_single_text, depth_single_int32]

theorem FieldDescriptor.depth_toRecord (f : FieldDescriptor) :
    Wire.Record.depth f.toRecord = f.depth := by
  simp [toRecord, depth, depth_append, depth_single_text, depth_single_int32, depth_single_message,
    FieldOptions.depth_toRecord]

theorem EnumDescriptor.depth_toRecord (e : EnumDescriptor) :
    Wire.Record.depth e.toRecord = e.depth := by
  simp [toRecord, depth, depth_append, depth_single_text, depth_each_message,
    EnumValue.depth_toRecord]

theorem MessageDescriptor.levels_eq (ms : List MessageDescriptor) :
    levels ms = Wire.levelsOf (ms.map MessageDescriptor.depth) := by
  induction ms with
  | nil => rfl
  | cons m rest ih =>
    rw [levels, ih]
    rfl

theorem MessageDescriptor.depth_toRecord (m : MessageDescriptor) :
    Wire.Record.depth m.toRecord = m.depth := by
  induction m using tree_induction with
  | step m ih =>
    obtain ⟨name?, fields, nested, enums⟩ := m
    have hnested : nested.map (fun m => Wire.Record.depth m.toRecord) = nested.map depth :=
      List.map_congr_left ih
    simp only [toRecord, depth, depth_append, depth_single_text, depth_each_message,
      toOccurrences_eq_each, levels_eq, hnested, FieldDescriptor.depth_toRecord,
      EnumDescriptor.depth_toRecord, Nat.zero_max]

/-- The record of a file is as deep as the file. -/
theorem FileDescriptor.depth_toRecord (f : FileDescriptor) :
    Wire.Record.depth f.toRecord = f.depth := by
  simp only [toRecord, depth, depth_append, depth_single_text, depth_each_message,
    MessageDescriptor.toOccurrences_eq_each, MessageDescriptor.levels_eq,
    MessageDescriptor.depth_toRecord, EnumDescriptor.depth_toRecord, Nat.zero_max]

end SchemaHeader
