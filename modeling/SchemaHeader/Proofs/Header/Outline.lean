import SchemaHeader.Header.Phrase

/-! What a schema file calls for, given by plain recursion on its descriptors: the lines of its
header, the count of its elements and the diagnostics for it. How a header is put together plays
no part. -/
namespace SchemaHeader

/-- A line and the level that it stands at. -/
structure Line where
  depth : Nat
  text : String
  deriving DecidableEq

namespace Line

/-- A blank line has no depth, wherever it stands. -/
def blank : Line := ⟨0, ""⟩

/-- A line as it is written: its text behind one unit for each level. -/
def render (unit : String) (l : Line) : String :=
  String.join (List.replicate l.depth unit) ++ l.text ++ "\n"

def renderAll (unit : String) (lines : List Line) : String :=
  String.join (lines.map (render unit))

end Line

namespace Outline

open Text (constantName)

/-- A table whose frame stands at `depth`. -/
def table (depth : Nat) (opening : String) (entries : List String) : List Line :=
  ⟨depth, opening⟩ :: (entries.map fun entry => ⟨depth + 1, entry⟩) ++
    [⟨depth, Phrase.tableClosing⟩]

def enum (depth : Nat) (e : EnumDescriptor) : List Line :=
  let count := e.values.length
  ⟨depth, "// enum " ++ e.name⟩ ::
    (e.values.map fun v =>
      ⟨depth, Phrase.intConstant (constantName v.name) (toString v.number)⟩) ++
    [⟨depth, "static " ++ Phrase.intConstant (Phrase.enumTable e ++ "_COUNT") (toString count)⟩] ++
    table depth (Phrase.tableOpening "char*" (Phrase.enumTable e ++ "_NAMES") count)
      (e.values.map fun v => Phrase.quoted (Phrase.shortName e v)) ++
    table depth (Phrase.tableOpening "int" (Phrase.enumTable e ++ "_VALUES") count)
      (e.values.map fun v => Phrase.listed (constantName v.name)) ++
    [.blank]

def field (depth : Nat) (f : FieldDescriptor) : List Line :=
  ⟨depth, Phrase.fieldComment f⟩ ::
    ((FieldId.ofField? f).elim [] fun id => [⟨depth, Phrase.fieldConstant f id⟩]) ++ [.blank]

def fieldTables (depth : Nat) (fields : List FieldDescriptor) : List Line :=
  let count := fields.length
  ⟨depth, "static " ++ Phrase.intConstant "_FIELD_COUNT" (toString count)⟩ ::
    table depth (Phrase.tableOpening "char*" "_FIELD_NAMES" count)
      (fields.map fun f => Phrase.quoted f.name) ++
    table depth (Phrase.tableOpening "uint64_t" "_FIELD_IDS" count)
      (fields.map fun f => Phrase.listed (constantName f.name)) ++
    [.blank]

mutual

def message (depth : Nat) : MessageDescriptor → List Line
  | ⟨name?, fields, nested, enums⟩ =>
    let name := name?.getD ""
    [⟨depth, "// message " ++ name⟩, ⟨depth, Phrase.scopeOpening name⟩] ++
      enums.flatMap (enum (depth + 1)) ++ messages (depth + 1) nested ++
      fields.flatMap (field (depth + 1)) ++ fieldTables (depth + 1) fields ++
      [⟨depth, Phrase.messageClosing name⟩, .blank]

def messages (depth : Nat) : List MessageDescriptor → List Line
  | [] => []
  | m :: rest => message depth m ++ messages depth rest

end

def schema (guard : String) (f : FileDescriptor) : List Line :=
  let scopes := Text.segments f.package '.'
  [⟨0, "// Generated by " ++ generatorName ++ ". DO NOT MODIFY."⟩, ⟨0, "// source: " ++ f.name⟩,
      .blank, ⟨0, "#ifndef " ++ guard⟩, ⟨0, "#define " ++ guard⟩, .blank] ++
    (scopes.map fun scope => ⟨0, Phrase.scopeOpening scope⟩) ++ [.blank] ++
    f.enums.flatMap (enum 0) ++ messages 0 f.messages ++
    (scopes.reverse.map fun scope => ⟨0, Phrase.packageClosing scope⟩) ++
    [.blank, ⟨0, "#endif // " ++ guard⟩]

end Outline

namespace Survey

mutual

/-- Every element of a message's tree, fields without a known type included. -/
def tally : MessageDescriptor → Tally
  | ⟨_, fields, nested, enums⟩ =>
    { messages := 1, enums := enums.length, fields := fields.length } + tallies nested

def tallies : List MessageDescriptor → Tally
  | [] => 0
  | m :: rest => tally m + tallies rest

end

def tallyFile (f : FileDescriptor) : Tally :=
  { enums := f.enums.length } + tallies f.messages

/-- One diagnostic for each of the fields that has no known type. -/
def illTyped (file path : String) (fields : List FieldDescriptor) : List Diagnostic :=
  (fields.filter (·.declaredType?.isNone)).map (.unknownType file path)

mutual

/-- The diagnostics for the message at `path`: those of its nested messages come first. -/
def problems (file path : String) : MessageDescriptor → List Diagnostic
  | ⟨_, fields, nested, _⟩ => problemsIn file path nested ++ illTyped file path fields

/-- The diagnostics for messages whose enclosing elements have the path `scope`. -/
def problemsIn (file scope : String) : List MessageDescriptor → List Diagnostic
  | [] => []
  | m :: rest => problems file (qualify scope m.name) m ++ problemsIn file scope rest

end

def problemsOf (f : FileDescriptor) : List Diagnostic :=
  problemsIn f.name f.package f.messages

end Survey

end SchemaHeader
