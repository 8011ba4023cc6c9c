import SchemaHeader.Header.Phrase

/-! Writing a header into a draft. The message tree is walked with a list of pending steps, so
its depth costs no stack. -/
namespace SchemaHeader

open Text (constantName)

namespace Draft

/-- A table of which `opening` is the first line. -/
def table (opening : String) (entries : List String) (d : Draft) : Draft :=
  d |>.line opening |>.deeper |>.lines entries |>.shallower |>.line Phrase.tableClosing

def enum (e : EnumDescriptor) (d : Draft) : Draft :=
  let count := e.values.length
  d |>.count { enums := 1 }
    |>.line ("// enum " ++ e.name)
    |>.lines (e.values.map fun v => Phrase.intConstant (constantName v.name) (toString v.number))
    |>.line ("static " ++ Phrase.intConstant (Phrase.enumTable e ++ "_COUNT") (toString count))
    |>.table (Phrase.tableOpening "char*" (Phrase.enumTable e ++ "_NAMES") count)
      (e.values.map fun v => Phrase.quoted (Phrase.shortName e v))
    |>.table (Phrase.tableOpening "int" (Phrase.enumTable e ++ "_VALUES") count)
      (e.values.map fun v => Phrase.listed (constantName v.name))
    |>.blank

/-- A field of the message at `path`. Without a known type it gets no constant. -/
def field (path : String) (f : FieldDescriptor) (d : Draft) : Draft :=
  let d := d |>.count { fields := 1 } |>.line (Phrase.fieldComment f)
  let d := match FieldId.ofField? f with
    | some id => d.line (Phrase.fieldConstant f id)
    | none => d.report (.unknownType d.fileName path f)
  d.blank

def fieldTables (fields : List FieldDescriptor) (d : Draft) : Draft :=
  let count := fields.length
  d |>.line ("static " ++ Phrase.intConstant "_FIELD_COUNT" (toString count))
    |>.table (Phrase.tableOpening "char*" "_FIELD_NAMES" count)
      (fields.map fun f => Phrase.quoted f.name)
    |>.table (Phrase.tableOpening "uint64_t" "_FIELD_IDS" count)
      (fields.map fun f => Phrase.listed (constantName f.name))
    |>.blank

/-- What is left to do for the message at `path`, which stands at `depth`. -/
inductive Step where
  | opening (m : MessageDescriptor) (depth : Nat) (path : String)
  | closing (m : MessageDescriptor) (depth : Nat) (path : String)

/-- The part of a message before its nested messages. -/
def openMessage (m : MessageDescriptor) (depth : Nat) (d : Draft) : Draft :=
  let d := d |>.count { messages := 1 } |>.atLevel depth
    |>.line ("// message " ++ m.name) |>.line (Phrase.scopeOpening m.name) |>.atLevel (depth + 1)
  m.enums.foldl (fun d e => d.enum e) d

/-- The part of a message after its nested messages. -/
def closeMessage (m : MessageDescriptor) (depth : Nat) (path : String) (d : Draft) : Draft :=
  (m.fields.foldl (fun d f => d.field path f) (d.atLevel (depth + 1)))
    |>.fieldTables m.fields |>.atLevel depth |>.line (Phrase.messageClosing m.name) |>.blank

def Step.openings (nested : List MessageDescriptor) (depth : Nat) (path : String) : List Step :=
  nested.map fun m => .opening m depth (qualify path m.name)

/-- An opening puts a step on the list for each message of its tree, and takes itself off. -/
def Step.weight : Step → Nat
  | .opening m _ _ => 2 * m.size
  | .closing _ _ _ => 1

def Step.weights : List Step → Nat
  | [] => 0
  | s :: rest => s.weight + weights rest

theorem weights_openings_append (nested : List MessageDescriptor) (depth : Nat) (path : String)
    (rest : List Step) : Step.weights (Step.openings nested depth path ++ rest) =
      2 * MessageDescriptor.sizes nested + Step.weights rest := by
  induction nested with
  | nil => simp [Step.openings, MessageDescriptor.sizes]
  | cons m ms ih =>
    simp only [Step.openings, List.map_cons, List.cons_append, Step.weights, Step.weight,
      MessageDescriptor.sizes] at ih ⊢
    omega

/-- A message's nested messages go in front of its own closing. -/
def walk : List Step → Draft → Draft
  | [], d => d
  | .opening m depth path :: rest, d =>
    walk (Step.openings m.nested (depth + 1) path ++ .closing m depth path :: rest)
      (d.openMessage m depth)
  | .closing m depth path :: rest, d => walk rest (d.closeMessage m depth path)
termination_by steps => Step.weights steps
decreasing_by
  · cases m
    simp only [weights_openings_append, Step.weights, Step.weight, MessageDescriptor.size]
    omega
  · simp [Step.weights, Step.weight]

/-- A message whose enclosing elements have the path `scope`. -/
def message (scope : String) (m : MessageDescriptor) (d : Draft) : Draft :=
  walk [.opening m d.level (qualify scope m.name)] d

/-- The whole header of a schema file. -/
def schema (guard : String) (f : FileDescriptor) (d : Draft) : Draft :=
  let scopes := Text.segments f.package '.'
  let d := d |>.line ("// Generated by " ++ generatorName ++ ". DO NOT MODIFY.")
    |>.line ("// source: " ++ f.name) |>.blank
    |>.line ("#ifndef " ++ guard) |>.line ("#define " ++ guard) |>.blank
    |>.lines (scopes.map Phrase.scopeOpening) |>.blank
  let d := f.enums.foldl (fun d e => d.enum e) d
  let d := f.messages.foldl (fun d m => d.message f.package m) d
  d |>.lines (scopes.reverse.map Phrase.packageClosing) |>.blank
    |>.line ("#endif // " ++ guard)

end Draft

/-- The header of a schema file, and the log with what was found wrong with the file added.
A header is made in any case; one that comes with new entries is not fit for use. -/
def Dialect.header (style : Dialect) (f : FileDescriptor) (log : Log) : Header × Log :=
  let start : Draft := { indentUnit := style.indent, fileName := f.name, log := log }
  let done := start.schema (style.guard f.name) f
  ({ name := style.headerName f.name, content := done.text, tally := done.tally }, done.log)

end SchemaHeader
