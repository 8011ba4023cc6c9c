import SchemaHeader.Proofs.Header.Traversal

/-! The writing of a header as the list of its small steps. Each line comes with the messages that
it stands in, which the writer itself never looks at. -/
namespace SchemaHeader

open Text (constantName)

/-- The messages around a line, the innermost first, and whether the line is an entry of a table.
The lines of a file that stand in no message have nothing around them. -/
structure Site where
  around : List MessageDescriptor := []
  inTable : Bool := false

def Site.depth (p : Site) : Nat := p.around.length + p.inTable.toNat

/-- A small step of the writer. -/
inductive Move where
  | line (site : Site) (text : String)
  | blank
  | deeper
  | shallower
  | atLevel (level : Nat)
  | count (what : Tally)
  | report (path : String) (f : FieldDescriptor)

/-- What a step does to a draft. The site of a line plays no part. -/
def Move.apply (d : Draft) : Move → Draft
  | .line _ text => d.line text
  | .blank => d.blank
  | .deeper => d.deeper
  | .shallower => d.shallower
  | .atLevel level => d.atLevel level
  | .count what => d.count what
  | .report path f => d.report (.unknownType d.fileName path f)

def Draft.run (d : Draft) (moves : List Move) : Draft := moves.foldl Move.apply d

namespace Moves

variable (around : List MessageDescriptor)

def table (opening : String) (entries : List String) : List Move :=
  [.line { around := around } opening, .deeper] ++
    entries.map (.line { around := around, inTable := true }) ++
    [.shallower, .line { around := around } Phrase.tableClosing]

def enum (e : EnumDescriptor) : List Move :=
  let count := e.values.length
  [.count { enums := 1 }, .line { around := around } ("// enum " ++ e.name)] ++
    e.values.map (fun v => .line { around := around }
      (Phrase.intConstant (constantName v.name) (toString v.number))) ++
    [.line { around := around }
      ("static " ++ Phrase.intConstant (Phrase.enumTable e ++ "_COUNT") (toString count))] ++
    table around (Phrase.tableOpening "char*" (Phrase.enumTable e ++ "_NAMES") count)
      (e.values.map fun v => Phrase.quoted (Phrase.shortName e v)) ++
    table around (Phrase.tableOpening "int" (Phrase.enumTable e ++ "_VALUES") count)
      (e.values.map fun v => Phrase.listed (constantName v.name)) ++
    [.blank]

def field (path : String) (f : FieldDescriptor) : List Move :=
  [.count { fields := 1 }, .line { around := around } (Phrase.fieldComment f),
    (FieldId.ofField? f).elim (.report path f) fun id =>
      .line { around := around } (Phrase.fieldConstant f id),
    .blank]

def fieldTables (fields : List FieldDescriptor) : List Move :=
  let count := fields.length
  [.line { around := around }
      ("static " ++ Phrase.intConstant "_FIELD_COUNT" (toString count))] ++
    table around (Phrase.tableOpening "char*" "_FIELD_NAMES" count)
      (fields.map fun f => Phrase.quoted f.name) ++
    table around (Phrase.tableOpening "uint64_t" "_FIELD_IDS" count)
      (fields.map fun f => Phrase.listed (constantName f.name)) ++
    [.blank]

/-- The steps before the nested messages. A message's own lines stand beside it, those of its enums
inside it. -/
def opening (m : MessageDescriptor) : List Move :=
  [.count { messages := 1 }, .atLevel around.length,
    .line { around := around } ("// message " ++ m.name),
    .line { around := around } (Phrase.scopeOpening m.name), .atLevel (around.length + 1)] ++
    m.enums.flatMap (enum (m :: around))

/-- The steps after the nested messages. -/
def closing (path : String) (m : MessageDescriptor) : List Move :=
  [.atLevel (around.length + 1)] ++ m.fields.flatMap (field (m :: around) path) ++
    fieldTables (m :: around) m.fields ++
    [.atLevel around.length, .line { around := around } (Phrase.messageClosing m.name), .blank]

mutual

/-- The steps for the whole tree of a message that has `around` around it. -/
def message (around : List MessageDescriptor) (path : String) : MessageDescriptor → List Move
  | ⟨name?, fields, nested, enums⟩ =>
    let m : MessageDescriptor := ⟨name?, fields, nested, enums⟩
    opening around m ++ messages (m :: around) path nested ++ closing around path m

def messages (around : List MessageDescriptor) (scope : String) :
    List MessageDescriptor → List Move
  | [] => []
  | m :: rest => message around (qualify scope m.name) m ++ messages around scope rest

end

def preamble (guard : String) (f : FileDescriptor) : List Move :=
  [.line {} ("// Generated by " ++ generatorName ++ ". DO NOT MODIFY."),
    .line {} ("// source: " ++ f.name), .blank, .line {} ("#ifndef " ++ guard),
    .line {} ("#define " ++ guard), .blank] ++
    (Text.segments f.package '.').map (fun scope => .line {} (Phrase.scopeOpening scope)) ++
    [.blank]

def ending (guard : String) (f : FileDescriptor) : List Move :=
  (Text.segments f.package '.').reverse.map
      (fun scope => .line {} (Phrase.packageClosing scope)) ++
    [.blank, .line {} ("#endif // " ++ guard)]

/-- The steps for a file: those before the first element, those of each element, those after the
last one. -/
def blocks (guard : String) (f : FileDescriptor) : List (List Move) :=
  [preamble guard f] ++ f.enums.map (enum []) ++
    f.messages.map (fun m => message [] (qualify f.package m.name) m) ++ [ending guard f]

theorem messages_eq_flatMap (around : List MessageDescriptor) (scope : String)
    (ms : List MessageDescriptor) : messages around scope ms =
      ms.flatMap fun m => message around (qualify scope m.name) m := by
  induction ms with
  | nil => rfl
  | cons m rest ih => rw [messages, ih, List.flatMap_cons]

theorem message_eq (around : List MessageDescriptor) (path : String) (m : MessageDescriptor) :
    message around path m = opening around m ++
      m.nested.flatMap (fun n => message (m :: around) (qualify path n.name) n) ++
      closing around path m := by
  obtain ⟨name?, fields, nested, enums⟩ := m
  rw [message, messages_eq_flatMap]

end Moves

namespace Draft

variable {d : Draft} {around : List MessageDescriptor} {move : Move} {first rest : List Move}

@[simp] theorem run_nil : d.run [] = d := rfl

@[simp] theorem run_cons : d.run (move :: rest) = (Move.apply d move).run rest := rfl

@[simp] theorem run_append : d.run (first ++ rest) = (d.run first).run rest :=
  List.foldl_append

/-- A loop over parts is the run of their steps, one part after the other. -/
theorem foldl_eq_run {α : Type} {step : Draft → α → Draft} {parts : α → List Move}
    (h : ∀ d a, step d a = d.run (parts a)) (as : List α) :
    as.foldl step d = d.run (as.flatMap parts) := by
  induction as generalizing d with
  | nil => rfl
  | cons a rest ih => rw [List.foldl_cons, ih, h, List.flatMap_cons, run_append]

theorem lines_eq_run {α : Type} (site : Site) (as : List α) (text : α → String) :
    d.lines (as.map text) = d.run (as.map fun a => .line site (text a)) := by
  rw [lines, List.foldl_map, run, List.foldl_map]
  rfl

theorem table_eq_run {α : Type} (around : List MessageDescriptor) (opening : String) (as : List α)
    (entry : α → String) : d.table opening (as.map entry) =
      d.run (Moves.table around opening (as.map entry)) := by
  rw [table, lines_eq_run { around := around, inTable := true }, Moves.table, List.map_map]
  simp [Move.apply, Function.comp_def]

theorem enum_eq_run (around : List MessageDescriptor) (e : EnumDescriptor) :
    d.enum e = d.run (Moves.enum around e) := by
  simp [enum, Moves.enum, lines_eq_run { around := around }, table_eq_run around, Move.apply]

theorem field_eq_run (around : List MessageDescriptor) (path : String) (f : FieldDescriptor) :
    d.field path f = d.run (Moves.field around path f) := by
  cases h : FieldId.ofField? f <;> simp [field, Moves.field, h, Move.apply]

theorem fieldTables_eq_run (around : List MessageDescriptor) (fields : List FieldDescriptor) :
    d.fieldTables fields = d.run (Moves.fieldTables around fields) := by
  simp [fieldTables, Moves.fieldTables, table_eq_run around, Move.apply]

theorem openMessage_eq_run (around : List MessageDescriptor) (m : MessageDescriptor) :
    d.openMessage m around.length = d.run (Moves.opening around m) := by
  rw [openMessage, Moves.opening, foldl_eq_run fun d e => enum_eq_run (m :: around) e]
  rfl

theorem closeMessage_eq_run (around : List MessageDescriptor) (path : String)
    (m : MessageDescriptor) :
    d.closeMessage m around.length path = d.run (Moves.closing around path m) := by
  rw [closeMessage, fieldTables_eq_run (m :: around),
    foldl_eq_run fun d f => field_eq_run (m :: around) path f, Moves.closing]
  simp [Move.apply]

/-- A pending step of the walk, with the messages around its message in place of their number. -/
inductive Task where
  | opening (around : List MessageDescriptor) (path : String) (m : MessageDescriptor)
  | closing (around : List MessageDescriptor) (path : String) (m : MessageDescriptor)

def Task.step : Task → Step
  | .opening around path m => .opening m around.length path
  | .closing around path m => .closing m around.length path

def Task.moves : Task → List Move
  | .opening around path m => Moves.message around path m
  | .closing around path m => Moves.closing around path m

/-- Each pass of the walk makes the moves of one task, apart from those that it leaves to the tasks
put in its place. -/
theorem walk_eq_run (tasks : List Task) (d : Draft) :
    walk (tasks.map Task.step) d = d.run (tasks.flatMap Task.moves) := by
  generalize hsteps : tasks.map Task.step = steps
  fun_induction walk steps d generalizing tasks with
  | case1 d =>
    obtain rfl := List.map_eq_nil_iff.mp hsteps
    rfl
  | case2 m depth path rest d ih =>
    obtain ⟨task, tasks, rfl, htask, rfl⟩ := List.map_eq_cons_iff.mp hsteps
    cases task with
    | closing => cases htask
    | opening around path m =>
      obtain ⟨rfl, rfl, rfl⟩ := Step.opening.inj htask
      have hpass := ih (m.nested.map (fun n => .opening (m :: around) (qualify path n.name) n) ++
        .closing around path m :: tasks) (by simp [Step.openings, Task.step, Function.comp_def])
      rw [hpass, openMessage_eq_run, List.flatMap_cons, Task.moves, Moves.message_eq]
      simp [List.flatMap_map, Task.moves]
  | case3 m depth path rest d ih =>
    obtain ⟨task, tasks, rfl, htask, rfl⟩ := List.map_eq_cons_iff.mp hsteps
    cases task with
    | opening => cases htask
    | closing around path m =>
      obtain ⟨rfl, rfl, rfl⟩ := Step.closing.inj htask
      rw [ih tasks rfl, closeMessage_eq_run, List.flatMap_cons, run_append]
      rfl

theorem message_eq_run (scope : String) (m : MessageDescriptor) (h : d.level = around.length) :
    d.message scope m = d.run (Moves.message around (qualify scope m.name) m) := by
  rw [message, h]
  exact (walk_eq_run [.opening around (qualify scope m.name) m] d).trans (by simp [Task.moves])

theorem messages_eq_run (scope : String) (ms : List MessageDescriptor) (h : d.level = 0) :
    ms.foldl (fun d m => d.message scope m) d =
      d.run (ms.flatMap fun m => Moves.message [] (qualify scope m.name) m) := by
  induction ms generalizing d with
  | nil => rfl
  | cons m rest ih =>
    have hlevel : (d.message scope m).level = 0 := by rw [message_eq, level_extend, h]
    have hfirst : d.message scope m = d.run (Moves.message [] (qualify scope m.name) m) :=
      message_eq_run scope m h
    rw [List.foldl_cons, ih hlevel, hfirst, List.flatMap_cons, run_append]

/-- A schema is written by its blocks of moves. -/
theorem schema_eq_run (guard : String) (f : FileDescriptor) (h : d.level = 0) :
    d.schema guard f = d.run (Moves.blocks guard f).flatten := by
  rw [schema, messages_eq_run]
  · rw [foldl_eq_run fun d e => enum_eq_run [] e]
    simp [Moves.blocks, Moves.preamble, Moves.ending, lines_eq_run {}, Move.apply,
      List.flatMap_def, -List.map_reverse]
  · simp [enums_eq, line_eq, lines_eq, blank_eq, h]

end Draft

end SchemaHeader
