import Mathlib.Logic.Function.Iterate
import SchemaHeader.Proofs.Header.Emission

/-! The walk over a message tree against plain recursion on it. The pending steps carry the whole
of the work that is left, so one value is the same before and after every pass of the walk. -/
namespace SchemaHeader

namespace Draft

variable {d : Draft} {m : MessageDescriptor} {depth : Nat} {path : String} {steps : List Step}

/-- One pass of the walk. -/
def advance : List Step × Draft → List Step × Draft
  | ([], d) => ([], d)
  | (.opening m depth path :: rest, d) =>
    (Step.openings m.nested (depth + 1) path ++ .closing m depth path :: rest,
      d.openMessage m depth)
  | (.closing m depth path :: rest, d) => (rest, d.closeMessage m depth path)

/-- A pending step done at once, with the whole tree below an opening gone through by recursion. -/
def Step.carryOut (d : Draft) : Step → Draft
  | .opening m depth path =>
    (d.extend (Outline.message depth m) (Survey.tally m)
      (Survey.problems d.fileName path m)).atLevel depth
  | .closing m depth path => d.closeMessage m depth path

/-- The draft when nothing is pending any more. -/
def outcome (c : List Step × Draft) : Draft := c.1.foldl Step.carryOut c.2

theorem openMessage_eq : d.openMessage m depth =
    (d.extend ([⟨depth, "// message " ++ m.name⟩, ⟨depth, Phrase.scopeOpening m.name⟩] ++
        m.enums.flatMap (Outline.enum (depth + 1)))
      { messages := 1, enums := m.enums.length } []).atLevel (depth + 1) := by
  have h : ({ messages := 1 } : Tally) + { enums := m.enums.length } =
      { messages := 1, enums := m.enums.length } := Tally.ext rfl (Nat.zero_add _) rfl
  simp [openMessage, count_eq, line_eq, enums_eq, h]

theorem closeMessage_eq : d.closeMessage m depth path =
    (d.extend (m.fields.flatMap (Outline.field (depth + 1)) ++
        Outline.fieldTables (depth + 1) m.fields ++
        [⟨depth, Phrase.messageClosing m.name⟩, .blank])
      { fields := m.fields.length } (Survey.illTyped d.fileName path m.fields)).atLevel depth := by
  simp [closeMessage, fields_eq, fieldTables_eq, line_eq, blank_eq]

theorem outcome_openings (nested : List MessageDescriptor) (path : String) (rest : List Step)
    (h : d.level = depth) : outcome (Step.openings nested depth path ++ rest, d) =
      outcome (rest, d.extend (Outline.messages depth nested) (Survey.tallies nested)
        (Survey.problemsIn d.fileName path nested)) := by
  induction nested generalizing d with
  | nil => simp [Step.openings, Outline.messages, Survey.tallies, Survey.problemsIn]
  | cons m nested ih =>
    subst h
    have hfirst : outcome (Step.openings (m :: nested) d.level path ++ rest, d) =
        outcome (Step.openings nested d.level path ++ rest,
          Step.carryOut d (.opening m d.level (qualify path m.name))) := rfl
    rw [hfirst, ih (by simp [Step.carryOut])]
    simp [Step.carryOut, Outline.messages, Survey.tallies, Survey.problemsIn]

/-- A message is its opening part, its nested messages and its closing part. -/
theorem closeMessage_openMessage : closeMessage m depth path
      ((d.openMessage m depth).extend (Outline.messages (depth + 1) m.nested)
        (Survey.tallies m.nested) (Survey.problemsIn d.fileName path m.nested)) =
    Step.carryOut d (.opening m depth path) := by
  obtain ⟨name?, fields, nested, enums⟩ := m
  have h : ({ messages := 1, enums := enums.length } : Tally) + Survey.tallies nested +
      { fields := fields.length } =
      { messages := 1, enums := enums.length, fields := fields.length } +
        Survey.tallies nested := by
    rw [add_right_comm]
    exact congrArg (· + Survey.tallies nested) (Tally.ext rfl rfl (Nat.zero_add _))
  simp [openMessage_eq, closeMessage_eq, Step.carryOut, Outline.message, Survey.tally,
    Survey.problems, MessageDescriptor.name, h]

/-- The loop invariant: no pass changes what the draft will be in the end. -/
theorem outcome_advance (c : List Step × Draft) : outcome (advance c) = outcome c := by
  obtain ⟨steps, d⟩ := c
  cases steps with
  | nil => rfl
  | cons s rest =>
    cases s with
    | closing m depth path => rfl
    | opening m depth path =>
      have hlevel : (d.openMessage m depth).level = depth + 1 := by simp [openMessage_eq]
      have hfile : (d.openMessage m depth).fileName = d.fileName := by simp [openMessage_eq]
      have hnested := outcome_openings m.nested path (.closing m depth path :: rest) hlevel
      rw [hfile] at hnested
      refine hnested.trans ?_
      exact congrArg (fun d => outcome (rest, d)) closeMessage_openMessage

theorem walk_eq_outcome (steps : List Step) (d : Draft) : walk steps d = outcome (steps, d) := by
  fun_induction walk steps d with
  | case1 d => rfl
  | case2 m depth path rest d ih =>
    rw [ih]
    exact outcome_advance (.opening m depth path :: rest, d)
  | case3 m depth path rest d ih => exact ih

theorem message_eq (scope : String) (m : MessageDescriptor) : d.message scope m =
    d.extend (Outline.message d.level m) (Survey.tally m)
      (Survey.problems d.fileName (qualify scope m.name) m) := by
  rw [message, walk_eq_outcome]
  rfl

theorem messages_eq {d : Draft} (scope : String) (messages : List MessageDescriptor) :
    messages.foldl (fun d m => d.message scope m) d =
      d.extend (Outline.messages d.level messages) (Survey.tallies messages)
        (Survey.problemsIn d.fileName scope messages) := by
  induction messages generalizing d with
  | nil => exact extend_nil.symm
  | cons m rest ih =>
    rw [List.foldl_cons, ih, message_eq, extend_extend]
    rfl

theorem schema_eq {d : Draft} (guard : String) (f : FileDescriptor) (h : d.level = 0) :
    d.schema guard f = d.extend (Outline.schema guard f) (Survey.tallyFile f)
      (Survey.problemsIn d.fileName f.package f.messages) := by
  simp [schema, line_eq, lines_eq, blank_eq, enums_eq, messages_eq, h, Outline.schema,
    Survey.tallyFile, Function.comp_def]

end Draft

namespace Dialect

variable (style : Dialect) (f : FileDescriptor) (log : Log)

/-- The header does not depend on the log, and the log only grows. -/
theorem header_eq : style.header f log =
    ({ name := style.headerName f.name
       content := Line.renderAll style.indent (Outline.schema (style.guard f.name) f)
       tally := Survey.tallyFile f }, ⟨log.entries ++ Survey.problemsOf f⟩) := by
  rw [header, Draft.schema_eq (style.guard f.name) f rfl]
  simp [Draft.extend, Survey.problemsOf]

theorem content_eq : (style.header f log).1.content =
    Line.renderAll style.indent (Outline.schema (style.guard f.name) f) := by
  rw [header_eq]

end Dialect

end SchemaHeader
