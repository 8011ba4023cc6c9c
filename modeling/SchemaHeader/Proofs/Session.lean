import Mathlib.Data.List.DropRight
import SchemaHeader.Proofs.Descriptor.Tree
import SchemaHeader.Proofs.Generation
import SchemaHeader.Session

/-! What any use of one log leaves in it: each step records what is its own to record, whatever
the log held before. -/
namespace SchemaHeader

instance (x : FieldDescriptor) : Decidable x.IsIllTyped :=
  Option.decidableForallMem x.type?

/-- What there is to say about an ill-typed field. The path to it starts with the package as the
file words it. -/
def PlacedField.complaint (file package : String) (p : PlacedField) : Diagnostic where
  file := file
  element := (p.scopes ++ [p.field.name]).foldl
    (fun scope name => if scope = "" then name else scope ++ "." ++ name) package
  message := match p.field.type? with
    | some number => "unknown field type (" ++ toString number ++ ")"
    | none => "unknown field type (missing)"

/-- One diagnostic for each ill-typed field, and none for any other. -/
def FileDescriptor.complaints (f : FileDescriptor) : List Diagnostic :=
  (f.placedFields.filter (·.field.IsIllTyped)).map (·.complaint f.name f.package)

/-- A path grows by a point and the name; without a scope the name is all of it. -/
theorem qualify_eq : qualify = fun scope name => if scope = "" then name else
    scope ++ "." ++ name := by
  funext scope name
  simp [qualify, String.isEmpty_iff]

/-- The path to a field within a message goes through the message's name. -/
theorem PlacedField.complaint_within (file scope name : String) (p : PlacedField) :
    (p.within name).complaint file scope = p.complaint file (qualify scope name) := by
  simp [complaint, within, qualify_eq]

namespace Survey

variable {file scope : String}

theorem illTyped_eq_complaints (path : String) (fields : List FieldDescriptor) :
    illTyped file path fields =
      ((fields.map (PlacedField.mk [])).filter (·.field.IsIllTyped)).map
        (·.complaint file path) := by
  have hmessage : Diagnostic.unknownType file path =
      fun x => (PlacedField.mk [] x).complaint file path := by
    funext x
    cases h : x.type? <;> simp [Diagnostic.unknownType, PlacedField.complaint, qualify_eq, h]
  have hfilter (x : FieldDescriptor) : x.declaredType?.isNone = decide x.IsIllTyped := by
    rw [Bool.eq_iff_iff, Option.isNone_iff_eq_none, decide_eq_true_iff]
    exact FieldDescriptor.declaredType?_eq_none_iff
  simp only [illTyped, hmessage, hfilter, List.filter_map, List.map_map, Function.comp_def]

/-- The problems of a message are the complaints about its ill-typed fields. -/
theorem problems_eq_complaints (m : MessageDescriptor) :
    problems file (qualify scope m.name) m =
      (m.placedFields.filter (·.field.IsIllTyped)).map (·.complaint file scope) := by
  induction m using MessageDescriptor.tree_induction generalizing scope with
  | step m ih =>
    have hnested : problemsIn file (qualify scope m.name) m.nested =
        ((m.nested.flatMap MessageDescriptor.placedFields).filter (·.field.IsIllTyped)).map
          (·.complaint file (qualify scope m.name)) := by
      rw [problemsIn_eq_flatMap, List.filter_flatMap, List.map_flatMap]
      exact List.flatMap_congr fun n hn => ih n hn
    rw [problems_eq, hnested, illTyped_eq_complaints, MessageDescriptor.placedFields_eq,
      ← List.map_append, ← List.filter_append, List.filter_map, List.map_map]
    simp only [Function.comp_def, PlacedField.complaint_within]
    rfl

theorem problemsOf_eq_complaints (f : FileDescriptor) : problemsOf f = f.complaints := by
  rw [problemsOf, problemsIn_eq_flatMap, FileDescriptor.complaints, FileDescriptor.placedFields,
    MessageDescriptor.placedFieldsIn_eq_flatMap, List.filter_flatMap, List.map_flatMap]
  exact List.flatMap_congr fun m _ => problems_eq_complaints m

end Survey

namespace Session

variable (style : Dialect) (log : Log) (steps : List Step)

def Step.isSettle : Step → Bool
  | .settle => true
  | _ => false

/-- What a step adds to the log. -/
def Step.records : Step → List Diagnostic
  | .record d => [d]
  | .generate f => f.complaints
  | .settle => []

/-- What has been recorded since the log was last settled. -/
def pending : List Diagnostic := (steps.rtakeWhile (!·.isSettle)).flatMap Step.records

theorem step_eq (s : Step) : step style log s = match s with
    | .record d => (.recorded, ⟨log.entries ++ [d]⟩)
    | .generate f => (.generated (style.header f {}).1, ⟨log.entries ++ f.complaints⟩)
    | .settle => (.settled (if log.entries = [] then .ok () else .error log), {}) := by
  cases s with
  | record d => rfl
  | generate f => simp [step, Dialect.header_eq, Survey.problemsOf_eq_complaints]
  | settle => simp [step, Log.toExcept, Log.isEmpty]

/-- Settling leaves nothing pending, and any other step adds what it records. -/
theorem pending_concat (s : Step) : pending (steps ++ [s]) =
    if s.isSettle then [] else pending steps ++ s.records := by
  cases s with
  | settle => simp [pending, Step.isSettle]
  | record d => simp [pending, Step.isSettle]
  | generate f => simp [pending, Step.isSettle]

/-- The log holds what is pending and nothing else. -/
theorem logAfter_eq_pending : logAfter style {} steps = ⟨pending steps⟩ := by
  induction steps using List.reverseRecOn with
  | nil => rfl
  | append_singleton steps s ih =>
    have hlast : logAfter style {} (steps ++ [s]) = (step style (logAfter style {} steps) s).2 := by
      simp [logAfter]
    rw [hlast, ih, pending_concat, step_eq]
    cases s with
    | record d => rfl
    | generate f => rfl
    | settle => rfl

/-- A log is exact at each step: a header is what it would be with an empty log, its file adds one
diagnostic for each ill-typed field, and settling gives what was recorded since the last time. -/
theorem run_exact (before after : List Step) (s : Step) :
    (run style (before ++ s :: after) {}).length = before.length + 1 + after.length ∧
    (run style (before ++ s :: after) {})[before.length]? = some (match s with
      | .record d => (.recorded, ⟨pending before ++ [d]⟩)
      | .generate f => (.generated (style.header f {}).1, ⟨pending before ++ f.complaints⟩)
      | .settle => (.settled (if pending before = [] then .ok () else .error ⟨pending before⟩),
          {})) := by
  constructor
  · rw [length_run, List.length_append, List.length_cons]
    omega
  · rw [getElem?_run, logAfter_eq_pending, step_eq]

/-- Ill-typed fields at two depths of a package, beside a field that has a type. -/
def nestedProblems : FileDescriptor where
  name? := "f.proto"
  package? := "p.q"
  messages := [{
    name? := "A"
    fields := [{ name? := "y", type? := some 99 }, { name? := "z", type? := some 5 }]
    nested := [{ name? := "B", fields := [{ name? := "x" }] }] }]

/-- An ill-typed field of a file without a package. -/
def bareProblem : FileDescriptor where
  name? := "g.proto"
  messages := [{ name? := "A", fields := [{ name? := "x" }] }]

theorem run_exact_nested :
    let note : Diagnostic := ⟨"f.proto", "p.q", "seen before"⟩
    let before : List Step := [.record note, .generate nestedProblems, .generate bareProblem]
    (run {} (before ++ [.settle]) {})[3]? = some (.settled (.error ⟨[note,
      ⟨"f.proto", "p.q.A.B.x", "unknown field type (missing)"⟩,
      ⟨"f.proto", "p.q.A.y", "unknown field type (99)"⟩,
      ⟨"g.proto", "A.x", "unknown field type (missing)"⟩]⟩), ⟨[]⟩) := by
  intro note before
  have hpending : pending before = [note,
      ⟨"f.proto", "p.q.A.B.x", "unknown field type (missing)"⟩,
      ⟨"f.proto", "p.q.A.y", "unknown field type (99)"⟩,
      ⟨"g.proto", "A.x", "unknown field type (missing)"⟩] := by decide +kernel
  have hexact := (run_exact {} before [] .settle).2
  rw [hpending] at hexact
  exact hexact

end Session

end SchemaHeader
