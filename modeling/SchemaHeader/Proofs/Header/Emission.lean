import Mathlib.Algebra.BigOperators.Group.List.Basic
import SchemaHeader.Proofs.Header.Outline
import SchemaHeader.Header.Walk

/-! What the small parts of a schema add to a draft: the lines of their outline, their tally and
the diagnostics of their survey. The level is the same afterwards. -/
namespace SchemaHeader

attribute [ext] Tally

instance : AddCommMonoid Tally where
  add_assoc _ _ _ := Tally.ext (Nat.add_assoc ..) (Nat.add_assoc ..) (Nat.add_assoc ..)
  zero_add _ := Tally.ext (Nat.zero_add _) (Nat.zero_add _) (Nat.zero_add _)
  add_zero _ := rfl
  add_comm _ _ := Tally.ext (Nat.add_comm ..) (Nat.add_comm ..) (Nat.add_comm ..)
  nsmul n t := ⟨n * t.messages, n * t.enums, n * t.fields⟩
  nsmul_zero _ := Tally.ext (Nat.zero_mul _) (Nat.zero_mul _) (Nat.zero_mul _)
  nsmul_succ _ _ := Tally.ext (Nat.succ_mul ..) (Nat.succ_mul ..) (Nat.succ_mul ..)

theorem Tally.nsmul_eq (n : Nat) (t : Tally) :
    n • t = ⟨n * t.messages, n * t.enums, n * t.fields⟩ := rfl

theorem Survey.flatMap_illTyped (file path : String) (fields : List FieldDescriptor) :
    fields.flatMap (fun f => illTyped file path [f]) = illTyped file path fields := by
  induction fields with
  | nil => rfl
  | cons f rest ih =>
    rw [List.flatMap_cons, ih]
    simp [illTyped, ← List.map_append, ← List.filter_append]

/-- What stands in front of a line is one unit for each level. -/
theorem indentation_eq_join (unit : String) (level : Nat) :
    indentation unit level = String.join (List.replicate level unit) := by
  induction level with
  | zero => simp [indentation]
  | succ level ih => simp [indentation, List.replicate_succ, ih]

namespace Line

variable {unit : String} {l : Line} {lines more : List Line}

@[simp] theorem renderAll_nil : renderAll unit [] = "" := by
  simp [renderAll]

@[simp] theorem renderAll_cons :
    renderAll unit (l :: lines) = l.render unit ++ renderAll unit lines := by
  simp [renderAll]

@[simp] theorem renderAll_append :
    renderAll unit (lines ++ more) = renderAll unit lines ++ renderAll unit more := by
  simp [renderAll]

end Line

namespace Draft

variable {d : Draft} {lines more : List Line} {tally count : Tally}
  {problems others : List Diagnostic} {level : Nat}

/-- The draft with lines, counts and diagnostics added. -/
def extend (lines : List Line) (tally : Tally) (problems : List Diagnostic) (d : Draft) : Draft :=
  { d with
    text := d.text ++ Line.renderAll d.indentUnit lines
    tally := d.tally + tally
    log := ⟨d.log.entries ++ problems⟩ }

@[simp] theorem level_extend : (d.extend lines tally problems).level = d.level := rfl

@[simp] theorem fileName_extend : (d.extend lines tally problems).fileName = d.fileName := rfl

@[simp] theorem level_atLevel : (d.atLevel level).level = level := rfl

@[simp] theorem fileName_atLevel : (d.atLevel level).fileName = d.fileName := rfl

@[simp] theorem extend_nil : d.extend [] 0 [] = d := by
  simp [extend]

@[simp] theorem extend_extend : (d.extend lines tally problems).extend more count others =
    d.extend (lines ++ more) (tally + count) (problems ++ others) := by
  simp [extend, String.append_assoc, add_assoc]

@[simp] theorem extend_atLevel : (d.atLevel level).extend lines tally problems =
    (d.extend lines tally problems).atLevel level := rfl

@[simp] theorem atLevel_atLevel {other : Nat} :
    (d.atLevel level).atLevel other = d.atLevel other := rfl

@[simp] theorem extend_atLevel_self : (d.extend lines tally problems).atLevel d.level =
    d.extend lines tally problems := rfl

theorem deeper_eq : d.deeper = d.atLevel (d.level + 1) := rfl

theorem shallower_eq : d.shallower = d.atLevel (d.level - 1) := rfl

theorem line_eq (s : String) : d.line s = d.extend [⟨d.level, s⟩] 0 [] := by
  simp [line, extend, Line.render, indentation_eq_join, String.append_assoc]

theorem blank_eq : d.blank = d.extend [.blank] 0 [] := by
  simp [blank, extend, Line.render, Line.blank]

theorem count_eq (what : Tally) : d.count what = d.extend [] what [] := by
  simp [count, extend]

theorem report_eq (problem : Diagnostic) : d.report problem = d.extend [] 0 [problem] := by
  simp [report, extend, Log.add]

/-- A loop over parts, each of which adds what it has at the level that the loop starts with. -/
theorem foldl_extend {α : Type} {step : Draft → α → Draft} (lines : Nat → α → List Line)
    (tally : α → Tally) (problems : String → α → List Diagnostic)
    (h : ∀ {d : Draft} (a : α),
      step d a = d.extend (lines d.level a) (tally a) (problems d.fileName a))
    (parts : List α) : parts.foldl step d =
      d.extend (parts.flatMap (lines d.level)) (parts.map tally).sum
        (parts.flatMap (problems d.fileName)) := by
  induction parts generalizing d with
  | nil => simp
  | cons a rest ih => simp [h, ih]

theorem lines_eq (texts : List String) :
    d.lines texts = d.extend (texts.map (Line.mk d.level)) 0 [] := by
  rw [lines, foldl_extend (fun level s => [⟨level, s⟩]) (fun _ => 0) (fun _ _ => []) line_eq texts,
    ← List.map_eq_flatMap]
  simp [List.flatMap_def]

theorem table_eq (opening : String) (entries : List String) :
    d.table opening entries = d.extend (Outline.table d.level opening entries) 0 [] := by
  simp [table, line_eq, lines_eq, deeper_eq, shallower_eq, Outline.table]

/-- An enum adds its outline and is counted. -/
theorem enum_eq (e : EnumDescriptor) :
    d.enum e = d.extend (Outline.enum d.level e) { enums := 1 } [] := by
  simp [enum, count_eq, line_eq, lines_eq, table_eq, blank_eq, Outline.enum, Function.comp_def]

theorem enums_eq (enums : List EnumDescriptor) :
    enums.foldl (fun d e => d.enum e) d =
      d.extend (enums.flatMap (Outline.enum d.level)) { enums := enums.length } [] := by
  rw [foldl_extend Outline.enum (fun _ => { enums := 1 }) (fun _ _ => []) enum_eq enums]
  simp [Tally.nsmul_eq, List.flatMap_def]

/-- A field without a known type adds its diagnostic in place of its constant. -/
theorem field_eq (path : String) (f : FieldDescriptor) : d.field path f =
    d.extend (Outline.field d.level f) { fields := 1 } (Survey.illTyped d.fileName path [f]) := by
  cases h : f.declaredType? <;>
    simp [field, FieldId.ofField?, h, count_eq, line_eq, report_eq, blank_eq, Outline.field,
      Survey.illTyped]

/-- Fields add their outlines, and the ill-typed ones their problems. -/
theorem fields_eq (path : String) (fields : List FieldDescriptor) :
    fields.foldl (fun d f => d.field path f) d =
      d.extend (fields.flatMap (Outline.field d.level)) { fields := fields.length }
        (Survey.illTyped d.fileName path fields) := by
  rw [foldl_extend Outline.field (fun _ => { fields := 1 })
    (fun file f => Survey.illTyped file path [f]) (field_eq path) fields]
  simp [Tally.nsmul_eq, Survey.flatMap_illTyped]

theorem fieldTables_eq (fields : List FieldDescriptor) :
    d.fieldTables fields = d.extend (Outline.fieldTables d.level fields) 0 [] := by
  simp [fieldTables, line_eq, table_eq, blank_eq, Outline.fieldTables]

end Draft

end SchemaHeader
