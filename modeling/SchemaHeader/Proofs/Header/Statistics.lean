import Mathlib.Data.Nat.Cast.Basic
import SchemaHeader.Proofs.Generation
import SchemaHeader.Proofs.Header.Lines

/-! How many elements a header is said to hold, against the elements that its schema declares and
the constants that its text defines. -/
namespace SchemaHeader

open Text (constantName)

theorem sum_map_flatMap {α β M : Type} [AddMonoid M] (as : List α) (f : α → List β) (g : β → M) :
    ((as.flatMap f).map g).sum = (as.map fun a => ((f a).map g).sum).sum := by
  rw [List.map_flatMap, List.flatMap_def, List.sum_flatten, List.map_map]
  rfl

/-- What a message declares itself. -/
def MessageDescriptor.count (m : MessageDescriptor) : Tally where
  messages := 1
  enums := m.enums.length
  fields := m.fields.length

/-- What a file declares: its own enums, and its messages at every depth with the enums and the
fields of each of them. -/
def FileDescriptor.count (f : FileDescriptor) : Tally where
  messages := f.everyMessage.length
  enums := f.enums.length + (f.everyMessage.map (·.enums.length)).sum
  fields := (f.everyMessage.map (·.fields.length)).sum

theorem Tally.sum_eq (ts : List Tally) : ts.sum =
    ⟨(ts.map (·.messages)).sum, (ts.map (·.enums)).sum, (ts.map (·.fields)).sum⟩ := by
  induction ts with
  | nil => rfl
  | cons t rest ih =>
    rw [List.sum_cons, ih]
    rfl

theorem Tally.total_eq_sum (tallies : List Tally) : Tally.total tallies = tallies.sum :=
  List.sum_eq_foldl.symm

theorem Survey.tallies_eq_sum (ms : List MessageDescriptor) : tallies ms = (ms.map tally).sum := by
  induction ms with
  | nil => rfl
  | cons m rest ih => rw [tallies, ih, List.map_cons, List.sum_cons]

/-- A message tallies itself and all messages inside it. -/
theorem Survey.tally_eq_sum (m : MessageDescriptor) :
    tally m = (m.tree.map MessageDescriptor.count).sum := by
  induction m using MessageDescriptor.tree_induction with
  | step m ih =>
    have htally : tally m = m.count + (m.nested.map tally).sum := by
      obtain ⟨name?, fields, nested, enums⟩ := m
      rw [tally, tallies_eq_sum]
      rfl
    rw [htally, List.map_congr_left ih, MessageDescriptor.tree_eq, List.map_cons, List.sum_cons,
      sum_map_flatMap]

/-- The tally of a schema counts all that it declares. -/
theorem Survey.tallyFile_eq_count (f : FileDescriptor) : tallyFile f = f.count := by
  have hmessages : tallies f.messages = (f.everyMessage.map MessageDescriptor.count).sum := by
    rw [tallies_eq_sum, List.map_congr_left fun m _ => tally_eq_sum m,
      FileDescriptor.everyMessage, MessageDescriptor.trees_eq_flatMap, sum_map_flatMap]
  have hparts : (f.everyMessage.map MessageDescriptor.count).sum =
      ⟨f.everyMessage.length, (f.everyMessage.map (·.enums.length)).sum,
        (f.everyMessage.map (·.fields.length)).sum⟩ := by
    simp [Tally.sum_eq, MessageDescriptor.count, Function.comp_def]
  rw [tallyFile, hmessages, hparts]
  exact Tally.ext (Nat.zero_add _) rfl (Nat.zero_add _)

namespace Text

/-- The row defines the constant of a field. It may begin with blanks. -/
def definesField (row : String) : Bool :=
  "const uint64_t ".toList.isPrefixOf (row.toList.dropWhile (·.isWhitespace))

/-- How many rows of the text define the constant of a field. -/
def fieldConstants (text : String) : Nat :=
  (text.toList.splitOn '\n').countP fun row => definesField (String.ofList row)

variable {text : String}

theorem definesField_append (rest : String) : definesField ("const uint64_t " ++ rest) = true := by
  simp [definesField, List.isPrefixOf]

theorem definesField_of_head (c : Char) (hhead : text.toList.head? = some c)
    (hc : (!c.isWhitespace && c != 'c') = true) : definesField text = false := by
  cases htext : text.toList with
  | nil => simp [htext] at hhead
  | cons d rest =>
    obtain rfl : d = c := by simpa [htext] using hhead
    rw [Bool.and_eq_true, Bool.not_eq_true', bne_iff_ne] at hc
    have hne : ('c' == d) = false := beq_eq_false_iff_ne.mpr hc.2.symm
    simp [definesField, htext, List.isPrefixOf, hc.1, hne]

theorem definesField_of_not_mem (h : 'c' ∉ text.toList) : definesField text = false := by
  rw [← Bool.not_eq_true, definesField, List.isPrefixOf_iff_prefix]
  intro hlead
  exact h ((List.dropWhile_suffix _).mem (hlead.mem (by decide)))

section Phrases

open Phrase

variable {type name value : String} {count : Nat} {x : FieldDescriptor} {id : FieldId}

theorem definesField_fieldConstant : definesField (fieldConstant x id) = true := by
  unfold fieldConstant
  simp only [String.append_assoc]
  exact definesField_append _

theorem definesField_fieldComment : definesField (fieldComment x) = false :=
  definesField_of_head '/' (by simp [fieldComment]) rfl

@[simp] theorem definesField_intConstant : definesField (intConstant name value) = false := by
  simp [definesField, intConstant, List.isPrefixOf]

@[simp] theorem definesField_static : definesField ("static " ++ text) = false :=
  definesField_of_head 's' (by simp) rfl

@[simp] theorem definesField_tableOpening :
    definesField (tableOpening type name count) = false := by
  unfold tableOpening
  exact definesField_of_head 's' (by simp) rfl

@[simp] theorem definesField_tableClosing : definesField tableClosing = false := by
  decide

@[simp] theorem definesField_quoted : definesField (quoted name) = false :=
  definesField_of_head '"' (by simp [quoted]) rfl

/-- The names of constants have no small letters. -/
@[simp] theorem definesField_listed : definesField (listed (constantName name)) = false := by
  apply definesField_of_not_mem
  rw [listed, String.toList_append, List.mem_append]
  rintro (h | h)
  · have := isLower_of_mem_constantName h
    cases this
  · revert h
    decide

@[simp] theorem definesField_scopeOpening : definesField (scopeOpening name) = false :=
  definesField_of_head 'n' (by simp [scopeOpening]) rfl

@[simp] theorem definesField_packageClosing : definesField (packageClosing name) = false :=
  definesField_of_head '\x7d' (by simp [packageClosing]) rfl

@[simp] theorem definesField_messageClosing : definesField (messageClosing name) = false :=
  definesField_of_head '\x7d' (by simp [messageClosing]) rfl

end Phrases

end Text

namespace Line

open Text (definesField)

variable {unit : String} {depth : Nat} {lines more : List Line}

@[simp] theorem definesField_blank : definesField blank.text = false := by
  decide

/-- How many of the lines define the constant of a field. -/
def fieldConstants (lines : List Line) : Nat := lines.countP (definesField ·.text)

@[simp] theorem fieldConstants_nil : fieldConstants [] = 0 := rfl

@[simp] theorem fieldConstants_cons (l : Line) : fieldConstants (l :: lines) =
    fieldConstants lines + if definesField l.text then 1 else 0 :=
  List.countP_cons

@[simp] theorem fieldConstants_append :
    fieldConstants (lines ++ more) = fieldConstants lines + fieldConstants more :=
  List.countP_append

theorem fieldConstants_flatMap {α : Type} (parts : List α) (f : α → List Line) :
    fieldConstants (parts.flatMap f) = (parts.map fun a => fieldConstants (f a)).sum :=
  List.countP_flatMap

theorem fieldConstants_map {α : Type} (parts : List α) (f : α → String)
    (h : ∀ a, definesField (f a) = false) :
    fieldConstants (parts.map fun a => ⟨depth, f a⟩) = 0 := by
  simp [fieldConstants, h]

/-- The rows of a text define what its lines define, unless a line is broken in two. -/
theorem fieldConstants_renderAll (hunit : ∀ c ∈ unit.toList, c = ' ' ∨ c = '\t')
    (h : ∀ l ∈ lines, '\n' ∉ l.text.toList) :
    Text.fieldConstants (renderAll unit lines) = fieldConstants lines := by
  have hrow (l : Line) : definesField (String.ofList (l.row unit)) = definesField l.text := by
    rw [definesField, definesField, row, String.ofList_toList, String.toList_append,
      List.dropWhile_append_of_pos fun c hc => isWhitespace_of_mem_indentation hunit hc]
  have hlast : definesField (String.ofList []) = false := by decide
  rw [Text.fieldConstants, splitOn_renderAll (break_not_mem_unit hunit) h, List.countP_append,
    List.countP_map, List.countP_singleton, hlast]
  simp only [Function.comp_def, hrow, fieldConstants]
  rfl

end Line

namespace Outline

open Line (fieldConstants fieldConstants_flatMap fieldConstants_map)
open Text (definesField)

variable {depth : Nat}

theorem fieldConstants_table {α : Type} (type name : String) (count : Nat) (parts : List α)
    (entry : α → String) (h : ∀ a, definesField (entry a) = false) :
    fieldConstants (table depth (Phrase.tableOpening type name count) (parts.map entry)) = 0 := by
  simp [table, fieldConstants_map, Function.comp_def, h]

theorem fieldConstants_enum (e : EnumDescriptor) : fieldConstants (enum depth e) = 0 := by
  have hcomment : definesField ("// enum " ++ e.name) = false :=
    Text.definesField_of_head '/' (by simp) rfl
  simp [enum, hcomment, fieldConstants_map, fieldConstants_table]

theorem fieldConstants_enums (enums : List EnumDescriptor) :
    fieldConstants (enums.flatMap (enum depth)) = 0 := by
  simp [fieldConstants_flatMap, fieldConstants_enum]

theorem fieldConstants_fieldTables (fields : List FieldDescriptor) :
    fieldConstants (fieldTables depth fields) = 0 := by
  simp [fieldTables, fieldConstants_table]

/-- A field gets its constant or a diagnostic, and never both. -/
theorem fieldConstants_field (file path : String) (x : FieldDescriptor) :
    fieldConstants (field depth x) + (Survey.illTyped file path [x]).length = 1 := by
  cases h : x.declaredType? <;>
    simp [field, FieldId.ofField?, Survey.illTyped, h, Text.definesField_fieldComment,
      Text.definesField_fieldConstant]

/-- Constants and diagnostics of the parts add up to those of the whole. -/
theorem fieldConstants_add_length {α : Type} {parts : List α} {block : α → List Line}
    {problems : α → List Diagnostic} {size : α → Nat}
    (h : ∀ a ∈ parts, fieldConstants (block a) + (problems a).length = size a) :
    fieldConstants (parts.flatMap block) + (parts.flatMap problems).length =
      (parts.map size).sum := by
  rw [fieldConstants_flatMap, List.length_flatMap, ← List.sum_map_add, List.map_congr_left h]

theorem fieldConstants_fields (depth : Nat) (file path : String) (fields : List FieldDescriptor) :
    fieldConstants (fields.flatMap (field depth)) + (Survey.illTyped file path fields).length =
      fields.length := by
  rw [← Survey.flatMap_illTyped,
    fieldConstants_add_length fun x _ => fieldConstants_field file path x]
  simp

/-- Each field in a message has a constant or a problem, by induction on those inside it. -/
theorem fieldConstants_message (depth : Nat) (file path : String) (m : MessageDescriptor) :
    fieldConstants (message depth m) + (Survey.problems file path m).length =
      (m.tree.map (·.fields.length)).sum := by
  induction m using MessageDescriptor.tree_induction generalizing depth path with
  | step m ih =>
    have hcomment : definesField ("// message " ++ m.name) = false :=
      Text.definesField_of_head '/' (by simp) rfl
    have hnested := fieldConstants_add_length fun n (hn : n ∈ m.nested) =>
      ih n hn (depth + 1) (qualify path n.name)
    have hfields := fieldConstants_fields (depth + 1) file path m.fields
    have hlines : fieldConstants (message depth m) =
        fieldConstants (m.nested.flatMap (message (depth + 1))) +
          fieldConstants (m.fields.flatMap (field (depth + 1))) := by
      simp [message_eq, hcomment, fieldConstants_enums, fieldConstants_fieldTables]
    rw [hlines, Survey.problems_eq, Survey.problemsIn_eq_flatMap, List.length_append,
      MessageDescriptor.tree_eq, List.map_cons, List.sum_cons, sum_map_flatMap, ← hnested,
      ← hfields]
    ac_rfl

theorem fieldConstants_preamble (guard fileName : String) :
    fieldConstants (preamble guard fileName) = 0 := by
  have hbanner :
      definesField ("// Generated by " ++ generatorName ++ ". DO NOT MODIFY.") = false := by
    decide
  have hsource : definesField ("// source: " ++ fileName) = false :=
    Text.definesField_of_head '/' (by simp) rfl
  have hcheck : definesField ("#ifndef " ++ guard) = false :=
    Text.definesField_of_head '#' (by simp) rfl
  have hdefine : definesField ("#define " ++ guard) = false :=
    Text.definesField_of_head '#' (by simp) rfl
  simp [preamble, hbanner, hsource, hcheck, hdefine]

/-- Each field of a schema has a constant or a problem. -/
theorem fieldConstants_schema (guard : String) (f : FileDescriptor) :
    fieldConstants (schema guard f) + (Survey.problemsOf f).length = f.count.fields := by
  have hmessages := fieldConstants_add_length fun m (_ : m ∈ f.messages) =>
    fieldConstants_message 0 f.name (qualify f.package m.name) m
  have hfields : f.count.fields =
      (f.messages.map fun m => (m.tree.map (·.fields.length)).sum).sum := by
    simp only [FileDescriptor.count, FileDescriptor.everyMessage,
      MessageDescriptor.trees_eq_flatMap, sum_map_flatMap]
  rw [hfields, ← hmessages, schema_eq, Survey.problemsOf, Survey.problemsIn_eq_flatMap]
  have hguard : definesField ("#endif // " ++ guard) = false :=
    Text.definesField_of_head '#' (by simp) rfl
  simp [-List.map_reverse, fieldConstants_enums, fieldConstants_preamble, fieldConstants_map,
    hguard]

end Outline

namespace Dialect

variable (style : Dialect)

/-- The tally that comes with a header counts all that its schema declares. -/
theorem tally_header (f : FileDescriptor) (log : Log) : (style.header f log).1.tally = f.count := by
  rw [header_eq]
  exact Survey.tallyFile_eq_count f

/-- The counts of a header are those of its schema, and its constants fall short of the fields by
what the log has grown. Over the headers of a request the counts add up at every one of them. -/
theorem tally_exact :
    (∀ (f : FileDescriptor) (log : Log),
      let result := style.header f log
      let lines := Outline.schema (style.guard f.name) f
      result.1.tally = f.count ∧
      result.1.content = Line.renderAll style.indent lines ∧
      ∃ problems, result.2.entries = log.entries ++ problems ∧
        Line.fieldConstants lines + problems.length = f.count.fields ∧
        ((∀ c ∈ style.indent.toList, c = ' ' ∨ c = '\t') → (∀ l ∈ lines, '\n' ∉ l.text.toList) →
          Text.fieldConstants result.1.content + problems.length = f.count.fields)) ∧
    ∀ (request : Request) (headers : List Header), style.headers request = .ok headers →
      let chosen := request.files.filter fun f => f.name ∈ request.wanted
      Tally.total (headers.map (·.tally)) = (chosen.map FileDescriptor.count).sum ∧
      ∀ n, Tally.total ((headers.take n).map (·.tally)) =
        ((chosen.take n).map FileDescriptor.count).sum := by
  constructor
  · intro f log result lines
    have hfields := Outline.fieldConstants_schema (style.guard f.name) f
    refine ⟨style.tally_header f log, style.content_eq f log, Survey.problemsOf f, ?_, hfields, ?_⟩
    · simp only [result, header_eq]
    · intro hindent hbreak
      simp only [result, content_eq, Line.fieldConstants_renderAll hindent hbreak, lines, hfields]
  · intro request headers h chosen
    obtain ⟨_, rfl⟩ := (style.headers_eq_ok_iff).mp h
    have htotal (files : List FileDescriptor) :
        Tally.total ((files.map fun f => (style.header f {}).1).map (·.tally)) =
          (files.map FileDescriptor.count).sum := by
      rw [Tally.total_eq_sum, List.map_map]
      exact congrArg List.sum (List.map_congr_left fun f _ => style.tally_header f {})
    refine ⟨htotal chosen, fun n => ?_⟩
    rw [← List.map_take]
    exact htotal (chosen.take n)

/-- One of its five fields has no known type. -/
def uneven : FileDescriptor where
  name? := some "uneven.proto"
  messages := [
    { name? := some "Outer"
      fields := [{ name? := some "a", type? := some 5 }, { name? := some "b" }]
      enums := [{ name? := some "Kind", values := [{ name? := some "const_uint64_t" }] }]
      nested := [
        { name? := some "Middle"
          fields := [{ name? := some "c", type? := some 18 }]
          nested := [
            { name? := some "Inner", fields := [{ name? := some "d", type? := some 9 }] }] }] },
    { name? := some "Other", fields := [{ name? := some "e", type? := some 1 }] }]
  enums := [{ name? := some "Top" }]

/-- The uneven file is counted with its ill-typed field, and does no harm to a request that does
not ask for it. -/
theorem tally_exact_uneven :
    let style : Dialect := { indent := "\t" }
    let log : Log := { entries := [.unknownType "other.proto" "M" {}] }
    let even : FileDescriptor :=
      { name? := some "even.proto"
        messages := [{ nested := [{ fields := [{ type? := some 11 }] }], enums := [{}, {}] }] }
    let request : Request := { wanted := ["even.proto"], files := [even, uneven, even] }
    (style.header uneven log).1.tally = ⟨4, 2, 5⟩ ∧
    (style.header uneven log).2.entries.length = 2 ∧
    Text.fieldConstants (style.header uneven log).1.content = 4 ∧
    ∃ headers, style.headers request = .ok headers ∧
      Tally.total (headers.map (·.tally)) = ⟨4, 4, 2⟩ ∧
      Tally.total ((headers.take 1).map (·.tally)) = ⟨2, 2, 1⟩ := by
  intro style log even request
  have hentries : (style.header uneven log).2.entries.length = 2 := by
    rw [header_eq]
    decide
  have hfile : '\n' ∉ uneven.name.toList := by decide
  have hguard : '\n' ∉ (style.guard uneven.name).toList :=
    Line.break_not_mem_guard (by decide) (by decide) hfile
  have hnames : uneven.IsWellNamed := by decide
  have hbreak : ∀ l ∈ Outline.schema (style.guard uneven.name) uneven, '\n' ∉ l.text.toList :=
    fun l hl =>
      (Line.isTidy_of_mem_schema hguard hfile (by decide) hnames (by decide) hl).oneLine
  obtain ⟨htally, _, problems, hlog, _, htext⟩ := (tally_exact style).1 uneven log
  have hone : problems.length = 1 := by
    rw [hlog, List.length_append] at hentries
    exact Nat.add_left_cancel hentries
  have hrows := htext (by simp [style]) hbreak
  rw [hone] at hrows
  have hok : style.headers request =
      .ok ((request.files.filter fun f => f.name ∈ request.wanted).map
        fun f => (style.header f {}).1) :=
    (style.headers_eq request).trans (if_pos (by decide))
  obtain ⟨htotal, hrunning⟩ := (tally_exact style).2 request _ hok
  exact ⟨htally, hentries, Nat.add_right_cancel hrows, _, hok, htotal, hrunning 1⟩

end Dialect

end SchemaHeader
