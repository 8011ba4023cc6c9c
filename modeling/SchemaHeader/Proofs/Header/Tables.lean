import SchemaHeader.Proofs.Generation
import SchemaHeader.Proofs.Header.Lines

/-! The constants of a header and the tables that list them. In a header that is handed out every
entry of a table has its constant, and the entries stand in the order of the schema. -/
namespace SchemaHeader.Tables

open Text (constantName)

/-- A table tells its size in its first line and has one line for each entry. -/
def table (depth : Nat) (type name : String) (entries : List String) : List Line :=
  ⟨depth, "static const " ++ type ++ " " ++ name ++ "[" ++ toString entries.length ++ "] = \x7b"⟩ ::
    (entries.map fun entry => ⟨depth + 1, entry ++ ","⟩) ++ [⟨depth, "\x7d;"⟩]

def count (depth : Nat) (name : String) (size : Nat) : Line :=
  ⟨depth, "static const int " ++ name ++ " = " ++ toString size ++ ";"⟩

def quoted (name : String) : String := "\"" ++ name ++ "\""

/-- The lines of one field: a comment and a single constant, whose literal is an ID with the
field's number, type and cardinality. -/
def DeclaresField (depth : Nat) (x : FieldDescriptor) (lines : List Line) : Prop :=
  ∃ comment literal id type,
    lines = [⟨depth, "// " ++ comment⟩,
      ⟨depth, "const uint64_t " ++ constantName x.name ++ " = " ++ literal ++ ";"⟩, .blank] ∧
    FieldId.ofLiteral? literal = some id ∧ x.declaredType? = some type ∧
    id.number = x.number.toUInt32 ∧ id.type? = some type ∧ id.cardinality? = some x.cardinality

/-- The lines of all fields of a message: first those of each field, then the tables. -/
def DeclaresFields (depth : Nat) (fields : List FieldDescriptor) (lines : List Line) : Prop :=
  ∃ blocks, List.Forall₂ (DeclaresField depth) fields blocks ∧
    lines = blocks.flatten ++ [count depth "_FIELD_COUNT" fields.length] ++
      table depth "char*" "_FIELD_NAMES" (fields.map fun x => quoted x.name) ++
      table depth "uint64_t" "_FIELD_IDS" (fields.map fun x => constantName x.name) ++ [.blank]

def DeclaresEnum (depth : Nat) (e : EnumDescriptor) (lines : List Line) : Prop :=
  let base := constantName e.name
  lines = ⟨depth, "// enum " ++ e.name⟩ ::
    (e.values.map fun v =>
      ⟨depth, "const int " ++ constantName v.name ++ " = " ++ toString v.number ++ ";"⟩) ++
    [count depth ("_ENUM_" ++ base ++ "_COUNT") e.values.length] ++
    table depth "char*" ("_ENUM_" ++ base ++ "_NAMES")
      (e.values.map fun v => quoted (Text.afterLead v.name (base ++ "_"))) ++
    table depth "int" ("_ENUM_" ++ base ++ "_VALUES") (e.values.map fun v => constantName v.name) ++
    [.blank]

mutual

/-- The block of a message. Its own fields stand in its own namespace, after the blocks of its
enums and of its nested messages. -/
def DeclaresMessage (depth : Nat) : MessageDescriptor → List Line → Prop
  | ⟨name?, fields, nested, enums⟩, lines =>
    ∃ enumBlocks nestedLines fieldLines,
      lines = [⟨depth, "// message " ++ name?.getD ""⟩,
          ⟨depth, "namespace " ++ name?.getD "" ++ " \x7b"⟩] ++ enumBlocks.flatten ++
        nestedLines ++ fieldLines ++ [⟨depth, "\x7d //" ++ name?.getD ""⟩, .blank] ∧
      List.Forall₂ (DeclaresEnum (depth + 1)) enums enumBlocks ∧
      DeclaresMessages (depth + 1) nested nestedLines ∧
      DeclaresFields (depth + 1) fields fieldLines

/-- The blocks of messages, one after the other. -/
def DeclaresMessages (depth : Nat) : List MessageDescriptor → List Line → Prop
  | [], lines => lines = []
  | m :: rest, lines => ∃ block others, lines = block ++ others ∧
      DeclaresMessage depth m block ∧ DeclaresMessages depth rest others

end

/-- All that a schema file declares, between the lines that open its header and its package and
the lines that close them. -/
def DeclaresFile (f : FileDescriptor) (lines : List Line) : Prop :=
  ∃ opening enumBlocks messageLines closing,
    lines = opening ++ enumBlocks.flatten ++ messageLines ++ closing ∧
    List.Forall₂ (DeclaresEnum 0) f.enums enumBlocks ∧ DeclaresMessages 0 f.messages messageLines

section Outline

variable (depth : Nat)

theorem forall₂_map {α : Type} {R : α → List Line → Prop} {block : α → List Line} {parts : List α}
    (h : ∀ a ∈ parts, R a (block a)) : List.Forall₂ R parts (parts.map block) := by
  rw [List.forall₂_map_right_iff, List.forall₂_same]
  exact h

theorem table_outline (type name : String) (entries : List String) :
    Outline.table depth (Phrase.tableOpening type name entries.length)
      (entries.map Phrase.listed) = table depth type name entries := by
  rw [Outline.table, List.map_map]
  rfl

theorem count_outline (name : String) (size : Nat) :
    ⟨depth, "static " ++ Phrase.intConstant name (toString size)⟩ = count depth name size := by
  have hwords : "static const int " = "static " ++ "const int " := by decide
  rw [count, hwords]
  simp only [Phrase.intConstant, String.append_assoc]

theorem listed_quoted (name : String) : Phrase.listed (quoted name) = Phrase.quoted name := by
  have hend : "\"," = "\"" ++ "," := by decide
  rw [Phrase.quoted, hend]
  simp only [Phrase.listed, quoted, String.append_assoc]

theorem declaresField_outline {x : FieldDescriptor} (h : ¬ x.IsIllTyped) :
    DeclaresField depth x (Outline.field depth x) := by
  rw [← FieldDescriptor.declaredType?_eq_none_iff, ← ne_eq, Option.ne_none_iff_exists'] at h
  obtain ⟨type, htype⟩ := h
  have hid : FieldId.ofField? x = some (.ofParts x.number type x.cardinality) := by
    rw [FieldId.ofField?, htype, Option.map_some]
  obtain ⟨comment, hcomment⟩ : ∃ comment, Phrase.fieldComment x = "// " ++ comment := by
    simp only [Phrase.fieldComment, String.append_assoc]
    exact ⟨_, rfl⟩
  refine ⟨comment, _, _, type, ?_, FieldId.ofLiteral?_literal, htype, FieldId.number_ofParts,
    FieldId.type?_ofParts, FieldId.cardinality?_ofParts⟩
  rw [Outline.field, hid, hcomment]
  rfl

theorem declaresFields_outline {fields : List FieldDescriptor}
    (h : ∀ x ∈ fields, ¬ x.IsIllTyped) : DeclaresFields depth fields
      (fields.flatMap (Outline.field depth) ++ Outline.fieldTables depth fields) := by
  refine ⟨fields.map (Outline.field depth),
    forall₂_map fun x hx => declaresField_outline depth (h x hx), ?_⟩
  have hnames := table_outline depth "char*" "_FIELD_NAMES"
    (fields.map fun x => quoted x.name)
  have hids := table_outline depth "uint64_t" "_FIELD_IDS"
    (fields.map fun x => constantName x.name)
  simp only [List.length_map, List.map_map, Function.comp_def, listed_quoted] at hnames hids
  rw [List.flatMap_def, Outline.fieldTables, hnames, hids, count_outline]
  simp only [List.append_assoc, List.cons_append, List.nil_append]

theorem declaresEnum_outline (e : EnumDescriptor) :
    DeclaresEnum depth e (Outline.enum depth e) := by
  have hnames := table_outline depth "char*" (Phrase.enumTable e ++ "_NAMES")
    (e.values.map fun v => quoted (Phrase.shortName e v))
  have hvalues := table_outline depth "int" (Phrase.enumTable e ++ "_VALUES")
    (e.values.map fun v => constantName v.name)
  simp only [List.length_map, List.map_map, Function.comp_def, listed_quoted] at hnames hvalues
  rw [DeclaresEnum, Outline.enum, hnames, hvalues, count_outline]
  rfl

theorem declaresMessages_outline {ms : List MessageDescriptor}
    (h : ∀ m ∈ ms, DeclaresMessage depth m (Outline.message depth m)) :
    DeclaresMessages depth ms (ms.flatMap (Outline.message depth)) := by
  induction ms with
  | nil => rfl
  | cons m rest ih =>
    rw [List.forall_mem_cons] at h
    exact ⟨_, _, List.flatMap_cons, h.1, ih h.2⟩

/-- A message declares all that is in it, by induction on those inside it. -/
theorem declaresMessage_outline {m : MessageDescriptor}
    (h : ∀ n ∈ m.tree, ∀ x ∈ n.fields, ¬ x.IsIllTyped) :
    DeclaresMessage depth m (Outline.message depth m) := by
  induction m using MessageDescriptor.tree_induction generalizing depth with
  | step m ih =>
    rw [MessageDescriptor.forall_mem_tree] at h
    have hnested := declaresMessages_outline _ fun n hn => ih n hn (depth + 1) (h.2 n hn)
    have henums := forall₂_map fun e (_ : e ∈ m.enums) => declaresEnum_outline (depth + 1) e
    have hfields := declaresFields_outline (depth + 1) h.1
    rw [Outline.message_eq]
    obtain ⟨name?, fields, nested, enums⟩ := m
    refine ⟨_, _, _, ?_, henums, hnested, hfields⟩
    simp [MessageDescriptor.name, Phrase.scopeOpening, Phrase.messageClosing, List.flatMap_def]

/-- A schema whose fields are well typed declares all that is in it. -/
theorem declaresFile_outline {guard : String} {f : FileDescriptor}
    (h : ∀ m ∈ f.everyMessage, ∀ x ∈ m.fields, ¬ x.IsIllTyped) :
    DeclaresFile f (Outline.schema guard f) := by
  rw [FileDescriptor.forall_mem_everyMessage] at h
  have henums := forall₂_map fun e (_ : e ∈ f.enums) => declaresEnum_outline 0 e
  have hmessages := declaresMessages_outline 0 fun m hm => declaresMessage_outline 0 (h m hm)
  let scopes := Text.segments f.package '.'
  refine ⟨Outline.preamble guard f.name ++
      scopes.map (fun scope => ⟨0, Phrase.scopeOpening scope⟩) ++ [.blank], _, _,
    scopes.reverse.map (fun scope => ⟨0, Phrase.packageClosing scope⟩) ++
      [.blank, ⟨0, "#endif // " ++ guard⟩], ?_, henums, hmessages⟩
  rw [Outline.schema_eq, List.flatMap_def, List.append_assoc _ _ [Line.blank, _]]

end Outline

/-- The headers of a request belong to the files that it wants one by one, and each declares all
that its file does, with tables in the order of the schema. -/
theorem headers_declare (style : Dialect) (request : Request) (headers : List Header)
    (h : style.headers request = .ok headers) :
    List.Forall₂ (fun f header =>
        ∃ lines, header.content = Line.renderAll style.indent lines ∧ DeclaresFile f lines)
      (request.files.filter fun f => f.name ∈ request.wanted) headers := by
  have heq := h.symm.trans (style.headers_eq request)
  split at heq
  · next hclean =>
    obtain rfl := Except.ok.inj heq
    rw [List.forall₂_map_right_iff, List.forall₂_same]
    intro f hf
    exact ⟨_, style.content_eq f {},
      declaresFile_outline ((Survey.problemsOf_eq_nil_iff f).mp (hclean f hf))⟩
  · cases heq

theorem headers_declare_nested :
    let request : Request := {
      wanted := ["a.proto"]
      files := [
        { name? := some "bad.proto", messages := [{ fields := [{ type? := some 0 }] }] },
        { name? := some "a.proto"
          messages := [
            { name? := some "Outer"
              fields := [
                { name? := some "fooBar", number? := some (-1), type? := some 5 },
                { name? := some "foo_bar", label? := some 3, type? := some 18 }]
              nested := [{ name? := some "Inner", fields := [{ type? := some 11 }] }]
              enums := [
                { name? := some "Kind"
                  values := [{ name? := some "KIND_A", number? := some 7 }] }] }] }] }
    ∃ headers, ({} : Dialect).headers request = .ok headers ∧ headers.length = 1 ∧
      List.Forall₂ (fun f header =>
          ∃ lines, header.content = Line.renderAll "    " lines ∧ DeclaresFile f lines)
        (request.files.filter fun f => f.name ∈ request.wanted) headers := by
  intro request
  have h : ({} : Dialect).headers request =
      .ok ((request.files.filter fun f => f.name ∈ request.wanted).map
        fun f => (({} : Dialect).header f {}).1) :=
    (Dialect.headers_eq {} request).trans (if_pos (by decide))
  exact ⟨_, h, rfl, headers_declare {} request _ h⟩

end SchemaHeader.Tables
