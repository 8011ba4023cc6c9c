import SchemaHeader.Proofs.Header.Outline
import SchemaHeader.Proofs.Descriptor.Names
import SchemaHeader.Proofs.Header.Phrases

/-! The lines of a header in its text: none of them is broken in two, and what is not blank in a
line is the line's own text. -/
namespace SchemaHeader

open Text

variable {text unit : String} {c : Char} {depth : Nat}

theorem Outline.messages_eq_flatMap (ms : List MessageDescriptor) :
    Outline.messages depth ms = ms.flatMap (Outline.message depth) := by
  induction ms with
  | nil => rfl
  | cons m rest ih => rw [Outline.messages, ih, List.flatMap_cons]

theorem Outline.message_eq (m : MessageDescriptor) : Outline.message depth m =
    [⟨depth, "// message " ++ m.name⟩, ⟨depth, Phrase.scopeOpening m.name⟩] ++
      m.enums.flatMap (Outline.enum (depth + 1)) ++
      m.nested.flatMap (Outline.message (depth + 1)) ++
      m.fields.flatMap (Outline.field (depth + 1)) ++ Outline.fieldTables (depth + 1) m.fields ++
      [⟨depth, Phrase.messageClosing m.name⟩, .blank] := by
  obtain ⟨name?, fields, nested, enums⟩ := m
  rw [Outline.message, Outline.messages_eq_flatMap]
  rfl

/-- The lines before the first scope. -/
def Outline.preamble (guard fileName : String) : List Line :=
  [⟨0, "// Generated by " ++ generatorName ++ ". DO NOT MODIFY."⟩, ⟨0, "// source: " ++ fileName⟩,
    .blank, ⟨0, "#ifndef " ++ guard⟩, ⟨0, "#define " ++ guard⟩, .blank]

/-- The lines of a header come in the order of its parts. -/
theorem Outline.schema_eq (guard : String) (f : FileDescriptor) : Outline.schema guard f =
    Outline.preamble guard f.name ++
      (segments f.package '.').map (fun scope => ⟨0, Phrase.scopeOpening scope⟩) ++ [.blank] ++
      f.enums.flatMap (Outline.enum 0) ++ f.messages.flatMap (Outline.message 0) ++
      (segments f.package '.').reverse.map (fun scope => ⟨0, Phrase.packageClosing scope⟩) ++
      [.blank, ⟨0, "#endif // " ++ guard⟩] := by
  rw [Outline.schema, Outline.messages_eq_flatMap]
  rfl

namespace Line

/-- The lines without their depth. -/
def texts (lines : List Line) : List String := lines.map (·.text)

section Texts

variable {α : Type} {lines more : List Line} {l : Line}

@[simp] theorem texts_nil : texts [] = [] := rfl

@[simp] theorem texts_cons : texts (l :: lines) = l.text :: texts lines := rfl

@[simp] theorem texts_append : texts (lines ++ more) = texts lines ++ texts more :=
  List.map_append

@[simp] theorem texts_reverse : texts lines.reverse = (texts lines).reverse :=
  List.map_reverse

@[simp] theorem texts_map (parts : List α) (f : α → String) :
    texts (parts.map fun a => ⟨depth, f a⟩) = parts.map f := by
  rw [texts, List.map_map]
  rfl

@[simp] theorem texts_flatMap (parts : List α) (f : α → List Line) :
    texts (parts.flatMap f) = parts.flatMap fun a => texts (f a) :=
  List.map_flatMap

end Texts

/-- The line as it stands between two line breaks. -/
def row (unit : String) (l : Line) : List Char :=
  (String.join (List.replicate l.depth unit) ++ l.text).toList

theorem mem_unit_of_mem_indentation (h : c ∈ (String.join (List.replicate depth unit)).toList) :
    c ∈ unit.toList := by
  rw [String.toList_join, List.mem_flatMap] at h
  obtain ⟨copy, hcopy, hc⟩ := h
  rwa [List.eq_of_mem_replicate hcopy] at hc

/-- Lines without breaks in them are the rows of the text. -/
theorem splitOn_renderAll {lines : List Line} (hunit : '\n' ∉ unit.toList)
    (h : ∀ l ∈ lines, '\n' ∉ l.text.toList) :
    (renderAll unit lines).toList.splitOn '\n' = lines.map (row unit) ++ [[]] := by
  induction lines with
  | nil => simp [renderAll]
  | cons l rest ih =>
    have hrow : '\n' ∉ l.row unit := by
      rw [row, String.toList_append, List.mem_append]
      rintro (hl | hl)
      · exact hunit (mem_unit_of_mem_indentation hl)
      · exact h l List.mem_cons_self hl
    have hsplit : (renderAll unit (l :: rest)).toList =
        l.row unit ++ '\n' :: (renderAll unit rest).toList := by
      simp [renderAll, render, row]
    rw [hsplit, List.splitOn_append_cons_self_of_not_mem hrow,
      ih fun l hl => h l (List.mem_cons_of_mem _ hl), List.map_cons, List.cons_append]

/-- The text is one line, and the line shows where it begins. -/
structure IsTidy (text : String) : Prop where
  oneLine : '\n' ∉ text.toList
  lead : ∀ c ∈ text.toList.head?, c.isWhitespace = false

section Blanks

variable (hunit : ∀ c ∈ unit.toList, c = ' ' ∨ c = '\t')

include hunit

theorem isWhitespace_of_mem_indentation
    (h : c ∈ (String.join (List.replicate depth unit)).toList) : c.isWhitespace := by
  rcases hunit c (mem_unit_of_mem_indentation h) with rfl | rfl <;> rfl

theorem break_not_mem_unit : '\n' ∉ unit.toList := by
  intro h
  rcases hunit _ h with hc | hc <;> cases hc

/-- Without the blanks before it a tidy text is left. -/
theorem dropWhile_row {l : Line} (h : IsTidy l.text) :
    (l.row unit).dropWhile (·.isWhitespace) = l.text.toList := by
  have hindent : ∀ c ∈ (String.join (List.replicate l.depth unit)).toList, c.isWhitespace :=
    fun c hc => isWhitespace_of_mem_indentation hunit hc
  rw [row, String.toList_append, List.dropWhile_append_of_pos hindent]
  cases htext : l.text.toList with
  | nil => rfl
  | cons c rest =>
    have hc : c.isWhitespace = false := h.lead c (by rw [htext]; rfl)
    rw [List.dropWhile_cons_of_neg (by simp [hc])]

/-- Tidy lines can be read off the text, whatever their depths. -/
theorem texts_eq_of_renderAll_eq {lines more : List Line} (h : ∀ l ∈ lines, IsTidy l.text)
    (hmore : ∀ l ∈ more, IsTidy l.text) (heq : renderAll unit lines = renderAll unit more) :
    texts lines = texts more := by
  have hrows : lines.map (row unit) = more.map (row unit) := by
    have hsplit := congrArg (fun s : String => s.toList.splitOn '\n') heq
    simp only [splitOn_renderAll (break_not_mem_unit hunit) fun l hl => (h l hl).oneLine,
      splitOn_renderAll (break_not_mem_unit hunit) fun l hl => (hmore l hl).oneLine] at hsplit
    exact List.append_cancel_right hsplit
  have hread (ls : List Line) (hls : ∀ l ∈ ls, IsTidy l.text) : texts ls =
      (ls.map (row unit)).map fun r => String.ofList (r.dropWhile (·.isWhitespace)) := by
    rw [texts, List.map_map]
    refine List.map_congr_left fun l hl => ?_
    rw [Function.comp_apply, dropWhile_row hunit (hls l hl), String.ofList_toList]
  rw [hread lines h, hread more hmore, hrows]

end Blanks

/-- A tidy text that begins with nothing that the line of a scope begins with. -/
structure IsPlain (text : String) : Prop extends IsTidy text where
  noScope : text = Phrase.tableClosing ∨ ∀ c ∈ text.toList.head?, c ≠ 'n' ∧ c ≠ '}'

/-- The first character shows that a line is plain. -/
theorem isPlain_of_head (c : Char) (hbreak : '\n' ∉ text.toList)
    (hhead : text.toList.head? = some c)
    (hc : (!c.isWhitespace && c != 'n' && c != '\x7d') = true) : IsPlain text where
  oneLine := hbreak
  lead := by simp_all
  noScope := by simp_all

theorem break_not_mem_constantName (h : '\n' ∉ text.toList) :
    '\n' ∉ (constantName text).toList :=
  fun hmem => h (mem_of_mem_constantName rfl hmem)

theorem break_not_mem_of_isIdentifier (h : isIdentifier text) : '\n' ∉ text.toList :=
  not_mem_of_isIdentifier h rfl

theorem break_not_mem_toDigits (n : Nat) : '\n' ∉ Nat.toDigits 10 n := by
  intro h
  have hdigit : '\n'.isDigit := Nat.isDigit_of_mem_toDigits (by decide) (by decide) h
  cases hdigit

theorem break_not_mem_toString_int32 (n : Int32) : '\n' ∉ (toString n).toList := by
  intro h
  rcases mem_toString_int32 h with h | h <;> cases h

theorem mem_of_mem_afterLead {lead : String} (h : c ∈ (afterLead text lead).toList) :
    c ∈ text.toList := by
  rw [afterLead] at h
  cases hp : lead.toList.isPrefixOf? text.toList with
  | none => simpa [hp] using h
  | some rest =>
    rw [hp, Option.elim_some, String.toList_ofList] at h
    rw [← List.isPrefixOf?_eq_some_iff_append_eq.mp hp]
    exact List.mem_append_right _ h

/-- There is a line break in a guard only if one of its parts has one. -/
theorem break_not_mem_guard {style : Dialect} {name : String}
    (hlead : '\n' ∉ style.guardLead.toList) (hsuffix : '\n' ∉ style.guardSuffix.toList)
    (hname : '\n' ∉ name.toList) : '\n' ∉ (style.guard name).toList := by
  have hreplace (s : String) (old : Char) (h : '\n' ∉ s.toList) :
      '\n' ∉ (replaceChar s old '_').toList := by
    simp only [replaceChar, String.toList_ofList, List.mem_map, not_exists, not_and]
    intro c hc
    split
    · decide
    · rintro rfl
      exact h hc
  apply break_not_mem_constantName
  rw [String.toList_append, List.mem_append]
  rintro (h | h)
  · exact hreplace _ _ (hreplace _ _ (by simp [hlead, hname])) h
  · exact hsuffix h

section Phrases

variable {name value type : String} {f : FieldDescriptor} {id : FieldId} {count : Nat}

theorem isPlain_intConstant (hname : '\n' ∉ name.toList) (hvalue : '\n' ∉ value.toList) :
    IsPlain (Phrase.intConstant name value) :=
  isPlain_of_head 'c' (by simp [Phrase.intConstant, hname, hvalue]) (by simp [Phrase.intConstant])
    rfl

theorem isPlain_count (hname : '\n' ∉ name.toList) :
    IsPlain ("static " ++ Phrase.intConstant name (toString count)) :=
  isPlain_of_head 's' (by simp [Phrase.intConstant, hname, break_not_mem_toDigits]) (by simp) rfl

theorem isPlain_tableOpening (htype : '\n' ∉ type.toList) (hname : '\n' ∉ name.toList) :
    IsPlain (Phrase.tableOpening type name count) := by
  unfold Phrase.tableOpening
  exact isPlain_of_head 's' (by simp [htype, hname, break_not_mem_toDigits]) (by simp) rfl

theorem isPlain_tableClosing : IsPlain Phrase.tableClosing where
  oneLine := by decide
  lead := by simp [Phrase.tableClosing]
  noScope := Or.inl rfl

theorem isPlain_blank : IsPlain "" where
  oneLine := by decide
  lead := by simp
  noScope := Or.inr (by simp)

theorem isPlain_quoted (hname : '\n' ∉ name.toList) : IsPlain (Phrase.quoted name) :=
  isPlain_of_head '"' (by simp [Phrase.quoted, hname]) (by simp [Phrase.quoted]) rfl

theorem isPlain_listed (hname : isIdentifier name) :
    IsPlain (Phrase.listed (constantName name)) := by
  have hident := isIdentifier_constantName hname
  have hbreak := break_not_mem_of_isIdentifier hident
  obtain ⟨c, rest, hcons, _⟩ := exists_cons_of_isIdentifier hident
  have hmem : c ∈ (constantName name).toList := by simp [hcons]
  have hchar := isNameChar_of_isIdentifier hident hmem
  have hlower := isLower_of_mem_constantName hmem
  have hc : (!c.isWhitespace && c != 'n' && c != '\x7d') = true := by
    simp only [isWhitespace_of_isNameChar hchar, Bool.not_false, Bool.true_and, Bool.and_eq_true,
      bne_iff_ne]
    constructor
    · rintro rfl
      cases hlower
    · rintro rfl
      cases hchar
  exact isPlain_of_head c (by simp [Phrase.listed, hbreak]) (by simp [Phrase.listed, hcons]) hc

theorem isPlain_enumComment (hname : '\n' ∉ name.toList) : IsPlain ("// enum " ++ name) :=
  isPlain_of_head '/' (by simp [hname]) (by simp) rfl

theorem isPlain_messageComment (hname : '\n' ∉ name.toList) : IsPlain ("// message " ++ name) :=
  isPlain_of_head '/' (by simp [hname]) (by simp) rfl

theorem isPlain_fieldConstant (hname : '\n' ∉ f.name.toList) :
    IsPlain (Phrase.fieldConstant f id) := by
  have hid : '\n' ∉ id.literal.toList := by
    intro h
    have := isNameChar_of_mem_literal h
    cases this
  unfold Phrase.fieldConstant
  apply isPlain_of_head 'c' _ (by simp) rfl
  simp [break_not_mem_constantName hname, hid]

/-- The comment on a field neither opens nor closes a scope. -/
theorem isPlain_fieldComment (hname : '\n' ∉ f.name.toList) (htype : '\n' ∉ f.typeName.toList) :
    IsPlain (Phrase.fieldComment f) := by
  have hlabel : '\n' ∉ (Phrase.label f.label).toList := by cases f.label <;> decide
  have hpacked : '\n' ∉ (if f.cardinality = .packed then " [packed=true]" else "").toList := by
    split <;> decide
  apply isPlain_of_head '/' _ (by simp [Phrase.fieldComment]) rfl
  simp [Phrase.fieldComment, hname, hlabel, hpacked, Phrase.not_mem_typeOf htype rfl,
    break_not_mem_toString_int32]

end Phrases

section Outline

open Outline

variable {e : EnumDescriptor} {x : FieldDescriptor} {l : Line}

theorem isPlain_of_mem_table {opening : String} {entries : List String}
    (hopening : IsPlain opening) (hentries : ∀ s ∈ entries, IsPlain s)
    (h : l ∈ table depth opening entries) : IsPlain l.text := by
  simp only [table, List.cons_append, List.mem_cons, List.mem_append, List.mem_map,
    List.not_mem_nil, or_false] at h
  rcases h with rfl | ⟨s, hs, rfl⟩ | rfl
  · exact hopening
  · exact hentries s hs
  · exact isPlain_tableClosing

/-- No line of an enum opens or closes a scope. -/
theorem isPlain_of_mem_enum (he : e.IsWellNamed) (h : l ∈ enum depth e) : IsPlain l.text := by
  have hbreak := break_not_mem_constantName (break_not_mem_of_isIdentifier he.1)
  have htable : '\n' ∉ (Phrase.enumTable e).toList := by simp [Phrase.enumTable, hbreak]
  simp only [enum, List.cons_append, List.mem_cons, List.mem_append, List.mem_map,
    List.not_mem_nil, or_false] at h
  rcases h with rfl | (((⟨v, hv, rfl⟩ | rfl) | h) | h) | rfl
  · exact isPlain_enumComment (break_not_mem_of_isIdentifier he.1)
  · exact isPlain_intConstant
      (break_not_mem_constantName (break_not_mem_of_isIdentifier (he.2 v hv)))
      (break_not_mem_toString_int32 _)
  · exact isPlain_count (by simp [htable])
  · refine isPlain_of_mem_table (isPlain_tableOpening (by decide) (by simp [htable])) ?_ h
    simp only [List.forall_mem_map]
    intro v hv
    exact isPlain_quoted fun hmem =>
      break_not_mem_of_isIdentifier (he.2 v hv) (mem_of_mem_afterLead hmem)
  · refine isPlain_of_mem_table (isPlain_tableOpening (by decide) (by simp [htable])) ?_ h
    simp only [List.forall_mem_map]
    exact fun v hv => isPlain_listed (he.2 v hv)
  · exact isPlain_blank

theorem isPlain_of_mem_field (hname : isIdentifier x.name) (htype : '\n' ∉ x.typeName.toList)
    (h : l ∈ field depth x) : IsPlain l.text := by
  have hbreak := break_not_mem_of_isIdentifier hname
  simp only [field, List.cons_append, List.mem_cons, List.mem_append, List.not_mem_nil,
    or_false] at h
  rcases h with rfl | h | rfl
  · exact isPlain_fieldComment hbreak htype
  · cases hid : FieldId.ofField? x with
    | none => simp [hid] at h
    | some id =>
      rw [hid, Option.elim_some, List.mem_singleton] at h
      rw [h]
      exact isPlain_fieldConstant hbreak
  · exact isPlain_blank

theorem isPlain_of_mem_fieldTables {fields : List FieldDescriptor}
    (hnames : ∀ x ∈ fields, isIdentifier x.name) (h : l ∈ fieldTables depth fields) :
    IsPlain l.text := by
  simp only [fieldTables, List.cons_append, List.mem_cons, List.mem_append, List.not_mem_nil,
    or_false] at h
  rcases h with rfl | (h | h) | rfl
  · exact isPlain_count (by decide)
  · refine isPlain_of_mem_table (isPlain_tableOpening (by decide) (by decide)) ?_ h
    simp only [List.forall_mem_map]
    exact fun x hx => isPlain_quoted (break_not_mem_of_isIdentifier (hnames x hx))
  · refine isPlain_of_mem_table (isPlain_tableOpening (by decide) (by decide)) ?_ h
    simp only [List.forall_mem_map]
    exact fun x hx => isPlain_listed (hnames x hx)
  · exact isPlain_blank

theorem isTidy_of_head (c : Char) (hbreak : '\n' ∉ text.toList)
    (hhead : text.toList.head? = some c) (hc : c.isWhitespace = false) : IsTidy text where
  oneLine := hbreak
  lead := by simp_all

theorem isTidy_scopeOpening {name : String} (hname : '\n' ∉ name.toList) :
    IsTidy (Phrase.scopeOpening name) :=
  isTidy_of_head 'n' (by simp [Phrase.scopeOpening, hname]) (by simp [Phrase.scopeOpening]) rfl

theorem isTidy_packageClosing {name : String} (hname : '\n' ∉ name.toList) :
    IsTidy (Phrase.packageClosing name) :=
  isTidy_of_head '\x7d' (by simp [Phrase.packageClosing, hname]) (by simp [Phrase.packageClosing])
    rfl

theorem isTidy_messageClosing {name : String} (hname : '\n' ∉ name.toList) :
    IsTidy (Phrase.messageClosing name) :=
  isTidy_of_head '\x7d' (by simp [Phrase.messageClosing, hname]) (by simp [Phrase.messageClosing])
    rfl

theorem isTidy_of_mem_message {m : MessageDescriptor} (hnames : ∀ n ∈ m.tree, n.IsWellNamed)
    (htypes : ∀ n ∈ m.tree, ∀ x ∈ n.fields, '\n' ∉ x.typeName.toList)
    (h : l ∈ message depth m) : IsTidy l.text := by
  induction m using MessageDescriptor.tree_induction generalizing depth with
  | step m ih =>
    rw [MessageDescriptor.forall_mem_tree] at hnames htypes
    obtain ⟨⟨hname, henums, hfields⟩, hnested⟩ := hnames
    have hbreak := break_not_mem_of_isIdentifier hname
    rw [message_eq] at h
    simp only [List.mem_append, List.mem_cons, List.mem_flatMap, List.not_mem_nil, or_false] at h
    rcases h with (((((rfl | rfl) | ⟨e, he, h⟩) | ⟨n, hn, h⟩) | ⟨x, hx, h⟩) | h) | rfl | rfl
    · exact (isPlain_messageComment hbreak).toIsTidy
    · exact isTidy_scopeOpening hbreak
    · exact (isPlain_of_mem_enum (henums e he) h).toIsTidy
    · exact ih n hn (hnested n hn) (htypes.2 n hn) h
    · exact (isPlain_of_mem_field (hfields x hx) (htypes.1 x hx) h).toIsTidy
    · exact (isPlain_of_mem_fieldTables hfields h).toIsTidy
    · exact isTidy_messageClosing hbreak
    · exact isPlain_blank.toIsTidy

theorem isPlain_of_mem_preamble {guard fileName : String} (hguard : '\n' ∉ guard.toList)
    (hfile : '\n' ∉ fileName.toList) (h : l ∈ preamble guard fileName) : IsPlain l.text := by
  simp only [preamble, List.mem_cons, List.not_mem_nil, or_false] at h
  rcases h with rfl | rfl | rfl | rfl | rfl | rfl
  · exact isPlain_of_head '/' (by decide) (by simp) rfl
  · exact isPlain_of_head '/' (by simp [hfile]) (by simp) rfl
  · exact isPlain_blank
  · exact isPlain_of_head '#' (by simp [hguard]) (by simp) rfl
  · exact isPlain_of_head '#' (by simp [hguard]) (by simp) rfl
  · exact isPlain_blank

theorem isPlain_of_mem_end {guard : String} (hguard : '\n' ∉ guard.toList)
    (h : l ∈ [.blank, ⟨0, "#endif // " ++ guard⟩]) : IsPlain l.text := by
  simp only [List.mem_cons, List.not_mem_nil, or_false] at h
  rcases h with rfl | rfl
  · exact isPlain_blank
  · exact isPlain_of_head '#' (by simp [hguard]) (by simp) rfl

/-- The lines of a schema with names of the usual kind are tidy. -/
theorem isTidy_of_mem_schema {guard : String} {f : FileDescriptor} (hguard : '\n' ∉ guard.toList)
    (hfile : '\n' ∉ f.name.toList) (hscopes : ∀ s ∈ segments f.package '.', '\n' ∉ s.toList)
    (hnames : f.IsWellNamed)
    (htypes : ∀ m ∈ f.everyMessage, ∀ x ∈ m.fields, '\n' ∉ x.typeName.toList)
    (h : l ∈ schema guard f) : IsTidy l.text := by
  obtain ⟨henums, hmessages⟩ := hnames
  rw [FileDescriptor.forall_mem_everyMessage] at hmessages htypes
  simp only [schema_eq, List.mem_append, List.mem_map, List.mem_flatMap, List.mem_reverse,
    List.mem_singleton] at h
  rcases h with (((((h | ⟨s, hs, rfl⟩) | rfl) | ⟨e, he, h⟩) | ⟨m, hm, h⟩) | ⟨s, hs, rfl⟩) | h
  · exact (isPlain_of_mem_preamble hguard hfile h).toIsTidy
  · exact isTidy_scopeOpening (hscopes s hs)
  · exact isPlain_blank.toIsTidy
  · exact (isPlain_of_mem_enum (henums e he) h).toIsTidy
  · exact isTidy_of_mem_message (hmessages m hm) (htypes m hm) h
  · exact isTidy_packageClosing (hscopes s hs)
  · exact (isPlain_of_mem_end hguard h).toIsTidy

end Outline

end Line

end SchemaHeader
