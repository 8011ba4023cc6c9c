import Mathlib.Data.List.DropRight
import SchemaHeader.Proofs.Header.Traversal
import SchemaHeader.Proofs.Header.Lines

/-! The scopes of a header, read off its text line by line. They are those of the package around
those of the message tree. -/
namespace SchemaHeader

open Line (IsTidy IsPlain)

/-- The row without the blanks at both of its ends. -/
def Text.trimmed (row : List Char) : List Char :=
  (row.dropWhile (·.isWhitespace)).rdropWhile (·.isWhitespace)

/-- What a line can do to the scope of the lines after it. -/
inductive ScopeMark where
  | opens (name : String)
  | closes (name : String)
  deriving DecidableEq

namespace ScopeMark

/-- The mark of a trimmed line: `namespace X {` opens X, `} // X` and `} //X` close it. -/
def ofLine? (line : List Char) : Option ScopeMark :=
  match "namespace ".toList.isPrefixOf? line with
  | some rest => (" \x7b".toList.isSuffixOf? rest).map fun name => .opens (String.ofList name)
  | none => ("\x7d //".toList.isPrefixOf? line).map fun rest =>
      .closes (String.ofList ((" ".toList.isPrefixOf? rest).getD rest))

/-- The marks of a text, in the order of its lines. -/
def scan (text : String) : List ScopeMark :=
  (text.toList.splitOn '\n').filterMap fun row => ofLine? (Text.trimmed row)

mutual

/-- A message is opened before the messages nested in it and closed after them. -/
def ofMessage : MessageDescriptor → List ScopeMark
  | ⟨name?, _, nested, _⟩ =>
    .opens (name?.getD "") :: ofMessages nested ++ [.closes (name?.getD "")]

def ofMessages : List MessageDescriptor → List ScopeMark
  | [] => []
  | m :: rest => ofMessage m ++ ofMessages rest

end

/-- The scopes left open, innermost first; there is no answer when a mark closes any other scope
than the innermost. -/
def openAfter? : List ScopeMark → List String → Option (List String)
  | [], scopes => some scopes
  | .opens name :: rest, scopes => openAfter? rest (name :: scopes)
  | .closes name :: rest, top :: scopes => if name = top then openAfter? rest scopes else none
  | .closes _ :: _, [] => none

section Nesting

variable {marks rest : List ScopeMark} {scopes names : List String}

theorem openAfter?_append : openAfter? (marks ++ rest) scopes =
    (openAfter? marks scopes).bind (openAfter? rest) := by
  fun_induction openAfter? marks scopes <;> simp_all [openAfter?]

theorem openAfter?_opens :
    openAfter? (names.map .opens) scopes = some (names.reverse ++ scopes) := by
  induction names generalizing scopes with
  | nil => rfl
  | cons name names ih => simp [openAfter?, ih]

theorem openAfter?_closes : openAfter? (names.map .closes) (names ++ scopes) = some scopes := by
  induction names with
  | nil => rfl
  | cons name names ih => simpa [openAfter?] using ih

theorem ofMessages_eq_flatMap (ms : List MessageDescriptor) :
    ofMessages ms = ms.flatMap ofMessage := by
  induction ms with
  | nil => rfl
  | cons m rest ih => rw [ofMessages, ih, List.flatMap_cons]

theorem ofMessage_eq (m : MessageDescriptor) :
    ofMessage m = .opens m.name :: m.nested.flatMap ofMessage ++ [.closes m.name] := by
  obtain ⟨name?, fields, nested, enums⟩ := m
  rw [ofMessage, ofMessages_eq_flatMap]
  rfl

theorem openAfter?_flatMap {ms : List MessageDescriptor}
    (h : ∀ m ∈ ms, ∀ scopes, openAfter? (ofMessage m) scopes = some scopes) :
    openAfter? (ms.flatMap ofMessage) scopes = some scopes := by
  induction ms with
  | nil => rfl
  | cons m rest ih =>
    rw [List.flatMap_cons, openAfter?_append, h m List.mem_cons_self, Option.bind_some]
    exact ih fun n hn => h n (List.mem_cons_of_mem _ hn)

/-- A message closes every scope that it opens. -/
theorem openAfter?_ofMessage (m : MessageDescriptor) :
    openAfter? (ofMessage m) scopes = some scopes := by
  induction m using MessageDescriptor.tree_induction generalizing scopes with
  | step m ih =>
    have hnested : openAfter? (m.nested.flatMap ofMessage) (m.name :: scopes) =
        some (m.name :: scopes) := openAfter?_flatMap fun n hn _ => ih n hn
    simp [ofMessage_eq, openAfter?, openAfter?_append, hnested]

/-- The scopes of a package around those of messages leave nothing open. -/
theorem openAfter?_package (ms : List MessageDescriptor) :
    openAfter? (names.map .opens ++ ofMessages ms ++ names.reverse.map .closes) [] = some [] := by
  have hmessages : openAfter? (ofMessages ms) names.reverse = some names.reverse := by
    rw [ofMessages_eq_flatMap]
    exact openAfter?_flatMap fun m _ _ => openAfter?_ofMessage m
  have hcloses : openAfter? (names.reverse.map .closes) (names.reverse ++ []) = some [] :=
    openAfter?_closes
  rw [List.append_nil] at hcloses
  rw [openAfter?_append, openAfter?_append, openAfter?_opens, List.append_nil, Option.bind_some,
    hmessages, Option.bind_some, hcloses]

end Nesting

section Scanning

variable {name text unit : String} {row : List Char} {lines more : List Line} {depth : Nat}

theorem trimmed_append {lead : List Char} (h : ∀ c ∈ lead, c.isWhitespace) :
    Text.trimmed (lead ++ row) = Text.trimmed row := by
  rw [Text.trimmed, Text.trimmed, List.dropWhile_append_of_pos h]

theorem trimmed_cons {c : Char} (h : c.isWhitespace = false) :
    ∃ rest, Text.trimmed (c :: row) = c :: rest := by
  have hdrop : (c :: row).dropWhile (·.isWhitespace) = c :: row := by simp [h]
  have hpre := List.rdropWhile_prefix (fun c : Char => c.isWhitespace) (l := c :: row)
  rw [Text.trimmed, hdrop]
  cases hr : (c :: row).rdropWhile (·.isWhitespace) with
  | nil =>
    rw [List.rdropWhile_eq_nil_iff] at hr
    have := hr c List.mem_cons_self
    simp [h] at this
  | cons d rest =>
    rw [hr, List.cons_prefix_cons] at hpre
    exact ⟨rest, by rw [hpre.1]⟩

theorem trimmed_eq_self (hrow : row ≠ []) (hhead : (row.head hrow).isWhitespace = false)
    (hlast : (row.getLast hrow).isWhitespace = false) : Text.trimmed row = row := by
  have hdrop : row.dropWhile (·.isWhitespace) = row := by
    cases row with
    | nil => rfl
    | cons c rest => simpa using hhead
  rw [Text.trimmed, hdrop, List.rdropWhile_eq_self_iff]
  intro _
  simpa using hlast

theorem ofLine?_of_isPlain (h : IsPlain text) : ofLine? (Text.trimmed text.toList) = none := by
  rcases h.noScope with rfl | hlead
  · decide
  · cases ht : text.toList with
    | nil => decide
    | cons c rest =>
      have hblank := h.lead c (by simp [ht])
      have hc := hlead c (by simp [ht])
      obtain ⟨tail, htail⟩ : ∃ tail, Text.trimmed (c :: rest) = c :: tail := trimmed_cons hblank
      have hn : ('n' == c) = false := by simpa using hc.1.symm
      have hbrace : ('\x7d' == c) = false := by simpa using hc.2.symm
      simp [htail, ofLine?, List.isPrefixOf?, hn, hbrace]

theorem ofLine?_scopeOpening (name : String) :
    ofLine? (Text.trimmed (Phrase.scopeOpening name).toList) = some (.opens name) := by
  have hlist : (Phrase.scopeOpening name).toList =
      "namespace ".toList ++ (name.toList ++ " \x7b".toList) := by simp [Phrase.scopeOpening]
  have htrim : Text.trimmed (Phrase.scopeOpening name).toList =
      (Phrase.scopeOpening name).toList := by
    apply trimmed_eq_self
    · simp [hlist]
    · simp [hlist]
    · simp [hlist]
  have hlead : "namespace ".toList.isPrefixOf? (Phrase.scopeOpening name).toList =
      some (name.toList ++ " \x7b".toList) := by
    rw [List.isPrefixOf?_eq_some_iff_append_eq, hlist]
  have hend : " \x7b".toList.isSuffixOf? (name.toList ++ " \x7b".toList) = some name.toList := by
    rw [List.isSuffixOf?_eq_some_iff_append_eq]
  rw [htrim, ofLine?, hlead]
  simp only [hend, Option.map_some, String.ofList_toList]

/-- A name may stand right after the strokes or one space away from them. -/
theorem ofLine?_closing {gap : List Char} (hgap : gap = [] ∨ gap = [' '])
    (hname : Text.isIdentifier name) :
    ofLine? (Text.trimmed ("\x7d //".toList ++ (gap ++ name.toList))) = some (.closes name) := by
  obtain ⟨c, rest, hcons, _⟩ := Text.exists_cons_of_isIdentifier hname
  have hne : name.toList ≠ [] := by simp [hcons]
  have hchar (x : Char) (hx : x ∈ name.toList) : x.isWhitespace = false :=
    Text.isWhitespace_of_isNameChar (Text.isNameChar_of_isIdentifier hname hx)
  have hrow : "\x7d //".toList ++ (gap ++ name.toList) ≠ [] := by simp
  have hlast :
      ("\x7d //".toList ++ (gap ++ name.toList)).getLast hrow = name.toList.getLast hne := by
    rw [List.getLast_append_of_ne_nil _ (by simp [hne]), List.getLast_append_of_ne_nil _ hne]
  have htrim := trimmed_eq_self hrow (by simp) (by rw [hlast]; exact hchar _ (List.getLast_mem hne))
  have hspace : (' ' == c) = false := by
    have := hchar c (by simp [hcons])
    rw [beq_eq_false_iff_ne]
    rintro rfl
    cases this
  have hrest : (" ".toList.isPrefixOf? (gap ++ name.toList)).getD (gap ++ name.toList) =
      name.toList := by
    rcases hgap with rfl | rfl
    · simp [hcons, List.isPrefixOf?, hspace]
    · simp [List.isPrefixOf?]
  have hopen :
      "namespace ".toList.isPrefixOf? ("\x7d //".toList ++ (gap ++ name.toList)) = none := by
    simp [List.isPrefixOf?]
  have hclose : "\x7d //".toList.isPrefixOf? ("\x7d //".toList ++ (gap ++ name.toList)) =
      some (gap ++ name.toList) := by
    rw [List.isPrefixOf?_eq_some_iff_append_eq]
  rw [htrim, ofLine?, hopen]
  simp only [hclose, Option.map_some, hrest, String.ofList_toList]

theorem ofLine?_packageClosing (hname : Text.isIdentifier name) :
    ofLine? (Text.trimmed (Phrase.packageClosing name).toList) = some (.closes name) := by
  have hlist : (Phrase.packageClosing name).toList =
      "\x7d //".toList ++ ([' '] ++ name.toList) := by simp [Phrase.packageClosing]
  rw [hlist]
  exact ofLine?_closing (Or.inr rfl) hname

theorem ofLine?_messageClosing (hname : Text.isIdentifier name) :
    ofLine? (Text.trimmed (Phrase.messageClosing name).toList) = some (.closes name) := by
  have hlist : (Phrase.messageClosing name).toList = "\x7d //".toList ++ ([] ++ name.toList) := by
    simp [Phrase.messageClosing]
  rw [hlist]
  exact ofLine?_closing (Or.inl rfl) hname

/-- The marks of lines, whatever their depth. -/
def ofLines (lines : List Line) : List ScopeMark :=
  lines.filterMap fun l => ofLine? (Text.trimmed l.text.toList)

@[simp] theorem ofLines_append : ofLines (lines ++ more) = ofLines lines ++ ofLines more :=
  List.filterMap_append

theorem ofLines_eq_nil (h : ∀ l ∈ lines, IsPlain l.text) : ofLines lines = [] := by
  rw [ofLines, List.filterMap_eq_nil_iff]
  exact fun l hl => ofLine?_of_isPlain (h l hl)

theorem ofLines_flatMap {α : Type} (parts : List α) (f : α → List Line) :
    ofLines (parts.flatMap f) = parts.flatMap fun a => ofLines (f a) :=
  List.filterMap_flatMap

/-- The marks of a text are those of its lines. -/
theorem scan_renderAll (hunit : ∀ c ∈ unit.toList, c = ' ' ∨ c = '\t')
    (h : ∀ l ∈ lines, IsTidy l.text) : scan (Line.renderAll unit lines) = ofLines lines := by
  have hrow (l : Line) : Text.trimmed (l.row unit) = Text.trimmed l.text.toList := by
    rw [Line.row, String.toList_append]
    exact trimmed_append fun c hc => Line.isWhitespace_of_mem_indentation hunit hc
  have hlast : ofLine? (Text.trimmed []) = none := by decide
  rw [scan, Line.splitOn_renderAll (Line.break_not_mem_unit hunit) fun l hl => (h l hl).oneLine,
    List.filterMap_append, List.filterMap_map]
  simp [hrow, hlast, ofLines]

theorem ofLines_flatMap_eq_nil {α : Type} {parts : List α} {f : α → List Line}
    (h : ∀ a ∈ parts, ∀ l ∈ f a, IsPlain l.text) : ofLines (parts.flatMap f) = [] := by
  rw [ofLines_flatMap, List.flatMap_eq_nil_iff]
  exact fun a ha => ofLines_eq_nil (h a ha)

open Line in
/-- Between the marks of a message are those of the messages inside it. -/
theorem ofLines_message {m : MessageDescriptor} (hnames : ∀ n ∈ m.tree, n.IsWellNamed)
    (htypes : ∀ n ∈ m.tree, ∀ x ∈ n.fields, '\n' ∉ x.typeName.toList) :
    ofLines (Outline.message depth m) = ofMessage m := by
  induction m using MessageDescriptor.tree_induction generalizing depth with
  | step m ih =>
    rw [MessageDescriptor.forall_mem_tree] at hnames htypes
    obtain ⟨⟨hname, henums, hfields⟩, hnested⟩ := hnames
    have hopening : ofLines [⟨depth, "// message " ++ m.name⟩,
        ⟨depth, Phrase.scopeOpening m.name⟩] = [.opens m.name] := by
      have hcomment := ofLine?_of_isPlain
        (isPlain_messageComment (break_not_mem_of_isIdentifier hname))
      simp only [ofLines, List.filterMap_cons, hcomment, ofLine?_scopeOpening, List.filterMap_nil]
    have henum : ofLines (m.enums.flatMap (Outline.enum (depth + 1))) = [] :=
      ofLines_flatMap_eq_nil fun e he l hl => isPlain_of_mem_enum (henums e he) hl
    have hmessages : ofLines (m.nested.flatMap (Outline.message (depth + 1))) =
        m.nested.flatMap ofMessage := by
      rw [ofLines_flatMap]
      exact List.flatMap_congr fun n hn => ih n hn (hnested n hn) (htypes.2 n hn)
    have hfield : ofLines (m.fields.flatMap (Outline.field (depth + 1))) = [] :=
      ofLines_flatMap_eq_nil fun x hx l hl => isPlain_of_mem_field (hfields x hx) (htypes.1 x hx) hl
    have htables : ofLines (Outline.fieldTables (depth + 1) m.fields) = [] :=
      ofLines_eq_nil fun l hl => isPlain_of_mem_fieldTables hfields hl
    have hclosing : ofLines [⟨depth, Phrase.messageClosing m.name⟩, .blank] =
        [.closes m.name] := by
      have hblank := ofLine?_of_isPlain isPlain_blank
      simp only [ofLines, List.filterMap_cons, ofLine?_messageClosing hname, hblank, Line.blank,
        List.filterMap_nil]
    simp only [Outline.message_eq, ofLines_append, hopening, henum, hmessages, hfield, htables,
      hclosing, ofMessage_eq, List.append_nil, List.singleton_append]

open Line in
/-- Between the marks of a package are those of the messages. -/
theorem ofLines_schema {guard : String} {f : FileDescriptor} (hguard : '\n' ∉ guard.toList)
    (hfile : '\n' ∉ f.name.toList)
    (hpackage : ∀ s ∈ Text.segments f.package '.', Text.isIdentifier s) (hnames : f.IsWellNamed)
    (htypes : ∀ m ∈ f.everyMessage, ∀ x ∈ m.fields, '\n' ∉ x.typeName.toList) :
    ofLines (Outline.schema guard f) =
      (Text.segments f.package '.').map .opens ++ ofMessages f.messages ++
        (Text.segments f.package '.').reverse.map .closes := by
  obtain ⟨henums, hmessages⟩ := hnames
  rw [FileDescriptor.forall_mem_everyMessage] at hmessages htypes
  have hopenings (scopes : List String) :
      ofLines (scopes.map fun s => ⟨0, Phrase.scopeOpening s⟩) = scopes.map .opens := by
    simp only [ofLines, List.filterMap_map, Function.comp_def, ofLine?_scopeOpening]
    exact congrFun List.filterMap_eq_map scopes
  have hclosings (scopes : List String) (h : ∀ s ∈ scopes, Text.isIdentifier s) :
      ofLines (scopes.map fun s => ⟨0, Phrase.packageClosing s⟩) = scopes.map .closes := by
    induction scopes with
    | nil => rfl
    | cons s rest ih =>
      rw [List.forall_mem_cons] at h
      have hrest := ih h.2
      simp only [ofLines] at hrest ⊢
      simp only [List.map_cons, List.filterMap_cons, ofLine?_packageClosing h.1, hrest]
  have hpreamble : ofLines (Outline.preamble guard f.name) = [] :=
    ofLines_eq_nil fun l hl => isPlain_of_mem_preamble hguard hfile hl
  have hblank : ofLines [.blank] = [] := by
    apply ofLines_eq_nil
    intro l hl
    rw [List.mem_singleton.mp hl]
    exact isPlain_blank
  have henum : ofLines (f.enums.flatMap (Outline.enum 0)) = [] :=
    ofLines_flatMap_eq_nil fun e he l hl => isPlain_of_mem_enum (henums e he) hl
  have hmessage : ofLines (f.messages.flatMap (Outline.message 0)) = ofMessages f.messages := by
    rw [ofLines_flatMap, ofMessages_eq_flatMap]
    exact List.flatMap_congr fun m hm => ofLines_message (hmessages m hm) (htypes m hm)
  have hend : ofLines [.blank, ⟨0, "#endif // " ++ guard⟩] = [] :=
    ofLines_eq_nil fun l hl => isPlain_of_mem_end hguard hl
  simp only [Outline.schema_eq, ofLines_append, hpreamble, hopenings, hblank, henum, hmessage,
    hclosings _ fun s hs => hpackage s (List.mem_reverse.mp hs), hend, List.nil_append,
    List.append_nil]

/-- The scopes of a header are those of the package around those of the messages, and each closing
line belongs to the innermost scope that is still open. -/
theorem scan_header (style : Dialect) (f : FileDescriptor) (log : Log)
    (hindent : ∀ c ∈ style.indent.toList, c = ' ' ∨ c = '\t')
    (hlead : '\n' ∉ style.guardLead.toList) (hsuffix : '\n' ∉ style.guardSuffix.toList)
    (hfile : '\n' ∉ f.name.toList)
    (hpackage : ∀ s ∈ Text.segments f.package '.', Text.isIdentifier s) (hnames : f.IsWellNamed)
    (htypes : ∀ m ∈ f.everyMessage, ∀ x ∈ m.fields, '\n' ∉ x.typeName.toList) :
    scan (style.header f log).1.content =
        (Text.segments f.package '.').map .opens ++ ofMessages f.messages ++
          (Text.segments f.package '.').reverse.map .closes ∧
      openAfter? (scan (style.header f log).1.content) [] = some [] := by
  have hguard := Line.break_not_mem_guard hlead hsuffix hfile
  have htidy (l : Line) (hl : l ∈ Outline.schema (style.guard f.name) f) : IsTidy l.text :=
    Line.isTidy_of_mem_schema hguard hfile
      (fun s hs => Line.break_not_mem_of_isIdentifier (hpackage s hs)) hnames htypes hl
  have hscan : scan (style.header f log).1.content =
      (Text.segments f.package '.').map .opens ++ ofMessages f.messages ++
        (Text.segments f.package '.').reverse.map .closes := by
    rw [Dialect.content_eq, scan_renderAll hindent htidy,
      ofLines_schema hguard hfile hpackage hnames htypes]
  exact ⟨hscan, hscan ▸ openAfter?_package f.messages⟩

theorem scan_header_nested :
    scan (({ indent := " \t", guardLead := "", guardSuffix := "_H" } : Dialect).header
      { name? := some "a/b.proto", package? := some "a..b"
        messages := [{ name? := some "Outer"
                       fields := [{ name? := some "f", type? := some 11, typeName? := some ".a.B" }]
                       nested := [{ name? := some "Inner" }] }]
        enums := [{ name? := some "E", values := [{ name? := some "E_A" }] }] } {}).1.content =
      [.opens "a", .opens "b", .opens "Outer", .opens "Inner", .closes "Inner", .closes "Outer",
        .closes "b", .closes "a"] := by
  refine (scan_header _ _ _ ?_ ?_ ?_ ?_ ?_ ?_ ?_).1
  · simp
  · decide
  · decide
  · decide
  · decide
  · decide
  · decide

end Scanning

end ScopeMark

end SchemaHeader
