import SchemaHeader.Proofs.Header.Agreement
import SchemaHeader.Proofs.Header.Traversal
import SchemaHeader.Proofs.Header.Lines
import SchemaHeader.Proofs.Header.Phrases
import SchemaHeader.Proofs.Text.ConstantName

/-! Schemas that have the same header. One element after the other is cut off the front of the
lines of both. -/
namespace SchemaHeader

open Line (texts)
open Text (constantName isIdentifier isPathChar)

section Headings

variable {name : String}

/-- The elements whose lines begin with a comment. -/
inductive Heading where
  | enum
  | message
  | field
  deriving DecidableEq

/-- Only the comment of a field has a semicolon; the others begin with the word for the element. -/
def heading? (text : String) : Option Heading :=
  ("// ".toList.isPrefixOf? text.toList).map fun rest =>
    if ';' ∈ rest then .field else if rest.head? = some 'e' then .enum else .message

def firstChar (text : String) : Option Char := text.toList.head?

theorem heading?_enum (h : ';' ∉ name.toList) : heading? ("// enum " ++ name) = some .enum := by
  simp [heading?, List.isPrefixOf?, h]

theorem heading?_message (h : ';' ∉ name.toList) :
    heading? ("// message " ++ name) = some .message := by
  simp [heading?, List.isPrefixOf?, h]

theorem heading?_field (x : FieldDescriptor) : heading? (Phrase.fieldComment x) = some .field := by
  simp [heading?, Phrase.fieldComment_eq, Phrase.packedMark, List.isPrefixOf?]

end Headings

theorem texts_table (depth : Nat) (opening : String) (entries : List String) :
    texts (Outline.table depth opening entries) =
      opening :: (entries ++ [Phrase.tableClosing]) := by
  simp [texts, Outline.table, Function.comp_def]

section Enums

variable {e e' : EnumDescriptor} {vs ws : List EnumValue} {r s : List String} {depth : Nat}

theorem texts_enum (e : EnumDescriptor) : texts (Outline.enum depth e) = ("// enum " ++ e.name) ::
    ((e.values.map fun v => Phrase.intConstant (constantName v.name) (toString v.number)) ++
      ("static " ++ Phrase.intConstant (Phrase.enumTable e ++ "_COUNT")
          (toString e.values.length)) ::
        Phrase.tableOpening "char*" (Phrase.enumTable e ++ "_NAMES") e.values.length ::
        ((e.values.map fun v => Phrase.quoted (Phrase.shortName e v)) ++ Phrase.tableClosing ::
          Phrase.tableOpening "int" (Phrase.enumTable e ++ "_VALUES") e.values.length ::
          ((e.values.map fun v => Phrase.listed (constantName v.name)) ++
            [Phrase.tableClosing, ""]))) := by
  simp [Outline.enum, texts_table, Line.blank]

/-- The constants of an enum tell the names and numbers of its values, and where they end. -/
theorem constants_agree (hvs : ∀ v ∈ vs, isIdentifier v.name) (hws : ∀ w ∈ ws, isIdentifier w.name)
    (hr : headMark firstChar r ≠ some (some 'c')) (hs : headMark firstChar s ≠ some (some 'c'))
    (h : (vs.map fun v => Phrase.intConstant (constantName v.name) (toString v.number)) ++ r =
      (ws.map fun w => Phrase.intConstant (constantName w.name) (toString w.number)) ++ s) :
    (vs.map fun v => (constantName v.name, v.number)) =
      (ws.map fun w => (constantName w.name, w.number)) ∧ r = s := by
  have hspace (v : EnumValue) (hv : isIdentifier v.name) : ' ' ∉ (constantName v.name).toList :=
    Text.not_mem_of_isIdentifier (Text.isIdentifier_constantName hv) rfl
  have hfirst (v : EnumValue) : firstChar
      (Phrase.intConstant (constantName v.name) (toString v.number)) = some 'c' := by
    simp [firstChar, Phrase.intConstant]
  have hline (v : EnumValue) (hv : v ∈ vs) (w : EnumValue) (hw : w ∈ ws)
      (hvw : Phrase.intConstant (constantName v.name) (toString v.number) =
        Phrase.intConstant (constantName w.name) (toString w.number)) :
      (constantName v.name, v.number) = (constantName w.name, w.number) := by
    obtain ⟨hc, hn⟩ := Phrase.intConstant_inj (hspace v (hvs v hv)) (hspace w (hws w hw)) hvw
    rw [hc, Phrase.toString_int32_inj hn]
  exact agree_map firstChar
    (fun v : EnumValue => Phrase.intConstant (constantName v.name) (toString v.number))
    (fun v : EnumValue => (constantName v.name, v.number)) (fun v _ => hfirst v)
    (fun w _ => hfirst w) hr hs hline h

/-- Neither the constants nor the short names tell the names of the values; both together do. -/
theorem values_eq (hname : e.name = e'.name)
    (hconstants : (e.values.map fun v => (constantName v.name, v.number)) =
      e'.values.map fun v => (constantName v.name, v.number))
    (hquoted : (e.values.map fun v => Phrase.quoted (Phrase.shortName e v)) =
      e'.values.map fun v => Phrase.quoted (Phrase.shortName e' v)) :
    (e.values.map fun v => (v.name, v.number)) = e'.values.map fun v => (v.name, v.number) := by
  have hshort : Phrase.shortName e = Phrase.shortName e' := by
    funext v
    rw [Phrase.shortName, Phrase.shortName, hname]
  rw [hshort] at hquoted
  refine map_eq_map_of_determined (fun v w hvw hquote => ?_) hconstants hquoted
  rw [Prod.mk.injEq] at hvw
  rw [Text.eq_of_afterLead (Phrase.quoted_inj hquote) hvw.1, hvw.2]

/-- The lines of an enum tell all that is in its gist. -/
theorem agree_enum (he : e.IsWellNamed) (he' : e'.IsWellNamed) :
    Agree (fun e => texts (Outline.enum depth e)) EnumDescriptor.gist e e' := by
  intro r s h
  simp only [texts_enum, List.cons_append, List.append_assoc, List.nil_append] at h
  obtain ⟨hcomment, h⟩ := List.cons.inj h
  have hname : e.name = e'.name := (String.append_right_inj _).mp hcomment
  obtain ⟨hconstants, h⟩ := constants_agree he.2 he'.2 (by simp [headMark, firstChar])
    (by simp [headMark, firstChar]) h
  have hlength : e.values.length = e'.values.length := by
    simpa using congrArg List.length hconstants
  simp only [List.cons.injEq] at h
  obtain ⟨_, _, htables⟩ := h
  obtain ⟨hquoted, h⟩ := List.append_inj htables (by simp [hlength])
  simp only [List.cons.injEq] at h
  obtain ⟨_, _, hlisted⟩ := h
  obtain ⟨_, hrest⟩ := List.append_inj hlisted (by simp [hlength])
  have hvalues := values_eq hname hconstants hquoted
  exact ⟨by rw [EnumDescriptor.gist, EnumDescriptor.gist, hname, hvalues], by simpa using hrest⟩

end Enums

section Fields

variable {x y : FieldDescriptor} {xs ys : List FieldDescriptor} {depth : Nat}

theorem texts_field (x : FieldDescriptor) : texts (Outline.field depth x) =
    Phrase.fieldComment x ::
      ((FieldId.ofField? x).elim [] (fun id => [Phrase.fieldConstant x id]) ++ [""]) := by
  cases h : FieldId.ofField? x <;> simp [Outline.field, h, Line.blank]

/-- The constant is there for a known type alone, so its absence tells as much as its value. -/
theorem ofField?_eq_of_texts {r s : List String} (hname : x.name = y.name)
    (h : (FieldId.ofField? x).elim [] (fun id => [Phrase.fieldConstant x id]) ++ "" :: r =
      (FieldId.ofField? y).elim [] (fun id => [Phrase.fieldConstant y id]) ++ "" :: s) :
    FieldId.ofField? x = FieldId.ofField? y ∧ r = s := by
  have hconstant (z : FieldDescriptor) (id : FieldId) : Phrase.fieldConstant z id ≠ "" := by
    unfold Phrase.fieldConstant
    simp
  cases hx : FieldId.ofField? x with
  | none =>
    cases hy : FieldId.ofField? y with
    | none =>
      rw [hx, hy] at h
      exact ⟨rfl, (List.cons.inj h).2⟩
    | some b =>
      rw [hx, hy] at h
      exact (hconstant y b (List.cons.inj h).1.symm).elim
  | some a =>
    cases hy : FieldId.ofField? y with
    | none =>
      rw [hx, hy] at h
      exact (hconstant x a (List.cons.inj h).1).elim
    | some b =>
      rw [hx, hy] at h
      obtain ⟨hid, h⟩ := List.cons.inj h
      exact ⟨by rw [Phrase.fieldConstant_inj hname hid], (List.cons.inj h).2⟩

/-- The lines of a field tell all that is in its gist. -/
theorem agree_field (hx : isIdentifier x.name) (hy : isIdentifier y.name)
    (hxtype : ∀ c ∈ x.typeName.toList, isPathChar c)
    (hytype : ∀ c ∈ y.typeName.toList, isPathChar c) :
    Agree (fun x => texts (Outline.field depth x)) FieldDescriptor.gist x y := by
  intro r s h
  simp only [texts_field, List.cons_append, List.append_assoc, List.nil_append] at h
  obtain ⟨hcomment, h⟩ := List.cons.inj h
  obtain ⟨hlabel, htype, hname, hnumber, hpacked⟩ :=
    Phrase.fieldComment_inj hx hy hxtype hytype hcomment
  obtain ⟨hid, hrest⟩ := ofField?_eq_of_texts hname h
  have hdeclared := FieldId.declaredType?_eq_of_ofField? hid
  have hnamed := Phrase.namedType?_eq hdeclared htype
  exact ⟨by rw [FieldDescriptor.gist, FieldDescriptor.gist, hlabel, hname, hnumber, hpacked,
    hdeclared, hnamed], hrest⟩

/-- The tables are made from the names alone. -/
theorem texts_fieldTables (h : xs.map FieldDescriptor.name = ys.map FieldDescriptor.name) :
    texts (Outline.fieldTables depth xs) = texts (Outline.fieldTables depth ys) := by
  have hlength : xs.length = ys.length := by simpa using congrArg List.length h
  have hentries (f : String → String) : xs.map (fun x => f x.name) = ys.map fun y => f y.name := by
    simpa [Function.comp_def] using congrArg (List.map f) h
  rw [Outline.fieldTables, Outline.fieldTables, hlength, hentries Phrase.quoted,
    hentries fun name => Phrase.listed (constantName name)]

end Fields

section Messages

variable {e : EnumDescriptor} {m n : MessageDescriptor} {x : FieldDescriptor}
  {es es' : List EnumDescriptor} {ms ms' : List MessageDescriptor} {r s : List String} {depth : Nat}

theorem texts_message (m : MessageDescriptor) : texts (Outline.message depth m) =
    ("// message " ++ m.name) :: Phrase.scopeOpening m.name ::
      ((m.enums.flatMap fun e => texts (Outline.enum (depth + 1) e)) ++
        ((m.nested.flatMap fun n => texts (Outline.message (depth + 1) n)) ++
          ((m.fields.flatMap fun x => texts (Outline.field (depth + 1) x)) ++
            (texts (Outline.fieldTables (depth + 1) m.fields) ++
              [Phrase.messageClosing m.name, ""])))) := by
  rw [Outline.message_eq]
  simp [Line.blank]

theorem headMark_enum (he : isIdentifier e.name) :
    headMark heading? (texts (Outline.enum depth e)) = some (some .enum) := by
  rw [texts_enum, headMark, List.head?_cons, Option.map_some,
    heading?_enum (Text.not_mem_of_isIdentifier he rfl)]

theorem headMark_message (hm : ∀ k ∈ m.tree, k.IsRegular) :
    headMark heading? (texts (Outline.message depth m)) = some (some .message) := by
  have hname : isIdentifier m.name := (MessageDescriptor.forall_mem_tree.mp hm).1.names.1
  rw [texts_message, headMark, List.head?_cons, Option.map_some,
    heading?_message (Text.not_mem_of_isIdentifier hname rfl)]

theorem headMark_field (x : FieldDescriptor) :
    headMark heading? (texts (Outline.field depth x)) = some (some .field) := by
  rw [texts_field, headMark, List.head?_cons, Option.map_some, heading?_field]

theorem headMark_fieldTables {fields : List FieldDescriptor} :
    headMark heading? (texts (Outline.fieldTables depth fields) ++ r) = some none := by
  simp [headMark, Outline.fieldTables, heading?, List.isPrefixOf?]

/-- What follows the nested messages begins a field or no element at all. -/
theorem headMark_fields_ne {fields : List FieldDescriptor} {k : Heading} (hk : k ≠ .field) :
    headMark heading? ((fields.flatMap fun x => texts (Outline.field depth x)) ++
      (texts (Outline.fieldTables depth fields) ++ r)) ≠ some (some k) := by
  refine headMark_flatMap_ne ?_ (fun x _ => headMark_field x) (by simp [headMark_fieldTables])
  simpa using hk.symm

/-- Enums and messages stand together, and what follows them begins neither. -/
theorem elements_agree (hes : ∀ e ∈ es, e.IsWellNamed) (hes' : ∀ e ∈ es', e.IsWellNamed)
    (hms : ∀ m ∈ ms, ∀ k ∈ m.tree, k.IsRegular) (hms' : ∀ m ∈ ms', ∀ k ∈ m.tree, k.IsRegular)
    (hagree : ∀ m ∈ ms, ∀ n ∈ ms',
      Agree (fun m => texts (Outline.message depth m)) MessageDescriptor.gist m n)
    (hr : ∀ k ≠ Heading.field, headMark heading? r ≠ some (some k))
    (hs : ∀ k ≠ Heading.field, headMark heading? s ≠ some (some k))
    (h : (es.flatMap fun e => texts (Outline.enum depth e)) ++
        ((ms.flatMap fun m => texts (Outline.message depth m)) ++ r) =
      (es'.flatMap fun e => texts (Outline.enum depth e)) ++
        ((ms'.flatMap fun m => texts (Outline.message depth m)) ++ s)) :
    es.map EnumDescriptor.gist = es'.map EnumDescriptor.gist ∧
      ms.map MessageDescriptor.gist = ms'.map MessageDescriptor.gist ∧ r = s := by
  have hmessages (ls : List MessageDescriptor) (hls : ∀ m ∈ ls, ∀ k ∈ m.tree, k.IsRegular) :
      ∀ m ∈ ls, headMark heading? (texts (Outline.message depth m)) = some (some .message) :=
    fun m hm => headMark_message (hls m hm)
  obtain ⟨henums, h⟩ := agree_flatMap heading? (fun e he => headMark_enum (hes e he).1)
    (fun e he => headMark_enum (hes' e he).1)
    (headMark_flatMap_ne (by simp) (hmessages ms hms) (hr .enum (by simp)))
    (headMark_flatMap_ne (by simp) (hmessages ms' hms') (hs .enum (by simp)))
    (fun e he e' he' => agree_enum (hes e he) (hes' e' he')) h
  obtain ⟨hgists, hrest⟩ := agree_flatMap heading? (hmessages ms hms) (hmessages ms' hms')
    (hr .message (by simp)) (hs .message (by simp)) hagree h
  exact ⟨henums, hgists, hrest⟩

/-- The lines of a message tell all that is in its gist, by induction on those inside it. -/
theorem agree_message (hm : ∀ k ∈ m.tree, k.IsRegular) (hn : ∀ k ∈ n.tree, k.IsRegular) :
    Agree (fun m => texts (Outline.message depth m)) MessageDescriptor.gist m n := by
  induction m using MessageDescriptor.tree_induction generalizing n depth with
  | step m ih =>
    intro r s h
    rw [MessageDescriptor.forall_mem_tree] at hm hn
    obtain ⟨⟨⟨_, henums, hfields⟩, htypes⟩, hnested⟩ := hm
    obtain ⟨⟨⟨_, henums', hfields'⟩, htypes'⟩, hnested'⟩ := hn
    change texts (Outline.message depth m) ++ r = texts (Outline.message depth n) ++ s at h
    rw [texts_message, texts_message] at h
    simp only [List.cons_append, List.append_assoc, List.nil_append] at h
    obtain ⟨hcomment, h⟩ := List.cons.inj h
    obtain ⟨_, h⟩ := List.cons.inj h
    have hname : m.name = n.name := (String.append_right_inj _).mp hcomment
    obtain ⟨hes, hms, h⟩ := elements_agree henums henums' hnested hnested'
      (fun k hk j hj => ih k hk (hnested k hk) (hnested' j hj))
      (fun _ => headMark_fields_ne) (fun _ => headMark_fields_ne) h
    obtain ⟨hxs, h⟩ := agree_flatMap heading? (fun x _ => headMark_field x)
      (fun x _ => headMark_field x) (by simp [headMark_fieldTables])
      (by simp [headMark_fieldTables])
      (fun x hx y hy => agree_field (hfields x hx) (hfields' y hy) (htypes x hx) (htypes' y hy)) h
    have hnames : m.fields.map FieldDescriptor.name = n.fields.map FieldDescriptor.name := by
      simpa [Function.comp_def, FieldDescriptor.gist] using congrArg (List.map FieldGist.name) hxs
    rw [texts_fieldTables hnames, hname, List.append_cancel_left_eq] at h
    refine ⟨?_, by simpa using h⟩
    rw [MessageDescriptor.gist_eq, MessageDescriptor.gist_eq, hname, hes, hms, hxs]

end Messages

section Files

variable {f g : FileDescriptor} {guard : String}

theorem texts_schema (guard : String) (f : FileDescriptor) : texts (Outline.schema guard f) =
    texts (Outline.preamble guard f.name) ++
      ((Text.segments f.package '.').map Phrase.scopeOpening ++ "" ::
        ((f.enums.flatMap fun e => texts (Outline.enum 0 e)) ++
          ((f.messages.flatMap fun m => texts (Outline.message 0 m)) ++
            ((Text.segments f.package '.').reverse.map Phrase.packageClosing ++
              ["", "#endif // " ++ guard])))) := by
  rw [Outline.schema_eq]
  simp [Line.blank]

/-- The lines of a header tell all that is in the gist of its schema. -/
theorem gist_eq_of_texts_eq {guard' : String} (hf : f.IsRegular) (hg : g.IsRegular)
    (h : texts (Outline.schema guard f) = texts (Outline.schema guard' g)) : f.gist = g.gist := by
  have hfmessages := FileDescriptor.forall_mem_everyMessage.mp hf.messages
  have hgmessages := FileDescriptor.forall_mem_everyMessage.mp hg.messages
  have hopening (scope : String) : firstChar (Phrase.scopeOpening scope) = some 'n' := by
    simp [firstChar, Phrase.scopeOpening]
  have hclosings (scopes ls : List String) (k : Heading) :
      headMark heading? (scopes.map Phrase.packageClosing ++ "" :: ls) ≠ some (some k) := by
    cases scopes <;> simp [headMark, Phrase.packageClosing, heading?, List.isPrefixOf?]
  rw [texts_schema, texts_schema] at h
  obtain ⟨hpreamble, h⟩ := List.append_inj h rfl
  have hname : f.name = g.name :=
    (String.append_right_inj _).mp (List.cons.inj (List.cons.inj hpreamble).2).1
  obtain ⟨hscopes, h⟩ := agree_map firstChar Phrase.scopeOpening id (fun s _ => hopening s)
    (fun s _ => hopening s) (by simp [headMark, firstChar]) (by simp [headMark, firstChar])
    (fun _ _ _ _ => Phrase.scopeOpening_inj) h
  obtain ⟨_, h⟩ := List.cons.inj h
  obtain ⟨hes, hms, _⟩ := elements_agree hf.enums hg.enums hfmessages hgmessages
    (fun m hm n hn => agree_message (hfmessages m hm) (hgmessages n hn))
    (fun k _ => hclosings _ _ k) (fun k _ => hclosings _ _ k) h
  rw [List.map_id, List.map_id] at hscopes
  rw [FileDescriptor.gist, FileDescriptor.gist, MessageDescriptor.gists_eq_map,
    MessageDescriptor.gists_eq_map, hname, hscopes, hes, hms]

theorem isTidy_of_isRegular (hf : f.IsRegular) {l : Line}
    (hl : l ∈ Outline.schema (({} : Dialect).guard f.name) f) : Line.IsTidy l.text := by
  have hguard : '\n' ∉ (({} : Dialect).guard f.name).toList :=
    Line.break_not_mem_guard (by decide) (by decide) hf.file
  have hpath : isPathChar '\n' = false := rfl
  have hscopes (scope : String) (hscope : scope ∈ Text.segments f.package '.') :
      '\n' ∉ scope.toList := by
    intro hbreak
    have := hf.package _ (Text.mem_of_mem_segments hscope hbreak)
    simp [hpath] at this
  have htypes (m : MessageDescriptor) (hm : m ∈ f.everyMessage) (x : FieldDescriptor)
      (hx : x ∈ m.fields) : '\n' ∉ x.typeName.toList := by
    intro hbreak
    have := (hf.messages m hm).types x hx _ hbreak
    simp [hpath] at this
  exact Line.isTidy_of_mem_schema hguard hf.file hscopes
    ⟨hf.enums, fun m hm => (hf.messages m hm).names⟩ htypes hl

/-- The text of a header tells everything of its schema but what stands for an absent part. -/
theorem gist_eq_of_content_eq (log log' : Log) (hf : f.IsRegular) (hg : g.IsRegular)
    (h : (({} : Dialect).header f log).1.content = (({} : Dialect).header g log').1.content) :
    f.gist = g.gist := by
  rw [Dialect.content_eq, Dialect.content_eq] at h
  have hunit : ∀ c ∈ ({} : Dialect).indent.toList, c = ' ' ∨ c = '\t' := by simp
  have htexts := Line.texts_eq_of_renderAll_eq hunit (fun _ hl => isTidy_of_isRegular hf hl)
    (fun _ hl => isTidy_of_isRegular hg hl) h
  exact gist_eq_of_texts_eq hf hg htexts

theorem gist_eq_of_content_eq_absent :
    ({ name? := some "a.proto", package? := some ".a"
       messages := [{ name? := some "M", fields := [{ name? := some "f", type? := some 5 }] }] } :
        FileDescriptor).gist =
      ({ name? := some "a.proto", package? := some "a."
         messages := [{ name? := some "M"
                        fields := [{ name? := some "f", number? := some 0, label? := some 1
                                     type? := some 5, typeName? := some ".T" }] }] } :
        FileDescriptor).gist := by
  refine gist_eq_of_content_eq {} {} ?_ ?_ ?_
  · decide
  · decide
  · rw [Dialect.content_eq, Dialect.content_eq]
    rfl

end Files

end SchemaHeader
