import SchemaHeader.Proofs.Descriptor.Tree
import SchemaHeader.Proofs.Header.Traversal
import SchemaHeader.Proofs.Header.Lines
import SchemaHeader.Proofs.Header.Moves

/-! Indentation follows the structure of the schema alone: a line is as deep as there are messages
around it, and one deeper inside a table. The level that the writer keeps up by small steps is this
depth at every line. -/
namespace SchemaHeader

namespace Site

variable (around : List MessageDescriptor)

theorem depth_frame : Site.depth { around := around } = around.length := rfl

theorem depth_entry : Site.depth { around := around, inTable := true } = around.length + 1 := rfl

end Site

namespace Move

/-- The level after a step. -/
def level (before : Nat) : Move → Nat
  | .deeper => before + 1
  | .shallower => before - 1
  | .atLevel level => level
  | _ => before

/-- A line is written at the depth of its site, and a level is lowered only if it is not zero. -/
def Fits (level : Nat) : Move → Prop
  | .line site _ => level = site.depth
  | .shallower => 0 < level
  | _ => True

/-- The line that a step writes. -/
def line? : Move → Option Line
  | .line site text => some ⟨site.depth, text⟩
  | .blank => some .blank
  | _ => none

end Move

/-! The lines that the steps write, at the depths of their sites, are those of the outline. -/
namespace Moves

variable (around : List MessageDescriptor)

theorem lines_entries {α : Type} (site : Site) (as : List α) (text : α → String) :
    (as.map fun a => Move.line site (text a)).filterMap Move.line? =
      as.map fun a => ⟨site.depth, text a⟩ := by
  induction as with
  | nil => rfl
  | cons a rest ih => simpa [Move.line?] using ih

theorem lines_table {α : Type} (opening : String) (as : List α) (entry : α → String) :
    (table around opening (as.map entry)).filterMap Move.line? =
      Outline.table around.length opening (as.map entry) := by
  have hentries := lines_entries { around := around, inTable := true } as entry
  simp [table, Outline.table, List.filterMap_cons, Move.line?, hentries, Site.depth_frame,
    Site.depth_entry, Function.comp_def]

theorem lines_enum (e : EnumDescriptor) :
    (enum around e).filterMap Move.line? = Outline.enum around.length e := by
  simp only [enum, Outline.enum, List.filterMap_append, lines_entries, lines_table]
  simp [List.filterMap_cons, Move.line?, Site.depth_frame]

theorem lines_field (path : String) (f : FieldDescriptor) :
    (field around path f).filterMap Move.line? = Outline.field around.length f := by
  cases h : FieldId.ofField? f <;>
    simp [field, Outline.field, h, List.filterMap_cons, Move.line?, Site.depth_frame]

theorem lines_fieldTables (fields : List FieldDescriptor) :
    (fieldTables around fields).filterMap Move.line? =
      Outline.fieldTables around.length fields := by
  simp only [fieldTables, Outline.fieldTables, List.filterMap_append, lines_table]
  simp [Move.line?, Site.depth_frame]

/-- The moves for a message write its outline. -/
theorem lines_message (path : String) (m : MessageDescriptor) :
    (message around path m).filterMap Move.line? = Outline.message around.length m := by
  induction m using MessageDescriptor.tree_induction generalizing around path with
  | step m ih =>
    have hnested : (m.nested.flatMap fun n =>
        (message (m :: around) (qualify path n.name) n).filterMap Move.line?) =
        m.nested.flatMap (Outline.message (around.length + 1)) :=
      List.flatMap_congr fun n hn => ih n hn (m :: around) (qualify path n.name)
    rw [message_eq, Outline.message_eq, ← hnested]
    simp [opening, closing, List.filterMap_cons, Move.line?, List.filterMap_flatMap, lines_enum,
      lines_field, lines_fieldTables, Site.depth_frame]

/-- The moves for a schema write its outline. -/
theorem lines_blocks (guard : String) (f : FileDescriptor) :
    (blocks guard f).flatten.filterMap Move.line? = Outline.schema guard f := by
  rw [Outline.schema_eq]
  simp [blocks, preamble, ending, Outline.preamble, Move.line?, List.flatMap_def,
    List.filterMap_flatten, Function.comp_def, lines_enum, lines_message, Site.depth_frame]

end Moves

/-- All steps fit when they are made from this level on. -/
def Levelled : Nat → List Move → Prop
  | _, [] => True
  | level, move :: rest => move.Fits level ∧ Levelled (move.level level) rest

/-- All steps fit, and the level is the same afterwards. -/
structure Balanced (level : Nat) (moves : List Move) : Prop where
  levelled : Levelled level moves
  back : moves.foldl Move.level level = level

section Level

variable {level : Nat} {move : Move} {first rest : List Move}

theorem levelled_append : Levelled level (first ++ rest) ↔
    Levelled level first ∧ Levelled (first.foldl Move.level level) rest := by
  induction first generalizing level with
  | nil => simp [Levelled]
  | cons move first ih => simp [Levelled, ih, and_assoc]

theorem fits_of_levelled (h : Levelled level (first ++ move :: rest)) :
    move.Fits (first.foldl Move.level level) :=
  (levelled_append.mp h).2.1

theorem Balanced.nil : Balanced level [] := ⟨trivial, rfl⟩

theorem Balanced.cons (hfits : move.Fits level) (hlevel : move.level level = level)
    (h : Balanced level rest) : Balanced level (move :: rest) where
  levelled := ⟨hfits, by rw [hlevel]; exact h.levelled⟩
  back := by rw [List.foldl_cons, hlevel, h.back]

theorem Balanced.append (hfirst : Balanced level first) (hrest : Balanced level rest) :
    Balanced level (first ++ rest) where
  levelled := levelled_append.mpr ⟨hfirst.levelled, by rw [hfirst.back]; exact hrest.levelled⟩
  back := by rw [List.foldl_append, hfirst.back, hrest.back]

theorem Balanced.flatten {blocks : List (List Move)} (h : ∀ block ∈ blocks, Balanced level block) :
    Balanced level blocks.flatten := by
  induction blocks with
  | nil => exact nil
  | cons block rest ih =>
    rw [List.forall_mem_cons] at h
    exact h.1.append (ih h.2)

theorem Balanced.flatMap {α : Type} {parts : α → List Move} {as : List α}
    (h : ∀ a ∈ as, Balanced level (parts a)) : Balanced level (as.flatMap parts) := by
  rw [List.flatMap_def]
  exact flatten (by simpa using h)

theorem Balanced.line {site : Site} (hdepth : site.depth = level) (text : String)
    (h : Balanced level rest) : Balanced level (.line site text :: rest) :=
  cons hdepth.symm rfl h

theorem Balanced.lines {α : Type} {site : Site} (hdepth : site.depth = level) (as : List α)
    (text : α → String) : Balanced level (as.map fun a => .line site (text a)) := by
  induction as with
  | nil => exact nil
  | cons a rest ih => exact line hdepth (text a) ih

theorem Balanced.blank : Balanced level [.blank] := cons trivial rfl nil

/-- Whatever is balanced one level deeper stays so between a step down and a step up. -/
theorem Balanced.inside {down up : Move} (hdown : down.Fits level)
    (hdeeper : down.level level = level + 1) (h : Balanced (level + 1) rest)
    (hup : up.Fits (level + 1)) (hback : up.level (level + 1) = level) :
    Balanced level (down :: rest ++ [up]) where
  levelled := by
    refine ⟨hdown, ?_⟩
    rw [hdeeper]
    exact levelled_append.mpr ⟨h.levelled, by rw [h.back]; exact ⟨hup, trivial⟩⟩
  back := by
    rw [List.cons_append, List.foldl_cons, hdeeper, List.foldl_append, h.back]
    exact hback

end Level

namespace Moves

variable (around : List MessageDescriptor)

/-- The entries of a table are the only lines that are written at a raised level. -/
theorem balanced_table (opening : String) (entries : List String) :
    Balanced around.length (table around opening entries) := by
  have hentries : Balanced (around.length + 1)
      (entries.map (.line { around := around, inTable := true })) :=
    .lines (Site.depth_entry around) entries fun entry => entry
  have hinside : Balanced around.length (.deeper ::
      entries.map (.line { around := around, inTable := true }) ++ [.shallower]) :=
    .inside trivial rfl hentries (Nat.succ_pos _) rfl
  have hframe := Site.depth_frame around
  simpa [table] using Balanced.line hframe opening
    (hinside.append (.line hframe Phrase.tableClosing .nil))

theorem balanced_enum (e : EnumDescriptor) : Balanced around.length (enum around e) := by
  have hsite := Site.depth_frame around
  rw [enum]
  refine Balanced.append (.append (.append (.append (.append ?_ ?_) ?_) ?_) ?_) .blank
  · exact .cons trivial rfl (.line hsite _ .nil)
  · exact .lines hsite _ _
  · exact .line hsite _ .nil
  · exact balanced_table around _ _
  · exact balanced_table around _ _

theorem balanced_field (path : String) (f : FieldDescriptor) :
    Balanced around.length (field around path f) := by
  have hsite := Site.depth_frame around
  refine .cons trivial rfl (.line hsite _ ?_)
  cases FieldId.ofField? f with
  | none => exact .cons trivial rfl .blank
  | some id => exact .line hsite _ .blank

theorem balanced_fieldTables (fields : List FieldDescriptor) :
    Balanced around.length (fieldTables around fields) := by
  rw [fieldTables]
  refine Balanced.append (.append (.append ?_ ?_) ?_) .blank
  · exact .line (Site.depth_frame around) _ .nil
  · exact balanced_table around _ _
  · exact balanced_table around _ _

/-- What stands inside a message lies between the two moves that change the level. -/
theorem message_eq_frame (path : String) (m : MessageDescriptor) : message around path m =
    [.count { messages := 1 }, .atLevel around.length,
      .line { around := around } ("// message " ++ m.name),
      .line { around := around } (Phrase.scopeOpening m.name)] ++
    (.atLevel (around.length + 1) ::
        (m.enums.flatMap (enum (m :: around)) ++
          m.nested.flatMap (fun n => message (m :: around) (qualify path n.name) n) ++
          .atLevel (around.length + 1) :: (m.fields.flatMap (field (m :: around) path) ++
            fieldTables (m :: around) m.fields)) ++
      [.atLevel around.length]) ++
    [.line { around := around } (Phrase.messageClosing m.name), .blank] := by
  rw [message_eq]
  simp [opening, closing]

/-- The level is set anew for each message, and it is the one that is there already: its nested
messages have put back what they changed. -/
theorem balanced_message (path : String) (m : MessageDescriptor) :
    Balanced around.length (message around path m) := by
  induction m using MessageDescriptor.tree_induction generalizing around path with
  | step m ih =>
    have hsite := Site.depth_frame around
    rw [message_eq_frame]
    refine Balanced.append (.append ?_ ?_) (.line hsite _ .blank)
    · exact .cons trivial rfl (.cons trivial rfl (.line hsite _ (.line hsite _ .nil)))
    · refine .inside trivial rfl ?_ trivial rfl
      refine Balanced.append (.append ?_ ?_) (.cons trivial rfl (.append ?_ ?_))
      · exact .flatMap fun e _ => balanced_enum (m :: around) e
      · exact .flatMap fun n hn => ih n hn (m :: around) (qualify path n.name)
      · exact .flatMap fun f _ => balanced_field (m :: around) path f
      · exact balanced_fieldTables (m :: around) m.fields

theorem balanced_preamble (guard : String) (f : FileDescriptor) :
    Balanced 0 (preamble guard f) := by
  have hsite := Site.depth_frame []
  rw [preamble]
  refine Balanced.append (.append ?_ (.lines hsite _ _)) .blank
  exact .line hsite _ (.line hsite _ (.cons trivial rfl
    (.line hsite _ (.line hsite _ .blank))))

theorem balanced_ending (guard : String) (f : FileDescriptor) : Balanced 0 (ending guard f) := by
  have hsite := Site.depth_frame []
  rw [ending]
  refine Balanced.append (.lines hsite _ _) ?_
  exact .cons trivial rfl (.line hsite _ .nil)

/-- Every block of a schema starts and ends at level zero. -/
theorem balanced_blocks (guard : String) (f : FileDescriptor) :
    ∀ block ∈ blocks guard f, Balanced 0 block := by
  intro block hblock
  simp only [blocks, List.mem_append, List.mem_singleton, List.mem_map] at hblock
  obtain ((rfl | ⟨e, -, rfl⟩) | ⟨m, -, rfl⟩) | rfl := hblock
  · exact balanced_preamble guard f
  · exact balanced_enum [] e
  · exact balanced_message [] (qualify f.package m.name) m
  · exact balanced_ending guard f

end Moves

namespace Draft

variable {d : Draft} {move : Move} {moves before after : List Move}

theorem level_apply : (move.apply d).level = move.level d.level := by
  cases move <;> rfl

theorem indentUnit_apply : (move.apply d).indentUnit = d.indentUnit := by
  cases move <;> rfl

/-- A line that fits is written as deep as its site is. -/
theorem text_apply (h : move.Fits d.level) : (move.apply d).text =
    d.text ++ Line.renderAll d.indentUnit move.line?.toList := by
  cases move with
  | line site text =>
    have hlevel : d.level = site.depth := h
    simp [Move.apply, line_eq, extend, Move.line?, hlevel]
  | blank => simp [Move.apply, blank_eq, extend, Move.line?]
  | _ => exact String.append_empty.symm

theorem level_run : (d.run moves).level = moves.foldl Move.level d.level := by
  induction moves generalizing d with
  | nil => rfl
  | cons move rest ih => rw [run_cons, ih, level_apply, List.foldl_cons]

/-- A levelled run writes its lines, each at its own depth. -/
theorem text_run (h : Levelled d.level moves) : (d.run moves).text =
    d.text ++ Line.renderAll d.indentUnit (moves.filterMap Move.line?) := by
  induction moves generalizing d with
  | nil => simp
  | cons move rest ih =>
    obtain ⟨hfits, hrest⟩ := h
    rw [← level_apply] at hrest
    rw [run_cons, ih hrest, text_apply hfits, indentUnit_apply, String.append_assoc,
      ← Line.renderAll_append]
    cases hline : move.line? <;> simp [hline]

/-- Each step of a balanced run is made at the level that it asks for. -/
theorem fits_run (h : Balanced d.level (before ++ move :: after)) :
    move.Fits (d.run before).level := by
  rw [level_run]
  exact fits_of_levelled h.levelled

/-- Balanced blocks bring the level back to where it was. -/
theorem level_run_flatten {blocks : List (List Move)}
    (h : ∀ block ∈ blocks, Balanced d.level block) : (d.run blocks.flatten).level = d.level := by
  rw [level_run, (Balanced.flatten h).back]

end Draft

/-- A header is the same list of lines whatever the unit of indentation. Every line is written at
the level of its site, no level falls below zero, and before each element of the file it is zero. -/
theorem Dialect.header_indentation (style : Dialect) (f : FileDescriptor) :
    let blocks := Moves.blocks (style.guard f.name) f
    let moves := blocks.flatten
    let lines := moves.filterMap Move.line?
    lines = Outline.schema (style.guard f.name) f ∧
    ∀ (indent : String) (log : Log),
      let start : Draft := { indentUnit := indent, fileName := f.name, log := log }
      ({ style with indent := indent } : Dialect).header f log =
        ({ (style.header f {}).1 with content := Line.renderAll indent lines },
          ⟨log.entries ++ (style.header f {}).2.entries⟩) ∧
      start.schema (style.guard f.name) f = start.run moves ∧
      (∀ before move after, moves = before ++ move :: after →
        move.Fits (start.run before).level) ∧
      ∀ before block after, blocks = before ++ block :: after →
        (start.run before.flatten).level = 0 := by
  intro blocks moves lines
  refine ⟨Moves.lines_blocks (style.guard f.name) f, ?_⟩
  intro indent log start
  have hblocks : ∀ block ∈ blocks, Balanced start.level block :=
    Moves.balanced_blocks (style.guard f.name) f
  have hmoves : Balanced start.level moves := .flatten hblocks
  have hrun : start.schema (style.guard f.name) f = start.run moves :=
    Draft.schema_eq_run (style.guard f.name) f rfl
  refine ⟨?_, hrun, ?_, ?_⟩
  · have htext : (({ style with indent := indent } : Dialect).header f log).1.content =
        Line.renderAll indent lines := by
      have hcontent : (({ style with indent := indent } : Dialect).header f log).1.content =
          (start.schema (style.guard f.name) f).text := rfl
      rw [hcontent, hrun, Draft.text_run hmoves.levelled]
      exact String.empty_append
    rw [← htext, Dialect.header_eq, Dialect.header_eq]
    simp [Dialect.headerName]
  · intro before move after heq
    rw [heq] at hmoves
    exact Draft.fits_run hmoves
  · intro before block after heq
    refine Draft.level_run_flatten fun b hb => hblocks b ?_
    rw [heq]
    exact List.mem_append_left _ hb

/-- The entry in a table of `B`, which is nested in `A`, with the step after it and the element
before it. -/
theorem Dialect.header_indentation_nested :
    let inner : MessageDescriptor := { name? := some "B", fields := [{ name? := some "x" }] }
    let outer : MessageDescriptor := { name? := some "A", nested := [inner] }
    let f : FileDescriptor := { messages := [outer] }
    let blocks := Moves.blocks (({} : Dialect).guard f.name) f
    let moves := blocks.flatten
    let start : Draft := { indentUnit := "\t", fileName := f.name }
    let entry : Move := .line { around := [inner, outer], inTable := true } "\"x\","
    moves = moves.take 25 ++ entry :: moves.drop 26 ∧ (start.run (moves.take 25)).level = 3 ∧
      moves = moves.take 26 ++ .shallower :: moves.drop 27 ∧
        0 < (start.run (moves.take 26)).level ∧
      (start.run (blocks.take 1).flatten).level = 0 ∧
      ∃ before after, (({ ({} : Dialect) with indent := "\t" } : Dialect).header f {}).1.content =
        before ++ "\t\tstatic const char* _FIELD_NAMES[1] = \x7b\n\t\t\t\"x\",\n\t\t\x7d;\n" ++
          after := by
  intro inner outer f blocks moves start entry
  obtain ⟨hheader, -, hfits, hlevel⟩ := (header_indentation {} f).2 "\t" {}
  have hsplit {n : Nat} {move : Move} (h : moves.drop n = move :: moves.drop (n + 1)) :
      moves = moves.take n ++ move :: moves.drop (n + 1) := by
    rw [← h, List.take_append_drop]
  have hentry : moves = moves.take 25 ++ entry :: moves.drop 26 := hsplit rfl
  have hshallower : moves = moves.take 26 ++ .shallower :: moves.drop 27 := hsplit rfl
  refine ⟨hentry, ?_, hshallower, ?_, ?_, ?_⟩
  · exact hfits (moves.take 25) entry (moves.drop 26) hentry
  · exact hfits (moves.take 26) .shallower (moves.drop 27) hshallower
  · exact hlevel (blocks.take 1) _ (blocks.drop 2) rfl
  · let lines := moves.filterMap Move.line?
    let table : List Line :=
      [⟨2, "static const char* _FIELD_NAMES[1] = \x7b"⟩, ⟨3, "\"x\","⟩, ⟨2, "\x7d;"⟩]
    have hlines : lines.drop 14 = table ++ lines.drop 17 := rfl
    have htable : Line.renderAll "\t" table =
        "\t\tstatic const char* _FIELD_NAMES[1] = \x7b\n\t\t\t\"x\",\n\t\t\x7d;\n" := by decide
    refine ⟨Line.renderAll "\t" (lines.take 14), Line.renderAll "\t" (lines.drop 17), ?_⟩
    rw [hheader, ← htable, String.append_assoc, ← Line.renderAll_append, ← hlines,
      ← Line.renderAll_append, List.take_append_drop]

end SchemaHeader
