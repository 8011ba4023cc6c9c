import SchemaHeader.Proofs.Header.Traversal
import SchemaHeader.Proofs.Header.Lines
import SchemaHeader.Proofs.Text.Runs

/-! The package of a file in its header. Each segment opens a scope around what comes after it and
closes it at the end; nothing else of the package is seen. -/
namespace SchemaHeader

open Text (segments IsSpaced Respaced)

namespace Phrase

/-- The lines that open these scopes, the outermost first. -/
def scopeOpenings (scopes : List String) : String :=
  String.join (scopes.map fun scope => scopeOpening scope ++ "\n")

/-- The lines that close these scopes, the innermost first. -/
def packageClosings (scopes : List String) : String :=
  String.join (scopes.reverse.map fun scope => packageClosing scope ++ "\n")

end Phrase

theorem Line.renderAll_top (unit : String) (phrase : String → String) (names : List String) :
    renderAll unit (names.map fun name => ⟨0, phrase name⟩) =
      String.join (names.map fun name => phrase name ++ "\n") := by
  simp [renderAll, render, Function.comp_def]

namespace Dialect

variable {f : FileDescriptor} {package? : Option String}

/-- Lines that the package has no part in stand before, between and after those of its segments. -/
theorem content_eq_of_package (style : Dialect) (f : FileDescriptor) (package? : Option String)
    (log : Log) : (style.header { f with package? } log).1.content =
      Line.renderAll style.indent (Outline.preamble (style.guard f.name) f.name) ++
        Phrase.scopeOpenings (segments (package?.getD "") '.') ++
        Line.renderAll style.indent
          ([.blank] ++ f.enums.flatMap (Outline.enum 0) ++
            f.messages.flatMap (Outline.message 0)) ++
        Phrase.packageClosings (segments (package?.getD "") '.') ++
        Line.renderAll style.indent [.blank, ⟨0, "#endif // " ++ style.guard f.name⟩] := by
  rw [content_eq, Outline.schema_eq]
  simp only [Line.renderAll_append, Line.renderAll_top, String.append_assoc]
  rfl

/-- How many dots stand at the ends of a package or beside one another makes no difference. -/
theorem header_eq_of_respaced (style : Dialect) (log log' : Log)
    (h : Relation.EqvGen (Respaced '.') f.package.toList (package?.getD "").toList) :
    (style.header { f with package? } log').1 = (style.header f log).1 := by
  have hsegments : segments (package?.getD "") '.' = segments (f.package?.getD "") '.' :=
    (Text.segments_eq_segments_iff.mpr h).symm
  have houtline (guard : String) :
      Outline.schema guard { f with package? } = Outline.schema guard f := by
    simp only [Outline.schema, FileDescriptor.package, FileDescriptor.name, hsegments]
  rw [header_eq, header_eq, houtline]
  rfl

/-- Segments are the only runs that make up a text, and joined they are found again. A header opens
a scope for each segment of the package, so extra dots leave it as it is. -/
theorem package_by_segments :
    (∀ (s : String) (d : Char) (runs : List String), segments s d = runs ↔
      (∀ run ∈ runs, run ≠ "" ∧ d ∉ run.toList) ∧ IsSpaced d runs s) ∧
    (∀ (s : String) (d : Char), segments s d = [] ↔ ∀ c ∈ s.toList, c = d) ∧
    (∀ (s : String) (d : Char),
      segments ((String.singleton d).intercalate (segments s d)) d = segments s d) ∧
    (∀ (s t : String) (d : Char),
      segments s d = segments t d ↔ Relation.EqvGen (Respaced d) s.toList t.toList) ∧
    ∀ (style : Dialect) (f : FileDescriptor),
      (∃ before between after : String, ∀ (package? : Option String) (log : Log),
        let scopes := segments (package?.getD "") '.'
        (style.header { f with package? } log).1.content = before ++ Phrase.scopeOpenings scopes ++
          between ++ Phrase.packageClosings scopes ++ after) ∧
      ∀ (package? : Option String) (log log' : Log),
        Relation.EqvGen (Respaced '.') f.package.toList (package?.getD "").toList →
          (style.header { f with package? } log').1 = (style.header f log).1 := by
  refine ⟨fun s d runs => Text.segments_eq_iff, fun s d => Text.segments_eq_nil_iff,
    fun s d => Text.segments_rejoined, fun s t d => Text.segments_eq_segments_iff,
    fun style f => ⟨?_, fun package? log log' h => header_eq_of_respaced style log log' h⟩⟩
  exact ⟨_, _, _, content_eq_of_package style f⟩

theorem package_by_segments_dotted :
    let f : FileDescriptor := { package? := some "a.b", messages := [{ name? := some "M" }] }
    Relation.EqvGen (Respaced '.') f.package.toList ".a..b.".toList ∧
      (({} : Dialect).header { f with package? := some ".a..b." } {}).1 =
        (({} : Dialect).header f {}).1 ∧
      segments ".a..b." '.' = ["a", "b"] := by
  intro f
  have hsegments : segments ".a..b." '.' = ["a", "b"] := by decide
  have hdots : Relation.EqvGen (Respaced '.') f.package.toList ".a..b.".toList :=
    (package_by_segments.2.2.2.1 f.package ".a..b." '.').mp (by decide)
  exact ⟨hdots, (package_by_segments.2.2.2.2 {} f).2 (some ".a..b.") {} {} hdots, hsegments⟩

end Dialect

end SchemaHeader
