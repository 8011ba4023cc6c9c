import Mathlib.Data.List.Infix
import Mathlib.Logic.Relation
import SchemaHeader.Proofs.Generation
import SchemaHeader.Proofs.Text.Segments

/-! Which part of a request its answer depends on: the parameter, and those of its files whose names
are asked for. -/
namespace SchemaHeader

namespace Request

/-- The files that are asked for, in the order of the request. -/
def selection (r : Request) : List FileDescriptor := r.files.filter fun f => f.name ∈ r.wanted

/-- One edit after which the same files are asked for. -/
inductive Edit : Request → Request → Prop
  | reorder {r : Request} {names : List String} (h : names.Perm r.wanted) :
    Edit r { r with wanted := names }
  | repeatName {r : Request} {name : String} (h : name ∈ r.wanted) :
    Edit r { r with wanted := name :: r.wanted }
  | addName {r : Request} {name : String} (h : ∀ f ∈ r.files, f.name ≠ name) :
    Edit r { r with wanted := name :: r.wanted }
  | addFile {r : Request} {f : FileDescriptor} {before after : List FileDescriptor}
    (hfiles : r.files = before ++ after) (h : f.name ∉ r.wanted) :
    Edit r { r with files := before ++ f :: after }

variable {r other : Request} {names : List String} {f g : FileDescriptor}
  {before after : List FileDescriptor}

/-- A file that nobody asks for can be taken out and put in again as any other such file. -/
theorem eqvGen_edit_alterFile (hfiles : r.files = before ++ f :: after) (hf : f.name ∉ r.wanted)
    (hg : g.name ∉ r.wanted) :
    Relation.EqvGen Edit r { r with files := before ++ g :: after } := by
  have hremove : Edit { r with files := before ++ after }
      { r with files := before ++ f :: after } := .addFile rfl hf
  rw [← hfiles] at hremove
  exact .trans _ _ _ (.symm _ _ (.rel _ _ hremove)) (.rel _ _ (.addFile rfl hg))

theorem selection_eq_of_mem_iff (h : ∀ f ∈ r.files, f.name ∈ names ↔ f.name ∈ r.wanted) :
    selection { r with wanted := names } = r.selection :=
  List.filter_congr fun f hf => by simpa using h f hf

/-- No edit changes which files are selected. -/
theorem selection_of_edit (h : Edit r other) : other.selection = r.selection := by
  cases h with
  | reorder hperm => exact selection_eq_of_mem_iff fun f _ => hperm.mem_iff
  | repeatName hname =>
    refine selection_eq_of_mem_iff fun f _ => ⟨fun hf => ?_, List.mem_cons_of_mem _⟩
    obtain heq | hf := List.mem_cons.mp hf
    · rwa [heq]
    · exact hf
  | addName hforeign =>
    refine selection_eq_of_mem_iff fun f hf => ⟨fun hmem => ?_, List.mem_cons_of_mem _⟩
    exact (List.mem_cons.mp hmem).resolve_left (hforeign f hf)
  | addFile hfiles hunwanted => simp [selection, hfiles, hunwanted]

theorem parameter_of_edit (h : Edit r other) : other.parameter = r.parameter := by
  cases h with
  | reorder => rfl
  | repeatName => rfl
  | addName => rfl
  | addFile => rfl

theorem selection_of_eqvGen_edit (h : Relation.EqvGen Edit r other) :
    other.selection = r.selection ∧ other.parameter = r.parameter := by
  induction h with
  | rel r other h => exact ⟨selection_of_edit h, parameter_of_edit h⟩
  | refl r => exact ⟨rfl, rfl⟩
  | symm r other _ ih => exact ⟨ih.1.symm, ih.2.symm⟩
  | trans r mid other _ _ ih ih' => exact ⟨ih'.1.trans ih.1, ih'.2.trans ih.2⟩

end Request

namespace Dialect

variable (style : Dialect) (request : Request)

/-- The answer with the headers of these files, whatever is wrong with them. -/
def answerWith (parameter : String) (files : List FileDescriptor) : Response where
  error? := none
  supportedFeatures? :=
    if optionalFieldsWord.toList <:+: parameter.toList then some Response.optionalFieldsFeature
    else none
  files := files.map fun f =>
    { name? := some (f.name ++ style.fileSuffix)
      insertionPoint? := none
      content? := some (style.header f {}).1.content }

theorem ofHeaders_eq_answerWith (parameter : String) (files : List FileDescriptor) :
    Response.ofHeaders parameter (files.map fun f => (style.header f {}).1) =
      style.answerWith parameter files := by
  have hword : allowsOptionalFields parameter = true ↔
      optionalFieldsWord.toList <:+: parameter.toList := Text.occurs_iff_isInfix
  simp only [Response.ofHeaders, answerWith, hword, List.map_map]
  rfl

/-- A response is made from the selected files and the parameter alone. -/
theorem response_eq : style.response request =
    if ∀ f ∈ request.selection, Survey.problemsOf f = [] then
      .ok (style.answerWith request.parameter request.selection)
    else .error ⟨request.selection.flatMap Survey.problemsOf⟩ := by
  have hheaders : style.headers request =
      if ∀ f ∈ request.selection, Survey.problemsOf f = [] then
        .ok (request.selection.map fun f => (style.header f {}).1)
      else .error ⟨request.selection.flatMap Survey.problemsOf⟩ := style.headers_eq request
  rw [response, hheaders, ← ofHeaders_eq_answerWith]
  split
  · rfl
  · rfl

/-- The answer, or what is found wrong, stays the same under edits that ask for the same files. An
answer has one file for each of those, in the order of the request. -/
theorem response_of_selection :
    (∀ other, Relation.EqvGen Request.Edit request other →
      style.response other = style.response request) ∧
    ∀ answer, style.response request = .ok answer →
      answer.files = (request.files.filter fun f => f.name ∈ request.wanted).map (fun f =>
        { name? := some (f.name ++ style.fileSuffix)
          insertionPoint? := none
          content? := some (style.header f {}).1.content }) ∧
      answer.error? = none ∧
      answer.supportedFeatures? =
        if optionalFieldsWord.toList <:+: request.parameter.toList then
          some Response.optionalFieldsFeature
        else none := by
  constructor
  · intro other hedits
    obtain ⟨hselection, hparameter⟩ := Request.selection_of_eqvGen_edit hedits
    rw [response_eq, response_eq, hselection, hparameter]
  · intro answer hanswer
    rw [response_eq] at hanswer
    split at hanswer
    · obtain rfl := Except.ok.inj hanswer
      exact ⟨rfl, rfl, rfl⟩
    · cases hanswer

/-- Nobody asks for the one file that is ill-typed. -/
def asked : Request where
  wanted := ["b", "a"]
  parameter? := "lite,experimental_allow_proto3_optional"
  files := [{ name? := "a" }, { name? := "x", messages := [{ fields := [{ type? := some 19 }] }] },
    { name? := "b" }]

/-- The same names twice and in another order, with one of no file, and another file for the
ill-typed one. -/
def askedAgain : Request where
  wanted := ["none", "a", "a", "b"]
  parameter? := "lite,experimental_allow_proto3_optional"
  files := [{ name? := "a" }, { name? := "y" }, { name? := "b" }]

theorem response_of_selection_edited :
    Relation.EqvGen Request.Edit asked askedAgain ∧
      response {} askedAgain = response {} asked ∧ ∃ answer, response {} asked = .ok answer ∧
        answer.files.map (·.name?) = [some "a.h", some "b.h"] ∧
        answer.supportedFeatures? = some Response.optionalFieldsFeature := by
  have hfiles : asked.files = [{ name? := "a" }] ++
      { name? := "x", messages := [{ fields := [{ type? := some 19 }] }] } :: [{ name? := "b" }] :=
    rfl
  have hother : FileDescriptor.name { name? := "y" } ∉ asked.wanted := by decide
  have hperm : ["a", "b"].Perm asked.wanted := .swap _ _ _
  have hforeign : ∀ f ∈ askedAgain.files, f.name ≠ "none" := by decide +kernel
  have halter : Relation.EqvGen Request.Edit asked { asked with files := askedAgain.files } :=
    Request.eqvGen_edit_alterFile hfiles (by decide) hother
  have horder : Request.Edit { asked with files := askedAgain.files }
      { askedAgain with wanted := ["a", "b"] } := .reorder hperm
  have hrepeat : Request.Edit { askedAgain with wanted := ["a", "b"] }
      { askedAgain with wanted := ["a", "a", "b"] } := .repeatName List.mem_cons_self
  have hadd : Request.Edit { askedAgain with wanted := ["a", "a", "b"] } askedAgain :=
    .addName hforeign
  have hedits : Relation.EqvGen Request.Edit asked askedAgain :=
    halter.trans _ _ _ <| .trans _ _ _ (.rel _ _ horder) <|
      .trans _ _ _ (.rel _ _ hrepeat) (.rel _ _ hadd)
  have hok : (response {} asked).isOk = true := by decide +kernel
  obtain ⟨hsame, hanswer⟩ := response_of_selection {} asked
  cases hresponse : response {} asked with
  | error log =>
    rw [hresponse] at hok
    cases hok
  | ok answer =>
    obtain ⟨hfiles, -, hfeatures⟩ := hanswer answer hresponse
    refine ⟨hedits, (hsame _ hedits).trans hresponse, answer, rfl, ?_, ?_⟩
    · rw [hfiles, List.map_map]
      decide +kernel
    · rw [hfeatures]
      exact if_pos ⟨"lite,".toList, [], by decide⟩

end Dialect

end SchemaHeader
