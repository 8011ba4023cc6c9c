import SchemaHeader.Generation
import SchemaHeader.Proofs.Descriptor.Tree
import SchemaHeader.Proofs.FieldId
import SchemaHeader.Proofs.Header.Traversal

/-! The headers of a request against the headers that its files get one by one. -/
namespace SchemaHeader

namespace Survey

theorem illTyped_eq_nil_iff {file path : String} {fields : List FieldDescriptor} :
    illTyped file path fields = [] ↔ ∀ x ∈ fields, ¬ x.IsIllTyped := by
  simp [illTyped, ← FieldDescriptor.declaredType?_eq_none_iff]

theorem problemsIn_eq_flatMap (file scope : String) (ms : List MessageDescriptor) :
    problemsIn file scope ms = ms.flatMap fun m => problems file (qualify scope m.name) m := by
  induction ms with
  | nil => rfl
  | cons m rest ih => rw [problemsIn, ih, List.flatMap_cons]

theorem problems_eq (file path : String) (m : MessageDescriptor) : problems file path m =
    problemsIn file path m.nested ++ illTyped file path m.fields := by
  obtain ⟨name?, fields, nested, enums⟩ := m
  rfl

/-- A message has no problem when no field in it or inside its messages is ill-typed. -/
theorem problems_eq_nil_iff (file path : String) (m : MessageDescriptor) :
    problems file path m = [] ↔ ∀ n ∈ m.tree, ∀ x ∈ n.fields, ¬ x.IsIllTyped := by
  induction m using MessageDescriptor.tree_induction generalizing path with
  | step m ih =>
    rw [problems_eq, List.append_eq_nil_iff, illTyped_eq_nil_iff, problemsIn_eq_flatMap,
      List.flatMap_eq_nil_iff, MessageDescriptor.forall_mem_tree, and_comm]
    apply and_congr_right
    intro _
    exact forall₂_congr fun n hn => ih n hn (qualify path n.name)

/-- No diagnostic is without an ill-typed field, and no ill-typed field without a diagnostic. -/
theorem problemsOf_eq_nil_iff (f : FileDescriptor) :
    problemsOf f = [] ↔ ∀ m ∈ f.everyMessage, ∀ x ∈ m.fields, ¬ x.IsIllTyped := by
  rw [problemsOf, problemsIn_eq_flatMap, List.flatMap_eq_nil_iff,
    FileDescriptor.forall_mem_everyMessage]
  exact forall₂_congr fun m _ => problems_eq_nil_iff f.name (qualify f.package m.name) m

end Survey

namespace Dialect

variable (style : Dialect)

/-- Each file adds its header and its diagnostics, whatever the log already holds. -/
theorem headersOf_eq (isWanted : String → Bool) (files : List FileDescriptor) (log : Log) :
    style.headersOf isWanted files log =
      ((files.filter fun f => isWanted f.name).map fun f => (style.header f {}).1,
        ⟨log.entries ++ (files.filter fun f => isWanted f.name).flatMap Survey.problemsOf⟩) := by
  induction files generalizing log with
  | nil => simp [headersOf]
  | cons f rest ih =>
    cases hf : isWanted f.name with
    | false => simp [headersOf, hf, ih]
    | true => simp [headersOf, hf, ih, header_eq]

/-- A request leads to the headers of the files that it wants, or to all their problems. -/
theorem headers_eq (request : Request) :
    let chosen := request.files.filter fun f => f.name ∈ request.wanted
    style.headers request =
      if ∀ f ∈ chosen, Survey.problemsOf f = [] then .ok (chosen.map fun f => (style.header f {}).1)
      else .error ⟨chosen.flatMap Survey.problemsOf⟩ := by
  intro chosen
  have hchosen : (request.files.filter fun f => request.wants f.name) = chosen := by
    simp [chosen, Request.wants]
  rw [headers, headersOf_eq, hchosen]
  by_cases h : ∀ f ∈ chosen, Survey.problemsOf f = []
  · have hlog := List.flatMap_eq_nil_iff.mpr h
    rw [if_pos h]
    simp only [hlog]
    rfl
  · have hlog : (⟨chosen.flatMap Survey.problemsOf⟩ : Log).isEmpty = false := by
      simpa [Log.isEmpty] using h
    rw [if_neg h]
    simp only [Log.toExcept, List.nil_append, hlog]
    rfl

theorem headers_eq_ok_iff {request : Request} {headers : List Header} :
    style.headers request = .ok headers ↔
      (∀ f ∈ request.files.filter (fun f => f.name ∈ request.wanted),
        ∀ m ∈ f.everyMessage, ∀ x ∈ m.fields, ¬ x.IsIllTyped) ∧
      headers = (request.files.filter fun f => f.name ∈ request.wanted).map fun f =>
        (style.header f {}).1 := by
  have htyped : (∀ f ∈ request.files.filter (fun f => f.name ∈ request.wanted),
        Survey.problemsOf f = []) ↔
      ∀ f ∈ request.files.filter (fun f => f.name ∈ request.wanted),
        ∀ m ∈ f.everyMessage, ∀ x ∈ m.fields, ¬ x.IsIllTyped :=
    forall₂_congr fun f _ => Survey.problemsOf_eq_nil_iff f
  rw [headers_eq, ← htyped]
  split
  · next hnone =>
    rw [Except.ok.injEq, eq_comm]
    exact ⟨fun h => ⟨hnone, h⟩, fun h => h.2⟩
  · next hsome =>
    constructor
    · intro h
      cases h
    · intro h
      exact (hsome h.1).elim

/-- The headers of a request are all there or there are none: with `chosen` for the files that are
asked for, in the order of the request, and `alone` for what each of them gives by itself. -/
theorem headers_eq_alone (request : Request) :
    let chosen := request.files.filter fun f => f.name ∈ request.wanted
    let alone := chosen.map fun f => style.header f {}
    ((∃ headers, style.headers request = .ok headers) ↔ ∀ r ∈ alone, r.2.entries = []) ∧
    ((∀ r ∈ alone, r.2.entries = []) ↔
      ∀ f ∈ chosen, ∀ m ∈ f.everyMessage, ∀ x ∈ m.fields, ¬ x.IsIllTyped) ∧
    style.headers request =
      if ∀ r ∈ alone, r.2.entries = [] then .ok (alone.map (·.1))
      else .error ⟨alone.flatMap (·.2.entries)⟩ := by
  intro chosen alone
  have hlog (f : FileDescriptor) : (style.header f {}).2.entries = Survey.problemsOf f := by
    simp [header_eq]
  have hnone : (∀ r ∈ alone, r.2.entries = []) ↔ ∀ f ∈ chosen, Survey.problemsOf f = [] := by
    simp only [alone, List.forall_mem_map, hlog]
  have hheaders : style.headers request =
      if ∀ r ∈ alone, r.2.entries = [] then .ok (alone.map (·.1))
      else .error ⟨alone.flatMap (·.2.entries)⟩ := by
    simp only [headers_eq, alone, List.forall_mem_map, List.flatMap_map, List.map_map, hlog,
      Function.comp_def, chosen]
  refine ⟨?_, ?_, hheaders⟩
  · rw [hheaders]
    by_cases h : ∀ r ∈ alone, r.2.entries = []
    · rw [if_pos h]
      exact ⟨fun _ => h, fun _ => ⟨_, rfl⟩⟩
    · rw [if_neg h]
      constructor
      · rintro ⟨headers, hok⟩
        cases hok
      · intro hall
        exact (h hall).elim
  · rw [hnone]
    exact forall₂_congr fun f _ => Survey.problemsOf_eq_nil_iff f

end Dialect

end SchemaHeader
