import SchemaHeader.Wire.Grammar

/-! What is picked out of a record that was put together from single fields and lists. -/
namespace SchemaHeader.Wire.Record

variable {α β : Type} (r s : Record) (field : Nat) {other : Nat} (pick : Value → Option α)
  (wrap : β → Value) (a? : Option β) (as : List β)

@[simp] theorem all_append : all (r ++ s) field pick = all r field pick ++ all s field pick :=
  List.filterMap_append

@[simp] theorem all_each : all (each field wrap as) field pick = as.filterMap (pick ∘ wrap) := by
  rw [all, each, List.filterMap_map]
  exact congrArg (List.filterMap · as) (funext fun a => if_pos rfl)

theorem all_each_of_ne (h : other ≠ field) : all (each other wrap as) field pick = [] := by
  simp [all, each, h]

@[simp] theorem all_single :
    all (single field wrap a?) field pick = (a?.bind (pick ∘ wrap)).toList := by
  cases a? with
  | none => rfl
  | some a => cases h : pick (wrap a) <;> simp [all, single, h]

theorem all_single_of_ne (h : other ≠ field) : all (single other wrap a?) field pick = [] :=
  all_each_of_ne field pick wrap a?.toList h

/-- A field that occurs once at the most is as it was put in. -/
theorem getLast?_toList (a? : Option α) : a?.toList.getLast? = a? := by
  cases a? with
  | none => rfl
  | some a => rfl

theorem forall_mem_each {p : Nat × Value → Prop} :
    (∀ e ∈ each field wrap as, p e) ↔ ∀ a ∈ as, p (field, wrap a) :=
  List.forall_mem_map

theorem forall_mem_single {p : Nat × Value → Prop} :
    (∀ e ∈ single field wrap a?, p e) ↔ ∀ a, a? = some a → p (field, wrap a) := by
  simp [single]

end SchemaHeader.Wire.Record
