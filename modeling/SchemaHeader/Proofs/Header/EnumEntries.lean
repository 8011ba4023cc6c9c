import SchemaHeader.Header.Phrase
import SchemaHeader.Proofs.Text.ConstantName

/-! What the two tables of an enum tell of a value. The table of names may have lost the enum's own
name in front, and the table of constants shows whether it has. -/
namespace SchemaHeader.Phrase

open Text (constantName)

/-- The name of a value of `e`, read back from its entry in the table of names and from its
constant. -/
def nameOfEntries (e : EnumDescriptor) (short constant : String) : String :=
  if constant = constantName e.name ++ "_" ++ constantName short then
    constantName e.name ++ "_" ++ short
  else short

variable (e : EnumDescriptor) (v : EnumValue)

/-- The lead is in normal form, so it stays as it is in the constant. -/
theorem constantName_lead_append (rest : String) :
    constantName (constantName e.name ++ "_" ++ rest) =
      constantName e.name ++ "_" ++ constantName rest := by
  rw [Text.constantName_append_underscore, Text.constantName_idem]

theorem nameOfEntries_lead (rest : String) :
    nameOfEntries e rest (constantName (constantName e.name ++ "_" ++ rest)) =
      constantName e.name ++ "_" ++ rest := by
  rw [nameOfEntries, if_pos (constantName_lead_append e rest)]

/-- A name that was left whole has too short a constant for the lead to be in front of it. -/
theorem nameOfEntries_self (name : String) : nameOfEntries e name (constantName name) = name := by
  have hshort : constantName name ≠ constantName e.name ++ "_" ++ constantName name := by
    intro h
    rw [← constantName_lead_append] at h
    exact Text.constantName_ne_of_lead h.symm
  rw [nameOfEntries, if_neg hshort]

theorem nameOfEntries_shortName :
    nameOfEntries e (shortName e v) (constantName v.name) = v.name := by
  have hcases : v.name = constantName e.name ++ "_" ++ shortName e v ∨ shortName e v = v.name :=
    Text.eq_append_or_afterLead_eq
  obtain hlead | hwhole := hcases
  · have hread := nameOfEntries_lead e (shortName e v)
    rwa [← hlead] at hread
  · rw [hwhole]
    exact nameOfEntries_self e v.name

/-- The two entries of a value give its name back, and neither of them is enough by itself. -/
theorem entries_identify :
    (∀ (e : EnumDescriptor) (v : EnumValue),
      nameOfEntries e (shortName e v) (constantName v.name) = v.name) ∧
    (∀ e : EnumDescriptor, ∀ v ∈ e.values, ∀ w ∈ e.values, shortName e v = shortName e w →
      constantName v.name = constantName w.name → v.name = w.name) ∧
    (∃ e : EnumDescriptor, ∃ v ∈ e.values, ∃ w ∈ e.values,
      shortName e v = shortName e w ∧ v.name ≠ w.name) ∧
    ∃ e : EnumDescriptor, ∃ v ∈ e.values, ∃ w ∈ e.values,
      constantName v.name = constantName w.name ∧ v.name ≠ w.name := by
  refine ⟨nameOfEntries_shortName, ?_, ?_, ?_⟩
  · intro e v _ w _ hshort hconstant
    have hv := nameOfEntries_shortName e v
    rw [hshort, hconstant, nameOfEntries_shortName] at hv
    exact hv.symm
  · exact ⟨⟨some "e", [⟨some "E_on", none⟩, ⟨some "on", none⟩]⟩, _, List.mem_cons_self, _,
      List.mem_cons_of_mem _ List.mem_cons_self, by decide, by decide⟩
  · exact ⟨⟨some "e", [⟨some "aB", none⟩, ⟨some "a_b", none⟩]⟩, _, List.mem_cons_self, _,
      List.mem_cons_of_mem _ List.mem_cons_self, by decide, by decide⟩

theorem entries_identify_alias :
    let first : EnumValue := ⟨some "POWER_STATE_on", some 1⟩
    let again : EnumValue := ⟨some "POWER_STATE_on", some 2⟩
    let e : EnumDescriptor := ⟨some "powerState", [first, ⟨some "on", some 3⟩, again]⟩
    shortName e first = "on" ∧ shortName e again = "on" ∧ first.name = again.name ∧
      nameOfEntries e "on" "POWER_STATE_ON" = "POWER_STATE_on" ∧
      nameOfEntries e "on" "ON" = "on" := by
  intro first again e
  have hfirst : shortName e first = "on" := by decide
  have hagain : shortName e again = "on" := by decide
  have hsame : first.name = again.name :=
    entries_identify.2.1 e first (by simp [e]) again (by simp [e]) (hfirst.trans hagain.symm) rfl
  exact ⟨hfirst, hagain, hsame, by decide, by decide⟩

end SchemaHeader.Phrase
