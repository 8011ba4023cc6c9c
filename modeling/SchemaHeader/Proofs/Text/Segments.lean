import SchemaHeader.Text

/-! The pieces of a text that is cut at a delimiter. -/
namespace SchemaHeader.Text

variable {s piece : String} {c delimiter : Char}

theorem mem_intercalate {sep cs : List Char} {pieces : List (List Char)} (h : cs ∈ pieces)
    (hc : c ∈ cs) : c ∈ sep.intercalate pieces := by
  induction pieces with
  | nil => cases h
  | cons first rest ih =>
    cases rest with
    | nil =>
      rw [List.intercalate_singleton, ← List.mem_singleton.mp h]
      exact hc
    | cons second rest =>
      rw [List.intercalate_cons_cons, List.mem_append, List.mem_append]
      rcases List.mem_cons.mp h with rfl | h
      · exact Or.inl (Or.inl hc)
      · exact Or.inr (ih h)

theorem mem_of_mem_segments (h : piece ∈ segments s delimiter) (hc : c ∈ piece.toList) :
    c ∈ s.toList := by
  rw [segments, List.mem_map] at h
  obtain ⟨cs, hcs, rfl⟩ := h
  rw [String.toList_ofList] at hc
  have hpiece : cs ∈ s.toList.splitOn delimiter := (List.mem_filter.mp hcs).1
  have hjoin : [delimiter].intercalate (s.toList.splitOn delimiter) = s.toList :=
    List.intercalate_splitOn delimiter
  rw [← hjoin]
  exact mem_intercalate hpiece hc

/-- A word occurs where it is an infix. -/
theorem occurs_iff_isInfix {word cs : List Char} : occurs word cs = true ↔ word <:+: cs := by
  induction cs with
  | nil => rw [occurs, List.isEmpty_iff, List.infix_nil]
  | cons c rest ih =>
    rw [occurs, Bool.or_eq_true, List.isPrefixOf_iff_prefix, ih, List.infix_cons_iff]

/-- The first delimiter stands in the same place of both texts. -/
theorem append_delimiter_inj {first second rest more : List Char} (hfirst : delimiter ∉ first)
    (hsecond : delimiter ∉ second)
    (h : first ++ delimiter :: rest = second ++ delimiter :: more) :
    first = second ∧ rest = more := by
  induction first generalizing second with
  | nil =>
    cases second with
    | nil => exact ⟨rfl, List.tail_eq_of_cons_eq h⟩
    | cons d second =>
      obtain rfl := List.head_eq_of_cons_eq h
      exact (hsecond List.mem_cons_self).elim
  | cons c first ih =>
    cases second with
    | nil =>
      obtain rfl := List.head_eq_of_cons_eq h
      exact (hfirst List.mem_cons_self).elim
    | cons d second =>
      obtain rfl := List.head_eq_of_cons_eq h
      obtain ⟨rfl, hrest⟩ := ih (List.not_mem_of_not_mem_cons hfirst)
        (List.not_mem_of_not_mem_cons hsecond) (List.tail_eq_of_cons_eq h)
      exact ⟨rfl, hrest⟩

end SchemaHeader.Text
