import Mathlib.Data.List.DropRight
import SchemaHeader.Proofs.Disk.Walk

/-! Paths without the segments at their end that lead nowhere, as the parents of paths are. -/
namespace SchemaHeader

namespace Path

variable {p q : Path} {init : List String} {last : String}

theorem dropIdleEnd_eq (segments : List String) :
    dropIdleEnd segments = segments.rdropWhile isIdle := rfl

/-- A path that begins with a dot keeps it, and any other loses the idle segments at its end. -/
theorem trimmed_cases (p : Path) :
    (∃ rest, p = ⟨false, "." :: rest⟩ ∧ p.trimmed = ⟨false, "." :: dropIdleEnd rest⟩) ∨
      (∀ rest, p ≠ ⟨false, "." :: rest⟩) ∧ p.trimmed = ⟨p.rooted, dropIdleEnd p.segments⟩ := by
  by_cases hdot : ∃ rest, p = ⟨false, "." :: rest⟩
  · obtain ⟨rest, rfl⟩ := hdot
    exact Or.inl ⟨rest, rfl, rfl⟩
  · refine Or.inr ⟨fun rest h => hdot ⟨rest, h⟩, ?_⟩
    unfold trimmed
    split
    · next rest => exact (hdot ⟨rest, rfl⟩).elim
    · rfl

/-- What is trimmed off a path leads nowhere. -/
theorem exists_segments_eq_trimmed_append (p : Path) :
    ∃ idle, (∀ segment ∈ idle, isIdle segment) ∧ p.segments = p.trimmed.segments ++ idle := by
  obtain ⟨rest, rfl, htrimmed⟩ | ⟨-, htrimmed⟩ := trimmed_cases p
  · refine ⟨rest.rtakeWhile isIdle, fun _ => List.mem_rtakeWhile_imp, ?_⟩
    rw [htrimmed, dropIdleEnd_eq, List.cons_append, List.rdropWhile_append_rtakeWhile]
  · refine ⟨p.segments.rtakeWhile isIdle, fun _ => List.mem_rtakeWhile_imp, ?_⟩
    rw [htrimmed, dropIdleEnd_eq, List.rdropWhile_append_rtakeWhile]

theorem trimmed_trimmed (p : Path) : p.trimmed.trimmed = p.trimmed := by
  obtain ⟨rest, -, htrimmed⟩ | ⟨hdot, htrimmed⟩ := trimmed_cases p
  · rw [htrimmed, trimmed, dropIdleEnd_eq, dropIdleEnd_eq, List.rdropWhile_idempotent]
  · obtain ⟨rest, hrest, -⟩ | ⟨-, hagain⟩ := trimmed_cases p.trimmed
    · -- A dot at the front would have been there before.
      obtain ⟨more, hmore⟩ := prefix_segments_trimmed p
      have hrooted : p.rooted = false := by rw [← rooted_trimmed, hrest]
      have hsegments : p.segments = "." :: (rest ++ more) := by
        rw [← hmore, hrest, List.cons_append]
      exact (hdot _ (congrArg₂ Path.mk hrooted hsegments)).elim
    · rw [hagain, htrimmed, dropIdleEnd_eq, dropIdleEnd_eq, List.rdropWhile_idempotent]

/-- A path that ends in a name has nothing to be trimmed off. -/
theorem trimmed_eq_self (hsegments : p.segments = init ++ [last]) (hlast : ¬ isIdle last) :
    p.trimmed = p := by
  have hkeep (segments : List String) : dropIdleEnd (segments ++ [last]) = segments ++ [last] := by
    rw [dropIdleEnd_eq, List.rdropWhile_concat_neg isIdle segments last hlast]
  obtain ⟨rest, rfl, htrimmed⟩ | ⟨-, htrimmed⟩ := trimmed_cases p
  · obtain ⟨-, hdot⟩ | ⟨more, -, rfl⟩ := List.cons_eq_append_iff.mp hsegments
    · obtain ⟨rfl, -⟩ := List.cons.inj hdot
      exact (hlast (by decide)).elim
    · rw [htrimmed, hkeep]
  · rw [htrimmed, hsegments, hkeep, ← hsegments]

/-- Only a path without segments has no parent. -/
theorem segments_eq_nil_of_parent? (htrimmed : p.trimmed = p) (h : p.parent? = none) :
    p.segments = [] := by
  rw [parent?, htrimmed] at h
  simpa using h

/-- The parent of a trimmed path is the path without its last segment. -/
theorem parent?_eq_some (htrimmed : p.trimmed = p) (hsegments : p.segments = init ++ [last]) :
    p.parent? = some (trimmed { p with segments := init }) := by
  rw [parent?, htrimmed, hsegments]
  simp

theorem exists_text_eq_append (hrooted : q.rooted = p.rooted)
    (hsegments : q.segments <+: p.segments) : ∃ rest, p.text = q.text ++ rest := by
  obtain ⟨more, hmore⟩ := hsegments
  rw [text, text, hrooted, ← hmore]
  by_cases hq : q.segments = []
  · exact ⟨"/".intercalate more, by simp [hq]⟩
  · by_cases hnone : more = []
    · exact ⟨"", by simp [hnone]⟩
    · refine ⟨"/" ++ "/".intercalate more, ?_⟩
      rw [String.intercalate_append_of_ne_nil hq hnone]
      simp only [String.append_assoc]

theorem segments_eq_nil_of_text (htrimmed : p.trimmed = p) (h : p.text.isEmpty) :
    p.segments = [] := by
  cases hsegments : p.segments with
  | nil => rfl
  | cons first rest =>
    have htext : p.text.toList = [] := by simpa using h
    rw [text, String.toList_append, List.append_eq_nil_iff, hsegments] at htext
    cases rest with
    | nil =>
      obtain rfl : first = "" := by simpa using htext.2
      obtain ⟨rest, rfl, -⟩ | ⟨-, hdropped⟩ := trimmed_cases p
      · simp at hsegments
      · rw [htrimmed] at hdropped
        have hnil := congrArg segments hdropped
        rw [hsegments] at hnil
        cases hnil
    | cons second rest => simp at htext

end Path

end SchemaHeader
