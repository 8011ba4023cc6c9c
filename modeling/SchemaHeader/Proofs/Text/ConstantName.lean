import Mathlib.Data.List.Basic
import SchemaHeader.Proofs.Text.Identifier

/-! Constant names as a normal form: a name is in it when it has no lower-case letter, and an
underscore keeps the words on its two sides apart. Names with a common lead are told from their
constants and from what is left of them without it. -/
namespace SchemaHeader.Text

variable {s v w base lead : String} {lower : Bool} {cs xs ys : List Char}

/-- After an underscore a name goes on as at its beginning. -/
theorem constantChars_append_underscore : constantChars lower (xs ++ '_' :: ys) =
    constantChars lower xs ++ '_' :: constantChars false ys := by
  induction xs generalizing lower with
  | nil => simp [constantChars, endsLower]
  | cons c rest ih => simp [constantChars, ih]

theorem constantName_ne_of_lead : constantName (base ++ "_" ++ s) ≠ constantName s := by
  intro h
  have hlength : (constantChars false base.toList).length +
      ((constantChars false s.toList).length + 1) = (constantChars false s.toList).length := by
    simpa [constantName, constantChars_append_underscore] using
      congrArg (fun t : String => t.toList.length) h
  omega

theorem eq_append_or_afterLead_eq : v = lead ++ afterLead v lead ∨ afterLead v lead = v := by
  cases h : lead.toList.isPrefixOf? v.toList with
  | none => exact Or.inr (by rw [afterLead, h, Option.elim_none])
  | some rest =>
    left
    rw [afterLead, h, Option.elim_some, ← String.toList_inj, String.toList_append,
      String.toList_ofList, List.isPrefixOf?_eq_some_iff_append_eq.mp h]

/-- A name is known from its constant and from what is left of it without its lead. -/
theorem eq_of_afterLead (hrest : afterLead v (base ++ "_") = afterLead w (base ++ "_"))
    (hconstant : constantName v = constantName w) : v = w := by
  rcases @eq_append_or_afterLead_eq v (base ++ "_") with hv | hv
  · rcases @eq_append_or_afterLead_eq w (base ++ "_") with hw | hw
    · rw [hv, hw, hrest]
    · rw [hw] at hrest
      rw [hv, hrest] at hconstant
      exact (constantName_ne_of_lead hconstant).elim
  · rcases @eq_append_or_afterLead_eq w (base ++ "_") with hw | hw
    · rw [hv] at hrest
      rw [hw, ← hrest] at hconstant
      exact (constantName_ne_of_lead hconstant.symm).elim
    · rw [← hv, ← hw, hrest]

theorem constantName_append_underscore (a b : String) :
    constantName (a ++ "_" ++ b) = constantName a ++ "_" ++ constantName b := by
  apply String.toList_injective
  simp [constantName, constantChars_append_underscore]

theorem constantName_intercalate (words : List String) :
    constantName ("_".intercalate words) = "_".intercalate (words.map constantName) := by
  induction words with
  | nil => rfl
  | cons first rest ih =>
    cases rest with
    | nil => simp
    | cons second rest =>
      simp only [List.map_cons, String.intercalate_cons_cons] at ih ⊢
      rw [constantName_append_underscore, ih]

/-- Without a lower-case letter there is nothing to raise, and no boundary is ever noted. -/
theorem constantChars_eq_self (h : ∀ c ∈ cs, c.isLower = false) : constantChars false cs = cs := by
  induction cs with
  | nil => rfl
  | cons c rest ih =>
    obtain ⟨hc, hrest⟩ := List.forall_mem_cons.mp h
    have hraised : c.toUpper = c := toUpper_of_isLower_eq_false hc
    have hflag : endsLower false c = false := by simp [endsLower, hc]
    rw [constantChars, hflag, ih hrest, hraised]
    rfl

/-- Exactly the texts without lower-case letters are left as they are. -/
theorem constantName_eq_self_iff : constantName s = s ↔ ∀ c ∈ s.toList, c.isLower = false := by
  constructor
  · intro h c hc
    rw [← h] at hc
    exact isLower_of_mem_constantName hc
  · intro h
    rw [constantName, constantChars_eq_self h, String.ofList_toList]

theorem constantName_idem (s : String) : constantName (constantName s) = constantName s :=
  constantName_eq_self_iff.mpr fun _ => isLower_of_mem_constantName

/-- An underscore between texts stays between their constants. Constants are the texts without
lower-case letters, so a second pass changes nothing. -/
theorem constantName_normal_form :
    (∀ a b : String, constantName (a ++ "_" ++ b) = constantName a ++ "_" ++ constantName b) ∧
    (∀ s : String, constantName s = s ↔ ∀ c ∈ s.toList, c.isLower = false) ∧
    (∀ s : String, ∀ c ∈ (constantName s).toList, c.isLower = false) ∧
    (∀ s : String, constantName (constantName s) = constantName s) ∧
    ∀ words : List String,
      constantName ("_".intercalate words) = "_".intercalate (words.map constantName) := by
  refine ⟨constantName_append_underscore, fun s => constantName_eq_self_iff, ?_,
    constantName_idem, constantName_intercalate⟩
  intro s c hc
  exact isLower_of_mem_constantName hc

end SchemaHeader.Text
