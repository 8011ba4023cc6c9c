import SchemaHeader.Proofs.FieldId
import Mathlib.Data.String.Basic

/-! Literals of field IDs as texts: each has the digits of its word, and literals are in the order
of the words. -/
namespace SchemaHeader.FieldId

section Repetitions

variable {α β : Type} [BEq α] [BEq β] {f : α → β}

/-- What comes from one value is one value, so the same entries are left out before and after. -/
theorem map_eraseReps (hf : ∀ x y, (f x == f y) = (x == y)) (l : List α) :
    l.eraseReps.map f = (l.map f).eraseReps := by
  have hloop (x : α) (rest kept : List α) :
      (List.eraseRepsBy.loop (· == ·) x rest kept).map f =
        List.eraseRepsBy.loop (· == ·) (f x) (rest.map f) (kept.map f) := by
    induction rest generalizing x kept with
    | nil => simp [List.eraseRepsBy.loop]
    | cons y rest ih =>
      rw [List.map_cons, List.eraseRepsBy.loop, List.eraseRepsBy.loop, hf]
      cases x == y with
      | true => exact ih x kept
      | false => exact ih y (x :: kept)
  cases l with
  | nil => rfl
  | cons x rest => exact hloop x rest []

end Repetitions

variable {a b : FieldId} {ids : List FieldId}

/-- The two ends of all literals are the same and their digits have one width, so the digits
decide. -/
theorem literal_lt_iff : a.literal < b.literal ↔ a.raw < b.raw := by
  have hwidth : (Text.hexDigits 16 a.raw.toNat).length =
      (Text.hexDigits 16 b.raw.toNat).length := by
    rw [Text.length_hexDigits, Text.length_hexDigits]
  rw [String.lt_iff_toList_lt, toList_literal, toList_literal, Text.append_lt_append_iff rfl,
    Text.append_lt_append_iff hwidth,
    Text.hexDigits_lt_iff a.raw.toNat_lt b.raw.toNat_lt, UInt64.lt_iff_toNat_lt]
  simp

theorem literal_le_iff : a.literal ≤ b.literal ↔ a.raw ≤ b.raw := by
  rw [← String.not_lt, literal_lt_iff, UInt64.not_lt]

theorem map_literal_mergeSort : (ids.mergeSort fun a b => a.raw ≤ b.raw).map literal =
    (ids.map literal).mergeSort fun s t => s ≤ t := by
  apply List.map_mergeSort
  intro a _ b _
  rw [decide_eq_decide, literal_le_iff]

theorem map_literal_sorted : (sorted ids).map literal =
    ((ids.map literal).mergeSort fun s t => s ≤ t).eraseReps := by
  have hliteral (a b : FieldId) : (a.literal == b.literal) = (a == b) := by
    rw [beq_eq_beq]
    exact ⟨literal_inj, congrArg literal⟩
  rw [sorted, map_eraseReps hliteral, map_literal_mergeSort]

/-- A literal is `0x`, the sixteen lower-case digits of its word, and `ULL`. It makes no difference
whether IDs or their literals are sorted, and no two IDs share a literal. -/
theorem literal_exact_and_ordered :
    (∀ raw : UInt64, ∃ digits : List Char,
      literal ⟨raw⟩ = "0x" ++ String.ofList digits ++ "ULL" ∧ digits.length = 16 ∧
        digits ⊆ "0123456789abcdef".toList ∧ Text.ofHexDigits? digits = some raw.toNat) ∧
    (∀ x y : UInt64, literal ⟨x⟩ < literal ⟨y⟩ ↔ x < y) ∧
    (∀ ids : List FieldId, (ids.mergeSort fun a b => a.raw ≤ b.raw).map literal =
      (ids.map literal).mergeSort fun s t => s ≤ t) ∧
    (∀ ids : List FieldId, (sorted ids).map literal =
      ((ids.map literal).mergeSort fun s t => s ≤ t).eraseReps) ∧
    Function.Injective literal := by
  refine ⟨fun raw => ?_, fun x y => literal_lt_iff, fun ids => map_literal_mergeSort,
    fun ids => map_literal_sorted, fun a b => literal_inj⟩
  exact ⟨Text.hexDigits 16 raw.toNat, rfl, Text.length_hexDigits, Text.hexDigits_subset,
    Text.ofHexDigits?_hexDigits raw.toNat_lt⟩

/-- The digit `a` comes after `9`, and leading zeros are kept. -/
example : literal ⟨9⟩ = "0x0000000000000009ULL" ∧ literal ⟨9⟩ < literal ⟨10⟩ := by decide

end SchemaHeader.FieldId
