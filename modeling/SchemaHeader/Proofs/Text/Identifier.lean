import Mathlib.Tactic.ByContra
import SchemaHeader.FieldId
import SchemaHeader.Proofs.Text.Hex

/-! Characters of names, and which characters can get into the texts that are made from names and
numbers. -/
namespace SchemaHeader.Text

/-- A letter, a digit or an underscore; only ASCII counts. -/
def isNameChar (c : Char) : Bool := c.isAlphanum || c = '_'

/-- A name as schemas have them. -/
def isIdentifier (s : String) : Bool :=
  s.toList.all isNameChar && s.toList.head?.any fun c => c.isAlpha || c = '_'

/-- What a package or the name of a type is made of. -/
def isPathChar (c : Char) : Bool := isNameChar c || c = '.'

variable {s : String} {c x : Char}

theorem isNameChar_of_isIdentifier (h : isIdentifier s) (hc : c ∈ s.toList) : isNameChar c := by
  rw [isIdentifier, Bool.and_eq_true, List.all_eq_true] at h
  exact h.1 c hc

theorem not_mem_of_isIdentifier (h : isIdentifier s) (hc : isNameChar c = false) :
    c ∉ s.toList := by
  intro hmem
  rw [isNameChar_of_isIdentifier h hmem] at hc
  cases hc

theorem isWhitespace_of_isNameChar (h : isNameChar c) : c.isWhitespace = false := by
  by_contra hw
  rw [Bool.not_eq_false, Char.isWhitespace] at hw
  simp only [Bool.or_eq_true, decide_eq_true_eq] at hw
  rcases hw with ((rfl | rfl) | rfl) | rfl <;> cases h

theorem exists_cons_of_isIdentifier (h : isIdentifier s) :
    ∃ c rest, s.toList = c :: rest ∧ (c.isAlpha ∨ c = '_') := by
  rw [isIdentifier, Bool.and_eq_true] at h
  cases hs : s.toList with
  | nil => simp [hs] at h
  | cons c rest => exact ⟨c, rest, rfl, by simpa [hs] using h.2⟩

theorem isLower_iff : c.isLower ↔ 97 ≤ c.toNat ∧ c.toNat ≤ 122 :=
  (Bool.and_eq_true_iff ..).trans (and_congr decide_eq_true_iff decide_eq_true_iff)

theorem isUpper_iff : c.isUpper ↔ 65 ≤ c.toNat ∧ c.toNat ≤ 90 :=
  decide_eq_true_iff

theorem isAlpha_eq (c : Char) : c.isAlpha = (c.isUpper || c.isLower) := rfl

theorem isLower_of_isUpper (h : c.isUpper) : c.isLower = false := by
  rw [isUpper_iff] at h
  rw [Bool.eq_false_iff, Ne, isLower_iff]
  omega

/-- A lower-case letter is raised to a capital, and any other character is left as it is. -/
theorem toUpper_cases (c : Char) :
    (c.isLower ∧ c.toUpper.isUpper) ∨ (c.isLower = false ∧ c.toUpper = c) := by
  cases hc : c.isLower with
  | true =>
    have hbounds := isLower_iff.mp hc
    have hraised : c.toUpper = ⟨c.val + (65 - 97), _⟩ := dif_pos hbounds
    have hnumber : c.toUpper.toNat = c.toNat - 32 := by
      rw [hraised, ← Char.toNat_val, UInt32.toNat_add, Char.toNat_val]
      change (c.toNat + 4294967264) % 2 ^ 32 = c.toNat - 32
      omega
    exact Or.inl ⟨rfl, isUpper_iff.mpr (by omega)⟩
  | false =>
    refine Or.inr ⟨rfl, dif_neg fun hbounds => ?_⟩
    cases hc.symm.trans (isLower_iff.mpr hbounds)

theorem toUpper_of_isLower_eq_false (h : c.isLower = false) : c.toUpper = c := by
  obtain ⟨hl, -⟩ | ⟨-, hc⟩ := toUpper_cases c
  · cases h.symm.trans hl
  · exact hc

theorem toUpper_of_isUpper (h : c.isUpper) : c.toUpper = c :=
  toUpper_of_isLower_eq_false (isLower_of_isUpper h)

theorem isLower_toUpper (c : Char) : c.toUpper.isLower = false := by
  obtain ⟨-, hc⟩ | ⟨hl, hc⟩ := toUpper_cases c
  · exact isLower_of_isUpper hc
  · rw [hc, hl]

theorem isAlpha_toUpper (c : Char) : c.toUpper.isAlpha = c.isAlpha := by
  obtain ⟨hl, hc⟩ | ⟨-, hc⟩ := toUpper_cases c
  · simp [isAlpha_eq, hl, hc]
  · rw [hc]

theorem isNameChar_toUpper (h : isNameChar c) : isNameChar c.toUpper := by
  obtain ⟨-, hc⟩ | ⟨-, hc⟩ := toUpper_cases c
  · simp [isNameChar, Char.isAlphanum, isAlpha_eq, hc]
  · rwa [hc]

/-- A constant has underscores and raised characters only. -/
theorem mem_constantChars {lower : Bool} {cs : List Char} (h : x ∈ constantChars lower cs) :
    x = '_' ∨ ∃ c ∈ cs, x = c.toUpper := by
  induction cs generalizing lower with
  | nil => simp [constantChars] at h
  | cons c rest ih =>
    rw [constantChars, List.mem_append] at h
    rcases h with h | h
    · split at h
      · next hc =>
        rw [Bool.and_eq_true] at hc
        simp only [List.mem_cons, List.not_mem_nil, or_false] at h
        exact h.imp_right fun hx => ⟨c, List.mem_cons_self, by rw [toUpper_of_isUpper hc.2, hx]⟩
      · exact Or.inr ⟨c, List.mem_cons_self, List.mem_singleton.mp h⟩
    · exact (ih h).imp_right fun ⟨c, hc, hx⟩ => ⟨c, List.mem_cons_of_mem _ hc, hx⟩

/-- A constant's name has no characters besides those of names and those of the name it is
made from. -/
theorem mem_of_mem_constantName (hx : isNameChar x = false) (h : x ∈ (constantName s).toList) :
    x ∈ s.toList := by
  rw [constantName, String.toList_ofList] at h
  rcases mem_constantChars h with rfl | ⟨c, hc, rfl⟩
  · cases hx
  · obtain ⟨hl, -⟩ | ⟨-, hsame⟩ := toUpper_cases c
    · have : isNameChar c := by simp [isNameChar, Char.isAlphanum, isAlpha_eq, hl]
      rw [isNameChar_toUpper this] at hx
      cases hx
    · rwa [hsame]

theorem isLower_of_mem_constantName (h : x ∈ (constantName s).toList) : x.isLower = false := by
  rw [constantName, String.toList_ofList] at h
  rcases mem_constantChars h with rfl | ⟨c, _, rfl⟩
  · rfl
  · exact isLower_toUpper c

/-- The constant of an identifier is one. -/
theorem isIdentifier_constantName (h : isIdentifier s) : isIdentifier (constantName s) := by
  obtain ⟨c, rest, hs, hc⟩ := exists_cons_of_isIdentifier h
  have hhead : (constantName s).toList.head? = some c.toUpper := by
    simp [constantName, hs, constantChars]
  rw [isIdentifier, Bool.and_eq_true, List.all_eq_true]
  constructor
  · intro x hx
    by_contra hn
    rw [Bool.not_eq_true] at hn
    exact not_mem_of_isIdentifier h hn (mem_of_mem_constantName hn hx)
  · rw [hhead]
    rcases hc with hc | rfl
    · simp only [Option.any_some, isAlpha_toUpper, hc, Bool.true_or]
    · decide

theorem isDigit_of_mem_toString {n : Nat} (h : c ∈ (toString n).toList) : c.isDigit := by
  rw [Nat.toString_eq_ofList_toDigits, String.toList_ofList] at h
  exact Nat.isDigit_of_mem_toDigits (by decide) (by decide) h

/-- A number is written with digits and a minus. -/
theorem mem_toString_int32 {n : Int32} (h : c ∈ (toString n).toList) : c = '-' ∨ c.isDigit := by
  change c ∈ (Int.repr n.toInt).toList at h
  cases hn : n.toInt with
  | ofNat k =>
    rw [hn] at h
    exact Or.inr (isDigit_of_mem_toString h)
  | negSucc k =>
    rw [hn, Int.repr, String.toList_append] at h
    simp only [List.mem_append] at h
    rcases h with h | h
    · exact Or.inl (by simpa using h)
    · exact Or.inr (isDigit_of_mem_toString h)

theorem isNameChar_of_mem_hexDigits {width n : Nat} (h : c ∈ hexDigits width n) :
    isNameChar c := by
  have hdigits : "0123456789abcdef".toList.all isNameChar := by decide
  exact List.all_eq_true.mp hdigits c (hexDigits_subset h)

/-- A literal is written with characters of names only. -/
theorem isNameChar_of_mem_literal {id : FieldId} (h : c ∈ id.literal.toList) : isNameChar c := by
  simp only [FieldId.literal, String.toList_append, String.toList_ofList, List.mem_append] at h
  rcases h with (h | h) | h
  · have hlead : "0x".toList.all isNameChar := by decide
    exact List.all_eq_true.mp hlead c h
  · exact isNameChar_of_mem_hexDigits h
  · have hend : "ULL".toList.all isNameChar := by decide
    exact List.all_eq_true.mp hend c h

end SchemaHeader.Text
