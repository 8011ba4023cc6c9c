import SchemaHeader.Header.Phrase
import SchemaHeader.Proofs.FieldId
import SchemaHeader.Proofs.Header.Gist
import SchemaHeader.Proofs.Text.Identifier
import SchemaHeader.Proofs.Text.Segments

/-! What a single line tells: the names, the numbers and the words that it is made from. -/
namespace SchemaHeader.Phrase

open Text (isPathChar)

section Pieces

variable {name name' value value' : String} {f g : FieldDescriptor}

theorem scopeOpening_inj (h : scopeOpening name = scopeOpening name') : name = name' := by
  rwa [scopeOpening, scopeOpening, String.append_left_inj, String.append_right_inj] at h

theorem quoted_inj (h : quoted name = quoted name') : name = name' := by
  rwa [quoted, quoted, String.append_left_inj, String.append_right_inj] at h

/-- The name and the value of a constant can be read off its line. -/
theorem intConstant_inj (hname : ' ' ∉ name.toList) (hname' : ' ' ∉ name'.toList)
    (h : intConstant name value = intConstant name' value') : name = name' ∧ value = value' := by
  have hsplit (name value : String) : (intConstant name value).toList =
      "const int ".toList ++ (name.toList ++ ' ' :: ("= ".toList ++ (value.toList ++ [';']))) := by
    simp [intConstant]
  rw [← String.toList_inj, hsplit, hsplit, List.append_cancel_left_eq] at h
  obtain ⟨hnames, hvalues⟩ := Text.append_delimiter_inj hname hname' h
  rw [List.append_cancel_left_eq, List.append_cancel_right_eq] at hvalues
  exact ⟨String.toList_inj.mp hnames, String.toList_inj.mp hvalues⟩

theorem fieldConstant_inj {a b : FieldId} (hname : f.name = g.name)
    (h : fieldConstant f a = fieldConstant g b) : a = b := by
  unfold fieldConstant at h
  rw [hname, String.append_left_inj, String.append_right_inj] at h
  exact FieldId.literal_inj h

end Pieces

section Comment

variable {f g : FieldDescriptor} {m n : Int32} {p q : Bool} {l l' : Label} {type name : List Char}

theorem repr_nat_inj {k l : Nat} (h : Nat.repr k = Nat.repr l) : k = l := by
  have hread (k : Nat) : Nat.ofDigitChars 10 (Nat.repr k).toList 0 = k := by
    rw [Nat.toList_repr, Nat.ofDigitChars_ten_toDigits]
  rw [← hread k, h, hread]

/-- The sign tells negative numbers from the others, and the digits are read back. -/
theorem toString_int32_inj (h : toString m = toString n) : m = n := by
  have hsign (k l : Nat) : Int.repr (.ofNat k) ≠ Int.repr (.negSucc l) := by
    intro heq
    have hminus : '-' ∈ (toString k).toList := by
      change '-' ∈ (Int.repr (.ofNat k)).toList
      rw [heq, Int.repr, String.toList_append]
      exact List.mem_append_left _ List.mem_cons_self
    cases Text.isDigit_of_mem_toString hminus
  change Int.repr m.toInt = Int.repr n.toInt at h
  refine Int32.toInt_inj.mp ?_
  revert h
  cases m.toInt with
  | ofNat k =>
    cases n.toInt with
    | ofNat l => exact fun h => congrArg Int.ofNat (repr_nat_inj h)
    | negSucc l => exact fun h => (hsign k l h).elim
  | negSucc k =>
    cases n.toInt with
    | ofNat l => exact fun h => (hsign l k h.symm).elim
    | negSucc l =>
      intro h
      rw [Int.repr, Int.repr, String.append_right_inj] at h
      rw [Nat.succ.inj (repr_nat_inj h)]

/-- The end of a field's comment. -/
def packedMark (isPacked : Bool) : List Char :=
  (if isPacked then " [packed=true]" else "").toList ++ [';']

theorem number_inj (h : (toString m).toList ++ packedMark p = (toString n).toList ++ packedMark q) :
    m = n ∧ p = q := by
  have hspace (n : Int32) : ' ' ∉ (toString n).toList := by
    intro hc
    rcases Text.mem_toString_int32 hc with hc | hc <;> cases hc
  have hmem (n : Int32) (p : Bool) : ' ' ∈ (toString n).toList ++ packedMark p ↔ p = true := by
    cases p <;> simp [packedMark, hspace]
  obtain rfl : p = q := by rw [Bool.eq_iff_iff, ← hmem m, ← hmem n, h]
  rw [List.append_cancel_right_eq, String.toList_inj] at h
  exact ⟨toString_int32_inj h, rfl⟩

def labelWords : Label → List (List Char)
  | .optional => ["optional".toList]
  | .repeated => ["repeated".toList]
  | .required => []

theorem labelWords_inj (h : labelWords l = labelWords l') : l = l' := by
  cases l <;> cases l' <;> first | rfl | exact absurd h (by decide)

/-- The number of words shows whether there is a label. -/
theorem splitOn_label (htype : ' ' ∉ type) (hname : ' ' ∉ name) :
    ((label l).toList ++ (type ++ ' ' :: name)).splitOn ' ' = labelWords l ++ [type, name] := by
  have hrest : (type ++ ' ' :: name).splitOn ' ' = [type, name] := by
    rw [List.splitOn_append_cons_self_of_not_mem htype, List.splitOn_eq_singleton hname]
  have hlabel (word : List Char) (hword : ' ' ∉ word) :
      (word ++ ' ' :: (type ++ ' ' :: name)).splitOn ' ' = [word, type, name] := by
    rw [List.splitOn_append_cons_self_of_not_mem hword, hrest]
  cases l with
  | optional => exact hlabel "optional".toList (by decide)
  | repeated => exact hlabel "repeated".toList (by decide)
  | required => exact hrest

/-- The words for scalar types are paths, as the names of types mostly are. -/
theorem mem_typeOf {c : Char} (h : c ∈ (typeOf f).toList) :
    c ∈ f.typeName.toList ∨ isPathChar c ∨ c = '<' ∨ c = '>' := by
  have hkeyword (t : DeclaredType) : t.keyword.toList.all isPathChar := by cases t <;> decide
  have hunknown : "unknown".toList.all isPathChar := by decide
  have hgroup : "group".toList.all isPathChar := by decide
  rw [typeOf] at h
  split at h
  · exact Or.inl h
  · exact Or.inl h
  · have hopening : "group<".toList = "group".toList ++ ['<'] := by decide
    rw [String.toList_append, String.toList_append, List.mem_append, List.mem_append, hopening,
      List.mem_append] at h
    rcases h with ((h | h) | h) | h
    · exact Or.inr (Or.inl (List.all_eq_true.mp hgroup c h))
    · exact Or.inr (Or.inr (Or.inl (List.mem_singleton.mp h)))
    · exact Or.inl h
    · exact Or.inr (Or.inr (Or.inr (by simpa using h)))
  · exact Or.inr (Or.inl (List.all_eq_true.mp (hkeyword _) c h))
  · exact Or.inr (Or.inl (List.all_eq_true.mp hunknown c h))

theorem not_mem_typeOf {c : Char} (hname : c ∉ f.typeName.toList)
    (hc : (isPathChar c || c = '<' || c = '>') = false) : c ∉ (typeOf f).toList := by
  intro h
  have hmem := mem_typeOf h
  simp_all

theorem fieldComment_eq (f : FieldDescriptor) : (fieldComment f).toList =
    "// ".toList ++ ((label f.label).toList ++ ((typeOf f).toList ++ ' ' :: f.name.toList) ++
      [' '] ++ '=' :: (' ' :: ((toString f.number).toList ++ packedMark f.isPacked))) := by
  simp [fieldComment, packedMark, FieldDescriptor.cardinality_eq_packed_iff]

/-- The comment on a field tells its label, type, name, number and packing. -/
theorem fieldComment_inj (hf : Text.isIdentifier f.name) (hg : Text.isIdentifier g.name)
    (hftype : ∀ c ∈ f.typeName.toList, isPathChar c)
    (hgtype : ∀ c ∈ g.typeName.toList, isPathChar c) (h : fieldComment f = fieldComment g) :
    f.label = g.label ∧ typeOf f = typeOf g ∧ f.name = g.name ∧ f.number = g.number ∧
      f.isPacked = g.isPacked := by
  have htypeOf (x : FieldDescriptor) (htype : ∀ c ∈ x.typeName.toList, isPathChar c) (c : Char)
      (hc : (isPathChar c || c = '<' || c = '>') = false) : c ∉ (typeOf x).toList := by
    refine not_mem_typeOf (fun hmem => ?_) hc
    rw [htype c hmem] at hc
    cases hc
  have hequals (x : FieldDescriptor) (hname : Text.isIdentifier x.name)
      (htype : '=' ∉ (typeOf x).toList) :
      '=' ∉ (label x.label).toList ++ ((typeOf x).toList ++ ' ' :: x.name.toList) ++ [' '] := by
    have hlabel : '=' ∉ (label x.label).toList := by cases x.label <;> decide
    have hnameOf : '=' ∉ x.name.toList := Text.not_mem_of_isIdentifier hname rfl
    simp [hlabel, htype, hnameOf]
  rw [← String.toList_inj, fieldComment_eq, fieldComment_eq, List.append_cancel_left_eq] at h
  obtain ⟨hwords, hnumber⟩ := Text.append_delimiter_inj (hequals f hf (htypeOf f hftype '=' rfl))
    (hequals g hg (htypeOf g hgtype '=' rfl)) h
  rw [List.append_cancel_right_eq] at hwords
  have hsplit := congrArg (List.splitOn ' ') hwords
  rw [splitOn_label (htypeOf f hftype ' ' rfl) (Text.not_mem_of_isIdentifier hf rfl),
    splitOn_label (htypeOf g hgtype ' ' rfl) (Text.not_mem_of_isIdentifier hg rfl)] at hsplit
  obtain ⟨hlabel, htail⟩ := List.append_inj' hsplit rfl
  obtain ⟨htype, hname⟩ :
      (typeOf f).toList = (typeOf g).toList ∧ f.name.toList = g.name.toList := by
    simpa using htail
  exact ⟨labelWords_inj hlabel, String.toList_inj.mp htype, String.toList_inj.mp hname,
    number_inj (List.tail_eq_of_cons_eq hnumber)⟩

theorem namedType?_eq (hdeclared : f.declaredType? = g.declaredType?) (h : typeOf f = typeOf g) :
    f.namedType? = g.namedType? := by
  rw [FieldDescriptor.namedType?, FieldDescriptor.namedType?, hdeclared]
  split
  · next hnamed =>
    simp only [List.mem_cons, List.not_mem_nil, or_false] at hnamed
    rcases hnamed with hd | hd | hd
    · rw [typeOf, typeOf, hdeclared, hd] at h
      exact congrArg some h
    · rw [typeOf, typeOf, hdeclared, hd] at h
      exact congrArg some h
    · rw [typeOf, typeOf, hdeclared, hd] at h
      exact congrArg some ((String.append_right_inj _).mp ((String.append_left_inj _).mp h))
  · rfl

end Comment

end SchemaHeader.Phrase
