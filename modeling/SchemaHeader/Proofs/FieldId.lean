import SchemaHeader.FieldId
import SchemaHeader.Proofs.Text.Hex
import Mathlib.Algebra.Group.Int.Defs
import Mathlib.Data.List.Basic
import Mathlib.Tactic.ByContra

/-! Field IDs as numbers: each part stands in a range of bits of its own and is read back from
there. -/
namespace SchemaHeader

namespace BitField

variable {f g : BitField} {word value : UInt64}

theorem mul_two_pow_lt {n shift width limit : Nat} (hn : n < 2 ^ width)
    (h : shift + width ≤ limit) : n * 2 ^ shift < 2 ^ limit :=
  calc n * 2 ^ shift
      < 2 ^ width * 2 ^ shift := Nat.mul_lt_mul_of_pos_right hn (Nat.two_pow_pos _)
    _ = 2 ^ (width + shift) := (Nat.pow_add ..).symm
    _ ≤ 2 ^ limit := Nat.pow_le_pow_right (by decide) (by omega)

theorem toNat_mask (h : f.shift.toNat + f.width.toNat < 64) :
    f.mask.toNat = (2 ^ f.width.toNat - 1) <<< f.shift.toNat := by
  have hpow : 2 ^ f.width.toNat < 2 ^ 64 := Nat.pow_lt_pow_right (by decide) (by omega)
  have hone : (1 <<< f.width : UInt64).toNat = 2 ^ f.width.toNat := by
    rw [UInt64.toNat_shiftLeft, Nat.mod_eq_of_lt (by omega : f.width.toNat < 64), UInt64.toNat_one,
      Nat.one_shiftLeft, Nat.mod_eq_of_lt hpow]
  have hle : (1 : UInt64) ≤ 1 <<< f.width := by
    rw [UInt64.le_iff_toNat_le, hone]
    exact Nat.one_le_two_pow
  have hfits : (2 ^ f.width.toNat - 1) <<< f.shift.toNat < 2 ^ 64 := by
    rw [Nat.shiftLeft_eq]
    exact mul_two_pow_lt (Nat.sub_lt (Nat.two_pow_pos _) (by decide)) (by omega)
  rw [mask, UInt64.toNat_shiftLeft, UInt64.toNat_sub_of_le _ _ hle, hone, UInt64.toNat_one,
    Nat.mod_eq_of_lt (by omega : f.shift.toNat < 64), Nat.mod_eq_of_lt hfits]

/-- A bit field is read as the digits at its place. -/
theorem toNat_read (h : f.shift.toNat + f.width.toNat < 64) :
    (f.read word).toNat = word.toNat / 2 ^ f.shift.toNat % 2 ^ f.width.toNat := by
  rw [read, UInt64.toNat_shiftRight, UInt64.toNat_and, toNat_mask h,
    Nat.mod_eq_of_lt (by omega : f.shift.toNat < 64), Nat.shiftRight_and_distrib,
    Nat.shiftLeft_shiftRight, Nat.and_two_pow_sub_one_eq_mod, Nat.shiftRight_eq_div_pow]

theorem read_or (a b : UInt64) : f.read (a ||| b) = f.read a ||| f.read b := by
  have hmask : (a ||| b) &&& f.mask = a &&& f.mask ||| b &&& f.mask := by
    rw [← UInt64.toNat_inj, UInt64.toNat_and, UInt64.toNat_or, UInt64.toNat_or, UInt64.toNat_and,
      UInt64.toNat_and, Nat.and_or_distrib_right]
  rw [read, hmask, UInt64.shiftRight_or]
  rfl

theorem toNat_place (h : f.shift.toNat + f.width.toNat < 64)
    (hvalue : value.toNat < 2 ^ f.width.toNat) :
    (f.place value).toNat = value.toNat * 2 ^ f.shift.toNat := by
  have hlt : value.toNat * 2 ^ f.shift.toNat < 2 ^ 64 := mul_two_pow_lt hvalue (by omega)
  rw [place, UInt64.toNat_shiftLeft, Nat.mod_eq_of_lt (by omega : f.shift.toNat < 64),
    Nat.shiftLeft_eq, Nat.mod_eq_of_lt hlt]

/-- A value that fits is read back from its place. -/
theorem read_place (h : f.shift.toNat + f.width.toNat < 64)
    (hvalue : value.toNat < 2 ^ f.width.toNat) : f.read (f.place value) = value := by
  rw [← UInt64.toNat_inj, toNat_read h, toNat_place h hvalue,
    Nat.mul_div_cancel _ (Nat.two_pow_pos _), Nat.mod_eq_of_lt hvalue]

/-- A value placed above the field leaves it empty. -/
theorem read_place_above (h : f.shift.toNat + f.width.toNat ≤ g.shift.toNat)
    (hg : g.shift.toNat + g.width.toNat < 64) (hvalue : value.toNat < 2 ^ g.width.toNat) :
    f.read (g.place value) = 0 := by
  obtain ⟨k, hk⟩ := Nat.exists_eq_add_of_le h
  have hpow : value.toNat * 2 ^ g.shift.toNat =
      value.toNat * 2 ^ k * 2 ^ f.width.toNat * 2 ^ f.shift.toNat := by
    rw [hk, Nat.pow_add, Nat.pow_add]
    ac_rfl
  rw [← UInt64.toNat_inj, toNat_read (by omega), toNat_place hg hvalue, hpow,
    Nat.mul_div_cancel _ (Nat.two_pow_pos _), Nat.mul_mod_left, UInt64.toNat_zero]

/-- A value placed below the field does not reach up to it. -/
theorem read_place_below (h : g.shift.toNat + g.width.toNat ≤ f.shift.toNat)
    (hf : f.shift.toNat + f.width.toNat < 64) (hvalue : value.toNat < 2 ^ g.width.toNat) :
    f.read (g.place value) = 0 := by
  have hlt : value.toNat * 2 ^ g.shift.toNat < 2 ^ f.shift.toNat := mul_two_pow_lt hvalue h
  rw [← UInt64.toNat_inj, toNat_read hf, toNat_place (by omega) hvalue, Nat.div_eq_of_lt hlt,
    Nat.zero_mod, UInt64.toNat_zero]

end BitField

namespace DeclaredType

theorem code_range (t : DeclaredType) : 1 ≤ t.code.toNat ∧ t.code.toNat ≤ 18 := by
  cases t <;> decide

theorem ofCode?_eq_none_iff {code : UInt64} :
    ofCode? code = none ↔ code.toNat < 1 ∨ 18 < code.toNat := by
  constructor
  · intro h
    by_contra hc
    have hknown : ∀ k < 18, ofCode? (UInt64.ofNat (k + 1)) ≠ none := by decide
    apply hknown (code.toNat - 1) (by omega)
    rw [Nat.sub_add_cancel (by omega), UInt64.ofNat_toNat, h]
  · intro h
    rw [ofCode?, List.find?_eq_none]
    intro t _ ht
    have hrange := code_range t
    rw [beq_iff_eq] at ht
    subst ht
    omega

theorem ofCode?_code (t : DeclaredType) : ofCode? t.code = some t := by
  cases t <;> rfl

/-- A type is the only one with its keyword. -/
theorem find?_keyword (t : DeclaredType) : all.find? (·.keyword == t.keyword) = some t := by
  cases t <;> rfl

/-- The word that a schema uses for a type tells it from all others. -/
theorem keyword_injective : Function.Injective keyword := by
  intro a b h
  have ha := find?_keyword a
  rw [h, find?_keyword b] at ha
  exact (Option.some.inj ha).symm

end DeclaredType

theorem Cardinality.code_range (c : Cardinality) : 1 ≤ c.code.toNat ∧ c.code.toNat ≤ 5 := by
  cases c <;> decide

theorem Cardinality.ofCode?_code (c : Cardinality) : ofCode? c.code = some c := by
  cases c <;> rfl

namespace FieldId

variable {a b : FieldId} {number : Int32} {type : DeclaredType} {cardinality : Cardinality}

/-- No part of an ID reaches into the bits of another. -/
theorem read_ofParts : let word := (ofParts number type cardinality).raw
    numberBits.read word = number.toUInt32.toUInt64 ∧ typeBits.read word = type.code ∧
      cardinalityBits.read word = cardinality.code := by
  have hn : number.toUInt32.toUInt64.toNat < 2 ^ numberBits.width.toNat := number.toUInt32.toNat_lt
  have ht : type.code.toNat < 2 ^ typeBits.width.toNat :=
    Nat.lt_of_le_of_lt type.code_range.2 (by decide)
  have hc : cardinality.code.toNat < 2 ^ cardinalityBits.width.toNat :=
    Nat.lt_of_le_of_lt cardinality.code_range.2 (by decide)
  refine ⟨?_, ?_, ?_⟩
  · rw [ofParts, BitField.read_or, BitField.read_or, BitField.read_place (by decide) hn,
      BitField.read_place_above (by decide) (by decide) ht,
      BitField.read_place_above (by decide) (by decide) hc, UInt64.or_zero, UInt64.or_zero]
  · rw [ofParts, BitField.read_or, BitField.read_or,
      BitField.read_place_below (by decide) (by decide) hn, BitField.read_place (by decide) ht,
      BitField.read_place_above (by decide) (by decide) hc, UInt64.zero_or, UInt64.or_zero]
  · rw [ofParts, BitField.read_or, BitField.read_or,
      BitField.read_place_below (by decide) (by decide) hn,
      BitField.read_place_below (by decide) (by decide) ht, BitField.read_place (by decide) hc,
      UInt64.zero_or, UInt64.zero_or]

theorem number_ofParts : (ofParts number type cardinality).number = number.toUInt32 := by
  rw [FieldId.number, read_ofParts.1, UInt32.toUInt32_toUInt64]

theorem type?_ofParts : (ofParts number type cardinality).type? = some type := by
  rw [type?, read_ofParts.2.1, DeclaredType.ofCode?_code]

theorem cardinality?_ofParts :
    (ofParts number type cardinality).cardinality? = some cardinality := by
  rw [cardinality?, read_ofParts.2.2, Cardinality.ofCode?_code]

theorem declaredType?_eq_of_ofField? {x y : FieldDescriptor} (h : ofField? x = ofField? y) :
    x.declaredType? = y.declaredType? := by
  have hread (x : FieldDescriptor) : (ofField? x).bind type? = x.declaredType? := by
    cases hx : x.declaredType? with
    | none => simp [ofField?, hx]
    | some t => simp [ofField?, hx, type?_ofParts]
  rw [← hread x, ← hread y, h]

/-- The ID that a literal stands for: sixteen lower-case digits between `0x` and `ULL`. -/
def ofLiteral? (literal : String) : Option FieldId := do
  let rest ← "0x".toList.isPrefixOf? literal.toList
  let digits ← "ULL".toList.isSuffixOf? rest
  let value ← Text.ofHexDigits? digits
  if digits.length = 16 then some ⟨UInt64.ofNat value⟩ else none

theorem toList_literal : a.literal.toList =
    "0x".toList ++ (Text.hexDigits 16 a.raw.toNat ++ "ULL".toList) := by
  simp [literal]

/-- An ID is read back from its literal. -/
theorem ofLiteral?_literal : ofLiteral? a.literal = some a := by
  have hlead : "0x".toList.isPrefixOf? a.literal.toList =
      some (Text.hexDigits 16 a.raw.toNat ++ "ULL".toList) := by
    rw [List.isPrefixOf?_eq_some_iff_append_eq, toList_literal]
  have hend : "ULL".toList.isSuffixOf? (Text.hexDigits 16 a.raw.toNat ++ "ULL".toList) =
      some (Text.hexDigits 16 a.raw.toNat) := by
    rw [List.isSuffixOf?_eq_some_iff_append_eq]
  have hvalue : Text.ofHexDigits? (Text.hexDigits 16 a.raw.toNat) = some a.raw.toNat :=
    Text.ofHexDigits?_hexDigits a.raw.toNat_lt
  simp only [ofLiteral?, hlead, hend, hvalue, Text.length_hexDigits, Option.bind_eq_bind,
    Option.bind_some, if_true, UInt64.ofNat_toNat]

theorem literal_inj (h : a.literal = b.literal) : a = b := by
  have hread : some a = some b := by rw [← ofLiteral?_literal, h, ofLiteral?_literal]
  exact Option.some.inj hread

end FieldId

namespace FieldDescriptor

variable {f : FieldDescriptor}

theorem cardinality_eq_packed_iff : f.cardinality = .packed ↔ f.isPacked = true := by
  rw [cardinality]
  split
  · simp_all
  · split <;> simp_all

/-- The field declares no type, or a number that stands for none. -/
def IsIllTyped (f : FieldDescriptor) : Prop := ∀ n ∈ f.type?, n < 1 ∨ 18 < n

/-- A negative number goes into an ID modulo `2 ^ 32`. -/
theorem toNat_toUInt32 (n : Int32) :
    (n.toUInt32.toNat : Int) = if n.toInt < 0 then n.toInt + 2 ^ 32 else n.toInt := by
  have h := BitVec.toInt_eq_toNat_cond n.toBitVec
  rw [Int32.toInt_toBitVec, Int32.toNat_toBitVec] at h
  have hlt := n.toUInt32.toNat_lt
  split at h <;> split <;> omega

/-- A field has no declared type exactly when it is ill-typed. -/
theorem declaredType?_eq_none_iff : f.declaredType? = none ↔ f.IsIllTyped := by
  cases h : f.type? with
  | none => simp [declaredType?, IsIllTyped, h]
  | some n =>
    have hn := toNat_toUInt32 n
    have hlt := n.toInt_lt
    have hle := n.le_toInt
    simp only [declaredType?, IsIllTyped, h, Option.bind_some, DeclaredType.ofCode?_eq_none_iff,
      UInt32.toNat_toUInt64, Option.mem_some_iff, forall_eq', Int32.lt_iff_toInt_lt]
    change _ ↔ n.toInt < 1 ∨ 18 < n.toInt
    split at hn <;> omega

end FieldDescriptor

end SchemaHeader
