import SchemaHeader.Proofs.FieldId
import Mathlib.Data.Nat.Bitwise

/-! Field IDs as sums: the parts of an ID never overlap, so each word is the ID of at most one
number, type and cardinality, and its bits show of which. -/
namespace SchemaHeader

/-- A value that is placed above all bits of a word is added to it. -/
theorem BitField.toNat_or_place {f : BitField} {word value : UInt64}
    (hword : word.toNat < 2 ^ f.shift.toNat) (h : f.shift.toNat + f.width.toNat < 64)
    (hvalue : value.toNat < 2 ^ f.width.toNat) :
    (word ||| f.place value).toNat = word.toNat + value.toNat * 2 ^ f.shift.toNat := by
  have hor := Nat.two_pow_add_eq_or_of_lt hword value.toNat
  rw [UInt64.toNat_or, toNat_place h hvalue, Nat.or_comm, Nat.mul_comm, ← hor, Nat.add_comm]

theorem DeclaredType.ofCode?_eq_some_iff {code : UInt64} {t : DeclaredType} :
    ofCode? code = some t ↔ t.code = code := by
  constructor
  · intro h
    rw [ofCode?] at h
    simpa using List.find?_some h
  · rintro rfl
    exact ofCode?_code t

theorem Cardinality.ofCode?_eq_some_iff {code : UInt64} {c : Cardinality} :
    ofCode? code = some c ↔ c.code = code := by
  constructor
  · intro h
    rw [ofCode?] at h
    simpa using List.find?_some h
  · rintro rfl
    exact ofCode?_code c

namespace FieldId

variable {id : FieldId} {number : Int32} {type : DeclaredType} {cardinality : Cardinality}

/-- The word of an ID is the sum of its parts at their places. -/
theorem toNat_raw_ofParts : (ofParts number type cardinality).raw.toNat =
    number.toUInt32.toNat + type.code.toNat * 2 ^ 32 + cardinality.code.toNat * 2 ^ 40 := by
  have hbound := number.toUInt32.toNat_lt
  have htype := type.code_range
  have hcardinality := cardinality.code_range
  have hfits : number.toUInt32.toUInt64.toNat < 2 ^ numberBits.width.toNat := hbound
  have hnumber : (numberBits.place number.toUInt32.toUInt64).toNat = number.toUInt32.toNat := by
    rw [BitField.toNat_place (by decide) hfits, UInt32.toNat_toUInt64]
    exact Nat.mul_one _
  have hlow : (numberBits.place number.toUInt32.toUInt64 ||| typeBits.place type.code).toNat =
      number.toUInt32.toNat + type.code.toNat * 2 ^ 32 := by
    rw [BitField.toNat_or_place (by rw [hnumber]; exact hbound) (by decide)
      (Nat.lt_of_le_of_lt htype.2 (by decide)), hnumber]
    rfl
  have hbelow : (numberBits.place number.toUInt32.toUInt64 ||| typeBits.place type.code).toNat <
      2 ^ cardinalityBits.shift.toNat := by
    rw [hlow]
    change _ < 2 ^ 40
    omega
  rw [ofParts, BitField.toNat_or_place hbelow (by decide)
    (Nat.lt_of_le_of_lt hcardinality.2 (by decide)), hlow]
  rfl

theorem toNat_number : id.number.toNat = id.raw.toNat % 2 ^ 32 := by
  rw [FieldId.number, UInt64.toNat_toUInt32, BitField.toNat_read (by decide)]
  change id.raw.toNat / 2 ^ 0 % 2 ^ 32 % 2 ^ 32 = _
  omega

theorem toNat_typeBits : (typeBits.read id.raw).toNat = id.raw.toNat / 2 ^ 32 % 2 ^ 8 :=
  BitField.toNat_read (by decide)

theorem toNat_cardinalityBits :
    (cardinalityBits.read id.raw).toNat = id.raw.toNat / 2 ^ 40 % 2 ^ 4 :=
  BitField.toNat_read (by decide)

/-- Nothing stands above the bits of the cardinality. -/
def IsWithinLayout (id : FieldId) : Prop := ∀ i, id.raw.toNat.testBit (44 + i) = false

theorem isWithinLayout_iff : id.IsWithinLayout ↔ id.raw.toNat < 2 ^ 44 := by
  constructor
  · intro h
    apply Nat.lt_pow_two_of_testBit
    intro i hi
    obtain ⟨k, rfl⟩ := Nat.exists_eq_add_of_le hi
    exact h k
  · intro h i
    have hpow : 2 ^ 44 ≤ 2 ^ (44 + i) := Nat.pow_le_pow_right (by decide) (by omega)
    exact Nat.testBit_lt_two_pow (Nat.lt_of_lt_of_le h hpow)

theorem isWithinLayout_ofParts : (ofParts number type cardinality).IsWithinLayout := by
  have hbound := number.toUInt32.toNat_lt
  have htype := type.code_range
  have hcardinality := cardinality.code_range
  rw [isWithinLayout_iff, toNat_raw_ofParts]
  omega

/-- A word is put together again from what its bits show. -/
theorem eq_ofParts_iff : id = ofParts number type cardinality ↔
    number = id.number.toInt32 ∧ id.type? = some type ∧ id.cardinality? = some cardinality ∧
      id.IsWithinLayout := by
  constructor
  · rintro rfl
    refine ⟨?_, type?_ofParts, cardinality?_ofParts, isWithinLayout_ofParts⟩
    rw [number_ofParts, Int32.toInt32_toUInt32]
  · rintro ⟨rfl, htype, hcardinality, hlayout⟩
    rw [type?, DeclaredType.ofCode?_eq_some_iff] at htype
    rw [cardinality?, Cardinality.ofCode?_eq_some_iff] at hcardinality
    rw [isWithinLayout_iff] at hlayout
    have hraw : id.raw = (ofParts id.number.toInt32 type cardinality).raw := by
      rw [← UInt64.toNat_inj, toNat_raw_ofParts, htype, hcardinality, toNat_typeBits,
        toNat_cardinalityBits, UInt32.toUInt32_toInt32, toNat_number]
      omega
    cases id
    exact congrArg FieldId.mk hraw

/-- What goes into an ID comes out of it again, and a word is an ID exactly when its type and its
cardinality have known codes and nothing stands above them. -/
theorem layout_lossless :
    (∀ (number : Int32) (type : DeclaredType) (cardinality : Cardinality),
      let id := ofParts number type cardinality
      (∀ i, id.raw.toNat.testBit (44 + i) = false) ∧ id.number = number.toUInt32 ∧
      id.type? = some type ∧ id.cardinality? = some cardinality ∧
      ∀ number' type' cardinality', id = ofParts number' type' cardinality' ↔
        number = number' ∧ type = type' ∧ cardinality = cardinality') ∧
    ∀ id : FieldId,
      id.number.toNat = id.raw.toNat % 2 ^ 32 ∧
      id.type? = DeclaredType.ofCode? (UInt64.ofNat (id.raw.toNat / 2 ^ 32 % 2 ^ 8)) ∧
      id.cardinality? = Cardinality.ofCode? (UInt64.ofNat (id.raw.toNat / 2 ^ 40 % 2 ^ 4)) ∧
      ((∃ number type cardinality, id = ofParts number type cardinality) ↔
        id.type?.isSome ∧ id.cardinality?.isSome ∧ ∀ i, id.raw.toNat.testBit (44 + i) = false) ∧
      ∀ number type cardinality, id = ofParts number type cardinality ↔
        number = id.number.toInt32 ∧ id.type? = some type ∧ id.cardinality? = some cardinality ∧
          ∀ i, id.raw.toNat.testBit (44 + i) = false := by
  constructor
  · intro number type cardinality id
    refine ⟨isWithinLayout_ofParts, number_ofParts, type?_ofParts, cardinality?_ofParts, ?_⟩
    intro number' type' cardinality'
    rw [eq_ofParts_iff, number_ofParts, type?_ofParts, cardinality?_ofParts,
      Int32.toInt32_toUInt32, Option.some.injEq, Option.some.injEq]
    exact ⟨fun ⟨hn, ht, hc, _⟩ => ⟨hn.symm, ht, hc⟩,
      fun ⟨hn, ht, hc⟩ => ⟨hn.symm, ht, hc, isWithinLayout_ofParts⟩⟩
  · intro id
    refine ⟨toNat_number, ?_, ?_, ?_, fun _ _ _ => eq_ofParts_iff⟩
    · rw [type?, ← toNat_typeBits, UInt64.ofNat_toNat]
    · rw [cardinality?, ← toNat_cardinalityBits, UInt64.ofNat_toNat]
    · rw [Option.isSome_iff_exists, Option.isSome_iff_exists]
      constructor
      · rintro ⟨number, type, cardinality, h⟩
        obtain ⟨-, htype, hcardinality, hlayout⟩ := eq_ofParts_iff.mp h
        exact ⟨⟨type, htype⟩, ⟨cardinality, hcardinality⟩, hlayout⟩
      · rintro ⟨⟨type, htype⟩, ⟨cardinality, hcardinality⟩, hlayout⟩
        exact ⟨_, type, cardinality, eq_ofParts_iff.mpr ⟨rfl, htype, hcardinality, hlayout⟩⟩

end FieldId

end SchemaHeader
