import SchemaHeader.Proofs.Wire.Reads
import SchemaHeader.Wire.Decode
import SchemaHeader.Wire.Encode

/-! Signed numbers, words and keys are read back as they were written. -/
namespace SchemaHeader.Wire

variable {k : Key} {count : Nat} {word : UInt64}

/-- The sign fills the 32 upper bits of what is written, and they are dropped again. -/
theorem int32OfVarint_toInt64 (n : Int32) : int32OfVarint n.toInt64.toUInt64.toNat = n := by
  apply Int32.toBitVec_inj.mp
  show BitVec.ofNat 32 (BitVec.signExtend 64 n.toBitVec).toNat = n.toBitVec
  rw [BitVec.ofNat_toNat]
  ext i hi
  have hlow : i < 64 := by omega
  simp [BitVec.getElem_signExtend, hlow, hi]

theorem low_or_high (word : UInt64) : word.toUInt8.toUInt64 ||| ((word >>> 8) <<< 8) = word := by
  apply UInt64.toBitVec_inj.mp
  show BitVec.setWidth 64 (BitVec.setWidth 8 word.toBitVec) ||| ((word.toBitVec >>> 8) <<< 8) =
    word.toBitVec
  ext i hi
  by_cases hlow : i < 8
  · simp [hi, hlow]
  · have hbit : 8 + (i - 8) = i := by omega
    simp [hi, hlow, hbit]

theorem length_bytesOfWord (count : Nat) (word : UInt64) :
    (bytesOfWord count word).length = count := by
  induction count generalizing word with
  | zero => rfl
  | succ count ih => rw [bytesOfWord, List.length_cons, ih]

theorem wordOfBytes_bytesOfWord (h : word.toNat < 2 ^ (8 * count)) :
    wordOfBytes (bytesOfWord count word) = word := by
  induction count generalizing word with
  | zero =>
    have hzero : word.toNat = 0 := by simpa using h
    exact (UInt64.toNat_inj.mp hzero).symm
  | succ count ih =>
    have hhigh : (word >>> 8).toNat < 2 ^ (8 * count) := by
      have hdiv : (word >>> 8).toNat = word.toNat / 256 := by
        simp [Nat.shiftRight_eq_div_pow]
      rw [hdiv, Nat.div_lt_iff_lt_mul (by decide)]
      calc word.toNat < 2 ^ (8 * (count + 1)) := h
        _ = 2 ^ (8 * count) * 256 := by rw [Nat.mul_succ, Nat.pow_add]
    rw [bytesOfWord, wordOfBytes, ih hhigh, low_or_high]

namespace Reads

theorem int32 (n : Int32) : Reads Wire.int32 (varintOfInt32 n) n := by
  have hread : Reads Wire.int32 (varintOfInt32 n) (int32OfVarint n.toInt64.toUInt64.toNat) :=
    (varint n.toInt64.toUInt64.toNat_lt).map
  rwa [int32OfVarint_toInt64] at hread

/-- Numbers that follow one another are read as a list. -/
theorem int32s (ns : List Int32) :
    Reads (many Wire.int32 (ns.flatMap varintOfInt32).length) (ns.flatMap varintOfInt32) ns := by
  induction ns with
  | nil => exact many_nil _
  | cons n ns ih => exact many_cons (int32 n) (Varint.encode_ne_nil _) ih

theorem key (hpos : 0 < k.field) (hbound : k.field < 2 ^ 29) : Reads Wire.key (Key.encode k) k := by
  have hcode : k.wireType.code < 8 := by cases k.wireType <;> decide
  have hsize : UInt32.size = 2 ^ 32 := rfl
  have hnumber : 8 * k.field + k.wireType.code < UInt64.size :=
    Nat.lt_trans (by omega : 8 * k.field + k.wireType.code < 2 ^ 32) (by decide)
  have hmod : (8 * k.field + k.wireType.code) % 8 = k.wireType.code := by omega
  have hdiv : (8 * k.field + k.wireType.code) / 8 = k.field := by omega
  rw [Wire.key, Key.encode]
  refine (varint hnumber).bind_nil ?_
  rw [if_neg (by omega), hmod, WireType.ofCode?_code, hdiv]
  dsimp only
  rw [if_neg (by omega)]
  exact pure k

end Reads

end SchemaHeader.Wire
