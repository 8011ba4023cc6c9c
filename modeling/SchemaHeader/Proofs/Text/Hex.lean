import SchemaHeader.Text
import Mathlib.Algebra.Group.Nat.Defs

/-! Reading back the hexadecimal digits of a number, and the order of texts that are the digits of
numbers. -/
namespace SchemaHeader.Text

theorem hexValue?_hexDigit : ∀ k < 16, hexValue? (hexDigit k) = some k := by decide

theorem length_hexDigits {width n : Nat} : (hexDigits width n).length = width := by
  induction width generalizing n with
  | zero => rfl
  | succ width ih => simp [hexDigits, ih]

/-- The digits give the number back when there is room for all of it. -/
theorem ofHexDigits?_hexDigits {width n : Nat} (h : n < 16 ^ width) :
    ofHexDigits? (hexDigits width n) = some n := by
  induction width generalizing n with
  | zero =>
    obtain rfl : n = 0 := by simpa using h
    rfl
  | succ width ih =>
    have hhigh : n / 16 < 16 ^ width := by
      rw [Nat.pow_succ] at h
      omega
    have hdigits : List.foldlM (fun n c => (hexValue? c).map (16 * n + ·)) 0
        (hexDigits width (n / 16)) = some (n / 16) := ih hhigh
    have hlow := hexValue?_hexDigit (n % 16) (Nat.mod_lt _ (by decide))
    simp [ofHexDigits?, hexDigits, List.foldlM_append, hdigits, hlow, Nat.div_add_mod]

theorem hexDigits_subset {width n : Nat} : hexDigits width n ⊆ "0123456789abcdef".toList := by
  have hdigit : ∀ k < 16, hexDigit k ∈ "0123456789abcdef".toList := by decide
  induction width generalizing n with
  | zero => exact List.nil_subset _
  | succ width ih =>
    rw [hexDigits]
    exact List.append_subset.mpr ⟨ih, by simpa using hdigit (n % 16) (Nat.mod_lt _ (by decide))⟩

section Order

variable {width m n : Nat} {xs ys us vs : List Char}

theorem hexDigits_eq_iff (hm : m < 16 ^ width) (hn : n < 16 ^ width) :
    hexDigits width m = hexDigits width n ↔ m = n := by
  constructor
  · intro h
    have hread : some m = some n := by
      rw [← ofHexDigits?_hexDigits hm, h, ofHexDigits?_hexDigits hn]
    exact Option.some.inj hread
  · rintro rfl
    rfl

/-- The letters come after the decimal digits, so that no larger digit comes first. -/
theorem hexDigit_lt_iff : ∀ k < 16, ∀ l < 16, hexDigit k < hexDigit l ↔ k < l := by decide

/-- Where the first parts of two texts have one length, these decide unless they are the same. -/
theorem append_lt_append_iff (h : xs.length = ys.length) :
    xs ++ us < ys ++ vs ↔ xs < ys ∨ xs = ys ∧ us < vs := by
  induction xs generalizing ys with
  | nil =>
    obtain rfl := List.length_eq_zero_iff.mp h.symm
    simp
  | cons x xs ih =>
    cases ys with
    | nil => cases h
    | cons y ys =>
      rw [List.cons_append, List.cons_append, List.cons_lt_cons_iff, ih (Nat.succ.inj h),
        List.cons_lt_cons_iff, List.cons.injEq, and_or_left, or_assoc, and_assoc]

/-- Digits of one width are in the order of the numbers that they write. -/
theorem hexDigits_lt_iff (hm : m < 16 ^ width) (hn : n < 16 ^ width) :
    hexDigits width m < hexDigits width n ↔ m < n := by
  induction width generalizing m n with
  | zero => simp_all [hexDigits]
  | succ width ih =>
    rw [Nat.pow_succ] at hm hn
    have hm' : m / 16 < 16 ^ width := by omega
    have hn' : n / 16 < 16 ^ width := by omega
    have hlow : [hexDigit (m % 16)] < [hexDigit (n % 16)] ↔ m % 16 < n % 16 := by
      rw [List.cons_lt_cons_iff,
        hexDigit_lt_iff _ (Nat.mod_lt _ (by decide)) _ (Nat.mod_lt _ (by decide))]
      simp
    rw [hexDigits, hexDigits, append_lt_append_iff (by rw [length_hexDigits, length_hexDigits]),
      ih hm' hn', hexDigits_eq_iff hm' hn', hlow]
    omega

end Order

end SchemaHeader.Text
