import Mathlib.Algebra.Group.Nat.Defs
import SchemaHeader.Wire.Varint

/-! Readers that take exactly the bytes that were written, whatever follows them. -/
namespace SchemaHeader.Wire

variable {α β : Type} {r : Reader α} {f : α → Reader β} {bs cs : List UInt8} {a : α} {b : β}
  {as : List α} {n more : Nat}

/-- The reader takes these bytes off any input that starts with them, and gives `a`. -/
def Reads (r : Reader α) (bs : List UInt8) (a : α) : Prop :=
  ∀ rest, r (.ofBytes (bs ++ rest)) = .ok (a, .ofBytes rest)

theorem Input.eq_ofBytes (input : Input) : input = .ofBytes input.bytes := by
  obtain ⟨bytes, size, rfl⟩ := input
  rfl

theorem Input.splitAt?_append (bs rest : List UInt8) :
    (Input.ofBytes (bs ++ rest)).splitAt? bs.length = some (bs, .ofBytes rest) := by
  rw [splitAt?, if_pos (by simp [ofBytes])]
  refine congrArg some (Prod.ext (by simp [ofBytes]) ?_)
  rw [Input.eq_ofBytes (Prod.snd _)]
  simp [ofBytes]

namespace Reads

theorem pure (a : α) : Reads (Pure.pure a) [] a := fun _ => rfl

/-- Two readers, one after the other, take their bytes one after the other. -/
theorem bind (hr : Reads r bs a) (hf : Reads (f a) cs b) : Reads (r >>= f) (bs ++ cs) b := by
  intro rest
  have hrest := hr (cs ++ rest)
  rw [← List.append_assoc] at hrest
  show (r (.ofBytes (bs ++ cs ++ rest)) >>= fun p => f p.1 p.2) = _
  rw [hrest]
  exact hf rest

theorem map {f : α → β} (hr : Reads r bs a) : Reads (f <$> r) bs (f a) := by
  intro rest
  show (r (.ofBytes (bs ++ rest)) >>= fun p => Pure.pure (f p.1, p.2)) = _
  rw [hr rest]
  rfl

/-- What is checked or made of a value takes no more bytes. -/
theorem bind_nil (hr : Reads r bs a) (hf : Reads (f a) [] b) : Reads (r >>= f) bs b := by
  have hread := hr.bind hf
  rwa [List.append_nil] at hread

theorem chunk (bs : List UInt8) : Reads (Wire.chunk bs.length) bs bs := by
  intro rest
  rw [Wire.chunk, Input.splitAt?_append]

theorem many_nil (step : Reader α) : Reads (many step 0) [] [] := by
  intro rest
  rw [many, if_pos rfl]
  rfl

/-- One more element in front is read before the others. -/
theorem many_cons {step : Reader α} (hstep : Reads step bs a) (hbs : bs ≠ [])
    (hmany : Reads (many step cs.length) cs as) :
    Reads (many step (bs ++ cs).length) (bs ++ cs) (a :: as) := by
  intro rest
  have hpos : 0 < bs.length := List.length_pos_iff.mpr hbs
  have hused : (Input.ofBytes (bs ++ (cs ++ rest))).size - (Input.ofBytes (cs ++ rest)).size =
      bs.length := by
    simp only [Input.ofBytes, List.length_append]
    omega
  have hleft : (bs ++ cs).length - bs.length = cs.length := by
    rw [List.length_append]
    omega
  rw [many, if_neg (by rw [List.length_append]; omega), List.append_assoc, hstep (cs ++ rest)]
  simp only [Bind.bind, Except.bind, hused]
  rw [dif_pos (by rw [List.length_append]; omega), hleft, hmany rest]

end Reads

namespace Varint

theorem encode_of_lt (h : n < 128) : encode n = [n.toUInt8] := by
  rw [encode, if_pos h]

/-- A byte with its top bit set holds the seven lowest bits. -/
theorem encode_of_le (h : 128 ≤ n) :
    encode n = (n % 128 + 128).toUInt8 :: encode (n / 128) := by
  rw [encode, if_neg (Nat.not_lt.mpr h)]

theorem encode_ne_nil (n : Nat) : encode n ≠ [] := by
  rw [encode]
  split
  · exact List.cons_ne_nil _ _
  · exact List.cons_ne_nil _ _

theorem toNat_toUInt8_of_lt (h : n < 256) : n.toUInt8.toNat = n := by
  simpa using Nat.mod_eq_of_lt h

/-- A number is read back where it has no more groups than can be read. -/
theorem decode?_encode (h : n < 2 ^ (7 * more + 1)) (rest : List UInt8) :
    decode? more (.ofBytes (encode n ++ rest)) = some (n, .ofBytes rest) := by
  induction more generalizing n with
  | zero =>
    have hn : n < 2 := by simpa using h
    have hnext : (Input.ofBytes (encode n ++ rest)).next? = some (n.toUInt8, .ofBytes rest) := by
      rw [encode_of_lt (by omega)]
      rfl
    rw [decode?, hnext]
    simp only [Option.bind_eq_bind, Option.bind_some, toNat_toUInt8_of_lt (by omega : n < 256),
      if_pos hn]
  | succ more ih =>
    by_cases hn : n < 128
    · have hnext : (Input.ofBytes (encode n ++ rest)).next? = some (n.toUInt8, .ofBytes rest) := by
        rw [encode_of_lt hn]
        rfl
      rw [decode?, hnext]
      simp only [Option.bind_eq_bind, Option.bind_some, toNat_toUInt8_of_lt (by omega : n < 256),
        if_pos hn]
    · have hnext : (Input.ofBytes (encode n ++ rest)).next? =
          some ((n % 128 + 128).toUInt8, .ofBytes (encode (n / 128) ++ rest)) := by
        rw [encode_of_le (Nat.le_of_not_lt hn)]
        rfl
      have hlow : (n % 128 + 128).toUInt8.toNat = n % 128 + 128 := toNat_toUInt8_of_lt (by omega)
      have hhigh : n / 128 < 2 ^ (7 * more + 1) := by
        rw [Nat.div_lt_iff_lt_mul (by decide)]
        calc n < 2 ^ (7 * (more + 1) + 1) := h
          _ = 2 ^ (7 * more + 1) * 128 := by rw [Nat.mul_succ, Nat.add_right_comm, Nat.pow_add]
      rw [decode?, hnext]
      simp only [Option.bind_eq_bind, Option.bind_some, hlow,
        if_neg (by omega : ¬ n % 128 + 128 < 128), ih hhigh]
      rw [Nat.add_sub_cancel, Nat.mod_add_div]

end Varint

namespace Reads

theorem varint (h : n < UInt64.size) : Reads Wire.varint (Varint.encode n) n := by
  intro rest
  rw [Wire.varint, Varint.decode?_encode h]

theorem block (h : bs.length < UInt64.size) : Reads Wire.block (delimited bs) bs :=
  (varint h).bind (chunk bs)

/-- A block is read within its length. -/
theorem blockOf {step : Reader α} (h : bs.length < UInt64.size)
    (hmany : Reads (many step bs.length) bs as) : Reads (Wire.blockOf step) (delimited bs) as := by
  refine (varint h).bind fun rest => ?_
  have hsize : bs.length ≤ (Input.ofBytes (bs ++ rest)).size := by
    simp [Input.ofBytes]
  show (if bs.length ≤ (Input.ofBytes (bs ++ rest)).size then many step bs.length
    else fail .bufferUnderflow : Reader (List α)) (.ofBytes (bs ++ rest)) = _
  rw [if_pos hsize, hmany rest]

end Reads

end SchemaHeader.Wire
