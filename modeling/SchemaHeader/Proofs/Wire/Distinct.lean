import SchemaHeader.Proofs.Wire.Message

/-! Different messages of one shape are written differently, however long they are. What is written
for a key or a value shows where it ends, so equal bytes are equal piece by piece. -/
namespace SchemaHeader.Wire

variable {σ α : Type} {g : Grammar σ} {fits : σ → Record → Prop} {kind : Kind σ} {shape : σ}
  {v w : Value} {r s : Record} {m n : Nat} {k l : Key} {bs cs us vs : List UInt8}

theorem lt_two_pow_groups (h : n ≤ m) : n < 2 ^ (7 * m + 1) := by
  calc n < 2 ^ n := Nat.lt_two_pow_self
    _ ≤ 2 ^ (7 * m + 1) := Nat.pow_le_pow_right (by decide) (by omega)

/-- A number can be read off with as many groups as it may need. -/
theorem Varint.encode_append_inj (h : encode m ++ us = encode n ++ vs) : m = n ∧ us = vs := by
  have hm := decode?_encode (lt_two_pow_groups (Nat.le_max_left m n)) us
  have hn := decode?_encode (lt_two_pow_groups (Nat.le_max_right m n)) vs
  rw [h, hn, Option.some.injEq, Prod.mk.injEq] at hm
  exact ⟨hm.1.symm, (congrArg Input.bytes hm.2).symm⟩

/-- A block can be told from what follows it. -/
theorem delimited_append_inj (h : delimited bs ++ us = delimited cs ++ vs) : bs = cs ∧ us = vs := by
  rw [delimited, delimited, List.append_assoc, List.append_assoc] at h
  obtain ⟨hlength, hrest⟩ := Varint.encode_append_inj h
  exact List.append_inj hrest hlength

theorem varintOfInt32_append_inj {m n : Int32}
    (h : varintOfInt32 m ++ us = varintOfInt32 n ++ vs) : m = n ∧ us = vs := by
  obtain ⟨hnumber, hrest⟩ := Varint.encode_append_inj h
  refine ⟨?_, hrest⟩
  rw [← int32OfVarint_toInt64 m, hnumber, int32OfVarint_toInt64]

theorem int32s_inj {ms ns : List Int32} (h : ms.flatMap varintOfInt32 = ns.flatMap varintOfInt32) :
    ms = ns := by
  induction ms generalizing ns with
  | nil =>
    cases ns with
    | nil => rfl
    | cons n ns => simp [varintOfInt32, Varint.encode_ne_nil] at h
  | cons m ms ih =>
    cases ns with
    | nil => simp [varintOfInt32, Varint.encode_ne_nil] at h
    | cons n ns =>
      obtain ⟨rfl, hrest⟩ := varintOfInt32_append_inj h
      rw [ih hrest]

theorem bytesOfWord_append_inj {m n : UInt64}
    (h : bytesOfWord 8 m ++ us = bytesOfWord 8 n ++ vs) : m = n ∧ us = vs := by
  obtain ⟨hbytes, hrest⟩ := List.append_inj h (by rw [length_bytesOfWord, length_bytesOfWord])
  have hm : wordOfBytes (bytesOfWord 8 m) = m := wordOfBytes_bytesOfWord m.toNat_lt
  rw [hbytes, wordOfBytes_bytesOfWord n.toNat_lt] at hm
  exact ⟨hm.symm, hrest⟩

theorem WireType.code_lt (t : WireType) : t.code < 8 := by
  cases t <;> decide

theorem WireType.code_inj {t u : WireType} (h : t.code = u.code) : t = u := by
  have ht := ofCode?_code t
  rw [h, ofCode?_code] at ht
  exact (Option.some.inj ht).symm

/-- A key can be told from what follows it. -/
theorem Key.encode_append_inj (h : k.encode ++ us = l.encode ++ vs) :
    k.field = l.field ∧ k.wireType = l.wireType ∧ us = vs := by
  obtain ⟨hnumber, hrest⟩ := Varint.encode_append_inj h
  have hk := k.wireType.code_lt
  have hl := l.wireType.code_lt
  exact ⟨by omega, WireType.code_inj (by omega), hrest⟩

/-- Numbers that may be packed are told apart by the layout of their field. -/
theorem Value.encode_append_inj (hv : kind.Admits fits v) (hw : kind.Admits fits w)
    (hmessage : ∀ shape r s, fits shape r → fits shape s → Wire.encode r = Wire.encode s → r = s)
    (htype : v.wireType = w.wireType) (h : v.encode ++ us = w.encode ++ vs) : v = w ∧ us = vs := by
  cases hv with
  | text s =>
    cases hw with
    | text t =>
      simp only [encode] at h
      obtain ⟨hbytes, hrest⟩ := delimited_append_inj h
      have hs := Text.ofUtf8Bytes?_utf8Bytes s
      rw [hbytes, Text.ofUtf8Bytes?_utf8Bytes, Option.some.injEq] at hs
      exact ⟨by rw [hs], hrest⟩
  | bytes bs =>
    cases hw with
    | bytes cs =>
      simp only [encode] at h
      obtain ⟨rfl, hrest⟩ := delimited_append_inj h
      exact ⟨rfl, hrest⟩
  | int32 m =>
    cases hw with
    | int32 n =>
      simp only [encode] at h
      obtain ⟨rfl, hrest⟩ := varintOfInt32_append_inj h
      exact ⟨rfl, hrest⟩
  | unpacked m =>
    cases hw with
    | unpacked n =>
      simp only [encode] at h
      obtain ⟨rfl, hrest⟩ := varintOfInt32_append_inj h
      exact ⟨rfl, hrest⟩
    | packed ns => cases htype
  | packed ms =>
    cases hw with
    | unpacked n => cases htype
    | packed ns =>
      simp only [encode] at h
      obtain ⟨hbytes, hrest⟩ := delimited_append_inj h
      exact ⟨by rw [int32s_inj hbytes], hrest⟩
  | word m =>
    cases hw with
    | word n =>
      simp only [encode] at h
      obtain ⟨hnumber, hrest⟩ := Varint.encode_append_inj h
      exact ⟨by rw [UInt64.toNat_inj.mp hnumber], hrest⟩
  | bool b =>
    cases hw with
    | bool c =>
      simp only [encode] at h
      obtain ⟨hnumber, hrest⟩ := Varint.encode_append_inj h
      have hbit : ∀ b c : Bool, b.toNat = c.toNat → b = c := by decide
      exact ⟨by rw [hbit b c hnumber], hrest⟩
  | double m =>
    cases hw with
    | double n =>
      simp only [encode] at h
      obtain ⟨rfl, hrest⟩ := bytesOfWord_append_inj h
      exact ⟨rfl, hrest⟩
  | message hr =>
    cases hw with
    | message hs =>
      simp only [encode] at h
      obtain ⟨hbytes, hrest⟩ := delimited_append_inj h
      exact ⟨by rw [hmessage _ _ _ hr hs hbytes], hrest⟩

/-- Field by field: the keys are equal, so the values are of one kind. -/
theorem encode_inj_of_holds (hr : g.Holds fits shape r) (hs : g.Holds fits shape s)
    (hmessage : ∀ shape r s, fits shape r → fits shape s → encode r = encode s → r = s)
    (h : encode r = encode s) : r = s := by
  induction r generalizing s with
  | nil =>
    cases s with
    | nil => rfl
    | cons e rest => simp [encode, Key.encode, Varint.encode_ne_nil] at h
  | cons e rest ih =>
    cases s with
    | nil => simp [encode, Key.encode, Varint.encode_ne_nil] at h
    | cons e' rest' =>
      obtain ⟨n, v⟩ := e
      obtain ⟨n', w⟩ := e'
      rw [encode, encode, List.append_assoc, List.append_assoc] at h
      obtain ⟨hfield, htype, htail⟩ := Key.encode_append_inj h
      dsimp only at hfield htype
      subst hfield
      obtain ⟨⟨rule, hrule, hv⟩, hrest⟩ := List.forall_mem_cons.mp hr
      obtain ⟨⟨rule', hrule', hw⟩, hrest'⟩ := List.forall_mem_cons.mp hs
      obtain rfl := Option.some.inj (hrule.symm.trans hrule')
      obtain ⟨rfl, hbytes⟩ := Value.encode_append_inj hv hw hmessage htype htail
      rw [ih hrest hrest' hbytes]

/-- Different records of one shape have different bytes, by induction on the depth. -/
theorem encode_inj {depth : Nat} (hr : g.Fits depth shape r) (hs : g.Fits depth shape s)
    (h : encode r = encode s) : r = s := by
  induction depth generalizing shape r s with
  | zero => exact encode_inj_of_holds hr hs (fun _ _ _ hfalse => hfalse.elim) h
  | succ depth ih => exact encode_inj_of_holds hr hs (fun _ _ _ hr hs => ih hr hs) h

end SchemaHeader.Wire
