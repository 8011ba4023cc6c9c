import SchemaHeader.Proofs.Wire.Reads
import SchemaHeader.Wire.Decode

/-! A reader that succeeds has asked nothing of the bytes behind those it took: it reads the same
off any input that starts with them. So messages can be decoded one behind the other. -/
namespace SchemaHeader.Wire

variable {σ α β : Type} {r step : Reader α} {f : α → Reader β} {input rest : Input} {a : α}
  {bs cs : List UInt8} {as as' : List α} {n left more depth field : Nat} {k : Key}

/-- Whether the reader succeeds, and with what, is settled by the bytes that it takes. -/
def IsLocal (r : Reader α) : Prop :=
  ∀ input a rest, r input = .ok (a, rest) → ∃ bs, input.bytes = bs ++ rest.bytes ∧ Reads r bs a

/-- The bytes are made of pieces, none of them empty, each of which the reader takes for one
member of the list. -/
inductive ReadsEach (step : Reader α) : List UInt8 → List α → Prop
  | nil : ReadsEach step [] []
  | cons {bs cs : List UInt8} {a : α} {as : List α} (hstep : Reads step bs a) (hbs : bs ≠ [])
    (hrest : ReadsEach step cs as) : ReadsEach step (bs ++ cs) (a :: as)

namespace ReadsEach

theorem append (h : ReadsEach step bs as) (h' : ReadsEach step cs as') :
    ReadsEach step (bs ++ cs) (as ++ as') := by
  induction h with
  | nil => exact h'
  | cons hstep hbs _ ih =>
    rw [List.append_assoc]
    exact .cons hstep hbs ih

theorem reads_many (h : ReadsEach step bs as) : Reads (many step bs.length) bs as := by
  induction h with
  | nil => exact .many_nil step
  | cons hstep hbs _ ih => exact .many_cons hstep hbs ih

end ReadsEach

theorem Input.bytes_of_next? {b : UInt8} (h : input.next? = some (b, rest)) :
    input.bytes = b :: rest.bytes := by
  obtain ⟨bytes, size, hsize⟩ := input
  cases bytes with
  | nil => cases h
  | cons c bytes =>
    cases h
    rfl

/-- The bytes of a number are the same number before any others. -/
theorem Varint.exists_of_decode? (h : decode? more input = some (n, rest)) :
    ∃ bs, input.bytes = bs ++ rest.bytes ∧
      ∀ after, decode? more (.ofBytes (bs ++ after)) = some (n, .ofBytes after) := by
  induction more generalizing input n with
  | zero =>
    obtain ⟨⟨b, mid⟩, hnext, hlast⟩ := Option.bind_eq_some_iff.mp h
    dsimp only at hlast
    split at hlast
    · next hb =>
      cases hlast
      refine ⟨[b], Input.bytes_of_next? hnext, fun after => ?_⟩
      exact if_pos hb
    · cases hlast
  | succ more ih =>
    obtain ⟨⟨b, mid⟩, hnext, htail⟩ := Option.bind_eq_some_iff.mp h
    dsimp only at htail
    split at htail
    · next hb =>
      cases htail
      refine ⟨[b], Input.bytes_of_next? hnext, fun after => ?_⟩
      exact if_pos hb
    · next hb =>
      obtain ⟨⟨high, last⟩, hhigh, hsum⟩ := Option.bind_eq_some_iff.mp htail
      cases hsum
      obtain ⟨bs, hbs, hread⟩ := ih hhigh
      refine ⟨b :: bs, ?_, fun after => ?_⟩
      · rw [Input.bytes_of_next? hnext, hbs, List.cons_append]
      · have hhigh' := hread after
        refine (if_neg hb).trans ?_
        show (decode? more (.ofBytes (bs ++ after)) >>= _) = _
        rw [hhigh']
        rfl

theorem exists_of_bind_eq_ok {x : Except Fault (α × Input)} {f : α × Input → Except Fault β} {b : β}
    (h : x >>= f = .ok b) : ∃ a rest, x = .ok (a, rest) ∧ f (a, rest) = .ok b := by
  cases x with
  | error fault => cases h
  | ok p => exact ⟨p.1, p.2, rfl, h⟩

namespace IsLocal

theorem pure (a : α) : IsLocal (Pure.pure a) := by
  intro input b rest h
  cases h
  exact ⟨[], rfl, .pure a⟩

theorem fail (cause : Cause) : IsLocal (Wire.fail cause : Reader α) := by
  intro input a rest h
  cases h

theorem bind (hr : IsLocal r) (hf : ∀ a, IsLocal (f a)) : IsLocal (r >>= f) := by
  intro input b rest h
  obtain ⟨a, mid, hfirst, hsecond⟩ := exists_of_bind_eq_ok (f := fun p => f p.1 p.2) h
  obtain ⟨bs, hbs, hread⟩ := hr _ _ _ hfirst
  obtain ⟨cs, hcs, hread'⟩ := hf a _ _ _ hsecond
  refine ⟨bs ++ cs, ?_, hread.bind hread'⟩
  rw [hbs, hcs, List.append_assoc]

theorem map {f : α → β} (hr : IsLocal r) : IsLocal (f <$> r) := by
  rw [map_eq_pure_bind]
  exact hr.bind fun a => pure (f a)

theorem inside (title name : String) (hr : IsLocal r) : IsLocal (Wire.inside title name r) := by
  intro input a rest h
  cases hinner : r input with
  | error fault =>
    rw [Wire.inside, hinner] at h
    cases h
  | ok p =>
    rw [Wire.inside, hinner] at h
    cases h
    obtain ⟨bs, hbs, hread⟩ := hr _ _ _ hinner
    refine ⟨bs, hbs, fun after => ?_⟩
    rw [Wire.inside, hread after]
    rfl

theorem varint : IsLocal Wire.varint := by
  intro input n rest h
  rw [Wire.varint] at h
  split at h
  · next result hresult =>
    cases h
    obtain ⟨bs, hbs, hread⟩ := Varint.exists_of_decode? hresult
    refine ⟨bs, hbs, fun after => ?_⟩
    rw [Wire.varint, hread after]
  · cases h

theorem chunk (n : Nat) : IsLocal (Wire.chunk n) := by
  intro input bs rest h
  rw [Wire.chunk, Input.splitAt?] at h
  split at h
  · next result hresult =>
    split at hresult
    · next hn =>
      cases hresult
      cases h
      have hlength : (input.bytes.take n).length = n := by
        rw [List.length_take, ← input.size_eq]
        omega
      have hread := Reads.chunk (input.bytes.take n)
      rw [hlength] at hread
      exact ⟨_, (List.take_append_drop n input.bytes).symm, hread⟩
    · cases hresult
  · cases h

theorem block : IsLocal Wire.block := varint.bind chunk

/-- What a repeated reader takes is cut into what each of its steps takes. -/
theorem exists_readsEach (hstep : IsLocal step) (h : many step left input = .ok (as, rest)) :
    ∃ bs, bs.length = left ∧ input.bytes = bs ++ rest.bytes ∧ ReadsEach step bs as := by
  induction left using Nat.strongRecOn generalizing input as with
  | ind left ih =>
    rw [many] at h
    split at h
    · next hzero =>
      cases h
      exact ⟨[], hzero.symm, rfl, .nil⟩
    · obtain ⟨a, mid, hfirst, hrest⟩ := exists_of_bind_eq_ok h
      dsimp only at hrest
      split at hrest
      · next hused =>
        obtain ⟨later, last, hmany, hend⟩ := exists_of_bind_eq_ok hrest
        cases hend
        obtain ⟨bs, hbs, hread⟩ := hstep _ _ _ hfirst
        obtain ⟨cs, hlength, hcs, heach⟩ := ih _ (by omega) hmany
        have hsize : input.size = bs.length + mid.size := by
          rw [input.size_eq, mid.size_eq, hbs, List.length_append]
        refine ⟨bs ++ cs, ?_, ?_, .cons hread ?_ heach⟩
        · rw [List.length_append]
          omega
        · rw [hbs, hcs, List.append_assoc]
        · rintro rfl
          simp at hsize
          omega
      · cases hrest

theorem blockOf (hstep : IsLocal step) : IsLocal (Wire.blockOf step) := by
  refine varint.bind fun length => ?_
  intro input as rest h
  change (if length ≤ input.size then Wire.many step length else Wire.fail .bufferUnderflow)
    input = _ at h
  split at h
  · obtain ⟨bs, rfl, hbs, heach⟩ := exists_readsEach hstep h
    refine ⟨bs, hbs, fun after => ?_⟩
    have hsize : bs.length ≤ (Input.ofBytes (bs ++ after)).size := by
      simp [Input.ofBytes]
    show (if bs.length ≤ (Input.ofBytes (bs ++ after)).size then Wire.many step bs.length
      else Wire.fail .bufferUnderflow) (.ofBytes (bs ++ after)) = _
    rw [if_pos hsize]
    exact heach.reads_many after
  · cases h

theorem key : IsLocal Wire.key := by
  refine varint.bind fun n => ?_
  split
  · exact fail _
  · split
    · exact fail _
    · split
      · exact fail _
      · exact pure _

end IsLocal

namespace Reads

theorem groupRest_end {inner : Key → Reader Unit} (hkey : Reads Wire.key bs k)
    (hend : k.wireType = .endGroup) (hfield : k.field = field) :
    Reads (Wire.groupRest inner field) bs () := by
  intro after
  rw [Wire.groupRest, hkey after]
  simp [hend, hfield, Bind.bind, Except.bind]

theorem groupRest_cons {inner : Key → Reader Unit} {ds : List UInt8} (hkey : Reads Wire.key bs k)
    (hend : k.wireType ≠ .endGroup) (hinner : Reads (inner k) cs ()) (hsome : bs ++ cs ≠ [])
    (hrest : Reads (Wire.groupRest inner field) ds ()) :
    Reads (Wire.groupRest inner field) (bs ++ cs ++ ds) () := by
  intro after
  have hpos := List.length_pos_iff.mpr hsome
  have hsize : (Input.ofBytes (ds ++ after)).size <
      (Input.ofBytes (bs ++ (cs ++ (ds ++ after)))).size := by
    simp only [Input.ofBytes, List.length_append] at hpos ⊢
    omega
  rw [Wire.groupRest, List.append_assoc, List.append_assoc, hkey]
  simp only [Bind.bind, Except.bind, if_neg hend]
  rw [hinner]
  dsimp only
  rw [dif_pos hsize, hrest after]

end Reads

namespace IsLocal

/-- By induction on what is left of the input. That a value takes up some of it is as true with
other bytes behind the group. -/
theorem groupRest {inner : Key → Reader Unit} (hinner : ∀ k, IsLocal (inner k)) :
    IsLocal (Wire.groupRest inner field) := by
  intro input u rest h
  generalize hsize : input.size = size
  induction size using Nat.strongRecOn generalizing input with
  | ind size ih =>
    rw [Wire.groupRest] at h
    obtain ⟨k, mid, hkey, hvalue⟩ := exists_of_bind_eq_ok h
    obtain ⟨bs, hbs, hread⟩ := key _ _ _ hkey
    dsimp only at hvalue
    split at hvalue
    · next hend =>
      split at hvalue
      · next hfield =>
        cases hvalue
        exact ⟨bs, hbs, hread.groupRest_end hend hfield⟩
      · cases hvalue
    · next hend =>
      obtain ⟨_, last, hvalue, hlater⟩ := exists_of_bind_eq_ok hvalue
      obtain ⟨cs, hcs, hread'⟩ := hinner k _ _ _ hvalue
      dsimp only at hlater
      split at hlater
      · next hless =>
        obtain ⟨ds, hds, hrest⟩ := ih last.size (by omega) last hlater rfl
        refine ⟨bs ++ cs ++ ds, ?_, hread.groupRest_cons hend hread' ?_ hrest⟩
        · rw [hbs, hcs, hds, List.append_assoc, List.append_assoc]
        · intro hnone
          rw [List.append_eq_nil_iff] at hnone
          obtain ⟨rfl, rfl⟩ := hnone
          rw [last.size_eq, input.size_eq, hbs, hcs] at hless
          simp at hless
      · cases hlater

/-- Skipping a field is local, however deep its groups are. -/
theorem skip (depth : Nat) (k : Key) : IsLocal (Wire.skip depth k) := by
  induction depth generalizing k with
  | zero => exact fail _
  | succ depth ih =>
    rw [Wire.skip]
    split
    · exact varint.map
    · exact (chunk 8).map
    · exact block.map
    · exact groupRest ih
    · exact fail _
    · exact (chunk 4).map

theorem expect (actual expected : WireType) : IsLocal (Wire.expect actual expected) := by
  rw [Wire.expect]
  split
  · exact pure ()
  · exact fail _

theorem value {enter? : Option (σ → Reader Record)}
    (henter : ∀ enter, enter? = some enter → ∀ shape, IsLocal (enter shape)) (wireType : WireType)
    (kind : Kind σ) : IsLocal (Wire.value enter? wireType kind) := by
  cases kind with
  | text =>
    refine (expect _ _).bind fun _ => block.bind fun bytes => ?_
    split
    · exact pure _
    · exact fail _
  | bytes => exact (expect _ _).bind fun _ => block.bind fun bytes => pure _
  | int32 => exact (expect _ _).bind fun _ => varint.map.bind fun n => pure _
  | int32s =>
    rw [Wire.value]
    split
    · exact (blockOf varint.map).bind fun ns => pure _
    · exact (expect _ _).bind fun _ => varint.map.bind fun n => pure _
  | word => exact (expect _ _).bind fun _ => varint.bind fun n => pure _
  | bool => exact (expect _ _).bind fun _ => varint.bind fun n => pure _
  | double => exact (expect _ _).bind fun _ => (chunk 8).bind fun bytes => pure _
  | message shape =>
    refine (expect _ _).bind fun _ => ?_
    split
    · next enter => exact (henter enter rfl shape).bind fun r => pure _
    · exact fail _

theorem occurrence (g : Grammar σ) (depth : Nat) {enter? : Option (σ → Reader Record)}
    (henter : ∀ enter, enter? = some enter → ∀ shape, IsLocal (enter shape)) (shape : σ) :
    IsLocal (Wire.occurrence g depth enter? shape) := by
  refine key.bind fun k => ?_
  split
  · exact (inside _ _ (value henter _ _)).bind fun v => pure _
  · exact (skip depth k).bind fun _ => pure _

/-- By induction on the levels of messages that can still be entered. -/
theorem occurrenceAt (g : Grammar σ) (depth : Nat) (shape : σ) :
    IsLocal (Wire.occurrenceAt g depth shape) := by
  induction depth generalizing shape with
  | zero =>
    refine occurrence g 0 (fun enter henter => ?_) shape
    cases henter
  | succ depth ih =>
    refine occurrence g (depth + 1) (fun enter henter inner => ?_) shape
    cases henter
    exact (blockOf (ih inner)).map

end IsLocal

variable {g : Grammar σ} {shape : σ} {record record' : Record}

/-- Bytes hold a message where they are made of its occurrences, with those of unknown fields
among them. -/
theorem decode_eq_ok_iff : decode g shape bs = .ok record ↔
    ∃ found, ReadsEach (occurrenceAt g depthLimit shape) bs found ∧
      record = found.reduceOption := by
  constructor
  · intro h
    rw [decode] at h
    obtain ⟨found, rest, hmany, hfound⟩ := exists_of_bind_eq_ok h
    cases hfound
    obtain ⟨cs, hlength, hcs, heach⟩ :=
      (IsLocal.occurrenceAt g depthLimit shape).exists_readsEach hmany
    have hall : bs = cs := by
      have hend := congrArg List.length hcs
      simp only [Input.ofBytes, List.length_append] at hcs hend
      have hnone : rest.bytes = [] := List.length_eq_zero_iff.mp (by omega)
      rwa [hnone, List.append_nil] at hcs
    subst hall
    exact ⟨found, heach, rfl⟩
  · rintro ⟨found, heach, rfl⟩
    have hread := heach.reads_many []
    rw [List.append_nil] at hread
    rw [decode, hread]
    rfl

/-- Records that are one behind the other are read as one. -/
theorem decode_append (h : decode g shape bs = .ok record) (h' : decode g shape cs = .ok record') :
    decode g shape (bs ++ cs) = .ok (record ++ record') := by
  obtain ⟨found, heach, rfl⟩ := decode_eq_ok_iff.mp h
  obtain ⟨found', heach', rfl⟩ := decode_eq_ok_iff.mp h'
  refine decode_eq_ok_iff.mpr ⟨found ++ found', heach.append heach', ?_⟩
  exact List.filterMap_append.symm

end SchemaHeader.Wire
