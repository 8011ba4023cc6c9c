import Mathlib.Data.List.ReduceOption
import SchemaHeader.Proofs.Wire.Number
import SchemaHeader.Proofs.Wire.Record

/-! A record that is written is read back by a grammar that it fits, where its messages lie no
deeper than messages are read. -/
namespace SchemaHeader.Wire

variable {σ : Type} {g : Grammar σ} {fits : σ → Record → Prop} {kind : Kind σ} {shape : σ}
  {rule : Rule σ} {v : Value} {r s : Record} {n depth : Nat} {bs : List UInt8}

/-- A field of the kind can hold the value; of a message, `fits` says so. -/
inductive Kind.Admits (fits : σ → Record → Prop) : Kind σ → Value → Prop
  | text (s : String) : Admits fits .text (.text s)
  | bytes (bs : List UInt8) : Admits fits .bytes (.bytes bs)
  | int32 (n : Int32) : Admits fits .int32 (.int32 n)
  | unpacked (n : Int32) : Admits fits .int32s (.int32 n)
  | packed (ns : List Int32) : Admits fits .int32s (.packed ns)
  | word (n : UInt64) : Admits fits .word (.word n)
  | bool (b : Bool) : Admits fits .bool (.bool b)
  | double (bits : UInt64) : Admits fits .double (.double bits)
  | message {shape : σ} {r : Record} (h : fits shape r) : Admits fits (.message shape) (.message r)

namespace Grammar

/-- Every field of the record is one of the shape. -/
def Holds (g : Grammar σ) (fits : σ → Record → Prop) (shape : σ) (r : Record) : Prop :=
  ∀ e ∈ r, ∃ rule, g.rule? shape e.1 = some rule ∧ rule.kind.Admits fits e.2

/-- The record is a message of the shape, with `depth` levels of messages below it at the most. -/
def Fits (g : Grammar σ) : (depth : Nat) → σ → Record → Prop
  | 0 => g.Holds fun _ _ => False
  | depth + 1 => g.Holds (g.Fits depth)

/-- The numbers of the fields leave room for a wire type beside them. -/
def IsNumbered (g : Grammar σ) : Prop :=
  ∀ {shape n rule}, g.rule? shape n = some rule → 0 < n ∧ n < 2 ^ 29

theorem holds_nil : g.Holds fits shape [] := List.forall_mem_nil _

theorem holds_cons (hrule : g.rule? shape n = some rule) (hv : rule.kind.Admits fits v)
    (h : g.Holds fits shape r) : g.Holds fits shape ((n, v) :: r) :=
  List.forall_mem_cons.mpr ⟨⟨rule, hrule, hv⟩, h⟩

theorem Holds.append (h : g.Holds fits shape r) (hs : g.Holds fits shape s) :
    g.Holds fits shape (r ++ s) :=
  List.forall_mem_append.mpr ⟨h, hs⟩

theorem holds_each {β : Type} {wrap : β → Value} {as : List β} (hrule : g.rule? shape n = some rule)
    (h : ∀ a ∈ as, rule.kind.Admits fits (wrap a)) : g.Holds fits shape (.each n wrap as) :=
  (Record.forall_mem_each n wrap as).mpr fun a ha => ⟨rule, hrule, h a ha⟩

theorem holds_single {β : Type} {wrap : β → Value} {a? : Option β}
    (hrule : g.rule? shape n = some rule) (h : ∀ a ∈ a?, rule.kind.Admits fits (wrap a)) :
    g.Holds fits shape (.single n wrap a?) :=
  (Record.forall_mem_single n wrap a?).mpr fun a ha => ⟨rule, hrule, h a ha⟩

/-- A record without messages in it has no depth. -/
theorem fits_of_holds (h : ∀ fits, g.Holds fits shape r) : g.Fits depth shape r := by
  cases depth with
  | zero => exact h _
  | succ depth => exact h _

end Grammar

theorem length_le_delimited (bs : List UInt8) : bs.length ≤ (delimited bs).length := by
  simp [delimited]

namespace Reads

theorem expect (t : WireType) : Reads (Wire.expect t t) [] () := by
  rw [Wire.expect, if_pos rfl]
  exact pure ()

/-- A value is read back if the messages of its kind are. -/
theorem value {enter? : Option (σ → Reader Record)}
    (henter : ∀ shape r, fits shape r → (encode r).length < UInt64.size →
      ∃ enter, enter? = some enter ∧ Reads (enter shape) (delimited (encode r)) r)
    (hadmits : kind.Admits fits v) (hsize : (Value.encode v).length < UInt64.size) :
    Reads (Wire.value enter? v.wireType kind) (Value.encode v) v := by
  have hblock {bs : List UInt8} (h : (delimited bs).length < UInt64.size) :
      bs.length < UInt64.size := Nat.lt_of_le_of_lt (length_le_delimited bs) h
  cases hadmits with
  | text s =>
    rw [Value.encode] at hsize ⊢
    refine (expect _).bind ((block (hblock hsize)).bind_nil ?_)
    rw [Text.ofUtf8Bytes?_utf8Bytes]
    exact pure _
  | bytes bs =>
    rw [Value.encode] at hsize ⊢
    exact (expect _).bind ((block (hblock hsize)).bind_nil (pure _))
  | int32 n =>
    rw [Value.encode]
    exact (expect _).bind ((int32 n).bind_nil (pure _))
  | unpacked n =>
    rw [Value.encode]
    exact (expect _).bind ((int32 n).bind_nil (pure _))
  | packed ns =>
    rw [Value.encode] at hsize ⊢
    exact (blockOf (hblock hsize) (int32s ns)).bind_nil (pure _)
  | word n =>
    rw [Value.encode]
    refine (expect _).bind ((varint n.toNat_lt).bind_nil ?_)
    rw [UInt64.ofNat_toNat]
    exact pure _
  | bool b =>
    rw [Value.encode]
    refine (expect _).bind ((varint (by cases b <;> decide)).bind_nil ?_)
    cases b with
    | false => exact pure _
    | true => exact pure _
  | double bits =>
    rw [Value.encode]
    have hchunk := chunk (bytesOfWord 8 bits)
    rw [length_bytesOfWord] at hchunk
    refine (expect _).bind (hchunk.bind_nil ?_)
    rw [wordOfBytes_bytesOfWord bits.toNat_lt]
    exact pure _
  | message h =>
    rw [Value.encode] at hsize ⊢
    obtain ⟨enter, rfl, hread⟩ := henter _ _ h (hblock hsize)
    exact (expect _).bind (hread.bind_nil (pure _))

theorem inside {α : Type} {reader : Reader α} {a : α} (title field : String)
    (h : Reads reader bs a) : Reads (Wire.inside title field reader) bs a := by
  intro rest
  rw [Wire.inside, h rest]
  rfl

theorem occurrence {enter? : Option (σ → Reader Record)} (hnumbered : g.IsNumbered)
    (hrule : g.rule? shape n = some rule) (depth : Nat)
    (hvalue : Reads (Wire.value enter? v.wireType rule.kind) (Value.encode v) v) :
    Reads (Wire.occurrence g depth enter? shape) (Key.encode ⟨n, v.wireType⟩ ++ Value.encode v)
      (some (n, v)) := by
  obtain ⟨hpos, hbound⟩ := hnumbered hrule
  rw [Wire.occurrence]
  refine (key (k := ⟨n, v.wireType⟩) hpos hbound).bind ?_
  rw [hrule]
  exact (inside _ _ hvalue).bind_nil (pure _)

theorem key_ne_nil (k : Key) : Key.encode k ≠ [] := Varint.encode_ne_nil _

/-- Reading each field of a record gives the record. -/
theorem record {step : Reader (Option (Nat × Value))}
    (h : ∀ e ∈ r, Reads step (Key.encode ⟨e.1, e.2.wireType⟩ ++ Value.encode e.2) (some e)) :
    Reads (many step (encode r).length) (encode r) (r.map some) := by
  induction r with
  | nil =>
    rw [encode]
    exact many_nil step
  | cons e rest ih =>
    obtain ⟨n, v⟩ := e
    obtain ⟨hfirst, hrest⟩ := List.forall_mem_cons.mp h
    rw [encode]
    exact many_cons hfirst (by simp [key_ne_nil]) (ih hrest)

end Reads

theorem length_encode_le_of_mem {e : Nat × Value} (h : e ∈ r) :
    (Value.encode e.2).length ≤ (encode r).length := by
  induction r with
  | nil => cases h
  | cons first rest ih =>
    obtain ⟨n, v⟩ := first
    rw [encode, List.length_append, List.length_append]
    obtain rfl | h := List.mem_cons.mp h
    · exact Nat.le_add_right_of_le (Nat.le_add_left _ _)
    · exact Nat.le_add_left_of_le (ih h)

theorem Grammar.Fits.single {e : Nat × Value} (h : g.Fits depth shape r) (he : e ∈ r) :
    g.Fits depth shape [e] := by
  cases depth with
  | zero => exact List.forall_mem_singleton.mpr (h e he)
  | succ depth => exact List.forall_mem_singleton.mpr (h e he)

/-- By induction on the levels of messages that can be below an occurrence. -/
theorem reads_occurrenceAt {e : Nat × Value} (hnumbered : g.IsNumbered)
    (h : g.Fits depth shape [e]) (hsize : (Value.encode e.2).length < UInt64.size) :
    Reads (occurrenceAt g depth shape) (Key.encode ⟨e.1, e.2.wireType⟩ ++ Value.encode e.2)
      (some e) := by
  induction depth generalizing shape e with
  | zero =>
    obtain ⟨rule, hrule, hadmits⟩ := h e List.mem_cons_self
    refine Reads.occurrence hnumbered hrule 0 (Reads.value ?_ hadmits hsize)
    intro shape r hfalse
    exact hfalse.elim
  | succ depth ih =>
    obtain ⟨rule, hrule, hadmits⟩ := h e List.mem_cons_self
    refine Reads.occurrence hnumbered hrule (depth + 1) (Reads.value ?_ hadmits hsize)
    intro shape r hfits hlength
    refine ⟨_, rfl, ?_⟩
    have hrecord := Reads.record fun e he =>
      ih (hfits.single he) (Nat.lt_of_le_of_lt (length_encode_le_of_mem he) hlength)
    have hread := (Reads.blockOf hlength hrecord).map (f := (·.reduceOption))
    simpa [List.reduceOption] using hread

theorem reads_record (hnumbered : g.IsNumbered) (h : g.Fits depth shape r)
    (hsize : (encode r).length < UInt64.size) :
    Reads (many (occurrenceAt g depth shape) (encode r).length) (encode r) (r.map some) :=
  Reads.record fun _ he => reads_occurrenceAt hnumbered (h.single he)
    (Nat.lt_of_le_of_lt (length_encode_le_of_mem he) hsize)

/-- A record that fits its shape is read back from its bytes. -/
theorem decode_encode (hnumbered : g.IsNumbered) (h : g.Fits depthLimit shape r)
    (hsize : (encode r).length < UInt64.size) : decode g shape (encode r) = .ok r := by
  have hread := reads_record hnumbered h hsize []
  rw [List.append_nil] at hread
  rw [decode, hread]
  simp [List.reduceOption, bind, Except.bind, pure, Except.pure]

end SchemaHeader.Wire
