import SchemaHeader.Proofs.Descriptor.Record
import SchemaHeader.Proofs.Request

/-! A request is read back as it was written, as long as its messages do not lie too deep. -/
namespace SchemaHeader

open Wire (Record Fault)
open Wire.Record Wire.Grammar

namespace Version

theorem isMessage_toRecord (v : Version) : schemaGrammar.IsMessage .version v.toRecord :=
  ⟨0, v.fits_toRecord 0⟩

theorem depth_toRecord (v : Version) : Record.depth v.toRecord = 0 := by
  simp [toRecord, depth_append, depth_single_int32, depth_single_text]

end Version

namespace Request

variable {r : Request}

/-- The levels of messages below a request. Its files and its version are on the first one. -/
def depth (r : Request) : Nat :=
  max (Wire.levelsOf (r.compilerVersion?.toList.map fun _ => 0))
    (Wire.levelsOf (r.files.map FileDescriptor.depth))

/-- A request is read back from its record. -/
theorem ofRecord_toRecord (r : Request) : ofRecord r.toRecord = r := by
  rw [toRecord_eq, ofRecord_recordOf]
  simp [Function.comp_def, FileDescriptor.ofRecord_toRecord]

theorem isMessage_toRecord (r : Request) : schemaGrammar.IsMessage .request r.toRecord :=
  isMessage_of_holds <|
    (((holds_each rfl fun name _ => .text name).append
      (holds_single rfl fun parameter _ => .text parameter)).append
        (holds_single rfl fun version _ => .message version.isMessage_toRecord)).append
          (holds_each rfl fun f _ => .message f.isMessage_toRecord)

theorem depth_toRecord (r : Request) : Record.depth r.toRecord = r.depth := by
  have hnames : Record.depth (.each 1 .text r.wanted) = 0 := depth_each_plain 1 (fun _ => rfl) _
  simp only [toRecord, depth, depth_append, depth_single_text, depth_single_message,
    depth_each_message, hnames, Version.depth_toRecord, FileDescriptor.depth_toRecord,
    Nat.zero_max]

theorem decode_eq_ofRecord {bs : List UInt8} {record : Record}
    (h : Wire.decode schemaGrammar .request bs = .ok record) :
    decode bs = .ok (ofRecord record) := by
  rw [decode, h]
  rfl

theorem decode_eq_error {bs : List UInt8} {fault : Fault}
    (h : Wire.decode schemaGrammar .request bs = .error fault) : decode bs = .error fault := by
  rw [decode, h]
  rfl

/-- A record on the wire is read up to the limit and refused beyond it. -/
theorem decode_record_up_to_limit {record : Record} (h : schemaGrammar.IsMessage .request record)
    (hsize : (Wire.encode record).length < UInt64.size) :
    (Record.depth record ≤ 100 →
      Wire.decode schemaGrammar .request (Wire.encode record) = .ok record) ∧
    (100 < Record.depth record → ∃ fault, decode (Wire.encode record) = .error fault ∧
      fault.cause = .tooDeep ∧ fault.within.length = 101) := by
  obtain ⟨hwithin, hbeyond⟩ := Wire.decode_encode_cases isNumbered_schemaGrammar h hsize
  refine ⟨hwithin, fun hdepth => ?_⟩
  obtain ⟨fault, hends, hdecode⟩ := hbeyond hdepth
  exact ⟨fault, decode_eq_error hdecode, hends.cause, hends.within⟩

/-- A request is read back unless messages lie more than 100 levels below it; then reading fails at
level 101 for that reason. A length is one word, and no real request is longer than that. -/
theorem decode_encode_up_to_limit :
    (∀ r : Request, r.encode.length < UInt64.size →
      (r.depth ≤ 100 → decode r.encode = .ok r) ∧
      (100 < r.depth → ∃ fault, decode r.encode = .error fault ∧ fault.cause = .tooDeep ∧
        fault.within.length = 101)) ∧
    ∀ record, schemaGrammar.IsMessage .request record →
      (Wire.encode record).length < UInt64.size →
      (Record.depth record ≤ 100 →
        Wire.decode schemaGrammar .request (Wire.encode record) = .ok record) ∧
      (100 < Record.depth record → ∃ fault, decode (Wire.encode record) = .error fault ∧
        fault.cause = .tooDeep ∧ fault.within.length = 101) := by
  refine ⟨fun r hsize => ?_, fun record => decode_record_up_to_limit⟩
  obtain ⟨hwithin, hbeyond⟩ := decode_record_up_to_limit r.isMessage_toRecord hsize
  rw [depth_toRecord] at hwithin hbeyond
  refine ⟨fun hdepth => ?_, hbeyond⟩
  rw [encode, decode_eq_ofRecord (hwithin hdepth), ofRecord_toRecord]

/-- Messages inside each other; the innermost one has a field with options. -/
def nest : Nat → MessageDescriptor
  | 0 => { name? := "", fields := [{ number? := some (-1), options? := some {} }] }
  | n + 1 => { nested := [nest n] }

def nesting (n : Nat) : Request where
  wanted := ["", "a"]
  parameter? := ""
  compilerVersion? := some {}
  files := [{ messages := [nest n] }, {}]

/-- A request on the wire, with fields that are not in the order of their numbers. -/
def unsorted : Record :=
  [(15, .message [(12, .text "proto3"), (10, .packed [-1, 3]), (9, .message [(1, .message [])])]),
    (1, .text "a")]

theorem decode_encode_up_to_limit_nesting :
    decode (nesting 96).encode = .ok (nesting 96) ∧
    (∃ fault, decode (nesting 97).encode = .error fault ∧ fault.cause = .tooDeep) ∧
    Wire.decode schemaGrammar .request (Wire.encode unsorted) = .ok unsorted := by
  have hwithin : (nesting 96).depth = 100 ∧ (nesting 96).encode.length < UInt64.size := by
    decide +kernel
  have hbeyond : (nesting 97).depth = 101 ∧ (nesting 97).encode.length < UInt64.size := by
    decide +kernel
  have hunsorted : Record.depth unsorted = 3 ∧ (Wire.encode unsorted).length < UInt64.size := by
    decide +kernel
  have hlocation : schemaGrammar.IsMessage .location [] := isMessage_of_holds holds_nil
  have hinfo : schemaGrammar.IsMessage .sourceInfo [(1, .message [])] :=
    isMessage_of_holds (holds_cons rfl (.message hlocation) holds_nil)
  have hfile : schemaGrammar.IsMessage .file
      [(12, .text "proto3"), (10, .packed [-1, 3]), (9, .message [(1, .message [])])] :=
    isMessage_of_holds <| holds_cons rfl (.text _) <| holds_cons rfl (.packed _) <|
      holds_cons rfl (.message hinfo) holds_nil
  have hrequest : schemaGrammar.IsMessage .request unsorted :=
    isMessage_of_holds (holds_cons rfl (.message hfile) (holds_cons rfl (.text _) holds_nil))
  obtain ⟨htyped, hrecord⟩ := decode_encode_up_to_limit
  refine ⟨(htyped _ hwithin.2).1 (by omega), ?_, (hrecord _ hrequest hunsorted.2).1 (by omega)⟩
  obtain ⟨fault, hdecode, hcause, -⟩ := (htyped _ hbeyond.2).2 (by omega)
  exact ⟨fault, hdecode, hcause⟩

end Request

end SchemaHeader
