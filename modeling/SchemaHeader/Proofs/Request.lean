import SchemaHeader.Proofs.Descriptor.Record
import SchemaHeader.Request

/-! Requests and descriptor sets that are made of files as they are on the wire, with every field
that a file has there. -/
namespace SchemaHeader

open Wire (Record)
open Wire.Record Wire.Grammar

variable {files : List Record}

namespace Version

theorem ofRecord_toRecord (v : Version) : ofRecord v.toRecord = v := by
  simp [ofRecord, toRecord, last?, all_single_of_ne, getLast?_toList, Function.comp_def,
    Wire.Value.int32?, Wire.Value.text?]

theorem fits_toRecord (v : Version) (depth : Nat) :
    schemaGrammar.Fits depth .version v.toRecord :=
  fits_of_holds fun _ => (((holds_single rfl fun major _ => .int32 major).append
    (holds_single rfl fun minor _ => .int32 minor)).append
      (holds_single rfl fun patch _ => .int32 patch)).append
        (holds_single rfl fun suffix _ => .text suffix)

end Version

namespace DescriptorSet

def recordOf (files : List Record) : Record := .each 1 .message files

/-- What is written for a set is what is written for its files. -/
theorem toRecord_eq (s : DescriptorSet) :
    s.toRecord = recordOf (s.files.map FileDescriptor.toRecord) := by
  simp [toRecord, recordOf, each, Function.comp_def]

theorem ofRecord_recordOf (files : List Record) :
    ofRecord (recordOf files) = { files := files.map FileDescriptor.ofRecord } := by
  simp [ofRecord, recordOf, Function.comp_def, Wire.Value.message?]

/-- A set is read from its bytes, whatever fields its files have on the wire. -/
theorem decode_recordOf (hfits : ∀ r ∈ files, schemaGrammar.Fits (Wire.depthLimit - 1) .file r)
    (hsize : (Wire.encode (recordOf files)).length < UInt64.size) :
    decode (Wire.encode (recordOf files)) = .ok { files := files.map FileDescriptor.ofRecord } := by
  have hset : schemaGrammar.Fits Wire.depthLimit .fileSet (recordOf files) :=
    holds_each rfl fun r hr => .message (hfits r hr)
  rw [decode, Wire.decode_encode isNumbered_schemaGrammar hset hsize]
  exact congrArg Except.ok (ofRecord_recordOf files)

/-- A set is read back from its bytes, unless its messages lie too deep. -/
theorem decode_encode {s : DescriptorSet} (hdepth : ∀ f ∈ s.files, f.depth < Wire.depthLimit)
    (hsize : s.encode.length < UInt64.size) : decode s.encode = .ok s := by
  rw [encode, toRecord_eq] at hsize ⊢
  rw [decode_recordOf (List.forall_mem_map.mpr fun f hf => ?_) hsize]
  · simp [Function.comp_def, FileDescriptor.ofRecord_toRecord]
  · refine fits_of_depth_le f.isMessage_toRecord.holds ?_
    rw [FileDescriptor.depth_toRecord]
    exact Nat.le_sub_one_of_lt (hdepth f hf)

end DescriptorSet

namespace Request

variable {names : List String} {parameter? : Option String} {version? : Option Version}

def recordOf (names : List String) (parameter? : Option String) (version? : Option Version)
    (files : List Record) : Record :=
  .each 1 .text names ++ .single 2 .text parameter? ++ .single 3 (.message ·.toRecord) version? ++
    .each 15 .message files

theorem toRecord_eq (r : Request) : r.toRecord =
    recordOf r.wanted r.parameter? r.compilerVersion? (r.files.map FileDescriptor.toRecord) := by
  simp [toRecord, recordOf, each, Function.comp_def]

/-- A request is read from its parts, where its version is the only part of itself. -/
theorem ofRecord_recordOf : ofRecord (recordOf names parameter? version? files) =
    { wanted := names, parameter? := parameter?, compilerVersion? := version?,
      files := files.map FileDescriptor.ofRecord } := by
  cases version? <;> simp [ofRecord, recordOf, last?, merged?, all_single_of_ne, all_each_of_ne,
    getLast?_toList, Function.comp_def, Wire.Value.message?, Wire.Value.text?,
    Version.ofRecord_toRecord]

/-- A request is read from its bytes, whatever fields its files have on the wire. -/
theorem decode_recordOf (hfits : ∀ r ∈ files, schemaGrammar.Fits (Wire.depthLimit - 1) .file r)
    (hsize : (Wire.encode (recordOf names parameter? version? files)).length < UInt64.size) :
    decode (Wire.encode (recordOf names parameter? version? files)) =
      .ok { wanted := names, parameter? := parameter?, compilerVersion? := version?,
            files := files.map FileDescriptor.ofRecord } := by
  have hrequest : schemaGrammar.Fits Wire.depthLimit .request
      (recordOf names parameter? version? files) :=
    (((holds_each rfl fun name _ => .text name).append
      (holds_single rfl fun parameter _ => .text parameter)).append
        (holds_single rfl fun version _ => .message (version.fits_toRecord _))).append
          (holds_each rfl fun r hr => .message (hfits r hr))
  rw [decode, Wire.decode_encode isNumbered_schemaGrammar hrequest hsize]
  exact congrArg Except.ok ofRecord_recordOf

end Request

end SchemaHeader
