import SchemaHeader.Proofs.Descriptor.Record
import SchemaHeader.Proofs.Wire.Distinct
import SchemaHeader.Response

/-! A response is read back as it was written, and no other response is written like it. -/
namespace SchemaHeader

open Wire.Record Wire.Grammar

namespace ResponseFile

theorem ofRecord_toRecord (f : ResponseFile) : ofRecord f.toRecord = f := by
  simp [ofRecord, toRecord, last?, all_single_of_ne, getLast?_toList, Function.comp_def,
    Wire.Value.text?]

theorem fits_toRecord (f : ResponseFile) (depth : Nat) :
    schemaGrammar.Fits depth .responseFile f.toRecord :=
  fits_of_holds fun _ => ((holds_single rfl fun name _ => .text name).append
    (holds_single rfl fun point _ => .text point)).append
      (holds_single rfl fun content _ => .text content)

end ResponseFile

namespace Response

variable (r : Response)

theorem ofRecord_toRecord : ofRecord r.toRecord = r := by
  simp [ofRecord, toRecord, last?, all_single_of_ne, all_each_of_ne, getLast?_toList,
    Function.comp_def, Wire.Value.text?, Wire.Value.word?, Wire.Value.message?,
    ResponseFile.ofRecord_toRecord]

/-- Only the files lie below a response. -/
theorem fits_toRecord (depth : Nat) : schemaGrammar.Fits (depth + 1) .response r.toRecord :=
  ((holds_single rfl fun error _ => .text error).append
    (holds_single rfl fun features _ => .word features)).append
      (holds_each rfl fun f _ => .message (f.fits_toRecord depth))

/-- A response is read back from its bytes. -/
theorem decode_encode {r : Response} (hsize : r.encode.length < UInt64.size) :
    decode r.encode = .ok r := by
  rw [decode, encode,
    Wire.decode_encode isNumbered_schemaGrammar (r.fits_toRecord (Wire.depthLimit - 1)) hsize]
  exact congrArg Except.ok r.ofRecord_toRecord

theorem encode_inj {r s : Response} (h : r.encode = s.encode) : r = s := by
  have hrecord := Wire.encode_inj (r.fits_toRecord 0) (s.fits_toRecord 0) h
  rw [← r.ofRecord_toRecord, hrecord, s.ofRecord_toRecord]

/-- A response is read back from its bytes, so no two responses share them. A length is one word,
and no real response is longer than that. -/
theorem encode_lossless :
    (∀ r : Response, r.encode.length < UInt64.size → decode r.encode = .ok r) ∧
    (∀ r s : Response, r.encode = s.encode → r = s) ∧
    ∀ parameter headers, (ofHeaders parameter headers).encode.length < UInt64.size →
      decode (ofHeaders parameter headers).encode = .ok {
        error? := none
        supportedFeatures? := if allowsOptionalFields parameter then some 1 else none
        files := headers.map fun h =>
          { name? := some h.name, insertionPoint? := none, content? := some h.content } } := by
  refine ⟨fun r => decode_encode, fun r s => encode_inj, fun parameter headers hsize => ?_⟩
  exact decode_encode hsize

/-- Texts of all lengths, with the absent ones beside the empty ones. -/
def mixed : Response where
  error? := ""
  supportedFeatures? := some 0xffffffffffffffff
  files := [{ name? := "ä.h", content? := String.ofList (List.replicate 130 'é') }, {},
    { name? := "", insertionPoint? := "" }]

theorem encode_lossless_mixed :
    decode mixed.encode = .ok mixed ∧ mixed.encode ≠ { mixed with error? := none }.encode ∧
    decode (ofHeaders "" [⟨"a.h", "", 0⟩]).encode =
      .ok { files := [{ name? := "a.h", content? := "" }] } := by
  have hmixed : mixed.encode.length < UInt64.size := by decide +kernel
  have hheader : (ofHeaders "" [⟨"a.h", "", 0⟩]).encode.length < UInt64.size := by decide +kernel
  obtain ⟨hread, hdistinct, hheaders⟩ := encode_lossless
  refine ⟨hread mixed hmixed, fun h => ?_, hheaders "" [⟨"a.h", "", 0⟩] hheader⟩
  have herror := congrArg Response.error? (hdistinct _ _ h)
  cases herror

end Response

end SchemaHeader
