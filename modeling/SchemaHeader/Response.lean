import SchemaHeader.Descriptor.Record
import SchemaHeader.Descriptor.Shape
import SchemaHeader.Header
import SchemaHeader.Text
import SchemaHeader.Wire.Decode
import SchemaHeader.Wire.Encode

/-! The answer to a request: one file for each header. -/
namespace SchemaHeader

open Wire (Record Value)

structure ResponseFile where
  name? : Option String := none
  insertionPoint? : Option String := none
  content? : Option String := none
  deriving DecidableEq

structure Response where
  error? : Option String := none
  supportedFeatures? : Option UInt64 := none
  files : List ResponseFile := []
  deriving DecidableEq

namespace ResponseFile

def ofHeader (h : Header) : ResponseFile where
  name? := some h.name
  content? := some h.content

def ofRecord (r : Record) : ResponseFile where
  name? := r.last? 1 Value.text?
  insertionPoint? := r.last? 2 Value.text?
  content? := r.last? 15 Value.text?

def toRecord (f : ResponseFile) : Record :=
  .single 1 .text f.name? ++ .single 2 .text f.insertionPoint? ++ .single 15 .text f.content?

end ResponseFile

/-- The word in a request's parameter that asks for optional fields in newer schemas. -/
def optionalFieldsWord : String := "experimental_allow_proto3_optional"

/-- The word may stand anywhere in the parameter. -/
def allowsOptionalFields (parameter : String) : Bool :=
  Text.occurs optionalFieldsWord.toList parameter.toList

namespace Response

/-- The feature flag for optional fields. -/
def optionalFieldsFeature : UInt64 := 1

def ofHeaders (parameter : String) (headers : List Header) : Response where
  supportedFeatures? := if allowsOptionalFields parameter then some optionalFieldsFeature else none
  files := headers.map ResponseFile.ofHeader

def ofRecord (r : Record) : Response where
  error? := r.last? 1 Value.text?
  supportedFeatures? := r.last? 2 Value.word?
  files := (r.all 15 Value.message?).map ResponseFile.ofRecord

def toRecord (r : Response) : Record :=
  .single 1 .text r.error? ++ .single 2 .word r.supportedFeatures? ++
    .each 15 (.message ·.toRecord) r.files

def decode (bytes : List UInt8) : Except Wire.Fault Response :=
  ofRecord <$> Wire.decode schemaGrammar .response bytes

def encode (r : Response) : List UInt8 := Wire.encode r.toRecord

end Response

end SchemaHeader
