import SchemaHeader.Descriptor.Record
import SchemaHeader.Descriptor.Shape
import SchemaHeader.Wire.Decode
import SchemaHeader.Wire.Encode

/-! Requests for headers, and the descriptor sets that can stand in for one. -/
namespace SchemaHeader

open Wire (Record Value)

structure Version where
  major? : Option Int32 := none
  minor? : Option Int32 := none
  patch? : Option Int32 := none
  suffix? : Option String := none
  deriving DecidableEq

/-- The files that headers are wanted for go by name; the descriptors may hold more files. -/
structure Request where
  wanted : List String := []
  parameter? : Option String := none
  compilerVersion? : Option Version := none
  files : List FileDescriptor := []

structure DescriptorSet where
  files : List FileDescriptor := []

namespace Version

def ofRecord (r : Record) : Version where
  major? := r.last? 1 Value.int32?
  minor? := r.last? 2 Value.int32?
  patch? := r.last? 3 Value.int32?
  suffix? := r.last? 4 Value.text?

def toRecord (v : Version) : Record :=
  .single 1 .int32 v.major? ++ .single 2 .int32 v.minor? ++ .single 3 .int32 v.patch? ++
    .single 4 .text v.suffix?

end Version

namespace Request

def parameter (r : Request) : String := r.parameter?.getD ""

def wants (r : Request) (fileName : String) : Bool := r.wanted.contains fileName

def ofRecord (r : Record) : Request where
  wanted := r.all 1 Value.text?
  parameter? := r.last? 2 Value.text?
  compilerVersion? := (r.merged? 3).map Version.ofRecord
  files := (r.all 15 Value.message?).map FileDescriptor.ofRecord

def toRecord (r : Request) : Record :=
  .each 1 .text r.wanted ++ .single 2 .text r.parameter? ++
    .single 3 (.message ·.toRecord) r.compilerVersion? ++ .each 15 (.message ·.toRecord) r.files

def decode (bytes : List UInt8) : Except Wire.Fault Request :=
  ofRecord <$> Wire.decode schemaGrammar .request bytes

def encode (r : Request) : List UInt8 := Wire.encode r.toRecord

end Request

namespace DescriptorSet

def ofRecord (r : Record) : DescriptorSet where
  files := (r.all 1 Value.message?).map FileDescriptor.ofRecord

def toRecord (s : DescriptorSet) : Record := .each 1 (.message ·.toRecord) s.files

def decode (bytes : List UInt8) : Except Wire.Fault DescriptorSet :=
  ofRecord <$> Wire.decode schemaGrammar .fileSet bytes

def encode (s : DescriptorSet) : List UInt8 := Wire.encode s.toRecord

/-- The request for the files of the set that `names` lists, or for all of them when it lists
none. -/
def request (s : DescriptorSet) (names : List String) (parameter? : Option String) : Request where
  wanted := if names.isEmpty then s.files.map FileDescriptor.name else names
  parameter? := parameter?
  files := s.files

end DescriptorSet

end SchemaHeader
