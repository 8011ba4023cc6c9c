import SchemaHeader.Disk
import SchemaHeader.Generation

/-! The headers of a descriptor set as files below a directory. All destinations are settled
before the first of them is written. -/
namespace SchemaHeader

/-- Why a batch is refused, or why it came to an end while it was being written. -/
inductive Refusal where
  | noSet (set : String)
  | undecodable (set : String) (fault : Wire.Fault)
  | notInSet (set name : String)
  | illTyped (log : Log)
  | escapes (name : String)
  | occupied (destination : String)
  | cannotCreate (directory name : String) (fault : DiskFault)
  | cannotWrite (destination : String) (fault : DiskFault)
  deriving DecidableEq

namespace Refusal

def text : Refusal → String
  | .noSet set => "Descriptor set does not exist: " ++ set
  | .undecodable set fault =>
    "Failed to decode descriptor set: " ++ set ++ ": " ++ (Failure.undecodable fault).text ++
      ": " ++ fault.text
  | .notInSet set name => name ++ " is not part of " ++ set
  | .illTyped log => (Failure.illTyped log).text
  | .escapes name => "path traversal detected: '" ++ name ++ "' would escape output directory"
  | .occupied destination => destination ++ " already exists, pass --force to replace it"
  | .cannotCreate directory name fault =>
    "Cannot create " ++ directory ++ " for " ++ name ++ ": " ++ fault.text
  | .cannotWrite destination fault => "Cannot write " ++ destination ++ ": " ++ fault.text

def diagnostics : Refusal → List Diagnostic
  | .illTyped log => log.entries
  | _ => []

end Refusal

/-- A header and the path of the file that it goes to. -/
structure Placement where
  destination : String
  header : Header
  deriving DecidableEq

namespace Batch

/-- The headers that the descriptor set holds, or of the files listed in `names` alone. Every
name listed has to be that of a file in the set. -/
def headers (style : Dialect) (set : String) (bytes : List UInt8) (names : List String)
    (parameter? : Option String) : Except Refusal (List Header) := do
  let descriptors ← (DescriptorSet.decode bytes).mapError (.undecodable set)
  match names.find? fun name => !descriptors.files.any (·.name == name) with
  | some name => .error (.notInSet set name)
  | none => (style.headers (descriptors.request names parameter?)).mapError .illTyped

/-- A name that does not stay below the directory it is put in. -/
def escapes (name : String) : Bool :=
  let path := Path.ofText name
  name.isEmpty || path.rooted || path.segments.contains ".."

/-- The path of `name` in `directory`, which may end in a slash. -/
def destination (directory name : String) : String :=
  if directory.toList.getLast? = some '/' then directory ++ name else directory ++ "/" ++ name

/-- Finds a destination for each header in turn; unless `force` is given it has to be free. -/
def plan (directory : String) (force : Bool) (isOccupied : String → Bool) :
    List Header → Except Refusal (List Placement)
  | [] => .ok []
  | header :: rest =>
    if escapes header.name then .error (.escapes header.name)
    else
      let path := destination directory header.name
      if !force && isOccupied path then .error (.occupied path)
      else do
        let placements ← plan directory force isOccupied rest
        return ⟨path, header⟩ :: placements

end Batch

namespace FileCalls

variable {m : Type → Type} [Monad m] [FileCalls m]

/-- Makes the directories that a header goes into. -/
def makeWay (p : Placement) : m (Option Refusal) := do
  match (Path.ofText p.destination).parent? with
  | some parent =>
    let fault? ← makeDirectories parent
    return fault?.map (.cannotCreate parent.text p.header.name)
  | none => return none

/-- Writes one header, after the directories it goes into. -/
def store (p : Placement) : m (Option Refusal) := do
  match ← makeWay p with
  | some refusal => return some refusal
  | none =>
    match ← writeFile (Path.ofText p.destination) (Text.utf8Bytes p.header.content) with
    | .ok () => return none
    | .error fault => return some (.cannotWrite p.destination fault)

/-- Writes headers until one fails, and says which ones were written. -/
def storeAll : List Placement → m (List Placement × Option Refusal)
  | [] => return ([], none)
  | p :: rest => do
    match ← store p with
    | some refusal => return ([], some refusal)
    | none =>
      let (written, refusal?) ← storeAll rest
      return (p :: written, refusal?)

end FileCalls

namespace Batch

/-- The disk after one header was written to it. -/
def store (p : Placement) (disk : Disk) : Disk × Option Refusal :=
  ((FileCalls.store p : StateM Disk (Option Refusal)).run disk).swap

/-- The disk after headers were written to it until one failed. -/
def storeAll (placements : List Placement) (disk : Disk) :
    Disk × List Placement × Option Refusal :=
  ((FileCalls.storeAll placements : StateM Disk (List Placement × Option Refusal)).run disk).swap

end Batch

end SchemaHeader
