import SchemaHeader.Batch
import SchemaHeader.CommandLine.Options

/-! What a call of the program does: what it prints, how it ends and what becomes of the disk. -/
namespace SchemaHeader.CommandLine

/-- How a run ends. After a misuse nothing was done. -/
inductive Exit where
  | success
  | failure
  | misuse (m : Misuse)
  deriving DecidableEq

def Exit.code : Exit → Nat
  | .success => 0
  | .failure => 1
  | .misuse _ => 2

structure Report where
  exit : Exit
  output : List UInt8 := []
  /-- The lines on the error stream. -/
  errors : List String := []

/-- The lines as they are printed. -/
def printed (lines : List String) : List UInt8 :=
  Text.utf8Bytes (String.join (lines.map (· ++ "\n")))

/-- Every diagnostic has a line of its own, and the reason for the failure has the last one. -/
def errorLines (diagnostics : List Diagnostic) (reason : String) : List String :=
  diagnostics.map (·.text) ++ ["error: " ++ reason]

/-- The fault of an undecodable request is named a second time as the cause of the failure. -/
def failureReason : Failure → String
  | .undecodable fault => (Failure.undecodable fault).text ++ ": " ++ fault.text
  | failure => failure.text

def refused (written : List Placement) (r : Refusal) : Report where
  exit := .failure
  output := printed (written.map fun p => "Wrote " ++ p.destination)
  errors := errorLines r.diagnostics r.text

/-- Answers the request on the input. -/
def answer (style : Dialect) (input : List UInt8) : Report :=
  match style.answer input with
  | .ok bytes => { exit := .success, output := bytes }
  | .error failure =>
    { exit := .failure, errors := errorLines failure.diagnostics (failureReason failure) }

/-- What a dry run prints for a header. -/
def previewLines (verbose : Bool) (p : Placement) : List String :=
  ("Would write: " ++ p.destination) ::
    if verbose then ["---", p.header.content, "---"] else []

/-- The headers that the options ask for. `setBytes?` is what the file of the set holds. -/
def chosenHeaders (style : Dialect) (options : Options) (set : String) :
    (setBytes? : Option (List UInt8)) → Except Refusal (List Header)
  | none => .error (.noSet set)
  | some bytes => Batch.headers style set bytes options.files options.parameter?

def preview (options : Options) (placements : List Placement) : Report where
  exit := .success
  output := printed (placements.flatMap (previewLines (0 < options.verbosity)))

def stored (written : List Placement) : Option Refusal → Report
  | some refusal => refused written refusal
  | none =>
    { exit := .success, output := printed (written.map fun p => "Wrote " ++ p.destination) }

def version : String := "0.1.0"

def versionLine : String := generatorName ++ " " ++ version

def usageLine : String :=
  "Usage: " ++ generatorName ++ " [--descriptor-set FILE [-o DIR] [-f NAME]... " ++
    "[--parameter TEXT] [--dry-run] [--force]] [-v]..."

section Calls

variable {m : Type → Type} [Monad m] [FileCalls m]

/-- Writes the headers of the set, or in a dry run only says where they would go. -/
def writingHeaders (style : Dialect) (options : Options) (set : String) : m Report := do
  match chosenHeaders style options set (← FileCalls.file? (Path.ofText set)) with
  | .error refusal => return refused [] refusal
  | .ok headers =>
    let paths := headers.map fun h => Batch.destination options.output h.name
    let taken ← paths.filterM fun path => FileCalls.isOccupied (Path.ofText path)
    match Batch.plan options.output options.force taken.contains headers with
    | .error refusal => return refused [] refusal
    | .ok placements =>
      if options.dryRun then return preview options placements
      let (written, refusal?) ← FileCalls.storeAll placements
      return stored written refusal?

/-- The program as calls of the file system. It asks for its input only when there is no set. -/
def program (arguments : List String) (input : m (List UInt8)) : m Report := do
  match parse arguments with
  | .error misuse =>
    return { exit := .misuse misuse, errors := ["error: " ++ misuse.text, usageLine] }
  | .ok .showVersion => return { exit := .success, output := printed [versionLine] }
  | .ok .showUsage => return { exit := .success, output := printed [usageLine] }
  | .ok (.run options) =>
    match options.descriptorSet? with
    | some set => writingHeaders {} options set
    | none => return answer {} (← input)

end Calls

def writeHeaders (style : Dialect) (options : Options) (set : String) (disk : Disk) :
    Report × Disk :=
  (writingHeaders style options set : StateM Disk Report).run disk

/-- The program as a function of its arguments, its input and the disk. -/
def run (arguments : List String) (input : List UInt8) (disk : Disk) : Report × Disk :=
  (program arguments (pure input) : StateM Disk Report).run disk

end SchemaHeader.CommandLine
