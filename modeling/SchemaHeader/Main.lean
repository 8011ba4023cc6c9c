import SchemaHeader.CommandLine.Run

/-! The program on a real disk. -/
namespace SchemaHeader.CommandLine

/-- The numbers are those that the system gives to these faults. -/
def faultOf : IO.Error → DiskFault
  | .noFileOrDirectory .. => .notFound
  | .alreadyExists .. => .alreadyExists
  | .inappropriateType _ 20 _ => .notDirectory
  | .inappropriateType _ 21 _ => .isDirectory
  | .invalidArgument _ 36 _ => .nameTooLong
  | e => .other (toString e)

/-- Carries out an action on the path, unless no disk could take the path. -/
def attempt {α : Type} (p : Path) (action : IO α) : IO (Except DiskFault α) := do
  match Disk.checked p with
  | .error fault => return .error fault
  | .ok () => return (← action.toBaseIO).mapError faultOf

def isThere (p : Path) (text : String) : IO Bool :=
  Except.isOk <$> attempt p (IO.FS.realPath text)

/-- A path that goes on after a directory exists only if the directory does. -/
instance : FileCalls IO where
  file? p := do
    let bytes ← attempt p (IO.FS.readBinFile p.text)
    return bytes.toOption.map (·.data.toList)
  isOccupied p := isThere p p.text
  isDirectory p := isThere p (p.text ++ "/.")
  makeDirectory p := attempt p (IO.FS.createDir p.text)
  writeFile p bytes := attempt p (IO.FS.writeBinFile p.text ⟨bytes.toArray⟩)

end SchemaHeader.CommandLine

open SchemaHeader.CommandLine in
def main (arguments : List String) : IO UInt32 := do
  let report ← program arguments do return (← (← IO.getStdin).readBinToEnd).data.toList
  let output ← IO.getStdout
  output.write ⟨report.output.toArray⟩
  output.flush
  report.errors.forM fun line => IO.eprintln line
  return report.exit.code.toUInt32
