import SchemaHeader.Disk.Path

/-! Directories and files, and what can go wrong when a path leads through them. There are no
links, so a place has one way to it. -/
namespace SchemaHeader

/-- A place in the tree of directories: the names on the way to it, the last one first. -/
abbrev Place := List String

inductive Node where
  | directory
  | file (bytes : List UInt8)
  deriving DecidableEq

/-- All that there is below the root, and the place that paths start from. -/
structure Disk where
  entries : List (Place × Node) := []
  current : Place := []

inductive DiskFault where
  | notFound
  | alreadyExists
  | notDirectory
  | isDirectory
  | nameTooLong
  /-- No path can hold a NUL, so this is found before the disk is asked. -/
  | nulByte
  /-- Anything else that a real disk reports, such as a lack of permission or of room. -/
  | other (report : String)
  deriving DecidableEq

def DiskFault.text : DiskFault → String
  | .notFound => "No such file or directory (os error 2)"
  | .alreadyExists => "File exists (os error 17)"
  | .notDirectory => "Not a directory (os error 20)"
  | .isDirectory => "Is a directory (os error 21)"
  | .nameTooLong => "File name too long (os error 36)"
  | .nulByte => "file name contained an unexpected NUL byte"
  | .other report => report

namespace Disk

/-- The bytes that one name can have. -/
def nameLimit : Nat := 255

/-- The bytes that a whole path can have. -/
def pathLimit : Nat := 4095

variable (disk : Disk)

def node? : Place → Option Node
  | [] => some .directory
  | place => disk.entries.lookup place

def put (place : Place) (node : Node) : Disk :=
  { disk with entries := (place, node) :: disk.entries.filter (·.1 != place) }

/-- Where one segment leads from a place. -/
def step (place : Place) (segment : String) : Except DiskFault Place :=
  if disk.node? place != some .directory then .error .notDirectory
  else if Path.isIdle segment then .ok place
  else if segment = ".." then .ok place.tail
  else if segment.utf8ByteSize > nameLimit then .error .nameTooLong
  else if (disk.node? (segment :: place)).isNone then .error .notFound
  else .ok (segment :: place)

/-- What is wrong with the path as a text. -/
def checked (p : Path) : Except DiskFault Unit :=
  if p.text.toList.contains '\x00' then .error .nulByte
  else if p.text.isEmpty then .error .notFound
  else if p.text.utf8ByteSize > pathLimit then .error .nameTooLong
  else .ok ()

def start (p : Path) : Place := if p.rooted then [] else disk.current

/-- The place of something that exists. -/
def find (p : Path) : Except DiskFault Place := do
  checked p
  p.segments.foldlM disk.step (disk.start p)

/-- The directory and the name that the path leads to; no name where it ends in a step that
leads to no new place. -/
def findLast (p : Path) : Except DiskFault (Place × Option String) := do
  checked p
  let place ← p.segments.dropLast.foldlM disk.step (disk.start p)
  if disk.node? place != some .directory then .error .notDirectory
  else match p.segments.getLast? with
    | none => .ok (place, none)
    | some name =>
      if Path.isIdle name || name = ".." then .ok (place, none)
      else if name.utf8ByteSize > nameLimit then .error .nameTooLong
      else .ok (place, some name)

def nodeAt? (p : Path) : Option Node :=
  match disk.find p with
  | .ok place => disk.node? place
  | .error _ => none

def isOccupied (p : Path) : Bool := (disk.nodeAt? p).isSome

def isDirectory (p : Path) : Bool := disk.nodeAt? p == some .directory

def file? (p : Path) : Option (List UInt8) :=
  match disk.nodeAt? p with
  | some (.file bytes) => some bytes
  | _ => none

/-- Adds one directory where there is nothing yet. -/
def makeDirectory (p : Path) : Except DiskFault Disk := do
  match ← disk.findLast p with
  | (_, none) => .error .alreadyExists
  | (place, some name) =>
    if (disk.node? (name :: place)).isSome then .error .alreadyExists
    else .ok (disk.put (name :: place) .directory)

/-- Replaces what a file holds, or adds a file. -/
def writeFile (p : Path) (bytes : List UInt8) : Except DiskFault Disk := do
  match ← disk.findLast p with
  | (_, none) => .error .isDirectory
  | (place, some name) =>
    if disk.node? (name :: place) = some .directory then .error .isDirectory
    else .ok (disk.put (name :: place) (.file bytes))

/-- Makes a change to the disk. One that fails leaves it as it was. -/
def attempt (change : Disk → Except DiskFault Disk) : StateM Disk (Except DiskFault Unit) :=
  fun disk =>
    match change disk with
    | .ok later => (.ok (), later)
    | .error fault => (.error fault, disk)

end Disk

/-- What the program asks of a disk. The program is written against these calls alone, so that
the same definitions run on a real disk and on one that is a value. -/
class FileCalls (m : Type → Type) where
  /-- What the file at the path holds, if there is one. -/
  file? (p : Path) : m (Option (List UInt8))
  isOccupied (p : Path) : m Bool
  isDirectory (p : Path) : m Bool
  makeDirectory (p : Path) : m (Except DiskFault Unit)
  writeFile (p : Path) (bytes : List UInt8) : m (Except DiskFault Unit)

instance : FileCalls (StateM Disk) where
  file? p := return (← get).file? p
  isOccupied p := return (← get).isOccupied p
  isDirectory p := return (← get).isDirectory p
  makeDirectory p := Disk.attempt (·.makeDirectory p)
  writeFile p bytes := Disk.attempt (·.writeFile p bytes)

/-- Adds the directory and those above it that are missing. What was added before something
went wrong stays. -/
def FileCalls.makeDirectories {m : Type → Type} [Monad m] [FileCalls m] (p : Path) :
    m (Option DiskFault) := do
  if p.text.isEmpty then return none
  match ← makeDirectory p with
  | .ok () => return none
  | .error .notFound =>
    match _h : p.parent? with
    | none => return some .notFound
    | some parent =>
      match ← makeDirectories parent with
      | some fault => return some fault
      | none =>
        match ← makeDirectory p with
        | .ok () => return none
        | .error fault => return if ← isDirectory p then none else some fault
  | .error fault => return if ← isDirectory p then none else some fault
termination_by p.segments.length
decreasing_by exact Path.length_lt_of_parent? _h

/-- The disk with the directories of the path, as far as they can be added to it. -/
def Disk.makeDirectories (p : Path) (disk : Disk) : Disk × Option DiskFault :=
  ((FileCalls.makeDirectories p : StateM Disk (Option DiskFault)).run disk).swap

end SchemaHeader
