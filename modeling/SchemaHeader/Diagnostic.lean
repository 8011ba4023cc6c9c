import SchemaHeader.Descriptor

/-! What is found wrong with a schema while its header is made. -/
namespace SchemaHeader

structure Diagnostic where
  file : String
  element : String
  message : String
  deriving DecidableEq

def Diagnostic.text (d : Diagnostic) : String :=
  d.file ++ ": " ++ d.element ++ ": " ++ d.message

/-- The path of `name` inside `scope`. -/
def qualify (scope name : String) : String :=
  if scope.isEmpty then name else scope ++ "." ++ name

/-- A field of the message at `path` has no known type. -/
def Diagnostic.unknownType (file path : String) (f : FieldDescriptor) : Diagnostic where
  file := file
  element := qualify path f.name
  message := "unknown field type (" ++ f.type?.elim "missing" (toString ·) ++ ")"

/-- Diagnostics in the order in which they were recorded. -/
structure Log where
  entries : List Diagnostic := []
  deriving DecidableEq

namespace Log

def add (log : Log) (d : Diagnostic) : Log := ⟨log.entries ++ [d]⟩

def isEmpty (log : Log) : Bool := log.entries.isEmpty

def size (log : Log) : Nat := log.entries.length

/-- The log itself is the failure when anything was recorded. -/
def toExcept (log : Log) : Except Log Unit :=
  if log.isEmpty then .ok () else .error log

end Log

end SchemaHeader
