import SchemaHeader.Diagnostic

/-! Headers, the settings that they are made with, and a header in the making with the small steps
that add to it. -/
namespace SchemaHeader

/-- The settings that differ between one style of header and another. -/
structure Dialect where
  indent : String := "    "
  fileSuffix : String := ".h"
  guardLead : String := "ANDROID_"
  guardSuffix : String := "_stream_h"
  deriving DecidableEq

/-- How many elements of each kind went into a header. -/
structure Tally where
  messages : Nat := 0
  enums : Nat := 0
  fields : Nat := 0
  deriving DecidableEq

instance : Zero Tally := ⟨{}⟩

instance : Add Tally :=
  ⟨fun a b => ⟨a.messages + b.messages, a.enums + b.enums, a.fields + b.fields⟩⟩

structure Header where
  name : String
  content : String
  tally : Tally
  deriving DecidableEq

/-- The name of the program that writes the headers; the banner of each one shows it. -/
def generatorName : String := "protoc-gen-cppstream"

/-- `level` units, one after the other. -/
def indentation (unit : String) : (level : Nat) → String
  | 0 => ""
  | level + 1 => unit ++ indentation unit level

/-- What has been written so far, at which level the next line goes, and what was counted and
recorded on the way. The unit of indentation and the file's name never change. -/
structure Draft where
  indentUnit : String
  fileName : String
  text : String := ""
  level : Nat := 0
  tally : Tally := 0
  log : Log := {}

namespace Draft

def line (s : String) (d : Draft) : Draft :=
  { d with text := d.text ++ indentation d.indentUnit d.level ++ s ++ "\n" }

def lines (texts : List String) (d : Draft) : Draft :=
  texts.foldl (fun d s => d.line s) d

/-- A blank line is not indented. -/
def blank (d : Draft) : Draft :=
  { d with text := d.text ++ "\n" }

def deeper (d : Draft) : Draft :=
  { d with level := d.level + 1 }

def shallower (d : Draft) : Draft :=
  { d with level := d.level - 1 }

def atLevel (level : Nat) (d : Draft) : Draft :=
  { d with level := level }

def count (what : Tally) (d : Draft) : Draft :=
  { d with tally := d.tally + what }

def report (problem : Diagnostic) (d : Draft) : Draft :=
  { d with log := d.log.add problem }

end Draft

end SchemaHeader
