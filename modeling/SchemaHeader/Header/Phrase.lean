import SchemaHeader.FieldId
import SchemaHeader.Header
import SchemaHeader.Text

/-! The wording of single lines of a header. -/
namespace SchemaHeader

open Text (constantName)

/-- The macro that keeps a header from being read twice. -/
def Dialect.guard (style : Dialect) (fileName : String) : String :=
  constantName (Text.replaceChar (Text.replaceChar (style.guardLead ++ fileName) '/' '_') '.' '_'
    ++ style.guardSuffix)

def Dialect.headerName (style : Dialect) (fileName : String) : String :=
  fileName ++ style.fileSuffix

namespace Phrase

def scopeOpening (name : String) : String := "namespace " ++ name ++ " \x7b"

def packageClosing (name : String) : String := "\x7d // " ++ name

def messageClosing (name : String) : String := "\x7d //" ++ name

def intConstant (name value : String) : String := "const int " ++ name ++ " = " ++ value ++ ";"

/-- The first line of a table with `count` entries. -/
def tableOpening (type name : String) (count : Nat) : String :=
  "static const " ++ type ++ " " ++ name ++ "[" ++ toString count ++ "] = \x7b"

def tableClosing : String := "\x7d;"

def quoted (name : String) : String := "\"" ++ name ++ "\","

def listed (name : String) : String := name ++ ","

def label : Label → String
  | .optional => "optional "
  | .repeated => "repeated "
  | .required => ""

/-- The type of a field as its schema words it. -/
def typeOf (f : FieldDescriptor) : String :=
  match f.declaredType? with
  | some .message => f.typeName
  | some .enum => f.typeName
  | some .group => "group<" ++ f.typeName ++ ">"
  | some scalar => scalar.keyword
  | none => "unknown"

def fieldComment (f : FieldDescriptor) : String :=
  "// " ++ label f.label ++ typeOf f ++ " " ++ f.name ++ " = " ++ toString f.number ++
    (if f.cardinality = .packed then " [packed=true]" else "") ++ ";"

def fieldConstant (f : FieldDescriptor) (id : FieldId) : String :=
  "const uint64_t " ++ constantName f.name ++ " = " ++ id.literal ++ ";"

/-- The name that the tables of an enum begin with. -/
def enumTable (e : EnumDescriptor) : String := "_ENUM_" ++ constantName e.name

/-- The name of a value in the enum's table of names: without the enum's own name in front. -/
def shortName (e : EnumDescriptor) (v : EnumValue) : String :=
  Text.afterLead v.name (constantName e.name ++ "_")

end Phrase

end SchemaHeader
