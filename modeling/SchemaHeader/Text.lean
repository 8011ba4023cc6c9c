/-! Texts as bytes, cut at delimiters, as hexadecimal digits and as names of constants. -/
namespace SchemaHeader.Text

section Bytes

def utf8Bytes (s : String) : List UInt8 :=
  s.toByteArray.data.toList

/-- The text that the bytes encode; overlong forms, surrogates and code points past the last one
are refused. -/
def ofUtf8Bytes? (bytes : List UInt8) : Option String :=
  String.fromUTF8? ⟨bytes.toArray⟩

/-- A text is read back from its bytes. -/
theorem ofUtf8Bytes?_utf8Bytes (s : String) : ofUtf8Bytes? (utf8Bytes s) = some s := by
  simp [ofUtf8Bytes?, utf8Bytes, String.fromUTF8?, s.isValidUTF8, String.fromUTF8]

end Bytes

section Pieces

variable (s : String)

/-- The pieces of `s` between the delimiters, without the empty ones. -/
def segments (delimiter : Char) : List String :=
  ((s.toList.splitOn delimiter).filter (!·.isEmpty)).map String.ofList

def replaceChar (old new : Char) : String :=
  String.ofList (s.toList.map fun c => if c = old then new else c)

/-- What follows `lead` in `s`; all of `s` where it does not begin with `lead`. -/
def afterLead (lead : String) : String :=
  (lead.toList.isPrefixOf? s.toList).elim s String.ofList

/-- `word` stands somewhere in the text. -/
def occurs (word : List Char) : List Char → Bool
  | [] => word.isEmpty
  | c :: rest => word.isPrefixOf (c :: rest) || occurs word rest

end Pieces

section Hex

def hexDigit (n : Nat) : Char :=
  Char.ofNat (if n < 10 then 48 + n else 87 + n)

/-- The last `width` digits of `n`, the most significant first. -/
def hexDigits : (width n : Nat) → List Char
  | 0, _ => []
  | width + 1, n => hexDigits width (n / 16) ++ [hexDigit (n % 16)]

/-- The value of a lower-case digit. -/
def hexValue? (c : Char) : Option Nat :=
  if '0' ≤ c ∧ c ≤ '9' then some (c.toNat - 48)
  else if 'a' ≤ c ∧ c ≤ 'f' then some (c.toNat - 87)
  else none

/-- The number that lower-case digits write, the most significant first. -/
def ofHexDigits? (digits : List Char) : Option Nat :=
  digits.foldlM (fun n c => (hexValue? c).map (16 * n + ·)) 0

end Hex

section Constants

/-- Of the ASCII letters and underscores read so far the last one is a lower-case letter.
Other characters leave the answer as it was. -/
def endsLower (before : Bool) (c : Char) : Bool :=
  if c.isLower then true else if c.isUpper || c = '_' then false else before

/-- An underscore goes before each capital that ends a run begun by a lower-case letter. -/
def constantChars : Bool → List Char → List Char
  | _, [] => []
  | lower, c :: rest =>
    (if lower && c.isUpper then ['_', c] else [c.toUpper]) ++ constantChars (endsLower lower c) rest

/-- The name of the constant for `name`; only ASCII letters count as letters. -/
def constantName (name : String) : String :=
  String.ofList (constantChars false name.toList)

end Constants

end SchemaHeader.Text
