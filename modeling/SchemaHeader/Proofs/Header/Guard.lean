import SchemaHeader.Header.Phrase
import SchemaHeader.Proofs.Text.ConstantName

/-! The macro that guards a header, told by the pieces of the file's name, and the file names for
which it is one. -/
namespace SchemaHeader

open Text (constantName replaceChar)

namespace Text

/-- The pieces of `s` between the characters at which it is cut, with the empty ones. -/
def pieces (isCut : Char → Bool) (s : String) : List String :=
  (s.toList.splitOnP isCut).map String.ofList

/-- What ends a piece of a file's name. -/
def endsPiece (c : Char) : Bool := c = '/' || c = '.'

def isMacroChar (c : Char) : Bool := c.isUpper || c.isDigit || c = '_'

/-- Capitals, digits and underscores, and no digit at the front; only ASCII counts. -/
def isMacroName (s : String) : Bool :=
  s.toList.all isMacroChar && !s.toList.head?.any (·.isDigit)

variable {a b s : String} {c : Char} {isCut : Char → Bool} {cs : List Char} {lower : Bool}

section Pieces

/-- Joined by a delimiter, the pieces are the text with the delimiter at each cut. -/
theorem intercalate_splitOnP (delimiter : Char) (cs : List Char) :
    [delimiter].intercalate (cs.splitOnP isCut) =
      cs.map fun c => if isCut c then delimiter else c := by
  induction cs with
  | nil => rfl
  | cons c rest ih =>
    obtain ⟨first, more, hsplit⟩ := List.exists_cons_of_ne_nil (List.splitOnP_ne_nil isCut rest)
    rw [List.splitOnP_cons_eq_if_modifyHead, List.map_cons, ← ih, hsplit]
    by_cases hc : isCut c
    · simp [hc]
    · cases more with
      | nil => simp [hc]
      | cons second more => simp [hc]

/-- The pieces of a text joined by underscores are the text with its cuts replaced. -/
theorem intercalate_pieces (s : String) : "_".intercalate (pieces endsPiece s) =
    replaceChar (replaceChar s '/' '_') '.' '_' := by
  have hboth (c : Char) : (if (if c = '/' then '_' else c) = '.' then '_'
      else if c = '/' then '_' else c) = if endsPiece c then '_' else c := by
    by_cases hslash : c = '/'
    · simp [hslash, endsPiece]
    · simp [hslash, endsPiece]
  apply String.toList_injective
  simp [pieces, replaceChar, Function.comp_def, hboth, ← intercalate_splitOnP]

theorem replaceChar_append (old new : Char) :
    replaceChar (a ++ b) old new = replaceChar a old new ++ replaceChar b old new := by
  apply String.toList_injective
  simp [replaceChar]

end Pieces

section Underscore

/-- A text that ends in an underscore does not affect the name of what follows. -/
theorem constantName_append_of_getLast? (h : a.toList.getLast? = some '_') :
    constantName (a ++ b) = constantName a ++ constantName b := by
  have ha : a.toList.dropLast ++ ['_'] = a.toList := List.dropLast_append_getLast? _ h
  apply String.toList_injective
  rw [constantName, constantName, constantName, String.toList_append, ← ha, List.append_assoc]
  simp [constantChars_append_underscore, constantChars]

theorem constantName_append_of_head? (h : b.toList.head? = some '_') :
    constantName (a ++ b) = constantName a ++ constantName b := by
  obtain ⟨rest, hb⟩ := List.head?_eq_some_iff.mp h
  apply String.toList_injective
  simp [constantName, hb, constantChars_append_underscore, constantChars, endsLower]

end Underscore

section Macro

theorem isMacroChar_toUpper (c : Char) : isMacroChar c.toUpper = isNameChar c := by
  obtain ⟨hlower, hupper⟩ | ⟨hlower, hsame⟩ := toUpper_cases c
  · simp [isMacroChar, isNameChar, Char.isAlphanum, isAlpha_eq, hlower, hupper]
  · rw [hsame]
    simp [isMacroChar, isNameChar, Char.isAlphanum, isAlpha_eq, hlower]

theorem all_constantChars : (constantChars lower cs).all isMacroChar = cs.all isNameChar := by
  induction cs generalizing lower with
  | nil => rfl
  | cons c rest ih =>
    rw [constantChars, List.all_append, ih, List.all_cons, ← isMacroChar_toUpper c]
    split
    · next hbreak =>
      rw [Bool.and_eq_true] at hbreak
      rw [toUpper_of_isUpper hbreak.2]
      simp [isMacroChar]
    · simp

/-- What cannot stand in a macro is neither added nor taken away. -/
theorem all_constantName (s : String) :
    (constantName s).toList.all isMacroChar = s.toList.all isNameChar := by
  rw [constantName, String.toList_ofList, all_constantChars]

theorem all_intercalate_pieces : ("_".intercalate (pieces endsPiece s)).toList.all isNameChar ↔
    ∀ c ∈ s.toList, isNameChar c ∨ endsPiece c := by
  have hchar (c : Char) : isNameChar (if endsPiece c then '_' else c) ↔
      isNameChar c ∨ endsPiece c := by
    by_cases hc : endsPiece c
    · simp [hc, isNameChar]
    · simp [hc]
  simp [pieces, Function.comp_def, intercalate_splitOnP, hchar]

end Macro

end Text

namespace Dialect

variable (style : Dialect) (fileName : String)

/-- The text that the guard is the constant name of. -/
theorem guard_eq : style.guard fileName = constantName
    (replaceChar (replaceChar style.guardLead '/' '_') '.' '_' ++
      "_".intercalate (Text.pieces Text.endsPiece fileName) ++ style.guardSuffix) := by
  rw [guard, Text.replaceChar_append, Text.replaceChar_append, Text.intercalate_pieces]

/-- Between underscores each piece of a guard is named by itself. -/
theorem guard_eq_append (hlead : style.guardLead.toList.getLast? = some '_')
    (hsuffix : style.guardSuffix.toList.head? = some '_') : style.guard fileName =
      constantName (replaceChar (replaceChar style.guardLead '/' '_') '.' '_') ++
        "_".intercalate ((Text.pieces Text.endsPiece fileName).map constantName) ++
        constantName style.guardSuffix := by
  have hclean : (replaceChar (replaceChar style.guardLead '/' '_') '.' '_').toList.getLast? =
      some '_' := by
    simp [replaceChar, hlead]
  rw [guard_eq, Text.constantName_append_of_head? hsuffix,
    Text.constantName_append_of_getLast? hclean, Text.constantName_intercalate]

theorem head?_guard : (({} : Dialect).guard fileName).toList.head? = some 'A' := by
  rw [guard_eq_append {} fileName rfl rfl, String.append_assoc, String.toList_append]
  rfl

theorem all_guard : (({} : Dialect).guard fileName).toList.all Text.isMacroChar ↔
    ∀ c ∈ fileName.toList, Text.isNameChar c ∨ Text.endsPiece c := by
  have hlead : (replaceChar (replaceChar "ANDROID_" '/' '_') '.' '_').toList.all
      Text.isNameChar := by decide
  have hsuffix : "_stream_h".toList.all Text.isNameChar := by decide
  rw [guard_eq, Text.all_constantName, String.toList_append, String.toList_append,
    List.all_append, List.all_append, hlead, hsuffix, Bool.true_and, Bool.and_true,
    Text.all_intercalate_pieces]

/-- Between affixes set off by underscores a guard has the constant names of the file name's pieces.
The default guard names a macro just when no other character is in the file's name. -/
theorem guard_by_pieces :
    (∀ (style : Dialect) (fileName : String), style.guardLead.toList.getLast? = some '_' →
      style.guardSuffix.toList.head? = some '_' → style.guard fileName =
        constantName (replaceChar (replaceChar style.guardLead '/' '_') '.' '_') ++
          "_".intercalate ((Text.pieces Text.endsPiece fileName).map constantName) ++
          constantName style.guardSuffix) ∧
    ∀ fileName : String, Text.isMacroName (({} : Dialect).guard fileName) ↔
      ∀ c ∈ fileName.toList, c.isAlpha ∨ c.isDigit ∨ c = '_' ∨ c = '/' ∨ c = '.' := by
  refine ⟨guard_eq_append, fun fileName => ?_⟩
  have hdigit : (!(({} : Dialect).guard fileName).toList.head?.any (·.isDigit)) = true := by
    rw [head?_guard]
    rfl
  rw [Text.isMacroName, hdigit, Bool.and_true, all_guard]
  simp [Text.isNameChar, Text.endsPiece, Char.isAlphanum, or_assoc]

theorem guard_by_pieces_custom :
    let style : Dialect := { guardLead := "v2./_", guardSuffix := "_endOf" }
    style.guardLead.toList.getLast? = some '_' ∧ style.guardSuffix.toList.head? = some '_' ∧
      style.guard "aB//c.Dx" = constantName "v2___" ++
        "_".intercalate (["aB", "", "c", "Dx"].map constantName) ++ constantName "_endOf" ∧
      ¬ Text.isMacroName (({} : Dialect).guard "a-b.proto") := by
  intro style
  have hlead : style.guardLead.toList.getLast? = some '_' := by decide
  have hsuffix : style.guardSuffix.toList.head? = some '_' := by decide
  have hclean : replaceChar (replaceChar style.guardLead '/' '_') '.' '_' = "v2___" := by decide
  have hpieces : Text.pieces Text.endsPiece "aB//c.Dx" = ["aB", "", "c", "Dx"] := by decide
  refine ⟨hlead, hsuffix, ?_, fun hname => ?_⟩
  · rw [guard_by_pieces.1 style "aB//c.Dx" hlead hsuffix, hclean, hpieces]
  · have hdash := (guard_by_pieces.2 "a-b.proto").mp hname '-' (by decide)
    revert hdash
    decide

end Dialect

end SchemaHeader
