import SchemaHeader.Proofs.Text.Identifier
import SchemaHeader.Text

/-! Where the name of a constant has more underscores than the name it is made from, told by
position. The flag that the scan carries answers a question about everything it has read. -/
namespace SchemaHeader.Text

/-- The ASCII letter or underscore that is closest to the end. -/
def lastMark? (before : List Char) : Option Char :=
  before.reverse.find? fun c => c.isAlpha || c = '_'

/-- A capital stands at this position, and the closest letter or underscore before it is there and
is a lower-case letter. -/
def breaksAt (cs : List Char) (i : Nat) : Bool :=
  cs[i]?.any (·.isUpper) && (lastMark? (cs.take i)).any (·.isLower)

/-- What the constant's name has for a character of `cs`, which comes with its position. -/
def constantPiece (cs : List Char) : Char × Nat → List Char
  | (c, i) => if breaksAt cs i then ['_', c.toUpper] else [c.toUpper]

section Flag

variable (before rest : List Char) (c : Char)

theorem lastMark?_concat :
    lastMark? (before ++ [c]) = if c.isAlpha || c = '_' then some c else lastMark? before := by
  rw [lastMark?, List.reverse_concat, List.find?_cons]
  by_cases hmark : (c.isAlpha || c = '_') = true
  · simp [hmark]
  · simp [hmark, lastMark?]

/-- A mark takes the place of the last one, and any other character leaves it. -/
theorem endsLower_lastMark : endsLower ((lastMark? before).any (·.isLower)) c =
    (lastMark? (before ++ [c])).any (·.isLower) := by
  rw [lastMark?_concat, endsLower]
  by_cases hlower : c.isLower
  · simp [hlower, isAlpha_eq]
  · by_cases hmark : (c.isUpper || c = '_') = true
    · simp_all [isAlpha_eq]
    · simp_all [isAlpha_eq]

theorem breaksAt_append_cons : breaksAt (before ++ c :: rest) before.length =
    ((lastMark? before).any (·.isLower) && c.isUpper) := by
  simp [breaksAt, Bool.and_comm]

theorem constantPiece_append_cons : constantPiece (before ++ c :: rest) (c, before.length) =
    if (lastMark? before).any (·.isLower) && c.isUpper then ['_', c] else [c.toUpper] := by
  rw [constantPiece, breaksAt_append_cons]
  split
  · next hbreak =>
    rw [Bool.and_eq_true] at hbreak
    rw [toUpper_of_isUpper hbreak.2]
  · rfl

/-- The rest of a scan, with the flag that the part before it leaves behind. -/
theorem constantChars_lastMark : constantChars ((lastMark? before).any (·.isLower)) rest =
    (rest.zipIdx before.length).flatMap (constantPiece (before ++ rest)) := by
  induction rest generalizing before with
  | nil => rfl
  | cons c rest ih =>
    have hrest := ih (before ++ [c])
    rw [List.length_append, List.length_singleton, List.append_assoc, List.singleton_append]
      at hrest
    rw [constantChars, endsLower_lastMark, hrest, List.zipIdx_cons, List.flatMap_cons,
      constantPiece_append_cons]

end Flag

section Pieces

variable (cs rest : List Char) (k : Nat)

theorem map_toUpper_sublist_pieces :
    (rest.map Char.toUpper).Sublist
      ((rest.zipIdx k).flatMap (constantPiece cs)) := by
  induction rest generalizing k with
  | nil => exact List.Sublist.slnil
  | cons c rest ih =>
    have hpiece : [c.toUpper].Sublist (constantPiece cs (c, k)) := by
      rw [constantPiece]
      split <;> simp
    rw [List.map_cons, List.zipIdx_cons, List.flatMap_cons]
    exact hpiece.append (ih (k + 1))

/-- Each break makes the pieces longer by one. -/
theorem length_pieces : ((rest.zipIdx k).flatMap (constantPiece cs)).length =
    rest.length + (List.range' k rest.length).countP (breaksAt cs) := by
  induction rest generalizing k with
  | nil => rfl
  | cons c rest ih =>
    have hpiece : (constantPiece cs (c, k)).length = 1 + if breaksAt cs k then 1 else 0 := by
      rw [constantPiece]
      split <;> rfl
    rw [List.zipIdx_cons, List.flatMap_cons, List.length_append, ih, hpiece, List.length_cons,
      List.range'_succ, List.countP_cons]
    omega

end Pieces

/-- Letters are raised, and an underscore is put before each capital whose closest letter or
underscore to the left is a lower-case letter. -/
theorem constantName_rule (s : String) :
    constantName s = String.ofList (s.toList.zipIdx.flatMap fun (c, i) =>
      if breaksAt s.toList i then ['_', c.toUpper] else [c.toUpper]) ∧
    (s.toList.map Char.toUpper).Sublist (constantName s).toList ∧
    (constantName s).length = s.length + (List.range s.length).countP (breaksAt s.toList) := by
  have hchars : constantChars false s.toList =
      s.toList.zipIdx.flatMap (constantPiece s.toList) := constantChars_lastMark [] s.toList
  have hlist : (constantName s).toList = constantChars false s.toList := by
    rw [constantName, String.toList_ofList]
  refine ⟨?_, ?_, ?_⟩
  · rw [constantName, hchars]
    rfl
  · rw [hlist, hchars]
    exact map_toUpper_sublist_pieces s.toList s.toList 0
  · rw [← String.length_toList, hlist, hchars, length_pieces, ← List.range_eq_range',
      String.length_toList]

/-- A digit or a letter that is not ASCII does not end the boundary; an underscore does. -/
example : (List.range 13).filter (breaksAt "v2Name_Ab9é-C".toList) = [2, 12] := by decide

end SchemaHeader.Text
