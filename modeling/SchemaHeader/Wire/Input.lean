import SchemaHeader.Wire.Fault

/-! The unread part of an input, and readers of it. -/
namespace SchemaHeader.Wire

/-- Bytes together with their number, so that asking how many are left costs nothing. -/
structure Input where
  bytes : List UInt8
  size : Nat
  size_eq : size = bytes.length

namespace Input

def ofBytes (bytes : List UInt8) : Input := ⟨bytes, bytes.length, rfl⟩

def next? : Input → Option (UInt8 × Input)
  | ⟨[], _, _⟩ => none
  | ⟨b :: rest, size, h⟩ => some (b, ⟨rest, size - 1, by simp [h]⟩)

/-- The first `n` bytes and the rest, where there are as many. -/
def splitAt? (n : Nat) (input : Input) : Option (List UInt8 × Input) :=
  if n ≤ input.size then
    some (input.bytes.take n,
      ⟨input.bytes.drop n, input.size - n, by rw [List.length_drop, input.size_eq]⟩)
  else none

end Input

/-- A reader gives its value and what it leaves unread, or what is wrong with the input. -/
abbrev Reader := StateT Input (Except Fault)

variable {α : Type}

def fail (cause : Cause) : Reader α := throw { cause := cause }

/-- The next `n` bytes. -/
def chunk (n : Nat) : Reader (List UInt8) := fun input =>
  match input.splitAt? n with
  | some result => .ok result
  | none => fail .bufferUnderflow input

/-- `step`, again and again until it has used exactly `left` bytes. -/
def many (step : Reader α) (left : Nat) (input : Input) : Except Fault (List α × Input) :=
  if left = 0 then .ok ([], input)
  else do
    let (a, rest) ← step input
    let used := input.size - rest.size
    if _h : 0 < used ∧ used ≤ left then
      let (as, rest) ← many step (left - used) rest
      .ok (a :: as, rest)
    else
      fail .lengthExceeded rest

end SchemaHeader.Wire
