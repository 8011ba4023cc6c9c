import SchemaHeader.Wire.Input

/-! Numbers in groups of seven bits, the lowest first; every byte but the last has its top bit
set. -/
namespace SchemaHeader.Wire

namespace Varint

def encode (n : Nat) : List UInt8 :=
  if n < 128 then [n.toUInt8] else (n % 128 + 128).toUInt8 :: encode (n / 128)

/-- Reads `more` bytes that are continued at the most, and one that is not. When all `more` are
there the last one can only hold one bit. -/
def decode? : (more : Nat) → Input → Option (Nat × Input)
  | 0, input => do
    let (b, rest) ← input.next?
    if b.toNat < 2 then some (b.toNat, rest) else none
  | more + 1, input => do
    let (b, rest) ← input.next?
    if b.toNat < 128 then some (b.toNat, rest)
    else
      let (high, rest) ← decode? more rest
      some (b.toNat - 128 + 128 * high, rest)

end Varint

/-- A number of 64 bits has at most ten groups. -/
def varint : Reader Nat := fun input =>
  match Varint.decode? 9 input with
  | some result => .ok result
  | none => fail .invalidVarint input

/-- The bytes of a block that begins with its length. -/
def block : Reader (List UInt8) := do
  chunk (← varint)

/-- What `step` reads from a block that begins with its length. -/
def blockOf {α : Type} (step : Reader α) : Reader (List α) := do
  let length ← varint
  if length ≤ (← get).size then many step length else fail .bufferUnderflow

def delimited (bytes : List UInt8) : List UInt8 :=
  Varint.encode bytes.length ++ bytes

end SchemaHeader.Wire
