import SchemaHeader.Wire.Varint

/-! Keys, which go before every value, and the values of fields that nobody asks for. -/
namespace SchemaHeader.Wire

/-- The number of a field and the layout of the value that follows. -/
structure Key where
  field : Nat
  wireType : WireType
  deriving DecidableEq

def Key.encode (k : Key) : List UInt8 :=
  Varint.encode (8 * k.field + k.wireType.code)

/-- A key has 32 bits, a known wire type and a field number other than zero. -/
def key : Reader Key := do
  let n ← varint
  if UInt32.size ≤ n then fail (.keyTooLarge n)
  else match WireType.ofCode? (n % 8) with
    | none => fail (.unknownWireType (n % 8))
    | some wireType => if n / 8 = 0 then fail .fieldNumberZero else pure ⟨n / 8, wireType⟩

/-- The rest of group `field`, in which `inner` passes over each value. -/
def groupRest (inner : Key → Reader Unit) (field : Nat) (input : Input) :
    Except Fault (Unit × Input) := do
  let (k, rest) ← key input
  if k.wireType = .endGroup then
    if k.field = field then .ok ((), rest) else fail .endOfOtherGroup rest
  else
    let (_, rest) ← inner k rest
    if _h : rest.size < input.size then groupRest inner field rest else fail .endOfOtherGroup rest
termination_by input.size

/-- Passes over the value that follows `k`. What lies inside `depth` groups is too deep. -/
def skip : (depth : Nat) → (k : Key) → Reader Unit
  | 0, _ => fail .tooDeep
  | depth + 1, k =>
    match k.wireType with
    | .varint => discard varint
    | .sixtyFourBit => discard (chunk 8)
    | .lengthDelimited => discard block
    | .startGroup => groupRest (skip depth) k.field
    | .endGroup => fail .endOfOtherGroup
    | .thirtyTwoBit => discard (chunk 4)

end SchemaHeader.Wire
