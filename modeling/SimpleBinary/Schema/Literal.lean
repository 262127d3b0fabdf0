import SimpleBinary.Number.Carrier

/-!
# Literals

The values that a schema writes down: nulls, constants, valid values of enumerations and bit
positions of choices. A literal has a value in a carrier of integers if the integer it denotes is
in range, and in a floating-point carrier the nearest one.
-/

namespace SimpleBinary

inductive Literal
  | long (value : Int64)
  | ulong (value : UInt64)
  | double (value : Carrier.float64.Value)
  | bytes (value : Bytes)
deriving DecidableEq

namespace Literal

/-- The integer a literal denotes; a string of one byte denotes that byte. -/
def integer? : Literal → Option Int
  | long i => some i.toInt
  | ulong n => some n.toNat
  | bytes [byte] => some byte.toNat
  | _ => none

def double? : Literal → Option Carrier.float64.Value
  | double v => some v
  | long i => some (BitVec.ofNat _ (FloatFormat.double.ofInt i.toInt))
  | ulong n => some (BitVec.ofNat _ (FloatFormat.double.ofInt n.toNat))
  | bytes _ => none

def bytes? : Literal → Option Bytes
  | bytes value => some value
  | _ => none

def value? (l : Literal) : (c : Carrier) → Option c.Value
  | .unsigned w => l.integer?.bind (Carrier.unsigned w).ofInt?
  | .signed w => l.integer?.bind (Carrier.signed w).ofInt?
  | .float64 => l.double?
  | .float32 => l.double?.map fun v =>
    BitVec.ofNat _ (FloatFormat.double.narrow .single v.toNat)

end Literal

end SimpleBinary
