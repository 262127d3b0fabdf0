import SimpleBinary.Number.ByteOrder

/-!
# Widths

The four widths an unsigned size, count or length may have on the wire.
-/

namespace SimpleBinary

inductive Width
  | w8
  | w16
  | w32
  | w64
deriving DecidableEq, Repr

namespace Width

def bytes : Width → Nat
  | .w8 => 1
  | .w16 => 2
  | .w32 => 4
  | .w64 => 8

def bits (width : Width) : Nat := 8 * width.bytes

def max (width : Width) : Nat := 2 ^ width.bits - 1

def name : Width → String
  | .w8 => "U8"
  | .w16 => "U16"
  | .w32 => "U32"
  | .w64 => "U64"

theorem two_pow_bits (width : Width) : 2 ^ width.bits = 256 ^ width.bytes := by
  rw [bits, Nat.pow_mul]

end Width

end SimpleBinary
