import SimpleBinary.Number.Width
import SimpleBinary.Number.BinaryFloat

/-!
# Carriers and primitive types

A carrier is one of the ten number types that a fixed field can hold. Its values are bit patterns,
so a floating-point value keeps its payload whatever it is; whether two of them are the same number is
another question (`same`). The primitive types of a schema are the
carriers and `char`, which is carried by a byte but has another null.
-/

namespace SimpleBinary

inductive Carrier
  | unsigned (width : Width)
  | signed (width : Width)
  | float32
  | float64
deriving DecidableEq, Repr

namespace Carrier

def width : Carrier → Width
  | .unsigned w => w
  | .signed w => w
  | .float32 => .w32
  | .float64 => .w64

def bytes (c : Carrier) : Nat := c.width.bytes

abbrev Value (c : Carrier) := BitVec c.width.bits

def encode (c : Carrier) (order : ByteOrder) (v : c.Value) : Bytes :=
  order.encode c.bytes v.toNat

def decode (c : Carrier) (order : ByteOrder) (bytes : Bytes) : c.Value :=
  BitVec.ofNat _ (order.decode bytes)

def null : (c : Carrier) → c.Value
  | .unsigned _ => BitVec.allOnes _
  | .signed _ => BitVec.intMin _
  | .float32 => BitVec.ofNat _ 0x7fc00000
  | .float64 => BitVec.ofNat _ 0x7ff8000000000000

def least : (c : Carrier) → c.Value
  | .unsigned _ => 0
  | .signed _ => BitVec.intMin _ + 1
  | .float32 => BitVec.ofNat _ 0xff7fffff
  | .float64 => BitVec.ofNat _ 0xffefffffffffffff

def greatest : (c : Carrier) → c.Value
  | .unsigned _ => BitVec.allOnes _ - 1
  | .signed _ => BitVec.intMax _
  | .float32 => BitVec.ofNat _ 0x7f7fffff
  | .float64 => BitVec.ofNat _ 0x7fefffffffffffff

def isInteger : Carrier → Bool
  | unsigned _ | signed _ => true
  | float32 | float64 => false

def same : (c : Carrier) → c.Value → c.Value → Bool
  | .unsigned _, a, b | .signed _, a, b => a == b
  | .float32, a, b => FloatFormat.single.same a.toNat b.toNat
  | .float64, a, b => FloatFormat.double.same a.toNat b.toNat

def toInt? : (c : Carrier) → c.Value → Option Int
  | .unsigned _, v => some v.toNat
  | .signed _, v => some v.toInt
  | .float32, _ => none
  | .float64, _ => none

def ofInt? : (c : Carrier) → Int → Option c.Value
  | .unsigned w, i => if 0 ≤ i ∧ i < 2 ^ w.bits then some (BitVec.ofInt _ i) else none
  | .signed w, i =>
    if -2 ^ (w.bits - 1) ≤ i ∧ i < 2 ^ (w.bits - 1) then some (BitVec.ofInt _ i) else none
  | .float32, _ => none
  | .float64, _ => none

theorem same_comm (c : Carrier) (a b : c.Value) : c.same a b = c.same b a := by
  cases c with
  | unsigned w | signed w => exact Bool.beq_comm
  | float32 => exact FloatFormat.single.same_comm ..
  | float64 => exact FloatFormat.double.same_comm ..

theorem same_iff {c : Carrier} (h : c.isInteger = true) {a b : c.Value} : c.same a b = true ↔ a = b := by
  cases c with
  | unsigned w | signed w => exact beq_iff_eq
  | float32 | float64 => cases h

theorem same_eq_false_iff {c : Carrier} (h : c.isInteger = true) {a b : c.Value} : c.same a b = false ↔ a ≠ b := by
  rw [← Bool.not_eq_true, same_iff h]

@[simp] theorem length_encode (c : Carrier) (order : ByteOrder) (v : c.Value) :
    (c.encode order v).length = c.bytes := by
  simp [encode]

theorem decode_encode (c : Carrier) (order : ByteOrder) (v : c.Value) :
    c.decode order (c.encode order v) = v := by
  apply BitVec.eq_of_toNat_eq
  rw [decode, encode, ByteOrder.decode_encode, BitVec.toNat_ofNat, bytes, Width.two_pow_bits,
    Nat.mod_mod, ← Width.two_pow_bits, Nat.mod_eq_of_lt v.isLt]

theorem encode_decode (c : Carrier) (order : ByteOrder) {bytes : Bytes} (h : bytes.length = c.bytes) :
    c.encode order (c.decode order bytes) = bytes := by
  have hlt := order.decode_lt bytes
  rw [h, Carrier.bytes, ← Width.two_pow_bits] at hlt
  rw [encode, decode, BitVec.toNat_ofNat, Nat.mod_eq_of_lt hlt, ← h, ByteOrder.encode_decode]

end Carrier

inductive PrimitiveType
  | char
  | number (carrier : Carrier)
deriving DecidableEq, Repr

namespace PrimitiveType

def carrier : PrimitiveType → Carrier
  | .char => .unsigned .w8
  | .number c => c

def bytes (t : PrimitiveType) : Nat := t.carrier.bytes

def isSingleByte (t : PrimitiveType) : Bool := t.bytes == 1

/-- The width of an unsigned type; `char` counts as one. -/
def width? : PrimitiveType → Option Width
  | .char => some .w8
  | .number (.unsigned w) => some w
  | .number _ => none

def null : (t : PrimitiveType) → t.carrier.Value
  | .char => 0
  | .number c => c.null

def name : PrimitiveType → String
  | .char => "Char"
  | .number (.signed .w8) => "Int8"
  | .number (.signed .w16) => "Int16"
  | .number (.signed .w32) => "Int32"
  | .number (.signed .w64) => "Int64"
  | .number (.unsigned .w8) => "Uint8"
  | .number (.unsigned .w16) => "Uint16"
  | .number (.unsigned .w32) => "Uint32"
  | .number (.unsigned .w64) => "Uint64"
  | .number .float32 => "Float"
  | .number .float64 => "Double"

end PrimitiveType

end SimpleBinary
