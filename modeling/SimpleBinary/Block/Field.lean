import SimpleBinary.Number.Carrier

/-!
# Field descriptors

A descriptor says where a field lies in its block, how it is encoded and since which version of the
schema it exists. It holds no data: the accessors of a block take it as an argument.
-/

namespace SimpleBinary

abbrev Version := UInt16

def Version.includes (acting since : Version) : Bool := decide (since ≤ acting)

namespace Version
variable {acting since : Version}

theorem includes_iff : acting.includes since = true ↔ since ≤ acting := decide_eq_true_iff

theorem lt_max_iff {a b : Version} : acting < max a b ↔ acting < a ∨ acting < b := by
  show acting < (if a ≤ b then b else a) ↔ _
  split <;>
  · simp only [UInt16.lt_iff_toNat_lt, UInt16.le_iff_toNat_le] at *
    omega

theorem max_le_iff {a b : Version} : max a b ≤ acting ↔ a ≤ acting ∧ b ≤ acting := by
  simp only [← UInt16.not_lt, lt_max_iff, not_or]

theorem includes_max (a b : Version) : acting.includes (max a b) = (acting.includes a && acting.includes b) := by
  rw [Bool.eq_iff_iff, Bool.and_eq_true, includes_iff, includes_iff, includes_iff, max_le_iff]

end Version

structure Field (c : Carrier) where
  offset : Nat
  order : ByteOrder := .little
  since : Version := 0
  /-- What reading gives for data older than the field. -/
  null : c.Value := c.null
deriving DecidableEq

def Field.stop {c : Carrier} (f : Field c) : Nat := f.offset + c.bytes

structure ArrayField (c : Carrier) where
  offset : Nat
  length : Nat
  order : ByteOrder := .little
  since : Version := 0
  null : c.Value := c.null
  charset : Option String := none
deriving DecidableEq

namespace ArrayField
variable {c : Carrier}

def chars (offset length : Nat) (since : Version) (null : c.Value) (charset : String) : ArrayField c where
  offset := offset
  length := length
  since := since
  null := null
  charset := some charset

def width (f : ArrayField c) : Nat := f.length * c.bytes

def elementOffset (f : ArrayField c) (index : Nat) : Except AccessError Nat :=
  if index < f.length then .ok (f.offset + index * c.bytes)
  else .error (.indexOutOfRange index f.length)

end ArrayField

abbrev ByteArrayField := ArrayField (.unsigned .w8)

/-- A string that is part of the schema and takes no room in the data. -/
structure ConstantBytes where
  value : Bytes
deriving DecidableEq

namespace ConstantBytes

def length (f : ConstantBytes) : Nat := f.value.length

def isEmpty (f : ConstantBytes) : Bool := f.value.isEmpty

def get (f : ConstantBytes) (index : Nat) : Except AccessError UInt8 :=
  match f.value[index]? with
  | some byte => .ok byte
  | none => .error (.indexOutOfRange index f.length)

/-- Copies at most `limit` bytes to `dst` from `offset` on: how many they are, and `dst` after it. -/
def copy (f : ConstantBytes) (dst : Bytes) (offset limit : Nat) : Except AccessError (Nat × Bytes) :=
  let bytes := f.value.take limit
  if offset + bytes.length ≤ dst.length then
    .ok (bytes.length, dst.take offset ++ bytes ++ dst.drop (offset + bytes.length))
  else
    .error (.copyOutOfRange bytes.length (dst.length - offset))

end ConstantBytes

structure CompositeField where
  offset : Nat
  size : Nat
  since : Version := 0
deriving DecidableEq

end SimpleBinary
