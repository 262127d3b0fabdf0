import SimpleBinary.Buffer

/-!
# Numbers as bytes

`digits` and `ofDigits` pass between a number and its base-256 digits, least significant first. A
byte order arranges those digits on the wire. Encoding keeps a number modulo `256 ^ width`
(`decode_encode`), and every byte string of a width is the encoding of what it decodes to
(`encode_decode`).
-/

namespace SimpleBinary

-- Powers are the core library's in every module, whatever else it imports.
attribute [scoped instance (2000)] instPowNat

def digits : Nat → Nat → Bytes
  | 0, _ => []
  | width + 1, n => UInt8.ofNat n :: digits width (n / 256)

def ofDigits : Bytes → Nat
  | [] => 0
  | d :: rest => d.toNat + 256 * ofDigits rest

@[simp] theorem length_digits (width n : Nat) : (digits width n).length = width := by
  induction width generalizing n with
  | zero => rfl
  | succ width ih => simp [digits, ih]

theorem ofDigits_digits (width n : Nat) : ofDigits (digits width n) = n % 256 ^ width := by
  induction width generalizing n with
  | zero => simp [digits, ofDigits, Nat.mod_one]
  | succ width ih =>
    rw [digits, ofDigits, ih, Nat.pow_succ', Nat.mod_mul]
    simp

theorem digits_ofDigits (bytes : Bytes) : digits bytes.length (ofDigits bytes) = bytes := by
  induction bytes with
  | nil => rfl
  | cons d rest ih =>
    have hd : d.toNat < 256 := d.toNat_lt
    rw [List.length_cons, digits, ofDigits, show (d.toNat + 256 * ofDigits rest) / 256 = ofDigits rest by omega, ih]
    congr 1
    apply UInt8.toNat_inj.mp
    rw [UInt8.toNat_ofNat']
    omega

theorem ofDigits_lt (bytes : Bytes) : ofDigits bytes < 256 ^ bytes.length := by
  have h := ofDigits_digits bytes.length (ofDigits bytes)
  rw [digits_ofDigits] at h
  exact h ▸ Nat.mod_lt _ (Nat.pow_pos (by decide))

inductive ByteOrder
  | little
  | big
deriving DecidableEq, Repr, Inhabited

namespace ByteOrder

def native : ByteOrder := .little

def arrange : ByteOrder → Bytes → Bytes
  | .little, bytes => bytes
  | .big, bytes => bytes.reverse

def encode (order : ByteOrder) (width n : Nat) : Bytes := order.arrange (digits width n)

def decode (order : ByteOrder) (bytes : Bytes) : Nat := ofDigits (order.arrange bytes)

@[simp] theorem arrange_arrange (order : ByteOrder) (bytes : Bytes) :
    order.arrange (order.arrange bytes) = bytes := by
  cases order <;> simp [arrange]

@[simp] theorem length_arrange (order : ByteOrder) (bytes : Bytes) :
    (order.arrange bytes).length = bytes.length := by
  cases order <;> simp [arrange]

@[simp] theorem length_encode (order : ByteOrder) (width n : Nat) :
    (order.encode width n).length = width := by
  simp [encode]

theorem decode_encode (order : ByteOrder) (width n : Nat) :
    order.decode (order.encode width n) = n % 256 ^ width := by
  simp [decode, encode, ofDigits_digits]

theorem encode_decode (order : ByteOrder) (bytes : Bytes) :
    order.encode bytes.length (order.decode bytes) = bytes := by
  have h := digits_ofDigits (order.arrange bytes)
  rw [length_arrange] at h
  rw [encode, decode, h, arrange_arrange]

theorem decode_lt (order : ByteOrder) (bytes : Bytes) : order.decode bytes < 256 ^ bytes.length := by
  simpa [decode] using ofDigits_lt (order.arrange bytes)

end ByteOrder

end SimpleBinary
