import SimpleBinary.Number.ByteOrder

/-!
# Binary floating-point formats

Numbers of an interchange format as bit patterns. The least positive number of a format is its
unit, `2 ^ -unit`; all its finite numbers are multiples of it, and read as numbers their bit
patterns go up with their values. So rounding a magnitude is: cut it to the digits that the
fraction holds, to the nearest and at a tie to the even, and count the cuts into the exponent.
-/

namespace SimpleBinary

structure FloatFormat where
  exponentBits : Nat
  fractionBits : Nat
deriving DecidableEq, Repr

/-- `n / 2 ^ k`, rounded to the nearest integer, a tie to the even one. -/
def roundShift (n k : Nat) : Nat :=
  let q := n / 2 ^ k
  let r := n % 2 ^ k
  if 2 ^ k < 2 * r ∨ 2 * r = 2 ^ k ∧ q % 2 = 1 then q + 1 else q

namespace FloatFormat

def single : FloatFormat := ⟨8, 23⟩

def double : FloatFormat := ⟨11, 52⟩

def bits (f : FloatFormat) : Nat := 1 + f.exponentBits + f.fractionBits

def unit (f : FloatFormat) : Nat := 2 ^ (f.exponentBits - 1) - 2 + f.fractionBits

/-- The pattern of positive infinity, above all finite ones. -/
def infinity (f : FloatFormat) : Nat := (2 ^ f.exponentBits - 1) * 2 ^ f.fractionBits

def signBit (f : FloatFormat) : Nat := 2 ^ (f.exponentBits + f.fractionBits)

/-- Above the infinities, of either sign, are the patterns that are no numbers. -/
def isNumber (f : FloatFormat) (pattern : Nat) : Bool := pattern % f.signBit ≤ f.infinity

/-- Numbers are equal as their patterns are, but for the two zeros. What is no number equals nothing, not
even itself. -/
def same (f : FloatFormat) (a b : Nat) : Bool :=
  f.isNumber a && a == b || a % f.signBit == 0 && b % f.signBit == 0

theorem same_comm (f : FloatFormat) (a b : Nat) : f.same a b = f.same b a := by
  unfold same
  by_cases h : a = b
  · rw [h]
  · rw [beq_false_of_ne h, beq_false_of_ne (Ne.symm h), Bool.and_comm (a % f.signBit == 0)]
    simp only [Bool.and_false]

def round (f : FloatFormat) (n k : Nat) : Nat :=
  let scaled := n * 2 ^ f.unit
  let cuts := (scaled / 2 ^ k).log2 - f.fractionBits
  min (cuts * 2 ^ f.fractionBits + roundShift scaled (k + cuts)) f.infinity

def ofInt (f : FloatFormat) (i : Int) : Nat :=
  (if i < 0 then f.signBit else 0) + f.round i.natAbs 0

/-- The magnitude of a finite pattern without its sign, in units of the format. -/
def magnitude (f : FloatFormat) (pattern : Nat) : Nat :=
  let exponent := pattern / 2 ^ f.fractionBits
  let fraction := pattern % 2 ^ f.fractionBits
  if exponent = 0 then fraction else (2 ^ f.fractionBits + fraction) * 2 ^ (exponent - 1)

/-- A pattern of one format in another that is no wider. A number that is not one stays so: it is
made quiet and keeps the top of its payload. -/
def narrow (source target : FloatFormat) (pattern : Nat) : Nat :=
  let negative := pattern / source.signBit % 2 = 1
  let unsigned := pattern % source.signBit
  let magnitude :=
    if unsigned < source.infinity then target.round (source.magnitude unsigned) source.unit
    else if unsigned = source.infinity then target.infinity
    else
      let payload := (unsigned - source.infinity) / 2 ^ (source.fractionBits - target.fractionBits)
      target.infinity + (payload ||| 2 ^ (target.fractionBits - 1))
  (if negative then target.signBit else 0) + magnitude

end FloatFormat

end SimpleBinary
