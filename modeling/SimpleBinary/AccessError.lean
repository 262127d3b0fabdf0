/-!
# Access errors

Why an access to a buffer was refused, and the sentence that reports it. `exhausted` is the only
cause that is not about a range: it is asking a repeating group for an element it does not have.
-/

namespace SimpleBinary

inductive AccessError
  | positionBeyondCapacity (position capacity : Nat)
  | accessBeyondCapacity (offset width capacity : Nat)
  | indexOutOfRange (index length : Nat)
  | copyOutOfRange (requested available : Nat)
  | valueOutOfRange (value max : Nat)
  | exhausted (count : Nat)
deriving DecidableEq, Repr

def AccessError.message : AccessError → String
  | .positionBeyondCapacity position capacity =>
    s!"position={position} is beyond capacity={capacity}"
  | .accessBeyondCapacity offset width capacity =>
    s!"cannot access {width} bytes at offset {offset} of a {capacity}-byte buffer"
  | .indexOutOfRange index length => s!"index out of range: index={index} (length {length})"
  | .copyOutOfRange requested available =>
    s!"cannot copy {requested} bytes: slice has only {available} bytes available"
  | .valueOutOfRange value max => s!"decoded value {value} exceeds maximum of {max}"
  | .exhausted count => s!"group of {count} elements has no next element"

end SimpleBinary
