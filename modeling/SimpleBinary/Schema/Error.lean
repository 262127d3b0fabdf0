import SimpleBinary.Schema.Token

/-!
# Schema errors

Why a list of tokens does not describe what it was read as, and the sentence that reports it.
-/

namespace SimpleBinary

inductive SchemaError
  | unexpectedSignal (index : Nat) (expected found : Signal)
  | unexpectedEnd (expected : Signal)
  | missingPrimitiveType (name : String)
  | unsupportedWidth (name : String) (type : PrimitiveType)
  | missingMember (composite member : String)
  | missingConstValue (name : String)
  | oversizedBlock (name : String) (size : Nat)
  | choiceOutOfRange (name : String) (bit bits : Nat)
deriving DecidableEq, Repr

def SchemaError.message : SchemaError → String
  | .unexpectedSignal index expected found =>
    s!"token {index}: expected {expected.name}, found {found.name}"
  | .unexpectedEnd expected => s!"token list ended while expecting {expected.name}"
  | .missingPrimitiveType name => s!"encoding of `{name}` has no primitive type"
  | .unsupportedWidth name type =>
    s!"`{name}` is encoded as {type.name}, which cannot hold an unsigned size"
  | .missingMember composite member => s!"composite `{composite}` has no member `{member}`"
  | .missingConstValue name => s!"constant `{name}` has no value"
  | .oversizedBlock name size => s!"block of `{name}` is {size} bytes long"
  | .choiceOutOfRange name bit bits =>
    s!"choice `{name}` selects bit {bit} of a set with {bits} bits"

end SimpleBinary
