import SimpleBinary.Schema.Literal
import SimpleBinary.Block.Field

/-!
# Tokens

A schema is given as a flat list of tokens. What encloses something is a pair of tokens, one that
opens and one that closes it; encoded values are single tokens between them.
-/

namespace SimpleBinary

inductive Signal
  | beginMessage
  | endMessage
  | beginComposite
  | endComposite
  | beginField
  | endField
  | beginGroup
  | endGroup
  | beginEnum
  | validValue
  | endEnum
  | beginSet
  | choice
  | endSet
  | beginVarData
  | endVarData
  | encoding
deriving DecidableEq, Repr

namespace Signal

def closing? : Signal → Option Signal
  | beginMessage => some endMessage
  | beginComposite => some endComposite
  | beginField => some endField
  | beginGroup => some endGroup
  | beginEnum => some endEnum
  | beginSet => some endSet
  | beginVarData => some endVarData
  | _ => none

def name : Signal → String
  | beginMessage => "BeginMessage"
  | endMessage => "EndMessage"
  | beginComposite => "BeginComposite"
  | endComposite => "EndComposite"
  | beginField => "BeginField"
  | endField => "EndField"
  | beginGroup => "BeginGroup"
  | endGroup => "EndGroup"
  | beginEnum => "BeginEnum"
  | validValue => "ValidValue"
  | endEnum => "EndEnum"
  | beginSet => "BeginSet"
  | choice => "Choice"
  | endSet => "EndSet"
  | beginVarData => "BeginVarData"
  | endVarData => "EndVarData"
  | encoding => "Encoding"

end Signal

inductive Presence
  | required
  | optional
  | constant
deriving DecidableEq, Repr

structure Encoding where
  type : Option PrimitiveType := none
  order : ByteOrder := .little
  presence : Presence := .required
  null : Option Literal := none
  /-- The constant, the valid value, or the bit of the choice. -/
  value : Option Literal := none
  charset : Option String := none
deriving DecidableEq

def Encoding.withConstant (e : Encoding) (value : Literal) : Encoding :=
  { e with presence := .constant, value := some value }

structure Token where
  signal : Signal
  name : String
  id : UInt16 := 0
  version : Version := 0
  offset : Nat := 0
  size : Nat := 0
  encoding : Encoding := {}
deriving DecidableEq

namespace Token

def primitive (name : String) (type : PrimitiveType) (offset : Nat) : Token where
  signal := .encoding
  name := name
  offset := offset
  size := type.bytes
  encoding := { type := some type }

/-- The number of values that the token encodes; one, if it has no type or no size. -/
def arrayLength (t : Token) : Nat :=
  match t.encoding.type with
  | some type => if t.size = 0 then 1 else t.size / type.bytes
  | none => 1

def isConstant (t : Token) : Bool := t.encoding.presence = .constant

def composite (name : String) (size : Nat) (members : List Token) : List Token :=
  { signal := .beginComposite, name := name, size := size } :: members ++
    [{ signal := .endComposite, name := name, size := size }]

def uint16 : PrimitiveType := .number (.unsigned .w16)

def messageHeader : List Token :=
  composite "messageHeader" 8
    [primitive "blockLength" uint16 0, primitive "templateId" uint16 2,
      primitive "schemaId" uint16 4, primitive "version" uint16 6]

def groupSizeEncoding : List Token :=
  composite "groupSizeEncoding" 4
    [primitive "blockLength" uint16 0, primitive "numInGroup" uint16 2]

def dataEncoding : List Token :=
  composite "varDataEncoding" 0
    [primitive "length" (.number (.unsigned .w32)) 0,
      { signal := .encoding
        name := "varData"
        offset := 4
        encoding := { type := some (.number (.unsigned .w8)), charset := some "UTF-8" } }]

end Token

end SimpleBinary
