import SimpleBinary.Schema.Error
import SimpleBinary.Message.Group
import SimpleBinary.Message.Header

/-!
# Constructs

A construct is the part of a token list from a token that opens it to the token that closes it. The
closing token is found by counting; `findClosing` says where it is. Of composites only the members
with the names that are asked for matter, wherever they stand.
-/

namespace SimpleBinary

namespace Token

def expect (t : Token) (index : Nat) (expected : Signal) : Except SchemaError Unit :=
  if t.signal = expected then .ok () else .error (.unexpectedSignal index expected t.signal)

def type (t : Token) : Except SchemaError PrimitiveType :=
  match t.encoding.type with
  | some type => .ok type
  | none => .error (.missingPrimitiveType t.name)

def width (t : Token) : Except SchemaError Width := do
  let type ← t.type
  match type.width? with
  | some w => return w
  | none => throw (.unsupportedWidth t.name type)

/-- How far into the list the last of `depth` open constructs is closed. -/
def closing? (opening closing : Signal) : Nat → List Token → Option Nat
  | _, [] => none
  | depth, t :: rest =>
    if t.signal = opening then (closing? opening closing (depth + 1) rest).map (· + 1)
    else if t.signal = closing then
      if depth ≤ 1 then some 0 else (closing? opening closing (depth - 1) rest).map (· + 1)
    else (closing? opening closing depth rest).map (· + 1)

def findClosing (tokens : List Token) (start : Nat) (opening closing : Signal) :
    Except SchemaError Nat := do
  match tokens.drop start with
  | [] => throw (.unexpectedEnd opening)
  | first :: rest =>
    first.expect start opening
    match closing? opening closing 1 rest with
    | some n => return start + 1 + n
    | none => throw (.unexpectedEnd closing)

def compositeParts (tokens : List Token) : Except SchemaError (Token × List Token) := do
  let stop ← findClosing tokens 0 .beginComposite .endComposite
  match tokens.take stop with
  | outer :: members => return (outer, members)
  | [] => throw (.unexpectedEnd .beginComposite)

def unsignedMember (outer : Token) (members : List Token) (name : String) :
    Except SchemaError UnsignedField := do
  match members.find? fun t => t.signal = .encoding && t.name = name with
  | some t => return ⟨t.offset, ← t.width, t.encoding.order⟩
  | none => throw (.missingMember outer.name name)

end Token

def HeaderFormat.ofTokens (tokens : List Token) : Except SchemaError HeaderFormat := do
  let (outer, members) ← Token.compositeParts tokens
  let blockLength ← outer.unsignedMember members "blockLength"
  let templateId ← outer.unsignedMember members "templateId"
  let schemaId ← outer.unsignedMember members "schemaId"
  let version ← outer.unsignedMember members "version"
  return ⟨blockLength, templateId, schemaId, version, outer.size⟩

def Dimensions.ofTokens (tokens : List Token) : Except SchemaError Dimensions := do
  let (outer, members) ← Token.compositeParts tokens
  let blockLength ← outer.unsignedMember members "blockLength"
  let numInGroup ← outer.unsignedMember members "numInGroup"
  return ⟨blockLength, numInGroup, outer.size⟩

def GroupFormat.ofTokens (tokens : List Token) : Except SchemaError GroupFormat := do
  match tokens with
  | [] => throw (.unexpectedEnd .beginGroup)
  | first :: _ =>
    first.expect 0 .beginGroup
    let stop ← Token.findClosing tokens 1 .beginComposite .endComposite
    let dimensions ← Dimensions.ofTokens ((tokens.take (stop + 1)).drop 1)
    return ⟨first.size, first.version, dimensions⟩

end SimpleBinary
