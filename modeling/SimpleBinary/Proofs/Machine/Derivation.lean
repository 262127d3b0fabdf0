import SimpleBinary.Schema.Message

/-!
# Derivations on a machine

What deriving a schema comes down to on a machine that counts with words. The end of a construct is searched for
by counting from zero what is open, and a construct is read from a slice of the list that it is in. Unlike a
rejection, which is an answer, a fault ends the program: a number that is no word, a range or an index that is
not in its list, a division by zero. A machine would not notice a loop or a call that has no less before it than
the one it comes from, and might run for ever; here the program is ended.
-/

namespace SimpleBinary

inductive Halt
  | rejected (e : SchemaError)
  | fault
  | endless
deriving DecidableEq, Repr

abbrev Derivation := Except Halt

namespace Derivation

section
variable {α : Type}

def of (x : Except SchemaError α) : Derivation α := x.mapError .rejected

def reject (e : SchemaError) : Derivation α := .error (.rejected e)

def fault : Derivation α := .error .fault

def endless : Derivation α := .error .endless

end

/-! ## Words and slices -/

-- `words` is how many numbers a word tells apart
variable (words : Nat)

def add (a b : Nat) : Derivation Nat := if a + b < words then return a + b else fault

def sub (a b : Nat) : Derivation Nat := if b ≤ a then return a - b else fault

def div (a b : Nat) : Derivation Nat := if b = 0 then fault else return a / b

def element (tokens : List Token) (index : Nat) : Derivation Token :=
  match tokens[index]? with
  | some t => return t
  | none => fault

def slice (tokens : List Token) (start stop : Nat) : Derivation (List Token) :=
  if start ≤ stop ∧ stop ≤ tokens.length then return (tokens.take stop).drop start else fault

def through (tokens : List Token) (start last : Nat) : Derivation (List Token) := do
  let stop ← add words last 1
  slice tokens start stop

/-! ## Constructs -/

/-- `tokens` are those from `index` on. -/
def search (opening closing : Signal) (depth index : Nat) (tokens : List Token) : Derivation Nat :=
  match tokens with
  | [] => reject (.unexpectedEnd closing)
  | t :: rest =>
    if t.signal = opening then do
      let depth ← add words depth 1
      let next ← add words index 1
      search opening closing depth next rest
    else if t.signal = closing then do
      let depth ← sub depth 1
      if depth = 0 then
        return index
      else
        let next ← add words index 1
        search opening closing depth next rest
    else do
      let next ← add words index 1
      search opening closing depth next rest

def findClosing (tokens : List Token) (start : Nat) (opening closing : Signal) : Derivation Nat := do
  match tokens[start]? with
  | none => reject (.unexpectedEnd opening)
  | some first =>
    of (first.expect start opening)
    search words opening closing 0 start (tokens.drop start)

def compositeParts (tokens : List Token) : Derivation (Token × List Token) := do
  let stop ← findClosing words tokens 0 .beginComposite .endComposite
  let outer ← element tokens 0
  let members ← slice tokens 1 stop
  return (outer, members)

def header (tokens : List Token) : Derivation HeaderFormat := do
  let (outer, members) ← compositeParts words tokens
  let blockLength ← of (outer.unsignedMember members "blockLength")
  let templateId ← of (outer.unsignedMember members "templateId")
  let schemaId ← of (outer.unsignedMember members "schemaId")
  let version ← of (outer.unsignedMember members "version")
  return ⟨blockLength, templateId, schemaId, version, outer.size⟩

def dimensions (tokens : List Token) : Derivation Dimensions := do
  let (outer, members) ← compositeParts words tokens
  let blockLength ← of (outer.unsignedMember members "blockLength")
  let numInGroup ← of (outer.unsignedMember members "numInGroup")
  return ⟨blockLength, numInGroup, outer.size⟩

def groupFormat (tokens : List Token) : Derivation GroupFormat := do
  match tokens with
  | [] => reject (.unexpectedEnd .beginGroup)
  | first :: _ =>
    of (first.expect 0 .beginGroup)
    let stop ← findClosing words tokens 1 .beginComposite .endComposite
    let own ← through words tokens 1 stop
    let dimensions ← dimensions words own
    return ⟨first.size, first.version, dimensions⟩

/-! ## Fields -/

def arrayLength (t : Token) : Derivation Nat :=
  match t.encoding.type with
  | some type => if t.size = 0 then return 1 else div t.size type.bytes
  | none => return 1

def valueKind (t : Token) : Derivation ValueKind := do
  let type ← of t.type
  if t.isConstant then
    match t.encoding.value with
    | some value => return .constant type value
    | none => reject (.missingConstValue t.name)
  else
    let length ← arrayLength t
    return .primitive type t.encoding.order length t.encoding.null t.encoding.charset

def member (t : Token) (index : Nat) : Derivation (Placed ValueKind) := do
  let position ← add words index 2
  of (t.expect position .encoding)
  let kind ← valueKind t
  return ⟨t.name, t.id, t.offset, t.version, kind⟩

def fieldKind (type : Token) (own : List Token) : Derivation FieldKind := do
  match type.signal with
  | .encoding => return .value (← valueKind type)
  | .beginEnum =>
    let stop ← findClosing words own 1 .beginEnum .endEnum
    let primitive ← of type.type
    let inner ← slice own 2 stop
    let values ← of ((inner.filter fun t => t.signal = .validValue).mapM Token.toValidValue)
    return .enumeration primitive type.encoding.order type.encoding.null values
  | .beginSet =>
    let stop ← findClosing words own 1 .beginSet .endSet
    let primitive ← of type.type
    let inner ← slice own 2 stop
    let choices ← of ((inner.filter fun t => t.signal = .choice).mapM (Token.toChoice (8 * primitive.bytes)))
    return .set primitive type.encoding.order choices
  | .beginComposite =>
    let stop ← findClosing words own 1 .beginComposite .endComposite
    let composite ← through words own 1 stop
    let (outer, inner) ← compositeParts words composite
    let members ← inner.zipIdx.mapM fun (t, index) => member words t index
    return .composite outer.size members
  | found => reject (.unexpectedSignal 1 .encoding found)

def field (tokens : List Token) : Derivation FieldSchema := do
  let stop ← findClosing words tokens 0 .beginField .endField
  let own ← through words tokens 0 stop
  let first ← element own 0
  match own[1]? with
  | none => reject (.unexpectedEnd .encoding)
  | some type =>
    let kind ← fieldKind words type own
    return ⟨first.name, first.id, type.offset, type.version, kind⟩

/-! ## Data sections, groups and messages -/

def data (tokens : List Token) : Derivation DataSchema := do
  match tokens with
  | [] => reject (.unexpectedEnd .beginVarData)
  | first :: _ =>
    of (first.expect 0 .beginVarData)
    let rest ← slice tokens 1 tokens.length
    let (_, members) ← compositeParts words rest
    match members with
    | [] => reject (.unexpectedEnd .encoding)
    | length :: others =>
      of (length.expect 2 .encoding)
      let charset := others.head?.bind fun data => data.encoding.charset
      let width ← of length.width
      return ⟨first.name, first.id, ⟨width, length.encoding.order, first.version, none⟩, charset⟩

mutual

/-- What is nested in the group is shorter than the list that the group is in, which has the length `enclosing`. -/
def group (enclosing : Nat) (tokens : List Token) : Derivation GroupSchema := do
  let stop ← findClosing words tokens 0 .beginGroup .endGroup
  let own ← through words tokens 0 stop
  let format ← groupFormat words own
  let dimensionsEnd ← findClosing words own 1 .beginComposite .endComposite
  let start ← add words dimensionsEnd 1
  let inner ← slice own start stop
  if inner.length < enclosing then
    let m ← members inner 0 {}
    let first ← element own 0
    return ⟨first.name, first.id, format, m.fields, m.groups, m.data⟩
  else
    endless
termination_by (enclosing, 0, 0)

def members (tokens : List Token) (index : Nat) (read : Members) : Derivation Members := do
  match _h : tokens[index]? with
  | none => return read
  | some t =>
    let (stop, read) ← (match t.signal with
      | .beginField => do
        let stop ← findClosing words tokens index .beginField .endField
        let own ← through words tokens index stop
        let f ← field words own
        return (stop, { read with fields := read.fields ++ [f] })
      | .beginGroup => do
        let stop ← findClosing words tokens index .beginGroup .endGroup
        let own ← through words tokens index stop
        let g ← group tokens.length own
        return (stop, { read with groups := read.groups ++ [g] })
      | .beginVarData => do
        let stop ← findClosing words tokens index .beginVarData .endVarData
        let own ← through words tokens index stop
        let d ← data words own
        return (stop, { read with data := read.data ++ [d] })
      | found => reject (.unexpectedSignal index .beginField found))
    let next ← add words stop 1
    if index < next then
      members tokens next read
    else
      endless
termination_by (tokens.length, 1, tokens.length - index)
decreasing_by
  · exact Prod.Lex.right _ (Prod.Lex.left _ _ Nat.zero_lt_one)
  · have hlt := (List.getElem?_eq_some_iff.mp _h).1
    exact Prod.Lex.right _ (Prod.Lex.right _ (by omega))

end

def message (tokens : List Token) : Derivation MessageSchema := do
  let stop ← findClosing words tokens 0 .beginMessage .endMessage
  let first ← element tokens 0
  if 65535 < first.size then
    reject (.oversizedBlock first.name first.size)
  else
    let inner ← slice tokens 1 stop
    let m ← members words inner 0 {}
    return ⟨first.name, ⟨first.id, 0, first.version, UInt16.ofNat first.size⟩, m.fields, m.groups, m.data⟩

end Derivation

end SimpleBinary
