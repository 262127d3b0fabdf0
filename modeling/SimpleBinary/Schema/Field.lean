import SimpleBinary.Schema.Construct

/-!
# Fields in a schema

What a schema says about a field, and the descriptors that can be had from it: a descriptor exists
for the one carrier that carries the field's type, if its null literal has a value there. The
members of a composite are described like fields, but are single values, arrays or constants only.
-/

namespace SimpleBinary

/-- A named part of a schema, and its place in a block. -/
structure Placed (κ : Type) where
  name : String
  id : UInt16
  offset : Nat
  since : Version
  kind : κ
deriving DecidableEq

inductive ValueKind
  /-- One value if `length` is one, else an array of them. -/
  | primitive (type : PrimitiveType) (order : ByteOrder) (length : Nat) (null : Option Literal)
    (charset : Option String)
  | constant (type : PrimitiveType) (value : Literal)
deriving DecidableEq

inductive FieldKind
  | value (kind : ValueKind)
  | enumeration (type : PrimitiveType) (order : ByteOrder) (null : Option Literal)
    (values : List (String × Literal))
  | set (type : PrimitiveType) (order : ByteOrder) (choices : List (String × Choice))
  | composite (size : Nat) (members : List (Placed ValueKind))
deriving DecidableEq

abbrev FieldSchema := Placed FieldKind

/-! ## Reading tokens -/

def ValueKind.ofToken (t : Token) : Except SchemaError ValueKind := do
  let type ← t.type
  if t.isConstant then
    match t.encoding.value with
    | some value => return .constant type value
    | none => throw (.missingConstValue t.name)
  else
    return .primitive type t.encoding.order t.arrayLength t.encoding.null t.encoding.charset

def Token.toValidValue (t : Token) : Except SchemaError (String × Literal) :=
  match t.encoding.value with
  | some value => .ok (t.name, value)
  | none => .error (.missingConstValue t.name)

def Token.toChoice (bits : Nat) (t : Token) : Except SchemaError (String × Choice) :=
  match t.encoding.value.bind fun l => l.value? (.unsigned .w64) with
  | some bit =>
    if bit.toNat < bits then .ok (t.name, ⟨bit.toNat, t.version⟩)
    else .error (.choiceOutOfRange t.name bit.toNat bits)
  | none => .error (.missingConstValue t.name)

/-- A member of a composite; `index` is where it stands in the list of the field. -/
def Token.toMember (t : Token) (index : Nat) : Except SchemaError (Placed ValueKind) := do
  t.expect index .encoding
  let kind ← ValueKind.ofToken t
  return ⟨t.name, t.id, t.offset, t.version, kind⟩

def FieldKind.ofTokens (type : Token) (own : List Token) : Except SchemaError FieldKind := do
  match type.signal with
  | .encoding => return .value (← ValueKind.ofToken type)
  | .beginEnum =>
    let stop ← Token.findClosing own 1 .beginEnum .endEnum
    let primitive ← type.type
    let values ← (((own.take stop).drop 2).filter fun t => t.signal = .validValue).mapM Token.toValidValue
    return .enumeration primitive type.encoding.order type.encoding.null values
  | .beginSet =>
    let stop ← Token.findClosing own 1 .beginSet .endSet
    let primitive ← type.type
    let choices ← (((own.take stop).drop 2).filter fun t => t.signal = .choice).mapM
      (Token.toChoice (8 * primitive.bytes))
    return .set primitive type.encoding.order choices
  | .beginComposite =>
    let stop ← Token.findClosing own 1 .beginComposite .endComposite
    let members ← (((own.take stop).drop 2).zipIdx 2).mapM fun (t, index) => t.toMember index
    return .composite type.size members
  | found => throw (.unexpectedSignal 1 .encoding found)

namespace FieldSchema

def ofTokens (tokens : List Token) : Except SchemaError FieldSchema := do
  let stop ← Token.findClosing tokens 0 .beginField .endField
  let own := tokens.take (stop + 1)
  match own with
  | first :: type :: _ =>
    let kind ← FieldKind.ofTokens type own
    return ⟨first.name, first.id, type.offset, type.version, kind⟩
  | _ => throw (.unexpectedEnd .encoding)

/-! ## Descriptors -/

def null? (type : PrimitiveType) (null : Option Literal) (c : Carrier) : Option c.Value :=
  if h : type.carrier = c then
    match null with
    | some literal => literal.value? c
    | none => some (h ▸ type.null)
  else none

def field? (f : FieldSchema) (c : Carrier) : Option (Field c) :=
  match f.kind with
  | .value (.primitive type order 1 null _) => do
    return ⟨f.offset, order, f.since, ← null? type null c⟩
  | _ => none

def array? (f : FieldSchema) (c : Carrier) (length : Nat) : Option (ArrayField c) :=
  match f.kind with
  | .value (.primitive type order n null _) => do
    guard (n = length)
    return ⟨f.offset, length, order, f.since, ← null? type null c, none⟩
  | _ => none

def charset? (f : FieldSchema) : Option String :=
  match f.kind with
  | .value (.primitive _ _ _ _ charset) => charset
  | _ => none

def constant? (f : FieldSchema) (c : Carrier) : Option c.Value :=
  match f.kind with
  | .value (.constant type value) => if type.carrier = c then value.value? c else none
  | _ => none

def constantBytes? (f : FieldSchema) : Option Bytes :=
  match f.kind with
  | .value (.constant _ value) => value.bytes?
  | _ => none

def enum? (f : FieldSchema) (e : Enumeration) : Option (EnumField e) :=
  match f.kind with
  | .enumeration type order _ _ =>
    if type.carrier = e.carrier then some ⟨f.offset, order, f.since⟩ else none
  | _ => none

def bitSet? (f : FieldSchema) (w : Width) : Option (BitSetField w) :=
  match f.kind with
  | .set type order _ =>
    if type.carrier = .unsigned w then some ⟨f.offset, order, f.since⟩ else none
  | _ => none

def choice? (f : FieldSchema) (name : String) : Option Choice :=
  match f.kind with
  | .set _ _ choices => choices.lookup name
  | _ => none

def composite? (f : FieldSchema) : Option CompositeField :=
  match f.kind with
  | .composite size _ => some ⟨f.offset, size, f.since⟩
  | _ => none

def ofMember (m : Placed ValueKind) : FieldSchema := { m with kind := .value m.kind }

def members (f : FieldSchema) : List FieldSchema :=
  match f.kind with
  | .composite _ members => members.map ofMember
  | _ => []

end FieldSchema

end SimpleBinary
