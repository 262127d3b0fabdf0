import SimpleBinary.Proofs.Schema.Tree

/-!
# Drafts

A draft is a schema of which no more is known than how it is nested: whatever is opened is closed, and
groups and data sections begin with a composite of their own. Anything else may be wrong with it, and
`defects` are what is, in the order in which they stand in the schema. They are told element by element,
without a list of tokens in which the elements would have to be found first.
-/

namespace SimpleBinary

/-! ## Single tokens -/

namespace Token

def typeDefects (t : Token) : List SchemaError :=
  if t.encoding.type = none then [.missingPrimitiveType t.name] else []

def constantDefects (t : Token) : List SchemaError :=
  if t.encoding.value = none then [.missingConstValue t.name] else []

/-- The defects of a value that stands for itself. Its type comes before its constant. -/
def valueDefects (t : Token) : List SchemaError :=
  t.typeDefects ++ if t.isConstant then t.constantDefects else []

def widthDefects (t : Token) : List SchemaError :=
  match t.encoding.type with
  | none => [.missingPrimitiveType t.name]
  | some type => if type.width? = none then [.unsupportedWidth t.name type] else []

def choiceDefects (bits : Nat) (t : Token) : List SchemaError :=
  match t.encoding.value.bind Literal.integer? with
  | some (.ofNat bit) => if bit < bits then [] else [.choiceOutOfRange t.name bit bits]
  | some (.negSucc _) | none => [.missingConstValue t.name]

def memberDefects (t : Token) (index : Nat) : List SchemaError :=
  if t.signal = .encoding then t.valueDefects else [.unexpectedSignal index .encoding t.signal]

end Token

structure Interior where
  tokens : List Token
  nested : Token.Nested tokens

/-! ## Fields -/

inductive TypeDraft
  | value (mark : Mark)
  | enumeration (first last : Mark) (inner : Interior)
  | set (first last : Mark) (inner : Interior)
  | composite (first last : Mark) (inner : Interior)

def Signal.isType : Signal → Bool
  | encoding | beginEnum | beginSet | beginComposite => true
  | _ => false

namespace TypeDraft

def signal : TypeDraft → Signal
  | value _ => .encoding
  | enumeration .. => .beginEnum
  | set .. => .beginSet
  | composite .. => .beginComposite

def mark : TypeDraft → Mark
  | value mark => mark
  | enumeration first .. | set first .. | composite first .. => first

def tokens : TypeDraft → List Token
  | value mark => [mark.token .encoding]
  | enumeration first last inner => first.token .beginEnum :: (inner.tokens ++ [last.token .endEnum])
  | set first last inner => first.token .beginSet :: (inner.tokens ++ [last.token .endSet])
  | composite first last inner => first.token .beginComposite :: (inner.tokens ++ [last.token .endComposite])

/-- Nothing but valid values counts in an enumeration and nothing but choices in a set; without the type of
the set it is not known which bits there are. -/
def defects : TypeDraft → List SchemaError
  | value mark => (mark.token .encoding).valueDefects
  | enumeration first _ inner =>
    (first.token .beginEnum).typeDefects ++
      (inner.tokens.filter fun t => t.signal = .validValue).flatMap Token.constantDefects
  | set first _ inner =>
    match first.encoding.type with
    | none => [.missingPrimitiveType first.name]
    | some type => (inner.tokens.filter fun t => t.signal = .choice).flatMap (Token.choiceDefects (8 * type.bytes))
  | composite _ _ inner => (inner.tokens.zipIdx 2).flatMap fun (t, index) => t.memberDefects index

end TypeDraft

inductive FieldDraft
  | typed (first last : Mark) (type : TypeDraft) (after : Interior)
  /-- A field in which something else comes first, or nothing. -/
  | untyped (first last : Mark) (inner : Interior) (noType : ∀ t ∈ inner.tokens.head?, t.signal.isType = false)

namespace FieldDraft

def interior : FieldDraft → List Token
  | typed _ _ type after => type.tokens ++ after.tokens
  | untyped _ _ inner _ => inner.tokens

def first : FieldDraft → Mark
  | typed first .. | untyped first .. => first

def last : FieldDraft → Mark
  | typed _ last .. | untyped _ last .. => last

def tokens (t : FieldDraft) : List Token :=
  t.first.token .beginField :: (t.interior ++ [t.last.token .endField])

def defects : FieldDraft → List SchemaError
  | typed _ _ type _ => type.defects
  | untyped _ _ inner _ =>
    match inner.tokens with
    | [] => [.unexpectedSignal 1 .encoding .endField]
    | t :: _ => [.unexpectedSignal 1 .encoding t.signal]

end FieldDraft

/-! ## Groups and data sections -/

structure CompositeDraft where
  first : Mark
  last : Mark
  inner : Interior

namespace CompositeDraft

def tokens (t : CompositeDraft) : List Token :=
  t.first.token .beginComposite :: (t.inner.tokens ++ [t.last.token .endComposite])

def unsignedDefects (t : CompositeDraft) (name : String) : List SchemaError :=
  match t.inner.tokens.find? fun t => t.signal = .encoding && t.name = name with
  | none => [.missingMember t.first.name name]
  | some member => member.widthDefects

def dimensionsDefects (t : CompositeDraft) : List SchemaError :=
  t.unsignedDefects "blockLength" ++ t.unsignedDefects "numInGroup"

/-- Of the members of a data section only the length can be wrong, which is the first of them. -/
def dataDefects (t : CompositeDraft) : List SchemaError :=
  match t.inner.tokens with
  | [] => [.unexpectedEnd .encoding]
  | length :: _ =>
    if length.signal = .encoding then length.widthDefects else [.unexpectedSignal 2 .encoding length.signal]

end CompositeDraft

structure DataDraft where
  first : Mark
  last : Mark
  composite : CompositeDraft
  after : Interior

namespace DataDraft

def tokens (t : DataDraft) : List Token :=
  t.first.token .beginVarData :: (t.composite.tokens ++ t.after.tokens ++ [t.last.token .endVarData])

def defects (t : DataDraft) : List SchemaError := t.composite.dataDefects

end DataDraft

/-! ## Members -/

def Signal.isMember : Signal → Bool
  | beginField | beginGroup | beginVarData => true
  | _ => false

inductive MemberDraft
  | nil
  | field (t : FieldDraft) (rest : MemberDraft)
  | group (first last : Mark) (dimensions : CompositeDraft) (inner rest : MemberDraft)
  | data (t : DataDraft) (rest : MemberDraft)
  /-- Where a member should be, something else is. -/
  | stray (first : Token) (after : List Token) (nested : Token.Nested (first :: after))
    (noMember : first.signal.isMember = false) (rest : MemberDraft)

namespace MemberDraft

def tokens : MemberDraft → List Token
  | nil => []
  | field t rest => t.tokens ++ rest.tokens
  | group first last dimensions inner rest =>
    first.token .beginGroup :: (dimensions.tokens ++ inner.tokens ++ last.token .endGroup :: rest.tokens)
  | data t rest => t.tokens ++ rest.tokens
  | stray first after _ _ rest => first :: (after ++ rest.tokens)

/-- The defects of members that start at `index` of the message or the group that they are in. -/
def defects : MemberDraft → Nat → List SchemaError
  | nil, _ => []
  | field t rest, index => t.defects ++ rest.defects (index + t.tokens.length)
  | group _ _ dimensions inner rest, index =>
    dimensions.dimensionsDefects ++ inner.defects 0 ++
      rest.defects (index + (dimensions.tokens.length + inner.tokens.length + 2))
  | data t rest, index => t.defects ++ rest.defects (index + t.tokens.length)
  | stray first after _ _ rest, index =>
    .unexpectedSignal index .beginField first.signal :: rest.defects (index + (after.length + 1))

end MemberDraft

structure MessageDraft where
  first : Mark
  last : Mark
  members : MemberDraft

namespace MessageDraft

def tokens (t : MessageDraft) : List Token :=
  t.first.token .beginMessage :: (t.members.tokens ++ [t.last.token .endMessage])

def defects (t : MessageDraft) : List SchemaError :=
  (if 65535 < t.first.size then [.oversizedBlock t.first.name t.first.size] else []) ++ t.members.defects 0

end MessageDraft

end SimpleBinary
