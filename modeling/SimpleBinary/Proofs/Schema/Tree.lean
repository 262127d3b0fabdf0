import SimpleBinary.Proofs.Schema.Nesting
import SimpleBinary.Schema.Message

/-!
# Schema trees

A schema as a tree, from which its tokens are flattened (`tokens`) and of which it is known without
them what it describes (`schema`). Trees are well-formed by construction: what must have a type or a
value has one, and every size and count is unsigned. They hold all that their tokens hold, the
closing tokens included.
-/

namespace SimpleBinary

/-- What a token holds besides its signal. -/
structure Mark where
  name : String
  id : UInt16 := 0
  version : Version := 0
  offset : Nat := 0
  size : Nat := 0
  encoding : Encoding := {}

def Mark.token (m : Mark) (signal : Signal) : Token :=
  ⟨signal, m.name, m.id, m.version, m.offset, m.size, m.encoding⟩

/-! ## Fields -/

inductive ValueTree
  | plain (mark : Mark) (type : PrimitiveType) (hasType : mark.encoding.type = some type)
    (notConstant : mark.encoding.presence ≠ .constant)
  | constant (mark : Mark) (type : PrimitiveType) (value : Literal) (hasType : mark.encoding.type = some type)
    (isConstant : mark.encoding.presence = .constant) (hasValue : mark.encoding.value = some value)

namespace ValueTree

def mark : ValueTree → Mark
  | plain mark .. => mark
  | constant mark .. => mark

def token (t : ValueTree) : Token := t.mark.token .encoding

def kind : ValueTree → ValueKind
  | plain mark type .. =>
    .primitive type mark.encoding.order (if mark.size = 0 then 1 else mark.size / type.bytes)
      mark.encoding.null mark.encoding.charset
  | constant _ type value .. => .constant type value

def member (t : ValueTree) : Placed ValueKind := ⟨t.mark.name, t.mark.id, t.mark.offset, t.mark.version, t.kind⟩

end ValueTree

structure ValidValueTree where
  mark : Mark
  value : Literal
  hasValue : mark.encoding.value = some value

structure ChoiceTree (bits : Nat) where
  mark : Mark
  bit : (Carrier.unsigned .w64).Value
  hasBit : (mark.encoding.value.bind fun l => l.value? (.unsigned .w64)) = some bit
  bit_lt : bit.toNat < bits

inductive TypeTree
  | value (t : ValueTree)
  | enumeration (first last : Mark) (type : PrimitiveType) (hasType : first.encoding.type = some type)
    (values : List ValidValueTree)
  | set (first last : Mark) (type : PrimitiveType) (hasType : first.encoding.type = some type)
    (choices : List (ChoiceTree (8 * type.bytes)))
  | composite (first last : Mark) (members : List ValueTree)

namespace TypeTree

def mark : TypeTree → Mark
  | value t => t.mark
  | enumeration first .. => first
  | set first .. => first
  | composite first .. => first

def tokens : TypeTree → List Token
  | value t => [t.token]
  | enumeration first last _ _ values =>
    first.token .beginEnum :: (values.map (·.mark.token .validValue) ++ [last.token .endEnum])
  | set first last _ _ choices =>
    first.token .beginSet :: (choices.map (·.mark.token .choice) ++ [last.token .endSet])
  | composite first last members =>
    first.token .beginComposite :: (members.map (·.token) ++ [last.token .endComposite])

def kind : TypeTree → FieldKind
  | value t => .value t.kind
  | enumeration first _ type _ values =>
    .enumeration type first.encoding.order first.encoding.null (values.map fun v => (v.mark.name, v.value))
  | set first _ type _ choices =>
    .set type first.encoding.order (choices.map fun c => (c.mark.name, ⟨c.bit.toNat, c.mark.version⟩))
  | composite first _ members => .composite first.size (members.map (·.member))

end TypeTree

structure FieldTree where
  first : Mark
  last : Mark
  type : TypeTree

namespace FieldTree

def tokens (t : FieldTree) : List Token :=
  t.first.token .beginField :: (t.type.tokens ++ [t.last.token .endField])

def schema (t : FieldTree) : FieldSchema :=
  ⟨t.first.name, t.first.id, t.type.mark.offset, t.type.mark.version, t.type.kind⟩

end FieldTree

/-! ## Groups and data sections -/

/-- The member with the given name, the first if there are more. -/
structure UnsignedTree (members : List Mark) (name : String) where
  mark : Mark
  found : members.find? (fun m => m.name = name) = some mark
  type : PrimitiveType
  hasType : mark.encoding.type = some type
  width : Width
  unsigned : type.width? = some width

def UnsignedTree.field {members : List Mark} {name : String} (t : UnsignedTree members name) : UnsignedField :=
  ⟨t.mark.offset, t.width, t.mark.encoding.order⟩

structure DimensionsTree where
  first : Mark
  last : Mark
  members : List Mark
  blockLength : UnsignedTree members "blockLength"
  numInGroup : UnsignedTree members "numInGroup"

namespace DimensionsTree

def interior (t : DimensionsTree) : List Token := t.members.map (·.token .encoding)

def tokens (t : DimensionsTree) : List Token :=
  t.first.token .beginComposite :: (t.interior ++ [t.last.token .endComposite])

def schema (t : DimensionsTree) : Dimensions := ⟨t.blockLength.field, t.numInGroup.field, t.first.size⟩

end DimensionsTree

/-- The composite of a section has the length, and after it the data and whatever else there is. -/
structure DataTree where
  first : Mark
  last : Mark
  compositeFirst : Mark
  compositeLast : Mark
  length : Mark
  type : PrimitiveType
  hasType : length.encoding.type = some type
  width : Width
  unsigned : type.width? = some width
  others : List Mark

namespace DataTree

def composite (t : DataTree) : List Token :=
  t.compositeFirst.token .beginComposite ::
    ((t.length :: t.others).map (·.token .encoding) ++ [t.compositeLast.token .endComposite])

def tokens (t : DataTree) : List Token :=
  t.first.token .beginVarData :: (t.composite ++ [t.last.token .endVarData])

def schema (t : DataTree) : DataSchema :=
  ⟨t.first.name, t.first.id, ⟨t.width, t.length.encoding.order, t.first.version, none⟩,
    t.others.head?.bind fun data => data.encoding.charset⟩

end DataTree

/-! ## Members -/

/-- The members of a message or a group, in any order. -/
inductive MemberTree
  | nil
  | field (t : FieldTree) (rest : MemberTree)
  | group (first last : Mark) (dimensions : DimensionsTree) (inner rest : MemberTree)
  | data (t : DataTree) (rest : MemberTree)

namespace MemberTree

def tokens : MemberTree → List Token
  | nil => []
  | field t rest => t.tokens ++ rest.tokens
  | group first last dimensions inner rest =>
    first.token .beginGroup :: (dimensions.tokens ++ inner.tokens ++ last.token .endGroup :: rest.tokens)
  | data t rest => t.tokens ++ rest.tokens

def fields : MemberTree → List FieldSchema
  | nil => []
  | field t rest => t.schema :: rest.fields
  | group _ _ _ _ rest => rest.fields
  | data _ rest => rest.fields

def dataSections : MemberTree → List DataSchema
  | nil => []
  | field _ rest => rest.dataSections
  | group _ _ _ _ rest => rest.dataSections
  | data t rest => t.schema :: rest.dataSections

def groups : MemberTree → List GroupSchema
  | nil => []
  | field _ rest => rest.groups
  | group first _ dimensions inner rest =>
    ⟨first.name, first.id, ⟨first.size, first.version, dimensions.schema⟩, inner.fields, inner.groups,
      inner.dataSections⟩ :: rest.groups
  | data _ rest => rest.groups

end MemberTree

structure MessageTree where
  first : Mark
  last : Mark
  members : MemberTree
  size_le : first.size ≤ 65535

namespace MessageTree

def tokens (t : MessageTree) : List Token :=
  t.first.token .beginMessage :: (t.members.tokens ++ [t.last.token .endMessage])

def schema (t : MessageTree) : MessageSchema :=
  ⟨t.first.name, ⟨t.first.id, 0, t.first.version, UInt16.ofNat t.first.size⟩, t.members.fields, t.members.groups,
    t.members.dataSections⟩

end MessageTree

end SimpleBinary
