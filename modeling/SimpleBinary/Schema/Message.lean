import SimpleBinary.Schema.Field
import SimpleBinary.Message.Data

/-!
# Messages in a schema

What a schema says about a message: its template, and its fields, groups and data sections in the
order of the schema; a group has fields, groups and data sections of its own. Fields, groups and
data sections are told apart by the token that opens them, and each is read from the tokens up to
the one that closes it.
-/

namespace SimpleBinary

structure DataSchema where
  name : String
  id : UInt16
  format : DataFormat
  charset : Option String
deriving DecidableEq

structure GroupSchema where
  name : String
  id : UInt16
  format : GroupFormat
  fields : List FieldSchema
  groups : List GroupSchema
  data : List DataSchema

structure Members where
  fields : List FieldSchema := []
  groups : List GroupSchema := []
  data : List DataSchema := []

structure MessageSchema where
  name : String
  template : Template
  fields : List FieldSchema
  groups : List GroupSchema
  data : List DataSchema

/-- The composite of a section has the length first and the data second. -/
def DataSchema.ofTokens (tokens : List Token) : Except SchemaError DataSchema := do
  match tokens with
  | [] => throw (.unexpectedEnd .beginVarData)
  | first :: rest =>
    first.expect 0 .beginVarData
    let (_, members) ← Token.compositeParts rest
    match members with
    | [] => throw (.unexpectedEnd .encoding)
    | length :: others =>
      length.expect 2 .encoding
      let width ← length.width
      let charset := others.head?.bind fun data => data.encoding.charset
      return ⟨first.name, first.id, ⟨width, length.encoding.order, first.version, none⟩, charset⟩

namespace Members

def addField (f : FieldSchema) (m : Members) : Members := { m with fields := f :: m.fields }

def addGroup (g : GroupSchema) (m : Members) : Members := { m with groups := g :: m.groups }

def addData (d : DataSchema) (m : Members) : Members := { m with data := d :: m.data }

end Members

mutual

def GroupSchema.ofTokens (tokens : List Token) : Except SchemaError GroupSchema :=
  match tokens with
  | [] => .error (.unexpectedEnd .beginGroup)
  | first :: rest => do
    let stop ← Token.findClosing (first :: rest) 0 .beginGroup .endGroup
    let own := (first :: rest).take (stop + 1)
    let format ← GroupFormat.ofTokens own
    let dimensionsEnd ← Token.findClosing own 1 .beginComposite .endComposite
    let m ← Members.ofTokens 0 (((first :: rest).take stop).drop (dimensionsEnd + 1))
    return ⟨first.name, first.id, format, m.fields, m.groups, m.data⟩
termination_by 2 * tokens.length
decreasing_by simp; omega

/-- The members whose tokens follow one another to the end of the list, which starts at `index` of
the list that is being read. -/
def Members.ofTokens (index : Nat) (tokens : List Token) : Except SchemaError Members :=
  match tokens with
  | [] => .ok {}
  | first :: rest =>
    match first.signal with
    | .beginField => do
      let stop ← Token.findClosing (first :: rest) 0 .beginField .endField
      let field ← FieldSchema.ofTokens ((first :: rest).take (stop + 1))
      let others ← Members.ofTokens (index + stop + 1) (rest.drop stop)
      return others.addField field
    | .beginGroup => do
      let stop ← Token.findClosing (first :: rest) 0 .beginGroup .endGroup
      let group ← GroupSchema.ofTokens ((first :: rest).take (stop + 1))
      let others ← Members.ofTokens (index + stop + 1) (rest.drop stop)
      return others.addGroup group
    | .beginVarData => do
      let stop ← Token.findClosing (first :: rest) 0 .beginVarData .endVarData
      let data ← DataSchema.ofTokens ((first :: rest).take (stop + 1))
      let others ← Members.ofTokens (index + stop + 1) (rest.drop stop)
      return others.addData data
    | found => .error (.unexpectedSignal index .beginField found)
termination_by 2 * tokens.length + 1

end

namespace GroupSchema

def field? (g : GroupSchema) (name : String) : Option FieldSchema :=
  g.fields.find? fun f => f.name = name

def group? (g : GroupSchema) (name : String) : Option GroupSchema :=
  g.groups.find? fun h => h.name = name

end GroupSchema

namespace MessageSchema

/-- A message from the token that opens it to the one that closes it. The schema's id is not in the
tokens, and is left at zero. -/
def ofTokens (tokens : List Token) : Except SchemaError MessageSchema := do
  let stop ← Token.findClosing tokens 0 .beginMessage .endMessage
  match tokens.take stop with
  | [] => throw (.unexpectedEnd .beginMessage)
  | first :: members =>
    if 65535 < first.size then
      throw (.oversizedBlock first.name first.size)
    let m ← Members.ofTokens 0 members
    let template := ⟨first.id, 0, first.version, UInt16.ofNat first.size⟩
    return ⟨first.name, template, m.fields, m.groups, m.data⟩

def withSchemaId (m : MessageSchema) (id : UInt16) : MessageSchema :=
  { m with template := { m.template with schemaId := id } }

def field? (m : MessageSchema) (name : String) : Option FieldSchema :=
  m.fields.find? fun f => f.name = name

def group? (m : MessageSchema) (name : String) : Option GroupSchema :=
  m.groups.find? fun g => g.name = name

def data? (m : MessageSchema) (name : String) : Option DataSchema :=
  m.data.find? fun d => d.name = name

end MessageSchema

end SimpleBinary
