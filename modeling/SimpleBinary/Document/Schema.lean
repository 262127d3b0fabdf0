import SimpleBinary.Document.Descriptor
import SimpleBinary.Schema.Message

/-!
# Documents of schemas

Tokens and what is read from them.
-/

namespace SimpleBinary

instance : ToDocument Signal := ⟨fun s => .text s.name⟩

instance : ToDocument Presence where
  document
    | .required => .text "Required"
    | .optional => .text "Optional"
    | .constant => .text "Constant"

/-- A number that is infinite or none has no document of its own. -/
def Document.ofDouble (v : Carrier.float64.Value) : Document :=
  if v.toNat % FloatFormat.double.signBit < FloatFormat.double.infinity then .double v else .null

instance : ToDocument Literal where
  document
    | .long i => .case "Long" (.int i.toInt)
    | .ulong n => .case "ULong" (document n.toNat)
    | .double v => .case "Double" (.ofDouble v)
    | .bytes value => .case "Bytes" (document value)

instance : ToDocument Encoding where
  document e := .record
    [("primitive_type", document e.type), ("byte_order", document e.order),
      ("presence", document e.presence), ("null_value", document e.null),
      ("const_value", document e.value), ("character_encoding", document e.charset)]

instance : ToDocument Token where
  document t := .record
    [("signal", document t.signal), ("name", document t.name), ("schema_id", document t.id),
      ("version", document t.version), ("offset", document t.offset), ("size", document t.size),
      ("encoding", document t.encoding)]

instance : ToDocument ValueKind where
  document
    | .primitive type order length null charset => .case "Primitive" <| .record
      [("ty", document type), ("byte_order", document order), ("array_length", document length),
        ("null_value", document null), ("character_encoding", document charset)]
    | .constant type value => .case "Constant" <| .record
      [("ty", document type), ("value", document value)]

instance {κ : Type} [ToDocument κ] : ToDocument (Placed κ) where
  document f := .record
    [("name", document f.name), ("schema_id", document f.id), ("offset", document f.offset),
      ("since_version", document f.since), ("kind", document f.kind)]

instance : ToDocument FieldKind where
  document
    | .value kind => document kind
    | .enumeration type order null values => .case "Enum" <| .record
      [("ty", document type), ("byte_order", document order), ("null_value", document null),
        ("values", document values)]
    | .set type order choices => .case "Set" <| .record
      [("ty", document type), ("byte_order", document order), ("choices", document choices)]
    | .composite size members => .case "Composite" <| .record
      [("size", document size), ("members", document members)]

instance : ToDocument DataSchema where
  document d := .record
    [("name", document d.name), ("schema_id", document d.id), ("field", document d.format),
      ("character_encoding", document d.charset)]

def GroupSchema.toDocument : GroupSchema → Document
  | ⟨name, id, format, fields, groups, data⟩ => .record
    [("name", document name), ("schema_id", document id), ("layout", document format),
      ("fields", document fields), ("groups", .list (groups.map toDocument)),
      ("var_data", document data)]

instance : ToDocument GroupSchema := ⟨GroupSchema.toDocument⟩

instance : ToDocument MessageSchema where
  document m := .record
    [("name", document m.name), ("template", document m.template), ("fields", document m.fields),
      ("groups", document m.groups), ("var_data", document m.data)]

end SimpleBinary
