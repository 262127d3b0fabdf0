import SimpleBinary.Document.Basic
import SimpleBinary.Message.Group
import SimpleBinary.Message.Header
import SimpleBinary.Message.Data

/-!
# Documents of descriptors

The length of an array and the types behind enumeration and bit-set fields belong to the types of
these descriptors, and are not part of their documents.
-/

namespace SimpleBinary

instance {c : Carrier} : ToDocument (Field c) where
  document f := .record
    [("offset", document f.offset), ("since_version", document f.since),
      ("byte_order", document f.order), ("null", .ofValue c f.null)]

instance {c : Carrier} : ToDocument (ArrayField c) where
  document f := .record
    [("offset", document f.offset), ("since_version", document f.since),
      ("byte_order", document f.order), ("null", .ofValue c f.null),
      ("character_encoding", document f.charset)]

instance {e : Enumeration} : ToDocument (EnumField e) where
  document f := .record
    [("offset", document f.offset), ("since_version", document f.since),
      ("byte_order", document f.order)]

instance {w : Width} : ToDocument (BitSetField w) where
  document f := .record
    [("offset", document f.offset), ("since_version", document f.since),
      ("byte_order", document f.order)]

instance : ToDocument Choice where
  document c := .record [("bit", document c.bit), ("since_version", document c.since)]

instance : ToDocument CompositeField where
  document f := .record
    [("offset", document f.offset), ("size", document f.size),
      ("since_version", document f.since)]

instance : ToDocument UnsignedField where
  document f := .record
    [("offset", document f.offset), ("ty", document f.width), ("byte_order", document f.order)]

instance : ToDocument Template where
  document t := .record
    [("template_id", document t.templateId), ("schema_id", document t.schemaId),
      ("version", document t.version), ("block_length", document t.blockLength)]

instance : ToDocument HeaderFormat where
  document f := .record
    [("block_length", document f.blockLength), ("template_id", document f.templateId),
      ("schema_id", document f.schemaId), ("version", document f.version),
      ("size", document f.size)]

instance : ToDocument Dimensions where
  document d := .record
    [("block_length", document d.blockLength), ("num_in_group", document d.numInGroup),
      ("size", document d.size)]

instance : ToDocument GroupFormat where
  document f := .record
    [("block_length", document f.blockLength), ("since_version", document f.since),
      ("dimensions", document f.dimensions)]

instance : ToDocument DataFormat where
  document f := .record
    [("length", document f.length), ("byte_order", document f.order),
      ("since_version", document f.since), ("character_encoding", document f.charset)]

end SimpleBinary
