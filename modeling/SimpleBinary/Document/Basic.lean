import SimpleBinary.Number.Carrier

/-!
# Documents

The self-describing form of schemas and descriptors: records of named parts, lists, and texts for
the names of cases. A case that holds something is a record of one part that has the case's name.
Floating-point numbers stay bit patterns.
-/

namespace SimpleBinary

inductive Document
  | null
  | int (i : Int)
  | single (v : Carrier.float32.Value)
  | double (v : Carrier.float64.Value)
  | text (s : String)
  | list (items : List Document)
  | record (parts : List (String × Document))

class ToDocument (α : Type) where
  document : α → Document

export ToDocument (document)

namespace Document

def case (name : String) (content : Document) : Document := .record [(name, content)]

def ofValue : (c : Carrier) → c.Value → Document
  | .unsigned _, v => .int v.toNat
  | .signed _, v => .int v.toInt
  | .float32, v => .single v
  | .float64, v => .double v

end Document

instance : ToDocument Nat := ⟨fun n => .int n⟩

instance : ToDocument UInt8 := ⟨fun n => .int n.toNat⟩

instance : ToDocument UInt16 := ⟨fun n => .int n.toNat⟩

instance : ToDocument String := ⟨.text⟩

instance {α : Type} [ToDocument α] : ToDocument (Option α) where
  document
    | some a => document a
    | none => .null

instance {α : Type} [ToDocument α] : ToDocument (List α) := ⟨fun items => .list (items.map document)⟩

instance {α β : Type} [ToDocument α] [ToDocument β] : ToDocument (α × β) :=
  ⟨fun (a, b) => .list [document a, document b]⟩

instance : ToDocument ByteOrder where
  document
    | .little => .text "LittleEndian"
    | .big => .text "BigEndian"

instance : ToDocument Width := ⟨fun w => .text w.name⟩

instance : ToDocument PrimitiveType := ⟨fun t => .text t.name⟩

end SimpleBinary
