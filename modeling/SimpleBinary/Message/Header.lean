import SimpleBinary.Message.Basic

/-!
# Message headers

The header in front of a message says how it was encoded: its block length, its template, its
schema and the version. A decoder reads it first and takes the body by what it finds.
-/

namespace SimpleBinary

structure HeaderFormat where
  blockLength : UnsignedField
  templateId : UnsignedField
  schemaId : UnsignedField
  version : UnsignedField
  size : Nat
deriving DecidableEq, Repr

def HeaderFormat.standard : HeaderFormat where
  blockLength := ⟨0, .w16, .little⟩
  templateId := ⟨2, .w16, .little⟩
  schemaId := ⟨4, .w16, .little⟩
  version := ⟨6, .w16, .little⟩
  size := 8

structure HeaderView where
  base : Nat
  format : HeaderFormat
deriving DecidableEq, Repr

namespace HeaderView

/-- Members may be wider than what they hold, which has 16 bits. -/
def member (h : HeaderView) (f : UnsignedField) (buffer : Buffer) : Except AccessError UInt16 := do
  let n ← f.read h.base buffer
  return UInt16.ofNat (← Width.w16.fit n)

def blockLength (h : HeaderView) : Buffer → Except AccessError UInt16 := h.member h.format.blockLength

def templateId (h : HeaderView) : Buffer → Except AccessError UInt16 := h.member h.format.templateId

def schemaId (h : HeaderView) : Buffer → Except AccessError UInt16 := h.member h.format.schemaId

def version (h : HeaderView) : Buffer → Except AccessError UInt16 := h.member h.format.version

def template (h : HeaderView) (buffer : Buffer) : Except AccessError Template := do
  let templateId ← h.templateId buffer
  let schemaId ← h.schemaId buffer
  let version ← h.version buffer
  let blockLength ← h.blockLength buffer
  return ⟨templateId, schemaId, version, blockLength⟩

/-- Writes the members one after the other; those before a failure stay written. -/
def write (h : HeaderView) (t : Template) : Edit Unit := do
  h.format.blockLength.write h.base t.blockLength.toNat
  h.format.templateId.write h.base t.templateId.toNat
  h.format.schemaId.write h.base t.schemaId.toNat
  h.format.version.write h.base t.version.toNat

end HeaderView

instance : CompositeView HeaderView where
  size := HeaderFormat.standard.size
  ofBlock b := ⟨b.base, .standard⟩

namespace Message

/-- Reads the header at `offset` and starts to decode the body after it. The template found is not
compared with the message's own. -/
def decodeHeader (offset : Nat) (format : HeaderFormat) : Pass Template := do
  let found ← Pass.look fun m => (HeaderView.mk offset format).template m.buffer
  startDecode (offset + format.size) found.blockLength.toNat found.version
  return found

def encodeHeader (offset : Nat) (format : HeaderFormat) : Pass Unit := do
  let template := (← get).template
  Pass.edit ((HeaderView.mk offset format).write template)
  startEncode (offset + format.size)

end Message

end SimpleBinary
