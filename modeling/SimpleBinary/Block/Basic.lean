import SimpleBinary.Block.Enumeration
import SimpleBinary.Block.BitSet

/-!
# Blocks

A block is a place in a buffer where fields lie at fixed offsets: the root of a message, an element
of a group, a composite. It knows where it starts and at which version its data was written.

Reading goes through `fetch`: a field that is newer than the data is not looked up, and its absent
value stands in. Writing goes through `store` and does not ask for the version. Both refuse exactly
the ranges that leave the buffer, and a refused write changes nothing.
-/

namespace SimpleBinary

/-- A step that may change a buffer; a failed one leaves what was written before it. -/
abbrev Edit := EStateM AccessError Buffer

namespace Edit

def look {α : Type} (read : Buffer → Except AccessError α) : Edit α := fun buffer =>
  match read buffer with
  | .ok a => .ok a buffer
  | .error e => .error e buffer

def overwrite (offset : Nat) (bytes : Bytes) : Edit Unit := fun buffer =>
  match buffer.overwrite offset bytes with
  | .ok written => .ok () written
  | .error e => .error e buffer

end Edit

structure Block where
  base : Nat
  version : Version
deriving DecidableEq, Repr

namespace Block
variable {c : Carrier} {e : Enumeration} {w : Width}

/-- The bytes of a field, or none if the field is newer than the data. -/
def fetch (b : Block) (since : Version) (offset width : Nat) (buffer : Buffer) :
    Except AccessError (Option Bytes) :=
  if b.version.includes since then some <$> buffer.window (b.base + offset) width else .ok none

def store (b : Block) (offset : Nat) (bytes : Bytes) : Edit Unit :=
  Edit.overwrite (b.base + offset) bytes

/-! ## Reading -/

def get (b : Block) (f : Field c) (buffer : Buffer) : Except AccessError c.Value := do
  match ← b.fetch f.since f.offset c.bytes buffer with
  | some raw => return c.decode f.order raw
  | none => return f.null

/-- The index is checked even where the array is newer than the data. -/
def getElement (b : Block) (f : ArrayField c) (index : Nat) (buffer : Buffer) :
    Except AccessError c.Value := do
  let offset ← f.elementOffset index
  match ← b.fetch f.since offset c.bytes buffer with
  | some raw => return c.decode f.order raw
  | none => return f.null

/-- Copies the whole array to the front of `dst`: how many bytes were copied, and `dst` after it.
Nothing is copied from an array that is newer than the data. -/
def getArray (b : Block) (f : ByteArrayField) (dst : Bytes) (buffer : Buffer) :
    Except AccessError (Nat × Bytes) := do
  if dst.length < f.length then
    throw (.copyOutOfRange f.length dst.length)
  match ← b.fetch f.since f.offset f.length buffer with
  | some raw => return (f.length, raw ++ dst.drop f.length)
  | none => return (0, dst)

def getVariant (b : Block) (f : EnumField e) (buffer : Buffer) : Except AccessError e.Value := do
  match ← b.fetch f.since f.offset e.carrier.bytes buffer with
  | some raw => return e.decode (e.carrier.decode f.order raw)
  | none => return none

def getBits (b : Block) (f : BitSetField w) (buffer : Buffer) : Except AccessError (BitVec w.bits) := do
  match ← b.fetch f.since f.offset w.bytes buffer with
  | some raw => return (Carrier.unsigned w).decode f.order raw
  | none => return 0

def getChoice (b : Block) (f : BitSetField w) (choice : Choice) (buffer : Buffer) :
    Except AccessError Bool :=
  if b.version.includes choice.since then choice.test <$> b.getBits f buffer else .ok false

def enter (b : Block) (f : CompositeField) (buffer : Buffer) : Except AccessError Block :=
  (fun _ => ⟨b.base + f.offset, b.version⟩) <$> buffer.window (b.base + f.offset) f.size

def composite? (b : Block) (f : CompositeField) (buffer : Buffer) :
    Except AccessError (Option Block) :=
  if b.version.includes f.since then some <$> b.enter f buffer else .ok none

/-! ## Writing -/

def put (b : Block) (f : Field c) (v : c.Value) : Edit Unit :=
  b.store f.offset (c.encode f.order v)

def putElement (b : Block) (f : ArrayField c) (index : Nat) (v : c.Value) : Edit Unit := do
  let offset ← Edit.look fun _ => f.elementOffset index
  b.store offset (c.encode f.order v)

def putArray (b : Block) (f : ByteArrayField) (src : Bytes) : Edit Unit := do
  if src.length < f.length then
    throw (.copyOutOfRange f.length src.length)
  b.store f.offset (src.take f.length)

def putVariant (b : Block) (f : EnumField e) (v : e.Value) : Edit Unit :=
  b.store f.offset (e.carrier.encode f.order (e.encode v))

def putBits (b : Block) (f : BitSetField w) (raw : BitVec w.bits) : Edit Unit :=
  b.store f.offset ((Carrier.unsigned w).encode f.order raw)

def putChoice (b : Block) (f : BitSetField w) (choice : Choice) (value : Bool) : Edit Unit := do
  let raw ← Edit.look fun buffer => buffer.window (b.base + f.offset) w.bytes
  b.putBits f (choice.apply ((Carrier.unsigned w).decode f.order raw) value)

end Block

/-! ## Views of composites -/

/-- A type through which a composite is read and written by its members' names. -/
class CompositeView (α : Type) where
  size : Nat
  ofBlock : Block → α

namespace Block
variable {α : Type} [CompositeView α]

def view? (b : Block) (f : CompositeField) (buffer : Buffer) :
    Except AccessError (Option α) :=
  Option.map CompositeView.ofBlock <$> b.composite? f buffer

def view (b : Block) (f : CompositeField) (buffer : Buffer) : Except AccessError α :=
  CompositeView.ofBlock <$> b.enter f buffer

end Block

end SimpleBinary
