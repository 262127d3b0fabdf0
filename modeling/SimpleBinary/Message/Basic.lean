import SimpleBinary.Message.UnsignedField

/-!
# Messages

A message is a buffer with a cursor. The root block starts at `offset`; whatever follows it (groups
and data sections) has no fixed place, so it is found at `position`, which every section moves past
itself. The acting block length and version are those of the data at hand: the template's own when
encoding, the writer's when decoding.
-/

namespace SimpleBinary

structure Template where
  templateId : UInt16 := 0
  schemaId : UInt16 := 0
  version : Version := 0
  blockLength : UInt16 := 0
deriving DecidableEq, Repr

structure Message where
  buffer : Buffer
  template : Template
  offset : Nat
  position : Nat
  actingBlockLength : Nat
  actingVersion : Version
deriving DecidableEq, Repr

/-- A step of encoding or decoding a message. A failed step keeps what it did before it failed. -/
abbrev Pass := EStateM AccessError Message

namespace Pass

def look {α : Type} (read : Message → Except AccessError α) : Pass α := fun m =>
  match read m with
  | .ok a => .ok a m
  | .error e => .error e m

def edit {α : Type} (step : Edit α) : Pass α := fun m =>
  match step m.buffer with
  | .ok a written => .ok a { m with buffer := written }
  | .error e written => .error e { m with buffer := written }

end Pass

namespace Message

/-- A message at the start of a buffer, at the template's own version. The cursor is at the start too,
and nothing is checked. -/
def ofBuffer (template : Template) (buffer : Buffer) : Message where
  buffer := buffer
  template := template
  offset := 0
  position := 0
  actingBlockLength := template.blockLength.toNat
  actingVersion := template.version

def capacity (m : Message) : Nat := m.buffer.size

def size (m : Message) : Nat := m.position - m.offset

def root (m : Message) : Block := ⟨m.offset, m.actingVersion⟩

/-! ## The cursor -/

def seek (position : Nat) : Pass Unit := fun m =>
  if position ≤ m.capacity then .ok () { m with position := position }
  else .error (.positionBeyondCapacity (min position lastPosition) m.capacity) m

def advance (n : Nat) : Pass Nat := fun m =>
  if m.position + n ≤ m.capacity then .ok m.position { m with position := m.position + n }
  else .error (.positionBeyondCapacity (min (m.position + n) lastPosition) m.capacity) m

/-! ## Starting -/

/-- Takes the message at `offset` and moves the cursor past its root block. Where that is not in the
buffer the cursor stays, but the message has been taken. -/
def start (offset blockLength : Nat) (version : Version) : Pass Unit := do
  modify fun m =>
    { m with offset := offset, actingBlockLength := blockLength, actingVersion := version }
  seek (offset + blockLength)

def startEncode (offset : Nat) : Pass Unit := do
  let template := (← get).template
  start offset template.blockLength.toNat template.version

def startDecode (offset blockLength : Nat) (version : Version) : Pass Unit :=
  start offset blockLength version

/-- Exchanges the buffer and answers the previous one; the message has to be started again. -/
def swapBuffer (buffer : Buffer) : Pass Buffer := fun m =>
  .ok m.buffer { m with buffer := buffer, offset := 0, position := 0 }

end Message

end SimpleBinary
