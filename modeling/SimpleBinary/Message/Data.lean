import SimpleBinary.Message.Basic

/-!
# Data sections

A section of variable length is its length and then that many bytes. Reading a section always moves
the cursor past the whole of it, however little of it is asked for.
-/

namespace SimpleBinary

structure DataFormat where
  length : Width
  order : ByteOrder := .little
  since : Version := 0
  charset : Option String := none
deriving DecidableEq, Repr

namespace DataFormat

def standard : DataFormat where
  length := .w32
  charset := some "UTF-8"

def lengthSize (f : DataFormat) : Nat := f.length.bytes

/-- Moves the cursor past the section: where its data starts and how long it is, or none if the
section is newer than the message. -/
def take (f : DataFormat) : Pass (Option (Nat × Nat)) := do
  let m ← get
  if m.actingVersion.includes f.since then
    let raw ← Pass.look fun m => m.buffer.window m.position f.lengthSize
    let length := f.order.decode raw
    let _ ← Message.advance f.lengthSize
    let start ← Message.advance length
    return some (start, length)
  else
    return none

def read (f : DataFormat) : Pass Bytes := do
  match ← f.take with
  | some (start, length) => return ((← get).buffer.extract start (start + length)).toList
  | none => return []

/-- Copies as much of the data as `dst` holds to its front: how many bytes, and `dst` after it. -/
def copy (f : DataFormat) (dst : Bytes) : Pass (Nat × Bytes) := do
  match ← f.take with
  | some (start, length) =>
    let n := min length dst.length
    return (n, ((← get).buffer.extract start (start + n)).toList ++ dst.drop n)
  | none => return (0, dst)

/-- Writes `src` as a section and answers its length. A section that does not fit its length or the
buffer is not begun. -/
def write (f : DataFormat) (src : Bytes) : Pass Nat := do
  let _ ← Pass.look fun _ => f.length.fit src.length
  let base ← Message.advance (f.lengthSize + src.length)
  Pass.edit (Edit.overwrite base (f.order.encode f.lengthSize src.length))
  Pass.edit (Edit.overwrite (base + f.lengthSize) src)
  return src.length

end DataFormat

end SimpleBinary
