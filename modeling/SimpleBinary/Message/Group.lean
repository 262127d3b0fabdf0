import SimpleBinary.Message.Basic

/-!
# Repeating groups

A group is its dimensions (the length of an element's block and the number of elements) and then
its elements. Entering an element moves the cursor over its block; what is nested in the element
follows the block. When decoding, the step from element to element is the encoded block length, so
a block that a newer writer made longer is skipped whole.
-/

namespace SimpleBinary

structure Dimensions where
  blockLength : UnsignedField
  numInGroup : UnsignedField
  size : Nat
deriving DecidableEq, Repr

def Dimensions.standard : Dimensions where
  blockLength := ⟨0, .w16, .little⟩
  numInGroup := ⟨2, .w16, .little⟩
  size := 4

structure GroupFormat where
  blockLength : Nat
  since : Version := 0
  dimensions : Dimensions := .standard
deriving DecidableEq, Repr

/-- A group that is being walked: `visited` of its `count` elements have been entered, the last of
them at `elementOffset`. -/
structure Group where
  blockLength : Nat
  count : Nat
  visited : Nat
  elementOffset : Nat
deriving DecidableEq, Repr

namespace Group

def hasNext (g : Group) : Bool := g.visited < g.count

def index? (g : Group) : Option Nat := if g.visited = 0 then none else some (g.visited - 1)

def element (g : Group) (version : Version) : Block := ⟨g.elementOffset, version⟩

/-- Reads the dimensions at the cursor. A group that is newer than the data is empty and takes no
room. -/
def decode (format : GroupFormat) : Pass Group := do
  let m ← get
  if m.actingVersion.includes format.since then
    let base ← Message.advance format.dimensions.size
    let blockLength ← Pass.look fun m => format.dimensions.blockLength.read base m.buffer
    let count ← Pass.look fun m => format.dimensions.numInGroup.read base m.buffer
    return ⟨blockLength, count, 0, base⟩
  else
    return ⟨format.blockLength, 0, 0, m.position⟩

def encode (format : GroupFormat) (count : Nat) : Pass Group := do
  let dimensions := format.dimensions
  let _ ← Pass.look fun _ => dimensions.numInGroup.width.fit count
  let _ ← Pass.look fun _ => dimensions.blockLength.width.fit format.blockLength
  let base ← Message.advance dimensions.size
  Pass.edit (dimensions.numInGroup.write base count)
  Pass.edit (dimensions.blockLength.write base format.blockLength)
  return ⟨format.blockLength, count, 0, base⟩

def next (g : Group) : Pass Group := do
  if g.hasNext then
    let base ← Message.advance g.blockLength
    return { g with visited := g.visited + 1, elementOffset := base }
  else
    throw (.exhausted g.count)

end Group

end SimpleBinary
