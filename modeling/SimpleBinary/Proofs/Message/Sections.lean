import SimpleBinary.Proofs.Block.Fill
import SimpleBinary.Proofs.Buffer.Image

/-!
# Sections

The groups and data sections behind a block, as a tree: the elements of a group have sections of
their own. `encode` and `decode` are the passes over a whole tree, in the order of the schema.
`image` is the wire format that the passes are measured by: the sections one after the other, and
in a group the dimensions, then each element's block and sections.
-/

namespace SimpleBinary

structure Dimensions.Bounded (d : Dimensions) : Prop where
  blockLength_le : d.blockLength.stop ≤ d.size
  numInGroup_le : d.numInGroup.stop ≤ d.size

structure Dimensions.WellFormed (d : Dimensions) : Prop where
  blockLength_le : d.blockLength.stop ≤ d.size
  numInGroup_le : d.numInGroup.stop ≤ d.size
  apart : d.blockLength.stop ≤ d.numInGroup.offset ∨ d.numInGroup.stop ≤ d.blockLength.offset

theorem Dimensions.wellFormed_standard : Dimensions.standard.WellFormed :=
  ⟨by decide, by decide, by decide⟩

inductive Sections
  | nil
  /-- A group, what is in each of its elements, and what follows the group. -/
  | group (format : GroupFormat) (wf : format.dimensions.WellFormed) (inner rest : Sections)
  | data (format : DataFormat) (rest : Sections)

namespace Sections

/-- What is in the sections, where `β n` is what is in a block of `n` bytes. -/
def Content (β : Nat → Type) : Sections → Type
  | nil => Unit
  | group f _ inner rest => List (β f.blockLength × inner.Content β) × rest.Content β
  | data _ rest => Bytes × rest.Content β

def map {β γ : Nat → Type} (f : ∀ n, β n → γ n) : (s : Sections) → s.Content β → s.Content γ
  | nil, _ => ()
  | group g _ inner rest, (elements, content) =>
    (elements.map fun e => (f g.blockLength e.1, inner.map f e.2), rest.map f content)
  | data _ rest, (bytes, content) => (bytes, rest.map f content)

/-- Counts, block lengths and data lengths are no larger than the members that hold them. -/
def Fits {β : Nat → Type} : (s : Sections) → s.Content β → Prop
  | nil, _ => True
  | group f _ inner rest, (elements, content) =>
    elements.length ≤ f.dimensions.numInGroup.width.max ∧
      f.blockLength ≤ f.dimensions.blockLength.width.max ∧
      (∀ e ∈ elements, inner.Fits e.2) ∧ rest.Fits content
  | data f rest, (bytes, content) => bytes.length ≤ f.length.max ∧ rest.Fits content

def size {β : Nat → Type} : (s : Sections) → s.Content β → Nat
  | nil, _ => 0
  | group f _ inner rest, (elements, content) =>
    f.dimensions.size + elements.foldr (fun e n => f.blockLength + inner.size e.2 + n) 0 + rest.size content
  | data f rest, (bytes, content) => f.lengthSize + bytes.length + rest.size content

end Sections

/-! ## The wire format -/

/-- What stands `i` bytes from the start of the composite whose member holds `n`. -/
def UnsignedField.byte? (f : UnsignedField) (n i : Nat) : Option UInt8 :=
  if f.offset ≤ i then (f.order.encode f.width.bytes n)[i - f.offset]? else none

/-- The two members, and gaps where the composite has neither. -/
def Dimensions.image (d : Dimensions) (blockLength count : Nat) : Image :=
  (List.range d.size).map fun i => d.blockLength.byte? blockLength i <|> d.numInGroup.byte? count i

def DataFormat.image (f : DataFormat) (bytes : Bytes) : Image :=
  .ofBytes (f.order.encode f.lengthSize bytes.length ++ bytes)

namespace Sections

def image : (s : Sections) → s.Content Fill → Image
  | nil, _ => []
  | group f _ inner rest, (elements, content) =>
    f.dimensions.image f.blockLength elements.length ++
      (elements.flatMap fun e => .ofBytes e.1.bytes ++ inner.image e.2) ++ rest.image content
  | data f rest, (bytes, content) => f.image bytes ++ rest.image content

@[simp] theorem length_dimensions_image (d : Dimensions) (blockLength count : Nat) :
    (d.image blockLength count).length = d.size := by
  rw [Dimensions.image, List.length_map, List.length_range]

@[simp] theorem length_data_image (f : DataFormat) (bytes : Bytes) :
    (f.image bytes).length = f.lengthSize + bytes.length := by
  rw [DataFormat.image, Image.length_ofBytes, List.length_append, ByteOrder.length_encode]

theorem length_elements_image {n : Nat} {γ : Type} {image : γ → Image} {size : γ → Nat}
    (h : ∀ c, (image c).length = size c) (elements : List (Fill n × γ)) :
    (elements.flatMap fun e => .ofBytes e.1.bytes ++ image e.2).length =
      elements.foldr (fun e k => n + size e.2 + k) 0 := by
  induction elements with
  | nil => rfl
  | cons e elements ih =>
    rw [List.flatMap_cons, List.length_append, ih, List.length_append, Image.length_ofBytes, e.1.length_bytes, h,
      List.foldr_cons]

theorem length_image : ∀ (s : Sections) (content : s.Content Fill),
    (s.image content).length = s.size content
  | nil, _ => rfl
  | group f _ inner rest, (elements, content) => by
    rw [image, size, List.length_append, List.length_append, length_dimensions_image,
      length_elements_image inner.length_image, length_image rest content]
  | data f rest, (bytes, content) => by
    rw [image, size, List.length_append, length_data_image, length_image rest content]

end Sections

/-! ## Passes -/

def Put.writeAll (puts : List Put) (block : Message → Block) : Pass Unit := do
  let m ← get
  Pass.edit (Put.performAll (block m) puts)

namespace Group
variable {α β γ : Type}

def each (write : Group → α → Pass Unit) : Group → List α → Pass Unit
  | _, [] => pure ()
  | g, a :: rest => do
    let g ← g.next
    write g a
    each write g rest

def writeElement (puts : β → List Put) (encode : γ → Pass Unit) (g : Group) (e : β × γ) : Pass Unit := do
  Put.writeAll (puts e.1) fun m => g.element m.actingVersion
  encode e.2

def collect (read : Group → Pass α) : Nat → Group → Pass (List α)
  | 0, _ => return []
  | n + 1, g => do
    let g ← g.next
    let a ← read g
    let rest ← collect read n g
    return a :: rest

def readElement (look : Block → Nat → Buffer → Except AccessError α) (decode : Pass γ) (g : Group) :
    Pass (α × γ) := do
  let a ← Pass.look fun m => look (g.element m.actingVersion) g.blockLength m.buffer
  let content ← decode
  return (a, content)

end Group

def DataFormat.fetch (f : DataFormat) : Option Bytes → Pass Bytes
  | none => f.read
  | some dst => (fun (n, dst) => dst.take n) <$> f.copy dst

namespace Sections

def encodeWith {β : Nat → Type} (puts : ∀ n, β n → List Put) : (s : Sections) → s.Content β → Pass Unit
  | nil, _ => pure ()
  | group f _ inner rest, (elements, content) => do
    let g ← Group.encode f elements.length
    g.each (Group.writeElement (puts f.blockLength) (inner.encodeWith puts)) elements
    rest.encodeWith puts content
  | data f rest, (bytes, content) => do
    let _ ← f.write bytes
    rest.encodeWith puts content

def encode (s : Sections) (content : s.Content Fill) : Pass Unit := s.encodeWith (fun _ fill => fill.puts) content

/-- `look` reads a block of the given length, and `dst` says where the data of a section is wanted. -/
def decode {α : Type} (look : Block → Nat → Buffer → Except AccessError α)
    (dst : DataFormat → Option Bytes) : (s : Sections) → Pass (s.Content fun _ => α)
  | nil => return ()
  | group f _ inner rest => do
    let g ← Group.decode f
    let elements ← g.collect (Group.readElement look (inner.decode look dst)) g.count
    let content ← rest.decode look dst
    return (elements, content)
  | data f rest => do
    let bytes ← f.fetch (dst f)
    let content ← rest.decode look dst
    return (bytes, content)

end Sections

namespace Message

def encodeWith {β : Nat → Type} {n : Nat} (puts : ∀ n, β n → List Put) (s : Sections) (root : β n)
    (content : s.Content β) (offset : Nat) : Pass Unit := do
  startEncode offset
  Put.writeAll (puts n root) Message.root
  s.encodeWith puts content

def encode {n : Nat} (s : Sections) (root : Fill n) (content : s.Content Fill) (offset : Nat) : Pass Unit :=
  encodeWith (fun _ fill => fill.puts) s root content offset

def decode {α : Type} (look : Block → Nat → Buffer → Except AccessError α)
    (dst : DataFormat → Option Bytes) (s : Sections) (offset blockLength : Nat) (version : Version) :
    Pass (α × s.Content fun _ => α) := do
  startDecode offset blockLength version
  let a ← Pass.look fun m => look m.root m.actingBlockLength m.buffer
  let content ← s.decode look dst
  return (a, content)

end Message

end SimpleBinary
