import SimpleBinary.Message.Session

/-!
# Programs on a machine of 64-bit words

What accesses and passes come down to on a machine: numbers are words, the fields of a buffer are
reached through slices, and the limit of the cursor is a number of its own, noted when the buffer was
bound. Unlike a refusal, which is an answer, a fault ends the program: a sum that is no word, a range
that is not in its slice, a copy between slices of different lengths.
-/

namespace SimpleBinary

inductive Trap
  | refused (e : AccessError)
  | fault
deriving DecidableEq, Repr

abbrev Exec (σ : Type) := EStateM Trap σ

namespace Exec
variable {σ α : Type}

def of (x : Except Trap α) : Exec σ α := fun s =>
  match x with
  | .ok a => .ok a s
  | .error t => .error t s

def look (read : σ → Except Trap α) : Exec σ α := fun s => of (read s) s

def refuse (e : AccessError) : Exec σ α := throw (.refused e)

end Exec

namespace Machine

/-! ## Words -/

def add (a b : Nat) : Except Trap Nat := if a + b < UInt64.size then .ok (a + b) else .error .fault

def sub (a b : Nat) : Except Trap Nat := if b ≤ a then .ok (a - b) else .error .fault

def mul (a b : Nat) : Except Trap Nat := if a * b < UInt64.size then .ok (a * b) else .error .fault

def checkedAdd? (a b : Nat) : Option Nat := if a + b < UInt64.size then some (a + b) else none

def saturatingAdd (a b : Nat) : Nat := min (a + b) lastPosition

/-! ## Slices -/

def slice? (bytes : Bytes) (start stop : Nat) : Option Bytes :=
  if start ≤ stop ∧ stop ≤ bytes.length then some (bytes.extract start stop) else none

def slice (bytes : Bytes) (start stop : Nat) : Except Trap Bytes :=
  match slice? bytes start stop with
  | some bytes => .ok bytes
  | none => .error .fault

def copy (dst src : Bytes) : Except Trap Bytes := if dst.length = src.length then .ok src else .error .fault

structure Region where
  start : Nat
  length : Nat

namespace Region

def ofRange (buffer : Buffer) (start stop : Nat) : Except Trap Region :=
  if start ≤ stop ∧ stop ≤ buffer.size then .ok ⟨start, stop - start⟩ else .error .fault

def front (r : Region) (n : Nat) : Except Trap Region :=
  if n ≤ r.length then .ok { r with length := n } else .error .fault

def bytes (r : Region) (buffer : Buffer) : Bytes := (buffer.extract r.start (r.start + r.length)).toList

def fill (r : Region) (src : Bytes) : Exec Buffer Unit := fun buffer =>
  if r.length = src.length then .ok () (buffer.patch r.start src) else .error .fault buffer

end Region

def window (buffer : Buffer) (offset width : Nat) : Except Trap Bytes :=
  match (checkedAdd? offset width).bind fun stop => slice? buffer.toList offset stop with
  | some bytes => .ok bytes
  | none => .error (.refused (.accessBeyondCapacity offset width buffer.size))

def region (offset width : Nat) : Exec Buffer Region := do
  let buffer ← get
  match checkedAdd? offset width with
  | some stop =>
    if stop ≤ buffer.size then Exec.of (Region.ofRange buffer offset stop)
    else Exec.refuse (.accessBeyondCapacity offset width buffer.size)
  | none => Exec.refuse (.accessBeyondCapacity offset width buffer.size)

def load (src : Bytes) (width : Nat) : Except Trap Bytes := do
  let front ← slice src 0 width
  copy (List.replicate width 0) front

def save (dst : Region) (raw : Bytes) : Exec Buffer Unit := do
  let front ← Exec.of (dst.front raw.length)
  front.fill raw

/-! ## Blocks -/

section
variable {c : Carrier} {e : Enumeration} {w : Width}

def fetch (b : Block) (since : Version) (offset width : Nat) (buffer : Buffer) : Except Trap (Option Bytes) := do
  if b.version.includes since then
    let position ← add b.base offset
    some <$> window buffer position width
  else
    return none

def fetchNumber (b : Block) (since : Version) (offset width : Nat) (buffer : Buffer) :
    Except Trap (Option Bytes) := do
  match ← fetch b since offset width buffer with
  | some src => some <$> load src width
  | none => return none

def store (base offset : Nat) (raw : Bytes) : Exec Buffer Unit := do
  let position ← Exec.of (add base offset)
  let dst ← region position raw.length
  save dst raw

def elementOffset (f : ArrayField c) (index : Nat) : Except Trap Nat := do
  if index < f.length then
    let distance ← mul index c.bytes
    add f.offset distance
  else
    throw (.refused (.indexOutOfRange index f.length))

def getNumber (b : Block) (f : Field c) (buffer : Buffer) : Except Trap c.Value := do
  match ← fetchNumber b f.since f.offset c.bytes buffer with
  | some raw => return c.decode f.order raw
  | none => return f.null

def getElement (b : Block) (f : ArrayField c) (index : Nat) (buffer : Buffer) : Except Trap c.Value := do
  let offset ← elementOffset f index
  match ← fetchNumber b f.since offset c.bytes buffer with
  | some raw => return c.decode f.order raw
  | none => return f.null

def getArray (b : Block) (f : ByteArrayField) (dst : Bytes) (buffer : Buffer) : Except Trap (Nat × Bytes) := do
  if dst.length < f.length then
    throw (.refused (.copyOutOfRange f.length dst.length))
  match ← fetch b f.since f.offset f.length buffer with
  | some src =>
    let front ← slice dst 0 f.length
    let copied ← copy front src
    return (f.length, copied ++ dst.drop f.length)
  | none => return (0, dst)

def getVariant (b : Block) (f : EnumField e) (buffer : Buffer) : Except Trap e.Value := do
  match ← fetchNumber b f.since f.offset e.carrier.bytes buffer with
  | some raw => return e.decode (e.carrier.decode f.order raw)
  | none => return none

def getBits (b : Block) (f : BitSetField w) (buffer : Buffer) : Except Trap (BitVec w.bits) := do
  match ← fetchNumber b f.since f.offset w.bytes buffer with
  | some raw => return (Carrier.unsigned w).decode f.order raw
  | none => return 0

def getChoice (b : Block) (f : BitSetField w) (choice : Choice) (buffer : Buffer) : Except Trap Bool :=
  if b.version.includes choice.since then choice.test <$> getBits b f buffer else .ok false

def enter (b : Block) (f : CompositeField) (buffer : Buffer) : Except Trap Block := do
  let position ← add b.base f.offset
  let _ ← window buffer position f.size
  return ⟨position, b.version⟩

def composite? (b : Block) (f : CompositeField) (buffer : Buffer) : Except Trap (Option Block) :=
  if b.version.includes f.since then some <$> enter b f buffer else .ok none

def putElement (b : Block) (f : ArrayField c) (index : Nat) (v : c.Value) : Exec Buffer Unit := do
  let offset ← Exec.of (elementOffset f index)
  store b.base offset (c.encode f.order v)

def putArray (b : Block) (f : ByteArrayField) (src : Bytes) : Exec Buffer Unit := do
  if src.length < f.length then
    Exec.refuse (.copyOutOfRange f.length src.length)
  else
    let position ← Exec.of (add b.base f.offset)
    let dst ← region position f.length
    let front ← Exec.of (slice src 0 f.length)
    dst.fill front

def putChoice (b : Block) (f : BitSetField w) (choice : Choice) (value : Bool) : Exec Buffer Unit := do
  let position ← Exec.of (add b.base f.offset)
  let dst ← region position w.bytes
  let raw ← Exec.look fun buffer => load (dst.bytes buffer) w.bytes
  save dst ((Carrier.unsigned w).encode f.order (choice.apply ((Carrier.unsigned w).decode f.order raw) value))

def access (b : Block) : Access → Exec Buffer Reply
  | @Access.get c f => .value c <$> Exec.look (getNumber b f)
  | @Access.getElement c f index => .value c <$> Exec.look (getElement b f index)
  | .getArray f dst => (fun (n, dst) => .copied n dst) <$> Exec.look (getArray b f dst)
  | @Access.getVariant e f => .variant e <$> Exec.look (getVariant b f)
  | @Access.getBits w f => .value (.unsigned w) <$> Exec.look (getBits b f)
  | .getChoice f choice => .flag <$> Exec.look (getChoice b f choice)
  | @Access.put c f v => (fun _ => .done) <$> store b.base f.offset (c.encode f.order v)
  | .putElement f index v => (fun _ => .done) <$> putElement b f index v
  | .putArray f src => (fun _ => .done) <$> putArray b f src
  | @Access.putVariant e f v => (fun _ => .done) <$> store b.base f.offset (e.carrier.encode f.order (e.encode v))
  | @Access.putBits w f raw => (fun _ => .done) <$> store b.base f.offset ((Carrier.unsigned w).encode f.order raw)
  | .putChoice f choice value => (fun _ => .done) <$> putChoice b f choice value

end

def readMember (f : UnsignedField) (base : Nat) (buffer : Buffer) : Except Trap Nat := do
  let position ← add base f.offset
  let src ← window buffer position f.width.bytes
  let raw ← load src f.width.bytes
  return f.order.decode raw

def writeMember (f : UnsignedField) (base n : Nat) : Exec Buffer Unit :=
  store base f.offset (f.order.encode f.width.bytes n)

def fit (w : Width) (n : Nat) : Except Trap Nat := (w.fit n).mapError .refused

end Machine

/-! ## Messages -/

structure Handle where
  message : Message
  limit : Nat

namespace Machine

def edit {α : Type} (step : Exec Buffer α) : Exec Handle α := fun h =>
  match step h.message.buffer with
  | .ok a written => .ok a { h with message := { h.message with buffer := written } }
  | .error t written => .error t { h with message := { h.message with buffer := written } }

def seek (position : Nat) : Exec Handle Unit := do
  let h ← get
  if h.limit < position then
    Exec.refuse (.positionBeyondCapacity position h.limit)
  else
    set { h with message := { h.message with position := position } }

def advance (n : Nat) : Exec Handle Nat := do
  let h ← get
  if (checkedAdd? h.message.position n).any (· ≤ h.limit) then
    let position ← Exec.of (add h.message.position n)
    set { h with message := { h.message with position := position } }
    return h.message.position
  else
    Exec.refuse (.positionBeyondCapacity (saturatingAdd h.message.position n) h.limit)

def start (offset blockLength : Nat) (version : Version) : Exec Handle Unit := do
  modify fun h =>
    { h with message := { h.message with offset := offset, actingBlockLength := blockLength, actingVersion := version } }
  seek (saturatingAdd offset blockLength)

def startEncode (offset : Nat) : Exec Handle Unit := do
  let template := (← get).message.template
  start offset template.blockLength.toNat template.version

def swapBuffer (buffer : Buffer) : Exec Handle Buffer := do
  let h ← get
  set { h with message := { h.message with buffer := buffer, offset := 0, position := 0 }, limit := buffer.size }
  return h.message.buffer

def headerMember (f : UnsignedField) (base : Nat) (buffer : Buffer) : Except Trap UInt16 := do
  let n ← readMember f base buffer
  let n ← fit .w16 n
  return UInt16.ofNat n

def headerTemplate (format : HeaderFormat) (base : Nat) (buffer : Buffer) : Except Trap Template := do
  let templateId ← headerMember format.templateId base buffer
  let schemaId ← headerMember format.schemaId base buffer
  let version ← headerMember format.version base buffer
  let blockLength ← headerMember format.blockLength base buffer
  return ⟨templateId, schemaId, version, blockLength⟩

def writeHeader (format : HeaderFormat) (base : Nat) (t : Template) : Exec Buffer Unit := do
  writeMember format.blockLength base t.blockLength.toNat
  writeMember format.templateId base t.templateId.toNat
  writeMember format.schemaId base t.schemaId.toNat
  writeMember format.version base t.version.toNat

def decodeHeader (offset : Nat) (format : HeaderFormat) : Exec Handle Template := do
  let found ← Exec.look fun h => headerTemplate format offset h.message.buffer
  let body ← Exec.of (add offset format.size)
  start body found.blockLength.toNat found.version
  return found

def encodeHeader (offset : Nat) (format : HeaderFormat) : Exec Handle Unit := do
  let template := (← get).message.template
  edit (writeHeader format offset template)
  let body ← Exec.of (add offset format.size)
  startEncode body

/-! ## Groups -/

def decodeGroup (format : GroupFormat) : Exec Handle Group := do
  let h ← get
  if h.message.actingVersion.includes format.since then
    let _ ← advance format.dimensions.size
    let blockLength ← Exec.look fun t => readMember format.dimensions.blockLength h.message.position t.message.buffer
    let count ← Exec.look fun t => readMember format.dimensions.numInGroup h.message.position t.message.buffer
    return ⟨blockLength, count, 0, h.message.position⟩
  else
    return ⟨format.blockLength, 0, 0, h.message.position⟩

def encodeGroup (format : GroupFormat) (count : Nat) : Exec Handle Group := do
  let numInGroup ← Exec.of (fit format.dimensions.numInGroup.width count)
  let blockLength ← Exec.of (fit format.dimensions.blockLength.width format.blockLength)
  let base := (← get).message.position
  let _ ← advance format.dimensions.size
  edit (writeMember format.dimensions.numInGroup base numInGroup)
  edit (writeMember format.dimensions.blockLength base blockLength)
  return ⟨format.blockLength, count, 0, base⟩

def next (g : Group) : Exec Handle Group := do
  if g.hasNext then
    let base ← advance g.blockLength
    let visited ← Exec.of (add g.visited 1)
    let _ ← Exec.of (sub visited 1)
    return { g with visited := visited, elementOffset := base }
  else
    Exec.refuse (.exhausted g.count)

/-! ## Data sections -/

def takeData (f : DataFormat) : Exec Handle (Option (Nat × Nat)) := do
  let h ← get
  if h.message.actingVersion.includes f.since then
    let src ← Exec.look fun h => window h.message.buffer h.message.position f.lengthSize
    let raw ← Exec.of (load src f.lengthSize)
    let _ ← advance f.lengthSize
    let start ← advance (f.order.decode raw)
    return some (start, f.order.decode raw)
  else
    return none

def readData (f : DataFormat) : Exec Handle Bytes := do
  match ← takeData f with
  | some (start, length) =>
    let stop ← Exec.of (add start length)
    Exec.look fun h => slice h.message.buffer.toList start stop
  | none => return []

def copyData (f : DataFormat) (dst : Bytes) : Exec Handle (Nat × Bytes) := do
  match ← takeData f with
  | some (start, length) =>
    let n := min length dst.length
    let front ← Exec.of (slice dst 0 n)
    let stop ← Exec.of (add start n)
    let src ← Exec.look fun h => slice h.message.buffer.toList start stop
    let copied ← Exec.of (copy front src)
    return (n, copied ++ dst.drop n)
  | none => return (0, dst)

def writeData (f : DataFormat) (src : Bytes) : Exec Handle Nat := do
  let _ ← Exec.of (fit f.length src.length)
  let total ← Exec.of (add f.lengthSize src.length)
  let base ← advance total
  let start ← Exec.of (add base f.lengthSize)
  edit do
    let dst ← region base f.lengthSize
    save dst (f.order.encode f.lengthSize src.length)
  edit do
    let dst ← region start src.length
    dst.fill src
  return src.length

end Machine

/-! ## Calls -/

structure Device where
  session : Session
  limit : Nat

namespace Device

def ofBuffer (template : Template) (buffer : Buffer) : Device := ⟨.ofBuffer template buffer, buffer.size⟩

def pass {α : Type} (p : Exec Handle α) : Exec Device α := fun d =>
  match p ⟨d.session.message, d.limit⟩ with
  | .ok a h => .ok a ⟨{ d.session with message := h.message }, h.limit⟩
  | .error t h => .error t ⟨{ d.session with message := h.message }, h.limit⟩

def setScopes (f : List Scope → List Scope) : Exec Device Unit :=
  modify fun d => { d with session := { d.session with scopes := f d.session.scopes } }

def perform : Call → Exec Device Reply
  | .access a => do
    let b := (← get).session.block
    pass (Machine.edit (Machine.access b a))
  | .openComposite f => do
    let b := (← get).session.block
    match ← pass (Exec.look fun h => Machine.composite? b f h.message.buffer) with
    | some inner => setScopes (.composite inner :: ·); return .block inner
    | none => return .absent
  | .enterComposite f => do
    let b := (← get).session.block
    let inner ← pass (Exec.look fun h => Machine.enter b f h.message.buffer)
    setScopes (.composite inner :: ·)
    return .block inner
  | .move b => do
    match (← get).session.scopes with
    | .composite _ :: _ => setScopes (.composite b :: ·.tail); return .block b
    | _ => return .notOpen
  | .enterRoot => do
    let b := (← get).session.message.root
    setScopes (.root :: ·)
    return .block b
  | .decodeGroup f => do
    let g ← pass (Machine.decodeGroup f)
    setScopes (.group g :: ·)
    return .group g
  | .encodeGroup f count => do
    let g ← pass (Machine.encodeGroup f count)
    setScopes (.group g :: ·)
    return .group g
  | .next => do
    match (← get).session.scopes with
    | .group g :: _ =>
      let g ← pass (Machine.next g)
      setScopes (.group g :: ·.tail)
      return .group g
    | _ => return .notOpen
  | .leave => do
    match (← get).session.scopes with
    | _ :: outer => setScopes fun _ => outer; return .done
    | [] => return .notOpen
  | .readData f => .data <$> pass (Machine.readData f)
  | .copyData f dst => (fun (n, dst) => .copied n dst) <$> pass (Machine.copyData f dst)
  | .writeData f src => .written <$> pass (Machine.writeData f src)
  | .seek position => (fun _ => .done) <$> pass (Machine.seek position)
  | .startEncode offset => (fun _ => .done) <$> pass (Machine.startEncode offset)
  | .startDecode offset blockLength version =>
    (fun _ => .done) <$> pass (Machine.start offset blockLength version)
  | .encodeHeader offset format => (fun _ => .done) <$> pass (Machine.encodeHeader offset format)
  | .decodeHeader offset format => .template <$> pass (Machine.decodeHeader offset format)
  | .swapBuffer buffer => .buffer <$> pass (Machine.swapBuffer buffer)

def call (d : Device) (c : Call) : Except Trap Reply × Device :=
  match perform c d with
  | .ok r d => (.ok r, d)
  | .error t d => (.error t, d)

/-- A fault is the end of the run. -/
def calls (d : Device) : List Call → List (Except Trap Reply) × Device
  | [] => ([], d)
  | c :: rest =>
    match d.call c with
    | (.error .fault, d) => ([.error .fault], d)
    | (answer, d) =>
      let (answers, d) := d.calls rest
      (answer :: answers, d)

end Device

end SimpleBinary
