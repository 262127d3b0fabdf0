import SimpleBinary.Message.Header
import SimpleBinary.Message.Group
import SimpleBinary.Message.Data

/-!
# Sessions

Whatever can be done with a message, as data: an `Access` reads or writes the fields of a block, a
`Call` does that or moves on in the message. A session is a message and what is open in it, the
innermost first: groups, composites, and the root block, which can be reached from a group too.
Accesses go to the innermost block. A session goes on after a call that failed, from what that call
left behind.
-/

namespace SimpleBinary

inductive Reply
  | done
  | value (carrier : Carrier) (v : carrier.Value)
  | variant (e : Enumeration) (v : e.Value)
  | flag (b : Bool)
  | copied (count : Nat) (dst : Bytes)
  | block (b : Block)
  | absent
  | group (g : Group)
  | data (bytes : Bytes)
  | written (length : Nat)
  | template (t : Template)
  | buffer (b : Buffer)
  /-- The call asks for a group or a composite, and the innermost block is none. -/
  | notOpen

/-! ## Accesses to a block -/

inductive Access
  | get {c : Carrier} (f : Field c)
  | getElement {c : Carrier} (f : ArrayField c) (index : Nat)
  | getArray (f : ByteArrayField) (dst : Bytes)
  | getVariant {e : Enumeration} (f : EnumField e)
  | getBits {w : Width} (f : BitSetField w)
  | getChoice {w : Width} (f : BitSetField w) (choice : Choice)
  | put {c : Carrier} (f : Field c) (v : c.Value)
  | putElement {c : Carrier} (f : ArrayField c) (index : Nat) (v : c.Value)
  | putArray (f : ByteArrayField) (src : Bytes)
  | putVariant {e : Enumeration} (f : EnumField e) (v : e.Value)
  | putBits {w : Width} (f : BitSetField w) (raw : BitVec w.bits)
  | putChoice {w : Width} (f : BitSetField w) (choice : Choice) (value : Bool)

def Access.perform (b : Block) : Access → Edit Reply
  | @get c f => .value c <$> Edit.look (b.get f)
  | @getElement c f index => .value c <$> Edit.look (b.getElement f index)
  | getArray f dst => (fun (n, dst) => .copied n dst) <$> Edit.look (b.getArray f dst)
  | @getVariant e f => .variant e <$> Edit.look (b.getVariant f)
  | @getBits w f => .value (.unsigned w) <$> Edit.look (b.getBits f)
  | getChoice f choice => .flag <$> Edit.look (b.getChoice f choice)
  | put f v => (fun _ => .done) <$> b.put f v
  | putElement f index v => (fun _ => .done) <$> b.putElement f index v
  | putArray f src => (fun _ => .done) <$> b.putArray f src
  | putVariant f v => (fun _ => .done) <$> b.putVariant f v
  | putBits f raw => (fun _ => .done) <$> b.putBits f raw
  | putChoice f choice value => (fun _ => .done) <$> b.putChoice f choice value

/-! ## Calls in a session -/

inductive Call
  | access (a : Access)
  | openComposite (f : CompositeField)
  | enterComposite (f : CompositeField)
  | move (b : Block)
  /-- The root block of the message, whatever is open around it. -/
  | enterRoot
  | decodeGroup (f : GroupFormat)
  | encodeGroup (f : GroupFormat) (count : Nat)
  | next
  | leave
  | readData (f : DataFormat)
  | copyData (f : DataFormat) (dst : Bytes)
  | writeData (f : DataFormat) (src : Bytes)
  | seek (position : Nat)
  | startEncode (offset : Nat)
  | startDecode (offset blockLength : Nat) (version : Version)
  | encodeHeader (offset : Nat) (format : HeaderFormat)
  | decodeHeader (offset : Nat) (format : HeaderFormat)
  | swapBuffer (buffer : Buffer)

inductive Scope
  | group (g : Group)
  | composite (b : Block)
  | root
deriving DecidableEq, Repr

structure Session where
  message : Message
  scopes : List Scope
deriving DecidableEq, Repr

namespace Session

def ofBuffer (template : Template) (buffer : Buffer) : Session := ⟨.ofBuffer template buffer, []⟩

def ofBlock (b : Block) (buffer : Buffer) : Session := ⟨.ofBuffer {} buffer, [.composite b]⟩

def block (s : Session) : Block :=
  match s.scopes with
  | [] => s.message.root
  | .group g :: _ => g.element s.message.actingVersion
  | .composite b :: _ => b
  | .root :: _ => s.message.root

abbrev Step := EStateM AccessError Session

namespace Step

def pass {α : Type} (p : Pass α) : Step α := fun s =>
  match p s.message with
  | .ok a m => .ok a { s with message := m }
  | .error e m => .error e { s with message := m }

def push (scope : Scope) : Step Unit := modify fun s => { s with scopes := scope :: s.scopes }

def replace (scope : Scope) : Step Unit :=
  modify fun s => { s with scopes := scope :: s.scopes.tail }

end Step

def perform : Call → Step Reply
  | .access a => do
    let b := (← get).block
    Step.pass (Pass.edit (a.perform b))
  | .openComposite f => do
    let b := (← get).block
    match ← Step.pass (Pass.look fun m => b.composite? f m.buffer) with
    | some inner => Step.push (.composite inner); return .block inner
    | none => return .absent
  | .enterComposite f => do
    let b := (← get).block
    let inner ← Step.pass (Pass.look fun m => b.enter f m.buffer)
    Step.push (.composite inner)
    return .block inner
  | .move b => do
    match (← get).scopes with
    | .composite _ :: _ => Step.replace (.composite b); return .block b
    | _ => return .notOpen
  | .enterRoot => do
    let b := (← get).message.root
    Step.push .root
    return .block b
  | .decodeGroup f => do
    let g ← Step.pass (Group.decode f)
    Step.push (.group g)
    return .group g
  | .encodeGroup f count => do
    let g ← Step.pass (Group.encode f count)
    Step.push (.group g)
    return .group g
  | .next => do
    match (← get).scopes with
    | .group g :: _ =>
      let g ← Step.pass g.next
      Step.replace (.group g)
      return .group g
    | _ => return .notOpen
  | .leave => do
    match (← get).scopes with
    | _ :: outer => modify fun s => { s with scopes := outer }; return .done
    | [] => return .notOpen
  | .readData f => .data <$> Step.pass f.read
  | .copyData f dst => (fun (n, dst) => .copied n dst) <$> Step.pass (f.copy dst)
  | .writeData f src => .written <$> Step.pass (f.write src)
  | .seek position => (fun _ => .done) <$> Step.pass (Message.seek position)
  | .startEncode offset => (fun _ => .done) <$> Step.pass (Message.startEncode offset)
  | .startDecode offset blockLength version =>
    (fun _ => .done) <$> Step.pass (Message.startDecode offset blockLength version)
  | .encodeHeader offset format =>
    (fun _ => .done) <$> Step.pass (Message.encodeHeader offset format)
  | .decodeHeader offset format => .template <$> Step.pass (Message.decodeHeader offset format)
  | .swapBuffer buffer => .buffer <$> Step.pass (Message.swapBuffer buffer)

def call (s : Session) (c : Call) : Except AccessError Reply × Session :=
  match perform c s with
  | .ok r s => (.ok r, s)
  | .error e s => (.error e, s)

def calls (s : Session) : List Call → List (Except AccessError Reply) × Session
  | [] => ([], s)
  | c :: rest =>
    let (answer, s) := s.call c
    let (answers, s) := s.calls rest
    (answer :: answers, s)

end Session

end SimpleBinary
