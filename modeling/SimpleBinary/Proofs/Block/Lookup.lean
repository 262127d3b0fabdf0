import SimpleBinary.Proofs.Buffer.Image
import SimpleBinary.Message.Session
import SimpleBinary.Proofs.Step

/-!
# Blocks read by descriptors of any version

Whatever the access, reading a field is one lookup: the bytes at the field's place, or the absent
value where the data is older than the field. A query goes through composites first. What it has to
answer is known from the bytes that the block was written with, as long as it stays in them
(`ask_eq_ok`), whatever stands behind the block.
-/

namespace SimpleBinary

structure Lookup where
  present : Version → Bool
  offset : Nat
  width : Nat
  found : Bytes → Reply
  absent : Reply

namespace Lookup

def perform (l : Lookup) (b : Block) (buffer : Buffer) : Except AccessError Reply :=
  if l.present b.version then l.found <$> buffer.window (b.base + l.offset) l.width else .ok l.absent

def expected? (l : Lookup) (v : Version) (block : Bytes) (base : Nat) : Option Reply :=
  if l.present v then
    if base + l.offset + l.width ≤ block.length then
      some (l.found ((block.drop (base + l.offset)).take l.width))
    else none
  else some l.absent

end Lookup

/-- The lookup of an access that reads, unless the access is refused without one. -/
def Access.lookup? : Access → Option Lookup
  | @get c f =>
    some ⟨(·.includes f.since), f.offset, c.bytes, fun raw => .value c (c.decode f.order raw), .value c f.null⟩
  | @getElement c f index =>
    if index < f.length then
      some ⟨(·.includes f.since), f.offset + index * c.bytes, c.bytes,
        fun raw => .value c (c.decode f.order raw), .value c f.null⟩
    else none
  | getArray f dst =>
    if dst.length < f.length then none
    else
      some ⟨(·.includes f.since), f.offset, f.length, fun raw => .copied f.length (raw ++ dst.drop f.length),
        .copied 0 dst⟩
  | @getVariant e f =>
    some ⟨(·.includes f.since), f.offset, e.carrier.bytes,
      fun raw => .variant e (e.decode (e.carrier.decode f.order raw)), .variant e none⟩
  | @getBits w f =>
    some ⟨(·.includes f.since), f.offset, w.bytes,
      fun raw => .value (.unsigned w) ((Carrier.unsigned w).decode f.order raw), .value (.unsigned w) 0⟩
  | @getChoice w f choice =>
    some ⟨fun v => v.includes choice.since && v.includes f.since, f.offset, w.bytes,
      fun raw => .flag (choice.test ((Carrier.unsigned w).decode f.order raw)), .flag false⟩
  | put .. | putElement .. | putArray .. | putVariant .. | putBits .. | putChoice .. => none

theorem map_look {α β : Type} (f : α → β) (read : Buffer → Except AccessError α) :
    f <$> Edit.look read = Edit.look fun buffer => f <$> read buffer := by
  funext buffer
  show EStateM.map f (Edit.look read) buffer = _
  unfold EStateM.map Edit.look
  dsimp only
  cases read buffer <;> rfl

theorem look_fetch {α : Type} {b : Block} {since : Version} {offset width : Nat} {found : Bytes → Reply}
    {null : Reply} {answer : Option Bytes → Except AccessError α} {reply : α → Reply}
    (hf : ∀ raw, reply <$> answer (some raw) = .ok (found raw)) (ha : reply <$> answer none = .ok null) :
    (reply <$> Edit.look fun buffer => b.fetch since offset width buffer >>= answer) =
      Edit.look (Lookup.perform ⟨(·.includes since), offset, width, found, null⟩ b) := by
  rw [map_look]
  congr 1
  funext buffer
  unfold Block.fetch Lookup.perform
  dsimp only
  by_cases h : b.version.includes since = true
  · rw [if_pos h, if_pos h]
    cases buffer.window (b.base + offset) width with
    | ok raw => exact hf raw
    | error e => rfl
  · rw [if_neg h, if_neg h]
    exact ha

/-! ## Readers as fetches -/

namespace Block
variable {b : Block}

theorem getElement_eq_fetch {c : Carrier} {f : ArrayField c} {index : Nat} (h : index < f.length) :
    b.getElement f index = fun buffer => b.fetch f.since (f.offset + index * c.bytes) c.bytes buffer >>=
      fun raw => .ok (raw.elim f.null (c.decode f.order)) := by
  have he : f.elementOffset index = .ok (f.offset + index * c.bytes) := if_pos h
  funext buffer
  unfold getElement
  rw [he]
  show (b.fetch f.since (f.offset + index * c.bytes) c.bytes buffer >>= _) = _
  exact bind_congr fun raw => by cases raw <;> rfl

theorem getArray_eq_fetch {f : ByteArrayField} {dst : Bytes} (h : ¬ dst.length < f.length) :
    b.getArray f dst = fun buffer => b.fetch f.since f.offset f.length buffer >>=
      fun raw => .ok (raw.elim (0, dst) fun raw => (f.length, raw ++ dst.drop f.length)) := by
  funext buffer
  unfold getArray
  simp only [h]
  exact bind_congr fun raw => by cases raw <;> rfl

theorem getChoice_eq_fetch {w : Width} {f : BitSetField w} {choice : Choice}
    (h : b.version.includes choice.since = true) :
    b.getChoice f choice = fun buffer => b.fetch f.since f.offset w.bytes buffer >>=
      fun raw => .ok (raw.elim false fun raw => choice.test ((Carrier.unsigned w).decode f.order raw)) := by
  funext buffer
  unfold getChoice getBits
  rw [if_pos h]
  cases b.fetch f.since f.offset w.bytes buffer with
  | error e => rfl
  | ok raw =>
    cases raw with
    | some raw => rfl
    | none => exact congrArg Except.ok BitVec.getLsbD_zero

end Block

theorem Access.perform_eq_look {b : Block} {a : Access} {l : Lookup} (hl : a.lookup? = some l) :
    a.perform b = Edit.look (l.perform b) := by
  cases a with
  | get f =>
    cases hl
    exact look_fetch (fun raw => rfl) rfl
  | @getElement c f index =>
    simp only [lookup?] at hl
    split at hl
    · next hi =>
      cases hl
      show _ <$> Edit.look (b.getElement f index) = _
      rw [Block.getElement_eq_fetch hi]
      exact look_fetch (fun raw => rfl) rfl
    · cases hl
  | getArray f dst =>
    simp only [lookup?] at hl
    split at hl
    · cases hl
    · next hd =>
      cases hl
      show _ <$> Edit.look (b.getArray f dst) = _
      rw [Block.getArray_eq_fetch hd]
      exact look_fetch (fun raw => rfl) rfl
  | getVariant f =>
    cases hl
    exact look_fetch (fun raw => rfl) rfl
  | getBits f =>
    cases hl
    exact look_fetch (fun raw => rfl) rfl
  | @getChoice w f choice =>
    cases hl
    show _ <$> Edit.look (b.getChoice f choice) = _
    cases hc : b.version.includes choice.since with
    | true =>
      rw [Block.getChoice_eq_fetch hc, look_fetch (fun raw => rfl) rfl]
      unfold Lookup.perform
      simp only [hc, Bool.true_and]
      rfl
    | false =>
      rw [map_look]
      congr 1
      funext buffer
      unfold Block.getChoice Lookup.perform
      simp only [hc, Bool.false_and]
      rfl
  | put | putElement | putArray | putVariant | putBits | putChoice => cases hl

/-! ## Queries -/

structure Query where
  path : List CompositeField := []
  access : Access

namespace Query

/-- Opens composites until one is newer than the data, and answers `absent` for that one. -/
def askAt (access : Access) : List CompositeField → Block → Buffer → Except AccessError Reply
  | [], b, buffer =>
    match access.perform b buffer with
    | .ok r _ => .ok r
    | .error e _ => .error e
  | f :: path, b, buffer => do
    match ← b.composite? f buffer with
    | some inner => askAt access path inner buffer
    | none => return .absent

def ask (q : Query) (b : Block) (buffer : Buffer) : Except AccessError Reply := askAt q.access q.path b buffer

def expectedAt? (v : Version) (block : Bytes) (access : Access) : List CompositeField → Nat → Option Reply
  | [], base => access.lookup?.bind fun l => l.expected? v block base
  | f :: path, base =>
    if v.includes f.since then
      if base + f.offset + f.size ≤ block.length then expectedAt? v block access path (base + f.offset)
      else none
    else some .absent

/-- What is answered of a block of version `v`, if the query stays in the block. -/
def expected? (q : Query) (v : Version) (block : Bytes) : Option Reply :=
  expectedAt? v block q.access q.path 0

end Query

section
variable {v : Version} {base k : Nat} {buffer : Buffer} {block : Bytes} {r : Reply}

theorem window_of_block (h : buffer.window base block.length = .ok block) {n : Nat}
    (hn : k + n ≤ block.length) : buffer.window (base + k) n = .ok ((block.drop k).take n) := by
  obtain ⟨hs, -, hb⟩ := Buffer.window_eq_ok_iff.mp h
  refine Buffer.window_eq_ok_iff.mpr ⟨by omega, ?_, fun i hi => ?_⟩
  · rw [List.length_take, List.length_drop]; omega
  · rw [List.getElem?_take, if_pos hi, List.getElem?_drop, hb _ (by omega), Nat.add_assoc]

theorem perform_of_expected {l : Lookup} (h : buffer.window base block.length = .ok block)
    (hr : l.expected? v block k = some r) : l.perform ⟨base + k, v⟩ buffer = .ok r := by
  unfold Lookup.expected? at hr
  unfold Lookup.perform
  cases hp : l.present v with
  | true =>
    rw [hp, if_pos rfl] at hr
    by_cases hn : k + l.offset + l.width ≤ block.length
    · rw [if_pos hn] at hr
      have hw := window_of_block h hn
      rw [← Nat.add_assoc] at hw
      rw [if_pos rfl, hw]
      exact congrArg Except.ok (Option.some.inj hr)
    · rw [if_neg hn] at hr
      cases hr
  | false =>
    rw [hp] at hr
    exact congrArg Except.ok (Option.some.inj hr)

namespace Query

theorem askAt_eq_ok {access : Access} (h : buffer.window base block.length = .ok block) :
    ∀ (path : List CompositeField) (k : Nat), expectedAt? v block access path k = some r →
      askAt access path ⟨base + k, v⟩ buffer = .ok r
  | [], k, hr => by
    unfold expectedAt? at hr
    cases hl : access.lookup? with
    | none => rw [hl] at hr; cases hr
    | some l =>
      rw [hl] at hr
      unfold askAt
      rw [Access.perform_eq_look hl, Edit.look_eq_ok_iff.mpr ⟨perform_of_expected h hr, rfl⟩]
  | f :: path, k, hr => by
    unfold expectedAt? at hr
    unfold askAt Block.composite?
    cases hv : v.includes f.since with
    | true =>
      rw [hv, if_pos rfl] at hr
      by_cases hn : k + f.offset + f.size ≤ block.length
      · rw [if_pos hn] at hr
        have hw := window_of_block h hn
        have hin : (Block.mk (base + k) v).enter f buffer = .ok ⟨base + (k + f.offset), v⟩ := by
          unfold Block.enter
          rw [Nat.add_assoc, hw]
          rfl
        rw [if_pos rfl, hin]
        exact askAt_eq_ok h path (k + f.offset) hr
      · rw [if_neg hn] at hr
        cases hr
    | false =>
      rw [hv] at hr
      exact congrArg Except.ok (Option.some.inj hr)

theorem ask_eq_ok {q : Query} (h : buffer.window base block.length = .ok block)
    (hr : q.expected? v block = some r) : q.ask ⟨base, v⟩ buffer = .ok r := askAt_eq_ok h q.path 0 hr

end Query

end

end SimpleBinary
