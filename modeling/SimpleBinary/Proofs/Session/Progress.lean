import Mathlib.Order.Defs.Unbundled
import SimpleBinary.Proofs.Session.Refusal

/-!
# The cursor moves forward

Whatever a step does and however it ends, it keeps some relation between the state that it finds and
the one that it leaves. Edits keep the length of the buffer. Passes keep the cursor in the buffer, and
those that take up a message's sections, halfway or whole, never move it back.
-/

namespace SimpleBinary

section
variable {ε σ α β : Type} {R : σ → σ → Prop} {p : EStateM ε σ α} {f : α → EStateM ε σ β}

def final : EStateM.Result ε σ α → σ
  | .ok _ s | .error _ s => s

def Keeps (R : σ → σ → Prop) (p : EStateM ε σ α) : Prop := ∀ s, R s (final (p s))

namespace Keeps

theorem mono {R' : σ → σ → Prop} (h : Keeps R p) (hR : ∀ s s', R s s' → R' s s') : Keeps R' p :=
  fun s => hR s _ (h s)

theorem pure [Std.Refl R] {a : α} : Keeps R (Pure.pure a : EStateM ε σ α) := fun s => refl_of R s

theorem throw [Std.Refl R] {e : ε} : Keeps R (MonadExcept.throw e : EStateM ε σ α) := fun s => refl_of R s

theorem get [Std.Refl R] : Keeps R (MonadState.get : EStateM ε σ σ) := fun s => refl_of R s

theorem bind [IsTrans σ R] (hp : Keeps R p) (hf : ∀ a, Keeps R (f a)) : Keeps R (p >>= f) := by
  intro s
  have hs := hp s
  show R s (final (EStateM.bind p f s))
  unfold EStateM.bind
  cases h : p s with
  | ok a t =>
    rw [h] at hs
    exact trans_of R hs (hf a t)
  | error e t =>
    rw [h] at hs
    exact hs

theorem map (h : Keeps R p) (g : α → β) : Keeps R (g <$> p) := by
  intro s
  have hs := h s
  show R s (final (EStateM.map g p s))
  unfold EStateM.map
  cases hp : p s <;> (rw [hp] at hs; exact hs)

theorem look [Std.Refl R] (hs : Silent p) (ha : Atomic p) : Keeps R p := by
  intro s
  cases h : p s with
  | ok a t => rw [hs h]; exact refl_of R s
  | error e t => rw [ha h]; exact refl_of R s

end Keeps

end

/-! ## Edits -/

def Buffer.SameSize (b written : Buffer) : Prop := written.size = b.size

instance : Std.Refl Buffer.SameSize := ⟨fun _ => rfl⟩

instance : IsTrans Buffer Buffer.SameSize := ⟨fun _ _ _ h h' => Eq.trans h' h⟩

theorem Edit.keeps_overwrite (offset : Nat) (bytes : Bytes) : Keeps Buffer.SameSize (Edit.overwrite offset bytes) := by
  intro b
  unfold Edit.overwrite
  cases h : b.overwrite offset bytes with
  | ok written => exact Buffer.size_of_overwrite h
  | error e => rfl

theorem Access.keeps_perform (b : Block) (a : Access) : Keeps Buffer.SameSize (a.perform b) := by
  have store (offset : Nat) (bytes : Bytes) : Keeps Buffer.SameSize (b.store offset bytes) :=
    Edit.keeps_overwrite _ _
  have look {α : Type} (read : Buffer → Except AccessError α) : Keeps Buffer.SameSize (Edit.look read) :=
    .look Edit.silent_look Edit.atomic_look
  cases a with
  | get | getElement | getArray | getVariant | getBits | getChoice => exact (look _).map _
  | put f v => exact (store _ _).map _
  | putElement f index v => exact ((look _).bind fun _ => store _ _).map _
  | putArray f src =>
    refine Keeps.map ?_ _
    unfold Block.putArray
    split
    · exact .bind .throw fun _ => store _ _
    · exact store _ _
  | putVariant f v => exact (store _ _).map _
  | putBits f raw => exact (store _ _).map _
  | putChoice f choice value => exact ((look _).bind fun _ => store _ _).map _

theorem HeaderView.keeps_write (h : HeaderView) (t : Template) : Keeps Buffer.SameSize (h.write t) := by
  have member (f : UnsignedField) (n : Nat) : Keeps Buffer.SameSize (f.write h.base n) := Edit.keeps_overwrite _ _
  exact (member _ _).bind fun _ => (member _ _).bind fun _ =>
    (member _ _).bind fun _ => member _ _

/-! ## Passes -/

theorem Pass.keeps_look {α : Type} {R : Message → Message → Prop} [Std.Refl R] (read : Message → Except AccessError α) :
    Keeps R (Pass.look read) := .look silent_look atomic_look

/-! What is kept by moving the cursor, if it does not matter where the cursor is. -/

namespace Message
variable {R : Message → Message → Prop} (hmove : ∀ (m : Message) (position : Nat), R m { m with position := position })
include hmove

theorem keeps_advance (n : Nat) : Keeps R (advance n) := by
  intro m
  unfold advance
  split <;> exact hmove m _

theorem keeps_seek (position : Nat) : Keeps R (seek position) := by
  intro m
  unfold seek
  split <;> exact hmove m _

end Message

/-! What reading passes keep, if moving the cursor on does. -/

section
variable {R : Message → Message → Prop} [Std.Refl R] [IsTrans Message R]
  (hadvance : ∀ n, Keeps R (Message.advance n))
include hadvance

namespace Group

theorem keeps_decode (f : GroupFormat) : Keeps R (Group.decode f) := by
  refine .bind .get fun m => ?_
  split
  · exact .bind (hadvance _) fun _ => .bind (Pass.keeps_look _) fun _ =>
      .bind (Pass.keeps_look _) fun _ => .pure
  · exact .pure

theorem keeps_next (g : Group) : Keeps R g.next := by
  unfold next
  split
  · exact .bind (hadvance _) fun _ => .pure
  · exact .throw

end Group

namespace DataFormat

theorem keeps_take (f : DataFormat) : Keeps R f.take := by
  refine .bind .get fun m => ?_
  split
  · exact .bind (Pass.keeps_look _) fun _ => .bind (hadvance _) fun _ =>
      .bind (hadvance _) fun _ => .pure
  · exact .pure

theorem keeps_read (f : DataFormat) : Keeps R f.read := by
  refine .bind (f.keeps_take hadvance) fun r => ?_
  cases r with
  | some r => exact .bind .get fun _ => .pure
  | none => exact .pure

theorem keeps_copy (f : DataFormat) (dst : Bytes) : Keeps R (f.copy dst) := by
  refine .bind (f.keeps_take hadvance) fun r => ?_
  cases r with
  | some r => exact .bind .get fun _ => .pure
  | none => exact .pure

end DataFormat

/-! And what writing passes keep, if edits of the buffer do too. -/

variable (hedit : ∀ {α : Type} {step : Edit α}, Keeps Buffer.SameSize step → Keeps R (Pass.edit step))
include hedit

theorem Group.keeps_encode (f : GroupFormat) (count : Nat) : Keeps R (Group.encode f count) := by
  have write (member : UnsignedField) (base n : Nat) : Keeps R (Pass.edit (member.write base n)) :=
    hedit (Edit.keeps_overwrite _ _)
  exact .bind (Pass.keeps_look _) fun _ => .bind (Pass.keeps_look _) fun _ =>
    .bind (hadvance _) fun _ => .bind (write _ _ _) fun _ =>
      .bind (write _ _ _) fun _ => .pure

theorem DataFormat.keeps_write (f : DataFormat) (src : Bytes) : Keeps R (f.write src) := by
  have write (offset : Nat) (bytes : Bytes) : Keeps R (Pass.edit (Edit.overwrite offset bytes)) :=
    hedit (Edit.keeps_overwrite _ _)
  exact .bind (Pass.keeps_look _) fun _ => .bind (hadvance _) fun _ =>
    .bind (write _ _) fun _ => .bind (write _ _) fun _ => .pure

end

/-! What starting a message keeps, if it is kept to take the message and to place the cursor. -/

namespace Message

section
variable {R : Message → Message → Prop} [Std.Refl R] [IsTrans Message R]
  (htake : ∀ (m : Message) (offset blockLength : Nat) (version : Version),
    R m { m with offset := offset, actingBlockLength := blockLength, actingVersion := version })
  (hseek : ∀ position, Keeps R (seek position))
include htake hseek

omit [Std.Refl R] in
theorem keeps_start (offset blockLength : Nat) (version : Version) : Keeps R (start offset blockLength version) :=
  .bind (fun m => htake m offset blockLength version) fun _ => hseek _

theorem keeps_startEncode (offset : Nat) : Keeps R (startEncode offset) :=
  .bind .get fun _ => keeps_start htake hseek _ _ _

theorem keeps_decodeHeader (offset : Nat) (format : HeaderFormat) : Keeps R (decodeHeader offset format) :=
  .bind (Pass.keeps_look _) fun _ => .bind (keeps_start htake hseek _ _ _) fun _ => .pure

theorem keeps_encodeHeader
    (hedit : ∀ {α : Type} {step : Edit α}, Keeps Buffer.SameSize step → Keeps R (Pass.edit step)) (offset : Nat)
    (format : HeaderFormat) : Keeps R (encodeHeader offset format) :=
  .bind .get fun _ => .bind (hedit (HeaderView.keeps_write _ _)) fun _ =>
    keeps_startEncode htake hseek _

end

/-! ### The cursor -/

def Contained (m m' : Message) : Prop :=
  m'.capacity = m.capacity ∧ (m.position ≤ m.capacity → m'.position ≤ m'.capacity)

def Forward (m m' : Message) : Prop := m.Contained m' ∧ m.position ≤ m'.position

instance : Std.Refl Contained := ⟨fun _ => ⟨rfl, id⟩⟩

instance : IsTrans Message Contained := ⟨fun _ _ _ h h' => ⟨h'.1.trans h.1, fun hm => h'.2 (h.2 hm)⟩⟩

instance : Std.Refl Forward := ⟨fun m => ⟨refl_of Contained m, Nat.le_refl _⟩⟩

instance : IsTrans Message Forward :=
  ⟨fun _ _ _ h h' => ⟨trans_of Contained h.1 h'.1, Nat.le_trans h.2 h'.2⟩⟩

theorem forward_advance (n : Nat) : Keeps Forward (advance n) := by
  intro m
  unfold advance
  split
  · next h => exact ⟨⟨rfl, fun _ => h⟩, Nat.le_add_right ..⟩
  · exact refl_of Forward m

theorem final_edit {α : Type} (step : Edit α) (m : Message) :
    final (Pass.edit step m) = { m with buffer := final (step m.buffer) } := by
  unfold Pass.edit
  cases step m.buffer <;> rfl

theorem forward_edit {α : Type} {step : Edit α} (hs : Keeps Buffer.SameSize step) : Keeps Forward (Pass.edit step) := by
  intro m
  have hm : (final (step m.buffer)).size = m.buffer.size := hs m.buffer
  rw [final_edit]
  exact ⟨⟨hm, fun h => by unfold capacity; rw [hm]; exact h⟩, Nat.le_refl _⟩

theorem contained_edit {α : Type} {step : Edit α} (hs : Keeps Buffer.SameSize step) : Keeps Contained (Pass.edit step) :=
  (forward_edit hs).mono fun _ _ h => h.1

theorem contained_seek (position : Nat) : Keeps Contained (seek position) := by
  intro m
  unfold seek
  split
  · next h => exact ⟨rfl, fun _ => h⟩
  · exact refl_of Contained m

theorem contained_take (m : Message) (offset blockLength : Nat) (version : Version) :
    m.Contained { m with offset := offset, actingBlockLength := blockLength, actingVersion := version } :=
  ⟨rfl, id⟩

/-! ### The message at hand -/

/-- It is still the same message: only its bytes and the cursor may be different. -/
def SameHead (m m' : Message) : Prop := m' = { m with buffer := m'.buffer, position := m'.position }

instance : Std.Refl SameHead := ⟨fun _ => rfl⟩

instance : IsTrans Message SameHead := by
  constructor
  intro m m' m'' h h'
  unfold SameHead at h h' ⊢
  rw [h', h]

theorem sameHead_advance (n : Nat) : Keeps SameHead (advance n) := keeps_advance (fun _ _ => rfl) n

theorem sameHead_edit {α : Type} {step : Edit α} (_ : Keeps Buffer.SameSize step) : Keeps SameHead (Pass.edit step) := by
  intro m
  rw [final_edit]
  rfl

theorem SameHead.root_eq {m m' : Message} (h : m.SameHead m') : m'.root = m.root := by
  rw [h]
  rfl

end Message

end SimpleBinary
