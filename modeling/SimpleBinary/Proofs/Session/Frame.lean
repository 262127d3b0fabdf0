import SimpleBinary.Proofs.Block.Update
import SimpleBinary.Proofs.Session.Calls

/-!
# What a call writes

A call changes no byte but those that it touches (`changes_perform`). A group and a data section touch
what is between the cursor before the call and the cursor after it, a field touches its own place; all
other calls, those that read among them, touch nothing.
-/

namespace SimpleBinary

namespace Message

def Unwritten (m m' : Message) : Prop := m'.buffer = m.buffer

instance : Std.Refl Unwritten := ⟨fun _ => rfl⟩

instance : IsTrans Message Unwritten := ⟨fun _ _ _ h h' => Eq.trans h' h⟩

theorem unwritten_move (m : Message) (position : Nat) : m.Unwritten { m with position := position } := rfl

/-- The bytes that are different have been passed by the cursor. -/
def WritesPassed (m m' : Message) : Prop :=
  m.buffer.SameOn (fun i => ¬ (m.position ≤ i ∧ i < m'.position)) m'.buffer

end Message

theorem Group.writesPassed_encode {f : GroupFormat} (hd : f.dimensions.Bounded) (count : Nat) :
    Keeps Message.WritesPassed (Group.encode f count) := by
  intro m
  cases h : Group.encode f count m with
  | error e m' =>
    rw [atomic_encode hd count h]
    exact refl_of _ m.buffer
  | ok g m' =>
    unfold Group.encode at h
    simp only [bind_eq_ok_iff, Pass.look_eq_ok_iff, Message.advance_eq_ok_iff, Pass.edit_eq_ok_iff,
      UnsignedField.write_eq_ok_iff, pure_eq_ok_iff] at h
    obtain ⟨_, _, ⟨-, rfl⟩, _, m, ⟨-, rfl⟩, _, _, ⟨-, rfl, rfl⟩, _, _, ⟨_, ⟨-, rfl⟩, rfl⟩, _, _,
      ⟨_, ⟨-, rfl⟩, rfl⟩, -, rfl⟩ := h
    have h1 := hd.blockLength_le
    have h2 := hd.numInGroup_le
    unfold UnsignedField.stop at h1 h2
    -- the count is written first, then the block length; both lie in the dimensions that the cursor has passed
    refine trans_of (Buffer.SameOn _) (Buffer.sameOn_patch m.buffer fun i hi hs h => h ?_)
      (Buffer.sameOn_patch _ fun i hi hs h => h ?_)
    · rw [ByteOrder.length_encode] at hs
      exact ⟨by omega, show i < m.position + f.dimensions.size by omega⟩
    · rw [ByteOrder.length_encode] at hs
      exact ⟨by omega, show i < m.position + f.dimensions.size by omega⟩

theorem DataFormat.writesPassed_write (f : DataFormat) (src : Bytes) : Keeps Message.WritesPassed (f.write src) := by
  intro m
  cases h : f.write src m with
  | error e m' =>
    rw [f.atomic_write src h]
    exact refl_of _ m.buffer
  | ok n m' =>
    unfold DataFormat.write at h
    simp only [bind_eq_ok_iff, Pass.look_eq_ok_iff, Message.advance_eq_ok_iff, Pass.edit_eq_ok_iff,
      Edit.overwrite_eq_ok_iff, pure_eq_ok_iff] at h
    obtain ⟨_, m, ⟨-, rfl⟩, _, _, ⟨-, rfl, rfl⟩, _, _, ⟨_, ⟨-, rfl⟩, rfl⟩, _, _, ⟨_, ⟨-, rfl⟩, rfl⟩, -, rfl⟩ := h
    refine trans_of (Buffer.SameOn _) (Buffer.sameOn_patch m.buffer fun i hi hs h => h ?_)
      (Buffer.sameOn_patch _ fun i hi hs h => h ?_)
    · rw [ByteOrder.length_encode] at hs
      exact ⟨hi, show i < m.position + (f.lengthSize + src.length) by omega⟩
    · exact ⟨by omega, show i < m.position + (f.lengthSize + src.length) by omega⟩

/-- The calls that touch at most what `Touches` says. Headers are no sections of a message, and of another
buffer nothing is as it was. -/
def Call.Framed : Call → Prop
  | encodeGroup f _ => f.dimensions.Bounded
  | encodeHeader .. | swapBuffer _ => False
  | _ => True

namespace Session
variable {s : Session} {c : Call}

def Touches (s : Session) (i : Nat) : Call → Prop
  | .access a => a.Touches s.block i
  | .encodeGroup f count => s.message.position ≤ i ∧ i < (s.call (.encodeGroup f count)).2.message.position
  | .writeData f src => s.message.position ≤ i ∧ i < (s.call (.writeData f src)).2.message.position
  | _ => False

theorem final_access (s : Session) (a : Access) : final (perform (.access a) s) =
    { s with message := { s.message with buffer := final (a.perform s.block s.message.buffer) } } := by
  show final (Step.pass (Pass.edit (a.perform s.block)) s) = _
  rw [final_pass, Message.final_edit]

theorem message_bind {α β : Type} {p : Pass α} {k : α → Step β}
    (hk : ∀ a t, (final (k a t)).message = t.message) :
    (final ((Step.pass p >>= k) s)).message = final (p s.message) := by
  cases h : p s.message with
  | ok a m =>
    rw [bind_of_ok (Step.pass_eq_ok_iff.mpr ⟨h, rfl⟩ : Step.pass p s = .ok a { s with message := m }), hk]
    rfl
  | error e m =>
    rw [bind_of_error (Step.pass_eq_error_iff.mpr ⟨h, rfl⟩ : Step.pass p s = .error e { s with message := m })]
    rfl

theorem message_encodeGroup (f : GroupFormat) (count : Nat) :
    (final (perform (.encodeGroup f count) s)).message = final (Group.encode f count s.message) :=
  message_bind fun _ _ => rfl

theorem message_writeData (f : DataFormat) (src : Bytes) :
    (final (perform (.writeData f src) s)).message = final (f.write src s.message) := by
  show (final ((_ <$> Step.pass _) s)).message = _
  rw [final_map, final_pass]

theorem unwritten_perform (hc : c.Framed) (hw : ¬ c.Writes) : Keeps (Over Message.Unwritten) (perform c) := by
  by_cases hp : c.Places
  · refine keeps_places (fun h => absurd h hw) (fun _ _ _ _ => rfl) (Message.keeps_seek Message.unwritten_move)
      (fun buffer h => ?_) hp
    subst h
    exact hc.elim
  · exact keeps_perform (fun h => absurd h hw) (Message.keeps_advance Message.unwritten_move) hp

theorem changes_perform (hc : c.Framed) :
    s.message.buffer.SameOn (fun i => ¬ s.Touches i c) (final (perform c s)).message.buffer := by
  by_cases hw : c.Writes
  · cases c with
    | access a =>
      rw [final_access]
      exact a.changes_perform s.block s.message.buffer
    | encodeGroup f count =>
      have h := Group.writesPassed_encode hc count s.message
      rw [← message_encodeGroup, ← snd_call] at h
      rw [← snd_call]
      exact h
    | writeData f src =>
      have h := f.writesPassed_write src s.message
      rw [← message_writeData, ← snd_call] at h
      rw [← snd_call]
      exact h
    | encodeHeader offset format => exact hc.elim
    | _ => exact hw.elim
  · have h : (final (perform c s)).message.buffer = s.message.buffer := unwritten_perform hc hw s
    rw [h]
    exact refl_of _ s.message.buffer

end Session

end SimpleBinary
