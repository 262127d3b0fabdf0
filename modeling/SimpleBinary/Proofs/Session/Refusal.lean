import SimpleBinary.Proofs.Message.Encoding

/-!
# Refused calls

A call that is refused has changed nothing: not the buffer, not the cursor, not the groups that are
open. Checks come before the cursor moves and the cursor moves before anything is written, so what
is left to do then cannot fail. Starting a message and reading data are no such calls: they have
moved on when they find that the message or the data is cut off.
-/

namespace SimpleBinary

section
variable {ε σ α β : Type} {p : EStateM ε σ α} {f : α → EStateM ε σ β}

def Silent (p : EStateM ε σ α) : Prop := ∀ ⦃s a s'⦄, p s = .ok a s' → s' = s

def Atomic (p : EStateM ε σ α) : Prop := ∀ ⦃s e s'⦄, p s = .error e s' → s' = s

theorem Atomic.pure {a : α} : Atomic (Pure.pure a : EStateM ε σ α) := by
  intro s e s' h
  cases h

theorem Atomic.throw {e : ε} : Atomic (MonadExcept.throw e : EStateM ε σ α) := by
  intro s e s' h
  cases h
  rfl

theorem Atomic.map (hp : Atomic p) (g : α → β) : Atomic (g <$> p) :=
  fun _ _ _ h => hp (map_eq_error_iff.mp h)

theorem Atomic.bind (hp : Atomic p) (hs : Silent p) (hf : ∀ a, Atomic (f a)) : Atomic (p >>= f) := by
  intro s e s' h
  rcases bind_eq_error_iff.mp h with h | ⟨a, t, ha, h⟩
  · exact hp h
  · rw [hf a h, hs ha]

/-- What comes after the first step may change the state if it cannot fail. -/
theorem Atomic.bind_of_ok (hp : Atomic p)
    (hf : ∀ s a t, p s = .ok a t → ∃ b s', f a t = .ok b s') : Atomic (p >>= f) := by
  intro s e s' h
  rcases bind_eq_error_iff.mp h with h | ⟨a, t, ha, h⟩
  · exact hp h
  · obtain ⟨b, t', hb⟩ := hf s a t ha
    rw [hb] at h
    cases h

theorem Silent.get : Silent (MonadState.get : EStateM ε σ σ) := fun _ _ _ h => (get_eq_ok_iff.mp h).2

theorem Atomic.get : Atomic (MonadState.get : EStateM ε σ σ) := by
  intro s e s' h
  cases h

end

/-! ## Accesses -/

namespace Edit
variable {α : Type} {read : Buffer → Except AccessError α}

theorem silent_look : Silent (Edit.look read) := fun _ _ _ h => (look_eq_ok_iff.mp h).2

theorem atomic_look : Atomic (Edit.look read) := by
  intro buffer e written h
  unfold Edit.look at h
  cases hr : read buffer with
  | ok a => rw [hr] at h; cases h
  | error e => rw [hr] at h; cases h; rfl

theorem atomic_overwrite (offset : Nat) (bytes : Bytes) : Atomic (Edit.overwrite offset bytes) := by
  intro buffer e written h
  unfold Edit.overwrite at h
  cases hw : buffer.overwrite offset bytes with
  | ok b => rw [hw] at h; cases h
  | error e => rw [hw] at h; cases h; rfl

end Edit

theorem Access.atomic_perform (b : Block) (a : Access) : Atomic (a.perform b) := by
  have store (offset : Nat) (bytes : Bytes) : Atomic (b.store offset bytes) := Edit.atomic_overwrite _ _
  cases a with
  | get | getElement | getArray | getVariant | getBits | getChoice => exact Edit.atomic_look.map _
  | put f v => exact (store _ _).map _
  | putElement f index v =>
    exact (Edit.atomic_look.bind Edit.silent_look fun _ => store _ _).map _
  | putArray f src =>
    refine Atomic.map ?_ _
    unfold Block.putArray
    by_cases h : src.length < f.length
    · simp only [h, if_true]
      exact Atomic.throw
    · simp only [h]
      exact store _ _
  | putVariant f v => exact (store _ _).map _
  | putBits f raw => exact (store _ _).map _
  | putChoice f choice value =>
    exact (Edit.atomic_look.bind Edit.silent_look fun _ => store _ _).map _

/-! ## Passes -/

namespace Pass
variable {α : Type}

theorem silent_look {read : Message → Except AccessError α} : Silent (Pass.look read) :=
  fun _ _ _ h => (look_eq_ok_iff.mp h).2

theorem atomic_look {read : Message → Except AccessError α} : Atomic (Pass.look read) := by
  intro m e m' h
  unfold Pass.look at h
  cases hr : read m with
  | ok a => rw [hr] at h; cases h
  | error e => rw [hr] at h; cases h; rfl

theorem atomic_edit {step : Edit α} (hs : Atomic step) : Atomic (Pass.edit step) := by
  intro m e m' h
  unfold Pass.edit at h
  cases hr : step m.buffer with
  | ok a written => rw [hr] at h; cases h
  | error e written =>
    rw [hr] at h
    cases h
    rw [hs hr]

end Pass

theorem Message.atomic_seek (position : Nat) : Atomic (seek position) := by
  intro m e m' h
  unfold seek at h
  split at h <;> cases h
  rfl

theorem Message.atomic_advance (n : Nat) : Atomic (advance n) := by
  intro m e m' h
  unfold advance at h
  split at h <;> cases h
  rfl

theorem UnsignedField.exists_read {f : UnsignedField} {base : Nat} {buffer : Buffer}
    (h : base + f.stop ≤ buffer.size) : ∃ n, f.read base buffer = .ok n := by
  unfold read Buffer.window
  unfold stop at h
  rw [if_pos (by omega)]
  exact ⟨_, rfl⟩

namespace Group

theorem atomic_decode {f : GroupFormat} (hd : f.dimensions.Bounded) : Atomic (Group.decode f) := by
  unfold Group.decode
  refine Atomic.get.bind Silent.get fun m => ?_
  split
  · refine (Message.atomic_advance _).bind_of_ok fun m base m' h => ?_
    obtain ⟨hs, rfl, rfl⟩ := Message.advance_eq_ok_iff.mp h
    have h1 := hd.blockLength_le
    have h2 := hd.numInGroup_le
    unfold Message.capacity at hs
    obtain ⟨n, hn⟩ := UnsignedField.exists_read (show m.position + f.dimensions.blockLength.stop ≤ m.buffer.size by omega)
    obtain ⟨k, hk⟩ := UnsignedField.exists_read (show m.position + f.dimensions.numInGroup.stop ≤ m.buffer.size by omega)
    simp only [bind_eq_ok_iff, Pass.look_eq_ok_iff, pure_eq_ok_iff]
    exact ⟨⟨n, k, 0, m.position⟩, _, n, _, ⟨hn, rfl⟩, k, _, ⟨hk, rfl⟩, rfl, rfl⟩
  · exact Atomic.pure

theorem atomic_encode {f : GroupFormat} (hd : f.dimensions.Bounded) (count : Nat) :
    Atomic (Group.encode f count) := by
  unfold Group.encode
  refine Pass.atomic_look.bind Pass.silent_look fun _ => ?_
  refine Pass.atomic_look.bind Pass.silent_look fun _ => ?_
  refine (Message.atomic_advance _).bind_of_ok fun m base m' h => ?_
  obtain ⟨hs, rfl, rfl⟩ := Message.advance_eq_ok_iff.mp h
  have h1 := hd.blockLength_le
  have h2 := hd.numInGroup_le
  unfold Message.capacity at hs
  simp only [bind_eq_ok_iff, Pass.edit_eq_ok_iff, UnsignedField.write_eq_ok_iff, pure_eq_ok_iff]
  refine ⟨_, _, (), _, ⟨_, ⟨?_, rfl⟩, rfl⟩, (), _, ⟨_, ⟨?_, rfl⟩, rfl⟩, rfl, rfl⟩
  · show m.position + _ ≤ m.buffer.size; omega
  · rw [Buffer.size_patch]; show m.position + _ ≤ m.buffer.size; omega

theorem atomic_next (g : Group) : Atomic g.next := by
  unfold Group.next
  split
  · exact (Message.atomic_advance _).bind_of_ok fun m base m' _ => ⟨_, _, rfl⟩
  · exact Atomic.throw

end Group

theorem DataFormat.atomic_write (f : DataFormat) (src : Bytes) : Atomic (f.write src) := by
  unfold DataFormat.write
  refine Pass.atomic_look.bind Pass.silent_look fun _ => ?_
  refine (Message.atomic_advance _).bind_of_ok fun m base m' h => ?_
  obtain ⟨hs, rfl, rfl⟩ := Message.advance_eq_ok_iff.mp h
  unfold Message.capacity at hs
  simp only [bind_eq_ok_iff, Pass.edit_eq_ok_iff, Edit.overwrite_eq_ok_iff, pure_eq_ok_iff,
    ByteOrder.length_encode]
  refine ⟨_, _, (), _, ⟨_, ⟨?_, rfl⟩, rfl⟩, (), _, ⟨_, ⟨?_, rfl⟩, rfl⟩, rfl, rfl⟩
  · show m.position + _ ≤ m.buffer.size; omega
  · rw [Buffer.size_patch]; show m.position + _ + _ ≤ m.buffer.size; omega

/-! ## Calls -/

def Call.AllOrNothing : Call → Prop
  | .decodeGroup f | .encodeGroup f _ => f.dimensions.Bounded
  | .readData _ | .copyData .. | .startEncode _ | .startDecode .. | .encodeHeader .. | .decodeHeader .. => False
  | .access _ | .openComposite _ | .enterComposite _ | .move _ | .enterRoot | .next | .leave | .writeData ..
  | .seek _ | .swapBuffer _ => True

namespace Session

namespace Step

theorem atomic_pass {α : Type} {p : Pass α} (hp : Atomic p) : Atomic (Step.pass p) := by
  intro s e s' h
  obtain ⟨he, hscopes⟩ := pass_eq_error_iff.mp h
  have hmessage := hp he
  obtain ⟨m, scopes⟩ := s'
  cases hmessage
  cases hscopes
  rfl

theorem silent_look {α : Type} {read : Message → Except AccessError α} :
    Silent (Step.pass (Pass.look read)) := by
  intro s a s' h
  obtain ⟨ha, hscopes⟩ := pass_eq_ok_iff.mp h
  have hmessage := Pass.silent_look ha
  obtain ⟨m, scopes⟩ := s'
  cases hmessage
  cases hscopes
  rfl

theorem atomic_scopes {α : Type} (f : Session → Session) (answer : α) :
    Atomic (do modify f; return answer : Step α) := by
  intro s e s' h
  cases h

end Step

theorem atomic_perform {c : Call} (hc : c.AllOrNothing) : Atomic (perform c) := by
  have look {α : Type} (read : Message → Except AccessError α) : Atomic (Step.pass (Pass.look read)) :=
    Step.atomic_pass Pass.atomic_look
  cases c with
  | access a =>
    exact Atomic.get.bind Silent.get fun s =>
      Step.atomic_pass (Pass.atomic_edit (a.atomic_perform s.block))
  | openComposite f =>
    refine Atomic.get.bind Silent.get fun s => (look _).bind Step.silent_look fun inner => ?_
    cases inner with
    | some inner => exact Step.atomic_scopes _ _
    | none => exact Atomic.pure
  | enterComposite f =>
    exact Atomic.get.bind Silent.get fun s => (look _).bind Step.silent_look fun inner => Step.atomic_scopes _ _
  | move b =>
    refine Atomic.get.bind Silent.get fun s => ?_
    split
    · exact Step.atomic_scopes _ _
    · exact Atomic.pure
  | enterRoot => exact Atomic.get.bind Silent.get fun s => Step.atomic_scopes _ _
  | decodeGroup f =>
    exact (Step.atomic_pass (Group.atomic_decode hc)).bind_of_ok fun _ _ _ _ => ⟨_, _, rfl⟩
  | encodeGroup f count =>
    exact (Step.atomic_pass (Group.atomic_encode hc count)).bind_of_ok fun _ _ _ _ => ⟨_, _, rfl⟩
  | next =>
    refine Atomic.get.bind Silent.get fun s => ?_
    split
    · exact (Step.atomic_pass (Group.atomic_next _)).bind_of_ok fun _ _ _ _ => ⟨_, _, rfl⟩
    · exact Atomic.pure
  | leave =>
    refine Atomic.get.bind Silent.get fun s => ?_
    split
    · exact Step.atomic_scopes _ _
    · exact Atomic.pure
  | writeData f src => exact (Step.atomic_pass (f.atomic_write src)).map _
  | seek position => exact (Step.atomic_pass (Message.atomic_seek position)).map _
  | swapBuffer buffer =>
    refine (Step.atomic_pass fun m e m' h => ?_).map _
    cases h
  | readData | copyData | startEncode | startDecode | encodeHeader | decodeHeader => exact hc.elim

/-- A refused call leaves the session as it was, with every byte, the cursor and the open groups. -/
theorem eq_of_call_refused {s s' : Session} {c : Call} {e : AccessError} (hc : c.AllOrNothing)
    (h : s.call c = (.error e, s')) : s' = s := by
  unfold call at h
  cases hp : perform c s with
  | ok r t => rw [hp] at h; cases h
  | error e t =>
    rw [hp] at h
    cases h
    exact atomic_perform hc hp

def narrow : Session := .ofBuffer {} #[1, 2, 3]

theorem eq_of_call_refused_narrow :
    ∃ s', narrow.call (.encodeGroup { blockLength := 2 } 1) = (.error (.positionBeyondCapacity 4 3), s') ∧
      s' = narrow :=
  ⟨_, rfl, eq_of_call_refused (c := .encodeGroup { blockLength := 2 } 1) ⟨by decide, by decide⟩ rfl⟩

end Session

end SimpleBinary
