import SimpleBinary.Proofs.Session.Frame
import SimpleBinary.Proofs.Session.Truncation

/-!
# Encoding looks at no other bytes

A call that encodes a section, or writes a field of an element, answers the same and writes the same
whatever the bytes are that it does not write. So it goes alike over two messages that differ in such
bytes only, and leaves them as different as they were.
-/

namespace SimpleBinary

/-! ## Passes over two messages -/

namespace Message
variable {P : Nat → Prop} {m m' : Message}

structure SameOn (P : Nat → Prop) (m m' : Message) : Prop where
  frame : m' = { m with buffer := m'.buffer }
  buffer : m.buffer.SameOn P m'.buffer

theorem SameOn.of_buffer {b : Buffer} (h : m.buffer.SameOn P b) : m.SameOn P { m with buffer := b } := ⟨rfl, h⟩

theorem SameOn.edited {b b' : Buffer} (h : m.SameOn P m') (hb : b.SameOn P b') :
    SameOn P { m with buffer := b } { m' with buffer := b' } := by
  refine ⟨?_, hb⟩
  rw [h.frame]

theorem SameOn.capacity_eq (h : m.SameOn P m') : m'.capacity = m.capacity := h.buffer.size_eq

theorem SameOn.position_eq (h : m.SameOn P m') : m'.position = m.position := by rw [h.frame]

theorem alike_advance (n : Nat) (h : m.SameOn P m') : Alike (SameOn P) (advance n) m m' := by
  have hposition := h.position_eq
  have hcapacity := h.capacity_eq
  by_cases hn : m.position + n ≤ m.capacity
  · refine .ok (advance_eq_ok_iff.mpr ⟨hn, rfl, rfl⟩)
      (advance_eq_ok_iff.mpr ⟨by rwa [hposition, hcapacity], hposition.symm, rfl⟩) ⟨?_, h.buffer⟩
    rw [h.frame]
  · refine .error (advance_eq_error (Nat.not_le.mp hn)) ?_ h
    rw [advance_eq_error (by omega), hposition, hcapacity]

end Message

namespace Pass
variable {P : Nat → Prop} {m m' : Message}

theorem alike_overwrite (offset : Nat) (bytes : Bytes) (h : m.SameOn P m') :
    Alike (Message.SameOn P) (Pass.edit (Edit.overwrite offset bytes)) m m' := by
  refine alike_edit ?_ fun _ _ => h.edited
  have hsize := h.buffer.size_eq
  by_cases hs : offset + bytes.length ≤ m.buffer.size
  · have hs' : offset + bytes.length ≤ m'.buffer.size := hsize ▸ hs
    exact .ok (a := ()) (Edit.overwrite_eq_ok_iff.mpr ⟨hs, rfl⟩) (Edit.overwrite_eq_ok_iff.mpr ⟨hs', rfl⟩)
      (h.buffer.patch offset bytes)
  · refine .error (Edit.overwrite_eq_error (Nat.not_le.mp hs)) ?_ h.buffer
    rw [Edit.overwrite_eq_error (by omega), hsize]

end Pass

section
variable {P : Nat → Prop} {m m' : Message}

theorem Group.alike_next (g : Group) (h : m.SameOn P m') : Alike (Message.SameOn P) g.next m m' := by
  unfold Group.next
  split
  · exact (Message.alike_advance _ h).bind (fun _ _ _ _ ht => .pure ht) fun _ _ ht => ht
  · exact .throw h

theorem Group.alike_encode (f : GroupFormat) (count : Nat) (h : m.SameOn P m') :
    Alike (Message.SameOn P) (Group.encode f count) m m' := by
  refine (Pass.alike_check _ h).bind (fun _ _ _ _ h => ?_) fun _ _ h => h
  refine (Pass.alike_check _ h).bind (fun _ _ _ _ h => ?_) fun _ _ h => h
  refine (Message.alike_advance _ h).bind (fun _ _ _ _ h => ?_) fun _ _ h => h
  refine (Pass.alike_overwrite _ _ h).bind (fun _ _ _ _ h => ?_) fun _ _ h => h
  exact (Pass.alike_overwrite _ _ h).bind (fun _ _ _ _ h => .pure h) fun _ _ h => h

theorem DataFormat.alike_write (f : DataFormat) (src : Bytes) (h : m.SameOn P m') :
    Alike (Message.SameOn P) (f.write src) m m' := by
  refine (Pass.alike_check _ h).bind (fun _ _ _ _ h => ?_) fun _ _ h => h
  refine (Message.alike_advance _ h).bind (fun _ _ _ _ h => ?_) fun _ _ h => h
  refine (Pass.alike_overwrite _ _ h).bind (fun _ _ _ _ h => ?_) fun _ _ h => h
  exact (Pass.alike_overwrite _ _ h).bind (fun _ _ _ _ h => .pure h) fun _ _ h => h

end

namespace Session

/-! ## Calls over two messages -/

def InElement : List Scope → Prop
  | [] => False
  | .group _ :: _ => True
  | .composite _ :: outer => InElement outer
  | .root :: _ => False

/-- The call encodes a section, or writes a field of the element that the session is in. -/
def Encodes (s : Session) : Call → Prop
  | .access a => InElement s.scopes ∧ a.lookup? = none ∧
      ∀ i, a.Touches s.block i → (acting s.message s.scopes).1 ≤ i ∧ i < (acting s.message s.scopes).2
  | .encodeGroup f _ => f.dimensions.Bounded
  | .next | .writeData .. | .enterComposite _ | .move _ | .enterRoot | .leave => True
  | _ => False

structure SameOn (P : Nat → Prop) (s s' : Session) : Prop where
  message : s.message.SameOn P s'.message
  scopes : s'.scopes = s.scopes

section
variable {P : Nat → Prop} {s s' : Session} {α β : Type}

theorem SameOn.mono {Q : Nat → Prop} (h : s.SameOn P s') (hQ : ∀ i, Q i → P i) : s.SameOn Q s' :=
  ⟨⟨h.message.frame, h.message.buffer.mono hQ⟩, h.scopes⟩

theorem SameOn.root_eq (h : s.SameOn P s') : s'.message.root = s.message.root := by
  rw [h.message.frame]
  rfl

theorem SameOn.block_eq (h : s.SameOn P s') : s'.block = s.block := block_congr h.scopes h.root_eq

theorem alike_pass {p : Pass α} (h : Alike (Message.SameOn P) p s.message s'.message) (hs : s'.scopes = s.scopes) :
    Alike (SameOn P) (Step.pass p) s s' :=
  Step.alike_pass h fun _ _ hm => ⟨hm, hs⟩

theorem alike_scopes {f : List Scope → List Scope} {answer : β} (h : s.SameOn P s') :
    Alike (SameOn P) (do modify fun s => { s with scopes := f s.scopes }; return answer : Step β) s s' :=
  .ok rfl rfl ⟨h.message, congrArg f h.scopes⟩

theorem alike_enter (b : Block) (f : CompositeField) (h : s.SameOn P s') :
    Alike (SameOn P) (Step.pass (Pass.look fun m => b.enter f m.buffer)) s s' := by
  refine alike_pass ?_ h.scopes
  have hsize := h.message.buffer.size_eq
  have heq : b.enter f s'.message.buffer = b.enter f s.message.buffer := by
    unfold Block.enter
    by_cases hs : b.base + f.offset + f.size ≤ s.message.buffer.size
    · rw [Buffer.window_eq_extract hs, Buffer.window_eq_extract (hsize ▸ hs)]
      rfl
    · rw [Buffer.window_eq_error (by omega), Buffer.window_eq_error (by omega), hsize]
  cases hb : b.enter f s.message.buffer with
  | ok c => exact .ok (a := c) (by simp [Pass.look, hb]) (by simp [Pass.look, heq, hb]) h.message
  | error e => exact .error (e := e) (by simp [Pass.look, hb]) (by simp [Pass.look, heq, hb]) h.message

theorem alike_perform {c : Call} (hc : s.Encodes c)
    (hP : ∀ a, c = .access a → ∀ i, a.Touches s.block i → P i) (h : s.SameOn P s') :
    Alike (SameOn P) (perform c) s s' := by
  have hscopes := h.scopes
  cases c with
  | access a =>
    refine .get (by rw [h.block_eq]) (alike_pass ?_ hscopes)
    exact Pass.alike_edit (a.alike_perform hc.2.1 (hP a rfl) h.message.buffer) fun _ _ => h.message.edited
  | enterComposite f =>
    refine .get (by rw [h.block_eq]) ((alike_enter _ f h).bind (fun inner t t' _ ht => ?_) fun _ _ ht => ht)
    exact alike_scopes (f := (.composite inner :: ·)) ht
  | move b =>
    refine .get (by rw [hscopes]) ?_
    split
    · exact alike_scopes (f := fun scopes => .composite b :: scopes.tail) h
    · exact .pure h
  | enterRoot => exact .get (by rw [h.root_eq]) (alike_scopes (f := (.root :: ·)) h)
  | encodeGroup f count =>
    exact (alike_pass (Group.alike_encode f count h.message) hscopes).bind
      (fun g t t' _ ht => alike_scopes (f := (.group g :: ·)) ht) fun _ _ ht => ht
  | next =>
    refine .get (by rw [hscopes]) ?_
    split
    · next g outer _ =>
      exact (alike_pass (g.alike_next h.message) hscopes).bind
        (fun g t t' _ ht => alike_scopes (f := fun scopes => .group g :: scopes.tail) ht) fun _ _ ht => ht
    · exact .pure h
  | leave =>
    refine .get (by rw [hscopes]) ?_
    split
    · next scope outer _ => exact alike_scopes (f := fun _ => outer) h
    · exact .pure h
  | writeData f src => exact (alike_pass (f.alike_write src h.message) hscopes).map _
  | _ => exact hc.elim

theorem SameOn.acting_eq (h : s.SameOn P s') : ∀ scopes, acting s'.message scopes = acting s.message scopes
  | [] | .root :: _ => by
    rw [h.message.frame]
    rfl
  | .group g :: _ => rfl
  | .composite _ :: outer => h.acting_eq outer

theorem SameOn.encodes {c : Call} (h : s.SameOn P s') (hc : s.Encodes c) : s'.Encodes c := by
  cases c with
  | access a =>
    unfold Encodes
    rw [h.block_eq, h.scopes, h.acting_eq]
    exact hc
  | encodeGroup | next | writeData | enterComposite | move | enterRoot | leave => exact hc
  | _ => exact hc.elim

theorem eq_of_sameOn {t : Session} (n : Nat) (h : t.SameOn (n ≤ ·) s) (h' : t.SameOn (n ≤ ·) s')
    (hb : s.message.buffer.SameOn (· < n) s'.message.buffer) : s' = s := by
  have hbuffer : s'.message.buffer = s.message.buffer :=
    Buffer.eq_of_sameOn n hb (trans_of (Buffer.SameOn (n ≤ ·)) h.message.buffer.symm h'.message.buffer)
  have hmessage : s'.message = s.message := by rw [h'.message.frame, h.message.frame, hbuffer]
  have hscopes : s'.scopes = s.scopes := h'.scopes.trans h.scopes.symm
  obtain ⟨m, opened⟩ := s
  obtain ⟨m', opened'⟩ := s'
  cases hmessage
  cases hscopes
  rfl

end

end Session

end SimpleBinary
