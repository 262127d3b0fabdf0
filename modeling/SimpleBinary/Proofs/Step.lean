import SimpleBinary.Message.Session

/-!
# Steps that succeed

When a step succeeds, with what answer, and what it leaves. A sequence of steps succeeds exactly if
its steps do, one after the other, so a statement about a pass is read off step by step; and it fails
where the first of them does that fails.
-/

namespace SimpleBinary

section
variable {ε σ α β : Type}

theorem bind_eq_ok_iff {p : EStateM ε σ α} {f : α → EStateM ε σ β} {s s' : σ} {b : β} :
    (p >>= f) s = .ok b s' ↔ ∃ a t, p s = .ok a t ∧ f a t = .ok b s' := by
  show EStateM.bind p f s = _ ↔ _
  unfold EStateM.bind
  cases h : p s with
  | ok a t =>
    apply Iff.intro
    · intro e
      exact ⟨a, t, rfl, e⟩
    · intro h
      obtain ⟨_, _, e, e'⟩ := h
      cases e
      exact e'
  | error e t =>
    refine ⟨fun e' => ?_, fun h => ?_⟩
    · cases e'
    · obtain ⟨_, _, e', _⟩ := h; cases e'

theorem pure_eq_ok_iff {a b : α} {s s' : σ} :
    (pure a : EStateM ε σ α) s = .ok b s' ↔ b = a ∧ s' = s := by
  show EStateM.Result.ok a s = .ok b s' ↔ _
  rw [EStateM.Result.ok.injEq]
  exact ⟨fun h => ⟨h.1.symm, h.2.symm⟩, fun h => ⟨h.1.symm, h.2.symm⟩⟩

theorem get_eq_ok_iff {a s s' : σ} : (get : EStateM ε σ σ) s = .ok a s' ↔ a = s ∧ s' = s := by
  show EStateM.Result.ok s s = .ok a s' ↔ _
  rw [EStateM.Result.ok.injEq]
  exact ⟨fun h => ⟨h.1.symm, h.2.symm⟩, fun h => ⟨h.1.symm, h.2.symm⟩⟩

theorem modify_eq_ok_iff {f : σ → σ} {a : PUnit} {s s' : σ} :
    (modify f : EStateM ε σ PUnit) s = .ok a s' ↔ s' = f s := by
  show EStateM.Result.ok ⟨⟩ (f s) = .ok a s' ↔ _
  rw [EStateM.Result.ok.injEq]
  exact ⟨fun h => h.2.symm, fun h => ⟨rfl, h.symm⟩⟩

theorem throw_ne_ok {e : ε} {a : α} {s s' : σ} : (throw e : EStateM ε σ α) s ≠ .ok a s' := by
  intro h; cases h

theorem map_eq_ok_iff {p : EStateM ε σ α} {f : α → β} {s s' : σ} {b : β} :
    (f <$> p) s = .ok b s' ↔ ∃ a, p s = .ok a s' ∧ b = f a := by
  show EStateM.map f p s = _ ↔ _
  unfold EStateM.map
  cases h : p s with
  | ok a t =>
    apply Iff.intro
    · intro e
      cases e; exact ⟨a, rfl, rfl⟩
    · intro h
      obtain ⟨_, e, rfl⟩ := h
      cases e
      rfl
  | error e t =>
    refine ⟨fun e' => ?_, fun h => ?_⟩
    · cases e'
    · obtain ⟨_, e', _⟩ := h; cases e'

theorem bind_of_ok {p : EStateM ε σ α} {f : α → EStateM ε σ β} {s t : σ} {a : α} (h : p s = .ok a t) :
    (p >>= f) s = f a t := by
  show EStateM.bind p f s = _
  unfold EStateM.bind
  rw [h]

theorem bind_of_error {p : EStateM ε σ α} {f : α → EStateM ε σ β} {s t : σ} {e : ε} (h : p s = .error e t) :
    (p >>= f) s = .error e t := by
  show EStateM.bind p f s = _
  unfold EStateM.bind
  rw [h]

theorem bind_congr_ok {p q : EStateM ε σ α} {f g : α → EStateM ε σ β} {s : σ} (h : p s = q s)
    (hk : ∀ a t, q s = .ok a t → f a t = g a t) : (p >>= f) s = (q >>= g) s := by
  cases hq : q s with
  | ok a t => rw [bind_of_ok (h.trans hq), bind_of_ok hq, hk a t hq]
  | error e t => rw [bind_of_error (h.trans hq), bind_of_error hq]

theorem get_bind {f : σ → EStateM ε σ β} {s : σ} : (get >>= f) s = f s s := rfl

theorem bind_eq_error_iff {p : EStateM ε σ α} {f : α → EStateM ε σ β} {s s' : σ} {e : ε} :
    (p >>= f) s = .error e s' ↔ p s = .error e s' ∨ ∃ a t, p s = .ok a t ∧ f a t = .error e s' := by
  show EStateM.bind p f s = _ ↔ _
  unfold EStateM.bind
  cases p s with
  | ok a t => simp [and_assoc]
  | error e t => simp

theorem map_eq_error_iff {p : EStateM ε σ α} {f : α → β} {s s' : σ} {e : ε} :
    (f <$> p) s = .error e s' ↔ p s = .error e s' := by
  show EStateM.map f p s = _ ↔ _
  unfold EStateM.map
  cases p s <;> simp

def Succeeds (p : EStateM ε σ α) (s : σ) : Prop := ∃ a t, p s = .ok a t

theorem succeeds_iff {p : EStateM ε σ α} {s : σ} : Succeeds p s ↔ ∀ e t, p s ≠ .error e t := by
  unfold Succeeds
  cases p s <;> simp

theorem bind_eq_error_of_succeeds {p : EStateM ε σ α} {k : α → EStateM ε σ β} {s s' : σ}
    (hk : ∀ a t, Succeeds (k a) t) {e : ε} : (p >>= k) s = .error e s' ↔ p s = .error e s' := by
  rw [bind_eq_error_iff]
  refine ⟨fun h => ?_, .inl⟩
  rcases h with h | ⟨a, t, -, h⟩
  · exact h
  · obtain ⟨b, t', hb⟩ := hk a t
    rw [hb] at h
    cases h

end

/-! ## Steps on a buffer -/

namespace Edit
variable {α : Type} {buffer written : Buffer}

theorem look_eq_ok_iff {read : Buffer → Except AccessError α} {a : α} :
    Edit.look read buffer = .ok a written ↔ read buffer = .ok a ∧ written = buffer := by
  unfold Edit.look
  cases h : read buffer with
  | ok b =>
    rw [EStateM.Result.ok.injEq, Except.ok.injEq]
    exact ⟨fun e => ⟨e.1, e.2.symm⟩, fun e => ⟨e.1, e.2.symm⟩⟩
  | error e => exact ⟨fun e' => (nomatch e'), fun e' => (nomatch e'.1)⟩

theorem overwrite_eq_ok_iff {offset : Nat} {bytes : Bytes} {u : Unit} :
    Edit.overwrite offset bytes buffer = .ok u written ↔
      offset + bytes.length ≤ buffer.size ∧ written = buffer.patch offset bytes := by
  rw [← Buffer.overwrite_eq_ok_iff]
  unfold Edit.overwrite
  cases h : buffer.overwrite offset bytes with
  | ok b =>
    rw [EStateM.Result.ok.injEq, Except.ok.injEq]
    exact ⟨fun e => e.2, fun e => ⟨rfl, e⟩⟩
  | error e => exact ⟨fun e' => (nomatch e'), fun e' => (nomatch e')⟩

theorem overwrite_eq_error {offset : Nat} {bytes : Bytes} (h : buffer.size < offset + bytes.length) :
    Edit.overwrite offset bytes buffer = .error (.accessBeyondCapacity offset bytes.length buffer.size) buffer := by
  unfold Edit.overwrite Buffer.overwrite
  rw [if_neg (Nat.not_le.mpr h)]

end Edit

/-! ## Steps on a message -/

namespace Pass
variable {α : Type} {m m' : Message}

theorem look_eq_ok_iff {read : Message → Except AccessError α} {a : α} :
    Pass.look read m = .ok a m' ↔ read m = .ok a ∧ m' = m := by
  unfold Pass.look
  cases h : read m with
  | ok b =>
    rw [EStateM.Result.ok.injEq, Except.ok.injEq]
    exact ⟨fun e => ⟨e.1, e.2.symm⟩, fun e => ⟨e.1, e.2.symm⟩⟩
  | error e => exact ⟨fun e' => (nomatch e'), fun e' => (nomatch e'.1)⟩

theorem edit_eq_ok_iff {step : Edit α} {a : α} :
    Pass.edit step m = .ok a m' ↔
      ∃ written, step m.buffer = .ok a written ∧ m' = { m with buffer := written } := by
  unfold Pass.edit
  cases h : step m.buffer with
  | ok b written =>
    apply Iff.intro
    · intro e
      cases e; exact ⟨written, rfl, rfl⟩
    · intro h
      obtain ⟨_, e, rfl⟩ := h
      cases e
      rfl
  | error e written =>
    refine ⟨fun e' => ?_, fun h => ?_⟩
    · cases e'
    · obtain ⟨_, e', _⟩ := h; cases e'

end Pass

namespace Message
variable {m m' : Message}

theorem seek_eq_ok_iff {position : Nat} {u : Unit} :
    seek position m = .ok u m' ↔
      position ≤ m.capacity ∧ m' = { m with position := position } := by
  unfold seek
  by_cases h : position ≤ m.capacity
  · rw [if_pos h, EStateM.Result.ok.injEq]
    exact ⟨fun e => ⟨h, e.2.symm⟩, fun e => ⟨rfl, e.2.symm⟩⟩
  · rw [if_neg h]
    exact ⟨fun e => (nomatch e), fun e => absurd e.1 h⟩

theorem advance_eq_ok_iff {n base : Nat} :
    advance n m = .ok base m' ↔
      m.position + n ≤ m.capacity ∧ base = m.position ∧
        m' = { m with position := m.position + n } := by
  unfold advance
  by_cases h : m.position + n ≤ m.capacity
  · rw [if_pos h, EStateM.Result.ok.injEq]
    exact ⟨fun e => ⟨h, e.1.symm, e.2.symm⟩, fun e => ⟨e.2.1.symm, e.2.2.symm⟩⟩
  · rw [if_neg h]
    exact ⟨fun e => (nomatch e), fun e => absurd e.1 h⟩

theorem advance_eq_error {n : Nat} (h : m.capacity < m.position + n) :
    advance n m = .error (.positionBeyondCapacity (min (m.position + n) lastPosition) m.capacity) m :=
  if_neg (Nat.not_le.mpr h)

def started (m : Message) (offset blockLength : Nat) (version : Version) : Message :=
  { m with
    offset := offset
    position := offset + blockLength
    actingBlockLength := blockLength
    actingVersion := version }

theorem start_eq_ok_iff {offset blockLength : Nat} {version : Version} {u : Unit} :
    start offset blockLength version m = .ok u m' ↔
      offset + blockLength ≤ m.capacity ∧ m' = m.started offset blockLength version := by
  unfold start
  rw [bind_eq_ok_iff]
  apply Iff.intro
  · intro h
    obtain ⟨_, t, ht, h⟩ := h
    rw [modify_eq_ok_iff] at ht
    subst ht
    exact seek_eq_ok_iff.mp h
  · intro h
    obtain ⟨h, rfl⟩ := h
    exact ⟨⟨⟩, _, modify_eq_ok_iff.mpr rfl, seek_eq_ok_iff.mpr ⟨h, rfl⟩⟩

theorem startEncode_eq_ok_iff {offset : Nat} {u : Unit} :
    startEncode offset m = .ok u m' ↔
      offset + m.template.blockLength.toNat ≤ m.capacity ∧
        m' = m.started offset m.template.blockLength.toNat m.template.version := by
  unfold startEncode
  rw [bind_eq_ok_iff]
  apply Iff.intro
  · intro h
    obtain ⟨t, _, ht, h⟩ := h
    obtain ⟨rfl, rfl⟩ := get_eq_ok_iff.mp ht
    exact start_eq_ok_iff.mp h
  · intro h
    exact ⟨_, _, get_eq_ok_iff.mpr ⟨rfl, rfl⟩, start_eq_ok_iff.mpr h⟩

end Message

/-! ## Steps on a session -/

namespace Session.Step
variable {α : Type} {p : Pass α} {s s' : Session}

theorem pass_eq_ok_iff {a : α} :
    Step.pass p s = .ok a s' ↔ p s.message = .ok a s'.message ∧ s'.scopes = s.scopes := by
  unfold Step.pass
  obtain ⟨m', scopes⟩ := s'
  cases p s.message with
  | ok b m => simp [eq_comm, and_assoc]
  | error e m => simp

theorem pass_eq_error_iff {e : AccessError} :
    Step.pass p s = .error e s' ↔ p s.message = .error e s'.message ∧ s'.scopes = s.scopes := by
  unfold Step.pass
  obtain ⟨m', scopes⟩ := s'
  cases p s.message with
  | ok b m => simp
  | error e m => simp [eq_comm, and_assoc]

end Session.Step

end SimpleBinary
