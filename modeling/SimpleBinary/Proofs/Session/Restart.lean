import SimpleBinary.Proofs.Alike
import SimpleBinary.Proofs.Session.Calls
import SimpleBinary.Proofs.Session.Truncation

/-!
# A message that is started again

After a refusal the cursor may be anywhere, and what a message was started with may be half replaced. To
start a message again is to be done with all that: the start itself looks at the buffer and the template
at most, and what it leaves depends on nothing else.
-/

namespace SimpleBinary

/-! ## Steps after which it does not matter where they began -/

section
variable {ε σ α β : Type} {R : σ → σ → Prop} {p : EStateM ε σ α} {s s' : σ}

/-- The step is refused in both states for one reason, or leaves one state. -/
inductive Merges (p : EStateM ε σ α) (s s' : σ) : Prop
  | ok {a : α} {t : σ} (left : p s = .ok a t) (right : p s' = .ok a t)
  | error {e : ε} {t t' : σ} (left : p s = .error e t) (right : p s' = .error e t')

namespace Merges

theorem after {f : α → EStateM ε σ β} (h : Alike R p s s')
    (hf : ∀ a t t', R t t' → Merges (f a) t t') : Merges (p >>= f) s s' := by
  cases h with
  | @ok a t t' left right related =>
    cases hf a t t' related with
    | ok hl hr => exact .ok (bind_eq_ok_iff.mpr ⟨_, _, left, hl⟩) (bind_eq_ok_iff.mpr ⟨_, _, right, hr⟩)
    | error hl hr =>
      exact .error (bind_eq_error_iff.mpr (.inr ⟨_, _, left, hl⟩)) (bind_eq_error_iff.mpr (.inr ⟨_, _, right, hr⟩))
  | error left right related =>
    exact .error (bind_eq_error_iff.mpr (.inl left)) (bind_eq_error_iff.mpr (.inl right))

theorem of_alike (h : Alike R p s s') (hok : ∀ a t t', p s = .ok a t → p s' = .ok a t' → t' = t) : Merges p s s' := by
  cases h with
  | ok left right => exact .ok left (hok _ _ _ left right ▸ right)
  | error left right => exact .error left right

theorem map (h : Merges p s s') (g : α → β) : Merges (g <$> p) s s' := by
  cases h with
  | ok left right => exact .ok (map_eq_ok_iff.mpr ⟨_, left, rfl⟩) (map_eq_ok_iff.mpr ⟨_, right, rfl⟩)
  | error left right => exact .error (map_eq_error_iff.mpr left) (map_eq_error_iff.mpr right)

theorem get {k : σ → EStateM ε σ α} (hk : k s' = k s) (h : Merges (k s) s s') :
    Merges (MonadState.get >>= k) s s' := by
  have hright : (MonadState.get >>= k) s' = k s s' := congrArg (fun q => q s') hk
  cases h with
  | ok left right => exact .ok left (hright.trans right)
  | error left right => exact .error left (hright.trans right)

end Merges

end

namespace Message

structure SameSource (m m' : Message) : Prop where
  buffer_eq : m'.buffer = m.buffer
  template_eq : m'.template = m.template

section
variable {m m' : Message} {offset blockLength : Nat} {version : Version}

theorem SameSource.started_eq (h : m.SameSource m') :
    m'.started offset blockLength version = m.started offset blockLength version := by
  unfold started
  rw [h.buffer_eq, h.template_eq]

theorem start_eq_error (version : Version) (h : m.capacity < offset + blockLength) :
    ∃ m₁, start offset blockLength version m =
      .error (.positionBeyondCapacity (min (offset + blockLength) lastPosition) m.capacity) m₁ :=
  ⟨_, if_neg (Nat.not_le.mpr h)⟩

theorem merges_start (h : m.SameSource m') : Merges (start offset blockLength version) m m' := by
  have hcapacity : m'.capacity = m.capacity := congrArg Array.size h.buffer_eq
  by_cases hc : offset + blockLength ≤ m.capacity
  · have hleft : start offset blockLength version m = .ok () _ := start_eq_ok_iff.mpr ⟨hc, rfl⟩
    have hright : start offset blockLength version m' = .ok () _ := start_eq_ok_iff.mpr ⟨hcapacity ▸ hc, rfl⟩
    rw [h.started_eq] at hright
    exact .ok hleft hright
  · obtain ⟨m₁, hleft⟩ := start_eq_error version (Nat.not_le.mp hc)
    obtain ⟨m₂, hright⟩ := start_eq_error (m := m') version (hcapacity ▸ Nat.not_le.mp hc)
    rw [hcapacity] at hright
    exact .error hleft hright

theorem merges_startEncode (h : m.SameSource m') : Merges (startEncode offset) m m' :=
  .get (by rw [h.template_eq]) (merges_start h)

theorem merges_decodeHeader {format : HeaderFormat} (h : m.SameSource m') : Merges (decodeHeader offset format) m m' :=
  .after (Pass.alike_lookSame _ h.buffer_eq h) fun found _ _ ht => (merges_start ht).map fun _ => found

theorem merges_encodeHeader {format : HeaderFormat} (h : m.SameSource m') :
    Merges (encodeHeader offset format) m m' := by
  refine .get (by rw [h.template_eq]) (.after (R := SameSource) ?_ fun _ _ _ ht => merges_startEncode ht)
  exact Pass.alike_editSame _ h.buffer_eq fun _ => ⟨rfl, h.template_eq⟩

/-! ## The template -/

def SameTemplate (m m' : Message) : Prop := m'.template = m.template

instance : Std.Refl SameTemplate := ⟨fun _ => rfl⟩

instance : IsTrans Message SameTemplate := ⟨fun _ _ _ h h' => Eq.trans h' h⟩

theorem sameTemplate_move (m : Message) (position : Nat) : m.SameTemplate { m with position := position } := rfl

theorem sameTemplate_edit {α : Type} {step : Edit α} : Keeps SameTemplate (Pass.edit step) := by
  intro m
  rw [final_edit]
  rfl

end

end Message

def Call.Starts : Call → Prop
  | startEncode _ | startDecode .. | encodeHeader .. | decodeHeader .. => True
  | _ => False

namespace Session

theorem sameTemplate_perform (c : Call) : Keeps (Over Message.SameTemplate) (perform c) := by
  by_cases hc : c.Places
  · exact keeps_places (fun _ _ _ _ => Message.sameTemplate_edit) (fun _ _ _ _ => rfl)
      (Message.keeps_seek Message.sameTemplate_move) (fun _ _ _ => rfl) hc
  · exact keeps_perform (fun _ _ _ _ => Message.sameTemplate_edit) (Message.keeps_advance Message.sameTemplate_move) hc

theorem template_calls (t : Template) (b : Buffer) (cs : List Call) :
    ((ofBuffer t b).calls cs).2.message.template = t := by
  refine holds_calls (I := fun s => s.message.template = t) cs (fun c _ s hs => ?_) rfl
  have hkeeps : (final (perform c s)).message.template = s.message.template := sameTemplate_perform c s
  rw [snd_call, hkeeps, hs]

section
variable {m m' : Message} {opened : List Scope} {c : Call}

theorem merges_pass {α : Type} {p : Pass α} (h : Merges p m m') : Merges (Step.pass p) ⟨m, opened⟩ ⟨m', opened⟩ := by
  cases h with
  | @ok a t left right =>
    have hleft : Step.pass p ⟨m, opened⟩ = .ok a ⟨t, opened⟩ := Step.pass_eq_ok_iff.mpr ⟨left, rfl⟩
    exact .ok hleft (Step.pass_eq_ok_iff.mpr ⟨right, rfl⟩)
  | @error e t t' left right =>
    have hleft : Step.pass p ⟨m, opened⟩ = .error e ⟨t, opened⟩ := Step.pass_eq_error_iff.mpr ⟨left, rfl⟩
    have hright : Step.pass p ⟨m', opened⟩ = .error e ⟨t', opened⟩ := Step.pass_eq_error_iff.mpr ⟨right, rfl⟩
    exact .error hleft hright

theorem merges_perform (hc : c.Starts) (h : m.SameSource m') : Merges (perform c) ⟨m, opened⟩ ⟨m', opened⟩ := by
  cases c with
  | startEncode offset => exact (merges_pass (Message.merges_startEncode h)).map _
  | startDecode offset blockLength version => exact (merges_pass (Message.merges_start h)).map _
  | encodeHeader offset format => exact (merges_pass (Message.merges_encodeHeader h)).map _
  | decodeHeader offset format => exact (merges_pass (Message.merges_decodeHeader h)).map _
  | _ => exact hc.elim

end

/-- Two messages of one template have been used in whatever way, and their buffers have come to be the same. To
start them again is refused for both, for the same reason; or it leaves no difference between them, and what is
called from then on has the same answers, positions and bytes. -/
theorem start_erases_history {t : Template} {b₁ b₂ : Buffer} {cs₁ cs₂ : List Call} {c : Call} (opened : List Scope)
    (hc : c.Starts)
    (hb : ((ofBuffer t b₁).calls cs₁).2.message.buffer = ((ofBuffer t b₂).calls cs₂).2.message.buffer) :
    let s₁ : Session := ⟨((ofBuffer t b₁).calls cs₁).2.message, opened⟩
    let s₂ : Session := ⟨((ofBuffer t b₂).calls cs₂).2.message, opened⟩
    (∃ e, (s₁.call c).1 = .error e ∧ (s₂.call c).1 = .error e) ∨
      (∃ r, (s₁.call c).1 = .ok r) ∧ s₁.call c = s₂.call c ∧
        ∀ later, s₁.calls (c :: later) = s₂.calls (c :: later) ∧ s₁.trace (c :: later) = s₂.trace (c :: later) := by
  intro s₁ s₂
  have hsource : s₁.message.SameSource s₂.message :=
    ⟨hb.symm, (template_calls t b₂ cs₂).trans (template_calls t b₁ cs₁).symm⟩
  have hmerges : Merges (perform c) s₁ s₂ := merges_perform hc hsource
  -- a refused start may leave two different messages, so nothing is said of what is called after it
  cases hmerges with
  | @error e u u' left right =>
    exact .inl ⟨e, congrArg Prod.fst (call_of_error left), congrArg Prod.fst (call_of_error right)⟩
  | @ok r u left right =>
    have hcall : s₁.call c = s₂.call c := (call_of_ok left).trans (call_of_ok right).symm
    refine .inr ⟨⟨r, congrArg Prod.fst (call_of_ok left)⟩, hcall, fun later => ⟨?_, ?_⟩⟩
    · unfold calls
      rw [hcall]
    · rw [trace_cons_of_ok left, trace_cons_of_ok right]

/-- One has been left at its end, by a start that was refused. -/
def stale : List Call := [.seek 4, .startDecode 9 9 1]

def rebound : List Call := [.seek 1, .swapBuffer #[2, 0, 9, 1], .seek 2, .readData { length := .w8 }]

theorem start_erases_history_stale :
    let s₁ : Session := ⟨((ofBuffer {} #[2, 0, 9, 1]).calls stale).2.message, []⟩
    let s₂ : Session := ⟨((ofBuffer {} #[7]).calls rebound).2.message, []⟩
    s₁ ≠ s₂ ∧ s₁.calls [.startDecode 0 2 0, .readData { length := .w8 }] =
      s₂.calls [.startDecode 0 2 0, .readData { length := .w8 }] := by
  intro s₁ s₂
  refine ⟨by decide, ?_⟩
  have hbuffer : ((ofBuffer {} #[2, 0, 9, 1]).calls stale).2.message.buffer =
      ((ofBuffer {} #[7]).calls rebound).2.message.buffer := by decide
  have hstart := start_erases_history (c := .startDecode 0 2 0) [] trivial hbuffer
  rcases hstart with ⟨e, he, -⟩ | ⟨-, -, hlater⟩
  · cases he
  · exact (hlater [.readData { length := .w8 }]).1

end Session

end SimpleBinary
