import SimpleBinary.Proofs.Session.Progress

/-!
# What calls keep

A call is a pass over the message and then a change to what is open. So what the passes keep of the
message, calls keep (`keeps_perform`, `keeps_places`); and whatever is open after a call was open before
it or is what the call opens (`mem_scopes_perform`).
-/

namespace SimpleBinary

/-- Calls that say themselves where the cursor is to be. -/
def Call.Places : Call → Prop
  | seek _ | startEncode _ | startDecode .. | encodeHeader .. | decodeHeader .. | swapBuffer _ => True
  | _ => False

def Call.Writes : Call → Prop
  | access _ | encodeGroup .. | writeData .. | encodeHeader .. => True
  | _ => False

namespace Session
variable {s : Session} {c : Call}

theorem snd_call (c : Call) : (s.call c).2 = final (perform c s) := by
  unfold call
  cases perform c s <;> rfl

theorem call_of_ok {r : Reply} {s' : Session} (h : perform c s = .ok r s') : s.call c = (.ok r, s') := by
  unfold call
  rw [h]

theorem perform_of_call {r : Reply} {s' : Session} (h : s.call c = (.ok r, s')) : perform c s = .ok r s' := by
  unfold call at h
  cases hp : perform c s <;> rw [hp] at h <;> cases h
  rfl

theorem call_of_error {e : AccessError} {s' : Session} (h : perform c s = .error e s') : s.call c = (.error e, s') := by
  unfold call
  rw [h]

theorem block_congr {s' : Session} (hs : s'.scopes = s.scopes) (hroot : s'.message.root = s.message.root) :
    s'.block = s.block := by
  have hversion : s'.message.actingVersion = s.message.actingVersion := congrArg Block.version hroot
  unfold block
  rw [hs]
  split
  · exact hroot
  · rw [hversion]
  · rfl
  · exact hroot

theorem holds_calls {I : Session → Prop} : ∀ (cs : List Call) {s : Session},
    (∀ c ∈ cs, ∀ s, I s → I (s.call c).2) → I s → I (s.calls cs).2
  | [], _, _, h => h
  | c :: cs, s, hcall, h =>
    holds_calls cs (fun c' hc => hcall c' (List.mem_cons_of_mem _ hc)) (hcall c List.mem_cons_self s h)

/-! ## The message -/

def Over (R : Message → Message → Prop) (s s' : Session) : Prop := R s.message s'.message

section
variable {R : Message → Message → Prop}

instance [Std.Refl R] : Std.Refl (Over R) := ⟨fun s => refl_of R s.message⟩

instance [IsTrans Message R] : IsTrans Session (Over R) := ⟨fun _ _ _ h h' => trans_of R h h'⟩

theorem final_pass {α : Type} (p : Pass α) (s : Session) :
    final (Step.pass p s) = { s with message := final (p s.message) } := by
  unfold Step.pass
  cases p s.message <;> rfl

theorem keeps_pass {α : Type} {p : Pass α} (h : Keeps R p) : Keeps (Over R) (Step.pass p) := by
  intro s
  rw [final_pass]
  exact h s.message

theorem keeps_scopes [Std.Refl R] (f : Session → List Scope) :
    Keeps (Over R) (modify fun s => { s with scopes := f s } : Step Unit) := fun s => refl_of R s.message

section
variable [Std.Refl R] [IsTrans Message R]
  (hedit : c.Writes → ∀ {α : Type} {step : Edit α}, Keeps Buffer.SameSize step → Keeps R (Pass.edit step))
include hedit

theorem keeps_perform (hadvance : ∀ n, Keeps R (Message.advance n)) (hc : ¬ c.Places) :
    Keeps (Over R) (perform c) := by
  have look {α : Type} (read : Message → Except AccessError α) : Keeps (Over R) (Step.pass (Pass.look read)) :=
    keeps_pass (Pass.keeps_look read)
  cases c with
  | access a => exact .bind .get fun s => keeps_pass (hedit trivial (a.keeps_perform s.block))
  | openComposite f =>
    refine .bind .get fun s => .bind (look _) fun inner => ?_
    cases inner with
    | some inner => exact .bind (keeps_scopes _) fun _ => .pure
    | none => exact .pure
  | enterComposite f =>
    exact .bind .get fun s => .bind (look _) fun inner => .bind (keeps_scopes _) fun _ => .pure
  | move b =>
    refine .bind .get fun s => ?_
    split
    · exact .bind (keeps_scopes _) fun _ => .pure
    · exact .pure
  | enterRoot => exact .bind .get fun s => .bind (keeps_scopes _) fun _ => .pure
  | decodeGroup f =>
    exact .bind (keeps_pass (Group.keeps_decode hadvance f)) fun _ => .bind (keeps_scopes _) fun _ => .pure
  | encodeGroup f count =>
    exact .bind (keeps_pass (Group.keeps_encode hadvance (hedit trivial) f count)) fun _ =>
      .bind (keeps_scopes _) fun _ => .pure
  | next =>
    refine .bind .get fun s => ?_
    split
    · next g _ _ => exact .bind (keeps_pass (g.keeps_next hadvance)) fun _ => .bind (keeps_scopes _) fun _ => .pure
    · exact .pure
  | leave =>
    refine .bind .get fun s => ?_
    split
    · exact .bind (keeps_scopes _) fun _ => .pure
    · exact .pure
  | readData f => exact (keeps_pass (f.keeps_read hadvance)).map _
  | copyData f dst => exact (keeps_pass (f.keeps_copy hadvance dst)).map _
  | writeData f src => exact (keeps_pass (f.keeps_write hadvance (hedit trivial) src)).map _
  | seek | startEncode | startDecode | encodeHeader | decodeHeader | swapBuffer => exact (hc trivial).elim

theorem keeps_places
    (htake : ∀ (m : Message) (offset blockLength : Nat) (version : Version),
      R m { m with offset := offset, actingBlockLength := blockLength, actingVersion := version })
    (hseek : ∀ position, Keeps R (Message.seek position))
    (hswap : ∀ buffer, c = .swapBuffer buffer → Keeps R (Message.swapBuffer buffer)) (hc : c.Places) :
    Keeps (Over R) (perform c) := by
  cases c with
  | seek position => exact (keeps_pass (hseek position)).map _
  | startEncode offset => exact (keeps_pass (Message.keeps_startEncode htake hseek offset)).map _
  | startDecode offset blockLength version =>
    exact (keeps_pass (Message.keeps_start htake hseek offset blockLength version)).map _
  | encodeHeader offset format =>
    exact (keeps_pass (Message.keeps_encodeHeader htake hseek (hedit trivial) offset format)).map _
  | decodeHeader offset format => exact (keeps_pass (Message.keeps_decodeHeader htake hseek offset format)).map _
  | swapBuffer buffer => exact (keeps_pass (hswap buffer rfl)).map _
  | _ => exact hc.elim

end

end

open Message

theorem forward_perform (hc : ¬ c.Places) : Keeps (Over Forward) (perform c) :=
  keeps_perform (fun _ => forward_edit) forward_advance hc

theorem contained_perform (hc : ∀ buffer, c ≠ .swapBuffer buffer) : Keeps (Over Contained) (perform c) := by
  by_cases hp : c.Places
  · exact keeps_places (fun _ => contained_edit) contained_take contained_seek (fun buffer h => absurd h (hc buffer)) hp
  · exact (forward_perform hp).mono fun _ _ h => h.1

theorem sameHead_perform (hc : ¬ c.Places) : Keeps (Over SameHead) (perform c) :=
  keeps_perform (fun _ => sameHead_edit) sameHead_advance hc

/-! ## What is open -/

/-- The call puts the scope on top of the others, or in the place of the top one. -/
def Opens (s : Session) (x : Scope) : Call → Prop
  | .openComposite f => ∃ inner, s.block.composite? f s.message.buffer = .ok (some inner) ∧ x = .composite inner
  | .enterComposite f => ∃ inner, s.block.enter f s.message.buffer = .ok inner ∧ x = .composite inner
  | .move b => x = .composite b
  | .enterRoot => x = .root
  | .decodeGroup f => ∃ g m, Group.decode f s.message = .ok g m ∧ x = .group g
  | .encodeGroup f count => ∃ g m, Group.encode f count s.message = .ok g m ∧ x = .group g
  | .next => ∃ g g' m, .group g ∈ s.scopes ∧ g.next s.message = .ok g' m ∧ x = .group g'
  | _ => False

theorem final_map {σ ε α β : Type} (f : α → β) (p : EStateM ε σ α) (s : σ) : final ((f <$> p) s) = final (p s) := by
  show final (EStateM.map f p s) = _
  unfold EStateM.map
  cases p s <;> rfl

theorem scopes_bind {α β : Type} {p : Pass α} {k : α → Step β} {P : List Scope → Prop} (hs : P s.scopes)
    (hk : ∀ a m, p s.message = .ok a m → P (final (k a { s with message := m })).scopes) :
    P (final ((Step.pass p >>= k) s)).scopes := by
  cases h : p s.message with
  | ok a m =>
    have hp : Step.pass p s = .ok a { s with message := m } := Step.pass_eq_ok_iff.mpr ⟨h, rfl⟩
    rw [bind_of_ok hp]
    exact hk a m h
  | error e m =>
    have hp : Step.pass p s = .error e { s with message := m } := Step.pass_eq_error_iff.mpr ⟨h, rfl⟩
    rw [bind_of_error hp]
    exact hs

theorem mem_scopes_bind {α β : Type} {p : Pass α} {k : α → Step β} {x : Scope} {P : Prop}
    (hk : ∀ a m, p s.message = .ok a m → x ∈ (final (k a { s with message := m })).scopes → x ∈ s.scopes ∨ P)
    (hx : x ∈ (final ((Step.pass p >>= k) s)).scopes) : x ∈ s.scopes ∨ P :=
  scopes_bind (P := fun scopes => x ∈ scopes → x ∈ s.scopes ∨ P) .inl hk hx

theorem mem_scopes_perform {x : Scope} (hx : x ∈ (final (perform c s)).scopes) : x ∈ s.scopes ∨ s.Opens x c := by
  have push {y : Scope} {P : Prop} (hy : x = y → P) (h : x ∈ y :: s.scopes) : x ∈ s.scopes ∨ P :=
    (List.mem_cons.mp h).elim (fun h => .inr (hy h)) .inl
  cases c with
  | access a =>
    have hx : x ∈ (final (Step.pass (Pass.edit (a.perform s.block)) s)).scopes := hx
    rw [final_pass] at hx
    exact .inl hx
  | openComposite f =>
    refine mem_scopes_bind (fun inner m h hx => ?_) hx
    cases inner with
    | some inner => exact push (fun hy => ⟨inner, (Pass.look_eq_ok_iff.mp h).1, hy⟩) hx
    | none => exact .inl hx
  | enterComposite f =>
    refine mem_scopes_bind (fun inner m h hx => ?_) hx
    exact push (fun hy => ⟨inner, (Pass.look_eq_ok_iff.mp h).1, hy⟩) hx
  | move b =>
    obtain ⟨m, scopes⟩ := s
    match scopes with
    | .composite _ :: outer =>
      rcases List.mem_cons.mp hx with h | h
      · exact .inr h
      · exact .inl (List.mem_cons_of_mem _ h)
    | .group _ :: _ | .root :: _ | [] => exact .inl hx
  | enterRoot => exact push id hx
  | decodeGroup f | encodeGroup f count =>
    refine mem_scopes_bind (fun g m h hx => ?_) hx
    exact push (fun hy => ⟨g, m, h, hy⟩) hx
  | next =>
    obtain ⟨m, scopes⟩ := s
    match scopes with
    | .group g :: outer =>
      refine mem_scopes_bind (s := ⟨m, .group g :: outer⟩) (fun g' m' h hx => ?_) hx
      rcases List.mem_cons.mp hx with hy | hy
      · exact .inr ⟨g, g', m', List.mem_cons_self, h, hy⟩
      · exact .inl (List.mem_cons_of_mem _ hy)
    | .composite _ :: _ | .root :: _ | [] => exact .inl hx
  | leave =>
    obtain ⟨m, scopes⟩ := s
    match scopes with
    | _ :: outer => exact .inl (List.mem_cons_of_mem _ hx)
    | [] => exact .inl hx
  | readData f | copyData f | writeData f | seek | startEncode | startDecode | encodeHeader | decodeHeader | swapBuffer =>
    have hx : x ∈ (final ((_ <$> Step.pass _) s)).scopes := hx
    rw [final_map, final_pass] at hx
    exact .inl hx

end Session

end SimpleBinary
