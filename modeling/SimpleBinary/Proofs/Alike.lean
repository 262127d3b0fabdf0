import SimpleBinary.Proofs.Step

/-!
# Two runs of one step

A step goes alike from two states if it succeeds from both with the same answer or fails from both with
the same error, and leaves states that are related. Where its first part goes alike and the rest does
after that, the whole does.
-/

namespace SimpleBinary

section
variable {ε σ α β : Type} {R R' : σ → σ → Prop} {p : EStateM ε σ α} {f : α → EStateM ε σ β} {s s' : σ}

inductive Alike (R : σ → σ → Prop) (p : EStateM ε σ α) (s s' : σ) : Prop
  | ok {a : α} {t t' : σ} (left : p s = .ok a t) (right : p s' = .ok a t') (related : R t t')
  | error {e : ε} {t t' : σ} (left : p s = .error e t) (right : p s' = .error e t') (related : R t t')

namespace Alike

theorem pure {a : α} (h : R s s') : Alike R (Pure.pure a : EStateM ε σ α) s s' := .ok rfl rfl h

theorem throw {e : ε} (h : R s s') : Alike R (MonadExcept.throw e : EStateM ε σ α) s s' := .error rfl rfl h

theorem of_eq {q : EStateM ε σ α} (h : Alike R p s s') (hq : q s = p s) (hq' : q s' = p s') : Alike R q s s' := by
  cases h with
  | ok left right related => exact .ok (hq.trans left) (hq'.trans right) related
  | error left right related => exact .error (hq.trans left) (hq'.trans right) related

theorem get {k : σ → EStateM ε σ α} (hk : k s' = k s) (h : Alike R (k s) s s') :
    Alike R (MonadState.get >>= k) s s' :=
  h.of_eq rfl (congrArg (fun q => q s') hk)

theorem bind (h : Alike R p s s')
    (hf : ∀ a t t', p s = .ok a t → R t t' → Alike R' (f a) t t') (hR : ∀ t t', R t t' → R' t t') :
    Alike R' (p >>= f) s s' := by
  cases h with
  | @ok a t t' left right related =>
    cases hf a t t' left related with
    | ok hl hr hb =>
      exact .ok (bind_eq_ok_iff.mpr ⟨_, _, left, hl⟩) (bind_eq_ok_iff.mpr ⟨_, _, right, hr⟩) hb
    | error hl hr hb =>
      exact .error (bind_eq_error_iff.mpr (.inr ⟨_, _, left, hl⟩))
        (bind_eq_error_iff.mpr (.inr ⟨_, _, right, hr⟩)) hb
  | error left right related =>
    exact .error (bind_eq_error_iff.mpr (.inl left)) (bind_eq_error_iff.mpr (.inl right)) (hR _ _ related)

theorem map (h : Alike R p s s') (g : α → β) : Alike R (g <$> p) s s' := by
  cases h with
  | ok left right related =>
    exact .ok (map_eq_ok_iff.mpr ⟨_, left, rfl⟩) (map_eq_ok_iff.mpr ⟨_, right, rfl⟩) related
  | error left right related => exact .error (map_eq_error_iff.mpr left) (map_eq_error_iff.mpr right) related

end Alike

end

/-! ## Through layers -/

section
variable {α : Type}

theorem Pass.alike_edit {Q : Buffer → Buffer → Prop} {R : Message → Message → Prop} {step : Edit α} {m m' : Message}
    (h : Alike Q step m.buffer m'.buffer)
    (hR : ∀ b b', Q b b' → R { m with buffer := b } { m' with buffer := b' }) : Alike R (Pass.edit step) m m' := by
  cases h with
  | @ok a b b' left right related =>
    exact .ok (a := a) (by simp [edit, left]) (by simp [edit, right]) (hR b b' related)
  | @error e b b' left right related =>
    exact .error (e := e) (by simp [edit, left]) (by simp [edit, right]) (hR b b' related)

theorem Pass.alike_editSame {R : Message → Message → Prop} {m m' : Message} (step : Edit α)
    (hb : m'.buffer = m.buffer) (hR : ∀ b, R { m with buffer := b } { m' with buffer := b }) :
    Alike R (Pass.edit step) m m' := by
  refine alike_edit (Q := Eq) ?_ fun b _ h => h ▸ hR b
  rw [hb]
  cases h : step m.buffer with
  | ok a b => exact .ok h h rfl
  | error e b => exact .error h h rfl

theorem Pass.alike_lookSame {R : Message → Message → Prop} {m m' : Message} (read : Buffer → Except AccessError α)
    (hb : m'.buffer = m.buffer) (h : R m m') : Alike R (Pass.look fun m => read m.buffer) m m' := by
  cases hr : read m.buffer with
  | ok a => exact .ok (a := a) (by simp [look, hr]) (by simp [look, hb, hr]) h
  | error e => exact .error (e := e) (by simp [look, hr]) (by simp [look, hb, hr]) h

theorem Pass.alike_check {R : Message → Message → Prop} {m m' : Message} (x : Except AccessError α) (h : R m m') :
    Alike R (Pass.look fun _ => x) m m' := by
  cases x with
  | ok a => exact .ok rfl rfl h
  | error e => exact .error rfl rfl h

theorem Session.Step.alike_pass {Q : Message → Message → Prop} {R : Session → Session → Prop} {p : Pass α}
    {s s' : Session} (h : Alike Q p s.message s'.message)
    (hR : ∀ m m', Q m m' → R { s with message := m } { s' with message := m' }) : Alike R (Step.pass p) s s' := by
  cases h with
  | @ok a m m' left right related =>
    exact .ok (a := a) (by simp [pass, left]) (by simp [pass, right]) (hR m m' related)
  | @error e m m' left right related =>
    exact .error (e := e) (by simp [pass, left]) (by simp [pass, right]) (hR m m' related)

end

end SimpleBinary
