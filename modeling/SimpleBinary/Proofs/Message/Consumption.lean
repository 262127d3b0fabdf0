import SimpleBinary.Proofs.Block.Lookup
import SimpleBinary.Proofs.Message.Decoding

/-!
# Bytes that a pass has consumed

A pass that reads looks at no byte that the cursor has not passed by then. So over another buffer
that has the same bytes up to there it is the same pass (`same`), and over a shorter one it is
refused by a bound (`refused`); it never makes do with less.
-/

namespace SimpleBinary

def Buffer.Agree (b b' : Buffer) (start stop : Nat) : Prop :=
  ∀ i, start ≤ i → i < stop → i < b'.size → b'[i]? = b[i]?

def AccessError.IsBounds : AccessError → Prop
  | .exhausted _ => False
  | _ => True

namespace Buffer
variable {b b' : Buffer} {start stop x y w : Nat}

theorem Agree.mono (h : b.Agree b' start stop) (hs : y ≤ stop) : b.Agree b' start y :=
  fun i hi hy => h i hi (Nat.lt_of_lt_of_le hy hs)

theorem Agree.window {raw : Bytes} (h : b.Agree b' start stop) (hw : b.window x w = .ok raw)
    (hx : start ≤ x) (hs : x + w ≤ stop) (hb : x + w ≤ b'.size) : b'.window x w = .ok raw := by
  obtain ⟨-, hl, hi⟩ := window_eq_ok_iff.mp hw
  refine window_eq_ok_iff.mpr ⟨hb, hl, fun i hiw => ?_⟩
  rw [hi i hiw, h (x + i) (by omega) (by omega) (by omega)]

theorem window_eq_error (h : b.size < x + w) : b.window x w = .error (.accessBeyondCapacity x w b.size) :=
  if_neg (Nat.not_le.mpr h)

theorem Agree.extract (h : b.Agree b' start stop) (hx : start ≤ x) (hs : x + w ≤ stop) (hb : x + w ≤ b.size)
    (hb' : x + w ≤ b'.size) : (b'.extract x (x + w)).toList = (b.extract x (x + w)).toList :=
  extract_of_window (h.window (window_eq_extract hb) hx hs hb')

end Buffer

theorem UnsignedField.read_of_agree {f : UnsignedField} {b b' : Buffer} {start stop base n : Nat}
    (h : b.Agree b' start stop) (hr : f.read base b = .ok n) (hx : start ≤ base)
    (hs : base + f.stop ≤ stop) (hb : base + f.stop ≤ b'.size) : f.read base b' = .ok n := by
  unfold read at hr ⊢
  unfold UnsignedField.stop at hs hb
  cases hw : b.window (base + f.offset) f.width.bytes with
  | error e => rw [hw] at hr; cases hr
  | ok raw =>
    rw [hw] at hr
    rw [h.window hw (by omega) (by omega) (by omega)]
    exact hr

def Pass.FallsShort {α : Type} (p : Pass α) (m : Message) : Prop := ∃ e s, p m = .error e s ∧ e.IsBounds

namespace Pass.FallsShort
variable {α β : Type} {p : Pass α} {q : α → Pass β} {m m₁ : Message} {a : α}

theorem bind (h : p.FallsShort m) : (p >>= q).FallsShort m := by
  obtain ⟨e, s, he, hb⟩ := h
  exact ⟨e, s, bind_eq_error_iff.mpr (.inl he), hb⟩

theorem after (ha : p m = .ok a m₁) (h : (q a).FallsShort m₁) : (p >>= q).FallsShort m := by
  obtain ⟨e, s, he, hb⟩ := h
  exact ⟨e, s, bind_eq_error_iff.mpr (.inr ⟨a, m₁, ha, he⟩), hb⟩

theorem advance {n : Nat} (h : m.buffer.size < m.position + n) : (Message.advance n).FallsShort m :=
  ⟨_, m, Message.advance_eq_error h, trivial⟩

theorem window {w : Nat} (h : m.buffer.size < m.position + w) :
    (Pass.look fun m => m.buffer.window m.position w).FallsShort m := by
  refine ⟨.accessBeyondCapacity m.position w m.buffer.size, m, ?_, trivial⟩
  unfold Pass.look
  simp only [Buffer.window_eq_error h]

end Pass.FallsShort

def Message.onto (m : Message) (t : Template) (b : Buffer) : Message := { m with template := t, buffer := b }

/-- From `m` the pass goes to `m'` with answer `a`; it does the same over every buffer that has the same
bytes from `start` to the cursor of `m'`, and a buffer that ends before is too short for it. -/
structure Pass.Replays {α : Type} (start : Nat) (p : Pass α) (m : Message) (a : α) (m' : Message) : Prop where
  frame : m' = { m with position := m'.position }
  position_le : m.position ≤ m'.position
  same : ∀ ⦃t b⦄, m.buffer.Agree b start m'.position → m'.position ≤ b.size →
    p (m.onto t b) = .ok a (m'.onto t b)
  refused : ∀ ⦃t b⦄, m.buffer.Agree b start m'.position → m.position ≤ b.size → b.size < m'.position →
    p.FallsShort (m.onto t b)

namespace Pass.Replays
variable {α β : Type} {start : Nat} {p : Pass α} {q : α → Pass β} {m m₁ m₂ : Message} {a : α} {c : β}

theorem buffer_eq (h : p.Replays start m a m₁) : m₁.buffer = m.buffer := by rw [h.frame]

theorem position_le_capacity (h : p.Replays start m a m₁) (ha : p m = .ok a m₁) (hm : m.position ≤ m.capacity) :
    m₁.position ≤ m₁.capacity := by
  rcases Nat.lt_or_ge m.capacity m₁.position with hlt | hle
  · have hshort : p.FallsShort m := h.refused (t := m.template) (fun _ _ _ _ => rfl) hm hlt
    obtain ⟨e, s, he, -⟩ := hshort
    rw [ha] at he
    cases he
  · unfold Message.capacity
    rw [h.buffer_eq]
    exact hle

theorem bind (hp : p.Replays start m a m₁) (hq : (q a).Replays start m₁ c m₂) :
    (p >>= q).Replays start m c m₂ where
  frame := by rw [hq.frame, hp.frame]
  position_le := Nat.le_trans hp.position_le hq.position_le
  same := by
    intro t b h hb
    have hq' := hq.same (t := t) (b := b) (by rw [hp.buffer_eq]; exact h) hb
    exact bind_eq_ok_iff.mpr ⟨a, _, hp.same (h.mono hq.position_le) (Nat.le_trans hq.position_le hb), hq'⟩
  refused := by
    intro t b h hm hb
    rcases Nat.lt_or_ge b.size m₁.position with h₁ | h₁
    · exact (hp.refused (h.mono hq.position_le) hm h₁).bind
    · have hq' := hq.refused (t := t) (b := b) (by rw [hp.buffer_eq]; exact h) h₁ hb
      exact hq'.after (hp.same (h.mono hq.position_le) h₁)

theorem stay (h : ∀ ⦃t b⦄, m.buffer.Agree b start m.position → m.position ≤ b.size →
    p (m.onto t b) = .ok a (m.onto t b)) : p.Replays start m a m where
  frame := rfl
  position_le := Nat.le_refl _
  same := h
  refused _ _ _ hm hb := absurd hm (Nat.not_le.mpr hb)

theorem pure : (Pure.pure a : Pass α).Replays start m a m := stay fun _ _ _ _ => rfl

end Pass.Replays

theorem Message.replays_advance {start n base : Nat} {m m' : Message} (h : advance n m = .ok base m') :
    (advance n).Replays start m base m' := by
  obtain ⟨hs, rfl, rfl⟩ := advance_eq_ok_iff.mp h
  refine ⟨rfl, Nat.le_add_right .., fun t b _ hb => ?_, fun t b _ _ hb => ?_⟩
  · exact advance_eq_ok_iff.mpr ⟨hb, rfl, rfl⟩
  · exact .advance hb

/-! ## Groups -/

namespace Group
variable {f : GroupFormat} {start : Nat} {m m' : Message} {g g' : Group}

theorem replays_decode (hd : f.dimensions.Bounded) (hm : start ≤ m.position)
    (h : Group.decode f m = .ok g m') : (Group.decode f).Replays start m g m' := by
  cases hv : m.actingVersion.includes f.since with
  | false =>
    have hn (t : Template) (b : Buffer) := decode_newer (m := m.onto t b) hv
    rw [decode_newer hv] at h
    cases h
    exact .stay fun t b _ _ => hn t b
  | true =>
    obtain ⟨hs, hb, hc, h0, he, rfl⟩ := (decode_eq_ok_iff hv).mp h
    have h1 := hd.blockLength_le
    have h2 := hd.numInGroup_le
    refine ⟨rfl, Nat.le_add_right .., fun t b ha hsize => ?_, fun t b _ _ hsize => ?_⟩
    · have hsize : m.position + f.dimensions.size ≤ b.size := hsize
      have hb' := UnsignedField.read_of_agree ha hb hm (Nat.add_le_add_left h1 _) (by omega)
      have hc' := UnsignedField.read_of_agree ha hc hm (Nat.add_le_add_left h2 _) (by omega)
      exact (decode_eq_ok_iff (m := m.onto t b) hv).mpr ⟨hsize, hb', hc', h0, he, rfl⟩
    · have hstart : (Message.advance f.dimensions.size).FallsShort (m.onto t b) := .advance hsize
      refine .after (get_eq_ok_iff.mpr ⟨rfl, rfl⟩) ?_
      show Pass.FallsShort (if m.actingVersion.includes f.since = true then _ else _) _
      rw [if_pos hv]
      exact hstart.bind

theorem replays_next (h : g.next m = .ok g' m') : g.next.Replays start m g' m' := by
  obtain ⟨hv, hs, rfl, rfl⟩ := next_eq_ok_iff.mp h
  have hnext : g.next = Message.advance g.blockLength >>= fun base =>
      pure { g with visited := g.visited + 1, elementOffset := base } := if_pos (decide_eq_true hv)
  rw [hnext]
  exact (Message.replays_advance (Message.advance_eq_ok_iff.mpr ⟨hs, rfl, rfl⟩)).bind .pure

end Group

/-! ## Data sections -/

namespace DataFormat
variable {f : DataFormat} {start : Nat} {m m' : Message}

theorem replays_take {r : Option (Nat × Nat)} (hm : start ≤ m.position) (h : f.take m = .ok r m') :
    f.take.Replays start m r m' := by
  cases hv : m.actingVersion.includes f.since with
  | false =>
    have hn (t : Template) (b : Buffer) := take_newer (m := m.onto t b) hv
    rw [take_newer hv] at h
    cases h
    exact .stay fun t b _ _ => hn t b
  | true =>
    obtain ⟨raw, hw, hs, rfl, rfl⟩ := (take_eq_ok_iff hv).mp h
    refine ⟨rfl, Nat.le_add_right .., fun t b ha hsize => ?_, fun t b ha _ hsize => ?_⟩
    · have hsize : m.position + (f.lengthSize + f.order.decode raw) ≤ b.size := hsize
      have hw' := ha.window hw hm (Nat.add_le_add_left (Nat.le_add_right ..) _) (by omega)
      exact (take_eq_ok_iff (m := m.onto t b) hv).mpr ⟨raw, hw', hsize, rfl, rfl⟩
    · have hsize : b.size < m.position + (f.lengthSize + f.order.decode raw) := hsize
      refine .after (get_eq_ok_iff.mpr ⟨rfl, rfl⟩) ?_
      show Pass.FallsShort (if m.actingVersion.includes f.since = true then _ else _) _
      rw [if_pos hv]
      -- the buffer ends in the length, which is then not read, or in the data
      rcases Nat.lt_or_ge b.size (m.position + f.lengthSize) with hl | hl
      · have hlength : (Pass.look fun m => m.buffer.window m.position f.lengthSize).FallsShort (m.onto t b) :=
          .window hl
        exact hlength.bind
      · have hw' := ha.window hw hm (Nat.add_le_add_left (Nat.le_add_right ..) _) hl
        have hdata : (Message.advance (f.order.decode raw)).FallsShort ((m.onto t b).past f.lengthSize) :=
          .advance (by rw [← Nat.add_assoc] at hsize; exact hsize)
        have hpast : Message.advance f.lengthSize (m.onto t b) = .ok m.position ((m.onto t b).past f.lengthSize) :=
          Message.advance_eq_ok_iff.mpr ⟨hl, rfl, rfl⟩
        exact .after (Pass.look_eq_ok_iff.mpr ⟨hw', rfl⟩) (.after hpast hdata.bind)

theorem replays_extract {α : Type} {x w : Nat} (g : Bytes → α) (hx : start ≤ x) (hw : x + w ≤ m.position)
    (hm : m.position ≤ m.capacity) :
    Pass.Replays start (get >>= fun m => pure (g (m.buffer.extract x (x + w)).toList)) m
      (g (m.buffer.extract x (x + w)).toList) m := by
  refine .stay fun t b ha hb => ?_
  have he := ha.extract hx hw (Nat.le_trans hw hm) (Nat.le_trans hw hb)
  rw [← he]
  rfl

theorem replays_read {bytes : Bytes} (hm : start ≤ m.position) (h : f.read m = .ok bytes m') :
    f.read.Replays start m bytes m' := by
  obtain ⟨r, m₁, ht, h⟩ := bind_eq_ok_iff.mp h
  refine (replays_take hm ht).bind ?_
  cases hv : m.actingVersion.includes f.since with
  | false =>
    rw [take_newer hv] at ht
    cases ht
    obtain ⟨rfl, rfl⟩ := pure_eq_ok_iff.mp h
    exact .pure
  | true =>
    obtain ⟨raw, hw, hs, rfl, rfl⟩ := (take_eq_ok_iff hv).mp ht
    cases h
    refine replays_extract id (Nat.le_trans hm (Nat.le_add_right ..)) ?_ hs
    exact Nat.le_of_eq (Nat.add_assoc ..)

theorem replays_copy {dst : Bytes} {answer : Nat × Bytes} (hm : start ≤ m.position)
    (h : f.copy dst m = .ok answer m') : (f.copy dst).Replays start m answer m' := by
  obtain ⟨r, m₁, ht, h⟩ := bind_eq_ok_iff.mp h
  refine (replays_take hm ht).bind ?_
  cases hv : m.actingVersion.includes f.since with
  | false =>
    rw [take_newer hv] at ht
    cases ht
    obtain ⟨rfl, rfl⟩ := pure_eq_ok_iff.mp h
    exact .pure
  | true =>
    obtain ⟨raw, hw, hs, rfl, rfl⟩ := (take_eq_ok_iff hv).mp ht
    cases h
    refine replays_extract (fun bytes => (min (f.order.decode raw) dst.length, bytes ++ dst.drop _))
      (Nat.le_trans hm (Nat.le_add_right ..)) ?_ hs
    have := Nat.min_le_left (f.order.decode raw) dst.length
    show _ ≤ m.position + (f.lengthSize + f.order.decode raw)
    omega

end DataFormat

/-! ## Blocks -/

def Lookup.Within (l : Lookup) (b : Block) (start stop : Nat) : Prop :=
  l.present b.version = true → start ≤ b.base + l.offset ∧ b.base + l.offset + l.width ≤ stop

namespace Pass.Replays
variable {start : Nat} {m m' : Message} {b : Block}

theorem look {α : Type} {read : Buffer → Except AccessError α} {a : α}
    (hread : ∀ ⦃b⦄, m.buffer.Agree b start m.position → m.position ≤ b.size → read b = .ok a) :
    (Pass.look fun m => read m.buffer).Replays start m a m :=
  .stay fun _ _ ha hb => look_eq_ok_iff.mpr ⟨hread ha hb, rfl⟩

theorem access {a : Access} {l : Lookup} {r : Reply} (hl : a.lookup? = some l)
    (hin : l.Within b start m.position) (h : Pass.edit (a.perform b) m = .ok r m') :
    (Pass.edit (a.perform b)).Replays start m r m' := by
  rw [a.perform_eq_look hl] at h ⊢
  obtain ⟨written, hlook, rfl⟩ := edit_eq_ok_iff.mp h
  obtain ⟨hr, rfl⟩ := Edit.look_eq_ok_iff.mp hlook
  refine .stay fun t b' ha hb => edit_eq_ok_iff.mpr ⟨b', Edit.look_eq_ok_iff.mpr ⟨?_, rfl⟩, rfl⟩
  show l.perform b b' = .ok r
  unfold Lookup.perform at hr ⊢
  cases hp : l.present b.version with
  | false =>
    rw [hp] at hr
    exact hr
  | true =>
    obtain ⟨hx, hs⟩ := hin hp
    rw [hp, if_pos rfl] at hr
    rw [if_pos rfl]
    cases hw : m.buffer.window (b.base + l.offset) l.width with
    | error e => rw [hw] at hr; cases hr
    | ok raw =>
      rw [hw] at hr
      rw [ha.window hw hx hs (Nat.le_trans hs hb)]
      exact hr

theorem composite {f : CompositeField} {inner : Option Block}
    (hin : b.version.includes f.since = true → start ≤ b.base + f.offset ∧ b.base + f.offset + f.size ≤ m.position)
    (h : b.composite? f m.buffer = .ok inner) :
    (Pass.look fun m => b.composite? f m.buffer).Replays start m inner m := by
  refine look fun b' ha hb => ?_
  unfold Block.composite? Block.enter at h ⊢
  cases hv : b.version.includes f.since with
  | false =>
    rw [hv] at h
    exact h
  | true =>
    obtain ⟨hx, hs⟩ := hin hv
    rw [hv, if_pos rfl] at h
    rw [if_pos rfl]
    cases hw : m.buffer.window (b.base + f.offset) f.size with
    | error e => rw [hw] at h; cases h
    | ok raw =>
      rw [hw] at h
      rw [ha.window hw hx hs (Nat.le_trans hs hb)]
      exact h

end Pass.Replays

end SimpleBinary
