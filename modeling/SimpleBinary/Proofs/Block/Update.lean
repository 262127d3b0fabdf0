import SimpleBinary.Proofs.Alike
import SimpleBinary.Proofs.Message.Consumption
import SimpleBinary.Proofs.Session.Progress

/-!
# Blocks written by descriptors

Whatever the access, writing a field is one update: the bytes at the field's place are replaced by as
many others, which depend on them at most. So a write leaves every other byte as it is
(`changes_perform`), and goes alike over any two buffers that have the same bytes in that place
(`alike_perform`).
-/

namespace SimpleBinary

namespace Buffer
variable {P : Nat → Prop} {x w : Nat} {b b' : Buffer}

structure SameOn (P : Nat → Prop) (b b' : Buffer) : Prop where
  size_eq : b'.size = b.size
  same : ∀ i, P i → b'[i]? = b[i]?

instance : Std.Refl (SameOn P) := ⟨fun _ => ⟨rfl, fun _ _ => rfl⟩⟩

instance : IsTrans Buffer (SameOn P) :=
  ⟨fun _ _ _ h h' => ⟨h'.size_eq.trans h.size_eq, fun i hi => (h'.same i hi).trans (h.same i hi)⟩⟩

theorem SameOn.mono {Q : Nat → Prop} (h : SameOn P b b') (hQ : ∀ i, Q i → P i) : SameOn Q b b' :=
  ⟨h.size_eq, fun i hi => h.same i (hQ i hi)⟩

theorem SameOn.symm (h : SameOn P b b') : SameOn P b' b := ⟨h.size_eq.symm, fun i hi => (h.same i hi).symm⟩

theorem SameOn.window (h : SameOn P b b') (hP : ∀ i, x ≤ i → i < x + w → P i) : b'.window x w = b.window x w := by
  rcases Nat.lt_or_ge b.size (x + w) with hb | hb
  · rw [window_eq_error hb, window_eq_error (h.size_eq ▸ hb), h.size_eq]
  · obtain ⟨-, hl, hi⟩ := window_eq_ok_iff.mp (window_eq_extract hb)
    rw [window_eq_extract hb]
    refine window_eq_ok_iff.mpr ⟨h.size_eq ▸ hb, hl, fun i hiw => ?_⟩
    rw [hi i hiw, h.same (x + i) (hP _ (by omega) (by omega))]

theorem SameOn.patch (h : SameOn P b b') (x : Nat) (bytes : Bytes) : SameOn P (b.patch x bytes) (b'.patch x bytes) := by
  refine ⟨by simp [h.size_eq], fun i hi => ?_⟩
  rw [getElem?_patch, getElem?_patch, h.size_eq, h.same i hi]

theorem sameOn_patch (b : Buffer) {bytes : Bytes} (hP : ∀ i, x ≤ i → i < x + bytes.length → ¬ P i) :
    SameOn P b (b.patch x bytes) := by
  refine ⟨size_patch .., fun i hi => ?_⟩
  rw [getElem?_patch, if_neg fun h => hP i h.1 h.2.1 hi]

theorem eq_of_sameOn (n : Nat) (hl : SameOn (· < n) b b') (hr : SameOn (n ≤ ·) b b') : b' = b := by
  apply Array.ext_getElem?
  intro i
  rcases Nat.lt_or_ge i n with h | h
  · exact hl.same i h
  · exact hr.same i h

end Buffer

structure Update where
  offset : Nat
  width : Nat
  rewrite : Bytes → Bytes
  length_rewrite : ∀ raw, raw.length = width → (rewrite raw).length = width

/-- The update of an access that writes, unless the access is refused without one. -/
def Access.update? : Access → Option Update
  | @put c f v => some ⟨f.offset, c.bytes, fun _ => c.encode f.order v, fun _ _ => c.length_encode f.order v⟩
  | @putElement c f index v =>
    if index < f.length then
      some ⟨f.offset + index * c.bytes, c.bytes, fun _ => c.encode f.order v, fun _ _ => c.length_encode f.order v⟩
    else none
  | putArray f src =>
    if h : src.length < f.length then none
    else some ⟨f.offset, f.length, fun _ => src.take f.length, fun _ _ => List.length_take_of_le (Nat.not_lt.mp h)⟩
  | @putVariant e f v =>
    some ⟨f.offset, e.carrier.bytes, fun _ => e.carrier.encode f.order (e.encode v),
      fun _ _ => e.carrier.length_encode f.order (e.encode v)⟩
  | @putBits w f raw =>
    some ⟨f.offset, w.bytes, fun _ => (Carrier.unsigned w).encode f.order raw,
      fun _ _ => (Carrier.unsigned w).length_encode f.order raw⟩
  | @putChoice w f choice value =>
    some ⟨f.offset, w.bytes,
      fun raw => (Carrier.unsigned w).encode f.order (choice.apply ((Carrier.unsigned w).decode f.order raw) value),
      fun raw _ => (Carrier.unsigned w).length_encode f.order
        (choice.apply ((Carrier.unsigned w).decode f.order raw) value)⟩
  | get .. | getElement .. | getArray .. | getVariant .. | getBits .. | getChoice .. => none

namespace Update

def rewriteAt (u : Update) (b : Block) : Edit Unit := do
  let raw ← Edit.look fun buffer => buffer.window (b.base + u.offset) u.width
  b.store u.offset (u.rewrite raw)

def perform (u : Update) (b : Block) : Edit Reply := (fun _ => .done) <$> u.rewriteAt b

variable {u : Update} {b : Block} {buffer : Buffer}

theorem rewriteAt_of_window {raw : Bytes} (h : buffer.window (b.base + u.offset) u.width = .ok raw) :
    u.rewriteAt b buffer = .ok () (buffer.patch (b.base + u.offset) (u.rewrite raw)) := by
  obtain ⟨hs, hl, -⟩ := Buffer.window_eq_ok_iff.mp h
  refine bind_eq_ok_iff.mpr ⟨raw, buffer, Edit.look_eq_ok_iff.mpr ⟨h, rfl⟩, ?_⟩
  refine Edit.overwrite_eq_ok_iff.mpr ⟨?_, rfl⟩
  rw [u.length_rewrite raw hl]
  exact hs

theorem rewriteAt_of_lt (h : buffer.size < b.base + u.offset + u.width) :
    u.rewriteAt b buffer = .error (.accessBeyondCapacity (b.base + u.offset) u.width buffer.size) buffer := by
  refine bind_eq_error_iff.mpr (.inl ?_)
  unfold Edit.look
  simp only [Buffer.window_eq_error h]

theorem perform_of_window {raw : Bytes} (h : buffer.window (b.base + u.offset) u.width = .ok raw) :
    u.perform b buffer = .ok .done (buffer.patch (b.base + u.offset) (u.rewrite raw)) :=
  map_eq_ok_iff.mpr ⟨(), rewriteAt_of_window h, rfl⟩

theorem perform_of_lt (h : buffer.size < b.base + u.offset + u.width) :
    u.perform b buffer = .error (.accessBeyondCapacity (b.base + u.offset) u.width buffer.size) buffer :=
  map_eq_error_iff.mpr (rewriteAt_of_lt h)

theorem store_eq_rewriteAt {offset width : Nat} {bytes : Bytes} (hl : bytes.length = width) :
    b.store offset bytes = rewriteAt ⟨offset, width, fun _ => bytes, fun _ _ => hl⟩ b := by
  funext buffer
  subst hl
  rcases Nat.lt_or_ge buffer.size (b.base + offset + bytes.length) with h | h
  · rw [rewriteAt_of_lt h]
    exact Edit.overwrite_eq_error h
  · rw [rewriteAt_of_window (Buffer.window_eq_extract h)]
    exact Edit.overwrite_eq_ok_iff.mpr ⟨h, rfl⟩

theorem store_eq_perform {offset width : Nat} {bytes : Bytes} (hl : bytes.length = width) :
    (fun _ => .done) <$> b.store offset bytes = perform ⟨offset, width, fun _ => bytes, fun _ _ => hl⟩ b :=
  congrArg _ (store_eq_rewriteAt hl)

def Touches (u : Update) (b : Block) (i : Nat) : Prop := b.base + u.offset ≤ i ∧ i < b.base + u.offset + u.width

variable {P : Nat → Prop} {buffer' : Buffer}

theorem changes_perform (u : Update) (b : Block) : Keeps (Buffer.SameOn fun i => ¬ u.Touches b i) (u.perform b) := by
  intro buffer
  rcases Nat.lt_or_ge buffer.size (b.base + u.offset + u.width) with hs | hs
  · rw [perform_of_lt hs]
    exact refl_of _ buffer
  · have hw := Buffer.window_eq_extract hs
    rw [perform_of_window hw]
    refine Buffer.sameOn_patch buffer fun i hi hl h => h ⟨hi, ?_⟩
    rw [u.length_rewrite _ (Buffer.length_of_window hw)] at hl
    exact hl

theorem alike_perform (hP : ∀ i, u.Touches b i → P i) (h : buffer.SameOn P buffer') :
    Alike (Buffer.SameOn P) (u.perform b) buffer buffer' := by
  rcases Nat.lt_or_ge buffer.size (b.base + u.offset + u.width) with hs | hs
  · refine .error (perform_of_lt hs) ?_ h
    rw [perform_of_lt (h.size_eq ▸ hs), h.size_eq]
  · have hw := Buffer.window_eq_extract hs
    have hw' := (h.window fun i hi hl => hP i ⟨hi, hl⟩).trans hw
    exact .ok (perform_of_window hw) (perform_of_window hw') (h.patch _ _)

end Update

theorem Access.perform_eq_update {b : Block} {a : Access} {u : Update} (hu : a.update? = some u) :
    a.perform b = u.perform b := by
  cases a with
  | @put c f v =>
    cases hu
    exact Update.store_eq_perform (c.length_encode f.order v)
  | @putElement c f index v =>
    simp only [update?] at hu
    split at hu
    · next hi =>
      cases hu
      have he : f.elementOffset index = .ok (f.offset + index * c.bytes) := if_pos hi
      refine Eq.trans ?_ (Update.store_eq_perform (c.length_encode f.order v))
      show (fun _ => Reply.done) <$> b.putElement f index v = _
      unfold Block.putElement
      rw [he]
      rfl
    · cases hu
  | putArray f src =>
    simp only [update?] at hu
    split at hu
    · cases hu
    · next hi =>
      cases hu
      refine Eq.trans ?_ (Update.store_eq_perform (List.length_take_of_le (Nat.not_lt.mp hi)))
      show (fun _ => Reply.done) <$> b.putArray f src = _
      unfold Block.putArray
      rw [if_neg hi]
  | @putVariant e f v =>
    cases hu
    exact Update.store_eq_perform (e.carrier.length_encode f.order (e.encode v))
  | @putBits w f raw =>
    cases hu
    exact Update.store_eq_perform ((Carrier.unsigned w).length_encode f.order raw)
  | putChoice f choice value =>
    cases hu
    rfl
  | get | getElement | getArray | getVariant | getBits | getChoice => cases hu

theorem Access.perform_refused {a : Access} (hl : a.lookup? = none) (hu : a.update? = none) :
    ∃ e, ∀ (b : Block) (buffer : Buffer), a.perform b buffer = .error e buffer := by
  cases a with
  | getElement f index =>
    simp only [lookup?] at hl
    split at hl
    · cases hl
    · next hi =>
      have he : f.elementOffset index = .error (.indexOutOfRange index f.length) := if_neg hi
      refine ⟨.indexOutOfRange index f.length, fun b buffer => map_eq_error_iff.mpr ?_⟩
      unfold Edit.look Block.getElement
      rw [he]
      rfl
  | getArray f dst =>
    simp only [lookup?] at hl
    split at hl
    · next hd =>
      refine ⟨.copyOutOfRange f.length dst.length, fun b buffer => map_eq_error_iff.mpr ?_⟩
      unfold Edit.look Block.getArray
      simp only [hd, if_true]
      rfl
    · cases hl
  | putElement f index v =>
    simp only [update?] at hu
    split at hu
    · cases hu
    · next hi =>
      have he : f.elementOffset index = .error (.indexOutOfRange index f.length) := if_neg hi
      refine ⟨.indexOutOfRange index f.length, fun b buffer => map_eq_error_iff.mpr ?_⟩
      unfold Block.putElement
      rw [he]
      rfl
  | putArray f src =>
    simp only [update?] at hu
    split at hu
    · next hs =>
      refine ⟨.copyOutOfRange f.length src.length, fun b buffer => map_eq_error_iff.mpr ?_⟩
      unfold Block.putArray
      rw [if_pos hs]
      rfl
    · cases hu
  | get | getVariant | getBits | getChoice => cases hl
  | put | putVariant | putBits | putChoice => cases hu

namespace Access
variable {a : Access} {b : Block} {P : Nat → Prop} {buffer buffer' : Buffer}

def Touches (a : Access) (b : Block) (i : Nat) : Prop := ∃ u, a.update? = some u ∧ u.Touches b i

theorem changes_perform (a : Access) (b : Block) : Keeps (Buffer.SameOn fun i => ¬ a.Touches b i) (a.perform b) := by
  cases hu : a.update? with
  | some u =>
    rw [perform_eq_update hu]
    exact (u.changes_perform b).mono fun _ _ h => h.mono fun i hi ht => hi ⟨u, hu, ht⟩
  | none =>
    cases hl : a.lookup? with
    | some l =>
      rw [perform_eq_look hl]
      exact .look Edit.silent_look Edit.atomic_look
    | none =>
      obtain ⟨e, he⟩ := perform_refused hl hu
      intro buffer
      rw [he]
      exact refl_of _ buffer

theorem alike_perform (hl : a.lookup? = none) (hP : ∀ i, a.Touches b i → P i) (h : buffer.SameOn P buffer') :
    Alike (Buffer.SameOn P) (a.perform b) buffer buffer' := by
  cases hu : a.update? with
  | some u =>
    rw [perform_eq_update hu]
    exact Update.alike_perform (fun i hi => hP i ⟨u, hu, hi⟩) h
  | none =>
    obtain ⟨e, he⟩ := perform_refused hl hu
    exact .error (he b buffer) (he b buffer') h

end Access

/-! ## Writes through composites -/

namespace Block

def innermost (b : Block) : List CompositeField → Block
  | [] => b
  | f :: path => innermost ⟨b.base + f.offset, b.version⟩ path

theorem reach_eq {buffer buffer' : Buffer} (hs : buffer'.size = buffer.size) (path : List CompositeField) (b : Block) :
    b.reach path buffer' = b.reach path buffer ∧ ∀ c, b.reach path buffer = .ok c → c = b.innermost path := by
  induction path generalizing b with
  | nil =>
    refine ⟨rfl, fun c h => ?_⟩
    cases h
    rfl
  | cons f path ih =>
    unfold reach
    rcases Nat.lt_or_ge buffer.size (b.base + f.offset + f.size) with h | h
    · unfold enter
      rw [Buffer.window_eq_error h, Buffer.window_eq_error (hs ▸ h), hs]
      refine ⟨rfl, fun c h => ?_⟩
      cases h
    · rw [enter_eq_ok h, enter_eq_ok (hs ▸ h)]
      exact ih _

end Block

namespace Put
variable {p : Put} {b : Block} {P : Nat → Prop} {buffer buffer' : Buffer}

def Touches (p : Put) (b : Block) (i : Nat) : Prop := p.access.Touches (b.innermost p.path) i

theorem changes_perform (p : Put) (b : Block) : Keeps (Buffer.SameOn fun i => ¬ p.Touches b i) (p.perform b) := by
  intro buffer
  cases hr : b.reach p.path buffer with
  | ok c =>
    have hl := Edit.look_eq_ok_iff.mpr ⟨hr, rfl⟩
    have hp : p.perform b buffer = p.access.perform c buffer := bind_of_ok hl
    rw [hp, (Block.reach_eq rfl p.path b).2 c hr]
    exact p.access.changes_perform _ buffer
  | error e =>
    have hl : Edit.look (b.reach p.path) buffer = .error e buffer := by simp [Edit.look, hr]
    have hp : p.perform b buffer = .error e buffer := bind_of_error hl
    rw [hp]
    exact refl_of _ buffer

theorem alike_perform (hl : p.access.lookup? = none) (hP : ∀ i, p.Touches b i → P i) (h : buffer.SameOn P buffer') :
    Alike (Buffer.SameOn P) (p.perform b) buffer buffer' := by
  obtain ⟨heq, hc⟩ := Block.reach_eq h.size_eq p.path b
  have hlook : Alike (Buffer.SameOn P) (Edit.look (b.reach p.path)) buffer buffer' := by
    cases hr : b.reach p.path buffer with
    | ok c => exact .ok (a := c) (by simp [Edit.look, hr]) (by simp [Edit.look, heq, hr]) h
    | error e => exact .error (e := e) (by simp [Edit.look, hr]) (by simp [Edit.look, heq, hr]) h
  refine hlook.bind (fun c t t' hl' ht => ?_) fun _ _ ht => ht
  obtain ⟨hr, rfl⟩ := Edit.look_eq_ok_iff.mp hl'
  rw [hc c hr]
  exact Access.alike_perform hl hP ht

end Put

end SimpleBinary
