import SimpleBinary.Message.Session
import SimpleBinary.Proofs.Step

/-!
# Blocks in larger buffers

An access that succeeds on a block alone, as a buffer of its own, does the same wherever the block
stands: it gives the same answer, and what it writes is written at the block's place
(`carries_perform`).
-/

namespace SimpleBinary

namespace Buffer

def embed (buffer : Buffer) (base : Nat) (inner : Buffer) : Buffer := buffer.patch base inner.toList

@[simp] theorem size_embed (buffer : Buffer) (base : Nat) (inner : Buffer) :
    (buffer.embed base inner).size = buffer.size := size_patch ..

section
variable {buffer inner : Buffer} {base : Nat} (hb : base + inner.size ≤ buffer.size)
include hb

theorem getElem?_embed (i : Nat) : (buffer.embed base inner)[i]? =
    if base ≤ i ∧ i < base + inner.size then inner[i - base]? else buffer[i]? := by
  rw [embed, getElem?_patch, Array.length_toList, Array.getElem?_toList]
  by_cases h : base ≤ i ∧ i < base + inner.size
  · rw [if_pos h, if_pos ⟨h.1, h.2, by omega⟩]
  · rw [if_neg h, if_neg (by omega)]

theorem window_embed {offset width : Nat} {bytes : Bytes} (h : inner.window offset width = .ok bytes) :
    (buffer.embed base inner).window (base + offset) width = .ok bytes := by
  obtain ⟨hs, hl, hi⟩ := window_eq_ok_iff.mp h
  refine window_eq_ok_iff.mpr ⟨by rw [size_embed]; omega, hl, fun i hw => ?_⟩
  rw [hi i hw, getElem?_embed hb, if_pos (by omega)]
  congr 1; omega

theorem patch_embed {offset : Nat} {bytes : Bytes} (h : offset + bytes.length ≤ inner.size) :
    (buffer.embed base inner).patch (base + offset) bytes = buffer.embed base (inner.patch offset bytes) := by
  apply Array.ext_getElem?
  intro i
  rw [getElem?_patch, getElem?_embed hb, getElem?_embed (by rwa [size_patch]), getElem?_patch,
    size_embed, size_patch]
  by_cases hi : base + offset ≤ i ∧ i < base + offset + bytes.length
  · rw [if_pos (by omega), if_pos (by omega), if_pos (by omega)]
    congr 1; omega
  · rw [if_neg (by omega)]
    by_cases hr : base ≤ i ∧ i < base + inner.size
    · rw [if_pos hr, if_pos hr, if_neg (by omega)]
    · rw [if_neg hr, if_neg hr]

end

theorem embed_extract {buffer : Buffer} {base width : Nat} (hb : base + width ≤ buffer.size) :
    buffer.embed base (buffer.extract base (base + width)) = buffer := by
  have hs : (buffer.extract base (base + width)).size = width := by rw [Array.size_extract]; omega
  apply Array.ext_getElem?
  intro i
  rw [getElem?_embed (by omega), hs]
  by_cases h : base ≤ i ∧ i < base + width
  · rw [if_pos h, Array.getElem?_extract, if_pos (by omega)]
    congr 1; omega
  · rw [if_neg h]

end Buffer

/-! ## Reads and steps -/

section
variable {α β : Type} {base : Nat}

/-- What `read` finds in a buffer, `read'` finds in a larger one in which that buffer stands at `base`. -/
def CarriesRead (base : Nat) (read read' : Buffer → Except AccessError α) : Prop :=
  ∀ ⦃buffer inner : Buffer⦄ ⦃a : α⦄, base + inner.size ≤ buffer.size →
    read inner = .ok a → read' (buffer.embed base inner) = .ok a

theorem carriesRead_window (offset width : Nat) :
    CarriesRead base (·.window offset width) (·.window (base + offset) width) :=
  fun _ _ _ hb h => Buffer.window_embed hb h

theorem CarriesRead.bind {read read' : Buffer → Except AccessError α} (h : CarriesRead base read read')
    (f : α → Except AccessError β) : CarriesRead base (fun b => read b >>= f) (fun b => read' b >>= f) := by
  intro buffer inner b hb hr
  cases ha : read inner with
  | error e => simp only [ha] at hr; cases hr
  | ok a =>
    simp only [ha] at hr
    simp only [h hb ha]
    exact hr

theorem CarriesRead.map {read read' : Buffer → Except AccessError α} (h : CarriesRead base read read')
    (f : α → β) : CarriesRead base (fun b => f <$> read b) (fun b => f <$> read' b) := by
  intro buffer inner b hb hr
  cases ha : read inner with
  | error e => simp only [ha] at hr; cases hr
  | ok a =>
    simp only [ha] at hr
    simp only [h hb ha]
    exact hr

theorem carriesRead_const (r : Except AccessError α) : CarriesRead base (fun _ => r) (fun _ => r) :=
  fun _ _ _ _ h => h

namespace Edit

/-- What `step` does to a buffer, `step'` does at `base` in a larger one. -/
def Carries (base : Nat) (step step' : Edit α) : Prop :=
  ∀ ⦃buffer inner written : Buffer⦄ ⦃a : α⦄, base + inner.size ≤ buffer.size →
    step inner = .ok a written →
      written.size = inner.size ∧ step' (buffer.embed base inner) = .ok a (buffer.embed base written)

theorem carries_look {read read' : Buffer → Except AccessError α} (h : CarriesRead base read read') :
    Carries base (Edit.look read) (Edit.look read') := by
  intro buffer inner written a hb hs
  obtain ⟨hr, rfl⟩ := look_eq_ok_iff.mp hs
  exact ⟨rfl, look_eq_ok_iff.mpr ⟨h hb hr, rfl⟩⟩

theorem carries_overwrite (offset : Nat) (bytes : Bytes) :
    Carries base (Edit.overwrite offset bytes) (Edit.overwrite (base + offset) bytes) := by
  intro buffer inner written _ hb hs
  obtain ⟨hl, rfl⟩ := overwrite_eq_ok_iff.mp hs
  refine ⟨Buffer.size_patch .., overwrite_eq_ok_iff.mpr ⟨?_, (Buffer.patch_embed hb hl).symm⟩⟩
  rw [Buffer.size_embed]; omega

theorem carries_pure (a : α) : Carries base (pure a) (pure a) := by
  intro buffer inner written _ _ hs
  obtain ⟨rfl, rfl⟩ := pure_eq_ok_iff.mp hs
  exact ⟨rfl, pure_eq_ok_iff.mpr ⟨rfl, rfl⟩⟩

theorem carries_throw (e : AccessError) : Carries (α := α) base (throw e) (throw e) :=
  fun _ _ _ _ _ hs => absurd hs throw_ne_ok

theorem Carries.bind {p p' : Edit α} {f f' : α → Edit β} (hp : Carries base p p')
    (hf : ∀ a, Carries base (f a) (f' a)) : Carries base (p >>= f) (p' >>= f') := by
  intro buffer inner written b hb hs
  obtain ⟨a, t, ha, hs⟩ := bind_eq_ok_iff.mp hs
  obtain ⟨hst, hp'⟩ := hp hb ha
  have hbt : base + t.size ≤ buffer.size := by rw [hst]; exact hb
  obtain ⟨hsw, hf'⟩ := hf a hbt hs
  exact ⟨hsw.trans hst, bind_eq_ok_iff.mpr ⟨a, _, hp', hf'⟩⟩

theorem Carries.map {p p' : Edit α} (hp : Carries base p p') (f : α → β) :
    Carries base (f <$> p) (f <$> p') := by
  intro buffer inner written b hb hs
  obtain ⟨a, ha, rfl⟩ := map_eq_ok_iff.mp hs
  obtain ⟨hst, hp'⟩ := hp hb ha
  exact ⟨hst, map_eq_ok_iff.mpr ⟨a, hp', rfl⟩⟩

end Edit

end

/-! ## Accesses -/

def Block.shift (b : Block) (base : Nat) : Block := ⟨base + b.base, b.version⟩

namespace Block
variable {base : Nat} (b : Block)

theorem carries_fetch (since : Version) (offset width : Nat) :
    CarriesRead base (b.fetch since offset width) ((b.shift base).fetch since offset width) := by
  unfold fetch
  show CarriesRead base (fun buffer => if b.version.includes since then _ else _)
    (fun buffer => if b.version.includes since then _ else _)
  by_cases h : b.version.includes since = true
  · simp only [h, if_true, shift, Nat.add_assoc]
    exact (carriesRead_window _ _).map _
  · simp only [h]
    exact carriesRead_const _

theorem carries_store (offset : Nat) (bytes : Bytes) :
    Edit.Carries base (b.store offset bytes) ((b.shift base).store offset bytes) := by
  unfold store
  rw [shift, Nat.add_assoc]
  exact Edit.carries_overwrite _ _

theorem carries_putChoice {w : Width} (f : BitSetField w) (choice : Choice) (value : Bool) :
    Edit.Carries base (b.putChoice f choice value) ((b.shift base).putChoice f choice value) := by
  unfold putChoice
  refine Edit.Carries.bind (Edit.carries_look ?_) fun raw => carries_store b _ _
  show CarriesRead base _ (fun buffer => buffer.window (base + b.base + f.offset) w.bytes)
  rw [Nat.add_assoc]
  exact carriesRead_window _ _

theorem carries_getBits {w : Width} (f : BitSetField w) :
    CarriesRead base (b.getBits f) ((b.shift base).getBits f) := (carries_fetch b _ _ _).bind _

theorem carries_getElement {c : Carrier} (f : ArrayField c) (index : Nat) :
    CarriesRead base (b.getElement f index) ((b.shift base).getElement f index) := by
  unfold getElement
  cases f.elementOffset index with
  | error e => exact carriesRead_const (.error e)
  | ok offset => exact (carries_fetch b _ _ _).bind _

theorem carries_getArray (f : ByteArrayField) (dst : Bytes) :
    CarriesRead base (b.getArray f dst) ((b.shift base).getArray f dst) := by
  unfold getArray
  by_cases h : dst.length < f.length
  · simp only [h, if_true]
    exact carriesRead_const (.error _)
  · simp only [h]
    exact (carries_fetch b _ _ _).bind _

theorem carries_getChoice {w : Width} (f : BitSetField w) (choice : Choice) :
    CarriesRead base (b.getChoice f choice) ((b.shift base).getChoice f choice) := by
  unfold getChoice
  show CarriesRead base (fun buffer => if b.version.includes choice.since then _ else _)
    (fun buffer => if b.version.includes choice.since then _ else _)
  by_cases h : b.version.includes choice.since = true
  · simp only [h, if_true]
    exact (carries_getBits b f).map _
  · simp only [h]
    exact carriesRead_const _

theorem carries_perform (a : Access) : Edit.Carries base (a.perform b) (a.perform (b.shift base)) := by
  cases a with
  | get f => exact (Edit.carries_look ((carries_fetch b _ _ _).bind _)).map _
  | getElement f index => exact (Edit.carries_look (carries_getElement b f index)).map _
  | getArray f dst => exact (Edit.carries_look (carries_getArray b f dst)).map _
  | getVariant f => exact (Edit.carries_look ((carries_fetch b _ _ _).bind _)).map _
  | getBits f => exact (Edit.carries_look (carries_getBits b f)).map _
  | getChoice f choice => exact (Edit.carries_look (carries_getChoice b f choice)).map _
  | put f v => exact (carries_store b _ _).map _
  | putElement f index v =>
    exact (Edit.Carries.bind (Edit.carries_look (carriesRead_const _)) fun _ => carries_store b _ _).map _
  | putArray f src =>
    refine Edit.Carries.map ?_ _
    unfold putArray
    by_cases h : src.length < f.length
    · simp only [h, if_true]
      exact (Edit.carries_throw _).bind fun _ => carries_store b _ _
    · simp only [h]
      exact carries_store b _ _
  | putVariant f v => exact (carries_store b _ _).map _
  | putBits f raw => exact (carries_store b _ _).map _
  | putChoice f choice value => exact (carries_putChoice b f choice value).map _

theorem enter_shift {buffer inner : Buffer} {f : CompositeField} {c : Block}
    (hb : base + inner.size ≤ buffer.size) (h : b.enter f inner = .ok c) :
    (b.shift base).enter f (buffer.embed base inner) = .ok (c.shift base) := by
  unfold enter at h ⊢
  cases hw : inner.window (b.base + f.offset) f.size with
  | error e => rw [hw] at h; cases h
  | ok bytes =>
    rw [hw] at h
    cases h
    have := Buffer.window_embed hb hw
    rw [← Nat.add_assoc] at this
    show (fun _ => _) <$> (buffer.embed base inner).window (base + b.base + f.offset) f.size = _
    rw [this]
    show Except.ok (Block.mk (base + b.base + f.offset) b.version) = _
    rw [Nat.add_assoc]
    rfl

end Block

end SimpleBinary
