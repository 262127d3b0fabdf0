import SimpleBinary.Proofs.Buffer.Image
import SimpleBinary.Proofs.Machine.Basic
import SimpleBinary.Proofs.Step

/-!
# Accesses on the machine

What it is for a program on the machine to do what a step says, faults excluded; and that accesses
do, where the sums of a block's base and what is in the block are words. Ranges are refused in the same
places, since a buffer is shorter than any sum that is no word.
-/

namespace SimpleBinary

/-- From `s` the program ends as `p` does, and `place` says where it has the state. -/
def Realizes {σ τ α : Type} (place : σ → τ) (q : Exec τ α) (p : EStateM AccessError σ α) (s : σ) : Prop :=
  q (place s) = match p s with
    | .ok a t => .ok a (place t)
    | .error e t => .error (.refused e) (place t)

theorem Exec.of_ok_bind {σ α β : Type} {a : α} {f : α → Exec σ β} {s : σ} : (Exec.of (.ok a) >>= f) s = f a s := rfl

theorem Exec.look_eq_ok {σ α : Type} {read : σ → Except Trap α} {s : σ} {a : α} (h : read s = .ok a) :
    Exec.look read s = .ok a s := by
  unfold look of
  rw [h]

namespace Realizes
variable {σ τ α β : Type} {place : σ → τ} {q : Exec τ α} {p : EStateM AccessError σ α} {s : σ}

theorem answer {a : α} {t : σ} (hq : q (place s) = .ok a (place t)) (hp : p s = .ok a t) : Realizes place q p s := by
  unfold Realizes
  rw [hp]
  exact hq

theorem refusal {e : AccessError} {t : σ} (hq : q (place s) = .error (.refused e) (place t)) (hp : p s = .error e t) :
    Realizes place q p s := by
  unfold Realizes
  rw [hp]
  exact hq

theorem bind {q' : α → Exec τ β} {p' : α → EStateM AccessError σ β} (h : Realizes place q p s)
    (h' : ∀ a t, p s = .ok a t → Realizes place (q' a) (p' a) t) : Realizes place (q >>= q') (p >>= p') s := by
  unfold Realizes at h ⊢
  cases hp : p s with
  | ok a t =>
    rw [hp] at h
    rw [bind_of_ok h, bind_of_ok hp]
    exact h' a t hp
  | error e t =>
    rw [hp] at h
    rw [bind_of_error h, bind_of_error hp]

theorem map (h : Realizes place q p s) (g : α → β) : Realizes place (g <$> q) (g <$> p) s := by
  unfold Realizes at h ⊢
  show EStateM.map g q (place s) = match EStateM.map g p s with | .ok a t => _ | .error e t => _
  unfold EStateM.map
  rw [h]
  cases p s <;> rfl

theorem of_ok {x : Except Trap β} {b : β} {q : β → Exec τ α} (hx : x = .ok b) (h : Realizes place (q b) p s) :
    Realizes place (Exec.of x >>= q) p s := by
  subst hx
  exact h

theorem of_look {read' : τ → Except Trap β} {b : β} {q : β → Exec τ α} (hb : read' (place s) = .ok b)
    (h : Realizes place (q b) p s) : Realizes place (Exec.look read' >>= q) p s := by
  unfold Realizes
  rw [bind_of_ok (Exec.look_eq_ok hb)]
  exact h

theorem of_get_left {f : τ → Exec τ α} (h : Realizes place (f (place s)) p s) : Realizes place (get >>= f) p s := h

theorem of_get {f : τ → Exec τ α} {g : σ → EStateM AccessError σ α} (h : Realizes place (f (place s)) (g s) s) :
    Realizes place (get >>= f) (get >>= g) s := h

theorem look {read' : τ → Except Trap α} {read : σ → Except AccessError α}
    (h : read' (place s) = (read s).mapError .refused) (hp : p s = match read s with
      | .ok a => .ok a s
      | .error e => .error e s) : Realizes place (Exec.look read') p s := by
  unfold Realizes Exec.look Exec.of
  rw [hp, h]
  cases read s <;> rfl

end Realizes

namespace Machine

/-! ## Slices -/

theorem mapError_bind {α β : Type} (x : Except AccessError α) (f : α → Except AccessError β) :
    (x >>= f).mapError Trap.refused = x.mapError .refused >>= fun a => (f a).mapError .refused := by
  cases x <;> rfl

theorem mapError_map {α β : Type} (f : α → β) (x : Except AccessError α) :
    (f <$> x).mapError Trap.refused = f <$> x.mapError .refused := by
  cases x <;> rfl

theorem add_eq_ok {a b : Nat} (h : a + b < UInt64.size) : add a b = .ok (a + b) := if_pos h

theorem slice_eq_ok {bytes : Bytes} {start stop : Nat} (h : start ≤ stop) (h' : stop ≤ bytes.length) :
    slice bytes start stop = .ok (bytes.extract start stop) := by
  unfold slice slice?
  rw [if_pos ⟨h, h'⟩]

theorem copy_eq_ok {dst src : Bytes} (h : dst.length = src.length) : copy dst src = .ok src := if_pos h

section
variable {buffer : Buffer} {offset width : Nat}

theorem window_eq (hs : buffer.size < UInt64.size) :
    window buffer offset width = (buffer.window offset width).mapError .refused := by
  unfold window Buffer.window checkedAdd? slice?
  by_cases h : offset + width ≤ buffer.size
  · have hw : offset + width < UInt64.size := Nat.lt_of_le_of_lt h hs
    simp [h, hw]
    rfl
  · by_cases hw : offset + width < UInt64.size
    · simp [h, hw]
      rfl
    · simp [h, hw]
      rfl

theorem load_of_le {src : Bytes} (h : width ≤ src.length) : load src width = .ok (src.take width) := by
  have hfront : src.extract 0 width = src.take width := by
    rw [List.extract_eq_take_drop, List.drop_zero, Nat.sub_zero]
  unfold load
  rw [slice_eq_ok (Nat.zero_le _) h, hfront]
  exact copy_eq_ok (by rw [List.length_replicate, List.length_take_of_le h])

theorem load_of_lt {src : Bytes} (h : src.length < width) : load src width = .error .fault := by
  unfold load slice slice?
  rw [if_neg fun hw => Nat.not_le.mpr h hw.2]
  rfl

theorem load_eq_ok {src : Bytes} (h : src.length = width) : load src width = .ok src := by
  rw [load_of_le (Nat.le_of_eq h.symm), List.take_of_length_le (Nat.le_of_eq h)]

theorem region_eq_ok (hs : buffer.size < UInt64.size) (h : offset + width ≤ buffer.size) :
    region offset width buffer = .ok ⟨offset, width⟩ buffer := by
  have hw : offset + width < UInt64.size := Nat.lt_of_le_of_lt h hs
  unfold region
  rw [get_bind]
  simp [checkedAdd?, hw, h, Region.ofRange, Exec.of]

theorem region_eq_error (h : buffer.size < offset + width) :
    region offset width buffer = .error (.refused (.accessBeyondCapacity offset width buffer.size)) buffer := by
  unfold region
  rw [get_bind]
  by_cases hw : offset + width < UInt64.size
  · simp [checkedAdd?, hw, Nat.not_le.mpr h]
    rfl
  · simp [checkedAdd?, hw]
    rfl

theorem save_of_le {dst : Region} {raw : Bytes} (h : raw.length ≤ dst.length) :
    save dst raw buffer = .ok () (buffer.patch dst.start raw) := by
  unfold save Region.front
  rw [if_pos h, Exec.of_ok_bind]
  exact if_pos rfl

theorem save_of_lt {dst : Region} {raw : Bytes} (h : dst.length < raw.length) :
    save dst raw buffer = .error .fault buffer := by
  unfold save Region.front
  rw [if_neg (Nat.not_le.mpr h)]
  rfl

theorem save_eq_ok {start : Nat} {raw : Bytes} (hw : raw.length = width) :
    save ⟨start, width⟩ raw buffer = .ok () (buffer.patch start raw) := save_of_le (Nat.le_of_eq hw)

theorem realizes_region {raw : Bytes} {k : Region → Exec Buffer Unit} (hs : buffer.size < UInt64.size)
    (hw : raw.length = width) (hk : k ⟨offset, width⟩ buffer = .ok () (buffer.patch offset raw)) :
    Realizes id (region offset width >>= k) (Edit.overwrite offset raw) buffer := by
  subst hw
  rcases Nat.lt_or_ge buffer.size (offset + raw.length) with h | h
  · exact .refusal (bind_of_error (region_eq_error h)) (Edit.overwrite_eq_error h)
  · exact .answer ((bind_of_ok (region_eq_ok hs h)).trans hk) (Edit.overwrite_eq_ok_iff.mpr ⟨h, rfl⟩)

theorem realizes_store {base : Nat} {raw : Bytes} (hs : buffer.size < UInt64.size) (hr : base + offset < UInt64.size) :
    Realizes id (store base offset raw) (Edit.overwrite (base + offset) raw) buffer :=
  .of_ok (add_eq_ok hr) (realizes_region hs rfl (save_eq_ok rfl))

end

/-! ## Blocks -/

section
variable {b : Block} {buffer : Buffer} {since : Version} {offset width : Nat} {c : Carrier}

theorem fetch_eq (hs : buffer.size < UInt64.size) (hr : b.base + offset < UInt64.size) :
    fetch b since offset width buffer = (b.fetch since offset width buffer).mapError .refused := by
  unfold fetch Block.fetch
  by_cases h : b.version.includes since = true
  · rw [if_pos h, if_pos h, add_eq_ok hr, mapError_map, ← window_eq hs]
    rfl
  · rw [if_neg h, if_neg h]
    rfl

theorem length_of_fetch {raw : Bytes} (h : b.fetch since offset width buffer = .ok (some raw)) : raw.length = width := by
  unfold Block.fetch at h
  split at h
  · cases hw : buffer.window (b.base + offset) width with
    | error e => rw [hw] at h; cases h
    | ok found =>
      rw [hw] at h
      cases h
      exact Buffer.length_of_window hw
  · cases h

theorem fetchNumber_eq (hs : buffer.size < UInt64.size) (hr : b.base + offset < UInt64.size) :
    fetchNumber b since offset width buffer = (b.fetch since offset width buffer).mapError .refused := by
  unfold fetchNumber
  rw [fetch_eq hs hr]
  cases h : b.fetch since offset width buffer with
  | error e => rfl
  | ok raw =>
    cases raw with
    | none => rfl
    | some raw =>
      show some <$> load raw width = _
      rw [load_eq_ok (length_of_fetch h)]
      rfl

theorem fetchNumber_bind_eq {α : Type} {k' : Option Bytes → Except Trap α} {k : Option Bytes → Except AccessError α}
    (hs : buffer.size < UInt64.size) (hr : b.base + offset < UInt64.size)
    (hk : ∀ raw, k' raw = (k raw).mapError .refused) :
    (fetchNumber b since offset width buffer >>= k') =
      (b.fetch since offset width buffer >>= k).mapError .refused := by
  rw [fetchNumber_eq hs hr, mapError_bind]
  exact bind_congr hk

theorem elementOffset_eq {f : ArrayField c} {index : Nat}
    (hr : index < f.length → f.offset + index * c.bytes < UInt64.size) :
    elementOffset f index = (f.elementOffset index).mapError .refused := by
  unfold elementOffset ArrayField.elementOffset
  by_cases h : index < f.length
  · have hm : index * c.bytes < UInt64.size := Nat.lt_of_le_of_lt (Nat.le_add_left ..) (hr h)
    have hmul : mul index c.bytes = .ok (index * c.bytes) := if_pos hm
    rw [if_pos h, if_pos h, hmul]
    exact add_eq_ok (hr h)
  · rw [if_neg h, if_neg h]
    rfl

theorem getNumber_eq {f : Field c} (hs : buffer.size < UInt64.size) (hr : b.base + f.offset < UInt64.size) :
    getNumber b f buffer = (b.get f buffer).mapError .refused := by
  unfold getNumber Block.get
  exact fetchNumber_bind_eq hs hr fun raw => by cases raw <;> rfl

theorem getElement_eq {f : ArrayField c} {index : Nat} (hs : buffer.size < UInt64.size)
    (hr : index < f.length → b.base + (f.offset + index * c.bytes) < UInt64.size) :
    getElement b f index buffer = (b.getElement f index buffer).mapError .refused := by
  unfold getElement Block.getElement
  rw [elementOffset_eq fun h => Nat.lt_of_le_of_lt (Nat.le_add_left ..) (hr h), mapError_bind]
  by_cases h : index < f.length
  · have ho : f.elementOffset index = .ok (f.offset + index * c.bytes) := if_pos h
    rw [ho]
    exact fetchNumber_bind_eq hs (hr h) fun raw => by cases raw <;> rfl
  · have ho : f.elementOffset index = .error (.indexOutOfRange index f.length) := if_neg h
    rw [ho]
    rfl

theorem getArray_eq {f : ByteArrayField} {dst : Bytes} (hs : buffer.size < UInt64.size)
    (hr : b.base + f.offset < UInt64.size) : getArray b f dst buffer = (b.getArray f dst buffer).mapError .refused := by
  unfold getArray Block.getArray
  by_cases h : dst.length < f.length
  · simp only [h, if_true]
    rfl
  · simp only [h, if_false]
    show fetch b f.since f.offset f.length buffer >>= _ = Except.mapError _ (_ >>= _)
    rw [fetch_eq hs hr, mapError_bind]
    cases hf : b.fetch f.since f.offset f.length buffer with
    | error e => rfl
    | ok raw =>
      cases raw with
      | none => rfl
      | some raw =>
        have hl : raw.length = f.length := length_of_fetch hf
        show slice dst 0 f.length >>= _ = _
        rw [slice_eq_ok (Nat.zero_le _) (Nat.not_lt.mp h)]
        show copy (dst.extract 0 f.length) raw >>= _ = _
        rw [copy_eq_ok (by simp [hl, Nat.not_lt.mp h])]
        rfl

theorem getVariant_eq {e : Enumeration} {f : EnumField e} (hs : buffer.size < UInt64.size)
    (hr : b.base + f.offset < UInt64.size) : getVariant b f buffer = (b.getVariant f buffer).mapError .refused := by
  unfold getVariant Block.getVariant
  exact fetchNumber_bind_eq hs hr fun raw => by cases raw <;> rfl

theorem getBits_eq {w : Width} {f : BitSetField w} (hs : buffer.size < UInt64.size)
    (hr : b.base + f.offset < UInt64.size) : getBits b f buffer = (b.getBits f buffer).mapError .refused := by
  unfold getBits Block.getBits
  exact fetchNumber_bind_eq hs hr fun raw => by cases raw <;> rfl

theorem getChoice_eq {w : Width} {f : BitSetField w} {choice : Choice} (hs : buffer.size < UInt64.size)
    (hr : b.base + f.offset < UInt64.size) :
    getChoice b f choice buffer = (b.getChoice f choice buffer).mapError .refused := by
  unfold getChoice Block.getChoice
  split
  · rw [getBits_eq hs hr, mapError_map]
  · rfl

theorem enter_eq {f : CompositeField} (hs : buffer.size < UInt64.size) (hr : b.base + f.offset < UInt64.size) :
    enter b f buffer = (b.enter f buffer).mapError .refused := by
  unfold enter Block.enter
  rw [add_eq_ok hr, mapError_map, ← window_eq hs]
  rfl

theorem composite?_eq {f : CompositeField} (hs : buffer.size < UInt64.size) (hr : b.base + f.offset < UInt64.size) :
    composite? b f buffer = (b.composite? f buffer).mapError .refused := by
  unfold composite? Block.composite?
  split
  · rw [enter_eq hs hr, mapError_map]
  · rfl

/-! ### Writing -/

theorem realizes_putElement {f : ArrayField c} {index : Nat} {v : c.Value} (hs : buffer.size < UInt64.size)
    (hr : index < f.length → b.base + (f.offset + index * c.bytes) < UInt64.size) :
    Realizes id (putElement b f index v) (b.putElement f index v) buffer := by
  unfold putElement Block.putElement
  rw [elementOffset_eq fun h => Nat.lt_of_le_of_lt (Nat.le_add_left ..) (hr h)]
  by_cases h : index < f.length
  · have ho : f.elementOffset index = .ok (f.offset + index * c.bytes) := if_pos h
    rw [ho]
    exact realizes_store hs (hr h)
  · have ho : f.elementOffset index = .error (.indexOutOfRange index f.length) := if_neg h
    rw [ho]
    exact .refusal rfl rfl

theorem realizes_putArray {f : ByteArrayField} {src : Bytes} (hs : buffer.size < UInt64.size)
    (hr : b.base + f.offset < UInt64.size) : Realizes id (putArray b f src) (b.putArray f src) buffer := by
  unfold putArray Block.putArray
  by_cases h : src.length < f.length
  · simp only [h, if_true]
    exact .refusal rfl rfl
  · simp only [h, if_false]
    have hl : (src.take f.length).length = f.length := List.length_take_of_le (Nat.not_lt.mp h)
    have hslice : slice src 0 f.length = .ok (src.take f.length) := by
      rw [slice_eq_ok (Nat.zero_le _) (Nat.not_lt.mp h)]
      rfl
    refine .of_ok (add_eq_ok hr) (realizes_region hs hl ?_)
    rw [hslice]
    exact if_pos hl.symm

theorem realizes_putChoice {w : Width} {f : BitSetField w} {choice : Choice} {value : Bool}
    (hs : buffer.size < UInt64.size) (hr : b.base + f.offset < UInt64.size) :
    Realizes id (putChoice b f choice value) (b.putChoice f choice value) buffer := by
  refine .of_ok (add_eq_ok hr) ?_
  rcases Nat.lt_or_ge buffer.size (b.base + f.offset + w.bytes) with h | h
  · have hlook : Edit.look (fun buffer => buffer.window (b.base + f.offset) w.bytes) buffer =
        .error (.accessBeyondCapacity (b.base + f.offset) w.bytes buffer.size) buffer := by
      have hwindow : buffer.window (b.base + f.offset) w.bytes =
          .error (.accessBeyondCapacity (b.base + f.offset) w.bytes buffer.size) := if_neg (Nat.not_le.mpr h)
      unfold Edit.look
      simp only [hwindow]
    exact .refusal (bind_of_error (region_eq_error h)) (bind_of_error hlook)
  · obtain ⟨raw, hraw⟩ : ∃ raw, buffer.window (b.base + f.offset) w.bytes = .ok raw :=
      ⟨_, Buffer.window_eq_extract h⟩
    have hlook : Edit.look (fun buffer => buffer.window (b.base + f.offset) w.bytes) buffer = .ok raw buffer :=
      Edit.look_eq_ok_iff.mpr ⟨hraw, rfl⟩
    have hbytes : Region.bytes ⟨b.base + f.offset, w.bytes⟩ buffer = raw := Buffer.extract_of_window hraw
    have hload : Exec.look (fun buffer => load (Region.bytes ⟨b.base + f.offset, w.bytes⟩ buffer) w.bytes) buffer =
        .ok raw buffer := by
      refine Exec.look_eq_ok ?_
      rw [hbytes]
      exact load_eq_ok (Buffer.length_of_window hraw)
    have hl (v : (Carrier.unsigned w).Value) : ((Carrier.unsigned w).encode f.order v).length = w.bytes :=
      (Carrier.unsigned w).length_encode f.order v
    exact .answer ((bind_of_ok (region_eq_ok hs h)).trans ((bind_of_ok hload).trans (save_eq_ok (hl _))))
      ((bind_of_ok hlook).trans (Edit.overwrite_eq_ok_iff.mpr
        ⟨Nat.le_trans (Nat.le_of_eq (congrArg (b.base + f.offset + ·) (hl _))) h, rfl⟩))

end

end Machine

def Access.offset? : Access → Option Nat
  | .get f | .put f _ => some f.offset
  | @getElement c f index | @putElement c f index _ =>
    if index < f.length then some (f.offset + index * c.bytes) else none
  | .getArray f _ | .putArray f _ => some f.offset
  | .getVariant f | .putVariant f _ => some f.offset
  | .getBits f | .getChoice f _ | .putBits f _ | .putChoice f _ _ => some f.offset

namespace Machine

theorem realizes_look {α : Type} {read' : Buffer → Except Trap α} {read : Buffer → Except AccessError α} {buffer : Buffer}
    (h : read' buffer = (read buffer).mapError .refused) :
    Realizes id (Exec.look read') (Edit.look read) buffer := .look h rfl

theorem realizes_access {b : Block} {a : Access} {buffer : Buffer} (hs : buffer.size < UInt64.size)
    (hr : ∀ offset, a.offset? = some offset → b.base + offset < UInt64.size) :
    Realizes id (access b a) (a.perform b) buffer := by
  cases a with
  | get f => exact (realizes_look (getNumber_eq hs (hr f.offset rfl))).map _
  | getElement f index => exact (realizes_look (getElement_eq hs fun h => hr _ (if_pos h))).map _
  | getArray f dst => exact (realizes_look (getArray_eq hs (hr f.offset rfl))).map _
  | getVariant f => exact (realizes_look (getVariant_eq hs (hr f.offset rfl))).map _
  | getBits f => exact (realizes_look (getBits_eq hs (hr f.offset rfl))).map _
  | getChoice f choice => exact (realizes_look (getChoice_eq hs (hr f.offset rfl))).map _
  | put f v => exact (realizes_store hs (hr f.offset rfl)).map _
  | putElement f index v => exact (realizes_putElement hs fun h => hr _ (if_pos h)).map _
  | putArray f src => exact (realizes_putArray hs (hr f.offset rfl)).map _
  | putVariant f v => exact (realizes_store hs (hr f.offset rfl)).map _
  | putBits f raw => exact (realizes_store hs (hr f.offset rfl)).map _
  | putChoice f choice value => exact (realizes_putChoice hs (hr f.offset rfl)).map _

end Machine

end SimpleBinary
