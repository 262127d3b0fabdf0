import SimpleBinary.Proofs.Block.Update
import SimpleBinary.Proofs.Block.Variants
import SimpleBinary.Proofs.Machine.Access

/-!
# Fields as lenses

Whatever the descriptor, a field is some bytes at a place and what they stand for (`Slot`). Reading and
writing are refused over the same buffers, so the laws that hold between them are those of bytes and
values: what is written is read back (`Slot.reply_value_rewrite`), and what is read is written back
(`Slot.rewrite_of_reply`). Nothing of a write is seen outside its own place.

Of an enumeration all that is written is read back exactly if its numbers are told apart as its carrier
tells them (`Enumeration.distinct_iff`), and a floating-point carrier does not go by the bits. Of a set a
choice is read back exactly if the set has its bit.
-/

namespace SimpleBinary

section
variable {ε σ α : Type}

def answer : EStateM.Result ε σ α → Except ε α
  | .ok a _ => .ok a
  | .error e _ => .error e

theorem answer_of_alike {R : σ → σ → Prop} {p : EStateM ε σ α} {s s' : σ} (h : Alike R p s s') :
    answer (p s') = answer (p s) ∧ R (final (p s)) (final (p s')) := by
  cases h with
  | ok left right related =>
    rw [left, right]
    exact ⟨rfl, related⟩
  | error left right related =>
    rw [left, right]
    exact ⟨rfl, related⟩

end

namespace Buffer
variable {b : Buffer} {x w : Nat} {raw raw' : Bytes}

theorem patch_patch (h : raw'.length = raw.length) : (b.patch x raw).patch x raw' = b.patch x raw' := by
  apply Array.ext_getElem?
  intro i
  rw [getElem?_patch, getElem?_patch, getElem?_patch, size_patch, h]
  split <;> rfl

theorem patch_window (h : b.window x w = .ok raw) : b.patch x raw = b := by
  obtain ⟨-, hlength, hsame⟩ := window_eq_ok_iff.mp h
  apply Array.ext_getElem?
  intro i
  rw [getElem?_patch]
  split
  · next hi =>
    rw [hsame (i - x) (by omega), show x + (i - x) = i by omega]
  · rfl

end Buffer

namespace Enumeration
variable {e : Enumeration}

/-- No number stands for two variants, nor for a variant and null, and every variant's is a number. -/
structure Distinct (e : Enumeration) : Prop where
  numbers : ∀ v ∈ e.variants, e.carrier.same v.2 v.2 = true
  apart : e.variants.Pairwise fun v w => e.carrier.same v.2 w.2 = false
  null : ∀ v ∈ e.variants, e.carrier.same e.null v.2 = false

theorem distinct_iff : e.Distinct ↔ ∀ v, e.decode (e.encode v) = v := by
  constructor
  · intro h v
    cases v with
    | none => exact decode_eq_none.mpr h.null
    | some i =>
      refine decode_eq_some.mpr ⟨h.numbers _ (List.get_mem ..), fun j hj => ?_⟩
      rw [e.carrier.same_comm]
      exact List.pairwise_iff_getElem.mp h.apart j i j.isLt i.isLt hj
  · intro h
    refine ⟨fun v hv => ?_, List.pairwise_iff_getElem.mpr fun j i hj hi hlt => ?_, decode_eq_none.mp (h none)⟩
    · obtain ⟨i, rfl⟩ := List.mem_iff_get.mp hv
      exact (decode_eq_some.mp (h (some i))).1
    · rw [e.carrier.same_comm]
      exact (decode_eq_some.mp (h (some ⟨i, hi⟩))).2 ⟨j, hj⟩ hlt

/-- Integers are told apart by their values, as numbers of a floating-point carrier are not. -/
theorem distinct_iff_nodup (hc : e.carrier.isInteger = true) :
    e.Distinct ↔ (e.null :: e.variants.map Prod.snd).Nodup := by
  have happart : (e.variants.map Prod.snd).Nodup ↔ e.variants.Pairwise fun v w => e.carrier.same v.2 w.2 = false := by
    simp only [Carrier.same_eq_false_iff hc]
    exact List.pairwise_map
  have hnull : e.null ∉ e.variants.map Prod.snd ↔ ∀ v ∈ e.variants, e.carrier.same e.null v.2 = false := by
    simp only [Carrier.same_eq_false_iff hc, List.mem_map, not_exists, not_and, ne_comm (a := e.null), ne_eq]
  rw [List.nodup_cons, happart, hnull]
  exact ⟨fun h => ⟨h.null, h.apart⟩, fun h => ⟨fun v _ => (Carrier.same_iff hc).mpr rfl, h.2, h.1⟩⟩

end Enumeration

/-! ## Slots -/

/-- What is read and written by one access. A byte array is read into a slice of the caller's. -/
inductive Slot
  | field {c : Carrier} (f : Field c)
  | element {c : Carrier} (f : ArrayField c) (index : Nat)
  | array (f : ByteArrayField) (dst : Bytes)
  | variant {e : Enumeration} (f : EnumField e)
  | bits {w : Width} (f : BitSetField w)
  | choice {w : Width} (f : BitSetField w) (choice : Choice)

namespace Slot

def offset : Slot → Nat
  | field f => f.offset
  | @element c f index => f.offset + index * c.bytes
  | array f _ => f.offset
  | variant f => f.offset
  | bits f | choice f _ => f.offset

def width : Slot → Nat
  | @field c _ | @element c _ _ => c.bytes
  | array f _ => f.length
  | @variant e _ => e.carrier.bytes
  | @bits w _ | @choice w _ _ => w.bytes

/-- A choice is there when its set is there too. -/
def since : Slot → Version
  | field f => f.since
  | element f _ => f.since
  | array f _ => f.since
  | variant f => f.since
  | bits f => f.since
  | choice f c => max c.since f.since

def Value : Slot → Type
  | @field c _ | @element c _ _ => c.Value
  | array .. => Bytes
  | @variant e _ => e.Value
  | @bits w _ => BitVec w.bits
  | choice .. => Bool

def reading : Slot → Access
  | field f => .get f
  | element f index => .getElement f index
  | array f dst => .getArray f dst
  | variant f => .getVariant f
  | bits f => .getBits f
  | choice f c => .getChoice f c

def writing : (s : Slot) → s.Value → Access
  | field f, v => .put f v
  | element f index, v => .putElement f index v
  | array f _, v => .putArray f v
  | variant f, v => .putVariant f v
  | bits f, v => .putBits f v
  | choice f c, v => .putChoice f c v

def reply : (s : Slot) → s.Value → Reply
  | @field c _, v | @element c _ _, v => .value c v
  | array f dst, v => .copied f.length (v.take f.length ++ dst.drop f.length)
  | @variant e _, v => .variant e v
  | @bits w _, v => .value (.unsigned w) v
  | choice .., v => .flag v

/-- The bytes when the value has been written over `raw`, which matters to a choice only. -/
def rewrite : (s : Slot) → s.Value → Bytes → Bytes
  | @field c f, v, _ => c.encode f.order v
  | @element c f _, v, _ => c.encode f.order v
  | array f _, v, _ => v.take f.length
  | @variant e f, v, _ => e.carrier.encode f.order (e.encode v)
  | @bits w f, v, _ => (Carrier.unsigned w).encode f.order v
  | @choice w f c, v, raw => (Carrier.unsigned w).encode f.order (c.apply ((Carrier.unsigned w).decode f.order raw) v)

def value : (s : Slot) → Bytes → s.Value
  | @field c f, raw => c.decode f.order raw
  | @element c f _, raw => c.decode f.order raw
  | array _ _, raw => raw
  | @variant e f, raw => e.decode (e.carrier.decode f.order raw)
  | @bits w f, raw => (Carrier.unsigned w).decode f.order raw
  | @choice w f c, raw => c.test ((Carrier.unsigned w).decode f.order raw)

def Readable : Slot → Prop
  | element f index => index < f.length
  | array f dst => f.length ≤ dst.length
  | _ => True

def Writable : (s : Slot) → s.Value → Prop
  | element f index, _ => index < f.length
  | array f _, v => f.length ≤ v.length
  | _, _ => True

def Faithful : Slot → Prop
  | @variant e _ => e.Distinct
  | @choice w _ c => c.bit < w.bits
  | _ => True

/-- And all bytes are those of a value, which is not so where numbers are left that no variant has. -/
def Exact : Slot → Prop
  | variant _ => False
  | _ => True

def read (s : Slot) (b : Block) : Edit Reply := s.reading.perform b

def write (s : Slot) (b : Block) (v : s.Value) : Edit Reply := (s.writing v).perform b

def Covers (s : Slot) (b : Block) (i : Nat) : Prop := b.base + s.offset ≤ i ∧ i < b.base + s.offset + s.width

variable {s : Slot} {b : Block} {buffer written : Buffer} {v : s.Value} {raw : Bytes} {r : Reply}

/-! ### Bytes and values -/

theorem length_rewrite (h : s.Writable v) : (s.rewrite v raw).length = s.width := by
  cases s with
  | @field c f => exact c.length_encode f.order v
  | @element c f index => exact c.length_encode f.order v
  | array f dst => exact List.length_take_of_le h
  | @variant e f => exact e.carrier.length_encode f.order (e.encode v)
  | @bits w f => exact (Carrier.unsigned w).length_encode f.order v
  | @choice w f c => exact (Carrier.unsigned w).length_encode f.order _

theorem reply_value_rewrite (h : s.Faithful) : s.reply (s.value (s.rewrite v raw)) = s.reply v := by
  cases s with
  | @field c f => exact congrArg (Reply.value c) (c.decode_encode f.order v)
  | @element c f index => exact congrArg (Reply.value c) (c.decode_encode f.order v)
  | array f dst =>
    have htake : (List.take f.length v).take f.length = List.take f.length v :=
      List.take_of_length_le (List.length_take_le ..)
    exact congrArg (fun bytes => Reply.copied f.length (bytes ++ dst.drop f.length)) htake
  | @variant e f =>
    have hraw := e.carrier.decode_encode f.order (e.encode v)
    exact congrArg (Reply.variant e) ((congrArg e.decode hraw).trans (Enumeration.distinct_iff.mp h v))
  | @bits w f => exact congrArg (Reply.value (.unsigned w)) ((Carrier.unsigned w).decode_encode f.order v)
  | @choice w f c =>
    have hraw := (Carrier.unsigned w).decode_encode f.order (c.apply ((Carrier.unsigned w).decode f.order raw) v)
    exact congrArg Reply.flag ((congrArg c.test hraw).trans (Choice.test_apply h v))

theorem rewrite_of_reply (h : s.Exact) (hl : raw.length = s.width) (hr : s.reply (s.value raw) = s.reply v) :
    s.rewrite v raw = raw := by
  cases s with
  | @field c f =>
    obtain rfl : c.decode f.order raw = v := eq_of_heq (Reply.value.inj hr).2
    exact c.encode_decode f.order hl
  | @element c f index =>
    obtain rfl : c.decode f.order raw = v := eq_of_heq (Reply.value.inj hr).2
    exact c.encode_decode f.order hl
  | array f dst =>
    have hcopied : raw.take f.length ++ dst.drop f.length = List.take f.length v ++ dst.drop f.length :=
      (Reply.copied.inj hr).2
    exact (List.append_cancel_right hcopied).symm.trans (List.take_of_length_le (Nat.le_of_eq hl))
  | variant f => exact h.elim
  | @bits w f =>
    obtain rfl : (Carrier.unsigned w).decode f.order raw = v := eq_of_heq (Reply.value.inj hr).2
    exact (Carrier.unsigned w).encode_decode f.order hl
  | @choice w f c =>
    obtain rfl : c.test ((Carrier.unsigned w).decode f.order raw) = v := Reply.flag.inj hr
    exact (congrArg _ Choice.apply_test).trans ((Carrier.unsigned w).encode_decode f.order hl)

theorem rewrite_rewrite {v' : s.Value} : s.rewrite v' (s.rewrite v raw) = s.rewrite v' raw := by
  cases s with
  | @choice w f c =>
    have hraw := (Carrier.unsigned w).decode_encode f.order (c.apply ((Carrier.unsigned w).decode f.order raw) v)
    refine congrArg ((Carrier.unsigned w).encode f.order) ?_
    exact (congrArg (c.apply · v') hraw).trans (Choice.apply_apply v v')
  | field | element | array | variant | bits => rfl

/-! ### What is read and written -/

theorem lookup_reading (h : s.Readable) : ∃ l, s.reading.lookup? = some l ∧ l.present = (·.includes s.since) ∧
    l.offset = s.offset ∧ l.width = s.width ∧ ∀ raw, raw.length = s.width → l.found raw = s.reply (s.value raw) := by
  cases s with
  | field f | variant f | bits f => exact ⟨_, rfl, rfl, rfl, rfl, fun _ _ => rfl⟩
  | element f index => exact ⟨_, if_pos h, rfl, rfl, rfl, fun _ _ => rfl⟩
  | array f dst =>
    refine ⟨_, if_neg (Nat.not_lt.mpr h), rfl, rfl, rfl, fun raw hl => ?_⟩
    have htake : raw.take f.length = raw := List.take_of_length_le (Nat.le_of_eq hl)
    exact congrArg (fun bytes => Reply.copied f.length (bytes ++ dst.drop f.length)) htake.symm
  | choice f c => exact ⟨_, rfl, funext fun v => (Version.includes_max ..).symm, rfl, rfl, fun _ _ => rfl⟩

theorem lookup_reading_eq_none (h : ¬ s.Readable) : s.reading.lookup? = none := by
  cases s with
  | element f index => exact if_neg h
  | array f dst => exact if_pos (Nat.not_le.mp h)
  | field | variant | bits | choice => exact absurd trivial h

theorem update_reading : s.reading.update? = none := by cases s <;> rfl

theorem lookup_writing : (s.writing v).lookup? = none := by cases s <;> rfl

theorem update_writing (h : s.Writable v) : ∃ u, (s.writing v).update? = some u ∧
    u.offset = s.offset ∧ u.width = s.width ∧ ∀ raw, u.rewrite raw = s.rewrite v raw := by
  cases s with
  | field f | variant f | bits f | choice f => exact ⟨_, rfl, rfl, rfl, fun _ => rfl⟩
  | element f index => exact ⟨_, if_pos h, rfl, rfl, fun _ => rfl⟩
  | array f dst => exact ⟨_, dif_neg (Nat.not_lt.mpr h), rfl, rfl, fun _ => rfl⟩

theorem update_writing_eq_none (h : ¬ s.Writable v) : (s.writing v).update? = none := by
  cases s with
  | element f index => exact if_neg h
  | array f dst => exact dif_pos (Nat.not_le.mp h)
  | field | variant | bits | choice => exact absurd trivial h

theorem read_eq_ok_iff (hp : b.version.includes s.since = true) : s.read b buffer = .ok r written ↔
    s.Readable ∧ (∃ raw, buffer.window (b.base + s.offset) s.width = .ok raw ∧ r = s.reply (s.value raw)) ∧
      written = buffer := by
  by_cases hr : s.Readable
  · obtain ⟨l, hl, hpresent, hoffset, hwidth, hfound⟩ := lookup_reading hr
    have hread : l.perform b buffer = l.found <$> buffer.window (b.base + s.offset) s.width := by
      rw [← hoffset, ← hwidth]
      exact if_pos (hpresent ▸ hp)
    unfold read
    rw [Access.perform_eq_look hl, Edit.look_eq_ok_iff, hread]
    cases hw : buffer.window (b.base + s.offset) s.width with
    | error e =>
      have hrefused : l.found <$> Except.error (ε := AccessError) e = .error e := rfl
      simp [hrefused]
    | ok raw =>
      have hanswer : l.found <$> Except.ok (ε := AccessError) raw = .ok (s.reply (s.value raw)) :=
        congrArg Except.ok (hfound raw (Buffer.length_of_window hw))
      simp [hanswer, hr, eq_comm]
  · obtain ⟨e, he⟩ := Access.perform_refused (lookup_reading_eq_none hr) (update_reading (s := s))
    unfold read
    simp [he, hr]

theorem write_eq_ok_iff : s.write b v buffer = .ok r written ↔ s.Writable v ∧
    ∃ raw, buffer.window (b.base + s.offset) s.width = .ok raw ∧ r = .done ∧
      written = buffer.patch (b.base + s.offset) (s.rewrite v raw) := by
  by_cases hw : s.Writable v
  · obtain ⟨u, hu, hoffset, hwidth, hrewrite⟩ := update_writing hw
    unfold write
    rw [Access.perform_eq_update hu, ← hoffset, ← hwidth]
    cases hraw : buffer.window (b.base + u.offset) u.width with
    | ok raw =>
      rw [Update.perform_of_window hraw, hrewrite]
      simp [hw, eq_comm]
    | error e =>
      have hlt : buffer.size < b.base + u.offset + u.width := by
        refine Nat.not_le.mp fun hle => ?_
        rw [Buffer.window_eq_extract hle] at hraw
        cases hraw
      rw [Update.perform_of_lt hlt]
      simp
  · obtain ⟨e, he⟩ := Access.perform_refused (lookup_writing (v := v)) (update_writing_eq_none hw)
    unfold write
    simp [he, hw]

theorem covers_of_touches {i : Nat} (h : (s.writing v).Touches b i) : s.Covers b i := by
  obtain ⟨u, hu, hi⟩ := h
  by_cases hw : s.Writable v
  · obtain ⟨u', hu', hoffset, hwidth, -⟩ := update_writing hw
    obtain rfl := Option.some.inj (hu.symm.trans hu')
    unfold Covers
    rw [← hoffset, ← hwidth]
    exact hi
  · rw [update_writing_eq_none hw] at hu
    cases hu

/-! ### One slot -/

theorem succeeds_read_iff (hp : b.version.includes s.since = true) :
    Succeeds (s.read b) buffer ↔ s.Readable ∧ b.base + s.offset + s.width ≤ buffer.size := by
  unfold Succeeds
  simp only [read_eq_ok_iff hp]
  apply Iff.intro
  · intro h
    obtain ⟨_, _, hr, ⟨raw, hw, -⟩, -⟩ := h
    exact ⟨hr, (Buffer.window_eq_ok_iff.mp hw).1⟩
  · intro h
    exact ⟨_, _, h.1, ⟨_, Buffer.window_eq_extract h.2, rfl⟩, rfl⟩

theorem succeeds_write_iff :
    Succeeds (s.write b v) buffer ↔ s.Writable v ∧ b.base + s.offset + s.width ≤ buffer.size := by
  unfold Succeeds
  simp only [write_eq_ok_iff]
  apply Iff.intro
  · intro h
    obtain ⟨_, _, hw, _, hraw, -⟩ := h
    exact ⟨hw, (Buffer.window_eq_ok_iff.mp hraw).1⟩
  · intro h
    exact ⟨_, _, h.1, _, Buffer.window_eq_extract h.2, rfl, rfl⟩

theorem window_rewrite (hw : s.Writable v) (hraw : buffer.window (b.base + s.offset) s.width = .ok raw) :
    (buffer.patch (b.base + s.offset) (s.rewrite v raw)).window (b.base + s.offset) s.width = .ok (s.rewrite v raw) := by
  have hlength : (s.rewrite v raw).length = s.width := length_rewrite hw
  have hwritten : buffer.overwrite (b.base + s.offset) (s.rewrite v raw) = .ok _ :=
    Buffer.overwrite_eq_ok_iff.mpr ⟨hlength ▸ (Buffer.window_eq_ok_iff.mp hraw).1, rfl⟩
  exact hlength ▸ Buffer.window_overwrite hwritten

theorem read_rewrite (hp : b.version.includes s.since = true) (hr : s.Readable) (h : s.write b v buffer = .ok r written) :
    ∃ raw, buffer.window (b.base + s.offset) s.width = .ok raw ∧
      s.read b written = .ok (s.reply (s.value (s.rewrite v raw))) written := by
  obtain ⟨hw, raw, hraw, -, rfl⟩ := write_eq_ok_iff.mp h
  exact ⟨raw, hraw, (read_eq_ok_iff hp).mpr ⟨hr, ⟨_, window_rewrite hw hraw, rfl⟩, rfl⟩⟩

theorem read_written (hp : b.version.includes s.since = true) (hf : s.Faithful) (hr : s.Readable)
    (h : s.write b v buffer = .ok r written) : s.read b written = .ok (s.reply v) written := by
  obtain ⟨raw, -, hread⟩ := read_rewrite hp hr h
  rw [hread, reply_value_rewrite hf]

/-- If all that is written is read back, so it is in the smallest buffer that has the slot. -/
theorem exists_reply_eq (hp : b.version.includes s.since = true) (hr : s.Readable) (hw : s.Writable v)
    (h : ∀ v r buffer written, s.write b v buffer = .ok r written → s.read b written = .ok (s.reply v) written) :
    ∃ raw, s.reply (s.value (s.rewrite v raw)) = s.reply v := by
  have hsize : b.base + s.offset + s.width ≤ (Array.replicate (b.base + s.offset + s.width) (0 : UInt8)).size :=
    Nat.le_of_eq Array.size_replicate.symm
  obtain ⟨r, written, hwrite⟩ := succeeds_write_iff.mpr ⟨hw, hsize⟩
  obtain ⟨raw, -, hread⟩ := read_rewrite hp hr hwrite
  exact ⟨raw, (EStateM.Result.ok.inj (hread.symm.trans (h v r _ written hwrite))).1⟩

theorem faithful_of_read_written (hp : b.version.includes s.since = true)
    (h : ∀ v r buffer written, s.write b v buffer = .ok r written → s.read b written = .ok (s.reply v) written) :
    s.Faithful := by
  cases s with
  | @variant e f =>
    refine Enumeration.distinct_iff.mpr fun v => ?_
    obtain ⟨raw, hreply⟩ := exists_reply_eq (s := variant f) (v := v) hp trivial trivial h
    have hvalue : e.decode (e.carrier.decode f.order (e.carrier.encode f.order (e.encode v))) = v :=
      eq_of_heq (Reply.variant.inj hreply).2
    rwa [e.carrier.decode_encode] at hvalue
  | @choice w f c =>
    obtain ⟨raw, hreply⟩ := exists_reply_eq (s := choice f c) (v := true) hp trivial trivial h
    exact Choice.bit_lt_of_test (Reply.flag.inj hreply)
  | field | element | array | bits => trivial

theorem writable_of_length (hr : s.Readable) (h : (s.rewrite v raw).length = s.width) : s.Writable v := by
  cases s with
  | array f dst =>
    have hmin : min f.length (List.length v) = f.length := List.length_take.symm.trans h
    exact Nat.le_trans (Nat.le_of_eq hmin.symm) (Nat.min_le_right ..)
  | _ => exact hr

theorem write_read (hp : b.version.includes s.since = true) (he : s.Exact)
    (h : s.read b buffer = .ok (s.reply v) written) : s.write b v buffer = .ok .done buffer := by
  obtain ⟨hr, ⟨raw, hwindow, hreply⟩, -⟩ := (read_eq_ok_iff hp).mp h
  have hlength := Buffer.length_of_window hwindow
  have hrewrite : s.rewrite v raw = raw := rewrite_of_reply he hlength hreply.symm
  have hw : s.Writable v := writable_of_length hr ((congrArg List.length hrewrite).trans hlength)
  refine write_eq_ok_iff.mpr ⟨hw, raw, hwindow, rfl, ?_⟩
  rw [hrewrite, Buffer.patch_window hwindow]

theorem write_write {v' : s.Value} {r' : Reply} {t : Buffer} (h : s.write b v buffer = .ok r written) :
    s.write b v' written = .ok r' t ↔ s.write b v' buffer = .ok r' t := by
  obtain ⟨hw, raw, hraw, -, rfl⟩ := write_eq_ok_iff.mp h
  rw [write_eq_ok_iff, write_eq_ok_iff, window_rewrite hw hraw, hraw]
  simp only [Except.ok.injEq, exists_eq_left', rewrite_rewrite]
  refine and_congr_right fun hw' => ?_
  rw [Buffer.patch_patch ((length_rewrite hw').trans (length_rewrite hw).symm)]

/-! ### Slots apart from each other -/

variable {s' : Slot} {b' : Block} {v' : s'.Value} {buffer' : Buffer}

def Apart (s : Slot) (b : Block) (s' : Slot) (b' : Block) : Prop := ∀ i, s.Covers b i → ¬ s'.Covers b' i

theorem sameOn_write : buffer.SameOn (fun i => ¬ s.Covers b i) (final (s.write b v buffer)) :=
  ((s.writing v).changes_perform b buffer).mono fun _ hi ht => hi (covers_of_touches ht)

theorem alike_write (h : buffer.SameOn (s.Covers b) buffer') :
    Alike (Buffer.SameOn (s.Covers b)) (s.write b v) buffer buffer' :=
  Access.alike_perform lookup_writing (fun _ => covers_of_touches) h

theorem answer_look {α : Type} {read : Buffer → Except AccessError α} : answer (Edit.look read buffer) = read buffer := by
  unfold Edit.look
  cases read buffer <;> rfl

theorem answer_read (h : buffer.SameOn (s.Covers b) buffer') : answer (s.read b buffer') = answer (s.read b buffer) := by
  by_cases hr : s.Readable
  · obtain ⟨l, hl, -, hoffset, hwidth, -⟩ := lookup_reading hr
    have hwindow := h.window (x := b.base + s.offset) (w := s.width) fun i hle hlt => ⟨hle, hlt⟩
    unfold read
    rw [Access.perform_eq_look hl, answer_look, answer_look]
    unfold Lookup.perform
    rw [hoffset, hwidth, hwindow]
  · obtain ⟨e, he⟩ := Access.perform_refused (lookup_reading_eq_none hr) (update_reading (s := s))
    unfold read
    rw [he, he]
    rfl

theorem answer_write_write (h : s.Apart b s' b') :
    answer (s'.write b' v' (final (s.write b v buffer))) = answer (s'.write b' v' buffer) := by
  have hsame : buffer.SameOn (s'.Covers b') (final (s.write b v buffer)) :=
    sameOn_write.mono fun i hi hi' => h i hi' hi
  exact (answer_of_alike (alike_write hsame)).1

theorem answer_write_read (h : s.Apart b s' b') :
    answer (s'.read b' (final (s.write b v buffer))) = answer (s'.read b' buffer) :=
  answer_read (sameOn_write.mono fun i hi hi' => h i hi' hi)

theorem Apart.symm (h : s.Apart b s' b') : s'.Apart b' s b := fun i hi' hi => h i hi hi'

theorem write_comm (h : s.Apart b s' b') :
    final (s'.write b' v' (final (s.write b v buffer))) = final (s.write b v (final (s'.write b' v' buffer))) := by
  have hleft : buffer.SameOn (fun i => ¬ s.Covers b i) (final (s.write b v buffer)) := sameOn_write
  have hright : buffer.SameOn (fun i => ¬ s'.Covers b' i) (final (s'.write b' v' buffer)) := sameOn_write
  have hleft' := (answer_of_alike (alike_write (v := v) (hright.mono fun i hi hi' => h i hi hi'))).2
  have hright' := (answer_of_alike (alike_write (v := v') (hleft.mono fun i hi hi' => h i hi' hi))).2
  apply Array.ext_getElem?
  intro i
  -- each byte is that of the one write whose slot it is in, if it is in any
  by_cases hi' : s'.Covers b' i
  · rw [hright'.same i hi', sameOn_write.same i fun hi => h i hi hi']
  · rw [sameOn_write.same i hi']
    by_cases hi : s.Covers b i
    · rw [hleft'.same i hi]
    · rw [hleft.same i hi, sameOn_write.same i hi, hright.same i hi']

/-! ### The laws -/

theorem realizes_read_write (hs : buffer.size < UInt64.size) (hb : b.base + s.offset < UInt64.size) :
    Realizes id (Machine.access b s.reading) (s.read b) buffer ∧
      Realizes id (Machine.access b (s.writing v)) (s.write b v) buffer := by
  have hreading (offset : Nat) (ho : s.reading.offset? = some offset) : offset = s.offset := by
    cases s with
    | element f index => exact (Option.some.inj (Option.ite_none_right_eq_some.mp ho).2).symm
    | field | array | variant | bits | choice => exact (Option.some.inj ho).symm
  have hsame : (s.writing v).offset? = s.reading.offset? := by cases s <;> rfl
  refine ⟨Machine.realizes_access hs fun offset ho => ?_, Machine.realizes_access hs fun offset ho => ?_⟩
  · rw [hreading offset ho]
    exact hb
  · rw [hreading offset (hsame ▸ ho)]
    exact hb

structure Lens (s : Slot) (b : Block) : Prop where
  reads_iff : ∀ buffer, Succeeds (s.read b) buffer ↔ s.Readable ∧ b.base + s.offset + s.width ≤ buffer.size
  writes_iff : ∀ v buffer,
    Succeeds (s.write b v) buffer ↔ s.Writable v ∧ b.base + s.offset + s.width ≤ buffer.size
  reads_value : ∀ buffer r t, s.read b buffer = .ok r t → ∃ v, r = s.reply v
  read_written : s.Faithful → s.Readable → ∀ v r buffer written,
    s.write b v buffer = .ok r written → s.read b written = .ok (s.reply v) written
  faithful_of_read_written :
    (∀ v r buffer written, s.write b v buffer = .ok r written → s.read b written = .ok (s.reply v) written) → s.Faithful
  faithful_iff_nodup : ∀ (e : Enumeration) (f : EnumField e), s = variant f → e.carrier.isInteger = true →
    (s.Faithful ↔ (e.null :: e.variants.map Prod.snd).Nodup)
  write_read : s.Exact → ∀ v buffer t, s.read b buffer = .ok (s.reply v) t → s.write b v buffer = .ok .done buffer
  write_write : ∀ v v' r r' buffer written t,
    s.write b v buffer = .ok r written → (s.write b v' written = .ok r' t ↔ s.write b v' buffer = .ok r' t)
  /-- A write to another slot, of this block or another, and a write to this one. -/
  apart : ∀ (s' : Slot) (b' : Block), s.Apart b s' b' → ∀ v v' buffer,
    let written := final (s.write b v buffer)
    let written' := final (s'.write b' v' buffer)
    answer (s'.read b' written) = answer (s'.read b' buffer) ∧ answer (s.read b written') = answer (s.read b buffer) ∧
      answer (s'.write b' v' written) = answer (s'.write b' v' buffer) ∧
      answer (s.write b v written') = answer (s.write b v buffer) ∧
      final (s'.write b' v' written) = final (s.write b v written')
  machine : ∀ v buffer, buffer.size < UInt64.size → b.base + s.offset < UInt64.size →
    Realizes id (Machine.access b s.reading) (s.read b) buffer ∧
      Realizes id (Machine.access b (s.writing v)) (s.write b v) buffer

/-- A field of data that is not older than it is a lens on the buffer, whatever it holds and whichever block it is
in; and on a machine the ranges that are refused to a reader are those refused to a writer, up to the last word. -/
theorem present_slot_is_lens {s : Slot} {b : Block} (hp : b.version.includes s.since = true) :
    s.Lens b ∧ ∀ (buffer : Buffer) (offset width : Nat), buffer.size < UInt64.size →
      ((∃ raw, Machine.window buffer offset width = .ok raw) ↔ offset + width ≤ buffer.size) ∧
      (Succeeds (Machine.region offset width) buffer ↔ offset + width ≤ buffer.size) := by
  constructor
  · exact {
      reads_iff := fun buffer => succeeds_read_iff hp
      writes_iff := fun v buffer => succeeds_write_iff
      reads_value := fun buffer r t h => by
        obtain ⟨-, ⟨raw, -, hreply⟩, -⟩ := (read_eq_ok_iff hp).mp h
        exact ⟨_, hreply⟩
      read_written := fun hf hr v r buffer written h => read_written hp hf hr h
      faithful_of_read_written := faithful_of_read_written hp
      faithful_iff_nodup := fun e f hs hc => by
        subst hs
        exact Enumeration.distinct_iff_nodup hc
      write_read := fun he v buffer t h => write_read hp he h
      write_write := fun v v' r r' buffer written t h => write_write h
      apart := fun s' b' h v v' buffer => ⟨answer_write_read h, answer_write_read h.symm, answer_write_write h,
        answer_write_write h.symm, write_comm h⟩
      machine := fun v buffer hs hb => realizes_read_write hs hb }
  · intro buffer offset width hs
    by_cases hle : offset + width ≤ buffer.size
    · have hwindow : Machine.window buffer offset width = .ok _ :=
        (Machine.window_eq hs).trans (congrArg _ (Buffer.window_eq_extract hle))
      exact ⟨iff_of_true ⟨_, hwindow⟩ hle, iff_of_true ⟨_, _, Machine.region_eq_ok hs hle⟩ hle⟩
    · have hlt := Nat.not_le.mp hle
      have hwindow : Machine.window buffer offset width = .error _ :=
        (Machine.window_eq hs).trans (congrArg _ (Buffer.window_eq_error hlt))
      refine ⟨iff_of_false (fun h => ?_) hle, iff_of_false (fun h => ?_) hle⟩
      · obtain ⟨raw, hraw⟩ := h
        cases hwindow.symm.trans hraw
      · obtain ⟨r, t, hr⟩ := h
        cases (Machine.region_eq_error hlt).symm.trans hr

theorem present_slot_is_lens_ratio :
    let ratio : Field .float32 := { offset := 1, order := .big, since := 3 }
    let payload : Carrier.float32.Value := 0x7fa0beef
    Version.includes 4 3 = true ∧ ∃ written, written.toList = [0, 0, 0, 0x7f, 0xa0, 0xbe, 0xef, 0] ∧
      (field ratio).write ⟨2, 4⟩ payload (Array.replicate 8 0) = .ok .done written ∧
      (field ratio).read ⟨2, 4⟩ written = .ok (.value .float32 payload) written := by
  intro ratio payload
  have hp : Version.includes 4 3 = true := by decide
  have hwrite : (field ratio).write ⟨2, 4⟩ payload (Array.replicate 8 0) =
      .ok .done #[0, 0, 0, 0x7f, 0xa0, 0xbe, 0xef, 0] :=
    write_eq_ok_iff.mpr ⟨trivial, [0, 0, 0, 0], rfl, rfl, by decide⟩
  exact ⟨hp, _, rfl, hwrite, (present_slot_is_lens (s := field ratio) (b := ⟨2, 4⟩) hp).1.read_written trivial trivial
    payload .done _ _ hwrite⟩

/-- A variant of what is no number, and null another. -/
def level : Enumeration where
  carrier := .float32
  null := 0
  variants := [("unknown", 0x7fc00000)]

/-- So it is not enough that the values differ: what is written as no number is read as null. Nor is it enough
that a set is there, which has no place for a choice with too high a bit. -/
theorem present_value_is_not_read_back :
    let unknown : level.Value := some ⟨0, by decide⟩
    let f : EnumField level := { offset := 0 }
    let flags : BitSetField .w8 := { offset := 0 }
    let tenth : Choice := { bit := 9 }
    ((level.null :: level.variants.map Prod.snd).Nodup ∧ Version.includes 0 (variant f).since = true ∧
      ∃ written, (variant f).write ⟨0, 0⟩ unknown (Array.replicate 4 0) = .ok .done written ∧
        written.toList = [0, 0, 0xc0, 0x7f] ∧
        (variant f).read ⟨0, 0⟩ written = .ok (.variant level none) written ∧
        (variant f).reply unknown ≠ .variant level none) ∧
    Version.includes 0 (choice flags tenth).since = true ∧
      (choice flags tenth).write ⟨0, 0⟩ true #[0] = .ok .done #[0] ∧
      (choice flags tenth).read ⟨0, 0⟩ #[0] = .ok (.flag false) #[0] ∧
      (choice flags tenth).reply true ≠ .flag false := by
  intro unknown f flags tenth
  have hwrite : (variant f).write ⟨0, 0⟩ unknown (Array.replicate 4 0) = .ok .done #[0, 0, 0xc0, 0x7f] :=
    write_eq_ok_iff.mpr ⟨trivial, [0, 0, 0, 0], rfl, rfl, by decide⟩
  have hnull : level.decode (level.carrier.decode .little (level.carrier.encode .little (level.encode unknown))) = none := by
    decide
  have hunset : tenth.test ((Carrier.unsigned .w8).decode .little [0]) = false := by decide
  refine ⟨⟨by decide, by decide, _, hwrite, rfl, ?_, fun h => ?_⟩, by decide, ?_, ?_, fun h => ?_⟩
  · obtain ⟨raw, -, hread⟩ := read_rewrite (s := variant f) (by decide) trivial hwrite
    rw [← hnull]
    exact hread
  · have hv : unknown = none := eq_of_heq (Reply.variant.inj h).2
    exact Option.some_ne_none _ hv
  · exact write_eq_ok_iff.mpr ⟨trivial, [0], rfl, rfl, by decide⟩
  · exact (read_eq_ok_iff (by decide)).mpr ⟨trivial, ⟨[0], rfl, congrArg Reply.flag hunset.symm⟩, rfl⟩
  · exact Bool.false_ne_true (Reply.flag.inj h).symm

end Slot

end SimpleBinary
