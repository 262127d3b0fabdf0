import SimpleBinary.Proofs.Message.Sections

/-!
# The encoding pass

What the encoding pass writes is the image of its sections, at the cursor, and it succeeds exactly if
everything fits the member that holds it and the image fits the buffer (`encode_eq_ok_iff`).
-/

namespace SimpleBinary

theorem Width.fit_eq_ok_iff {w : Width} {n k : Nat} : w.fit n = .ok k ↔ n ≤ w.max ∧ k = n := by
  unfold Width.fit
  by_cases h : n ≤ w.max
  · rw [if_pos h, Except.ok.injEq]
    exact ⟨fun e => ⟨h, e.symm⟩, fun e => e.2.symm⟩
  · rw [if_neg h]
    exact ⟨fun e => (nomatch e), fun e => absurd e.1 h⟩

namespace Message

def written (m : Message) (image : Image) : Message :=
  { m with
    buffer := m.buffer.stamp m.position image
    position := m.position + image.length }

@[simp] theorem written_nil (m : Message) : m.written [] = m := by
  rw [written, Buffer.stamp_nil]; rfl

theorem written_append (m : Message) (a b : Image) : (m.written a).written b = m.written (a ++ b) := by
  rw [written, written, written, Buffer.stamp_append, List.length_append, Nat.add_assoc]

@[simp] theorem capacity_written (m : Message) (image : Image) :
    (m.written image).capacity = m.capacity := Buffer.size_stamp ..

@[simp] theorem position_written (m : Message) (image : Image) :
    (m.written image).position = m.position + image.length := rfl

end Message

/-! ## Dimensions -/

namespace UnsignedField

theorem byte?_of_mem {f : UnsignedField} {i : Nat} (n : Nat) (h : f.offset ≤ i) :
    f.byte? n i = (f.order.encode f.width.bytes n)[i - f.offset]? := if_pos h

theorem byte?_of_not_mem {f : UnsignedField} {i : Nat} (n : Nat) (h : ¬ (f.offset ≤ i ∧ i < f.stop)) :
    f.byte? n i = none := by
  unfold byte?
  split
  · rw [List.getElem?_eq_none]
    rw [ByteOrder.length_encode]
    unfold stop at h; omega
  · rfl

theorem write_eq_ok_iff {f : UnsignedField} {base n : Nat} {buffer written : Buffer} {u : Unit} :
    f.write base n buffer = .ok u written ↔ base + f.stop ≤ buffer.size ∧
      written = buffer.patch (base + f.offset) (f.order.encode f.width.bytes n) := by
  unfold write stop
  rw [Edit.overwrite_eq_ok_iff, ByteOrder.length_encode, Nat.add_assoc]

end UnsignedField

theorem Dimensions.getElem?_image (d : Dimensions) (blockLength count : Nat) {i : Nat} (h : i < d.size) :
    (d.image blockLength count)[i]? =
      some (d.blockLength.byte? blockLength i <|> d.numInGroup.byte? count i) := by
  rw [image, List.getElem?_map, List.getElem?_range h, Option.map_some]

theorem Buffer.patch_dimensions (buffer : Buffer) {d : Dimensions} (wf : d.WellFormed) {base : Nat}
    (blockLength count : Nat) :
    (buffer.patch (base + d.numInGroup.offset)
        (d.numInGroup.order.encode d.numInGroup.width.bytes count)).patch (base + d.blockLength.offset)
        (d.blockLength.order.encode d.blockLength.width.bytes blockLength) =
      buffer.stamp base (d.image blockLength count) := by
  obtain ⟨hb, hc, ha⟩ := wf
  apply Array.ext_getElem?
  intro i
  rw [getElem?_patch, getElem?_patch, getElem?_stamp, size_patch, ByteOrder.length_encode,
    ByteOrder.length_encode]
  have hbs : d.blockLength.stop = d.blockLength.offset + d.blockLength.width.bytes := rfl
  have hcs : d.numInGroup.stop = d.numInGroup.offset + d.numInGroup.width.bytes := rfl
  by_cases hi : i < buffer.size
  · rw [Array.getElem?_eq_getElem hi, Option.map_some]
    by_cases hr : base ≤ i ∧ i - base < d.size
    · rw [if_pos hr.1, d.getElem?_image blockLength count hr.2]
      by_cases hB : d.blockLength.offset ≤ i - base ∧ i - base < d.blockLength.stop
      · rw [if_pos (by omega), d.blockLength.byte?_of_mem _ hB.1, Nat.sub_sub,
          List.getElem?_eq_getElem (by rw [ByteOrder.length_encode]; omega)]
        rfl
      · rw [if_neg (by omega), UnsignedField.byte?_of_not_mem _ hB]
        by_cases hC : d.numInGroup.offset ≤ i - base ∧ i - base < d.numInGroup.stop
        · rw [if_pos (by omega), d.numInGroup.byte?_of_mem _ hC.1, Nat.sub_sub,
            List.getElem?_eq_getElem (by rw [ByteOrder.length_encode]; omega)]
          rfl
        · rw [if_neg (by omega), UnsignedField.byte?_of_not_mem _ hC]
          rfl
    · rw [if_neg (by omega), if_neg (by omega)]
      by_cases ho : base ≤ i
      · rw [if_pos ho, List.getElem?_eq_none (by rw [Sections.length_dimensions_image]; omega)]
        rfl
      · rw [if_neg ho]
  · rw [if_neg (by omega), if_neg (by omega), Array.getElem?_eq_none (by omega)]
    rfl

namespace Group
variable {f : GroupFormat} {m m' : Message} {g g' : Group}

theorem encode_eq_ok_iff (wf : f.dimensions.WellFormed) {count : Nat} :
    Group.encode f count m = .ok g m' ↔
      count ≤ f.dimensions.numInGroup.width.max ∧ f.blockLength ≤ f.dimensions.blockLength.width.max ∧
        m.position + f.dimensions.size ≤ m.capacity ∧ g = ⟨f.blockLength, count, 0, m.position⟩ ∧
          m' = m.written (f.dimensions.image f.blockLength count) := by
  unfold Group.encode
  simp only [bind_eq_ok_iff, Pass.look_eq_ok_iff, Width.fit_eq_ok_iff, Message.advance_eq_ok_iff,
    Pass.edit_eq_ok_iff, UnsignedField.write_eq_ok_iff, pure_eq_ok_iff]
  have hw : m.written (f.dimensions.image f.blockLength count) =
      { m with
        buffer := (m.buffer.patch (m.position + f.dimensions.numInGroup.offset)
          (f.dimensions.numInGroup.order.encode f.dimensions.numInGroup.width.bytes count)).patch
            (m.position + f.dimensions.blockLength.offset)
            (f.dimensions.blockLength.order.encode f.dimensions.blockLength.width.bytes f.blockLength)
        position := m.position + f.dimensions.size } := by
    rw [Buffer.patch_dimensions m.buffer wf, Message.written, Sections.length_dimensions_image]
  apply Iff.intro
  · intro h
    obtain ⟨_, _, ⟨⟨hc, -⟩, rfl⟩, _, _, ⟨⟨hb, -⟩, rfl⟩, _, _, ⟨hs, rfl, rfl⟩, _, _,
      ⟨_, ⟨-, rfl⟩, rfl⟩, _, _, ⟨_, ⟨-, rfl⟩, rfl⟩, rfl, rfl⟩ := h
    exact ⟨hc, hb, hs, rfl, hw.symm⟩
  · intro h
    obtain ⟨hc, hb, hs, rfl, rfl⟩ := h
    have h1 := wf.blockLength_le
    have h2 := wf.numInGroup_le
    unfold Message.capacity at hs
    refine ⟨_, _, ⟨⟨hc, rfl⟩, rfl⟩, _, _, ⟨⟨hb, rfl⟩, rfl⟩, _, _, ⟨hs, rfl, rfl⟩, (), _,
      ⟨_, ⟨?_, rfl⟩, rfl⟩, (), _, ⟨_, ⟨?_, rfl⟩, rfl⟩, rfl, hw⟩
    · show m.position + _ ≤ m.buffer.size; omega
    · rw [Buffer.size_patch]; show m.position + _ ≤ m.buffer.size; omega

/-- What is left of it when the members may lie anywhere. -/
theorem eq_of_encode {count : Nat} (h : Group.encode f count m = .ok g m') :
    count ≤ f.dimensions.numInGroup.width.max ∧ g = ⟨f.blockLength, count, 0, m.position⟩ := by
  unfold Group.encode at h
  simp only [bind_eq_ok_iff, Pass.look_eq_ok_iff, Width.fit_eq_ok_iff, Message.advance_eq_ok_iff, pure_eq_ok_iff] at h
  obtain ⟨_, _, ⟨⟨hle, -⟩, rfl⟩, _, _, ⟨-, rfl⟩, _, _, ⟨-, rfl, -⟩, _, _, -, _, _, -, rfl, -⟩ := h
  exact ⟨hle, rfl⟩

theorem next_eq_ok_iff : g.next m = .ok g' m' ↔
    g.visited < g.count ∧ m.position + g.blockLength ≤ m.capacity ∧
      g' = { g with visited := g.visited + 1, elementOffset := m.position } ∧
        m' = { m with position := m.position + g.blockLength } := by
  unfold Group.next hasNext
  by_cases h : g.visited < g.count
  · rw [if_pos (decide_eq_true h), bind_eq_ok_iff]
    simp only [Message.advance_eq_ok_iff, pure_eq_ok_iff]
    apply Iff.intro
    · intro h
      obtain ⟨_, _, ⟨hs, rfl, rfl⟩, rfl, rfl⟩ := h
      exact ⟨h, hs, rfl, rfl⟩
    · intro h
      obtain ⟨-, hs, rfl, rfl⟩ := h
      exact ⟨_, _, ⟨hs, rfl, rfl⟩, rfl, rfl⟩
  · rw [if_neg (by simpa using h)]
    exact ⟨fun e => absurd e throw_ne_ok, fun e => absurd e.1 h⟩

end Group

/-! ## Steps that write an image -/

/-- If `ok` holds and the image fits the buffer, the step writes it at the cursor; if not, it fails. -/
def Pass.Writes {α : Type} (p : Pass α) (ok : Prop) (image : Image) (answer : Message → α) : Prop :=
  ∀ ⦃m : Message⦄, m.position ≤ m.capacity → ∀ (a : α) (m' : Message), p m = .ok a m' ↔
    ok ∧ m.position + image.length ≤ m.capacity ∧ a = answer m ∧ m' = m.written image

theorem Pass.Writes.bind {α β : Type} {p : Pass α} {q : α → Pass β} {ok ok' : Prop} {a b : Image}
    {answer : Message → α} {answer' : Message → β} (hp : p.Writes ok a answer)
    (hq : ∀ m, (q (answer m)).Writes ok' b fun _ => answer' m) :
    (p >>= q).Writes (ok ∧ ok') (a ++ b) answer' := by
  intro m hm c m'
  rw [bind_eq_ok_iff, List.length_append, ← m.written_append]
  apply Iff.intro
  · intro h
    obtain ⟨x, t, hx, h⟩ := h
    obtain ⟨ho, hr, rfl, rfl⟩ := (hp hm x t).mp hx
    obtain ⟨ho', hr', hc, ht⟩ := (hq m (by simpa using hr) c m').mp h
    rw [Message.capacity_written, Message.position_written] at hr'
    exact ⟨⟨ho, ho'⟩, by omega, hc, ht⟩
  · intro h
    obtain ⟨⟨ho, ho'⟩, hr, hc, ht⟩ := h
    have hr' : m.position + a.length ≤ m.capacity := by omega
    refine ⟨_, _, (hp hm _ _).mpr ⟨ho, hr', rfl, rfl⟩, (hq m (by simpa using hr') c m').mpr ?_⟩
    rw [Message.capacity_written, Message.position_written]
    exact ⟨ho', by omega, hc, ht⟩

theorem Pass.Writes.pure : (Pure.pure () : Pass Unit).Writes True [] fun _ => () := by
  intro m hm a m'
  rw [pure_eq_ok_iff, m.written_nil]
  exact ⟨fun h => ⟨trivial, hm, h⟩, fun h => h.2.2⟩

theorem Pass.Writes.congr {α : Type} {p : Pass α} {ok ok' : Prop} {a : Image} {answer : Message → α}
    (h : p.Writes ok a answer) (ho : ok ↔ ok') : p.Writes ok' a answer := propext ho ▸ h

theorem Group.writes_encode {f : GroupFormat} (wf : f.dimensions.WellFormed) (count : Nat) :
    (Group.encode f count).Writes
      (count ≤ f.dimensions.numInGroup.width.max ∧ f.blockLength ≤ f.dimensions.blockLength.width.max)
      (f.dimensions.image f.blockLength count) fun m => ⟨f.blockLength, count, 0, m.position⟩ := by
  intro m _ g m'
  rw [Group.encode_eq_ok_iff wf, Sections.length_dimensions_image, and_assoc]

theorem DataFormat.writes_write (f : DataFormat) (src : Bytes) :
    (f.write src).Writes (src.length ≤ f.length.max) (f.image src) fun _ => src.length := by
  intro m _ k m'
  unfold DataFormat.write
  simp only [bind_eq_ok_iff, Pass.look_eq_ok_iff, Width.fit_eq_ok_iff, Message.advance_eq_ok_iff,
    Pass.edit_eq_ok_iff, Edit.overwrite_eq_ok_iff, pure_eq_ok_iff, ByteOrder.length_encode]
  have hl : m.position + f.lengthSize =
      m.position + (f.order.encode f.lengthSize src.length).length := by rw [ByteOrder.length_encode]
  have hw : m.written (f.image src) =
      { m with
        buffer := (m.buffer.patch m.position (f.order.encode f.lengthSize src.length)).patch
          (m.position + f.lengthSize) src
        position := m.position + (f.lengthSize + src.length) } := by
    rw [hl, Buffer.patch_append, Buffer.patch_eq_stamp, Message.written, Sections.length_data_image]
    rfl
  rw [Sections.length_data_image]
  apply Iff.intro
  · intro h
    obtain ⟨_, _, ⟨⟨hf, -⟩, rfl⟩, _, _, ⟨hs, rfl, rfl⟩, _, _, ⟨_, ⟨-, rfl⟩, rfl⟩, _, _,
      ⟨_, ⟨-, rfl⟩, rfl⟩, rfl, rfl⟩ := h
    exact ⟨hf, hs, rfl, hw.symm⟩
  · intro h
    obtain ⟨hf, hs, rfl, rfl⟩ := h
    unfold Message.capacity at hs
    refine ⟨_, _, ⟨⟨hf, rfl⟩, rfl⟩, _, _, ⟨hs, rfl, rfl⟩, (), _, ⟨_, ⟨?_, rfl⟩, rfl⟩, (), _,
      ⟨_, ⟨?_, rfl⟩, rfl⟩, rfl, hw⟩
    · show m.position + _ ≤ m.buffer.size; omega
    · rw [Buffer.size_patch]; show m.position + _ + _ ≤ m.buffer.size; omega

theorem Fill.write_eq_ok_iff {n : Nat} (fill : Fill n) {block : Message → Block} {m m' : Message} {u : Unit}
    (h : (block m).base + n ≤ m.capacity) :
    Put.writeAll fill.puts block m = .ok u m' ↔
      m' = { m with buffer := m.buffer.patch (block m).base fill.bytes } := by
  unfold Put.writeAll
  simp only [bind_eq_ok_iff, get_eq_ok_iff, Pass.edit_eq_ok_iff]
  have hp := fill.performAll_puts (block m).version h
  apply Iff.intro
  · intro h
    obtain ⟨_, _, ⟨rfl, rfl⟩, written, hw, rfl⟩ := h
    rw [hp] at hw
    cases hw
    rfl
  · intro h
    obtain rfl := h
    exact ⟨m, m, ⟨rfl, rfl⟩, _, hp, rfl⟩

namespace Group
variable {n : Nat} {γ : Type} {g : Group}

theorem writes_next (hv : g.visited < g.count) (hn : g.blockLength = n) (fill : Fill n) :
    Pass.Writes
      (g.next >>= fun g' => Put.writeAll fill.puts (fun m => g'.element m.actingVersion) >>= fun _ => pure g') True
      (.ofBytes fill.bytes) fun m => { g with visited := g.visited + 1, elementOffset := m.position } := by
  subst hn
  intro m _ g' m'
  have hw : m.written (.ofBytes fill.bytes) =
      { m with
        buffer := m.buffer.patch m.position fill.bytes
        position := m.position + g.blockLength } := by
    rw [Buffer.patch_eq_stamp, Message.written, Image.length_ofBytes, fill.length_bytes]
  rw [Image.length_ofBytes, fill.length_bytes]
  apply Iff.intro
  · intro h
    obtain ⟨g1, t, hg, h⟩ := bind_eq_ok_iff.mp h
    obtain ⟨-, hs, rfl, rfl⟩ := next_eq_ok_iff.mp hg
    obtain ⟨_, t, hf, h⟩ := bind_eq_ok_iff.mp h
    rw [fill.write_eq_ok_iff hs] at hf
    obtain ⟨rfl, rfl⟩ := pure_eq_ok_iff.mp h
    exact ⟨trivial, hs, rfl, hf.trans hw.symm⟩
  · intro h
    obtain ⟨-, hs, rfl, rfl⟩ := h
    refine bind_eq_ok_iff.mpr ⟨_, _, next_eq_ok_iff.mpr ⟨hv, hs, rfl, rfl⟩, ?_⟩
    refine bind_eq_ok_iff.mpr ⟨(), _, (fill.write_eq_ok_iff hs).mpr rfl, ?_⟩
    exact pure_eq_ok_iff.mpr ⟨rfl, hw⟩

variable {encode : γ → Pass Unit} {fits : γ → Prop} {image : γ → Image}

theorem writes_each (he : ∀ c, (encode c).Writes (fits c) (image c) fun _ => ()) :
    ∀ (elements : List (Fill n × γ)) (g : Group), g.blockLength = n →
      g.visited + elements.length ≤ g.count →
      (g.each (writeElement (·.puts) encode) elements).Writes (∀ e ∈ elements, fits e.2)
        (elements.flatMap fun e => Image.ofBytes e.1.bytes ++ image e.2) fun _ => ()
  | [], g, _, _ => Pass.Writes.pure.congr (by simp)
  | e :: rest, g, hn, hc => by
    rw [List.length_cons] at hc
    have hstep : g.each (writeElement (·.puts) encode) (e :: rest) =
        (g.next >>= fun g' => Put.writeAll e.1.puts (fun m => g'.element m.actingVersion) >>= fun _ => pure g') >>=
          fun g' => encode e.2 >>= fun _ => g'.each (writeElement (·.puts) encode) rest := by
      simp only [each, writeElement, bind_assoc, pure_bind]
    have hrest (position : Nat) := writes_each he rest
      { g with visited := g.visited + 1, elementOffset := position } hn (by show g.visited + 1 + rest.length ≤ g.count; omega)
    rw [hstep, List.flatMap_cons, List.append_assoc]
    refine Pass.Writes.congr (Pass.Writes.bind (writes_next (by omega) hn e.1) fun m =>
      Pass.Writes.bind (he e.2) fun _ => hrest m.position) ?_
    rw [true_and, List.forall_mem_cons]

end Group

theorem Sections.writes_encode : ∀ (s : Sections) (content : s.Content Fill),
    (s.encode content).Writes (s.Fits content) (s.image content) fun _ => ()
  | nil, _ => Pass.Writes.pure
  | group f wf inner rest, (elements, content) => by
    rw [image, List.append_assoc]
    refine Pass.Writes.congr (Pass.Writes.bind (Group.writes_encode wf elements.length) fun m =>
      Pass.Writes.bind (Group.writes_each inner.writes_encode elements _ rfl (Nat.le_of_eq (Nat.zero_add _))) fun _ =>
        rest.writes_encode content) ?_
    rw [Fits, and_assoc]
  | data f rest, (bytes, content) =>
    Pass.Writes.bind (f.writes_write bytes) fun _ => rest.writes_encode content

/-! ## Messages -/

namespace Message
variable {m m' : Message} {s : Sections} {offset : Nat}

def begun (m : Message) (offset : Nat) : Message :=
  { m.started offset m.template.blockLength.toNat m.template.version with position := offset }

theorem encodeRoot_eq_ok_iff {root : Fill m.template.blockLength.toNat} {u : Unit} :
    (startEncode offset >>= fun _ => Put.writeAll root.puts Message.root) m = .ok u m' ↔
      offset + m.template.blockLength.toNat ≤ m.capacity ∧ m' = (m.begun offset).written (.ofBytes root.bytes) := by
  have hw : (m.begun offset).written (.ofBytes root.bytes) =
      { m.started offset m.template.blockLength.toNat m.template.version with
        buffer := m.buffer.patch offset root.bytes } := by
    rw [Buffer.patch_eq_stamp, written, Image.length_ofBytes, root.length_bytes]
    rfl
  rw [hw, bind_eq_ok_iff]
  apply Iff.intro
  · intro h
    obtain ⟨_, t, ht, h⟩ := h
    obtain ⟨hb, rfl⟩ := startEncode_eq_ok_iff.mp ht
    exact ⟨hb, (root.write_eq_ok_iff (by exact hb)).mp h⟩
  · intro h
    obtain ⟨hb, rfl⟩ := h
    exact ⟨(), _, startEncode_eq_ok_iff.mpr ⟨hb, rfl⟩, (root.write_eq_ok_iff (by exact hb)).mpr rfl⟩

theorem encode_eq_ok_iff {root : Fill m.template.blockLength.toNat} {content : s.Content Fill} {u : Unit} :
    encode s root content offset m = .ok u m' ↔
      s.Fits content ∧ offset + (m.template.blockLength.toNat + s.size content) ≤ m.capacity ∧
        m' = (m.begun offset).written (.ofBytes root.bytes ++ s.image content) := by
  have hencode : encode s root content offset =
      (startEncode offset >>= fun _ => Put.writeAll root.puts Message.root) >>= fun _ => s.encode content := by
    rw [encode, encodeWith, bind_assoc]
    rfl
  have hp : ((m.begun offset).written (.ofBytes root.bytes)).position = offset + m.template.blockLength.toNat := by
    rw [position_written, Image.length_ofBytes, root.length_bytes]
    rfl
  have hcap : ((m.begun offset).written (.ofBytes root.bytes)).capacity = m.capacity := capacity_written ..
  have hwrites (hb : offset + m.template.blockLength.toNat ≤ m.capacity) :=
    s.writes_encode content (m := (m.begun offset).written (.ofBytes root.bytes)) (by rw [hp, hcap]; exact hb) () m'
  rw [hp, hcap, s.length_image, written_append] at hwrites
  rw [hencode, bind_eq_ok_iff]
  apply Iff.intro
  · intro h
    obtain ⟨_, t, ht, h⟩ := h
    obtain ⟨hb, rfl⟩ := encodeRoot_eq_ok_iff.mp ht
    obtain ⟨hf, hc, -, hm⟩ := (hwrites hb).mp h
    exact ⟨hf, by omega, hm⟩
  · intro h
    obtain ⟨hf, hc, hm⟩ := h
    have hb : offset + m.template.blockLength.toNat ≤ m.capacity := by omega
    exact ⟨(), _, encodeRoot_eq_ok_iff.mpr ⟨hb, rfl⟩, (hwrites hb).mpr ⟨hf, by omega, rfl, hm⟩⟩

theorem exists_encode (m : Message) {content : s.Content Fill} (root : Fill m.template.blockLength.toNat)
    (hf : s.Fits content) (hc : offset + (m.template.blockLength.toNat + s.size content) ≤ m.capacity) :
    ∃ m', encode s root content offset m = .ok () m' :=
  ⟨_, encode_eq_ok_iff.mpr ⟨hf, hc, rfl⟩⟩

/-- A message is encoded exactly if it fits, and then as its image and nothing else: gaps keep what
they held, as does everything around the message. -/
theorem encode_refines_image (m : Message) (s : Sections) (root : Fill m.template.blockLength.toNat)
    (content : s.Content Fill) (offset : Nat) :
    let image : Image := .ofBytes root.bytes ++ s.image content
    let total := m.template.blockLength.toNat + s.size content
    ((∃ m', encode s root content offset m = .ok () m') ↔
      s.Fits content ∧ offset + total ≤ m.capacity) ∧
    ∀ m', encode s root content offset m = .ok () m' →
      m'.position = offset + total ∧ m'.size = total ∧ m'.capacity = m.capacity ∧
      image.length = total ∧
      (∀ i byte, image[i]? = some (some byte) → m'.buffer[offset + i]? = some byte) ∧
      (∀ i, image[i]? = some none → m'.buffer[offset + i]? = m.buffer[offset + i]?) ∧
      ∀ i, i < offset ∨ offset + total ≤ i → m'.buffer[i]? = m.buffer[i]? := by
  intro image total
  have hl : image.length = total := by
    rw [List.length_append, Image.length_ofBytes, root.length_bytes, s.length_image content]
  constructor
  · constructor
    · intro h
      obtain ⟨m', h⟩ := h
      obtain ⟨hf, hc, -⟩ := encode_eq_ok_iff.mp h
      exact ⟨hf, hc⟩
    · intro h
      exact exists_encode m root h.1 h.2
  · intro m' h
    obtain ⟨-, hc, rfl⟩ := encode_eq_ok_iff.mp h
    have hp : ((m.begun offset).written image).position = offset + total := congrArg (offset + ·) hl
    have hs : ((m.begun offset).written image).size = total := by
      unfold size
      rw [hp]
      exact Nat.add_sub_cancel_left offset total
    refine ⟨hp, hs, Buffer.size_stamp .., hl, ?_, ?_, ?_⟩
    · exact (Buffer.shows_stamp (by rw [hl]; exact hc)).2
    · exact fun i hi => Buffer.getElem?_stamp_gap hi
    · intro i hi
      cases hi with
      | inl hi => exact Buffer.getElem?_stamp_of_lt hi
      | inr hi => exact Buffer.getElem?_stamp_of_ge (by rw [hl]; exact hi)

end Message

end SimpleBinary
