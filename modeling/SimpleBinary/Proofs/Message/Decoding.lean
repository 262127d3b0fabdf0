import Mathlib.Data.List.Defs
import SimpleBinary.Proofs.Message.Encoding

/-!
# The steps of a decoding pass

Each section's step, at the image of the section, finds what the image was made of and moves the
cursor behind it. A section that is newer than the data is not there: its step finds nothing and
leaves the message as it is.
-/

namespace SimpleBinary

theorem ByteOrder.decode_le_max (order : ByteOrder) {width : Width} {bytes : Bytes}
    (h : bytes.length = width.bytes) : order.decode bytes ≤ width.max := by
  have hlt := order.decode_lt bytes
  rw [h, ← width.two_pow_bits] at hlt
  unfold Width.max
  omega

theorem ByteOrder.decode_encode_of_le (order : ByteOrder) {width : Width} {n : Nat} (h : n ≤ width.max) :
    order.decode (order.encode width.bytes n) = n := by
  have hp : 0 < 2 ^ width.bits := Nat.pow_pos (by decide)
  have hn : n < 256 ^ width.bytes := by
    rw [← width.two_pow_bits]
    unfold Width.max at h
    omega
  rw [decode_encode, Nat.mod_eq_of_lt hn]

def Message.past (m : Message) (n : Nat) : Message := { m with position := m.position + n }

theorem Message.past_past (m : Message) (n k : Nat) : (m.past n).past k = m.past (n + k) := by
  unfold past
  rw [Nat.add_assoc]

/-- With the image at the cursor, in data of version `v`, the pass finds what fits and moves over it. -/
def Pass.Reads {α : Type} (p : Pass α) (v : Version) (image : Image) (fit : α → Prop) : Prop :=
  ∀ ⦃m : Message⦄, m.actingVersion = v → m.buffer.Shows m.position image →
    ∃ a, p m = .ok a (m.past image.length) ∧ fit a

namespace Pass.Reads
variable {α β : Type} {v : Version} {i j : Image} {p : Pass α} {fit : α → Prop}

theorem bind {q : α → Pass β} {fit' : β → Prop} (hp : p.Reads v i fit)
    (hq : ∀ a, fit a → (q a).Reads v j fit') : (p >>= q).Reads v (i ++ j) fit' := by
  intro m hv hs
  obtain ⟨hi, hj⟩ := Buffer.shows_append.mp hs
  obtain ⟨a, ha, hf⟩ := hp hv hi
  have hv' : (m.past i.length).actingVersion = v := hv
  have hj' : (m.past i.length).buffer.Shows (m.past i.length).position j := hj
  obtain ⟨b, hb, hf'⟩ := hq a hf hv' hj'
  rw [Message.past_past, ← List.length_append] at hb
  exact ⟨b, bind_eq_ok_iff.mpr ⟨a, _, ha, hb⟩, hf'⟩

theorem pure {a : α} (h : fit a) : (Pure.pure a : Pass α).Reads v [] fit := by
  intro m _ _
  exact ⟨a, pure_eq_ok_iff.mpr ⟨rfl, rfl⟩, h⟩

theorem finish {f : α → β} {fit' : β → Prop} (hp : p.Reads v i fit) (h : ∀ a, fit a → fit' (f a)) :
    (p >>= fun a => Pure.pure (f a)).Reads v i fit' := by
  have hb := hp.bind (q := fun a => Pure.pure (f a)) (j := []) fun a ha => pure (h a ha)
  rwa [List.append_nil] at hb

end Pass.Reads

/-! ## Groups -/

namespace UnsignedField
variable {f : UnsignedField} {d : Dimensions} {buffer : Buffer} {base n k : Nat}

theorem window_of_read (h : f.read base buffer = .ok n) :
    buffer.window (base + f.offset) f.width.bytes = .ok (f.order.encode f.width.bytes n) ∧ n ≤ f.width.max := by
  unfold read at h
  cases hw : buffer.window (base + f.offset) f.width.bytes with
  | error e => rw [hw] at h; cases h
  | ok raw =>
    rw [hw] at h
    cases h
    have hl := Buffer.length_of_window hw
    have he := f.order.encode_decode raw
    rw [hl] at he
    exact ⟨by rw [he], f.order.decode_le_max hl⟩

theorem read_eq_ok (hn : n ≤ f.width.max)
    (h : buffer.window (base + f.offset) f.width.bytes = .ok (f.order.encode f.width.bytes n)) :
    f.read base buffer = .ok n := by
  unfold read
  rw [h]
  show Except.ok (f.order.decode _) = _
  rw [f.order.decode_encode_of_le hn]

theorem read_blockLength (wf : d.WellFormed) (hn : n ≤ d.blockLength.width.max)
    (h : buffer.Shows base (d.image n k)) : d.blockLength.read base buffer = .ok n := by
  have hb := wf.blockLength_le
  unfold stop at hb
  have hl : (d.blockLength.order.encode d.blockLength.width.bytes n).length = d.blockLength.width.bytes :=
    ByteOrder.length_encode ..
  have himage : ∀ i < (d.blockLength.order.encode d.blockLength.width.bytes n).length,
      (d.image n k)[d.blockLength.offset + i]? =
        some (d.blockLength.order.encode d.blockLength.width.bytes n)[i]? := by
    intro i hi
    rw [d.getElem?_image n k (by omega), byte?_of_mem n (by omega), Nat.add_sub_cancel_left,
      List.getElem?_eq_getElem hi]
    rfl
  have hw := h.window (by rw [hl, Sections.length_dimensions_image]; exact hb) himage
  rw [hl] at hw
  exact read_eq_ok hn hw

theorem read_numInGroup (wf : d.WellFormed) (hk : k ≤ d.numInGroup.width.max)
    (h : buffer.Shows base (d.image n k)) : d.numInGroup.read base buffer = .ok k := by
  have hb := wf.numInGroup_le
  have ha := wf.apart
  have hs : d.numInGroup.stop = d.numInGroup.offset + d.numInGroup.width.bytes := rfl
  have hl : (d.numInGroup.order.encode d.numInGroup.width.bytes k).length = d.numInGroup.width.bytes :=
    ByteOrder.length_encode ..
  have himage : ∀ i < (d.numInGroup.order.encode d.numInGroup.width.bytes k).length,
      (d.image n k)[d.numInGroup.offset + i]? =
        some (d.numInGroup.order.encode d.numInGroup.width.bytes k)[i]? := by
    intro i hi
    rw [d.getElem?_image n k (by omega), byte?_of_not_mem n (by omega), byte?_of_mem k (by omega),
      Nat.add_sub_cancel_left]
    rfl
  have hw := h.window (by rw [hl, Sections.length_dimensions_image]; omega) himage
  rw [hl] at hw
  exact read_eq_ok hk hw

end UnsignedField

namespace Group
variable {f : GroupFormat} {v : Version} {n count : Nat} {m : Message} {g : Group}

theorem decode_newer (h : m.actingVersion.includes f.since = false) :
    Group.decode f m = .ok ⟨f.blockLength, 0, 0, m.position⟩ m := by
  unfold Group.decode
  refine bind_eq_ok_iff.mpr ⟨m, m, get_eq_ok_iff.mpr ⟨rfl, rfl⟩, ?_⟩
  rw [h]
  rfl

theorem decode_eq_ok_iff (h : m.actingVersion.includes f.since = true) {m' : Message} :
    Group.decode f m = .ok g m' ↔ m.position + f.dimensions.size ≤ m.capacity ∧
      f.dimensions.blockLength.read m.position m.buffer = .ok g.blockLength ∧
      f.dimensions.numInGroup.read m.position m.buffer = .ok g.count ∧
      g.visited = 0 ∧ g.elementOffset = m.position ∧ m' = m.past f.dimensions.size := by
  unfold Group.decode
  simp only [bind_eq_ok_iff, get_eq_ok_iff]
  apply Iff.intro
  · intro h'
    obtain ⟨_, _, ⟨rfl, rfl⟩, h'⟩ := h'
    rw [if_pos h] at h'
    simp only [bind_eq_ok_iff, Message.advance_eq_ok_iff, Pass.look_eq_ok_iff, pure_eq_ok_iff] at h'
    obtain ⟨_, _, ⟨hs, rfl, rfl⟩, _, _, ⟨hn, rfl⟩, _, _, ⟨hk, rfl⟩, rfl, rfl⟩ := h'
    exact ⟨hs, hn, hk, rfl, rfl, rfl⟩
  · intro h'
    obtain ⟨blockLength, count, visited, elementOffset⟩ := g
    obtain ⟨hs, hn, hk, rfl, rfl, rfl⟩ := h'
    refine ⟨m, m, ⟨rfl, rfl⟩, ?_⟩
    rw [if_pos h]
    simp only [bind_eq_ok_iff, Message.advance_eq_ok_iff, Pass.look_eq_ok_iff, pure_eq_ok_iff]
    exact ⟨_, _, ⟨hs, rfl, rfl⟩, _, _, ⟨hn, rfl⟩, _, _, ⟨hk, rfl⟩, rfl, rfl⟩

theorem reads_decode (wf : f.dimensions.WellFormed) (h : v.includes f.since = true)
    (hn : n ≤ f.dimensions.blockLength.width.max) (hc : count ≤ f.dimensions.numInGroup.width.max) :
    (Group.decode f).Reads v (f.dimensions.image n count) fun g =>
      g.blockLength = n ∧ g.count = count ∧ g.visited = 0 := by
  intro m hv hs
  have hd := hs.1
  rw [Sections.length_dimensions_image] at hd ⊢
  refine ⟨⟨n, count, 0, m.position⟩, (decode_eq_ok_iff (hv ▸ h)).mpr ⟨hd, ?_, ?_, rfl, rfl, rfl⟩, rfl, rfl, rfl⟩
  · exact UnsignedField.read_blockLength wf hn hs
  · exact UnsignedField.read_numInGroup wf hc hs

end Group

/-- Of the bytes of a block, `look` finds what is `same`, wherever the block stands. -/
def Finds {α : Type} (v : Version) (look : Block → Nat → Buffer → Except AccessError α)
    (same : Bytes → α → Prop) : Prop :=
  ∀ ⦃base : Nat⦄ ⦃buffer : Buffer⦄ ⦃bytes : Bytes⦄, buffer.window base bytes.length = .ok bytes →
    ∃ a, look ⟨base, v⟩ bytes.length buffer = .ok a ∧ same bytes a

namespace Group
variable {α γ δ : Type} {n : Nat} {v : Version} {look : Block → Nat → Buffer → Except AccessError α}
  {same : Bytes → α → Prop} {g : Group}

theorem reads_next (hlook : Finds v look same) (hv : g.visited < g.count) (hn : g.blockLength = n)
    (fill : Fill n) :
    Pass.Reads
      (g.next >>= fun g' => Pass.look (fun m => look (g'.element m.actingVersion) g'.blockLength m.buffer) >>=
        fun a => pure (g', a)) v (.ofBytes fill.bytes) fun r =>
      r.1.blockLength = n ∧ r.1.count = g.count ∧ r.1.visited = g.visited + 1 ∧ same fill.bytes r.2 := by
  subst hn
  intro m hm hs
  have hb : m.position + g.blockLength ≤ m.capacity := by
    have := hs.1
    rwa [Image.length_ofBytes, fill.length_bytes] at this
  obtain ⟨a, ha, hsame⟩ := hlook hs.window_ofBytes
  rw [fill.length_bytes] at ha
  rw [Image.length_ofBytes, fill.length_bytes]
  refine ⟨({ g with visited := g.visited + 1, elementOffset := m.position }, a), ?_, rfl, rfl, rfl, hsame⟩
  refine bind_eq_ok_iff.mpr ⟨_, _, next_eq_ok_iff.mpr ⟨hv, hb, rfl, rfl⟩, ?_⟩
  refine bind_eq_ok_iff.mpr ⟨a, m.past g.blockLength, Pass.look_eq_ok_iff.mpr ⟨?_, rfl⟩, ?_⟩
  · show look ⟨m.position, m.actingVersion⟩ g.blockLength m.buffer = .ok a
    rw [hm]
    exact ha
  · exact pure_eq_ok_iff.mpr ⟨rfl, rfl⟩

variable {decode : Pass γ} {image : δ → Image}

theorem reads_collect (fit : δ → γ → Prop) (hlook : Finds v look same) :
    ∀ (elements : List (Fill n × δ)) (g : Group),
      (∀ e ∈ elements, decode.Reads v (image e.2) (fit e.2)) → g.blockLength = n →
      g.visited + elements.length ≤ g.count →
      (g.collect (readElement look decode) elements.length).Reads v
        (elements.flatMap fun e => Image.ofBytes e.1.bytes ++ image e.2)
        (List.Forall₂ (fun e a => same e.1.bytes a.1 ∧ fit e.2 a.2) elements)
  | [], g, _, _, _ => Pass.Reads.pure .nil
  | e :: rest, g, hd, hn, hc => by
    rw [List.length_cons] at hc
    have hstep : g.collect (readElement look decode) (e :: rest).length =
        (g.next >>= fun g' => Pass.look (fun m => look (g'.element m.actingVersion) g'.blockLength m.buffer) >>=
          fun a => pure (g', a)) >>= fun r => decode >>= fun c =>
            r.1.collect (readElement look decode) rest.length >>= fun found => pure ((r.2, c) :: found) := by
      simp only [collect, readElement, List.length_cons, bind_assoc, pure_bind]
    rw [hstep, List.flatMap_cons, List.append_assoc]
    refine Pass.Reads.bind (reads_next hlook (by omega) hn e.1) fun r hr => ?_
    obtain ⟨hb, hcount, hvisited, hsame⟩ := hr
    refine Pass.Reads.bind (hd e List.mem_cons_self) fun c hfit => ?_
    have hrest := reads_collect fit hlook rest r.1 (fun e he => hd e (List.mem_cons_of_mem _ he)) hb
      (by omega)
    exact hrest.finish fun found hfound => .cons ⟨hsame, hfit⟩ hfound

end Group

/-! ## Data sections -/

namespace DataFormat
variable {f : DataFormat} {v : Version} {bytes : Bytes} {m : Message}

def kept : Option Bytes → Bytes → Bytes
  | none, bytes => bytes
  | some dst, bytes => bytes.take dst.length

theorem take_newer (h : m.actingVersion.includes f.since = false) : f.take m = .ok none m := by
  unfold take
  refine bind_eq_ok_iff.mpr ⟨m, m, get_eq_ok_iff.mpr ⟨rfl, rfl⟩, ?_⟩
  rw [h]
  rfl

theorem read_newer (h : m.actingVersion.includes f.since = false) : f.read m = .ok [] m :=
  bind_eq_ok_iff.mpr ⟨none, m, take_newer h, pure_eq_ok_iff.mpr ⟨rfl, rfl⟩⟩

theorem copy_newer (h : m.actingVersion.includes f.since = false) (dst : Bytes) :
    f.copy dst m = .ok (0, dst) m :=
  bind_eq_ok_iff.mpr ⟨none, m, take_newer h, pure_eq_ok_iff.mpr ⟨rfl, rfl⟩⟩

theorem fetch_newer (h : m.actingVersion.includes f.since = false) (dst : Option Bytes) :
    f.fetch dst m = .ok [] m := by
  cases dst with
  | none => exact read_newer h
  | some dst => exact map_eq_ok_iff.mpr ⟨(0, dst), copy_newer h dst, rfl⟩

theorem extract_of_shows (hs : m.buffer.Shows m.position (f.image bytes)) :
    (m.buffer.extract (m.position + f.lengthSize) (m.position + f.lengthSize + bytes.length)).toList =
      bytes := by
  rw [image, Image.ofBytes, List.map_append] at hs
  have hw := (Buffer.shows_append.mp hs).2
  rw [List.length_map, ByteOrder.length_encode] at hw
  exact Buffer.extract_of_window (Buffer.Shows.window_ofBytes hw)

theorem take_eq_ok_iff (h : m.actingVersion.includes f.since = true) {r : Option (Nat × Nat)} {m' : Message} :
    f.take m = .ok r m' ↔ ∃ raw, m.buffer.window m.position f.lengthSize = .ok raw ∧
      m.position + (f.lengthSize + f.order.decode raw) ≤ m.capacity ∧
      r = some (m.position + f.lengthSize, f.order.decode raw) ∧
      m' = m.past (f.lengthSize + f.order.decode raw) := by
  unfold take
  simp only [bind_eq_ok_iff, get_eq_ok_iff]
  apply Iff.intro
  · intro h'
    obtain ⟨_, _, ⟨rfl, rfl⟩, h'⟩ := h'
    rw [if_pos h] at h'
    simp only [bind_eq_ok_iff, Pass.look_eq_ok_iff, Message.advance_eq_ok_iff, pure_eq_ok_iff] at h'
    obtain ⟨raw, _, ⟨hw, rfl⟩, _, _, ⟨-, -, rfl⟩, _, _, ⟨hs, rfl, rfl⟩, rfl, rfl⟩ := h'
    refine ⟨raw, hw, ?_, rfl, Message.past_past ..⟩
    rw [← Nat.add_assoc]
    exact hs
  · intro h'
    obtain ⟨raw, hw, hs, rfl, rfl⟩ := h'
    refine ⟨m, m, ⟨rfl, rfl⟩, ?_⟩
    rw [if_pos h, ← Message.past_past]
    rw [← Nat.add_assoc] at hs
    simp only [bind_eq_ok_iff, Pass.look_eq_ok_iff, Message.advance_eq_ok_iff, pure_eq_ok_iff]
    exact ⟨raw, m, ⟨hw, rfl⟩, _, _, ⟨by omega, rfl, rfl⟩, _, _, ⟨hs, rfl, rfl⟩, rfl, rfl⟩

theorem take_eq_ok (h : m.actingVersion.includes f.since = true) (hl : bytes.length ≤ f.length.max)
    (hs : m.buffer.Shows m.position (f.image bytes)) :
    f.take m = .ok (some (m.position + f.lengthSize, bytes.length)) (m.past (f.lengthSize + bytes.length)) := by
  have hb := hs.1
  rw [Sections.length_data_image] at hb
  have hp : (f.order.encode f.lengthSize bytes.length).length = f.lengthSize := ByteOrder.length_encode ..
  have hw : m.buffer.window m.position f.lengthSize = .ok (f.order.encode f.lengthSize bytes.length) := by
    rw [image, Image.ofBytes, List.map_append] at hs
    have := Buffer.Shows.window_ofBytes (Buffer.shows_append.mp hs).1
    rwa [hp] at this
  have hd : f.order.decode (f.order.encode f.lengthSize bytes.length) = bytes.length :=
    f.order.decode_encode_of_le hl
  refine (take_eq_ok_iff h).mpr ⟨_, hw, ?_, ?_⟩
  · rw [hd]
    exact hb
  · rw [hd]
    exact ⟨rfl, rfl⟩

theorem reads_fetch (h : v.includes f.since = true) (hl : bytes.length ≤ f.length.max) (dst : Option Bytes) :
    (f.fetch dst).Reads v (f.image bytes) fun found => found = kept dst bytes := by
  intro m hv hs
  rw [← hv] at h
  have ht := take_eq_ok h hl hs
  have he := extract_of_shows hs
  rw [Sections.length_data_image]
  refine ⟨kept dst bytes, ?_, rfl⟩
  cases dst with
  | none =>
    refine bind_eq_ok_iff.mpr ⟨_, _, ht, bind_eq_ok_iff.mpr ⟨_, _, get_eq_ok_iff.mpr ⟨rfl, rfl⟩, ?_⟩⟩
    exact pure_eq_ok_iff.mpr ⟨he.symm, rfl⟩
  | some dst =>
    refine map_eq_ok_iff.mpr ⟨_, bind_eq_ok_iff.mpr ⟨_, _, ht, bind_eq_ok_iff.mpr
      ⟨_, _, get_eq_ok_iff.mpr ⟨rfl, rfl⟩, pure_eq_ok_iff.mpr ⟨rfl, rfl⟩⟩⟩, ?_⟩
    have hn : min bytes.length dst.length ≤ bytes.length := Nat.min_le_left ..
    show bytes.take dst.length = List.take (min bytes.length dst.length)
      ((m.buffer.extract _ (m.position + f.lengthSize + min bytes.length dst.length)).toList ++ _)
    rw [Buffer.extract_of_le he hn, List.take_append_of_le_length (by rw [List.length_take]; omega),
      List.take_take, Nat.min_self, List.take_eq_take_min, Nat.min_comm]

end DataFormat

end SimpleBinary
