import SimpleBinary.Proofs.Message.RoundTrip

/-!
# Encoding undoes decoding

Whatever bytes a buffer holds, if they can be read as a message whose elements are as long as the
schema says, then what was read is encoded as these bytes again: there is one way to write a message.
Decoding therefore shows that the buffer has the image of what was found (`Sections.exists_recovered`).
-/

namespace SimpleBinary

namespace Buffer
variable {b : Buffer} {offset : Nat} {bytes : Bytes}

theorem shows_nil (h : offset ≤ b.size) : b.Shows offset [] :=
  ⟨h, fun _ _ hi => by cases hi⟩

theorem shows_ofBytes {width : Nat} (h : b.window offset width = .ok bytes) : b.Shows offset (.ofBytes bytes) := by
  obtain ⟨hs, hl, hi⟩ := window_eq_ok_iff.mp h
  refine ⟨by rw [Image.length_ofBytes, hl]; exact hs, fun i byte hbyte => ?_⟩
  have hbyte' : bytes[i]? = some byte := by
    rw [← Image.getElem?_ofBytes, hbyte]
    rfl
  have hlt := (List.getElem?_eq_some_iff.mp hbyte').1
  rw [← hi i (hl ▸ hlt), hbyte']

theorem getElem?_stamp_of_shows {b' : Buffer} {image : Image} {i : Nat} (h : b.Shows offset image)
    (hs : offset + image.length ≤ b'.size)
    (hgaps : ∀ k, image[k]? = some none → b'[offset + k]? = b[offset + k]?) (ho : offset ≤ i)
    (hi : i < offset + image.length) : (b'.stamp offset image)[i]? = b[i]? := by
  obtain ⟨k, rfl⟩ := Nat.exists_eq_add_of_le ho
  have hk : k < image.length := by omega
  obtain ⟨x, hx⟩ : ∃ x, image[k]? = some x := ⟨_, List.getElem?_eq_getElem hk⟩
  cases x with
  | none => rw [getElem?_stamp_gap hx, hgaps k hx]
  | some byte => rw [h.2 k byte hx, (shows_stamp hs).2 k byte hx]

end Buffer

structure Message.Passed (m m' : Message) (image : Image) : Prop where
  shows : m.buffer.Shows m.position image
  past : m' = m.past image.length

namespace Message.Passed
variable {m m₁ m₂ : Message} {i j : Image}

theorem nil (h : m.position ≤ m.capacity) : m.Passed m [] := ⟨Buffer.shows_nil h, rfl⟩

theorem append (h : m.Passed m₁ i) (h' : m₁.Passed m₂ j) : m.Passed m₂ (i ++ j) := by
  obtain ⟨hi, rfl⟩ := h
  obtain ⟨hj, rfl⟩ := h'
  refine ⟨Buffer.shows_append.mpr ⟨hi, hj⟩, ?_⟩
  rw [Message.past_past, List.length_append]

theorem position_le (h : m.Passed m₁ i) : m₁.position ≤ m₁.capacity := by
  obtain ⟨hi, rfl⟩ := h
  exact hi.1

theorem actingVersion_eq (h : m.Passed m₁ i) : m₁.actingVersion = m.actingVersion := by
  obtain ⟨-, rfl⟩ := h
  rfl

end Message.Passed

/-! ## Dimensions and lengths -/

namespace UnsignedField
variable {f : UnsignedField} {base n : Nat} {b : Buffer}

theorem getElem?_of_byte? (h : f.read base b = .ok n) {i : Nat} {byte : UInt8} (hi : f.byte? n i = some byte) :
    b[base + i]? = some byte := by
  obtain ⟨hw, -⟩ := window_of_read h
  obtain ⟨-, -, hb⟩ := Buffer.window_eq_ok_iff.mp hw
  unfold byte? at hi
  split at hi
  · next ho =>
    have hlt := (List.getElem?_eq_some_iff.mp hi).1
    rw [ByteOrder.length_encode] at hlt
    rw [hb _ hlt] at hi
    rwa [show base + f.offset + (i - f.offset) = base + i by omega] at hi
  · cases hi

end UnsignedField

theorem Dimensions.shows_image {d : Dimensions} {base n k : Nat} {b : Buffer} (hs : base + d.size ≤ b.size)
    (hn : d.blockLength.read base b = .ok n) (hk : d.numInGroup.read base b = .ok k) :
    b.Shows base (d.image n k) := by
  refine ⟨by rw [Sections.length_dimensions_image]; exact hs, fun i byte hi => ?_⟩
  have hlt := (List.getElem?_eq_some_iff.mp hi).1
  rw [Sections.length_dimensions_image] at hlt
  rw [d.getElem?_image n k hlt, Option.some.injEq] at hi
  cases hb : d.blockLength.byte? n i with
  | some found =>
    rw [hb] at hi
    cases hi
    exact UnsignedField.getElem?_of_byte? hn hb
  | none =>
    rw [hb] at hi
    exact UnsignedField.getElem?_of_byte? hk hi

theorem Group.passed_of_decode {f : GroupFormat} {m m' : Message} {g : Group}
    (hv : m.actingVersion.includes f.since = true) (h : Group.decode f m = .ok g m') :
    g.blockLength ≤ f.dimensions.blockLength.width.max ∧ g.count ≤ f.dimensions.numInGroup.width.max ∧
      m.Passed m' (f.dimensions.image g.blockLength g.count) := by
  obtain ⟨hs, hn, hk, -, -, rfl⟩ := (decode_eq_ok_iff hv).mp h
  refine ⟨(UnsignedField.window_of_read hn).2, (UnsignedField.window_of_read hk).2,
    Dimensions.shows_image hs hn hk, ?_⟩
  rw [Sections.length_dimensions_image]

theorem Group.passed_of_next {g g' : Group} {m m' : Message} {bytes : Bytes} (h : g.next m = .ok g' m')
    (hb : m'.buffer.window g'.elementOffset g'.blockLength = .ok bytes) :
    g'.blockLength = g.blockLength ∧ bytes.length = g.blockLength ∧ m.Passed m' (.ofBytes bytes) := by
  obtain ⟨-, -, rfl, rfl⟩ := next_eq_ok_iff.mp h
  have hl : bytes.length = g.blockLength := Buffer.length_of_window hb
  refine ⟨rfl, hl, Buffer.shows_ofBytes hb, ?_⟩
  rw [Image.length_ofBytes, hl]
  rfl

theorem DataFormat.passed_of_read {f : DataFormat} {m m' : Message} {bytes : Bytes}
    (hv : m.actingVersion.includes f.since = true) (h : f.read m = .ok bytes m') :
    bytes.length ≤ f.length.max ∧ m.Passed m' (f.image bytes) := by
  obtain ⟨r, m₁, ht, hrest⟩ := bind_eq_ok_iff.mp h
  obtain ⟨raw, hw, hs, rfl, rfl⟩ := (take_eq_ok_iff hv).mp ht
  obtain ⟨_, _, hget, hrest⟩ := bind_eq_ok_iff.mp hrest
  cases hget
  obtain ⟨hbytes, rfl⟩ := pure_eq_ok_iff.mp hrest
  have hdata : m.buffer.window (m.position + f.lengthSize) (f.order.decode raw) = .ok bytes := by
    rw [hbytes]
    exact Buffer.window_eq_extract (by rw [Nat.add_assoc]; exact hs)
  have hl : raw.length = f.lengthSize := Buffer.length_of_window hw
  have hlength := Buffer.length_of_window hdata
  have hraw : f.order.encode f.lengthSize bytes.length = raw := by
    rw [hlength, ← hl]
    exact f.order.encode_decode raw
  refine ⟨?_, ?_, ?_⟩
  · rw [hlength]
    exact f.order.decode_le_max hl
  · rw [image, hraw, Image.ofBytes, List.map_append]
    refine Buffer.shows_append.mpr ⟨Buffer.shows_ofBytes hw, ?_⟩
    rw [List.length_map, hl]
    exact Buffer.shows_ofBytes hdata
  · rw [Sections.length_data_image, hlength]

/-! ## What was found is what is there -/

def Block.bytes (b : Block) (length : Nat) (buffer : Buffer) : Except AccessError Bytes := buffer.window b.base length

namespace Sections

def strides : Sections → Pass (List (Nat × Nat))
  | nil => return []
  | group f _ inner rest => do
    let g ← Group.decode f
    let nested ← g.collect (fun _ => inner.strides) g.count
    let others ← rest.strides
    return (f.blockLength, g.blockLength) :: (nested.flatten ++ others)
  | data f rest => do
    let _ ← f.read
    rest.strides

/-- Reading from `m` to `m'` found this content, and its image is what was there. -/
structure Recovered (s : Sections) (content : s.Content Fill) (found : s.Content fun _ => Bytes) (m m' : Message) :
    Prop where
  map_bytes : s.map (fun _ fill => fill.bytes) content = found
  fits : s.Fits content
  passed : m.Passed m' (s.image content)

end Sections

namespace Group
variable {α β : Type} {read : Group → Pass α} {read' : Group → Pass β} {g : Group} {m m' : Message}

theorem collect_succ_eq_ok_iff {k : Nat} {found : List α} : g.collect read (k + 1) m = .ok found m' ↔
    ∃ g' m₁ a m₂ rest, g.next m = .ok g' m₁ ∧ read g' m₁ = .ok a m₂ ∧ g'.collect read k m₂ = .ok rest m' ∧
      found = a :: rest := by
  rw [collect]
  simp only [bind_eq_ok_iff, pure_eq_ok_iff]
  constructor
  · rintro ⟨g', m₁, hn, a, m₂, ha, rest, _, hr, rfl, rfl⟩
    exact ⟨g', m₁, a, m₂, rest, hn, ha, hr, rfl⟩
  · rintro ⟨g', m₁, a, m₂, rest, hn, ha, hr, rfl⟩
    exact ⟨g', m₁, hn, a, m₂, ha, rest, m', hr, rfl, rfl⟩

theorem readElement_eq_ok_iff {look : Block → Nat → Buffer → Except AccessError α} {decode : Pass β} {a : α} {b : β} :
    readElement look decode g m = .ok (a, b) m' ↔
      look (g.element m.actingVersion) g.blockLength m.buffer = .ok a ∧ decode m = .ok b m' := by
  unfold readElement
  simp only [bind_eq_ok_iff, Pass.look_eq_ok_iff, pure_eq_ok_iff, Prod.mk.injEq]
  constructor
  · rintro ⟨_, _, ⟨ha, rfl⟩, _, _, hb, ⟨rfl, rfl⟩, rfl⟩
    exact ⟨ha, hb⟩
  · rintro ⟨ha, hb⟩
    exact ⟨a, m, ⟨ha, rfl⟩, b, m', hb, ⟨rfl, rfl⟩, rfl⟩

theorem exists_collect (h : ∀ g m a m', read g m = .ok a m' → ∃ b, read' g m = .ok b m') {k : Nat} {found : List α}
    (hc : g.collect read k m = .ok found m') : ∃ found', g.collect read' k m = .ok found' m' := by
  induction k generalizing g m found with
  | zero =>
    obtain ⟨-, rfl⟩ := pure_eq_ok_iff.mp hc
    exact ⟨[], rfl⟩
  | succ k ih =>
    obtain ⟨g', m₁, a, m₂, rest, hn, ha, hr, -⟩ := collect_succ_eq_ok_iff.mp hc
    obtain ⟨b, hb⟩ := h g' m₁ a m₂ ha
    obtain ⟨rest', hr'⟩ := ih hr
    exact ⟨b :: rest', collect_succ_eq_ok_iff.mpr ⟨g', m₁, b, m₂, rest', hn, hb, hr', rfl⟩⟩

end Group

namespace Sections

theorem exists_strides : ∀ (s : Sections) {m m' : Message} {found : s.Content fun _ => Bytes},
    s.decode Block.bytes (fun _ => none) m = .ok found m' → ∃ lengths, s.strides m = .ok lengths m'
  | nil, m, m', found, h => by
    obtain ⟨-, rfl⟩ := pure_eq_ok_iff.mp h
    exact ⟨[], rfl⟩
  | group f wf inner rest, m, m', found, h => by
    obtain ⟨g, m₁, hg, h⟩ := bind_eq_ok_iff.mp h
    obtain ⟨elements, m₂, he, h⟩ := bind_eq_ok_iff.mp h
    obtain ⟨others, m₃, ho, h⟩ := bind_eq_ok_iff.mp h
    obtain ⟨-, rfl⟩ := pure_eq_ok_iff.mp h
    obtain ⟨nested, hn⟩ := Group.exists_collect (fun g m a m' ha =>
      exists_strides inner (Group.readElement_eq_ok_iff.mp ha).2) he
    obtain ⟨lengths, hl⟩ := exists_strides rest ho
    exact ⟨_, bind_eq_ok_iff.mpr ⟨g, m₁, hg, bind_eq_ok_iff.mpr ⟨nested, m₂, hn,
      bind_eq_ok_iff.mpr ⟨lengths, m', hl, rfl⟩⟩⟩⟩
  | data f rest, m, m', found, h => by
    obtain ⟨bytes, m₁, hb, h⟩ := bind_eq_ok_iff.mp h
    obtain ⟨others, m₂, ho, h⟩ := bind_eq_ok_iff.mp h
    obtain ⟨-, rfl⟩ := pure_eq_ok_iff.mp h
    obtain ⟨lengths, hl⟩ := exists_strides rest ho
    exact ⟨lengths, bind_eq_ok_iff.mpr ⟨bytes, m₁, hb, hl⟩⟩

end Sections

theorem Group.recovered_collect {n : Nat} {inner : Sections} {v : Version}
    (hinner : ∀ {m m' found lengths}, m.position ≤ m.capacity → m.actingVersion = v →
      inner.decode Block.bytes (fun _ => none) m = .ok found m' → inner.strides m = .ok lengths m' →
      (∀ l ∈ lengths, l.1 = l.2) → ∃ content, inner.Recovered content found m m') :
    ∀ (k : Nat) (g : Group) {m m' : Message} {found : List (Bytes × inner.Content fun _ => Bytes)}
      {nested : List (List (Nat × Nat))}, m.position ≤ m.capacity → m.actingVersion = v → g.blockLength = n →
      g.collect (readElement Block.bytes (inner.decode Block.bytes fun _ => none)) k m = .ok found m' →
      g.collect (fun _ => inner.strides) k m = .ok nested m' → (∀ l ∈ nested.flatten, l.1 = l.2) →
      ∃ elements : List (Fill n × inner.Content Fill),
        elements.map (fun e => (e.1.bytes, inner.map (fun _ fill => fill.bytes) e.2)) = found ∧
          elements.length = k ∧ (∀ e ∈ elements, inner.Fits e.2) ∧
          m.Passed m' (elements.flatMap fun e => Image.ofBytes e.1.bytes ++ inner.image e.2)
  | 0, g, m, m', found, nested, hm, _, _, hc, _, _ => by
    obtain ⟨rfl, rfl⟩ := pure_eq_ok_iff.mp hc
    exact ⟨[], rfl, rfl, by simp, .nil hm⟩
  | k + 1, g, m, m', found, nested, hm, hv, hn, hc, hs, heq => by
    obtain ⟨g', m₁, ⟨bytes, below⟩, m₂, rest, hnext, hread, hrest, rfl⟩ := collect_succ_eq_ok_iff.mp hc
    obtain ⟨hbytes, hbelow⟩ := readElement_eq_ok_iff.mp hread
    -- the other pass goes the same way
    obtain ⟨g'', m₁', lengths, m₂', nested', hnext', hlengths, hnested, rfl⟩ := collect_succ_eq_ok_iff.mp hs
    cases hnext.symm.trans hnext'
    obtain ⟨lengths', hl⟩ := inner.exists_strides hbelow
    cases hl.symm.trans hlengths
    rw [List.flatten_cons, List.forall_mem_append] at heq
    obtain ⟨hlength, hlbytes, hpassed⟩ := passed_of_next hnext hbytes
    obtain ⟨fill, rfl⟩ : ∃ fill : Fill n, fill.bytes = bytes :=
      ⟨.ofLength bytes (hlbytes.trans hn), Fill.bytes_ofLength ..⟩
    obtain ⟨content, hcontent⟩ := hinner hpassed.position_le (hpassed.actingVersion_eq.trans hv) hbelow hlengths heq.1
    have hpassed' := hpassed.append hcontent.passed
    obtain ⟨elements, hmap, hcount, hfits, hpassed''⟩ := recovered_collect hinner k g' hpassed'.position_le
      (hpassed'.actingVersion_eq.trans hv) (hlength.trans hn) hrest hnested heq.2
    refine ⟨(fill, content) :: elements, ?_, ?_, ?_, ?_⟩
    · rw [List.map_cons, hmap, hcontent.map_bytes]
    · rw [List.length_cons, hcount]
    · rw [List.forall_mem_cons]
      exact ⟨hcontent.fits, hfits⟩
    · rw [List.flatMap_cons]
      exact hpassed'.append hpassed''

theorem Sections.exists_recovered {v : Version} : ∀ (s : Sections) {m m' : Message} {found : s.Content fun _ => Bytes}
    {lengths : List (Nat × Nat)}, s.NoneNewer v → m.position ≤ m.capacity → m.actingVersion = v →
      s.decode Block.bytes (fun _ => none) m = .ok found m' → s.strides m = .ok lengths m' →
      (∀ l ∈ lengths, l.1 = l.2) → ∃ content, s.Recovered content found m m'
  | nil, m, m', found, lengths, _, hm, _, hd, _, _ => by
    obtain ⟨-, rfl⟩ := pure_eq_ok_iff.mp hd
    exact ⟨(), rfl, trivial, .nil hm⟩
  | group f wf inner rest, m, m', found, lengths, hnew, hm, hv, hd, hs, heq => by
    obtain ⟨hsince, hinner, hrest⟩ := hnew
    have hv' : m.actingVersion.includes f.since = true := hv ▸ Version.includes_iff.mpr hsince
    obtain ⟨g, m₁, hg, hd₁⟩ := bind_eq_ok_iff.mp hd
    obtain ⟨elements, m₂, he, hd₂⟩ := bind_eq_ok_iff.mp hd₁
    obtain ⟨others, m₃, ho, hd₃⟩ := bind_eq_ok_iff.mp hd₂
    obtain ⟨rfl, rfl⟩ := pure_eq_ok_iff.mp hd₃
    obtain ⟨g', m₁', hg', hs₁⟩ := bind_eq_ok_iff.mp hs
    cases hg.symm.trans hg'
    obtain ⟨nested, m₂', hn, hs₂⟩ := bind_eq_ok_iff.mp hs₁
    obtain ⟨nested', hn'⟩ := Group.exists_collect (fun g m a m' ha =>
      inner.exists_strides (Group.readElement_eq_ok_iff.mp ha).2) he
    cases hn'.symm.trans hn
    obtain ⟨lengths', m₃', hl, hs₃⟩ := bind_eq_ok_iff.mp hs₂
    obtain ⟨rfl, rfl⟩ := pure_eq_ok_iff.mp hs₃
    rw [List.forall_mem_cons, List.forall_mem_append] at heq
    obtain ⟨hlength, hnested, hothers⟩ := heq
    obtain ⟨hb, hc, hpassed⟩ := Group.passed_of_decode hv' hg
    rw [← show f.blockLength = g.blockLength from hlength] at hb hpassed
    obtain ⟨fills, hmap, hcount, hfits, hpassed'⟩ := Group.recovered_collect
      (fun hm hv hd hs heq => exists_recovered inner hinner hm hv hd hs heq) g.count g hpassed.position_le
      (hpassed.actingVersion_eq.trans hv) hlength.symm he hn hnested
    have hgroup := hpassed.append hpassed'
    obtain ⟨content, hcontent⟩ := exists_recovered rest hrest hgroup.position_le (hgroup.actingVersion_eq.trans hv)
      ho hl hothers
    refine ⟨(fills, content), ?_, ?_, ?_⟩
    · rw [← hmap, ← hcontent.map_bytes]
      rfl
    · exact ⟨hcount ▸ hc, hb, hfits, hcontent.fits⟩
    · rw [image, hcount]
      exact hgroup.append hcontent.passed
  | data f rest, m, m', found, lengths, hnew, hm, hv, hd, hs, heq => by
    obtain ⟨hsince, hrest⟩ := hnew
    have hv' : m.actingVersion.includes f.since = true := hv ▸ Version.includes_iff.mpr hsince
    obtain ⟨bytes, m₁, hb, hd₁⟩ := bind_eq_ok_iff.mp hd
    obtain ⟨others, m₂, ho, hd₂⟩ := bind_eq_ok_iff.mp hd₁
    obtain ⟨rfl, rfl⟩ := pure_eq_ok_iff.mp hd₂
    obtain ⟨bytes', m₁', hb', hl⟩ := bind_eq_ok_iff.mp hs
    cases hb.symm.trans hb'
    obtain ⟨hfit, hpassed⟩ := DataFormat.passed_of_read hv' hb
    obtain ⟨content, hcontent⟩ := exists_recovered rest hrest hpassed.position_le (hpassed.actingVersion_eq.trans hv)
      ho hl heq
    refine ⟨(bytes, content), ?_, ⟨hfit, hcontent.fits⟩, hpassed.append hcontent.passed⟩
    rw [← hcontent.map_bytes]
    rfl

/-! ## Messages -/

namespace Sections

theorem elements_congr {n : Nat} {inner : Sections}
    (h : ∀ {content other : inner.Content Fill},
      inner.map (fun _ fill => fill.bytes) content = inner.map (fun _ fill => fill.bytes) other →
        inner.image content = inner.image other ∧ (inner.Fits content → inner.Fits other)) :
    ∀ {elements others : List (Fill n × inner.Content Fill)},
      elements.map (fun e => (e.1.bytes, inner.map (fun _ fill => fill.bytes) e.2)) =
        others.map (fun e => (e.1.bytes, inner.map (fun _ fill => fill.bytes) e.2)) →
      (elements.flatMap fun e => Image.ofBytes e.1.bytes ++ inner.image e.2) =
          (others.flatMap fun e => Image.ofBytes e.1.bytes ++ inner.image e.2) ∧
        ((∀ e ∈ elements, inner.Fits e.2) → ∀ e ∈ others, inner.Fits e.2)
  | [], [], _ => ⟨rfl, fun _ e he => nomatch he⟩
  | [], _ :: _, hmap | _ :: _, [], hmap => by cases hmap
  | (fill, content) :: elements, (fill', other) :: others, hmap => by
    obtain ⟨hhead, htail⟩ := List.cons.inj hmap
    obtain ⟨hbytes, hcontent⟩ := Prod.mk.inj hhead
    obtain ⟨hi, hf⟩ := h hcontent
    obtain ⟨his, hfs⟩ := elements_congr h htail
    constructor
    · rw [List.flatMap_cons, List.flatMap_cons, hbytes, hi, his]
    · rw [List.forall_mem_cons, List.forall_mem_cons]
      exact fun hall => ⟨hf hall.1, hfs hall.2⟩

theorem image_congr : ∀ (s : Sections) {content other : s.Content Fill},
    s.map (fun _ fill => fill.bytes) content = s.map (fun _ fill => fill.bytes) other →
      s.image content = s.image other ∧ (s.Fits content → s.Fits other)
  | nil, _, _, _ => ⟨rfl, id⟩
  | group f wf inner rest, (elements, content), (elements', other), h => by
    obtain ⟨helements, hrest⟩ := Prod.mk.inj h
    have hcount : elements.length = elements'.length := by simpa using congrArg List.length helements
    obtain ⟨hi, hf⟩ := elements_congr (image_congr inner) helements
    obtain ⟨hri, hrf⟩ := image_congr rest hrest
    rw [image, image, hi, hri, hcount]
    refine ⟨rfl, fun h => ⟨hcount ▸ h.1, h.2.1, hf h.2.2.1, hrf h.2.2.2⟩⟩
  | data f rest, (bytes, content), (bytes', other), h => by
    obtain ⟨rfl, hrest⟩ := Prod.mk.inj h
    obtain ⟨hi, hf⟩ := image_congr rest hrest
    rw [image, image, hi]
    exact ⟨rfl, fun h => ⟨h.1, hf h.2⟩⟩

end Sections

namespace Message

/-- The element lengths that the message gives, each with the schema's. -/
def strides (s : Sections) (offset blockLength : Nat) (version : Version) : Pass (List (Nat × Nat)) := do
  startDecode offset blockLength version
  s.strides

/-- What a whole message was decoded to can be written, and over the same padding that gives the bytes it was
decoded from. -/
theorem encode_undoes_decode {d d' : Message} {s : Sections} {offset : Nat} {bytes : Bytes}
    {found : s.Content fun _ => Bytes} (hnew : s.NoneNewer d.template.version)
    (hd : decode Block.bytes (fun _ => none) s offset d.template.blockLength.toNat d.template.version d =
      .ok (bytes, found) d')
    (hstrides : ∀ lengths t, strides s offset d.template.blockLength.toNat d.template.version d = .ok lengths t →
      ∀ l ∈ lengths, l.1 = l.2) :
    (∃ (root : Fill d.template.blockLength.toNat) (content : s.Content Fill),
      root.bytes = bytes ∧ s.map (fun _ fill => fill.bytes) content = found) ∧
    ∀ (root : Fill d.template.blockLength.toNat) (content : s.Content Fill), root.bytes = bytes →
      s.map (fun _ fill => fill.bytes) content = found → ∀ m : Message, m.template = d.template →
        d'.position ≤ m.capacity →
        (∀ i, (Image.ofBytes root.bytes ++ s.image content)[i]? = some none →
          m.buffer[offset + i]? = d.buffer[offset + i]?) →
        ∃ m', encode s root content offset m = .ok () m' ∧ m'.position = d'.position ∧
          ∀ i, offset ≤ i → i < d'.position → m'.buffer[i]? = d.buffer[i]? := by
  obtain ⟨_, t, hstart, hd₁⟩ := bind_eq_ok_iff.mp hd
  obtain ⟨hroot, rfl⟩ := start_eq_ok_iff.mp hstart
  obtain ⟨a, t, hlook, hd₂⟩ := bind_eq_ok_iff.mp hd₁
  obtain ⟨hbytes, rfl⟩ := Pass.look_eq_ok_iff.mp hlook
  obtain ⟨found', t, hsections, hd₃⟩ := bind_eq_ok_iff.mp hd₂
  obtain ⟨hfound, rfl⟩ := pure_eq_ok_iff.mp hd₃
  cases hfound
  obtain ⟨lengths, hl⟩ := s.exists_strides hsections
  have heq := hstrides lengths _ (bind_eq_ok_iff.mpr ⟨(), _, hstart, hl⟩)
  obtain ⟨content₀, hrecovered⟩ := s.exists_recovered hnew hroot rfl hsections hl heq
  have hlength : bytes.length = d.template.blockLength.toNat := Buffer.length_of_window hbytes
  constructor
  · exact ⟨.ofLength bytes hlength, content₀, Fill.bytes_ofLength .., hrecovered.map_bytes⟩
  · rintro root content rfl hmap ⟨buffer, template, _, _, _, _⟩ rfl hc hgaps
    obtain ⟨himage, hfits⟩ := s.image_congr (hrecovered.map_bytes.trans hmap.symm)
    have hblock : (d.begun offset).Passed (d.started offset d.template.blockLength.toNat d.template.version)
        (.ofBytes root.bytes) := by
      refine ⟨Buffer.shows_ofBytes hbytes, ?_⟩
      rw [Image.length_ofBytes, root.length_bytes]
      rfl
    have hpassed := hblock.append hrecovered.passed
    rw [himage] at hpassed
    have hend : d'.position = offset + (Image.ofBytes root.bytes ++ s.image content).length :=
      congrArg Message.position hpassed.past
    have htotal : (Image.ofBytes root.bytes ++ s.image content).length =
        d.template.blockLength.toNat + s.size content := by
      rw [List.length_append, Image.length_ofBytes, root.length_bytes, s.length_image]
    rw [hend] at hc
    refine ⟨_, encode_eq_ok_iff.mpr ⟨hfits hrecovered.fits, by rw [← htotal]; exact hc, rfl⟩, hend.symm, ?_⟩
    intro i ho hi
    exact Buffer.getElem?_stamp_of_shows hpassed.shows hc hgaps ho (hend ▸ hi)

def looseDimensions : Dimensions where
  blockLength := ⟨0, .w8, .little⟩
  numInGroup := ⟨2, .w8, .little⟩
  size := 4

def looseSections : Sections :=
  .group { blockLength := 1, dimensions := looseDimensions } ⟨by decide, by decide, by decide⟩
    (.data { length := .w8 } .nil) .nil

def looseContent : looseSections.Content Fill := ([(.ofValue (.unsigned .w8) .little 6, [3, 4], ())], ())

def looseMessage : Message := .ofBuffer { blockLength := 1 } #[9, 5, 1, 77, 1, 88, 6, 2, 3, 4, 0]

theorem encode_undoes_decode_loose :
    ∃ m', encode looseSections (.ofValue (.unsigned .w8) .little 5) looseContent 1
        (.ofBuffer { blockLength := 1 } #[0, 0, 0, 77, 0, 88, 0, 0, 0, 0]) = .ok () m' ∧
      m'.position = 10 ∧ ∀ i, 1 ≤ i → i < 10 → m'.buffer[i]? = looseMessage.buffer[i]? := by
  have hdecode : decode Block.bytes (fun _ => none) looseSections 1 1 0 looseMessage =
      .ok ([5], [([6], [3, 4], ())], ()) { looseMessage.started 1 1 0 with position := 10 } := rfl
  have hstrides : strides looseSections 1 1 0 looseMessage =
      .ok [(1, 1)] { looseMessage.started 1 1 0 with position := 10 } := rfl
  have hgaps : ∀ i < 9,
      (Image.ofBytes [5] ++ looseSections.image looseContent)[i]? = some none →
        (#[0, 0, 0, 77, 0, 88, 0, 0, 0, 0] : Buffer)[1 + i]? = looseMessage.buffer[1 + i]? := by decide +kernel
  have hnew : looseSections.NoneNewer looseMessage.template.version := ⟨by decide, ⟨by decide, trivial⟩, trivial⟩
  refine (encode_undoes_decode hnew hdecode ?_).2
    (.ofValue (.unsigned .w8) .little 5) looseContent rfl rfl
    (.ofBuffer { blockLength := 1 } #[0, 0, 0, 77, 0, 88, 0, 0, 0, 0]) rfl (by decide) ?_
  · intro lengths t h
    cases hstrides.symm.trans h
    decide
  · intro i hi
    exact hgaps i (List.getElem?_eq_some_iff.mp hi).1 hi

end Message

end SimpleBinary
