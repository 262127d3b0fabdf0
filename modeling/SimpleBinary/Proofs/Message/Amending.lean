import SimpleBinary.Proofs.Block.Update
import SimpleBinary.Proofs.Message.Evolution

/-!
# Messages written over others

Not every encoder writes all of a block: padding is left alone, and in a bit set one bit may be all that
is set. What is in such a block in the end depends on what was there, and on no byte in front of it. So
to write over a buffer is to encode the blocks as they come out over it (`amend_eq_encode`): it succeeds
where that does, with the same image (`amend_eq_ok_iff`), and a reader finds them so (`amend_then_decode`).
-/

namespace SimpleBinary

/-! ## Writes in a block -/

namespace Put
variable {n : Nat} {a : Access} {p : Put} {old : Buffer}

/-- The composites on the path and the field lie one in the other, and all in `n` bytes. -/
def WithinFrom (n : Nat) (a : Access) : Nat → List CompositeField → Prop
  | base, [] => ∃ u, a.update? = some u ∧ base + u.offset + u.width ≤ n
  | base, f :: path => base + f.offset + f.size ≤ n ∧ WithinFrom n a (base + f.offset) path

def Within (n : Nat) (p : Put) : Prop := WithinFrom n p.access 0 p.path

theorem exists_written : ∀ (path : List CompositeField) (base : Nat), WithinFrom old.size a base path →
    ∃ written : Buffer, written.size = old.size ∧
      ∀ version, perform ⟨base, version⟩ ⟨path, a⟩ old = .ok .done written
  | [], base, h => by
    obtain ⟨u, hu, hle⟩ := h
    let raw := (old.extract (base + u.offset) (base + u.offset + u.width)).toList
    have hwindow : old.window (base + u.offset) u.width = .ok raw := Buffer.window_eq_extract hle
    refine ⟨old.patch (base + u.offset) (u.rewrite raw), Buffer.size_patch .., fun version => ?_⟩
    have hreach : Edit.look (Block.reach ⟨base, version⟩ []) old = .ok ⟨base, version⟩ old := rfl
    refine (bind_of_ok hreach).trans ?_
    rw [Access.perform_eq_update hu]
    exact Update.perform_of_window hwindow
  | f :: path, base, h => by
    obtain ⟨hle, hrest⟩ := h
    obtain ⟨written, hsize, hwritten⟩ := exists_written path (base + f.offset) hrest
    refine ⟨written, hsize, fun version => ?_⟩
    obtain ⟨c, t, hc, ha⟩ := bind_eq_ok_iff.mp (hwritten version)
    obtain ⟨hc, rfl⟩ := Edit.look_eq_ok_iff.mp hc
    have hreach : Block.reach ⟨base, version⟩ (f :: path) t = .ok c := by
      unfold Block.reach
      rw [Block.enter_eq_ok hle]
      exact hc
    exact bind_eq_ok_iff.mpr ⟨c, t, Edit.look_eq_ok_iff.mpr ⟨hreach, rfl⟩, ha⟩

theorem exists_writtenAll (puts : List Put) (h : ∀ p ∈ puts, p.Within n) (hs : old.size = n) :
    ∃ written : Buffer, ∀ version, performAll ⟨0, version⟩ puts old = .ok () written := by
  induction puts generalizing old with
  | nil => exact ⟨old, fun _ => rfl⟩
  | cons p puts ih =>
    have hp : WithinFrom old.size p.access 0 p.path := hs ▸ h p List.mem_cons_self
    obtain ⟨t, hsize, ht⟩ := exists_written p.path 0 hp
    obtain ⟨written, hwritten⟩ := ih (fun q hq => h q (List.mem_cons_of_mem _ hq)) (hsize.trans hs)
    exact ⟨written, fun version => bind_eq_ok_iff.mpr ⟨.done, t, ht version, hwritten version⟩⟩

end Put

namespace Amendment
variable {n : Nat}

def ofPuts (puts : List Put) (h : ∀ p ∈ puts, p.Within n) : Amendment n where
  puts := puts
  amend old := (final (Put.performAll ⟨0, 0⟩ puts old.toArray)).toList
  amends version old hs := by
    obtain ⟨written, hwritten⟩ := Put.exists_writtenAll puts h hs
    rw [hwritten version, Array.toArray_toList, hwritten 0]
    rfl

/-- Of three bytes the first has one of its bits set, the last is written, and between them is padding. -/
def badge : Amendment 3 :=
  let flags : BitSetField .w8 := { offset := 0 }
  let level : Field (.unsigned .w8) := { offset := 2 }
  .ofPuts [{ access := .putChoice flags { bit := 0 } true }, { access := .put level (7 : BitVec 8) }] fun p hp => by
    rcases List.mem_cons.mp hp with rfl | hp
    · exact ⟨_, rfl, by decide⟩
    · obtain rfl := List.mem_singleton.mp hp
      exact ⟨_, rfl, by decide⟩

example : badge.amend [0xf0, 9, 9] = [0xf1, 9, 7] := by decide

end Amendment

/-! ## Blocks over a buffer -/

namespace Buffer
variable {b b' : Buffer} {base n : Nat}

/-- The `n` bytes from `base` on, with zeros behind the end. -/
def held (b : Buffer) (base n : Nat) : Bytes := (List.range n).map fun i => b[base + i]?.getD 0

theorem length_held : (b.held base n).length = n := by
  rw [held, List.length_map, List.length_range]

theorem extract_eq_held (h : base + n ≤ b.size) : (b.extract base (base + n)).toList = b.held base n := by
  apply List.ext_getElem?
  intro i
  rw [Array.getElem?_toList, Array.getElem?_extract, held, List.getElem?_map]
  by_cases hi : i < n
  · rw [if_pos (by omega), List.getElem?_range hi, Option.map_some, Array.getElem?_eq_getElem (by omega)]
    rfl
  · rw [if_neg (by omega), List.getElem?_eq_none (by rw [List.length_range]; omega)]
    rfl

theorem SameOn.held (h : b.SameOn (base ≤ ·) b') : b'.held base n = b.held base n :=
  List.map_congr_left fun i _ => by rw [h.same (base + i) (Nat.le_add_right ..)]

end Buffer

/-- What is behind a block is not written. -/
theorem Fill.sameOn_patch {n base position : Nat} (fill : Fill n) (b : Buffer) (h : base + n ≤ position) :
    b.SameOn (position ≤ ·) (b.patch base fill.bytes) := by
  refine b.sameOn_patch fun i _ hi hle => ?_
  rw [fill.length_bytes] at hi
  exact Nat.not_lt.mpr hle (Nat.lt_of_lt_of_le hi h)

namespace Amendment
variable {n : Nat} {b b' : Buffer} {base : Nat}

def settle (a : Amendment n) (b : Buffer) (base : Nat) : Fill n :=
  .ofLength (a.amend (b.held base n)) (a.length_amend Buffer.length_held)

@[simp] theorem bytes_settle (a : Amendment n) : (a.settle b base).bytes = a.amend (b.held base n) := Fill.bytes_ofLength ..

theorem settle_congr (a : Amendment n) (h : b.SameOn (base ≤ ·) b') : a.settle b' base = a.settle b base := by
  unfold settle
  simp only [h.held]

theorem writeAll_settle (a : Amendment n) (block : Message → Block) {m : Message} (h : (block m).base + n ≤ m.capacity) :
    Put.writeAll a.puts block m = Put.writeAll (a.settle m.buffer (block m).base).puts block m := by
  have hfill : Put.writeAll (a.settle m.buffer (block m).base).puts block m = .ok () _ :=
    (Fill.write_eq_ok_iff _ h).mpr rfl
  have hperform := a.performAll_puts (block m).version h
  rw [Buffer.extract_eq_held h] at hperform
  rw [hfill, bytes_settle]
  refine bind_eq_ok_iff.mpr ⟨m, m, get_eq_ok_iff.mpr ⟨rfl, rfl⟩, ?_⟩
  exact Pass.edit_eq_ok_iff.mpr ⟨_, hperform, rfl⟩

end Amendment

namespace Sections
variable {n : Nat} {γ δ : Type} {b b' : Buffer} {position : Nat}

def amend (s : Sections) (content : s.Content Amendment) : Pass Unit := s.encodeWith (fun _ a => a.puts) content

def settleEach (b : Buffer) (size : γ → Nat) (settle : γ → Nat → δ) : List (Amendment n × γ) → Nat → List (Fill n × δ)
  | [], _ => []
  | e :: rest, position =>
    (e.1.settle b position, settle e.2 (position + n)) :: settleEach b size settle rest (position + (n + size e.2))

/-- The blocks as they come out over the buffer, from `position` on. -/
def settle (b : Buffer) : (s : Sections) → s.Content Amendment → Nat → s.Content Fill
  | nil, _, _ => ()
  | group f _ inner rest, (elements, content), position =>
    let first := position + f.dimensions.size
    let size := elements.foldr (fun e n => f.blockLength + inner.size e.2 + n) 0
    (settleEach b inner.size (inner.settle b) elements first, rest.settle b content (first + size))
  | data f rest, (bytes, content), position => (bytes, rest.settle b content (position + (f.lengthSize + bytes.length)))

section
variable {size : γ → Nat} {settle : γ → Nat → δ}

theorem length_settleEach : ∀ (elements : List (Amendment n × γ)) {position : Nat},
    (settleEach b size settle elements position).length = elements.length
  | [], _ => rfl
  | e :: rest, position => by
    rw [settleEach, List.length_cons, length_settleEach rest, List.length_cons]

theorem foldr_settleEach {k : Nat} {size' : δ → Nat} (h : ∀ c position, size' (settle c position) = size c) :
    ∀ (elements : List (Amendment n × γ)) {position : Nat},
      (settleEach b size settle elements position).foldr (fun e rest => k + size' e.2 + rest) 0 =
        elements.foldr (fun e rest => k + size e.2 + rest) 0
  | [], _ => rfl
  | e :: rest, position => by
    rw [settleEach, List.foldr_cons, h, foldr_settleEach h rest, List.foldr_cons]

theorem forall_settleEach {fits : δ → Prop} {fits' : γ → Prop} (h : ∀ c position, fits (settle c position) ↔ fits' c) :
    ∀ (elements : List (Amendment n × γ)) {position : Nat},
      (∀ e ∈ settleEach b size settle elements position, fits e.2) ↔ ∀ e ∈ elements, fits' e.2
  | [], _ => by rw [settleEach]; exact ⟨nofun, nofun⟩
  | e :: rest, position => by
    rw [settleEach, List.forall_mem_cons, h, forall_settleEach h rest, List.forall_mem_cons]

end

theorem size_settle : ∀ (s : Sections) (content : s.Content Amendment) (position : Nat),
    s.size (s.settle b content position) = s.size content
  | nil, _, _ => rfl
  | group f wf inner rest, (elements, content), position => by
    rw [settle, size, size, rest.size_settle, foldr_settleEach inner.size_settle]
  | data f rest, (bytes, content), position => by
    rw [settle, size, size, rest.size_settle]

theorem fits_settle : ∀ (s : Sections) (content : s.Content Amendment) (position : Nat),
    s.Fits (s.settle b content position) ↔ s.Fits content
  | nil, _, _ => Iff.rfl
  | group f wf inner rest, (elements, content), position => by
    rw [settle, Fits, Fits, length_settleEach, forall_settleEach inner.fits_settle, rest.fits_settle]
  | data f rest, (bytes, content), position => by
    rw [settle, Fits, Fits, rest.fits_settle]

theorem settleEach_congr {inner : Sections} (hinner : ∀ (content : inner.Content Amendment) {position : Nat},
      b.SameOn (position ≤ ·) b' → inner.settle b' content position = inner.settle b content position) :
    ∀ (elements : List (Amendment n × inner.Content Amendment)) {position : Nat}, b.SameOn (position ≤ ·) b' →
      settleEach b' inner.size (inner.settle b') elements position =
        settleEach b inner.size (inner.settle b) elements position
  | [], _, _ => rfl
  | e :: rest, position, h => by
    rw [settleEach, e.1.settle_congr h, hinner e.2 (h.mono fun i hi => by omega),
      settleEach_congr hinner rest (h.mono fun i hi => by omega), settleEach]

theorem settle_congr : ∀ (s : Sections) (content : s.Content Amendment) {position : Nat},
    b.SameOn (position ≤ ·) b' → s.settle b' content position = s.settle b content position
  | nil, _, _, _ => rfl
  | group f wf inner rest, (elements, content), position, h => by
    have hfirst : b.SameOn (position + f.dimensions.size ≤ ·) b' := h.mono fun i hi => by omega
    rw [settle, settleEach_congr inner.settle_congr elements hfirst, rest.settle_congr content (h.mono fun i hi => by omega), settle]
  | data f rest, (bytes, content), position, h => by
    rw [settle, settle, rest.settle_congr content (h.mono fun i hi => by omega)]

end Sections

/-! ## The pass -/

/-- From `m` to `m'` nothing is written at the cursor or behind it. -/
structure Message.Trails (m m' : Message) : Prop where
  position_le : m'.position ≤ m'.capacity
  ahead : m.buffer.SameOn (m'.position ≤ ·) m'.buffer

theorem Message.Trails.trans {m m₁ m₂ : Message} (h : m.Trails m₁) (h' : m₁.Trails m₂) (hp : m₁.position ≤ m₂.position) :
    m.Trails m₂ :=
  ⟨h'.position_le, trans_of (Buffer.SameOn _) (h.ahead.mono fun _ hi => Nat.le_trans hp hi) h'.ahead⟩

theorem Pass.Writes.trails {α : Type} {p : Pass α} {ok : Prop} {image : Image} {answer : Message → α} {m m' : Message}
    {a : α} (h : p.Writes ok image answer) (hm : m.position ≤ m.capacity) (hp : p m = .ok a m') :
    m.Trails m' ∧ m'.position = m.position + image.length := by
  obtain ⟨-, hc, -, rfl⟩ := (h hm a m').mp hp
  rw [← m.position_written image] at hc
  rw [← m.capacity_written image] at hc
  exact ⟨⟨hc, Buffer.size_stamp .., fun _ hi => Buffer.getElem?_stamp_of_ge hi⟩, rfl⟩

namespace Group
variable {n : Nat} {inner : Sections} {g : Group} {m m' : Message}

theorem trails_element {fill : Fill n} {content : inner.Content Fill} (hp : g.elementOffset + n = m.position)
    (hm : m.position ≤ m.capacity) (h : writeElement (·.puts) inner.encode g (fill, content) m = .ok () m') :
    m.Trails m' ∧ m'.position = m.position + inner.size content := by
  obtain ⟨_, t, hblock, hcontent⟩ := bind_eq_ok_iff.mp h
  have hfill : (g.element m.actingVersion).base + n ≤ m.capacity := hp ▸ hm
  obtain rfl := (fill.write_eq_ok_iff hfill).mp hblock
  have ht : m.Trails { m with buffer := m.buffer.patch g.elementOffset fill.bytes } :=
    ⟨by rwa [Message.capacity, Buffer.size_patch], fill.sameOn_patch m.buffer (Nat.le_of_eq hp)⟩
  obtain ⟨ht', hp'⟩ := (inner.writes_encode content).trails ht.position_le hcontent
  rw [inner.length_image] at hp'
  exact ⟨ht.trans ht' (by rw [hp']; exact Nat.le_add_right ..), hp'⟩

variable (hinner : ∀ (content : inner.Content Amendment) {m : Message}, m.position ≤ m.capacity →
  inner.amend content m = inner.encode (inner.settle m.buffer content m.position) m)
include hinner

theorem writeElement_amend (a : Amendment n) (content : inner.Content Amendment) (hp : g.elementOffset + n = m.position)
    (hm : m.position ≤ m.capacity) : writeElement (·.puts) inner.amend g (a, content) m =
      writeElement (·.puts) inner.encode g
        (a.settle m.buffer g.elementOffset, inner.settle m.buffer content m.position) m := by
  have hs : (g.element m.actingVersion).base + n ≤ m.capacity := hp ▸ hm
  refine bind_congr_ok (a.writeAll_settle (fun m => g.element m.actingVersion) hs) fun _ t hblock => ?_
  obtain rfl := (Fill.write_eq_ok_iff _ hs).mp hblock
  rw [hinner content (by rwa [Message.capacity, Buffer.size_patch])]
  exact congrArg (fun c => inner.encode c _)
    (inner.settle_congr content (Fill.sameOn_patch _ m.buffer (Nat.le_of_eq hp)))

theorem each_amend : ∀ (elements : List (Amendment n × inner.Content Amendment)) {g : Group} {m : Message},
    g.blockLength = n → m.position ≤ m.capacity → g.each (writeElement (·.puts) inner.amend) elements m =
      g.each (writeElement (·.puts) inner.encode)
        (Sections.settleEach m.buffer inner.size (inner.settle m.buffer) elements m.position) m
  | [], _, _, _, _ => rfl
  | (a, content) :: rest, g, m, hn, hm => by
    refine bind_congr_ok rfl fun g' t hnext => ?_
    obtain ⟨-, hs, rfl, rfl⟩ := next_eq_ok_iff.mp hnext
    have hp : m.position + n = m.position + g.blockLength := by rw [hn]
    rw [hp]
    refine bind_congr_ok (writeElement_amend hinner a content hp hs) fun _ t helement => ?_
    obtain ⟨ht, hp'⟩ := trails_element hp hs helement
    -- the elements to come lie behind the cursor, where nothing has been written
    have hahead : m.buffer.SameOn (t.position ≤ ·) t.buffer := ht.ahead
    have hnext : t.position = m.position + (n + inner.size content) := by
      rw [hp', inner.size_settle, ← Nat.add_assoc, hp]
    refine (each_amend rest (by exact hn) ht.position_le).trans ?_
    rw [Sections.settleEach_congr inner.settle_congr rest hahead, hnext]

end Group

theorem Sections.amend_eq_encode : ∀ (s : Sections) (content : s.Content Amendment) {m : Message},
    m.position ≤ m.capacity → s.amend content m = s.encode (s.settle m.buffer content m.position) m
  | nil, _, _, _ => rfl
  | group f wf inner rest, (elements, content), m, hm => by
    refine bind_congr_ok (by rw [length_settleEach]) fun g t hgroup => ?_
    obtain ⟨ht, hp⟩ := (Group.writes_encode wf _).trails hm hgroup
    obtain ⟨-, rfl⟩ := Group.eq_of_encode hgroup
    rw [length_dimensions_image] at hp
    -- first over the dimensions, then over the elements: what follows is settled over the buffer as it was
    have hahead : m.buffer.SameOn (t.position ≤ ·) t.buffer := ht.ahead
    refine bind_congr_ok ?_ fun _ t' helements => ?_
    · refine (Group.each_amend inner.amend_eq_encode elements (by rfl) ht.position_le).trans ?_
      rw [settleEach_congr inner.settle_congr elements hahead, hp]
      rfl
    · have hwrites := Group.writes_each inner.writes_encode
        (settleEach m.buffer inner.size (inner.settle m.buffer) elements (m.position + f.dimensions.size))
        ⟨f.blockLength, _, 0, m.position⟩ rfl (Nat.le_of_eq (Nat.zero_add _))
      obtain ⟨ht', hp'⟩ := hwrites.trails ht.position_le helements
      rw [length_elements_image inner.length_image, foldr_settleEach inner.size_settle] at hp'
      have hrest := ht.trans ht' (by rw [hp']; exact Nat.le_add_right ..)
      refine (rest.amend_eq_encode content ht'.position_le).trans ?_
      rw [rest.settle_congr content hrest.ahead, hp', hp]
      rfl
  | data f rest, (bytes, content), m, hm => by
    refine bind_congr_ok rfl fun _ t hdata => ?_
    obtain ⟨ht, hp⟩ := (f.writes_write bytes).trails hm hdata
    refine (rest.amend_eq_encode content ht.position_le).trans ?_
    rw [rest.settle_congr content ht.ahead, hp, length_data_image]
    rfl

/-! ## Messages -/

namespace Message
variable {m : Message} {s : Sections} {offset : Nat}

def amend {n : Nat} (s : Sections) (root : Amendment n) (content : s.Content Amendment) (offset : Nat) : Pass Unit :=
  encodeWith (fun _ a => a.puts) s root content offset

theorem amend_eq_encode {root : Amendment m.template.blockLength.toNat} {content : s.Content Amendment} :
    amend s root content offset m = encode s (root.settle m.buffer offset)
      (s.settle m.buffer content (offset + m.template.blockLength.toNat)) offset m := by
  refine bind_congr_ok rfl fun _ t hstart => ?_
  obtain ⟨hb, rfl⟩ := startEncode_eq_ok_iff.mp hstart
  refine bind_congr_ok (root.writeAll_settle Message.root hb) fun _ t hroot => ?_
  obtain rfl := (Fill.write_eq_ok_iff _ (by exact hb)).mp hroot
  refine (s.amend_eq_encode content (by rwa [capacity, Buffer.size_patch])).trans ?_
  exact congrArg (fun c => s.encode c _) (s.settle_congr content (Fill.sameOn_patch _ m.buffer (Nat.le_refl _)))

/-- It is a matter of what is in the sections whether a message fits, and not of what was in the buffer. -/
theorem amend_eq_ok_iff {root : Amendment m.template.blockLength.toNat} {content : s.Content Amendment} {m' : Message} :
    amend s root content offset m = .ok () m' ↔
      s.Fits content ∧ offset + (m.template.blockLength.toNat + s.size content) ≤ m.capacity ∧
        m' = (m.begun offset).written
          (.ofBytes (root.amend (m.buffer.held offset m.template.blockLength.toNat)) ++
            s.image (s.settle m.buffer content (offset + m.template.blockLength.toNat))) := by
  rw [amend_eq_encode, encode_eq_ok_iff, s.fits_settle, s.size_settle, root.bytes_settle]

/-- Who takes the buffer as data of the writer's version and block length finds the blocks as they came out. -/
theorem amend_then_decode {α : Type} {look : Block → Nat → Buffer → Except AccessError α} {same : Bytes → α → Prop}
    {r w : Sections} {root : Amendment m.template.blockLength.toNat} {content : w.Content Amendment}
    (dst : DataFormat → Option Bytes) (hlook : Finds m.template.version look same)
    (hframe : (r.upTo m.template.version).SameFrame w) (hfits : w.Fits content)
    (hc : offset + (m.template.blockLength.toNat + w.size content) ≤ m.capacity) :
    ∃ m', amend w root content offset m = .ok () m' ∧ ∀ d : Message, d.buffer = m'.buffer →
      ∃ a found,
        decode look dst r offset m.template.blockLength.toNat m.template.version d = .ok (a, found)
          { d.started offset m.template.blockLength.toNat m.template.version with position := m'.position } ∧
        same (root.amend (m.buffer.held offset m.template.blockLength.toNat)) a ∧
        r.Agrees m.template.version dst same w
          (w.settle m.buffer content (offset + m.template.blockLength.toNat)) found := by
  rw [amend_eq_encode, ← root.bytes_settle]
  exact encode_then_decode dst hlook hframe ((w.fits_settle content _).mpr hfits) (by rwa [w.size_settle])

end Message

example :
    let badges : Sections := .group { blockLength := 3 } Dimensions.wellFormed_standard .nil .nil
    let old : Buffer := #[9, 0, 0, 0, 0, 0xf0, 9, 9, 0x0e, 9, 9, 9]
    (final (Message.amend badges (.keep 1) ([(.badge, ()), (.badge, ())], ()) 0 (.ofBuffer { blockLength := 1 } old))).buffer =
      #[9, 3, 0, 2, 0, 0xf1, 9, 7, 0x0f, 9, 7, 9] := by cbv

end SimpleBinary
