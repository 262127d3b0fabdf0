import SimpleBinary.Proofs.Message.Decoding

/-!
# Sections of another version

A reader's sections need not be the writer's. What a reader of data of version `v` meets is what is
left of its own sections without those that are newer (`upTo`); if that has the writer's frame, the
decoding pass finds what was written, and nothing where a section is newer (`reads_decode`). The
lengths of blocks are not part of the frame, since the writer's stand in the data.
-/

namespace SimpleBinary

namespace Sections

def upTo (v : Version) : Sections → Sections
  | nil => nil
  | group f wf inner rest =>
    if v.includes f.since then group f wf (inner.upTo v) (rest.upTo v) else rest.upTo v
  | data f rest => if v.includes f.since then data f (rest.upTo v) else rest.upTo v

/-- The same groups and data sections in the same order, with the same dimensions and lengths. -/
def SameFrame : Sections → Sections → Prop
  | nil, nil => True
  | group f _ inner rest, group f' _ inner' rest' =>
    f.dimensions = f'.dimensions ∧ inner.SameFrame inner' ∧ rest.SameFrame rest'
  | data f rest, data f' rest' => f.length = f'.length ∧ f.order = f'.order ∧ rest.SameFrame rest'
  | _, _ => False

section
variable {α : Type} (v : Version) (dst : DataFormat → Option Bytes) (same : Bytes → α → Prop)

/-- What a reader finds in its sections is what the writer has written in its own: as many elements,
the same in every block, the same data; and nothing in sections that are newer. -/
def Agrees : (r w : Sections) → w.Content Fill → (r.Content fun _ => α) → Prop
  | nil, nil, _, _ => True
  | nil, _, _, _ => False
  | group f _ inner rest, w, written, (elements, found) =>
    if v.includes f.since then
      match w, written with
      | group _ _ inner' rest', (elements', written) =>
        List.Forall₂ (fun e' e => same e'.1.bytes e.1 ∧ inner.Agrees inner' e'.2 e.2) elements' elements ∧
          rest.Agrees rest' written found
      | _, _ => False
    else elements = [] ∧ rest.Agrees w written found
  | data f rest, w, written, (bytes, found) =>
    if v.includes f.since then
      match w, written with
      | data _ rest', (bytes', written) =>
        bytes = DataFormat.kept (dst f) bytes' ∧ rest.Agrees rest' written found
      | _, _ => False
    else bytes = [] ∧ rest.Agrees w written found

end

variable {α : Type} {v : Version} {dst : DataFormat → Option Bytes} {same : Bytes → α → Prop}
  {look : Block → Nat → Buffer → Except AccessError α}

section
variable {f f' : GroupFormat} {wf : f.dimensions.WellFormed} {wf' : f'.dimensions.WellFormed}
  {inner rest inner' rest' w : Sections} {found : rest.Content fun _ => α}
  {elements : List (α × inner.Content fun _ => α)}

theorem agrees_group_iff (h : v.includes f.since = true)
    {elements' : List (Fill f'.blockLength × inner'.Content Fill)} {written : rest'.Content Fill} :
    (group f wf inner rest).Agrees v dst same (group f' wf' inner' rest') (elements', written)
        (elements, found) ↔
      List.Forall₂ (fun e' e => same e'.1.bytes e.1 ∧ inner.Agrees v dst same inner' e'.2 e.2) elements'
          elements ∧
        rest.Agrees v dst same rest' written found := by
  show (if _ then _ else _) ↔ _
  rw [if_pos h]

theorem agrees_newer_group_iff (h : v.includes f.since = false) {written : w.Content Fill} :
    (group f wf inner rest).Agrees v dst same w written (elements, found) ↔
      elements = [] ∧ rest.Agrees v dst same w written found := by
  show (if _ then _ else _) ↔ _
  rw [if_neg (by rw [h]; exact Bool.false_ne_true)]

end

section
variable {f f' : DataFormat} {rest rest' w : Sections} {found : rest.Content fun _ => α} {bytes : Bytes}

theorem agrees_data_iff (h : v.includes f.since = true) {bytes' : Bytes} {written : rest'.Content Fill} :
    (data f rest).Agrees v dst same (data f' rest') (bytes', written) (bytes, found) ↔
      bytes = DataFormat.kept (dst f) bytes' ∧ rest.Agrees v dst same rest' written found := by
  show (if _ then _ else _) ↔ _
  rw [if_pos h]

theorem agrees_newer_data_iff (h : v.includes f.since = false) {written : w.Content Fill} :
    (data f rest).Agrees v dst same w written (bytes, found) ↔
      bytes = [] ∧ rest.Agrees v dst same w written found := by
  show (if _ then _ else _) ↔ _
  rw [if_neg (by rw [h]; exact Bool.false_ne_true)]

end

theorem image_eq_of_frame {f f' : DataFormat} (hl : f.length = f'.length) (ho : f.order = f'.order)
    (bytes : Bytes) : f'.image bytes = f.image bytes := by
  unfold DataFormat.image DataFormat.lengthSize
  rw [hl, ho]

theorem reads_skip {β γ : Type} {p : Pass β} {q : β → Pass γ} {image : Image} {fit : γ → Prop}
    (hp : ∀ m : Message, m.actingVersion = v → ∃ b, p m = .ok b m ∧ (q b).Reads v image fit) :
    (p >>= q).Reads v image fit := by
  intro m hv hs
  obtain ⟨b, hb, hq⟩ := hp m hv
  obtain ⟨c, hc, hf⟩ := hq hv hs
  exact ⟨c, bind_eq_ok_iff.mpr ⟨b, m, hb, hc⟩, hf⟩

theorem reads_decode (dst : DataFormat → Option Bytes) (hlook : Finds v look same) :
    ∀ (r w : Sections) (content : w.Content Fill), (r.upTo v).SameFrame w → w.Fits content →
      (r.decode look dst).Reads v (w.image content) (r.Agrees v dst same w content)
  | nil, w, content, hframe, _ => by
    cases w with
    | nil => exact Pass.Reads.pure trivial
    | group => exact hframe.elim
    | data => exact hframe.elim
  | group f wf inner rest, w, content, hframe, hfits => by
    unfold upTo at hframe
    cases h : v.includes f.since with
    | true =>
      rw [if_pos h] at hframe
      cases w with
      | nil => exact hframe.elim
      | data => exact hframe.elim
      | group f' wf' inner' rest' =>
        obtain ⟨elements, content⟩ := content
        obtain ⟨hd, hinner, hrest⟩ := hframe
        obtain ⟨hc, hb, he, hfits⟩ := hfits
        rw [image, List.append_assoc, ← hd]
        rw [← hd] at hc hb
        refine Pass.Reads.bind (Group.reads_decode wf h hb hc) fun g hg => ?_
        obtain ⟨hblock, hcount, hvisited⟩ := hg
        have helements : ∀ e ∈ elements, (inner.decode look dst).Reads v (inner'.image e.2)
            (inner.Agrees v dst same inner' e.2) :=
          fun e hmem => reads_decode dst hlook inner inner' e.2 hinner (he e hmem)
        have hcollect := Group.reads_collect (inner.Agrees v dst same inner') hlook elements g helements hblock
          (by omega)
        rw [← hcount] at hcollect
        refine Pass.Reads.bind hcollect fun found hfound => ?_
        refine (reads_decode dst hlook rest rest' content hrest hfits).finish fun others hothers => ?_
        exact (agrees_group_iff h).mpr ⟨hfound, hothers⟩
    | false =>
      rw [if_neg (by rw [h]; exact Bool.false_ne_true)] at hframe
      refine reads_skip fun m hv => ⟨_, Group.decode_newer (hv ▸ h), ?_⟩
      have hnone : (pure [] : Pass (List (α × inner.Content fun _ => α))).Reads v [] (· = []) :=
        Pass.Reads.pure rfl
      refine hnone.bind fun elements helements => ?_
      refine (reads_decode dst hlook rest w content hframe hfits).finish fun others hothers => ?_
      exact (agrees_newer_group_iff h).mpr ⟨helements, hothers⟩
  | data f rest, w, content, hframe, hfits => by
    unfold upTo at hframe
    cases h : v.includes f.since with
    | true =>
      rw [if_pos h] at hframe
      cases w with
      | nil => exact hframe.elim
      | group => exact hframe.elim
      | data f' rest' =>
        obtain ⟨bytes, content⟩ := content
        obtain ⟨hl, ho, hrest⟩ := hframe
        obtain ⟨hb, hfits⟩ := hfits
        rw [image, image_eq_of_frame hl ho]
        rw [← hl] at hb
        refine Pass.Reads.bind (DataFormat.reads_fetch h hb (dst f)) fun found hfound => ?_
        refine (reads_decode dst hlook rest rest' content hrest hfits).finish fun others hothers => ?_
        exact (agrees_data_iff h).mpr ⟨hfound, hothers⟩
    | false =>
      rw [if_neg (by rw [h]; exact Bool.false_ne_true)] at hframe
      refine reads_skip fun m hv => ⟨_, DataFormat.fetch_newer (hv ▸ h) (dst f), ?_⟩
      refine (reads_decode dst hlook rest w content hframe hfits).finish fun others hothers => ?_
      exact (agrees_newer_data_iff h).mpr ⟨rfl, hothers⟩

end Sections

namespace Message
variable {α : Type} {look : Block → Nat → Buffer → Except AccessError α} {same : Bytes → α → Prop}

/-- A message that fits is encoded, and whoever takes its buffer as data of the writer's version and
block length finds what was written, and ends where the writer has ended. -/
theorem encode_then_decode {m : Message} {r w : Sections} {root : Fill m.template.blockLength.toNat}
    {content : w.Content Fill} {offset : Nat} (dst : DataFormat → Option Bytes)
    (hlook : Finds m.template.version look same) (hframe : (r.upTo m.template.version).SameFrame w)
    (hfits : w.Fits content) (hc : offset + (m.template.blockLength.toNat + w.size content) ≤ m.capacity) :
    ∃ m', encode w root content offset m = .ok () m' ∧ ∀ d : Message, d.buffer = m'.buffer →
      ∃ a found,
        decode look dst r offset m.template.blockLength.toNat m.template.version d = .ok (a, found)
          { d.started offset m.template.blockLength.toNat m.template.version with position := m'.position } ∧
        same root.bytes a ∧ r.Agrees m.template.version dst same w content found := by
  refine ⟨_, encode_eq_ok_iff.mpr ⟨hfits, hc, rfl⟩, fun d hd => ?_⟩
  have hl := w.length_image content
  have hp : ((m.begun offset).written (.ofBytes root.bytes ++ w.image content)).position =
      offset + m.template.blockLength.toNat + (w.image content).length := by
    rw [position_written, List.length_append, Image.length_ofBytes, root.length_bytes, ← Nat.add_assoc]
    rfl
  have hshows : d.buffer.Shows offset (.ofBytes root.bytes ++ w.image content) := by
    rw [hd]
    refine Buffer.shows_stamp ?_
    rw [List.length_append, Image.length_ofBytes, root.length_bytes, hl]
    exact hc
  obtain ⟨hroot, hrest⟩ := Buffer.shows_append.mp hshows
  rw [Image.length_ofBytes, root.length_bytes] at hrest
  obtain ⟨a, ha, hsame⟩ := hlook hroot.window_ofBytes
  rw [root.length_bytes] at ha
  have hb : offset + m.template.blockLength.toNat ≤ d.capacity := by
    have := hrest.1
    unfold capacity
    omega
  obtain ⟨found, hfound, hagrees⟩ := Sections.reads_decode dst hlook r w content hframe hfits
    (m := d.started offset m.template.blockLength.toNat m.template.version) rfl hrest
  refine ⟨a, found, ?_, hsame, hagrees⟩
  refine bind_eq_ok_iff.mpr ⟨(), _, start_eq_ok_iff.mpr ⟨hb, rfl⟩, ?_⟩
  refine bind_eq_ok_iff.mpr ⟨a, _, Pass.look_eq_ok_iff.mpr ⟨ha, rfl⟩, ?_⟩
  refine bind_eq_ok_iff.mpr ⟨found, _, hfound, pure_eq_ok_iff.mpr ⟨rfl, ?_⟩⟩
  rw [hp]
  rfl

end Message

end SimpleBinary
