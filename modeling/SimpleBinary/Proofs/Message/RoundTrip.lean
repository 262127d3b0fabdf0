import SimpleBinary.Proofs.Message.Evolution

/-!
# Decoding undoes encoding

Read with the sections that it was written with, a message gives back what was written: as many
elements of every group in the same order, the bytes of every block, and the data.
-/

namespace SimpleBinary

namespace Sections

def NoneNewer (v : Version) : Sections → Prop
  | nil => True
  | group f _ inner rest => f.since ≤ v ∧ inner.NoneNewer v ∧ rest.NoneNewer v
  | data f rest => f.since ≤ v ∧ rest.NoneNewer v

/-- Where data is to be copied to, there is room for all of it. -/
def HaveRoom {β : Nat → Type} (dst : DataFormat → Option Bytes) : (s : Sections) → s.Content β → Prop
  | nil, _ => True
  | group _ _ inner rest, (elements, content) =>
    (∀ e ∈ elements, inner.HaveRoom dst e.2) ∧ rest.HaveRoom dst content
  | data f rest, (bytes, content) =>
    (∀ d, dst f = some d → bytes.length ≤ d.length) ∧ rest.HaveRoom dst content

variable {v : Version} {dst : DataFormat → Option Bytes}

theorem sameFrame_refl (s : Sections) : s.SameFrame s := by
  induction s with
  | nil => trivial
  | group f wf inner rest ihInner ihRest => exact ⟨rfl, ihInner, ihRest⟩
  | data f rest ih => exact ⟨rfl, rfl, ih⟩

theorem upTo_of_noneNewer {s : Sections} (h : s.NoneNewer v) : s.upTo v = s := by
  induction s with
  | nil => rfl
  | group f wf inner rest ihInner ihRest =>
    obtain ⟨hs, hi, hr⟩ := h
    unfold upTo
    rw [if_pos (Version.includes_iff.mpr hs), ihInner hi, ihRest hr]
  | data f rest ih =>
    obtain ⟨hs, hr⟩ := h
    unfold upTo
    rw [if_pos (Version.includes_iff.mpr hs), ih hr]

theorem kept_of_room {d : Option Bytes} {bytes : Bytes} (h : ∀ dst, d = some dst → bytes.length ≤ dst.length) :
    DataFormat.kept d bytes = bytes := by
  cases d with
  | none => rfl
  | some dst => exact List.take_of_length_le (h dst rfl)

theorem eq_map_of_forall₂ {α β : Type} {R : α → β → Prop} {f : α → β} {as : List α} {bs : List β}
    (h : List.Forall₂ R as bs) (hf : ∀ a ∈ as, ∀ b, R a b → b = f a) : bs = as.map f := by
  induction h with
  | nil => rfl
  | cons hab _ ih =>
    rw [List.map_cons, ← ih fun a ha => hf a (List.mem_cons_of_mem _ ha), ← hf _ List.mem_cons_self _ hab]

theorem eq_of_agrees_self : ∀ (s : Sections) (content : s.Content Fill) (found : s.Content fun _ => Bytes),
    s.NoneNewer v → s.HaveRoom dst content → s.Agrees v dst (fun bytes a => a = bytes) s content found →
      found = s.map (fun _ fill => fill.bytes) content
  | nil, _, _, _, _, _ => rfl
  | group f wf inner rest, (elements, content), (found, others), hv, hroom, h => by
    obtain ⟨hs, hi, hr⟩ := hv
    obtain ⟨helements, hrest⟩ := (agrees_group_iff (Version.includes_iff.mpr hs)).mp h
    have hfound := eq_map_of_forall₂ (f := fun e => (e.1.bytes, inner.map (fun _ fill => fill.bytes) e.2))
      helements fun e he a ha => Prod.ext ha.1 (eq_of_agrees_self inner e.2 a.2 hi (hroom.1 e he) ha.2)
    have hothers := eq_of_agrees_self rest content others hr hroom.2 hrest
    rw [hfound, hothers]
    rfl
  | data f rest, (bytes, content), (found, others), hv, hroom, h => by
    obtain ⟨hs, hr⟩ := hv
    obtain ⟨hfound, hrest⟩ := (agrees_data_iff (Version.includes_iff.mpr hs)).mp h
    have hothers := eq_of_agrees_self rest content others hr hroom.2 hrest
    rw [hfound, hothers, kept_of_room hroom.1]
    rfl

end Sections

namespace Message

theorem finds_bytes (v : Version) :
    Finds v (fun b n buffer => buffer.window b.base n) fun bytes a => a = bytes := by
  intro base buffer bytes h
  exact ⟨bytes, h, rfl⟩

theorem decode_undoes_encode (m : Message) (s : Sections) (root : Fill m.template.blockLength.toNat)
    (content : s.Content Fill) (offset : Nat) (dst : DataFormat → Option Bytes)
    (hversion : s.NoneNewer m.template.version) (hfits : s.Fits content) (hroom : s.HaveRoom dst content)
    (hc : offset + (m.template.blockLength.toNat + s.size content) ≤ m.capacity) :
    ∃ m', encode s root content offset m = .ok () m' ∧ ∀ d : Message, d.buffer = m'.buffer →
      decode (fun b n buffer => buffer.window b.base n) dst s offset m.template.blockLength.toNat
          m.template.version d =
        .ok (root.bytes, s.map (fun _ fill => fill.bytes) content)
          { d.started offset m.template.blockLength.toNat m.template.version with
            position := m'.position } := by
  have hframe : (s.upTo m.template.version).SameFrame s := by
    rw [Sections.upTo_of_noneNewer hversion]
    exact s.sameFrame_refl
  obtain ⟨m', hm', hd⟩ :=
    encode_then_decode dst (finds_bytes m.template.version) hframe hfits hc
  refine ⟨m', hm', fun d hb => ?_⟩
  obtain ⟨a, found, hdecode, hsame, hagrees⟩ := hd d hb
  rw [hdecode, hsame, s.eq_of_agrees_self content found hversion hroom hagrees]

def carSections : Sections :=
  .group { blockLength := 1 } Dimensions.wellFormed_standard (.data { length := .w8 } .nil)
    (.data { length := .w16, order := .big, since := 1 } .nil)

def carContent : carSections.Content Fill :=
  ([(.ofValue (.unsigned .w8) .little 7, [1, 2], ()), (.ofValue (.unsigned .w8) .little 8, [], ())], [3], ())

def carRoot : Fill 2 := .append (.ofValue (.unsigned .w8) .little 5) (.ofBytes [1])

def carMessage : Message := .ofBuffer { version := 1, blockLength := 2 } (Array.replicate 16 0)

theorem decode_undoes_encode_car :
    ∃ m', encode carSections carRoot carContent 1 carMessage = .ok () m' ∧
      ∀ d : Message, d.buffer = m'.buffer →
        decode (fun b n buffer => buffer.window b.base n) (fun f => if f.length = .w8 then some [0, 0] else none)
            carSections 1 2 1 d =
          .ok ([5, 1], [([7], [1, 2], ()), ([8], [], ())], [3], ())
            { d.started 1 2 1 with position := m'.position } :=
  decode_undoes_encode carMessage carSections carRoot carContent 1
    (fun f => if f.length = .w8 then some [0, 0] else none)
    ⟨by decide, ⟨by decide, trivial⟩, by decide, trivial⟩
    (by simp [Sections.Fits, carSections, carContent, Width.max, Width.bits, Width.bytes, Dimensions.standard])
    (by simp [Sections.HaveRoom, carSections, carContent]) (by decide)

end Message

end SimpleBinary
