import SimpleBinary.Proofs.Block.Lookup
import SimpleBinary.Proofs.Message.Evolution

/-!
# Readers and writers of different versions

A message of one version is read with the descriptors of another. The reader finds the sections that
both have, as they were written; what is newer is absent and takes no room. In every block it finds
the fields that lie in the writer's block, and the absent values of those that are newer. So it does
not matter whether its blocks are longer or shorter than the writer's.
-/

namespace SimpleBinary

/-- Of a block written as `block` in version `v`, every query that has a known answer is answered so. -/
def Query.AnsweredFrom (v : Version) (block : Bytes) (answers : Query → Except AccessError Reply) : Prop :=
  ∀ q r, q.expected? v block = some r → answers q = .ok r

theorem Version.includes_eq_false_iff {acting since : Version} :
    acting.includes since = false ↔ acting < since := by
  unfold Version.includes
  rw [decide_eq_false_iff_not, UInt16.not_le]

namespace Message

theorem finds_answers (v : Version) :
    Finds v (fun b _ buffer => .ok fun q : Query => q.ask b buffer) (Query.AnsweredFrom v) := by
  intro base buffer block h
  refine ⟨_, rfl, fun q r hr => ?_⟩
  exact Query.ask_eq_ok h hr

theorem decode_other_version (m m' : Message) (r w : Sections) (root : Fill m.template.blockLength.toNat)
    (content : w.Content Fill) (offset : Nat) (dst : DataFormat → Option Bytes)
    (hframe : (r.upTo m.template.version).SameFrame w) (h : encode w root content offset m = .ok () m') :
    (∀ d : Message, d.buffer = m'.buffer → ∃ answers found,
      decode (fun b _ buffer => .ok fun q : Query => q.ask b buffer) dst r offset
          m.template.blockLength.toNat m.template.version d =
        .ok (answers, found)
          { d.started offset m.template.blockLength.toNat m.template.version with position := m'.position } ∧
      Query.AnsweredFrom m.template.version root.bytes answers ∧
      r.Agrees m.template.version dst (Query.AnsweredFrom m.template.version) w content found) ∧
    ∀ d : Message, d.actingVersion = m.template.version →
      (∀ f : GroupFormat, m.template.version < f.since →
        Group.decode f d = .ok ⟨f.blockLength, 0, 0, d.position⟩ d) ∧
      ∀ f : DataFormat, m.template.version < f.since →
        f.read d = .ok [] d ∧ ∀ out, f.copy out d = .ok (0, out) d := by
  constructor
  · intro d hd
    obtain ⟨hfits, hc, -⟩ := encode_eq_ok_iff.mp h
    obtain ⟨m'', hm'', hdecode⟩ :=
      encode_then_decode dst (finds_answers m.template.version) hframe hfits hc
    rw [h] at hm''
    cases hm''
    exact hdecode d hd
  · intro d hv
    constructor
    · intro f hf
      rw [← hv, ← Version.includes_eq_false_iff] at hf
      exact Group.decode_newer hf
    · intro f hf
      rw [← hv, ← Version.includes_eq_false_iff] at hf
      exact ⟨DataFormat.read_newer hf, DataFormat.copy_newer hf⟩

def engines : Sections :=
  .group { blockLength := 2 } Dimensions.wellFormed_standard (.data { length := .w8 } .nil) .nil

/-- Shorter engines with one more note, and behind them a group that version 1 does not have. -/
def newerEngines : Sections :=
  .group { blockLength := 1 } Dimensions.wellFormed_standard
    (.data { length := .w8, since := 1 } (.data { length := .w16, since := 2 } .nil))
    (.group { blockLength := 4, since := 2 } Dimensions.wellFormed_standard .nil .nil)

def enginesContent : engines.Content Fill := ([(.ofValue (.unsigned .w16) .little 513, [1, 2], ())], ())

def enginesMessage : Message := .ofBuffer { version := 1, blockLength := 1 } (Array.replicate 16 0)

theorem decode_other_version_engines :
    ∃ m', encode engines (.ofValue (.unsigned .w8) .little 5) enginesContent 2 enginesMessage = .ok () m' ∧
      ∀ d : Message, d.buffer = m'.buffer → ∃ answers found,
        decode (fun b _ buffer => .ok fun q : Query => q.ask b buffer) (fun _ => none) newerEngines 2 1 1 d =
          .ok (answers, found) { d.started 2 1 1 with position := m'.position } ∧
        Query.AnsweredFrom 1 [5] answers ∧
        newerEngines.Agrees 1 (fun _ => none) (Query.AnsweredFrom 1) engines enginesContent found := by
  have hfits : engines.Fits enginesContent := by
    simp [Sections.Fits, engines, enginesContent, Width.max, Width.bits, Width.bytes, Dimensions.standard]
  have hc : 2 + (1 + engines.size enginesContent) ≤ enginesMessage.capacity := by decide
  obtain ⟨m', h⟩ := exists_encode enginesMessage (.ofValue (.unsigned .w8) .little 5) hfits hc
  exact ⟨m', h, (decode_other_version enginesMessage m' newerEngines engines
    (.ofValue (.unsigned .w8) .little 5) enginesContent 2 (fun _ => none) ⟨rfl, ⟨rfl, rfl, trivial⟩, trivial⟩ h).1⟩

end Message

end SimpleBinary
