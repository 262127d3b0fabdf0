import SimpleBinary.Proofs.Step

/-!
# Variants and their numbers

A value is read as the first variant that has its number, and as null if none does (`decode_eq_some`,
`decode_eq_none`); a variant is written as its number. Numbers may be shared, by variants or by a variant
and null, and then not all that is written is read back.

Of integers `decode_encode_some_iff` and `decode_encode_none_iff` say what is; the numbers that are written
back as they were read are those declared and null's (`encode_decode_of_not_declares`).
-/

namespace SimpleBinary

namespace Enumeration
variable {e : Enumeration} {raw : e.carrier.Value}

theorem decode_eq_some {i : Fin e.variants.length} :
    e.decode raw = some i ↔ e.carrier.same raw (e.variants.get i).2 = true ∧
      ∀ j < i, e.carrier.same raw (e.variants.get j).2 = false := by
  unfold decode
  rw [List.findFinIdx?_eq_some_iff]
  simp

theorem decode_eq_none : e.decode raw = none ↔ ∀ v ∈ e.variants, e.carrier.same raw v.2 = false := by
  unfold decode
  rw [List.findFinIdx?_eq_none_iff]
  simp

/-! ## Integers -/

def Declares (e : Enumeration) (raw : e.carrier.Value) : Prop := ∃ v ∈ e.variants, v.2 = raw

section
variable (hc : e.carrier.isInteger = true)
include hc

theorem decode_eq_some_iff {i : Fin e.variants.length} :
    e.decode raw = some i ↔ (e.variants.get i).2 = raw ∧ ∀ j < i, (e.variants.get j).2 ≠ raw := by
  rw [decode_eq_some, Carrier.same_iff hc, eq_comm]
  simp only [Carrier.same_eq_false_iff hc, ne_comm (a := raw)]

theorem decode_eq_none_iff : e.decode raw = none ↔ ¬ e.Declares raw := by
  unfold Declares
  simp only [decode_eq_none, Carrier.same_eq_false_iff hc, ne_comm (a := raw), not_exists, not_and, ne_eq]

theorem decode_encode_some_iff {i : Fin e.variants.length} :
    e.decode (e.encode (some i)) = some i ↔ ∀ j < i, (e.variants.get j).2 ≠ (e.variants.get i).2 :=
  (decode_eq_some_iff hc).trans (and_iff_right rfl)

theorem decode_encode_none_iff : e.decode (e.encode none) = none ↔ ¬ e.Declares e.null := decode_eq_none_iff hc

theorem encode_decode_of_declares (h : e.Declares raw) : e.encode (e.decode raw) = raw := by
  cases hd : e.decode raw with
  | none => exact absurd h ((decode_eq_none_iff hc).mp hd)
  | some i => exact ((decode_eq_some_iff hc).mp hd).1

theorem encode_decode_of_not_declares (h : ¬ e.Declares raw) : e.encode (e.decode raw) = e.null := by
  rw [(decode_eq_none_iff hc).mpr h]
  rfl

theorem encode_decode_null : e.encode (e.decode e.null) = e.null := by
  by_cases h : e.Declares e.null
  · exact encode_decode_of_declares hc h
  · exact encode_decode_of_not_declares hc h

theorem encode_decode_encode_decode : e.encode (e.decode (e.encode (e.decode raw))) = e.encode (e.decode raw) := by
  by_cases h : e.Declares raw
  · rw [encode_decode_of_declares hc h, encode_decode_of_declares hc h]
  · rw [encode_decode_of_not_declares hc h, encode_decode_null hc]

end

/-! ## Fields -/

variable {f : EnumField e} {b : Block} {v : e.Value} {buffer written : Buffer}

theorem putVariant_eq_ok_iff : b.putVariant f v buffer = .ok () written ↔
    b.base + f.offset + e.carrier.bytes ≤ buffer.size ∧
      written = buffer.patch (b.base + f.offset) (e.carrier.encode f.order (e.encode v)) := by
  unfold Block.putVariant Block.store
  rw [Edit.overwrite_eq_ok_iff, e.carrier.length_encode]

theorem getVariant_written (hp : b.version.includes f.since = true) (h : b.putVariant f v buffer = .ok () written) :
    b.getVariant f written = .ok (e.decode (e.encode v)) := by
  obtain ⟨hle, rfl⟩ := putVariant_eq_ok_iff.mp h
  have hlength := e.carrier.length_encode f.order (e.encode v)
  have hwindow := Buffer.window_overwrite (Buffer.overwrite_eq_ok_iff.mpr ⟨hlength.symm ▸ hle, rfl⟩)
  rw [hlength] at hwindow
  unfold Block.getVariant Block.fetch
  rw [if_pos hp, hwindow]
  exact congrArg (fun raw => Except.ok (e.decode raw)) (e.carrier.decode_encode f.order (e.encode v))

/-- Which integers and which values survive being read and written, whatever is declared. -/
theorem reads_first_declared (e : Enumeration) (hc : e.carrier.isInteger = true) :
    (∀ raw i, e.decode raw = some i ↔ (e.variants.get i).2 = raw ∧ ∀ j < i, (e.variants.get j).2 ≠ raw) ∧
    (∀ raw, e.decode raw = none ↔ ¬ e.Declares raw) ∧
    (∀ i, e.decode (e.encode (some i)) = some i ↔ ∀ j < i, (e.variants.get j).2 ≠ (e.variants.get i).2) ∧
    (e.decode (e.encode none) = none ↔ ¬ e.Declares e.null) ∧
    (∀ raw, (e.Declares raw ∨ raw = e.null → e.encode (e.decode raw) = raw) ∧
      (¬ (e.Declares raw ∨ raw = e.null) → e.encode (e.decode raw) = e.null)) ∧
    (∀ raw, e.encode (e.decode (e.encode (e.decode raw))) = e.encode (e.decode raw)) ∧
    ∀ (f : EnumField e) (b : Block) (v : e.Value) (buffer : Buffer), b.version.includes f.since = true →
      b.base + f.offset + e.carrier.bytes ≤ buffer.size →
      ∃ written, b.putVariant f v buffer = .ok () written ∧ b.getVariant f written = .ok (e.decode (e.encode v)) := by
  refine ⟨fun _ _ => decode_eq_some_iff hc, fun _ => decode_eq_none_iff hc, fun _ => decode_encode_some_iff hc,
    decode_encode_none_iff hc, fun raw => ⟨fun h => ?_, fun h => ?_⟩, fun _ => encode_decode_encode_decode hc,
    fun f b v buffer hp hle => ?_⟩
  · rcases h with h | rfl
    · exact encode_decode_of_declares hc h
    · exact encode_decode_null hc
  · exact encode_decode_of_not_declares hc fun hd => h (.inl hd)
  · have hput : b.putVariant f v buffer = .ok () _ := putVariant_eq_ok_iff.mpr ⟨hle, rfl⟩
    exact ⟨_, hput, getVariant_written hp hput⟩

/-- Two of the seats share a number, and null shares one with the third. -/
def seats : Enumeration where
  carrier := .unsigned .w8
  null := 3
  variants := [("window", 1), ("door", 1), ("aisle", 3)]

def door : seats.Value := some ⟨1, by decide⟩

theorem reads_first_declared_seats :
    seats.carrier.isInteger = true ∧ seats.decode 2 = none ∧ seats.decode (seats.encode none) ≠ none ∧
      seats.decode (seats.encode door) ≠ door ∧ seats.encode (seats.decode 2) = 3 ∧
      ∃ written, Block.putVariant ⟨0, 0⟩ { offset := 1 } door #[0, 0] = .ok () written ∧
        Block.getVariant ⟨0, 0⟩ { offset := 1 } written = .ok (seats.decode 1) := by
  have hc : seats.carrier.isInteger = true := rfl
  obtain ⟨-, hnone, hsome, hnull, hwritten, -, hfield⟩ := reads_first_declared seats hc
  have hundeclared : ¬ seats.Declares 2 := by
    unfold Declares
    decide
  refine ⟨hc, (hnone 2).mpr hundeclared, fun h => ?_, fun h => ?_, (hwritten 2).2 fun h => ?_, ?_⟩
  · exact hnull.mp h ⟨("aisle", 3), by decide, rfl⟩
  · exact (hsome _).mp h ⟨0, by decide⟩ (by decide) rfl
  · exact h.elim hundeclared (by decide)
  · exact hfield { offset := 1 } ⟨0, 0⟩ door #[0, 0] rfl (by decide)

end Enumeration

end SimpleBinary
