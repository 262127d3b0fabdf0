import SimpleBinary.AccessError

/-!
# Buffers

A buffer is the caller's memory. It is read and written one range at a time: `window` is the range
of a given width at an offset, `overwrite` replaces the range that the new bytes cover, and both
refuse a range that does not lie in the buffer. `getElem?_patch` says what a write does to every
byte, and `window_overwrite` that it is read back.
-/

namespace SimpleBinary

abbrev Bytes := List UInt8

abbrev Buffer := Array UInt8

/-- Positions are 64 bits wide: a sum that is only reported stops here. -/
def lastPosition : Nat := UInt64.size - 1

namespace Buffer

/-- The buffer with `bytes` written from `offset` on, as far as it reaches. -/
def patch (buffer : Buffer) (offset : Nat) : Bytes → Buffer
  | [] => buffer
  | byte :: rest => patch (buffer.setIfInBounds offset byte) (offset + 1) rest

def window (buffer : Buffer) (offset width : Nat) : Except AccessError Bytes :=
  if offset + width ≤ buffer.size then
    .ok (buffer.extract offset (offset + width)).toList
  else
    .error (.accessBeyondCapacity offset width buffer.size)

def overwrite (buffer : Buffer) (offset : Nat) (bytes : Bytes) : Except AccessError Buffer :=
  if offset + bytes.length ≤ buffer.size then
    .ok (buffer.patch offset bytes)
  else
    .error (.accessBeyondCapacity offset bytes.length buffer.size)

@[simp] theorem size_patch (buffer : Buffer) (offset : Nat) (bytes : Bytes) :
    (buffer.patch offset bytes).size = buffer.size := by
  induction bytes generalizing buffer offset with
  | nil => rfl
  | cons byte rest ih => rw [patch, ih, Array.size_setIfInBounds]

theorem getElem?_patch (buffer : Buffer) (offset : Nat) (bytes : Bytes) (i : Nat) :
    (buffer.patch offset bytes)[i]? =
      if offset ≤ i ∧ i < offset + bytes.length ∧ i < buffer.size then bytes[i - offset]?
      else buffer[i]? := by
  induction bytes generalizing buffer offset with
  | nil => rw [patch, if_neg (by rw [List.length_nil]; omega)]
  | cons byte rest ih =>
    rw [patch, ih, Array.getElem?_setIfInBounds, Array.size_setIfInBounds, List.length_cons]
    by_cases h : offset = i
    · subst h
      rw [if_neg (by omega), if_pos rfl]
      by_cases hs : offset < buffer.size
      · rw [if_pos hs, if_pos (by omega), Nat.sub_self, List.getElem?_cons_zero]
      · rw [if_neg hs, if_neg (by omega), Array.getElem?_eq_none (by omega)]
    · by_cases hr : offset + 1 ≤ i ∧ i < offset + 1 + rest.length ∧ i < buffer.size
      · rw [if_pos hr, if_pos (by omega), show i - offset = i - (offset + 1) + 1 by omega,
          List.getElem?_cons_succ]
      · rw [if_neg hr, if_neg h, if_neg (by omega)]

theorem window_eq_ok_iff {buffer : Buffer} {offset width : Nat} {bytes : Bytes} :
    buffer.window offset width = .ok bytes ↔
      offset + width ≤ buffer.size ∧ bytes.length = width ∧
        ∀ i < width, bytes[i]? = buffer[offset + i]? := by
  unfold window
  by_cases h : offset + width ≤ buffer.size
  · rw [if_pos h, Except.ok.injEq]
    have hl : (buffer.extract offset (offset + width)).toList.length = width := by
      rw [Array.length_toList, Array.size_extract]; omega
    have hg : ∀ i < width, (buffer.extract offset (offset + width)).toList[i]? = buffer[offset + i]? := by
      intro i hi
      rw [Array.getElem?_toList, Array.getElem?_extract, if_pos (by omega)]
    apply Iff.intro
    · intro h
      obtain rfl := h
      exact ⟨h, hl, hg⟩
    · intro h
      obtain ⟨_, hb, he⟩ := h
      apply List.ext_getElem?
      intro i
      rcases Nat.lt_or_ge i width with hi | hi
      · rw [hg i hi, he i hi]
      · rw [List.getElem?_eq_none (by omega), List.getElem?_eq_none (by omega)]
  · rw [if_neg h]
    exact ⟨fun e => (nomatch e), fun e => absurd e.1 h⟩

theorem overwrite_eq_ok_iff {buffer written : Buffer} {offset : Nat} {bytes : Bytes} :
    buffer.overwrite offset bytes = .ok written ↔
      offset + bytes.length ≤ buffer.size ∧ written = buffer.patch offset bytes := by
  unfold overwrite
  by_cases h : offset + bytes.length ≤ buffer.size
  · rw [if_pos h, Except.ok.injEq]
    exact ⟨fun e => ⟨h, e.symm⟩, fun e => e.2.symm⟩
  · rw [if_neg h]
    exact ⟨fun e => (nomatch e), fun e => absurd e.1 h⟩

theorem size_of_overwrite {buffer written : Buffer} {offset : Nat} {bytes : Bytes}
    (h : buffer.overwrite offset bytes = .ok written) : written.size = buffer.size := by
  rw [(overwrite_eq_ok_iff.mp h).2, size_patch]

theorem window_overwrite {buffer written : Buffer} {offset : Nat} {bytes : Bytes}
    (h : buffer.overwrite offset bytes = .ok written) :
    written.window offset bytes.length = .ok bytes := by
  obtain ⟨hb, rfl⟩ := overwrite_eq_ok_iff.mp h
  refine window_eq_ok_iff.mpr ⟨by rw [size_patch]; exact hb, rfl, fun i hi => ?_⟩
  rw [getElem?_patch, if_pos (by omega), Nat.add_sub_cancel_left]

end Buffer

end SimpleBinary
