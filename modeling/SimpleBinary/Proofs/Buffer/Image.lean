import SimpleBinary.Buffer

/-!
# Images of a range

An image says what stands in a range of a buffer: bytes, and gaps where anything may stand. Stamping
an image writes its bytes and leaves what lies under its gaps. A sequence of writes to adjoining
ranges is one stamp (`stamp_append`), and a stamped buffer shows the image (`shows_stamp`), part by
part (`shows_append`).
-/

namespace SimpleBinary

abbrev Image := List (Option UInt8)

def Image.ofBytes (bytes : Bytes) : Image := bytes.map some

@[simp] theorem Image.length_ofBytes (bytes : Bytes) : (Image.ofBytes bytes).length = bytes.length := by
  rw [Image.ofBytes, List.length_map]

theorem Image.getElem?_ofBytes (bytes : Bytes) (i : Nat) :
    (Image.ofBytes bytes)[i]?.join = bytes[i]? := by
  rw [Image.ofBytes, List.getElem?_map]
  cases bytes[i]? <;> rfl

namespace Buffer

def stamp (buffer : Buffer) (offset : Nat) (image : Image) : Buffer :=
  buffer.mapIdx fun i byte => if offset ≤ i then image[i - offset]?.join.getD byte else byte

@[simp] theorem size_stamp (buffer : Buffer) (offset : Nat) (image : Image) :
    (buffer.stamp offset image).size = buffer.size := by
  rw [stamp, Array.size_mapIdx]

theorem getElem?_stamp (buffer : Buffer) (offset : Nat) (image : Image) (i : Nat) :
    (buffer.stamp offset image)[i]? = buffer[i]?.map fun byte =>
      if offset ≤ i then image[i - offset]?.join.getD byte else byte := by
  rw [stamp, Array.getElem?_mapIdx]

theorem getElem?_stamp_of_lt {buffer : Buffer} {offset i : Nat} {image : Image} (h : i < offset) :
    (buffer.stamp offset image)[i]? = buffer[i]? := by
  rw [getElem?_stamp]
  cases buffer[i]? with
  | none => rfl
  | some byte => rw [Option.map_some, if_neg (by omega)]

theorem getElem?_stamp_of_ge {buffer : Buffer} {offset i : Nat} {image : Image}
    (h : offset + image.length ≤ i) : (buffer.stamp offset image)[i]? = buffer[i]? := by
  rw [getElem?_stamp]
  cases buffer[i]? with
  | none => rfl
  | some byte => rw [Option.map_some, List.getElem?_eq_none (by omega)]; split <;> rfl

theorem getElem?_stamp_gap {buffer : Buffer} {offset i : Nat} {image : Image} (h : image[i]? = some none) :
    (buffer.stamp offset image)[offset + i]? = buffer[offset + i]? := by
  rw [getElem?_stamp, Nat.add_sub_cancel_left, h]
  cases buffer[offset + i]? with
  | none => rfl
  | some byte => rw [Option.map_some, if_pos (Nat.le_add_right ..)]; rfl

@[simp] theorem stamp_nil (buffer : Buffer) (offset : Nat) : buffer.stamp offset [] = buffer := by
  apply Array.ext_getElem?
  intro i
  rcases Nat.lt_or_ge i offset with h | h
  · exact getElem?_stamp_of_lt h
  · exact getElem?_stamp_of_ge (by simpa using h)

theorem stamp_append (buffer : Buffer) (offset : Nat) (a b : Image) :
    (buffer.stamp offset a).stamp (offset + a.length) b = buffer.stamp offset (a ++ b) := by
  apply Array.ext_getElem?
  intro i
  rcases Nat.lt_or_ge i (offset + a.length) with h | h
  · rw [getElem?_stamp_of_lt h, getElem?_stamp, getElem?_stamp]
    congr 1; funext byte
    by_cases ho : offset ≤ i
    · rw [if_pos ho, if_pos ho, List.getElem?_append_left (by omega)]
    · rw [if_neg ho, if_neg ho]
  · rw [getElem?_stamp, getElem?_stamp_of_ge h, getElem?_stamp]
    congr 1; funext byte
    rw [if_pos h, if_pos (by omega), List.getElem?_append_right (by omega), Nat.sub_sub]

theorem patch_eq_stamp (buffer : Buffer) (offset : Nat) (bytes : Bytes) :
    buffer.patch offset bytes = buffer.stamp offset (.ofBytes bytes) := by
  apply Array.ext_getElem?
  intro i
  rw [getElem?_patch, getElem?_stamp]
  by_cases hs : i < buffer.size
  · rw [Array.getElem?_eq_getElem hs, Option.map_some, Image.getElem?_ofBytes]
    by_cases h : offset ≤ i
    · rcases Nat.lt_or_ge (i - offset) bytes.length with hl | hl
      · rw [if_pos (by omega), if_pos h, List.getElem?_eq_getElem hl]; rfl
      · rw [if_neg (by omega), if_pos h, List.getElem?_eq_none hl]; rfl
    · rw [if_neg (by omega), if_neg h]
  · rw [if_neg (by omega), Array.getElem?_eq_none (by omega)]; rfl

/-! ## Images shown by a buffer -/

def Shows (buffer : Buffer) (offset : Nat) (image : Image) : Prop :=
  offset + image.length ≤ buffer.size ∧
    ∀ i byte, image[i]? = some (some byte) → buffer[offset + i]? = some byte

theorem shows_stamp {buffer : Buffer} {offset : Nat} {image : Image}
    (h : offset + image.length ≤ buffer.size) : (buffer.stamp offset image).Shows offset image := by
  refine ⟨by rwa [size_stamp], fun i byte hi => ?_⟩
  have hl : i < image.length := (List.getElem?_eq_some_iff.mp hi).1
  rw [getElem?_stamp, Array.getElem?_eq_getElem (by omega), Option.map_some, if_pos (by omega),
    Nat.add_sub_cancel_left, hi]
  rfl

theorem shows_append {buffer : Buffer} {offset : Nat} {a b : Image} :
    buffer.Shows offset (a ++ b) ↔ buffer.Shows offset a ∧ buffer.Shows (offset + a.length) b := by
  unfold Shows
  rw [List.length_append]
  apply Iff.intro
  · intro h
    obtain ⟨hs, hb⟩ := h
    refine ⟨⟨by omega, fun i byte hi => hb i byte ?_⟩, by omega, fun i byte hi => ?_⟩
    · rw [List.getElem?_append_left (List.getElem?_eq_some_iff.mp hi).1, hi]
    · rw [Nat.add_assoc]
      apply hb
      rw [List.getElem?_append_right (by omega), Nat.add_sub_cancel_left, hi]
  · intro h
    obtain ⟨⟨_, ha⟩, hs, hb⟩ := h
    refine ⟨by omega, fun i byte hi => ?_⟩
    rcases Nat.lt_or_ge i a.length with h | h
    · rw [List.getElem?_append_left h] at hi
      exact ha i byte hi
    · rw [List.getElem?_append_right h] at hi
      rw [← hb _ _ hi]
      congr 1; omega

theorem Shows.window {buffer : Buffer} {offset k : Nat} {image : Image} {bytes : Bytes}
    (h : buffer.Shows offset image) (hk : k + bytes.length ≤ image.length)
    (hb : ∀ i < bytes.length, image[k + i]? = some bytes[i]?) :
    buffer.window (offset + k) bytes.length = .ok bytes := by
  refine window_eq_ok_iff.mpr ⟨by have := h.1; omega, rfl, fun i hi => ?_⟩
  rw [Nat.add_assoc]
  have hi' := hb i hi
  rw [List.getElem?_eq_getElem hi] at hi' ⊢
  exact (h.2 _ _ hi').symm

theorem Shows.window_ofBytes {buffer : Buffer} {offset : Nat} {bytes : Bytes}
    (h : buffer.Shows offset (.ofBytes bytes)) : buffer.window offset bytes.length = .ok bytes := by
  refine Shows.window (k := 0) h (by rw [Image.length_ofBytes]; omega) fun i hi => ?_
  rw [Image.ofBytes, Nat.zero_add, List.getElem?_map, List.getElem?_eq_getElem hi]
  rfl

theorem length_of_window {buffer : Buffer} {offset width : Nat} {bytes : Bytes}
    (h : buffer.window offset width = .ok bytes) : bytes.length = width := (window_eq_ok_iff.mp h).2.1

theorem window_eq_extract {buffer : Buffer} {offset width : Nat} (h : offset + width ≤ buffer.size) :
    buffer.window offset width = .ok (buffer.extract offset (offset + width)).toList := if_pos h

theorem extract_of_window {buffer : Buffer} {offset width : Nat} {bytes : Bytes}
    (h : buffer.window offset width = .ok bytes) :
    (buffer.extract offset (offset + width)).toList = bytes := by
  unfold window at h
  rw [if_pos (window_eq_ok_iff.mp h).1] at h
  exact Except.ok.inj h

theorem extract_of_le {buffer : Buffer} {offset n : Nat} {bytes : Bytes}
    (h : (buffer.extract offset (offset + bytes.length)).toList = bytes) (hn : n ≤ bytes.length) :
    (buffer.extract offset (offset + n)).toList = bytes.take n := by
  rw [← h, Array.toList_extract, Array.toList_extract, List.extract_eq_take_drop,
    List.extract_eq_take_drop, List.take_take, Nat.add_sub_cancel_left, Nat.add_sub_cancel_left,
    Nat.min_eq_left hn]

theorem toList_patch_zero {buffer : Buffer} {bytes : Bytes} (h : bytes.length ≤ buffer.size) :
    (buffer.patch 0 bytes).toList = bytes ++ buffer.toList.drop bytes.length := by
  apply List.ext_getElem?
  intro i
  rw [Array.getElem?_toList, getElem?_patch, Nat.sub_zero]
  by_cases hi : i < bytes.length
  · rw [if_pos (by omega), List.getElem?_append_left hi]
  · rw [if_neg (by omega), List.getElem?_append_right (by omega), List.getElem?_drop, Array.getElem?_toList]
    congr 1
    omega

end Buffer

end SimpleBinary
