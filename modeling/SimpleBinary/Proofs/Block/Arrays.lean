import SimpleBinary.Proofs.Block.Lens

/-!
# Arrays as a whole and by element

The elements of an array lie one after the other, apart from each other, and are all there is in its place
(`covers_iff`). So an array that lies in the buffer is filled by putting its elements in any order, and two
buffers with the same elements that are the same elsewhere are the same buffer (`eq_of_windows`): of bytes
it is the one that a copy of the whole leaves. At the end of the buffer the two differ, for the whole is refused
where single elements may still fit.
-/

namespace SimpleBinary

namespace ArrayField
variable {c : Carrier} {f : ArrayField c} {i j x offset : Nat}

def InElement (f : ArrayField c) (i x : Nat) : Prop :=
  ∃ offset, f.elementOffset i = .ok offset ∧ offset ≤ x ∧ x < offset + c.bytes

theorem elementOffset_eq_ok_iff :
    f.elementOffset i = .ok offset ↔ i < f.length ∧ offset = f.offset + i * c.bytes := by
  unfold elementOffset
  split
  · next h =>
    rw [Except.ok.injEq]
    exact ⟨fun e => ⟨h, e.symm⟩, fun e => e.2.symm⟩
  · next h => exact ⟨nofun, fun e => absurd e.1 h⟩

theorem inElement_iff :
    f.InElement i x ↔ i < f.length ∧ f.offset + i * c.bytes ≤ x ∧ x < f.offset + i * c.bytes + c.bytes := by
  unfold InElement
  simp only [elementOffset_eq_ok_iff]
  constructor
  · rintro ⟨_, ⟨hi, rfl⟩, hx⟩
    exact ⟨hi, hx⟩
  · rintro ⟨hi, hx⟩
    exact ⟨_, ⟨hi, rfl⟩, hx⟩

theorem element_le (h : i < j) : i * c.bytes + c.bytes ≤ j * c.bytes := by
  rw [← Nat.succ_mul]
  exact Nat.mul_le_mul_right _ h

theorem elements_apart (h : i ≠ j) :
    i * c.bytes + c.bytes ≤ j * c.bytes ∨ j * c.bytes + c.bytes ≤ i * c.bytes :=
  (Nat.lt_or_gt_of_ne h).imp element_le element_le

theorem InElement.eq (hi : f.InElement i x) (hj : f.InElement j x) : i = j := by
  obtain ⟨-, hi⟩ := inElement_iff.mp hi
  obtain ⟨-, hj⟩ := inElement_iff.mp hj
  by_cases h : i = j
  · exact h
  · rcases elements_apart (c := c) h with hsep | hsep <;> omega

theorem exists_inElement_iff : (∃ i, f.InElement i x) ↔ f.offset ≤ x ∧ x < f.offset + f.width := by
  simp only [inElement_iff]
  unfold width
  constructor
  · rintro ⟨i, hi, hx⟩
    have hle : i * c.bytes + c.bytes ≤ f.length * c.bytes := element_le hi
    omega
  · rintro ⟨hle, hlt⟩
    have hpos : 0 < c.bytes := Nat.pos_of_ne_zero fun h => by rw [h, Nat.mul_zero] at hlt; omega
    have hdiv := Nat.div_add_mod' (x - f.offset) c.bytes
    have hmod := Nat.mod_lt (x - f.offset) hpos
    exact ⟨(x - f.offset) / c.bytes, Nat.div_lt_of_lt_mul (by rw [Nat.mul_comm]; omega), by omega, by omega⟩

/-! ## In a buffer -/

variable {b : Block} {buffer written written' : Buffer}

def place (f : ArrayField c) (b : Block) (i : Nat) : Nat := b.base + (f.offset + i * c.bytes)

def Covers (f : ArrayField c) (b : Block) (x : Nat) : Prop :=
  b.base + f.offset ≤ x ∧ x < b.base + f.offset + f.width

theorem place_le (hi : i < f.length) : f.place b i + c.bytes ≤ b.base + f.offset + f.width := by
  have hle : i * c.bytes + c.bytes ≤ f.length * c.bytes := element_le hi
  unfold place width
  omega

theorem covers_iff : f.Covers b x ↔ ∃ i < f.length, f.place b i ≤ x ∧ x < f.place b i + c.bytes := by
  unfold Covers place
  constructor
  · rintro ⟨hle, hlt⟩
    have hrange : f.offset ≤ x - b.base ∧ x - b.base < f.offset + f.width := by omega
    obtain ⟨i, hi⟩ := exists_inElement_iff.mpr hrange
    obtain ⟨hi, hx⟩ := inElement_iff.mp hi
    exact ⟨i, hi, by omega, by omega⟩
  · rintro ⟨i, hi, hle, hlt⟩
    have hend := f.place_le (b := b) hi
    unfold place at hend
    omega

theorem window_place_patch (h : i ≠ j) {bytes : Bytes} (hlength : bytes.length = c.bytes) :
    (buffer.patch (f.place b i) bytes).window (f.place b j) c.bytes = buffer.window (f.place b j) c.bytes := by
  refine (Buffer.sameOn_patch (P := fun x => f.place b j ≤ x ∧ x < f.place b j + c.bytes) buffer ?_).window
    fun _ hle hlt => ⟨hle, hlt⟩
  rintro x hle hlt ⟨hle', hlt'⟩
  unfold place at hle hlt hle' hlt'
  rcases elements_apart (c := c) h with hsep | hsep <;> omega

theorem eq_of_windows (h : written.SameOn (fun x => ¬ f.Covers b x) written')
    (hin : b.base + f.offset + f.width ≤ written.size)
    (hsame : ∀ i < f.length, written'.window (f.place b i) c.bytes = written.window (f.place b i) c.bytes) :
    written' = written := by
  apply Array.ext_getElem?
  intro x
  by_cases hx : f.Covers b x
  · obtain ⟨i, hi, hle, hlt⟩ := covers_iff.mp hx
    have hend := f.place_le (b := b) hi
    obtain ⟨-, -, hbytes⟩ := Buffer.window_eq_ok_iff.mp (Buffer.window_eq_extract (Nat.le_trans hend hin))
    obtain ⟨-, -, hbytes'⟩ := Buffer.window_eq_ok_iff.mp
      ((hsame i hi).trans (Buffer.window_eq_extract (Nat.le_trans hend hin)))
    obtain ⟨k, rfl⟩ := Nat.exists_eq_add_of_le hle
    rw [← hbytes k (by omega), ← hbytes' k (by omega)]
  · exact h.same x hx

end ArrayField

/-! ## Elements put one after the other -/

namespace Block
variable {b : Block} {c : Carrier} {f : ArrayField c} {i : Nat} {buffer : Buffer} {v : c.Value}

def putElements (b : Block) (f : ArrayField c) (values : Nat → c.Value) (order : List Nat) : Edit Unit :=
  order.forM fun i => b.putElement f i (values i)

theorem putElement_eq_ok (hi : i < f.length) (hin : b.base + f.offset + f.width ≤ buffer.size) :
    b.putElement f i v buffer = .ok () (buffer.patch (f.place b i) (c.encode f.order v)) := by
  have hlook : Edit.look (fun _ => f.elementOffset i) buffer = .ok _ buffer :=
    Edit.look_eq_ok_iff.mpr ⟨ArrayField.elementOffset_eq_ok_iff.mpr ⟨hi, rfl⟩, rfl⟩
  refine (bind_of_ok hlook).trans (Edit.overwrite_eq_ok_iff.mpr ⟨?_, rfl⟩)
  rw [c.length_encode]
  exact Nat.le_trans (f.place_le hi) hin

theorem getElement_eq_ok (hp : b.version.includes f.since = true) (hi : i < f.length) {raw : Bytes}
    (hw : buffer.window (f.place b i) c.bytes = .ok raw) : b.getElement f i buffer = .ok (c.decode f.order raw) := by
  unfold ArrayField.place at hw
  rw [getElement_eq_fetch hi]
  unfold fetch
  dsimp only
  rw [if_pos hp, hw]
  rfl

theorem getElement_congr {written : Buffer} (hi : i < f.length)
    (hw : written.window (f.place b i) c.bytes = buffer.window (f.place b i) c.bytes) :
    b.getElement f i written = b.getElement f i buffer := by
  unfold ArrayField.place at hw
  rw [getElement_eq_fetch hi]
  unfold fetch
  dsimp only
  rw [hw]

end Block

/-- What is left of a buffer when the values have been put at the indices. -/
structure ArrayField.Filled {c : Carrier} (f : ArrayField c) (b : Block) (values : Nat → c.Value) (order : List Nat)
    (buffer written : Buffer) : Prop where
  outside : buffer.SameOn (fun x => ¬ f.Covers b x) written
  filled : ∀ i ∈ order, written.window (f.place b i) c.bytes = .ok (c.encode f.order (values i))
  others : ∀ i < f.length, i ∉ order → written.window (f.place b i) c.bytes = buffer.window (f.place b i) c.bytes

namespace ArrayField
variable {c : Carrier} {f : ArrayField c} {b : Block} {i : Nat} {buffer written written' : Buffer}
  {values : Nat → c.Value} {order order' : List Nat}

theorem sameOn_patch_element (hi : i < f.length) {v : c.Value} :
    buffer.SameOn (fun x => ¬ f.Covers b x) (buffer.patch (f.place b i) (c.encode f.order v)) := by
  refine Buffer.sameOn_patch buffer fun x hle hlt h => h ?_
  rw [c.length_encode] at hlt
  exact covers_iff.mpr ⟨i, hi, hle, hlt⟩

theorem window_patch_element (hi : i < f.length) (hin : b.base + f.offset + f.width ≤ buffer.size) {v : c.Value} :
    (buffer.patch (f.place b i) (c.encode f.order v)).window (f.place b i) c.bytes = .ok (c.encode f.order v) := by
  have hlength := c.length_encode f.order v
  have hle := Nat.le_trans (f.place_le hi) hin
  have hwindow := Buffer.window_overwrite (Buffer.overwrite_eq_ok_iff.mpr ⟨hlength ▸ hle, rfl⟩)
  rwa [hlength] at hwindow

theorem Filled.cons (hi : i < f.length) (hin : b.base + f.offset + f.width ≤ buffer.size)
    (h : f.Filled b values order (buffer.patch (f.place b i) (c.encode f.order (values i))) written) :
    f.Filled b values (i :: order) buffer written where
  outside := trans_of (Buffer.SameOn _) (sameOn_patch_element hi) h.outside
  filled j hj := by
    by_cases hmem : j ∈ order
    · exact h.filled j hmem
    · obtain rfl : j = i := (List.mem_cons.mp hj).resolve_right hmem
      rw [h.others j hi hmem, window_patch_element hi hin]
  others j hj hmem := by
    obtain ⟨hne, hmem⟩ := not_or.mp (mt List.mem_cons.mpr hmem)
    rw [h.others j hj hmem, window_place_patch (Ne.symm hne) (c.length_encode f.order (values i))]

theorem exists_filled (hin : b.base + f.offset + f.width ≤ buffer.size) (horder : ∀ i ∈ order, i < f.length) :
    ∃ written, b.putElements f values order buffer = .ok () written ∧ f.Filled b values order buffer written := by
  induction order generalizing buffer with
  | nil => exact ⟨buffer, rfl, refl_of (Buffer.SameOn _) buffer, nofun, fun _ _ _ => rfl⟩
  | cons i order ih =>
    obtain ⟨hi, horder⟩ := List.forall_mem_cons.mp horder
    have hput : b.putElement f i (values i) buffer = .ok () _ := Block.putElement_eq_ok hi hin
    have hin' : b.base + f.offset + f.width ≤ (buffer.patch (f.place b i) (c.encode f.order (values i))).size := by
      rwa [Buffer.size_patch]
    obtain ⟨written, hrun, hfilled⟩ := ih hin' horder
    exact ⟨written, (bind_of_ok hput).trans hrun, hfilled.cons hi hin⟩

theorem Filled.eq (hin : b.base + f.offset + f.width ≤ buffer.size) (h : f.Filled b values order buffer written)
    (h' : f.Filled b values order' buffer written') (hall : ∀ i < f.length, i ∈ order)
    (hall' : ∀ i < f.length, i ∈ order') : written' = written := by
  have hsame : written.SameOn (fun x => ¬ f.Covers b x) written' :=
    trans_of (Buffer.SameOn _) h.outside.symm h'.outside
  refine eq_of_windows hsame (by rwa [h.outside.size_eq]) fun i hi => ?_
  rw [h.filled i (hall i hi), h'.filled i (hall' i hi)]

end ArrayField

/-! ## Bytes as a whole -/

def Carrier.ofByte (byte : UInt8) : (Carrier.unsigned .w8).Value := byte.toBitVec

theorem Carrier.encode_ofByte (order : ByteOrder) (byte : UInt8) :
    (Carrier.unsigned .w8).encode order (ofByte byte) = [byte] := by
  have hdigits : digits 1 byte.toNat = [byte] := congrArg (· :: []) UInt8.ofNat_toNat
  show order.arrange (digits 1 byte.toNat) = [byte]
  rw [hdigits]
  cases order <;> rfl

theorem Carrier.decode_byte (order : ByteOrder) (byte : UInt8) :
    (Carrier.unsigned .w8).decode order [byte] = ofByte byte := by
  rw [← encode_ofByte order, decode_encode]

namespace ByteArrayField
variable {f : ByteArrayField} {b : Block} {buffer dst : Buffer} {src : Bytes}

theorem width_eq : f.width = f.length := Nat.mul_one f.length

theorem place_eq (i : Nat) : f.place b i = b.base + f.offset + i := by
  unfold ArrayField.place
  rw [show (Carrier.unsigned .w8).bytes = 1 from rfl, Nat.mul_one, Nat.add_assoc]

def copyOver (f : ByteArrayField) (b : Block) (buffer : Buffer) : Edit Nat := do
  let dst ← get
  if dst.size < f.length then
    throw (.copyOutOfRange f.length dst.size)
  match ← Edit.look fun _ => b.fetch f.since f.offset f.length buffer with
  | some raw =>
    set (dst.patch 0 raw)
    return f.length
  | none => return 0

/-- A copy as it leaves the slice: a refused one has not touched it. -/
def lent (dst : Buffer) : Except AccessError (Nat × Bytes) → EStateM.Result AccessError Buffer Nat
  | .ok (n, after) => .ok n after.toArray
  | .error e => .error e dst

theorem copyOver_eq_lent : f.copyOver b buffer dst = lent dst (b.getArray f dst.toList buffer) := by
  unfold Block.getArray copyOver
  rw [get_bind]
  by_cases h : dst.size < f.length
  · rw [if_pos h, if_pos (by rwa [Array.length_toList])]
    rfl
  · rw [if_neg h, if_neg (by rwa [Array.length_toList])]
    cases hfetch : b.fetch f.since f.offset f.length buffer with
    | error e => rfl
    | ok raw =>
      cases raw with
      | none => rfl
      | some raw =>
        have hlength : raw.length = f.length := Machine.length_of_fetch hfetch
        have hfit : raw.length ≤ dst.size := by omega
        have hfront := Buffer.toList_patch_zero hfit
        rw [hlength] at hfront
        exact congrArg (EStateM.Result.ok f.length) (congrArg List.toArray hfront)

theorem putArray_eq_ok (hsrc : f.length ≤ src.length) (hin : b.base + f.offset + f.length ≤ buffer.size) :
    b.putArray f src buffer = .ok () (buffer.patch (b.base + f.offset) (src.take f.length)) := by
  unfold Block.putArray
  rw [if_neg (Nat.not_lt.mpr hsrc)]
  refine Edit.overwrite_eq_ok_iff.mpr ⟨?_, rfl⟩
  rwa [List.length_take_of_le hsrc]

theorem filled_patch (hsrc : f.length ≤ src.length) (hin : b.base + f.offset + f.length ≤ buffer.size)
    {order : List Nat} (horder : ∀ i, i ∈ order ↔ i < f.length) :
    f.Filled b (fun i => Carrier.ofByte (src.getD i 0)) order buffer
      (buffer.patch (b.base + f.offset) (src.take f.length)) where
  outside := by
    refine Buffer.sameOn_patch buffer fun x hle hlt h => h ⟨hle, ?_⟩
    rwa [List.length_take_of_le hsrc, ← width_eq] at hlt
  filled i hi := by
    have hlt := (horder i).mp hi
    have hsrc' : i < src.length := Nat.lt_of_lt_of_le hlt hsrc
    have hbyte : src.getD i 0 = src[i] := by
      rw [List.getD_eq_getElem?_getD, List.getElem?_eq_getElem hsrc', Option.getD_some]
    rw [hbyte, Carrier.encode_ofByte, place_eq]
    refine Buffer.window_eq_ok_iff.mpr ⟨?_, rfl, fun k hk => ?_⟩
    · rw [Buffer.size_patch]
      exact Nat.le_trans (Nat.add_lt_add_left hlt _) hin
    · obtain rfl : k = 0 := Nat.lt_one_iff.mp hk
      rw [Nat.add_zero, Buffer.getElem?_patch, List.length_take_of_le hsrc, if_pos (by omega),
        Nat.add_sub_cancel_left, List.getElem?_take_of_lt hlt, List.getElem?_eq_getElem hsrc']
      rfl
  others i hi hmem := absurd ((horder i).mpr hi) hmem

theorem getElement_of_window (hp : b.version.includes f.since = true) {raw : Bytes}
    (hw : buffer.window (b.base + f.offset) f.length = .ok raw) {i : Nat} (hi : i < f.length) :
    ∃ byte, raw[i]? = some byte ∧ b.getElement f i buffer = .ok (Carrier.ofByte byte) := by
  obtain ⟨hin, hlength, hsame⟩ := Buffer.window_eq_ok_iff.mp hw
  have hbyte : raw[i]? = some _ := List.getElem?_eq_getElem (by omega)
  refine ⟨_, hbyte, ?_⟩
  have helement : buffer.window (f.place b i) (Carrier.unsigned .w8).bytes = .ok [raw[i]] := by
    rw [place_eq]
    refine Buffer.window_eq_ok_iff.mpr ⟨Nat.le_trans (Nat.add_lt_add_left hi _) hin, rfl, fun k hk => ?_⟩
    obtain rfl : k = 0 := Nat.lt_one_iff.mp hk
    rw [Nat.add_zero, ← hsame i hi, hbyte]
    rfl
  rw [Block.getElement_eq_ok hp hi helement, Carrier.decode_byte]

theorem copyOver_eq_ok (hp : b.version.includes f.since = true) (hdst : f.length ≤ dst.size) {raw : Bytes}
    (hw : buffer.window (b.base + f.offset) f.length = .ok raw) :
    f.copyOver b buffer dst = .ok f.length (dst.patch 0 raw) := by
  have hlook : Edit.look (fun _ => b.fetch f.since f.offset f.length buffer) dst = .ok (some raw) dst := by
    unfold Block.fetch
    rw [if_pos hp, hw]
    rfl
  unfold copyOver
  rw [get_bind, if_neg (Nat.not_lt.mpr hdst)]
  exact bind_of_ok hlook

theorem copyOver_eq_error (hp : b.version.includes f.since = true)
    (h : buffer.size < b.base + f.offset + f.length) : ∃ e, f.copyOver b buffer dst = .error e dst := by
  unfold copyOver
  rw [get_bind]
  by_cases hdst : dst.size < f.length
  · rw [if_pos hdst]
    exact ⟨_, rfl⟩
  · rw [if_neg hdst]
    have hlook : Edit.look (fun _ => b.fetch f.since f.offset f.length buffer) dst =
        .error (.accessBeyondCapacity (b.base + f.offset) f.length buffer.size) dst := by
      unfold Edit.look Block.fetch
      rw [if_pos hp, Buffer.window_eq_error h]
      rfl
    exact ⟨_, bind_of_error hlook⟩

theorem putArray_eq_error (h : buffer.size < b.base + f.offset + f.length) :
    ∃ e, b.putArray f src buffer = .error e buffer := by
  unfold Block.putArray
  by_cases hsrc : src.length < f.length
  · rw [if_pos hsrc]
    exact ⟨_, rfl⟩
  · rw [if_neg hsrc]
    refine ⟨_, Edit.overwrite_eq_error ?_⟩
    rwa [List.length_take_of_le (Nat.not_lt.mp hsrc)]

end ByteArrayField

/-! ## The two agree -/

structure ArrayField.Elementwise {c : Carrier} (f : ArrayField c) (b : Block) : Prop where
  apart : ∀ i j x, f.InElement i x → f.InElement j x → i = j
  tiles : ∀ x, (∃ i, f.InElement i x) ↔ f.offset ≤ x ∧ x < f.offset + f.width
  places : ∀ i, i < f.length ↔ ∃ offset, f.elementOffset i = .ok offset
  puts : ∀ buffer : Buffer, b.base + f.offset + f.width ≤ buffer.size →
    ∀ (values : Nat → c.Value) (order : List Nat), (∀ i ∈ order, i < f.length) →
    ∃ written, b.putElements f values order buffer = .ok () written ∧
      (∀ i ∈ order, b.getElement f i written = .ok (values i)) ∧
      (∀ i < f.length, i ∉ order → b.getElement f i written = b.getElement f i buffer) ∧
      buffer.SameOn (fun x => ¬ (b.base + f.offset ≤ x ∧ x < b.base + f.offset + f.width)) written
  machine : ∀ buffer : Buffer, buffer.size < UInt64.size → b.base + f.offset + f.width ≤ buffer.size →
    ∀ i < f.length, (∀ v, Realizes id (Machine.putElement b f i v) (b.putElement f i v) buffer) ∧
      Machine.getElement b f i buffer = (b.getElement f i buffer).mapError .refused

structure ByteArrayField.AtOnce (f : ByteArrayField) (b : Block) (buffer : Buffer) : Prop where
  puts : b.base + f.offset + f.width ≤ buffer.size → ∀ src : Bytes, f.length ≤ src.length →
    ∀ order : List Nat, (∀ i, i ∈ order ↔ i < f.length) →
    ∃ written, b.putArray f src buffer = .ok () written ∧
      b.putElements f (fun i => Carrier.ofByte (src.getD i 0)) order buffer = .ok () written
  gets : b.base + f.offset + f.width ≤ buffer.size → ∀ dst : Buffer, f.length ≤ dst.size →
    ∃ copied, f.copyOver b buffer dst = .ok f.length copied ∧ dst.SameOn (f.length ≤ ·) copied ∧
      ∀ i < f.length, ∃ byte, copied[i]? = some byte ∧ b.getElement f i buffer = .ok (Carrier.ofByte byte)
  copies : ∀ dst, f.copyOver b buffer dst = lent dst (b.getArray f dst.toList buffer)
  refused : buffer.size < b.base + f.offset + f.width →
    (∀ src, ∃ e, b.putArray f src buffer = .error e buffer) ∧
      ∀ dst, ∃ e, f.copyOver b buffer dst = .error e dst
  machine : buffer.size < UInt64.size → b.base + f.offset < UInt64.size →
    (∀ src, Realizes id (Machine.putArray b f src) (b.putArray f src) buffer) ∧
      ∀ dst, Machine.getArray b f dst buffer = (b.getArray f dst buffer).mapError .refused

theorem ArrayField.elementwise {c : Carrier} {f : ArrayField c} {b : Block} (hp : b.version.includes f.since = true) :
    f.Elementwise b where
  apart _ _ _ := InElement.eq
  tiles _ := exists_inElement_iff
  places i := by simp [elementOffset_eq_ok_iff]
  puts buffer hin values order horder := by
    obtain ⟨written, hrun, hfilled⟩ := exists_filled hin horder
    refine ⟨written, hrun, fun i hi => ?_, fun i hi hmem => ?_, hfilled.outside⟩
    · rw [Block.getElement_eq_ok hp (horder i hi) (hfilled.filled i hi), c.decode_encode]
    · exact Block.getElement_congr hi (hfilled.others i hi hmem)
  machine buffer hs hin i hi := by
    have hplace : i < f.length → b.base + (f.offset + i * c.bytes) < UInt64.size := fun hi =>
      Nat.lt_of_le_of_lt (Nat.le_trans (Nat.le_add_right ..) (Nat.le_trans (f.place_le hi) hin)) hs
    exact ⟨fun _ => Machine.realizes_putElement hs hplace, Machine.getElement_eq hs hplace⟩

theorem ByteArrayField.atOnce {f : ByteArrayField} {b : Block} (hp : b.version.includes f.since = true)
    (buffer : Buffer) : f.AtOnce b buffer where
  puts hin src hsrc order horder := by
    have hall (i : Nat) (hi : i < f.length) : i ∈ order := (horder i).mpr hi
    have hend : b.base + f.offset + f.length ≤ buffer.size := width_eq (f := f) ▸ hin
    obtain ⟨written, hrun, hfilled⟩ := ArrayField.exists_filled hin fun i hi => (horder i).mp hi
    obtain rfl := (filled_patch hsrc hend horder).eq hin hfilled hall hall
    exact ⟨_, putArray_eq_ok hsrc hend, hrun⟩
  gets hin dst hdst := by
    rw [width_eq] at hin
    obtain ⟨raw, hw⟩ : ∃ raw, buffer.window (b.base + f.offset) f.length = .ok raw :=
      ⟨_, Buffer.window_eq_extract hin⟩
    have hlength := Buffer.length_of_window hw
    refine ⟨_, copyOver_eq_ok hp hdst hw, Buffer.sameOn_patch dst fun i _ hlt hle => by omega, fun i hi => ?_⟩
    obtain ⟨byte, hbyte, helement⟩ := getElement_of_window hp hw hi
    refine ⟨byte, ?_, helement⟩
    rw [Buffer.getElem?_patch, if_pos (by omega), Nat.sub_zero, hbyte]
  copies _ := copyOver_eq_lent
  refused h := by
    rw [width_eq] at h
    exact ⟨fun _ => putArray_eq_error h, fun _ => copyOver_eq_error hp h⟩
  machine hs hb := ⟨fun _ => Machine.realizes_putArray hs hb, fun _ => Machine.getArray_eq hs hb⟩

/-- An array of data that is not older than it is the sum of its elements, wherever it lies and however many there
are: these may be put in any order, and a byte array is written and copied at once as it is byte by byte. Only an
array that leaves the buffer is refused as a whole. -/
theorem whole_and_elements_agree {b : Block} :
    (∀ {c : Carrier} (f : ArrayField c), b.version.includes f.since = true → f.Elementwise b) ∧
    ∀ f : ByteArrayField, b.version.includes f.since = true → ∀ buffer, f.AtOnce b buffer :=
  ⟨fun _ => ArrayField.elementwise, fun _ => ByteArrayField.atOnce⟩

theorem whole_and_elements_agree_codes :
    let codes : ArrayField (.unsigned .w16) := { offset := 1, length := 3, order := .big, since := 2 }
    let tag : ByteArrayField := { offset := 4, length := 4 }
    let b : Block := ⟨1, 4⟩
    b.version.includes codes.since = true ∧ b.version.includes tag.since = true ∧
      (∃ written, b.putElements codes (fun i => BitVec.ofNat _ (0x0101 * i)) [2, 1, 0] (Array.replicate 8 7) =
          .ok () written ∧ b.getElement codes 2 written = .ok 0x0202 ∧ written[1]? = some 7) ∧
      (∃ e, tag.copyOver b (Array.replicate 8 7) #[1, 2, 3, 4, 5] = .error e #[1, 2, 3, 4, 5]) ∧
      ∃ copied, tag.copyOver b (Array.replicate 9 7) #[1, 2, 3, 4, 5] = .ok 4 copied ∧ copied[4]? = some 5 := by
  intro codes tag b
  have hcodes : b.version.includes codes.since = true := by decide
  have htag : b.version.includes tag.since = true := by decide
  refine ⟨hcodes, htag, ?_, ?_, ?_⟩
  · obtain ⟨written, hrun, hread, -, hsame⟩ := (whole_and_elements_agree.1 codes hcodes).puts (Array.replicate 8 7)
      (by decide) (fun i => BitVec.ofNat _ (0x0101 * i)) [2, 1, 0] (by decide)
    exact ⟨written, hrun, hread 2 (by decide), hsame.same 1 (by decide)⟩
  · exact ((whole_and_elements_agree.2 tag htag (Array.replicate 8 7)).refused (by decide)).2 _
  · obtain ⟨copied, hrun, hsame, -⟩ := (whole_and_elements_agree.2 tag htag (Array.replicate 9 7)).gets (by decide)
      #[1, 2, 3, 4, 5] (by decide)
    exact ⟨copied, hrun, hsame.same 4 (by decide)⟩

end SimpleBinary
