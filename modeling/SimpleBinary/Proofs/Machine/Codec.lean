import Mathlib.Logic.Function.Basic
import SimpleBinary.Proofs.Block.Update
import SimpleBinary.Proofs.Machine.Access

/-!
# Numbers at the front of a slice

The values of a carrier and the byte strings of its width are in bijection in each byte order. The bytes are
those of the bit pattern, from the lowest up or from the highest down, so they keep whatever a pattern stands for.
On the machine a number is read from the front of a slice and written over it; what is behind it in the slice
stays. A size has no carrier of its own: it is cut to the width, and its bytes are then those of the unsigned
carrier (`ByteOrder.encode_eq`).
-/

namespace SimpleBinary

/-! ## Digits -/

theorem getElem?_digits {width i : Nat} (n : Nat) (h : i < width) :
    (digits width n)[i]? = some (UInt8.ofNat (n / 256 ^ i)) := by
  induction width generalizing n i with
  | zero => exact absurd h (Nat.not_lt_zero i)
  | succ width ih =>
    cases i with
    | zero => rw [Nat.pow_zero, Nat.div_one]; rfl
    | succ i =>
      rw [digits, List.getElem?_cons_succ, ih _ (Nat.lt_of_succ_lt_succ h), Nat.div_div_eq_div_mul, Nat.pow_succ']

theorem digits_mod (width n : Nat) : digits width (n % 256 ^ width) = digits width n := by
  -- the digits stand for the rest, and are the digits of what they stand for
  have h := digits_ofDigits (digits width n)
  rwa [length_digits, ofDigits_digits] at h

namespace Carrier
variable {c : Carrier} {order : ByteOrder} {v : c.Value}

def byte (c : Carrier) (v : c.Value) (i : Nat) : UInt8 := ⟨v.extractLsb' (8 * i) 8⟩

theorem getElem?_encode_little {i : Nat} (h : i < c.bytes) : (c.encode .little v)[i]? = some (c.byte v i) := by
  have hbyte : UInt8.ofNat (v.toNat / 256 ^ i) = c.byte v i := by
    apply UInt8.toNat_inj.mp
    rw [UInt8.toNat_ofNat', byte, UInt8.toNat_ofBitVec, BitVec.extractLsb'_toNat, Nat.shiftRight_eq_div_pow,
      Nat.pow_mul]
  exact (getElem?_digits _ h).trans (congrArg some hbyte)

theorem encode_bijective (c : Carrier) (order : ByteOrder) : Function.Bijective fun v =>
    (⟨c.encode order v, c.length_encode order v⟩ : {raw : Bytes // raw.length = c.bytes}) :=
  Function.bijective_iff_has_inverse.mpr
    ⟨fun raw => c.decode order raw.1, c.decode_encode order, fun raw => Subtype.ext (c.encode_decode order raw.2)⟩

theorem order_decode_encode : order.decode (c.encode order v) = v.toNat := by
  rw [encode, ByteOrder.decode_encode, bytes, ← Width.two_pow_bits, Nat.mod_eq_of_lt v.isLt]

theorem toNat_decode {raw : Bytes} (h : raw.length = c.bytes) : (c.decode order raw).toNat = order.decode raw := by
  have hpattern : order.decode (c.encode order (c.decode order raw)) = (c.decode order raw).toNat := order_decode_encode
  rw [← hpattern, c.encode_decode order h]

/-- Integers are on the wire in two's complement. -/
theorem order_decode_encode_of_toInt? {i : Int} (h : c.toInt? v = some i) :
    (order.decode (c.encode order v) : Int) = i % (2 ^ (8 * c.bytes) : Nat) := by
  have hlt : (v.toNat : Int) < (2 ^ (8 * c.bytes) : Nat) := Int.ofNat_lt.mpr v.isLt
  have hself : (v.toNat : Int) % (2 ^ (8 * c.bytes) : Nat) = v.toNat := Int.emod_eq_of_lt (Int.natCast_nonneg _) hlt
  rw [order_decode_encode]
  cases c with
  | unsigned w =>
    obtain rfl : (v.toNat : Int) = i := Option.some.inj h
    exact hself.symm
  | signed w =>
    obtain rfl : v.toInt = i := Option.some.inj h
    -- a signed number and its pattern are a multiple of the power apart
    rw [BitVec.toInt_eq_toNat_bmod]
    exact hself.symm.trans Int.bmod_emod.symm
  | float32 => cases h
  | float64 => cases h

end Carrier

theorem ByteOrder.encode_eq (order : ByteOrder) (w : Width) (n : Nat) :
    order.encode w.bytes n = (Carrier.unsigned w).encode order (BitVec.ofNat _ n) := by
  show order.arrange (digits w.bytes n) = order.arrange (digits w.bytes (n % 2 ^ w.bits))
  rw [w.two_pow_bits, digits_mod]

namespace Machine

/-! ## Slices of a buffer -/

namespace Region
variable {dst : Region} {buffer : Buffer}

def Within (r : Region) (buffer : Buffer) : Prop := r.start + r.length ≤ buffer.size

theorem within_patch {x : Nat} {raw : Bytes} : dst.Within (buffer.patch x raw) ↔ dst.Within buffer := by
  unfold Within
  rw [Buffer.size_patch]

theorem length_bytes (h : dst.Within buffer) : (dst.bytes buffer).length = dst.length := by
  unfold Within at h
  rw [bytes, Array.length_toList, Array.size_extract]
  omega

theorem window_front (h : dst.Within buffer) {n : Nat} (hn : n ≤ dst.length) :
    buffer.window dst.start n = .ok ((dst.bytes buffer).take n) := by
  have hfront : dst.start + n ≤ buffer.size := Nat.le_trans (Nat.add_le_add_left hn _) h
  have hbytes : (buffer.extract dst.start (dst.start + (dst.bytes buffer).length)).toList = dst.bytes buffer := by
    rw [length_bytes h, bytes]
  rw [Buffer.window_eq_extract hfront, Buffer.extract_of_le hbytes (by rwa [length_bytes h])]

theorem front_patch (h : dst.Within buffer) {raw : Bytes} (hn : raw.length ≤ dst.length) :
    (dst.bytes (buffer.patch dst.start raw)).take raw.length = raw := by
  have hin : dst.start + raw.length ≤ buffer.size := Nat.le_trans (Nat.add_le_add_left hn _) h
  have hread := Buffer.window_overwrite (Buffer.overwrite_eq_ok_iff.mpr ⟨hin, rfl⟩)
  exact Except.ok.inj ((window_front (within_patch.mpr h) hn).symm.trans hread)

end Region

theorem load_bytes {dst : Region} {buffer : Buffer} (hin : dst.Within buffer) {width : Nat} (h : width ≤ dst.length) :
    load (dst.bytes buffer) width = (buffer.window dst.start width).mapError .refused := by
  rw [load_of_le (by rwa [Region.length_bytes hin]), Region.window_front hin h]
  rfl

theorem realizes_save {dst : Region} {buffer : Buffer} (hin : dst.Within buffer) {raw : Bytes}
    (h : raw.length ≤ dst.length) : Realizes id (save dst raw) (Edit.overwrite dst.start raw) buffer :=
  .answer (save_of_le h) (Edit.overwrite_eq_ok_iff.mpr ⟨Nat.le_trans (Nat.add_le_add_left h _) hin, rfl⟩)

/-! ## Numbers -/

def loadNumber (c : Carrier) (order : ByteOrder) (src : Bytes) : Except Trap c.Value :=
  c.decode order <$> load src c.bytes

def saveNumber (c : Carrier) (order : ByteOrder) (v : c.Value) (dst : Region) : Exec Buffer Unit :=
  save dst (c.encode order v)

def loadSize (w : Width) (order : ByteOrder) (src : Bytes) : Except Trap Nat := order.decode <$> load src w.bytes

def saveSize (w : Width) (order : ByteOrder) (n : Nat) (dst : Region) : Exec Buffer Unit :=
  save dst (order.encode w.bytes n)

section
variable {c : Carrier} {w : Width} {order : ByteOrder} {v : c.Value} {src : Bytes} {dst : Region} {buffer : Buffer}

theorem loadNumber_of_le (h : c.bytes ≤ src.length) :
    loadNumber c order src = .ok (c.decode order (src.take c.bytes)) := by
  rw [loadNumber, load_of_le h]
  rfl

theorem loadNumber_of_lt (h : src.length < c.bytes) : loadNumber c order src = .error .fault := by
  rw [loadNumber, load_of_lt h]
  rfl

theorem saveNumber_of_le (h : c.bytes ≤ dst.length) :
    saveNumber c order v dst buffer = .ok () (buffer.patch dst.start (c.encode order v)) :=
  save_of_le (by rwa [c.length_encode])

theorem saveNumber_of_lt (h : dst.length < c.bytes) : saveNumber c order v dst buffer = .error .fault buffer :=
  save_of_lt (by rwa [c.length_encode])

theorem front_saved (hin : dst.Within buffer) (h : c.bytes ≤ dst.length) :
    (dst.bytes (buffer.patch dst.start (c.encode order v))).take c.bytes = c.encode order v := by
  have hfront : (dst.bytes (buffer.patch dst.start (c.encode order v))).take (c.encode order v).length =
      c.encode order v := Region.front_patch hin (by rwa [c.length_encode])
  rwa [c.length_encode] at hfront

theorem load_saved (hin : dst.Within buffer) (h : c.bytes ≤ dst.length) :
    loadNumber c order (dst.bytes (buffer.patch dst.start (c.encode order v))) = .ok v := by
  have hlength : c.bytes ≤ (dst.bytes (buffer.patch dst.start (c.encode order v))).length := by
    rw [Region.length_bytes (Region.within_patch.mpr hin)]
    exact h
  rw [loadNumber_of_le hlength, front_saved hin h, c.decode_encode]

theorem encode_loaded (h : loadNumber c order src = .ok v) : c.encode order v = src.take c.bytes := by
  rcases Nat.lt_or_ge src.length c.bytes with hlt | hle
  · rw [loadNumber_of_lt hlt] at h
    cases h
  · obtain rfl := Except.ok.inj ((loadNumber_of_le hle).symm.trans h)
    exact c.encode_decode order (List.length_take_of_le hle)

theorem sameOn_saved : buffer.SameOn (fun i => ¬ (dst.start ≤ i ∧ i < dst.start + c.bytes))
    (buffer.patch dst.start (c.encode order v)) := by
  refine Buffer.sameOn_patch buffer fun i hle hlt h => h ⟨hle, ?_⟩
  rwa [c.length_encode] at hlt

/-! ### Sizes -/

theorem saveSize_eq (n : Nat) : saveSize w order n = saveNumber (.unsigned w) order (BitVec.ofNat _ n) := by
  funext dst
  rw [saveSize, order.encode_eq w n]
  rfl

theorem loadSize_eq : loadSize w order src = BitVec.toNat <$> loadNumber (.unsigned w) order src := by
  rcases Nat.lt_or_ge src.length w.bytes with hlt | hle
  · rw [loadSize, load_of_lt hlt, loadNumber_of_lt hlt]
    rfl
  · have hlength : (src.take w.bytes).length = (Carrier.unsigned w).bytes := List.length_take_of_le hle
    rw [loadSize, load_of_le hle, loadNumber_of_le (c := .unsigned w) hle]
    exact congrArg Except.ok (Carrier.toNat_decode hlength).symm

theorem saveSize_of_le {n : Nat} (h : w.bytes ≤ dst.length) : saveSize w order n dst buffer =
    .ok () (buffer.patch dst.start ((Carrier.unsigned w).encode order (BitVec.ofNat _ n))) := by
  rw [saveSize_eq]
  exact saveNumber_of_le h

theorem loadSize_saved (hin : dst.Within buffer) (h : w.bytes ≤ dst.length) (n : Nat) :
    loadSize w order (dst.bytes (buffer.patch dst.start ((Carrier.unsigned w).encode order (BitVec.ofNat _ n)))) =
      .ok (n % 2 ^ (8 * w.bytes)) := by
  have hread : loadNumber (.unsigned w) order _ = .ok (BitVec.ofNat _ n) := load_saved hin h
  rw [loadSize_eq, hread]
  exact congrArg Except.ok (BitVec.toNat_ofNat ..)

theorem exists_loadSize (h : w.bytes ≤ src.length) : ∃ n ≤ w.max, loadSize w order src = .ok n := by
  refine ⟨order.decode (src.take w.bytes), order.decode_le_max (List.length_take_of_le h), ?_⟩
  rw [loadSize, load_of_le h]
  rfl

/-! ### Numbers in a message -/

theorem loadNumber_get {b : Block} {f : Field c} (hp : b.version.includes f.since = true)
    (hplace : dst.start = b.base + f.offset) (hin : dst.Within buffer) (h : c.bytes ≤ dst.length) :
    loadNumber c f.order (dst.bytes buffer) = (b.get f buffer).mapError .refused := by
  have hget : b.get f buffer = c.decode f.order <$> buffer.window (b.base + f.offset) c.bytes := by
    unfold Block.get Block.fetch
    rw [if_pos hp]
    cases buffer.window (b.base + f.offset) c.bytes <;> rfl
  rw [hget, mapError_map, loadNumber, load_bytes hin h, hplace]

theorem realizes_put {b : Block} {f : Field c} (hplace : dst.start = b.base + f.offset) (hin : dst.Within buffer)
    (h : c.bytes ≤ dst.length) : Realizes id (saveNumber c f.order v dst) (b.put f v) buffer := by
  unfold Block.put Block.store
  rw [← hplace]
  exact realizes_save hin (by rwa [c.length_encode])

theorem loadSize_read {f : UnsignedField} {base : Nat} (hplace : dst.start = base + f.offset) (hin : dst.Within buffer)
    (h : f.width.bytes ≤ dst.length) :
    loadSize f.width f.order (dst.bytes buffer) = (f.read base buffer).mapError .refused := by
  unfold UnsignedField.read
  rw [mapError_map, loadSize, load_bytes hin h, hplace]

theorem realizes_write {f : UnsignedField} {base n : Nat} (hplace : dst.start = base + f.offset)
    (hin : dst.Within buffer) (h : f.width.bytes ≤ dst.length) :
    Realizes id (saveSize f.width f.order n dst) (f.write base n) buffer := by
  unfold UnsignedField.write
  rw [← hplace]
  exact realizes_save hin (by rwa [ByteOrder.length_encode])

end

end Machine

/-! ## The codec -/

open Machine

/-- What holds between the values of a carrier and their bytes, at the front of slices of a buffer. -/
structure Carrier.Codec (c : Carrier) : Prop where
  bijective : ∀ order, Function.Bijective fun v =>
    (⟨c.encode order v, c.length_encode order v⟩ : {raw : Bytes // raw.length = c.bytes})
  little : ∀ v i, i < c.bytes → (c.encode .little v)[i]? = some (c.byte v i)
  big : ∀ v, c.encode .big v = (c.encode .little v).reverse
  integers : ∀ (order : ByteOrder) v i, c.toInt? v = some i →
    (order.decode (c.encode order v) : Int) = i % (2 ^ (8 * c.bytes) : Nat)
  saves : ∀ order v (dst : Region) (buffer : Buffer), dst.Within buffer → c.bytes ≤ dst.length →
    ∃ written, saveNumber c order v dst buffer = .ok () written ∧
      (dst.bytes written).take c.bytes = c.encode order v ∧ loadNumber c order (dst.bytes written) = .ok v ∧
      buffer.SameOn (fun i => ¬ (dst.start ≤ i ∧ i < dst.start + c.bytes)) written
  loads : ∀ order (src : Bytes), c.bytes ≤ src.length → ∃ v, loadNumber c order src = .ok v ∧
    ∀ (dst : Region) (buffer : Buffer), dst.Within buffer → c.bytes ≤ dst.length →
      ∃ written, saveNumber c order v dst buffer = .ok () written ∧
        (dst.bytes written).take c.bytes = src.take c.bytes
  faults : ∀ order, (∀ src, src.length < c.bytes → loadNumber c order src = .error .fault) ∧
    ∀ v dst buffer, dst.length < c.bytes → saveNumber c order v dst buffer = .error .fault buffer
  fields : ∀ (b : Block) (f : Field c) (dst : Region) (buffer : Buffer), b.version.includes f.since = true →
    dst.start = b.base + f.offset → dst.Within buffer → c.bytes ≤ dst.length →
    loadNumber c f.order (dst.bytes buffer) = (b.get f buffer).mapError .refused ∧
      ∀ v, Realizes id (saveNumber c f.order v dst) (b.put f v) buffer

structure Width.Codec (w : Width) : Prop where
  saves : ∀ order n (dst : Region) (buffer : Buffer), dst.Within buffer → w.bytes ≤ dst.length →
    ∃ written, saveSize w order n dst buffer = .ok () written ∧
      (dst.bytes written).take w.bytes = (Carrier.unsigned w).encode order (BitVec.ofNat _ n) ∧
      loadSize w order (dst.bytes written) = .ok (n % 2 ^ (8 * w.bytes))
  loads : ∀ order (src : Bytes), w.bytes ≤ src.length → ∃ n ≤ w.max, loadSize w order src = .ok n
  carrier : ∀ order, (∀ n, saveSize w order n = saveNumber (.unsigned w) order (BitVec.ofNat _ n)) ∧
    ∀ src, loadSize w order src = BitVec.toNat <$> loadNumber (.unsigned w) order src
  members : ∀ (f : UnsignedField) (base : Nat) (dst : Region) (buffer : Buffer), f.width = w →
    dst.start = base + f.offset → dst.Within buffer → w.bytes ≤ dst.length →
    loadSize w f.order (dst.bytes buffer) = (f.read base buffer).mapError .refused ∧
      ∀ n, Realizes id (saveSize w f.order n dst) (f.write base n) buffer

/-- In either byte order a number is read back as it was written, bit for bit, and bytes that were read are written
back as they were; only they are written. Sizes are numbers of the unsigned carrier of their width, after what is
too high for it was left off. -/
theorem numbers_and_bytes_correspond (c : Carrier) (w : Width) : c.Codec ∧ w.Codec := by
  constructor
  · exact {
      bijective := c.encode_bijective
      little := fun v i => Carrier.getElem?_encode_little
      big := fun v => rfl
      integers := fun order v i => Carrier.order_decode_encode_of_toInt?
      saves := fun order v dst buffer hin h =>
        ⟨_, saveNumber_of_le h, front_saved hin h, load_saved hin h, sameOn_saved⟩
      loads := fun order src hsrc => by
        have hload : loadNumber c order src = .ok _ := loadNumber_of_le hsrc
        refine ⟨_, hload, fun dst buffer hin h => ⟨_, saveNumber_of_le h, ?_⟩⟩
        rw [front_saved hin h, encode_loaded hload]
      faults := fun order => ⟨fun src => loadNumber_of_lt, fun v dst buffer => saveNumber_of_lt⟩
      fields := fun b f dst buffer hp hplace hin h =>
        ⟨loadNumber_get hp hplace hin h, fun v => realizes_put hplace hin h⟩ }
  · exact {
      saves := fun order n dst buffer hin h =>
        ⟨_, saveSize_of_le h, front_saved (c := .unsigned w) hin h, loadSize_saved hin h n⟩
      loads := fun order src => exists_loadSize
      carrier := fun order => ⟨saveSize_eq, fun src => loadSize_eq⟩
      members := fun f base dst buffer hw hplace hin h => by
        subst hw
        exact ⟨loadSize_read hplace hin h, fun n => realizes_write hplace hin h⟩ }

/-- A number that is not one keeps its payload in either order. -/
example : Carrier.float32.encode .big 0x7fa0beef = [0x7f, 0xa0, 0xbe, 0xef] ∧
    Carrier.float32.decode .little [0xef, 0xbe, 0xa0, 0x7f] = 0x7fa0beef := by decide

end SimpleBinary
