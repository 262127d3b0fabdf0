import SimpleBinary.Schema.Field

/-!
# Descriptors from a schema

A field of a schema has a descriptor for one carrier at most, the one that its type is carried by. In a carrier
of integers the null that the schema declares, or the constant, is taken if it is an integer in range, and stays
that integer; otherwise there is no descriptor.
-/

namespace SimpleBinary

namespace Carrier
variable {c : Carrier} {i : Int} {v v' : c.Value}

def Holds : Carrier → Int → Prop
  | unsigned w, i => 0 ≤ i ∧ i < 2 ^ w.bits
  | signed w, i => -2 ^ (w.bits - 1) ≤ i ∧ i < 2 ^ (w.bits - 1)
  | float32, _ | float64, _ => False

theorem holds_of_toInt? (h : c.toInt? v = some i) : c.Holds i := by
  cases c with
  | unsigned w =>
    obtain rfl : (v.toNat : Int) = i := Option.some.inj h
    exact ⟨Int.natCast_nonneg _, by exact_mod_cast v.isLt⟩
  | signed w =>
    obtain rfl : v.toInt = i := Option.some.inj h
    exact ⟨v.le_toInt, v.toInt_lt⟩
  | float32 => cases h
  | float64 => cases h

theorem toInt?_inj (h : c.toInt? v = some i) (h' : c.toInt? v' = some i) : v = v' := by
  have hsame := h.trans h'.symm
  cases c with
  | unsigned w => exact BitVec.eq_of_toNat_eq (Int.ofNat.inj (Option.some.inj hsame))
  | signed w => exact BitVec.eq_of_toInt_eq (Option.some.inj hsame)
  | float32 => cases h
  | float64 => cases h

theorem ofInt?_of_holds (h : c.Holds i) : ∃ v, c.ofInt? i = some v ∧ c.toInt? v = some i := by
  cases c with
  | unsigned w =>
    refine ⟨BitVec.ofInt _ i, if_pos h, congrArg some ?_⟩
    rw [BitVec.toNat_ofInt, Int.emod_eq_of_lt h.1 (by exact_mod_cast h.2), Int.toNat_of_nonneg h.1]
  | signed w =>
    exact ⟨BitVec.ofInt _ i, if_pos h, congrArg some (BitVec.toInt_ofInt_eq_self (by cases w <;> decide) h.1 h.2)⟩
  | float32 => exact h.elim
  | float64 => exact h.elim

theorem holds_of_ofInt? (h : c.ofInt? i = some v) : c.Holds i := by
  cases c with
  | unsigned w => exact (Option.ite_none_right_eq_some.mp h).1
  | signed w => exact (Option.ite_none_right_eq_some.mp h).1
  | float32 => cases h
  | float64 => cases h

theorem ofInt?_eq_some_iff : c.ofInt? i = some v ↔ c.toInt? v = some i := by
  constructor
  · intro h
    obtain ⟨v', hv', hi⟩ := ofInt?_of_holds (holds_of_ofInt? h)
    obtain rfl : v' = v := Option.some.inj (hv'.symm.trans h)
    exact hi
  · intro h
    obtain ⟨v', hv', hi⟩ := ofInt?_of_holds (holds_of_toInt? h)
    rw [hv', toInt?_inj hi h]

theorem holds_iff : c.Holds i ↔ ∃ v, c.toInt? v = some i := by
  constructor
  · intro h
    obtain ⟨v, -, hv⟩ := ofInt?_of_holds h
    exact ⟨v, hv⟩
  · intro h
    obtain ⟨v, hv⟩ := h
    exact holds_of_toInt? hv

end Carrier

/-! ## Literals -/

namespace Literal
variable {l : Literal} {c : Carrier} {v : c.Value}

def Denotes (l : Literal) (c : Carrier) (v : c.Value) : Prop := ∃ i, l.integer? = some i ∧ c.toInt? v = some i

def Fits (l : Literal) (c : Carrier) : Prop := ∃ i, l.integer? = some i ∧ c.Holds i

theorem value?_eq_some_iff (hc : c.isInteger = true) : l.value? c = some v ↔ l.Denotes c v := by
  have hvalue : l.value? c = l.integer?.bind c.ofInt? := by
    cases c with
    | unsigned w => rfl
    | signed w => rfl
    | float32 => cases hc
    | float64 => cases hc
  rw [hvalue, Option.bind_eq_some_iff]
  exact exists_congr fun i => and_congr_right fun _ => Carrier.ofInt?_eq_some_iff

theorem fits_iff : l.Fits c ↔ ∃ v, l.Denotes c v := by
  unfold Fits Denotes
  simp only [Carrier.holds_iff]
  constructor
  · intro h
    obtain ⟨i, hi, v, hv⟩ := h
    exact ⟨v, i, hi, hv⟩
  · intro h
    obtain ⟨v, i, hi, hv⟩ := h
    exact ⟨i, hi, v, hv⟩

end Literal

/-! ## Fields -/

namespace FieldSchema
variable {f : FieldSchema} {c : Carrier} {type : PrimitiveType} {null : Option Literal}

/-- What stands in for a field of the type where the data is older: the integer of the declared null, or the
null of the type. -/
def StandsIn (type : PrimitiveType) (null : Option Literal) (c : Carrier) (v : c.Value) : Prop :=
  match null with
  | some literal => literal.Denotes c v
  | none => if type = .char then c.toInt? v = some 0 else v = c.null

/-- The field is so many numbers that `c` carries, and `v` stands in for them. -/
def Numbers (f : FieldSchema) (c : Carrier) (length : Nat) (order : ByteOrder) (v : c.Value) : Prop :=
  ∃ type null charset, f.kind = .value (.primitive type order length null charset) ∧ type.carrier = c ∧
    StandsIn type null c v

theorem null?_eq_some_iff {v : c.Value} (hc : c.isInteger = true) :
    null? type null c = some v ↔ type.carrier = c ∧ StandsIn type null c v := by
  unfold null?
  split
  · next h =>
    subst h
    cases null with
    | some literal => exact (Literal.value?_eq_some_iff hc).trans (and_iff_right rfl).symm
    | none =>
      rw [Option.some_inj]
      cases type with
      | char =>
        have hzero : (PrimitiveType.char.carrier).toInt? PrimitiveType.char.null = some 0 := rfl
        constructor
        · intro h
          exact ⟨rfl, h ▸ hzero⟩
        · intro h
          exact Carrier.toInt?_inj hzero h.2
      | number c => exact eq_comm.trans (and_iff_right rfl).symm
  · next h => exact ⟨nofun, fun hv => absurd hv.1 h⟩

theorem exists_standsIn (hc : type.carrier = c) : (∃ v, StandsIn type null c v) ↔ ∀ literal ∈ null, literal.Fits c := by
  cases null with
  | some literal =>
    constructor
    · intro h l hl
      cases hl
      exact Literal.fits_iff.mpr h
    · intro h
      exact Literal.fits_iff.mp (h literal rfl)
  | none =>
    refine iff_of_true ?_ nofun
    unfold StandsIn
    subst hc
    cases type with
    | char => exact ⟨PrimitiveType.char.null, rfl⟩
    | number c => exact ⟨c.null, rfl⟩

theorem field?_eq_some_iff {d : Field c} (hc : c.isInteger = true) : f.field? c = some d ↔
    f.Numbers c 1 d.order d.null ∧ d.offset = f.offset ∧ d.since = f.since := by
  unfold field?
  split
  · next type order null charset hkind =>
    constructor
    · intro h
      obtain ⟨v, hv, hd⟩ := Option.bind_eq_some_iff.mp h
      obtain rfl := Option.some.inj hd
      exact ⟨⟨type, null, charset, hkind, (null?_eq_some_iff hc).mp hv⟩, rfl, rfl⟩
    · intro h
      obtain ⟨⟨type', null', charset', hkind', hv⟩, hoffset, hsince⟩ := h
      obtain ⟨offset, order', since, v⟩ := d
      cases hkind.symm.trans hkind'
      cases hoffset
      cases hsince
      exact Option.bind_eq_some_iff.mpr ⟨v, (null?_eq_some_iff hc).mpr hv, rfl⟩
  · next hkind =>
    refine ⟨nofun, fun h => ?_⟩
    obtain ⟨⟨type, null, charset, h, -⟩, -⟩ := h
    exact absurd h (hkind type d.order null charset)

theorem array?_eq_some_iff {d : ArrayField c} {length : Nat} (hc : c.isInteger = true) : f.array? c length = some d ↔
    f.Numbers c length d.order d.null ∧ d.offset = f.offset ∧ d.length = length ∧ d.since = f.since ∧
      d.charset = none := by
  unfold array?
  split
  · next type order n null charset hkind =>
    constructor
    · intro h
      obtain ⟨_, hguard, h⟩ := Option.bind_eq_some_iff.mp h
      obtain ⟨rfl, -⟩ := Option.ite_none_right_eq_some.mp hguard
      obtain ⟨v, hv, hd⟩ := Option.bind_eq_some_iff.mp h
      obtain rfl := Option.some.inj hd
      exact ⟨⟨type, null, charset, hkind, (null?_eq_some_iff hc).mp hv⟩, rfl, rfl, rfl, rfl⟩
    · intro h
      obtain ⟨⟨type', null', charset', hkind', hv⟩, hoffset, hlength, hsince, hcharset⟩ := h
      obtain ⟨offset, length', order', since, v, charset''⟩ := d
      cases hkind.symm.trans hkind'
      cases hoffset
      cases hlength
      cases hsince
      cases hcharset
      refine Option.bind_eq_some_iff.mpr ⟨(), if_pos rfl, ?_⟩
      exact Option.bind_eq_some_iff.mpr ⟨v, (null?_eq_some_iff hc).mpr hv, rfl⟩
  · next hkind =>
    refine ⟨nofun, fun h => ?_⟩
    obtain ⟨⟨type, null, charset, h, -⟩, -⟩ := h
    exact absurd h (hkind type d.order length null charset)

/-- The field is so many numbers that `c` carries, and the null that is declared fits. -/
def Carried (f : FieldSchema) (c : Carrier) (length : Nat) : Prop :=
  ∃ type order null charset, f.kind = .value (.primitive type order length null charset) ∧ type.carrier = c ∧
    ∀ literal ∈ null, literal.Fits c

theorem carried_iff {length : Nat} : f.Carried c length ↔ ∃ order v, f.Numbers c length order v := by
  constructor
  · intro h
    obtain ⟨type, order, null, charset, hkind, hcarrier, hfits⟩ := h
    obtain ⟨v, hv⟩ := (exists_standsIn hcarrier).mpr hfits
    exact ⟨order, v, type, null, charset, hkind, hcarrier, hv⟩
  · intro h
    obtain ⟨order, v, type, null, charset, hkind, hcarrier, hv⟩ := h
    exact ⟨type, order, null, charset, hkind, hcarrier, (exists_standsIn hcarrier).mp ⟨v, hv⟩⟩

theorem exists_field?_iff (hc : c.isInteger = true) : (∃ d, f.field? c = some d) ↔ f.Carried c 1 := by
  simp only [field?_eq_some_iff hc, carried_iff]
  constructor
  · intro h
    obtain ⟨d, hd, -⟩ := h
    exact ⟨d.order, d.null, hd⟩
  · intro h
    obtain ⟨order, v, hv⟩ := h
    exact ⟨⟨f.offset, order, f.since, v⟩, hv, rfl, rfl⟩

theorem exists_array?_iff {length : Nat} (hc : c.isInteger = true) :
    (∃ d, f.array? c length = some d) ↔ f.Carried c length := by
  simp only [array?_eq_some_iff hc, carried_iff]
  constructor
  · intro h
    obtain ⟨d, hd, -⟩ := h
    exact ⟨d.order, d.null, hd⟩
  · intro h
    obtain ⟨order, v, hv⟩ := h
    exact ⟨⟨f.offset, length, order, f.since, v, none⟩, hv, rfl, rfl, rfl, rfl⟩

theorem constant?_eq_some_iff {v : c.Value} (hc : c.isInteger = true) : f.constant? c = some v ↔
    ∃ type literal, f.kind = .value (.constant type literal) ∧ type.carrier = c ∧ literal.Denotes c v := by
  unfold constant?
  split
  · next type literal hkind =>
    rw [Option.ite_none_right_eq_some, Literal.value?_eq_some_iff hc]
    constructor
    · intro h
      exact ⟨type, literal, hkind, h⟩
    · intro h
      obtain ⟨type', literal', hkind', h⟩ := h
      cases hkind.symm.trans hkind'
      exact h
  · next hkind =>
    refine ⟨nofun, fun h => ?_⟩
    obtain ⟨type, literal, h, -⟩ := h
    exact absurd h (hkind type literal)

theorem exists_constant?_iff (hc : c.isInteger = true) : (∃ v, f.constant? c = some v) ↔
    ∃ type literal, f.kind = .value (.constant type literal) ∧ type.carrier = c ∧ literal.Fits c := by
  simp only [constant?_eq_some_iff hc, Literal.fits_iff]
  constructor
  · intro h
    obtain ⟨v, type, literal, hkind, hcarrier, hv⟩ := h
    exact ⟨type, literal, hkind, hcarrier, v, hv⟩
  · intro h
    obtain ⟨type, literal, hkind, hcarrier, v, hv⟩ := h
    exact ⟨v, type, literal, hkind, hcarrier, hv⟩

theorem carrier_of_null? {v : c.Value} (h : null? type null c = some v) : type.carrier = c := by
  unfold null? at h
  split at h
  · next hcarrier => exact hcarrier
  · cases h

theorem carrier_of_field? {d : Field c} (h : f.field? c = some d) :
    ∃ type order null charset, f.kind = .value (.primitive type order 1 null charset) ∧ type.carrier = c := by
  unfold field? at h
  split at h
  · next type order null charset hkind =>
    obtain ⟨v, hv, -⟩ := Option.bind_eq_some_iff.mp h
    exact ⟨type, order, null, charset, hkind, carrier_of_null? hv⟩
  · cases h

theorem carrier_unique {c' : Carrier} {d : Field c} {d' : Field c'} (h : f.field? c = some d)
    (h' : f.field? c' = some d') : c = c' := by
  obtain ⟨type, order, null, charset, hkind, rfl⟩ := carrier_of_field? h
  obtain ⟨type', order', null', charset', hkind', rfl⟩ := carrier_of_field? h'
  cases hkind.symm.trans hkind'
  rfl

/-- Which descriptors over integers a field has, and what they say: what the schema says, and nothing else. -/
theorem descriptors_are_exact (f : FieldSchema) :
    (∀ c : Carrier, c.isInteger = true →
      ((∃ d, f.field? c = some d) ↔ f.Carried c 1) ∧
      (∀ d, f.field? c = some d ↔ f.Numbers c 1 d.order d.null ∧ d.offset = f.offset ∧ d.since = f.since) ∧
      (∀ length, (∃ d, f.array? c length = some d) ↔ f.Carried c length) ∧
      (∀ length d, f.array? c length = some d ↔ f.Numbers c length d.order d.null ∧ d.offset = f.offset ∧
        d.length = length ∧ d.since = f.since ∧ d.charset = none) ∧
      ((∃ v, f.constant? c = some v) ↔
        ∃ type literal, f.kind = .value (.constant type literal) ∧ type.carrier = c ∧ literal.Fits c) ∧
      ∀ v, f.constant? c = some v ↔
        ∃ type literal, f.kind = .value (.constant type literal) ∧ type.carrier = c ∧ literal.Denotes c v) ∧
    ∀ (c c' : Carrier) (d : Field c) (d' : Field c'), f.field? c = some d → f.field? c' = some d' → c = c' := by
  refine ⟨fun c hc => ?_, fun c c' d d' h h' => carrier_unique h h'⟩
  exact ⟨exists_field?_iff hc, fun _ => field?_eq_some_iff hc, fun _ => exists_array?_iff hc,
    fun _ _ => array?_eq_some_iff hc, exists_constant?_iff hc, fun _ => constant?_eq_some_iff hc⟩

/-- The declared null is no byte, so there is no descriptor; without it zero would stand in, as for all characters. -/
def letter (null : Option Literal) : FieldSchema :=
  ⟨"letter", 1, 4, 2, .value (.primitive .char .big 1 null none)⟩

example : (letter (some (.long 300))).field? (.unsigned .w8) = none ∧
    (letter none).field? (.unsigned .w8) = some ⟨4, .big, 2, 0⟩ ∧
    (letter (some (.bytes [63]))).field? (.unsigned .w8) = some ⟨4, .big, 2, 63⟩ := by
  decide

end FieldSchema

end SimpleBinary
