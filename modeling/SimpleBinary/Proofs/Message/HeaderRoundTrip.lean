import SimpleBinary.Proofs.Block.Update

/-!
# Headers out and in

A header is four members, each with a place, a width and a byte order of its own, and what they hold has
16 bits. A member that is narrower keeps the low bits; one that is wider may hold what no template has.
Written one after the other into places apart from each other, they are read back as they were kept
(`UnsignedField.read_putAll`), and by them the body is found again.
-/

namespace SimpleBinary

theorem Width.le_max_iff {w : Width} {n : Nat} : n ≤ w.max ↔ n < 2 ^ w.bits :=
  (Nat.lt_iff_le_pred (Nat.two_pow_pos _)).symm

theorem Except.bind_eq_ok_iff {ε α β : Type} {x : Except ε α} {k : α → Except ε β} {b : β} :
    (x >>= k) = .ok b ↔ ∃ a, x = .ok a ∧ k a = .ok b := by
  cases x with
  | ok a => exact ⟨fun h => ⟨a, rfl, h⟩, fun ⟨_, rfl, h⟩ => h⟩
  | error e => exact ⟨nofun, fun ⟨_, h, _⟩ => nomatch h⟩

/-! ## Members -/

namespace UnsignedField
variable {f f' : UnsignedField} {base n : Nat} {b b' : Buffer} {ps : List (UnsignedField × Nat)}

def Covers (f : UnsignedField) (base i : Nat) : Prop := base + f.offset ≤ i ∧ i < base + f.stop

def Apart (f f' : UnsignedField) : Prop := f.stop ≤ f'.offset ∨ f'.stop ≤ f.offset

theorem Apart.not_covers (h : f.Apart f') {i : Nat} (hi : f.Covers base i) : ¬ f'.Covers base i := by
  unfold Apart Covers at *
  omega

def put (f : UnsignedField) (base n : Nat) (b : Buffer) : Buffer :=
  b.patch (base + f.offset) (f.order.encode f.width.bytes n)

@[simp] theorem size_put : (f.put base n b).size = b.size := Buffer.size_patch ..

theorem sameOn_put : b.SameOn (fun i => ¬ f.Covers base i) (f.put base n b) := by
  refine Buffer.sameOn_patch b fun i hle hlt hi => hi ⟨hle, ?_⟩
  rw [ByteOrder.length_encode, Nat.add_assoc] at hlt
  exact hlt

theorem read_congr (h : b.SameOn (f.Covers base) b') : f.read base b' = f.read base b := by
  unfold read
  rw [h.window fun i hle hlt => ⟨hle, by unfold stop; omega⟩]

theorem read_put (h : base + f.stop ≤ b.size) : f.read base (f.put base n b) = .ok (n % 2 ^ f.width.bits) := by
  have hfit : base + f.offset + (f.order.encode f.width.bytes n).length ≤ b.size := by
    rw [ByteOrder.length_encode, Nat.add_assoc]
    exact h
  have hwritten : b.overwrite (base + f.offset) (f.order.encode f.width.bytes n) = .ok (f.put base n b) :=
    Buffer.overwrite_eq_ok_iff.mpr ⟨hfit, rfl⟩
  have hwindow := Buffer.window_overwrite hwritten
  rw [ByteOrder.length_encode] at hwindow
  unfold read
  rw [hwindow, Width.two_pow_bits, ← ByteOrder.decode_encode]
  rfl

/-- What is left of a value in a member that may be narrower. -/
def kept (f : UnsignedField) (x : UInt16) : UInt16 := UInt16.ofNat (x.toNat % 2 ^ f.width.bits)

theorem toNat_kept (x : UInt16) : (f.kept x).toNat = x.toNat % 2 ^ f.width.bits := by
  have hle := Nat.mod_le x.toNat (2 ^ f.width.bits)
  have hlt := x.toNat_lt
  rw [kept, UInt16.toNat_ofNat']
  omega

def putAll (base : Nat) : List (UnsignedField × Nat) → Buffer → Buffer
  | [], b => b
  | p :: rest, b => putAll base rest (p.1.put base p.2 b)

@[simp] theorem size_putAll : (putAll base ps b).size = b.size := by
  induction ps generalizing b with
  | nil => rfl
  | cons p ps ih => rw [putAll, ih, size_put]

theorem sameOn_putAll : b.SameOn (fun i => ∀ p ∈ ps, ¬ p.1.Covers base i) (putAll base ps b) := by
  induction ps generalizing b with
  | nil => exact refl_of (Buffer.SameOn _) b
  | cons p ps ih =>
    have hhead : b.SameOn (fun i => ∀ q ∈ p :: ps, ¬ q.1.Covers base i) (p.1.put base p.2 b) :=
      sameOn_put.mono fun i hi => hi p List.mem_cons_self
    exact trans_of (Buffer.SameOn _) hhead (ih.mono fun i hi q hq => hi q (List.mem_cons_of_mem p hq))

theorem read_putAll (ha : ps.Pairwise fun p q => p.1.Apart q.1) (hb : ∀ p ∈ ps, base + p.1.stop ≤ b.size)
    {p : UnsignedField × Nat} (hp : p ∈ ps) : p.1.read base (putAll base ps b) = .ok (p.2 % 2 ^ p.1.width.bits) := by
  induction ps generalizing b with
  | nil => cases hp
  | cons q ps ih =>
    obtain ⟨hq, hps⟩ := List.pairwise_cons.mp ha
    have hrest (r : UnsignedField × Nat) (hr : r ∈ ps) : base + r.1.stop ≤ (q.1.put base q.2 b).size := by
      rw [size_put]
      exact hb r (List.mem_cons_of_mem q hr)
    rcases List.mem_cons.mp hp with rfl | hp
    · -- what is written after it is apart from it
      have hlater : (p.1.put base p.2 b).SameOn (p.1.Covers base) (putAll base ps (p.1.put base p.2 b)) :=
        sameOn_putAll.mono fun i hi r hr => (hq r hr).not_covers hi
      exact (read_congr hlater).trans (read_put (hb p List.mem_cons_self))
    · exact ih hps hrest hp

end UnsignedField

/-! ## Headers -/

namespace HeaderFormat
variable {format : HeaderFormat} {t : Template}

/-- What a template is as a header, in the order in which it is written. -/
def values (format : HeaderFormat) (t : Template) : List (UnsignedField × Nat) :=
  [(format.blockLength, t.blockLength.toNat), (format.templateId, t.templateId.toNat),
    (format.schemaId, t.schemaId.toNat), (format.version, t.version.toNat)]

def members (format : HeaderFormat) : List UnsignedField :=
  [format.blockLength, format.templateId, format.schemaId, format.version]

structure WellFormed (format : HeaderFormat) : Prop where
  stop_le : ∀ f ∈ format.members, f.stop ≤ format.size
  apart : format.members.Pairwise UnsignedField.Apart

def kept (format : HeaderFormat) (t : Template) : Template where
  templateId := format.templateId.kept t.templateId
  schemaId := format.schemaId.kept t.schemaId
  version := format.version.kept t.version
  blockLength := format.blockLength.kept t.blockLength

theorem values_kept : format.values (format.kept t) = (format.values t).map fun p => (p.1, p.2 % 2 ^ p.1.width.bits) := by
  simp [values, kept, UnsignedField.toNat_kept]

theorem values_inj {t t' : Template} (h : format.values t = format.values t') : t = t' := by
  obtain ⟨templateId, schemaId, version, blockLength⟩ := t
  obtain ⟨templateId', schemaId', version', blockLength'⟩ := t'
  simp [values, UInt16.toNat_inj] at h
  grind

theorem exists_of_mem_members {f : UnsignedField} (t : Template) (h : f ∈ format.members) :
    ∃ n, n ≤ Width.w16.max ∧ (f, n) ∈ format.values t := by
  have hle (x : UInt16) : x.toNat ≤ Width.w16.max := Width.le_max_iff.mpr x.toNat_lt
  simp only [members, List.mem_cons, List.not_mem_nil, or_false] at h
  rcases h with rfl | rfl | rfl | rfl
  · exact ⟨_, hle t.blockLength, by simp [values]⟩
  · exact ⟨_, hle t.templateId, by simp [values]⟩
  · exact ⟨_, hle t.schemaId, by simp [values]⟩
  · exact ⟨_, hle t.version, by simp [values]⟩

theorem kept_eq_iff : format.kept t = t ↔ ∀ p ∈ format.values t, p.2 ≤ p.1.width.max := by
  have hvalues : format.kept t = t ↔ format.values (format.kept t) = format.values t :=
    ⟨congrArg _, values_inj⟩
  rw [hvalues, values_kept]
  simp [values, Nat.mod_eq_iff_lt, Width.le_max_iff]

end HeaderFormat

namespace HeaderView
variable {format : HeaderFormat} {base : Nat} {b b' : Buffer} {t : Template}

theorem member_eq_ok_iff {h : HeaderView} {f : UnsignedField} {v : UInt16} :
    h.member f b = .ok v ↔ f.read h.base b = .ok v.toNat := by
  unfold member
  simp only [Except.bind_eq_ok_iff, Width.fit_eq_ok_iff, pure, Except.pure, Except.ok.injEq]
  apply Iff.intro
  · intro hv
    obtain ⟨_, hn, n, ⟨hmax, rfl⟩, rfl⟩ := hv
    have hlt : n < 2 ^ 16 := Width.le_max_iff.mp hmax
    rw [hn, UInt16.toNat_ofNat', Nat.mod_eq_of_lt hlt]
  · intro hv
    exact ⟨_, hv, _, ⟨Width.le_max_iff.mpr v.toNat_lt, rfl⟩, UInt16.ofNat_toNat⟩

theorem template_eq_ok_iff :
    (HeaderView.mk base format).template b = .ok t ↔ ∀ p ∈ format.values t, p.1.read base b = .ok p.2 := by
  unfold template templateId schemaId version blockLength
  simp only [Except.bind_eq_ok_iff, member_eq_ok_iff, HeaderFormat.values, List.forall_mem_cons, pure, Except.pure,
    Except.ok.injEq]
  apply Iff.intro
  · intro h
    obtain ⟨_, htemplate, _, hschema, _, hversion, _, hlength, rfl⟩ := h
    exact ⟨hlength, htemplate, hschema, hversion, nofun⟩
  · intro h
    obtain ⟨hlength, htemplate, hschema, hversion, -⟩ := h
    exact ⟨_, htemplate, _, hschema, _, hversion, _, hlength, rfl⟩

theorem write_eq_ok_iff {u : Unit} : (HeaderView.mk base format).write t b = .ok u b' ↔
    (∀ f ∈ format.members, base + f.stop ≤ b.size) ∧ b' = UnsignedField.putAll base (format.values t) b := by
  unfold write
  simp only [bind_eq_ok_iff, UnsignedField.write_eq_ok_iff, HeaderFormat.members, HeaderFormat.values,
    UnsignedField.putAll, List.forall_mem_cons]
  apply Iff.intro
  · intro h
    obtain ⟨_, _, ⟨hlength, rfl⟩, _, _, ⟨htemplate, rfl⟩, _, _, ⟨hschema, rfl⟩, hversion, rfl⟩ := h
    simp only [Buffer.size_patch] at htemplate hschema hversion
    exact ⟨⟨hlength, htemplate, hschema, hversion, nofun⟩, rfl⟩
  · intro h
    obtain ⟨⟨hlength, htemplate, hschema, hversion, -⟩, rfl⟩ := h
    refine ⟨(), _, ⟨hlength, rfl⟩, (), _, ⟨?_, rfl⟩, (), _, ⟨?_, rfl⟩, ?_, rfl⟩ <;> simpa only [Buffer.size_patch]

theorem template_eq_error {f : UnsignedField} (hf : f ∈ format.members)
    (h : b.size < base + f.stop ∨ ∃ n, f.read base b = .ok n ∧ Width.w16.max < n) :
    ∃ e, (HeaderView.mk base format).template b = .error e := by
  cases ht : (HeaderView.mk base format).template b with
  | error e => exact ⟨e, rfl⟩
  | ok found =>
    obtain ⟨n, hn, hmem⟩ := format.exists_of_mem_members found hf
    have hread : f.read base b = .ok n := template_eq_ok_iff.mp ht _ hmem
    rcases h with hb | ⟨n', hread', hlt⟩
    · have hfit := (Buffer.window_eq_ok_iff.mp (UnsignedField.window_of_read hread).1).1
      unfold UnsignedField.stop at hb
      omega
    · obtain rfl := Except.ok.inj (hread.symm.trans hread')
      omega

end HeaderView

namespace Message
variable {format : HeaderFormat} {o : Nat} {m m' : Message} {found : Template}

theorem decodeHeader_eq_ok_iff : decodeHeader o format m = .ok found m' ↔
    (∀ p ∈ format.values found, p.1.read o m.buffer = .ok p.2) ∧
      o + format.size + found.blockLength.toNat ≤ m.capacity ∧
      m' = m.started (o + format.size) found.blockLength.toNat found.version := by
  unfold decodeHeader startDecode
  simp only [bind_eq_ok_iff, Pass.look_eq_ok_iff, HeaderView.template_eq_ok_iff, start_eq_ok_iff, pure_eq_ok_iff]
  apply Iff.intro
  · intro h
    obtain ⟨_, _, ⟨hread, rfl⟩, _, _, ⟨hle, rfl⟩, rfl, rfl⟩ := h
    exact ⟨hread, hle, rfl⟩
  · intro h
    obtain ⟨hread, hle, rfl⟩ := h
    exact ⟨_, _, ⟨hread, rfl⟩, (), _, ⟨hle, rfl⟩, rfl, rfl⟩

theorem encodeHeader_eq_ok_iff {u : Unit} : encodeHeader o format m = .ok u m' ↔
    (∀ f ∈ format.members, o + f.stop ≤ m.capacity) ∧
      o + format.size + m.template.blockLength.toNat ≤ m.capacity ∧
      m' = { m with buffer := UnsignedField.putAll o (format.values m.template) m.buffer }.started
        (o + format.size) m.template.blockLength.toNat m.template.version := by
  unfold encodeHeader
  simp only [get_bind, bind_eq_ok_iff, Pass.edit_eq_ok_iff, HeaderView.write_eq_ok_iff, startEncode_eq_ok_iff]
  apply Iff.intro
  · intro h
    obtain ⟨_, _, ⟨_, ⟨hmembers, rfl⟩, rfl⟩, hle, rfl⟩ := h
    simp only [capacity, UnsignedField.size_putAll] at hle
    exact ⟨hmembers, hle, rfl⟩
  · intro h
    obtain ⟨hmembers, hle, rfl⟩ := h
    refine ⟨(), _, ⟨_, ⟨hmembers, rfl⟩, rfl⟩, ?_, rfl⟩
    simpa only [capacity, UnsignedField.size_putAll] using hle

/-- A header of members apart from each other is written, and nothing but its members' bytes; and whoever reads
it, over whatever buffer still has the header's bytes, finds each component as far as its member is wide, and
the body where it was put. A header that cannot be read, or says what no template does, is refused, and
the message is left as it was. -/
theorem header_round_trip (o : Nat) (format : HeaderFormat) (m : Message) :
    (format.WellFormed → o + format.size + m.template.blockLength.toNat ≤ m.capacity →
      ∃ m', encodeHeader o format m = .ok () m' ∧
        m' = { m.started (o + format.size) m.template.blockLength.toNat m.template.version with buffer := m'.buffer } ∧
        m.buffer.SameOn (fun i => ∀ f ∈ format.members, ¬ f.Covers o i) m'.buffer ∧
        ∀ later : Message, m'.buffer.SameOn (fun i => o ≤ i ∧ i < o + format.size) later.buffer →
          ∃ found, decodeHeader o format later =
              .ok found (later.started (o + format.size) found.blockLength.toNat found.version) ∧
            format.values found = (format.values m.template).map (fun p => (p.1, p.2 % 2 ^ p.1.width.bits)) ∧
            (found = m.template ↔ ∀ p ∈ format.values m.template, p.2 ≤ p.1.width.max)) ∧
    ((∃ f ∈ format.members, m.capacity < o + f.stop ∨ ∃ n, f.read o m.buffer = .ok n ∧ Width.w16.max < n) →
      ∃ e, decodeHeader o format m = .error e m) := by
  refine ⟨fun wf hfit => ?_, fun h => ?_⟩
  · have hmembers (f : UnsignedField) (hf : f ∈ format.members) : o + f.stop ≤ m.capacity := by
      have hstop := wf.stop_le f hf
      omega
    refine ⟨_, encodeHeader_eq_ok_iff.mpr ⟨hmembers, hfit, rfl⟩, rfl, ?_, fun later hlater => ?_⟩
    · exact UnsignedField.sameOn_putAll.mono fun i hi p hp => hi p.1 (List.mem_map_of_mem hp)
    · have hapart : (format.values m.template).Pairwise fun p q => p.1.Apart q.1 := List.pairwise_map.mp wf.apart
      have hread (p : UnsignedField × Nat) (hp : p ∈ format.values m.template) :
          p.1.read o later.buffer = .ok (p.2 % 2 ^ p.1.width.bits) := by
        have hmem : p.1 ∈ format.members := List.mem_map_of_mem hp
        have hstop := wf.stop_le p.1 hmem
        refine (UnsignedField.read_congr (hlater.mono fun i hi => ?_)).trans (UnsignedField.read_putAll hapart ?_ hp)
        · unfold UnsignedField.Covers at hi
          omega
        · exact fun q hq => hmembers q.1 (List.mem_map_of_mem hq)
      have hbody : o + format.size + (format.kept m.template).blockLength.toNat ≤ later.capacity := by
        have hsize : later.capacity = m.capacity := hlater.size_eq.trans UnsignedField.size_putAll
        have hle := Nat.mod_le m.template.blockLength.toNat (2 ^ format.blockLength.width.bits)
        rw [← UnsignedField.toNat_kept] at hle
        rw [hsize]
        exact Nat.le_trans (Nat.add_le_add_left hle _) hfit
      refine ⟨format.kept m.template, ?_, HeaderFormat.values_kept, HeaderFormat.kept_eq_iff⟩
      refine decodeHeader_eq_ok_iff.mpr ⟨?_, hbody, rfl⟩
      rw [HeaderFormat.values_kept]
      exact List.forall_mem_map.mpr hread
  · obtain ⟨f, hf, h⟩ := h
    obtain ⟨e, he⟩ := HeaderView.template_eq_error hf h
    refine ⟨e, bind_eq_error_iff.mpr (.inl ?_)⟩
    simp only [Pass.look, he]

def narrow : HeaderFormat where
  blockLength := ⟨0, .w8, .little⟩
  templateId := ⟨4, .w32, .big⟩
  schemaId := ⟨1, .w16, .big⟩
  version := ⟨3, .w8, .little⟩
  size := 8

theorem header_round_trip_narrow :
    let m : Message := .ofBuffer ⟨300, 7, 257, 2⟩ (Array.replicate 11 0)
    narrow.WellFormed ∧ 1 + narrow.size + m.template.blockLength.toNat ≤ m.capacity ∧
      (∃ m' t, encodeHeader 1 narrow m = .ok () m' ∧
        decodeHeader 1 narrow { m' with buffer := m'.buffer.patch 9 [1, 2] } = .ok ⟨300, 7, 1, 2⟩ t) ∧
      m.capacity < 4 + narrow.templateId.stop ∧ ∃ e, decodeHeader 4 narrow m = .error e m := by
  intro m
  have wf : narrow.WellFormed := by
    constructor <;> simp [HeaderFormat.members, narrow, UnsignedField.Apart, UnsignedField.stop, Width.bytes]
  have hshort : m.capacity < 4 + narrow.templateId.stop := by decide
  refine ⟨wf, by decide, ?_, hshort, ?_⟩
  · obtain ⟨m', hencode, -, -, hlater⟩ := (header_round_trip 1 narrow m).1 wf (by decide)
    obtain ⟨found, hdecode, hvalues, -⟩ := hlater { m' with buffer := m'.buffer.patch 9 [1, 2] }
      (Buffer.sameOn_patch _ fun i hi _ h => Nat.not_lt.mpr hi h.2)
    obtain rfl : found = ⟨300, 7, 1, 2⟩ := HeaderFormat.values_inj (hvalues.trans (by decide))
    exact ⟨m', _, hencode, hdecode⟩
  · exact (header_round_trip 4 narrow m).2 ⟨narrow.templateId, by simp [HeaderFormat.members], .inl hshort⟩

end Message

end SimpleBinary
