import SimpleBinary.Proofs.Block.Lens

/-!
# Choices set one after the other

To set a choice is to read the number of its set, change one bit and write the number back. Whichever choices
are set, in the end every bit is what was assigned to it last (`getLsbD_applyAll`), so the order in which
different bits are assigned does not matter, and nothing is written but the number (`putChoices_eq_ok`).
-/

namespace SimpleBinary

namespace Choice
variable {n bit : Nat} {a : Choice × Bool} {assignments assignments' : List (Choice × Bool)}

/-- What is assigned last to a choice that has the bit. -/
def lastAssigned? (bit : Nat) (assignments : List (Choice × Bool)) : Option Bool :=
  (assignments.filter fun a => a.1.bit = bit).getLast?.map Prod.snd

def applyAll (assignments : List (Choice × Bool)) (raw : BitVec n) : BitVec n :=
  assignments.foldl (fun raw a => a.1.apply raw a.2) raw

theorem lastAssigned?_cons_of_eq (h : a.1.bit = bit) :
    lastAssigned? bit (a :: assignments) = some ((lastAssigned? bit assignments).getD a.2) := by
  unfold lastAssigned?
  rw [List.filter_cons_of_pos (by simpa using h), List.getLast?_cons]
  cases (assignments.filter fun a => a.1.bit = bit).getLast? <;> rfl

theorem lastAssigned?_cons_of_ne (h : a.1.bit ≠ bit) :
    lastAssigned? bit (a :: assignments) = lastAssigned? bit assignments := by
  unfold lastAssigned?
  rw [List.filter_cons_of_neg (by simpa using h)]

theorem exists_lastAssigned? (h : a ∈ assignments) : ∃ value, lastAssigned? a.1.bit assignments = some value := by
  have hmem : a ∈ assignments.filter fun a' => a'.1.bit = a.1.bit := List.mem_filter.mpr ⟨h, decide_eq_true rfl⟩
  obtain ⟨last, hlast⟩ := Option.isSome_iff_exists.mp (List.getLast?_isSome.mpr (List.ne_nil_of_mem hmem))
  exact ⟨last.2, congrArg (Option.map Prod.snd) hlast⟩

theorem lastAssigned?_eq_none (h : ∀ a ∈ assignments, a.1.bit ≠ bit) : lastAssigned? bit assignments = none := by
  have hnil : assignments.filter (fun a => a.1.bit = bit) = [] :=
    List.filter_eq_nil_iff.mpr fun a ha => by simpa using h a ha
  unfold lastAssigned?
  rw [hnil]
  rfl

theorem getLsbD_applyAll {raw : BitVec n} (hb : bit < n) :
    (applyAll assignments raw).getLsbD bit = (lastAssigned? bit assignments).getD (raw.getLsbD bit) := by
  induction assignments generalizing raw with
  | nil => rfl
  | cons a assignments ih =>
    show (applyAll assignments (a.1.apply raw a.2)).getLsbD bit = _
    rw [ih, getLsbD_apply]
    by_cases h : a.1.bit = bit
    · rw [if_pos ⟨h.symm, hb⟩, lastAssigned?_cons_of_eq h]
      rfl
    · rw [if_neg fun hi => h hi.1.symm, lastAssigned?_cons_of_ne h]

theorem applyAll_congr {raw : BitVec n}
    (h : ∀ bit, lastAssigned? bit assignments = lastAssigned? bit assignments') :
    applyAll assignments raw = applyAll assignments' raw := by
  apply BitVec.eq_of_getLsbD_eq
  intro bit hb
  rw [getLsbD_applyAll hb, getLsbD_applyAll hb, h]

end Choice

/-! ## In a buffer -/

namespace Block
variable {b : Block} {w : Width} {f : BitSetField w} {buffer : Buffer} {raw raw' : BitVec w.bits}
  {choice : Choice} {value : Bool} {assignments : List (Choice × Bool)}

def storedBits (b : Block) (f : BitSetField w) (buffer : Buffer) : Except AccessError (BitVec w.bits) :=
  (Carrier.unsigned w).decode f.order <$> buffer.window (b.base + f.offset) w.bytes

def withBits (b : Block) (f : BitSetField w) (buffer : Buffer) (raw : BitVec w.bits) : Buffer :=
  buffer.patch (b.base + f.offset) ((Carrier.unsigned w).encode f.order raw)

def putChoices (b : Block) (f : BitSetField w) (assignments : List (Choice × Bool)) : Edit Unit :=
  assignments.forM fun a => b.putChoice f a.1 a.2

theorem length_encode_bits (order : ByteOrder) (raw : BitVec w.bits) :
    ((Carrier.unsigned w).encode order raw).length = w.bytes :=
  (Carrier.unsigned w).length_encode order raw

theorem storedBits_eq_ok_iff : b.storedBits f buffer = .ok raw ↔
    buffer.window (b.base + f.offset) w.bytes = .ok ((Carrier.unsigned w).encode f.order raw) := by
  unfold storedBits
  cases hw : buffer.window (b.base + f.offset) w.bytes with
  | error e => exact ⟨nofun, nofun⟩
  | ok bytes =>
    have hlength : bytes.length = (Carrier.unsigned w).bytes := Buffer.length_of_window hw
    constructor
    · intro h
      obtain rfl := Except.ok.inj h
      rw [(Carrier.unsigned w).encode_decode f.order hlength]
    · intro h
      obtain rfl := Except.ok.inj h
      exact congrArg Except.ok ((Carrier.unsigned w).decode_encode f.order raw)

theorem exists_storedBits (h : b.base + f.offset + w.bytes ≤ buffer.size) : ∃ raw, b.storedBits f buffer = .ok raw := by
  unfold storedBits
  rw [Buffer.window_eq_extract h]
  exact ⟨_, rfl⟩

theorem withBits_self (h : b.storedBits f buffer = .ok raw) : b.withBits f buffer raw = buffer :=
  Buffer.patch_window (storedBits_eq_ok_iff.mp h)

theorem withBits_withBits : b.withBits f (b.withBits f buffer raw) raw' = b.withBits f buffer raw' :=
  Buffer.patch_patch ((length_encode_bits f.order raw').trans (length_encode_bits f.order raw).symm)

theorem storedBits_withBits (h : b.storedBits f buffer = .ok raw) :
    b.storedBits f (b.withBits f buffer raw') = .ok raw' := by
  have hle := (Buffer.window_eq_ok_iff.mp (storedBits_eq_ok_iff.mp h)).1
  rw [← length_encode_bits f.order raw'] at hle
  have hwindow := Buffer.window_overwrite (Buffer.overwrite_eq_ok_iff.mpr ⟨hle, rfl⟩)
  rw [length_encode_bits] at hwindow
  exact storedBits_eq_ok_iff.mpr hwindow

theorem sameOn_withBits : buffer.SameOn (fun i => ¬ (b.base + f.offset ≤ i ∧ i < b.base + f.offset + w.bytes))
    (b.withBits f buffer raw) := by
  refine Buffer.sameOn_patch buffer fun i hi hl h => h ⟨hi, ?_⟩
  rwa [length_encode_bits] at hl

theorem putChoice_eq_ok (h : b.storedBits f buffer = .ok raw) :
    b.putChoice f choice value buffer = .ok () (b.withBits f buffer (choice.apply raw value)) := by
  have hwindow := storedBits_eq_ok_iff.mp h
  refine bind_eq_ok_iff.mpr ⟨_, buffer, Edit.look_eq_ok_iff.mpr ⟨hwindow, rfl⟩, ?_⟩
  rw [(Carrier.unsigned w).decode_encode f.order raw]
  have hle := (Buffer.window_eq_ok_iff.mp hwindow).1
  rw [← length_encode_bits f.order (choice.apply raw value)] at hle
  exact Edit.overwrite_eq_ok_iff.mpr ⟨hle, rfl⟩

theorem putChoices_eq_ok (h : b.storedBits f buffer = .ok raw) :
    b.putChoices f assignments buffer = .ok () (b.withBits f buffer (Choice.applyAll assignments raw)) := by
  induction assignments generalizing buffer raw with
  | nil => exact congrArg (EStateM.Result.ok ()) (withBits_self h).symm
  | cons a assignments ih =>
    show (b.putChoice f a.1 a.2 >>= fun _ => b.putChoices f assignments) buffer = _
    rw [bind_of_ok (putChoice_eq_ok h), ih (storedBits_withBits h), withBits_withBits]
    rfl

theorem getChoice_eq_ok (hf : b.version.includes f.since = true) (hc : b.version.includes choice.since = true)
    (h : b.storedBits f buffer = .ok raw) : b.getChoice f choice buffer = .ok (raw.getLsbD choice.bit) := by
  rw [getChoice_eq_fetch hc]
  unfold fetch
  dsimp only
  rw [if_pos hf, storedBits_eq_ok_iff.mp h]
  exact congrArg (fun raw => Except.ok (choice.test raw)) ((Carrier.unsigned w).decode_encode f.order raw)

end Block

/-- What is left of a buffer, and of the number of a set in it, when choices have been set and cleared. -/
structure BitSetField.Assigned {w : Width} (f : BitSetField w) (b : Block) (assignments : List (Choice × Bool))
    (buffer written : Buffer) (raw raw' : BitVec w.bits) : Prop where
  runs : b.putChoices f assignments buffer = .ok () written
  stored : b.storedBits f written = .ok raw'
  assigned : ∀ a ∈ assignments, ∃ value, Choice.lastAssigned? a.1.bit assignments = some value ∧
    raw'.getLsbD a.1.bit = value
  others : ∀ bit, (∀ a ∈ assignments, a.1.bit ≠ bit) → raw'.getLsbD bit = raw.getLsbD bit
  outside : buffer.SameOn (fun i => ¬ (b.base + f.offset ≤ i ∧ i < b.base + f.offset + w.bytes)) written
  /-- So it is in particular if the assignments to each bit come in the same order. -/
  commutes : ∀ assignments', (∀ bit, Choice.lastAssigned? bit assignments = Choice.lastAssigned? bit assignments') →
    b.putChoices f assignments' buffer = .ok () written
  reads : ∀ choice : Choice, choice.bit < w.bits → b.version.includes f.since = true →
    b.version.includes choice.since = true → b.getChoice f choice written =
      .ok ((Choice.lastAssigned? choice.bit assignments).getD (raw.getLsbD choice.bit))

theorem Block.assigned_putChoices {w : Width} {f : BitSetField w} {b : Block} {assignments : List (Choice × Bool)}
    {buffer : Buffer} {raw : BitVec w.bits} (h : b.storedBits f buffer = .ok raw)
    (hbits : ∀ a ∈ assignments, a.1.bit < w.bits) :
    f.Assigned b assignments buffer (b.withBits f buffer (Choice.applyAll assignments raw)) raw
      (Choice.applyAll assignments raw) where
  runs := putChoices_eq_ok h
  stored := storedBits_withBits h
  assigned a ha := by
    obtain ⟨value, hvalue⟩ := Choice.exists_lastAssigned? ha
    refine ⟨value, hvalue, ?_⟩
    rw [Choice.getLsbD_applyAll (hbits a ha), hvalue]
    rfl
  others bit hothers := by
    by_cases hb : bit < w.bits
    · rw [Choice.getLsbD_applyAll hb, Choice.lastAssigned?_eq_none hothers]
      rfl
    · rw [BitVec.getLsbD_of_ge _ _ (Nat.not_lt.mp hb), BitVec.getLsbD_of_ge _ _ (Nat.not_lt.mp hb)]
  outside := sameOn_withBits
  commutes assignments' hsame := by
    rw [putChoices_eq_ok h, Choice.applyAll_congr hsame]
  reads choice hb hf hc := by
    rw [getChoice_eq_ok hf hc (storedBits_withBits h), Choice.getLsbD_applyAll hb]

end SimpleBinary
