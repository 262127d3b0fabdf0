import Mathlib.Data.List.Forall2
import SimpleBinary.Proofs.Block.Choices
import SimpleBinary.Proofs.Schema.Derivation
import SimpleBinary.Proofs.Schema.Descriptors

/-!
# Choices of derived sets

A set is derived from its tokens only if the number that it is carried by has the bit of every choice. So there
is no choice of it that can be set without effect, and what is set is read back.
-/

namespace SimpleBinary

theorem forall₂_of_mapM {ε α β : Type} {f : α → Except ε β} {as : List α} {bs : List β} (h : as.mapM f = .ok bs) :
    List.Forall₂ (fun a b => f a = .ok b) as bs := by
  induction as generalizing bs with
  | nil =>
    cases h
    exact .nil
  | cons a as ih =>
    rw [List.mapM_cons] at h
    obtain ⟨b, hb, h⟩ := of_bind_eq_ok h
    obtain ⟨bs', hbs, h⟩ := of_bind_eq_ok h
    cases h
    exact .cons hb (ih hbs)

/-! ## Tokens of choices -/

namespace Token
variable {tokens own : List Token} {t : Token} {bits : Nat}

/-- The choices in a field whose set is closed at `stop`. -/
def choicesBefore (stop : Nat) (tokens : List Token) : List Token :=
  ((tokens.take stop).drop 2).filter fun t => t.signal = .choice

structure Declares (t : Token) (entry : String × Choice) : Prop where
  name_eq : entry.1 = t.name
  since_eq : entry.2.since = t.version
  literal : ∃ l, t.encoding.value = some l ∧ l.integer? = some (entry.2.bit : Int)

theorem declares_of_toChoice {entry : String × Choice} (h : t.toChoice bits = .ok entry) :
    entry.2.bit < bits ∧ t.Declares entry := by
  unfold toChoice at h
  split at h
  · next bit hbit =>
    split at h
    · next hlt =>
      cases h
      obtain ⟨l, hl, hvalue⟩ := Option.bind_eq_some_iff.mp hbit
      obtain ⟨i, hi, hdenotes⟩ := (Literal.value?_eq_some_iff rfl).mp hvalue
      cases hdenotes
      exact ⟨hlt, rfl, rfl, l, hl, hi⟩
    · cases h
  · cases h

end Token

namespace Token
variable {tokens : List Token} {start stop n : Nat} {o c : Signal}

theorem findClosing_of_take (h : findClosing (tokens.take n) start o c = .ok stop) :
    findClosing tokens start o c = .ok stop ∧ stop < n := by
  have hwhole := findClosing_take h ((tokens.take n).drop (stop + 1) ++ tokens.drop n)
  rw [← List.append_assoc, List.take_append_drop, List.take_append_drop] at hwhole
  have hlt := (lt_of_findClosing h).2
  rw [List.length_take] at hlt
  exact ⟨hwhole, by omega⟩

theorem choicesBefore_take (h : stop < n) : choicesBefore stop (tokens.take n) = choicesBefore stop tokens := by
  unfold choicesBefore
  rw [List.take_take, Nat.min_eq_left (Nat.le_of_lt h)]

end Token

namespace FieldKind
variable {type : Token} {own : List Token} {primitive : PrimitiveType} {order : ByteOrder} {choices : List (String × Choice)}

theorem exists_choices (h : ofTokens type own = .ok (.set primitive order choices)) :
    ∃ stop, Token.findClosing own 1 .beginSet .endSet = .ok stop ∧
      (Token.choicesBefore stop own).mapM (Token.toChoice (8 * primitive.bytes)) = .ok choices := by
  unfold ofTokens at h
  split at h
  · obtain ⟨_, -, h⟩ := of_bind_eq_ok h
    cases h
  · obtain ⟨_, -, h⟩ := of_bind_eq_ok h
    obtain ⟨_, -, h⟩ := of_bind_eq_ok h
    obtain ⟨_, -, h⟩ := of_bind_eq_ok h
    cases h
  · obtain ⟨stop, hstop, h⟩ := of_bind_eq_ok h
    obtain ⟨_, -, h⟩ := of_bind_eq_ok h
    obtain ⟨_, hchoices, h⟩ := of_bind_eq_ok h
    cases h
    exact ⟨stop, hstop, hchoices⟩
  · obtain ⟨_, -, h⟩ := of_bind_eq_ok h
    obtain ⟨_, -, h⟩ := of_bind_eq_ok h
    cases h
  · cases h

end FieldKind

namespace FieldSchema
variable {tokens : List Token} {f : FieldSchema} {w : Width} {field : BitSetField w}

theorem exists_kind (h : ofTokens tokens = .ok f) :
    ∃ type stop, FieldKind.ofTokens type (tokens.take (stop + 1)) = .ok f.kind := by
  unfold ofTokens at h
  obtain ⟨stop, -, h⟩ := of_bind_eq_ok h
  dsimp only at h
  split at h
  · next first type rest hown =>
    obtain ⟨kind, hkind, h⟩ := of_bind_eq_ok h
    cases h
    exact ⟨type, stop, hkind⟩
  · cases h

theorem exists_set (h : f.bitSet? w = some field) : ∃ type choices, f.kind = .set type field.order choices ∧
    type.carrier = .unsigned w ∧ field.offset = f.offset ∧ field.since = f.since := by
  unfold bitSet? at h
  split at h
  · next type order choices hkind =>
    obtain ⟨hcarrier, hfield⟩ := Option.ite_none_right_eq_some.mp h
    obtain rfl := Option.some.inj hfield
    exact ⟨type, choices, hkind, hcarrier, rfl, rfl⟩
  · cases h

theorem forall₂_declares {type : PrimitiveType} {order : ByteOrder} {choices : List (String × Choice)}
    (h : ofTokens tokens = .ok f) (hkind : f.kind = .set type order choices) :
    ∃ stop, Token.findClosing tokens 1 .beginSet .endSet = .ok stop ∧
      List.Forall₂ (fun t entry => entry.2.bit < 8 * type.bytes ∧ t.Declares entry)
        (Token.choicesBefore stop tokens) choices := by
  obtain ⟨_, n, hown⟩ := exists_kind h
  rw [hkind] at hown
  obtain ⟨stop, hstop, hchoices⟩ := FieldKind.exists_choices hown
  obtain ⟨hwhole, hlt⟩ := Token.findClosing_of_take hstop
  rw [Token.choicesBefore_take hlt] at hchoices
  exact ⟨stop, hwhole, (forall₂_of_mapM hchoices).imp fun _ _ hentry => Token.declares_of_toChoice hentry⟩

/-- The choices of a set that has been derived are those of its tokens, each has its bit in the number that
carries the set, and of what is assigned to them nothing is lost. -/
theorem derived_choices_are_kept (hf : ofTokens tokens = .ok f) (hs : f.bitSet? w = some field) :
    ∃ type choices, f.kind = .set type field.order choices ∧ type.carrier = .unsigned w ∧
      field.offset = f.offset ∧ field.since = f.since ∧
      (∃ stop, Token.findClosing tokens 1 .beginSet .endSet = .ok stop ∧
        List.Forall₂ Token.Declares (Token.choicesBefore stop tokens) choices) ∧
      (∀ entry ∈ choices, entry.2.bit < w.bits ∧
        ∀ (raw : BitVec w.bits) value, entry.2.test (entry.2.apply raw value) = value) ∧
      ∀ (b : Block) (buffer : Buffer), b.base + field.offset + w.bytes ≤ buffer.size →
        ∃ raw, b.storedBits field buffer = .ok raw ∧
          ∀ assignments : List (Choice × Bool), (∀ a ∈ assignments, ∃ name, (name, a.1) ∈ choices) →
            ∃ written raw', field.Assigned b assignments buffer written raw raw' := by
  obtain ⟨type, choices, hkind, hcarrier, hoffset, hsince⟩ := exists_set hs
  obtain ⟨stop, hstop, hchoices⟩ := forall₂_declares hf hkind
  have hwidth : 8 * type.bytes = w.bits := congrArg (fun c => 8 * Carrier.bytes c) hcarrier
  have hbits : ∀ entry ∈ choices, entry.2.bit < w.bits :=
    hwidth ▸ ((List.forall₂_and_left _ _).mp hchoices.flip).1
  refine ⟨type, choices, hkind, hcarrier, hoffset, hsince, ⟨stop, hstop, hchoices.imp fun _ _ h => h.2⟩, ?_, ?_⟩
  · intro entry hentry
    refine ⟨hbits entry hentry, fun raw value => ?_⟩
    unfold Choice.test
    rw [Choice.getLsbD_apply, if_pos ⟨rfl, hbits entry hentry⟩]
  · intro b buffer hle
    obtain ⟨raw, hraw⟩ := b.exists_storedBits hle
    refine ⟨raw, hraw, fun assignments hassignments => ⟨_, _, Block.assigned_putChoices hraw fun a ha => ?_⟩⟩
    obtain ⟨name, hname⟩ := hassignments a ha
    exact hbits _ hname

def extra (name : String) (bit : UInt64) (since : Version) : Token where
  signal := .choice
  name := name
  version := since
  encoding := { value := some (.ulong bit) }

/-- Two choices share a bit, the newer one in place of the older. -/
def extras : List Token :=
  [{ signal := .beginField, name := "extras", id := 7 },
    { signal := .beginSet, name := "Extras", version := 1, offset := 2,
      encoding := { type := some Token.uint16, order := .big } },
    extra "sunRoof" 0 0, extra "sports" 9 0, extra "cruise" 9 2,
    { signal := .endSet, name := "Extras" }, { signal := .endField, name := "extras" }]

theorem derived_choices_are_kept_extras :
    let set : BitSetField .w16 := ⟨2, .big, 1⟩
    (∃ f, ofTokens extras = .ok f ∧ f.bitSet? .w16 = some set) ∧
      ∃ written, Block.putChoices ⟨1, 2⟩ set [(⟨9, 0⟩, true), (⟨0, 0⟩, true), (⟨9, 2⟩, false)]
          #[0, 0, 0, 0xff, 0xfe, 0] = .ok () written ∧
        written.toList = [0, 0, 0, 0xfd, 0xff, 0] ∧
        Block.getChoice ⟨1, 2⟩ set ⟨9, 0⟩ written = .ok false ∧ Block.getChoice ⟨1, 2⟩ set ⟨0, 0⟩ written = .ok true := by
  intro set
  have hf : ofTokens extras = .ok ⟨"extras", 7, 2, 1, .set Token.uint16 .big
      [("sunRoof", ⟨0, 0⟩), ("sports", ⟨9, 0⟩), ("cruise", ⟨9, 2⟩)]⟩ := rfl
  have hs : bitSet? ⟨"extras", 7, 2, 1, .set Token.uint16 .big
      [("sunRoof", ⟨0, 0⟩), ("sports", ⟨9, 0⟩), ("cruise", ⟨9, 2⟩)]⟩ .w16 = some set := rfl
  obtain ⟨type, choices, hkind, -, -, -, -, -, hkept⟩ := derived_choices_are_kept hf hs
  cases hkind
  obtain ⟨raw, -, hassigned⟩ := hkept ⟨1, 2⟩ #[0, 0, 0, 0xff, 0xfe, 0] (by decide)
  obtain ⟨written, raw', h⟩ := hassigned [(⟨9, 0⟩, true), (⟨0, 0⟩, true), (⟨9, 2⟩, false)] (by simp)
  refine ⟨⟨_, hf, rfl⟩, written, h.runs, ?_, ?_, ?_⟩
  · have hraw : Block.storedBits ⟨1, 2⟩ set #[0, 0, 0, 0xff, 0xfe, 0] = .ok 0xfffe :=
      Block.storedBits_eq_ok_iff.mpr (Buffer.window_eq_ok_iff.mpr ⟨by decide, rfl, by decide⟩)
    cases (Block.putChoices_eq_ok hraw).symm.trans h.runs
    decide
  · exact h.reads ⟨9, 0⟩ (by decide) (by decide) (by decide)
  · exact h.reads ⟨0, 0⟩ (by decide) (by decide) (by decide)

end FieldSchema

end SimpleBinary
