import SimpleBinary.Proofs.Schema.Derivation
import SimpleBinary.Proofs.Schema.Draft

/-!
# What is rejected, and why

A schema is derived from the tokens of a draft exactly if the draft has no defects, and otherwise the first
of them is reported. This holds of every part of it: a part that comes later is looked at only if the parts
before it are in order.
-/

namespace SimpleBinary

open Token (Nested)

/-! ## Reports -/

section
variable {ε α β : Type} {x : Except ε α} {f : α → Except ε β} {ds ds' : List ε}

/-- The first of the defects is the error, if there are any. -/
def Reports (x : Except ε α) (ds : List ε) : Prop := ∀ e, x = .error e ↔ ds.head? = some e

namespace Reports

theorem ok (a : α) : Reports (.ok a : Except ε α) [] := by
  intro e
  simp

theorem error (e : ε) (ds : List ε) : Reports (.error e : Except ε α) (e :: ds) := by
  intro e'
  simp

theorem exists_ok_iff (h : Reports x ds) : (∃ a, x = .ok a) ↔ ds = [] := by
  cases x with
  | ok a =>
    have hnone : ∀ e, ds.head? ≠ some e := fun e he => nomatch (h e).mpr he
    cases ds with
    | nil => simp
    | cons e ds => exact absurd rfl (hnone e)
  | error e =>
    have he := (h e).mp rfl
    cases ds with
    | nil => cases he
    | cons e ds => simp

theorem bind (h : Reports x ds) (hf : ∀ a, x = .ok a → Reports (f a) ds') : Reports (x >>= f) (ds ++ ds') := by
  cases x with
  | ok a =>
    obtain rfl := h.exists_ok_iff.mp ⟨a, rfl⟩
    exact hf a rfl
  | error e =>
    have he := (h e).mp rfl
    intro e'
    rw [List.head?_append, he]
    show (Except.error e : Except ε β) = .error e' ↔ some e = some e'
    simp

theorem after {a : α} (hx : x = .ok a) (h : Reports (f a) ds) : Reports (x >>= f) ds := by
  rw [hx]
  exact h

theorem stop {e : ε} (hx : x = .error e) (ds : List ε) : Reports (x >>= f) (e :: ds) := by
  rw [hx]
  exact error e ds

theorem map (h : Reports x ds) (g : α → β) : Reports (x >>= fun a => .ok (g a)) ds := by
  have hbind := h.bind (f := fun a => .ok (g a)) fun a _ => ok (g a)
  rwa [List.append_nil] at hbind

theorem mapM {d : α → List ε} (h : ∀ a, Reports (f a) (d a)) (l : List α) : Reports (l.mapM f) (l.flatMap d) := by
  induction l with
  | nil => exact ok []
  | cons a l ih =>
    rw [List.mapM_cons, List.flatMap_cons]
    exact (h a).bind fun b _ => ih.map (b :: ·)

end Reports

end

/-! ## Single tokens -/

namespace Literal
variable {l : Literal} {i : Int}

theorem integer?_lt (h : l.integer? = some i) : i < 2 ^ (64 : Nat) := by
  cases l with
  | long value =>
    cases h
    have := value.toInt_lt
    omega
  | ulong value =>
    cases h
    have := value.toNat_lt
    omega
  | double value => cases h
  | bytes value =>
    obtain _ | ⟨byte, _ | _⟩ := value
    · cases h
    · cases h
      have := byte.toNat_lt
      omega
    · cases h

theorem value?_of_integer? (h : l.integer? = some i) :
    l.value? (.unsigned .w64) = if 0 ≤ i ∧ i < 2 ^ Width.w64.bits then some (BitVec.ofInt _ i) else none := by
  unfold value?
  rw [h]
  rfl

theorem value?_ofNat {n : Nat} (h : l.integer? = some (.ofNat n)) :
    ∃ v, l.value? (.unsigned .w64) = some v ∧ v.toNat = n := by
  have hlt := integer?_lt h
  have hbits : Width.w64.bits = 64 := rfl
  have hn : 0 ≤ Int.ofNat n ∧ Int.ofNat n < 2 ^ Width.w64.bits := ⟨Int.natCast_nonneg n, hbits ▸ hlt⟩
  refine ⟨BitVec.ofInt _ (.ofNat n), (value?_of_integer? h).trans (if_pos hn), ?_⟩
  rw [BitVec.toNat_ofInt, Int.emod_eq_of_lt hn.1 (by exact_mod_cast hn.2)]
  rfl

theorem value?_negSucc {n : Nat} (h : l.integer? = some (.negSucc n)) : l.value? (.unsigned .w64) = none :=
  (value?_of_integer? h).trans (if_neg fun hn => absurd hn.1 (by omega))

theorem value?_none (h : l.integer? = none) : l.value? (.unsigned .w64) = none := by
  unfold value?
  rw [h]
  rfl

end Literal

namespace Token

theorem reports_type (t : Token) : Reports t.type t.typeDefects := by
  unfold type typeDefects
  cases t.encoding.type with
  | none => exact .error _ _
  | some type => exact .ok type

theorem reports_width (t : Token) : Reports t.width t.widthDefects := by
  unfold width type widthDefects
  cases t.encoding.type with
  | none => exact .error _ _
  | some type =>
    show Reports _ (if type.width? = none then _ else _)
    refine .after rfl ?_
    cases type.width? with
    | none => exact .error _ _
    | some w => exact .ok w

theorem reports_toValidValue (t : Token) : Reports t.toValidValue t.constantDefects := by
  unfold toValidValue constantDefects
  cases t.encoding.value with
  | none => exact .error _ _
  | some value => exact .ok (t.name, value)

theorem reports_toChoice (bits : Nat) (t : Token) : Reports (t.toChoice bits) (t.choiceDefects bits) := by
  unfold toChoice choiceDefects
  cases t.encoding.value with
  | none => exact .error _ _
  | some l =>
    simp only [Option.bind_some]
    cases hl : l.integer? with
    | none =>
      rw [Literal.value?_none hl]
      exact .error _ _
    | some i =>
      cases i with
      | negSucc n =>
        rw [Literal.value?_negSucc hl]
        exact .error _ _
      | ofNat n =>
        obtain ⟨bit, hbit, rfl⟩ := Literal.value?_ofNat hl
        simp only [hbit]
        by_cases hb : bit.toNat < bits
        · rw [if_pos hb, if_pos hb]
          exact .ok _
        · rw [if_neg hb, if_neg hb]
          exact .error _ _

theorem reports_valueKind (t : Token) : Reports (ValueKind.ofToken t) t.valueDefects := by
  unfold ValueKind.ofToken valueDefects constantDefects
  refine t.reports_type.bind fun type _ => ?_
  by_cases hc : t.isConstant = true
  · rw [if_pos hc, if_pos hc]
    cases t.encoding.value with
    | none => exact .error _ _
    | some value => exact .ok _
  · rw [if_neg hc, if_neg hc]
    exact .ok _

theorem reports_toMember (t : Token) (index : Nat) : Reports (t.toMember index) (t.memberDefects index) := by
  unfold toMember memberDefects
  by_cases h : t.signal = .encoding
  · rw [if_pos h]
    exact .after (if_pos h) (t.reports_valueKind.map _)
  · rw [if_neg h]
    exact .stop (if_neg h) []

end Token

/-! ## Fields -/

namespace TypeDraft

theorem tokens_eq_cons (t : TypeDraft) : t.tokens = t.mark.token t.signal :: t.tokens.tail := by
  cases t <;> rfl

theorem nested_tokens (t : TypeDraft) : Nested t.tokens := by
  cases t with
  | value mark => exact .leaf rfl
  | enumeration first last inner | set first last inner | composite first last inner =>
    exact .enclose rfl inner.nested

theorem reports_own (t : TypeDraft) (begin : Token) (after : List Token) :
    Reports (FieldKind.ofTokens (t.mark.token t.signal) (begin :: (t.tokens ++ after))) t.defects := by
  cases t with
  | value mark => exact (mark.token .encoding).reports_valueKind.map _
  | enumeration first last inner =>
    rw [tokens, Token.construct_append]
    refine .after (Token.findClosing_one rfl rfl rfl inner.nested begin after) ?_
    rw [TypeTree.drop_take_interior]
    exact (first.token .beginEnum).reports_type.bind fun type _ => (Reports.mapM Token.reports_toValidValue _).map _
  | set first last inner =>
    rw [tokens, Token.construct_append, defects]
    refine .after (Token.findClosing_one rfl rfl rfl inner.nested begin after) ?_
    rw [TypeTree.drop_take_interior]
    cases ht : first.encoding.type with
    | none =>
      have htype : (first.token .beginSet).type = .error (.missingPrimitiveType first.name) := by
        unfold Token.type Mark.token
        rw [ht]
      exact .stop htype []
    | some type =>
      exact .after (Mark.type_token ht) ((Reports.mapM (Token.reports_toChoice (8 * type.bytes)) _).map _)
  | composite first last inner =>
    rw [tokens, Token.construct_append]
    refine .after (Token.findClosing_one rfl rfl rfl inner.nested begin after) ?_
    rw [TypeTree.drop_take_interior]
    exact (Reports.mapM (fun a => a.1.reports_toMember a.2) _).map _

end TypeDraft

namespace FieldDraft

theorem nested_interior (t : FieldDraft) : Nested t.interior := by
  cases t with
  | typed first last type after => exact type.nested_tokens.append after.nested
  | untyped first last inner noType => exact inner.nested

theorem ofTokens_noType {type : Token} (h : type.signal.isType = false) (own : List Token) :
    FieldKind.ofTokens type own = .error (.unexpectedSignal 1 .encoding type.signal) := by
  unfold FieldKind.ofTokens
  cases hs : type.signal <;> first | rfl | (rw [hs] at h; cases h)

theorem reports_ofTokens (t : FieldDraft) : Reports (FieldSchema.ofTokens t.tokens) t.defects := by
  unfold FieldSchema.ofTokens
  refine .after (Token.findClosing_zero rfl rfl rfl t.nested_interior []) ?_
  have hown : t.tokens.take (t.interior.length + 1 + 1) = t.tokens := Token.take_construct ..
  rw [hown]
  cases t with
  | typed first last type after =>
    have htokens : (typed first last type after).tokens = first.token .beginField ::
        type.mark.token type.signal :: (type.tokens.tail ++ (after.tokens ++ [last.token .endField])) := by
      rw [← List.cons_append, ← type.tokens_eq_cons, ← List.append_assoc]
      rfl
    rw [htokens]
    refine Reports.map ?_ _
    rw [← List.cons_append, ← type.tokens_eq_cons]
    exact type.reports_own _ _
  | untyped first last inner noType =>
    obtain ⟨inner, nested⟩ := inner
    cases inner with
    | nil => exact .stop (ofTokens_noType rfl _) []
    | cons t rest => exact .stop (ofTokens_noType (noType t rfl) _) []

end FieldDraft

/-! ## Groups and data sections -/

namespace CompositeDraft

theorem nested_tokens (t : CompositeDraft) : Nested t.tokens := .enclose rfl t.inner.nested

theorem compositeParts_append (t : CompositeDraft) (rest : List Token) :
    Token.compositeParts (t.tokens ++ rest) = .ok (t.first.token .beginComposite, t.inner.tokens) := by
  rw [tokens, Token.construct_append]
  exact compositeParts_eq_ok rfl rfl t.inner.nested

theorem reports_unsignedMember (t : CompositeDraft) (name : String) :
    Reports ((t.first.token .beginComposite).unsignedMember t.inner.tokens name) (t.unsignedDefects name) := by
  unfold Token.unsignedMember unsignedDefects
  cases t.inner.tokens.find? fun t => t.signal = .encoding && t.name = name with
  | none => exact .error _ _
  | some member => exact member.reports_width.map _

theorem reports_dimensions (t : CompositeDraft) : Reports (Dimensions.ofTokens t.tokens) t.dimensionsDefects := by
  have hparts := t.compositeParts_append []
  rw [List.append_nil] at hparts
  unfold Dimensions.ofTokens
  refine .after hparts ?_
  exact (t.reports_unsignedMember "blockLength").bind fun _ _ => (t.reports_unsignedMember "numInGroup").map _

theorem findClosing_own (t : CompositeDraft) (begin : Token) (after : List Token) :
    Token.findClosing (begin :: (t.tokens ++ after)) 1 .beginComposite .endComposite = .ok t.tokens.length :=
  Token.findClosing_construct rfl rfl rfl t.inner.nested begin after

theorem reports_group (t : CompositeDraft) (first : Mark) (after : List Token) :
    Reports (GroupFormat.ofTokens (first.token .beginGroup :: (t.tokens ++ after))) t.dimensionsDefects := by
  unfold GroupFormat.ofTokens
  refine .after (Mark.expect_token 0) ?_
  refine .after (t.findClosing_own _ after) ?_
  rw [List.take_succ_cons, List.take_left]
  exact t.reports_dimensions.map _

end CompositeDraft

namespace DataDraft

theorem nested_interior (t : DataDraft) : Nested (t.composite.tokens ++ t.after.tokens) :=
  t.composite.nested_tokens.append t.after.nested

theorem reports_ofTokens (t : DataDraft) : Reports (DataSchema.ofTokens t.tokens) t.defects := by
  rw [tokens, List.append_assoc, defects]
  unfold DataSchema.ofTokens CompositeDraft.dataDefects
  refine .after (Mark.expect_token 0) ?_
  refine .after (t.composite.compositeParts_append _) ?_
  cases t.composite.inner.tokens with
  | nil => exact .error _ _
  | cons length others =>
    show Reports _ (if length.signal = .encoding then _ else _)
    by_cases hl : length.signal = .encoding
    · rw [if_pos hl]
      exact .after (if_pos hl) (length.reports_width.map _)
    · rw [if_neg hl]
      exact .stop (if_neg hl) []

end DataDraft

/-! ## Members -/

namespace MemberDraft

theorem nested_tokens (t : MemberDraft) : Nested t.tokens := by
  induction t with
  | nil => exact .nil
  | field t rest ih =>
    have ht : Nested t.tokens := .enclose rfl t.nested_interior
    exact ht.append ih
  | group first last dimensions inner rest ihInner ihRest =>
    have hgroup : Nested (first.token .beginGroup ::
        ((dimensions.tokens ++ inner.tokens) ++ [last.token .endGroup])) :=
      .enclose rfl (dimensions.nested_tokens.append ihInner)
    have hall := hgroup.append ihRest
    rw [Token.construct_append] at hall
    exact hall
  | data t rest ih =>
    have ht : Nested t.tokens := .enclose rfl t.nested_interior
    exact ht.append ih
  | stray first after nested noMember rest ih => exact nested.append ih

theorem ofTokens_noMember {first : Token} (h : first.signal.isMember = false) (index : Nat) (rest : List Token) :
    Members.ofTokens index (first :: rest) = .error (.unexpectedSignal index .beginField first.signal) := by
  rw [Members.ofTokens]
  cases hs : first.signal <;> first | rfl | (rw [hs] at h; cases h)

theorem reports_ofTokens (t : MemberDraft) :
    ∀ index, Reports (Members.ofTokens index t.tokens) (t.defects index) := by
  induction t with
  | nil =>
    intro index
    rw [tokens, Members.ofTokens]
    exact .ok ({} : Members)
  | field t rest ih =>
    intro index
    have hindex : index + t.tokens.length = index + (t.interior.length + 1) + 1 := by
      simp [FieldDraft.tokens, Nat.add_assoc]
    rw [tokens, defects, hindex, FieldDraft.tokens, Token.construct_append, Members.ofTokens]
    refine .after (Token.findClosing_zero rfl rfl rfl t.nested_interior _) ?_
    rw [Token.take_construct, Token.drop_construct]
    exact t.reports_ofTokens.bind fun _ _ => (ih _).map _
  | group first last dimensions inner rest ihInner ihRest =>
    intro index
    have hall : Nested (dimensions.tokens ++ inner.tokens) := dimensions.nested_tokens.append inner.nested_tokens
    have hindex : index + (dimensions.tokens.length + inner.tokens.length + 2) =
        index + ((dimensions.tokens ++ inner.tokens).length + 1) + 1 := by
      rw [List.length_append]
      omega
    rw [tokens, defects, hindex, Members.ofTokens]
    refine .after (Token.findClosing_zero rfl rfl rfl hall _) ?_
    rw [Token.take_construct, Token.drop_construct]
    refine Reports.bind ?_ fun _ _ => (ihRest _).map _
    -- the group is read again, from its own tokens
    rw [GroupSchema.ofTokens]
    refine .after (Token.findClosing_zero rfl rfl rfl hall []) ?_
    rw [Token.take_construct, Token.take_interior, List.append_assoc]
    refine (dimensions.reports_group first _).bind fun _ _ => ?_
    refine .after (dimensions.findClosing_own _ _) ?_
    rw [List.drop_succ_cons, List.drop_left]
    exact (ihInner 0).map _
  | data t rest ih =>
    intro index
    have hindex : index + t.tokens.length =
        index + ((t.composite.tokens ++ t.after.tokens).length + 1) + 1 := by
      simp [DataDraft.tokens, Nat.add_assoc]
    rw [tokens, defects, hindex, DataDraft.tokens, Token.construct_append, Members.ofTokens]
    refine .after (Token.findClosing_zero rfl rfl rfl t.nested_interior _) ?_
    rw [Token.take_construct, Token.drop_construct]
    exact t.reports_ofTokens.bind fun _ _ => (ih _).map _
  | stray first after nested noMember rest ih =>
    intro index
    rw [tokens, defects, ofTokens_noMember noMember]
    exact .error _ _

end MemberDraft

/-- A message is derived exactly if the draft has no defects, and else the first of them is the error. -/
theorem MessageSchema.ofTokens_draft (t : MessageDraft) :
    ((∃ s, MessageSchema.ofTokens t.tokens = .ok s) ↔ t.defects = []) ∧
      ∀ e, MessageSchema.ofTokens t.tokens = .error e ↔ t.defects.head? = some e := by
  have hreports : Reports (MessageSchema.ofTokens t.tokens) t.defects := by
    unfold MessageSchema.ofTokens MessageDraft.defects
    refine .after (Token.findClosing_zero rfl rfl rfl t.members.nested_tokens []) ?_
    rw [MessageDraft.tokens, Token.take_interior]
    show Reports (if 65535 < t.first.size then _ else _) _
    by_cases hsize : 65535 < t.first.size
    · rw [if_pos hsize, if_pos hsize]
      exact .stop rfl _
    · rw [if_neg hsize, if_neg hsize]
      exact (t.members.reports_ofTokens 0).map _
  exact ⟨hreports.exists_ok_iff, hreports⟩

end SimpleBinary
