import SimpleBinary.Proofs.Schema.Tree

/-!
# Deriving a schema from the tokens of a tree

What is derived from the tokens of a tree is what the tree describes. Every construct is read from
its own tokens, which are nested, so each is found whole and in its turn, whatever it is nested in
and whatever follows it.
-/

namespace SimpleBinary

open Token (Nested)

theorem ok_bind {ε α β : Type} {x : Except ε α} {f : α → Except ε β} {a : α} (h : x = .ok a) :
    (x >>= f) = f a := by
  rw [h]
  rfl

theorem error_bind {ε α β : Type} {x : Except ε α} {f : α → Except ε β} {e : ε} (h : x = .error e) :
    (x >>= f) = .error e := by
  rw [h]
  rfl

theorem of_bind_eq_ok {ε α β : Type} {x : Except ε α} {f : α → Except ε β} {b : β} (h : (x >>= f) = .ok b) :
    ∃ a, x = .ok a ∧ f a = .ok b := by
  cases x with
  | ok a => exact ⟨a, rfl, h⟩
  | error e => cases h

theorem of_bind_eq_error {ε α β : Type} {x : Except ε α} {f : α → Except ε β} {e : ε} (h : (x >>= f) = .error e) :
    x = .error e ∨ ∃ a, x = .ok a ∧ f a = .error e := by
  cases x with
  | ok a => exact .inr ⟨a, rfl, h⟩
  | error e' =>
    cases h
    exact .inl rfl

theorem mapM_map_eq_ok {ε α β γ : Type} {f : β → Except ε γ} {g : α → β} {h : α → γ}
    (hf : ∀ a, f (g a) = .ok (h a)) (l : List α) : (l.map g).mapM f = .ok (l.map h) := by
  induction l with
  | nil => rfl
  | cons a l ih =>
    rw [List.map_cons, List.mapM_cons]
    exact (ok_bind (hf a)).trans (ok_bind ih)

namespace Mark
variable {m : Mark} {signal : Signal} {type : PrimitiveType}

theorem expect_token (index : Nat) : (m.token signal).expect index signal = .ok () := Token.expect_of_eq index rfl

theorem type_token (h : m.encoding.type = some type) : (m.token signal).type = .ok type := by
  unfold Token.type token
  rw [h]

theorem width_token (h : m.encoding.type = some type) {width : Width} (hw : type.width? = some width) :
    (m.token signal).width = .ok width := by
  unfold Token.width
  refine (ok_bind (type_token h)).trans ?_
  rw [hw]
  rfl

theorem isLeaf_tokens {α : Type} (l : List α) (mark : α → Mark) (hs : signal.isLeaf = true) :
    ∀ t ∈ l.map fun a => (mark a).token signal, t.signal.isLeaf = true := by
  intro t ht
  obtain ⟨a, -, rfl⟩ := List.mem_map.mp ht
  exact hs

theorem nested_tokens {α : Type} (l : List α) (mark : α → Mark) (hs : signal.isLeaf = true) :
    Nested (l.map fun a => (mark a).token signal) :=
  Token.nested_of_leaves (isLeaf_tokens l mark hs)

theorem filter_tokens {α : Type} (l : List α) (mark : α → Mark) :
    (l.map fun a => (mark a).token signal).filter (fun t => t.signal = signal) =
      l.map fun a => (mark a).token signal := by
  refine List.filter_eq_self.mpr fun t ht => ?_
  obtain ⟨a, -, rfl⟩ := List.mem_map.mp ht
  exact decide_eq_true rfl

end Mark

/-! ## Fields -/

namespace ValueTree

theorem ofToken_token (t : ValueTree) : ValueKind.ofToken t.token = .ok t.kind := by
  unfold ValueKind.ofToken
  cases t with
  | plain mark type hasType notConstant =>
    have hc : (mark.token .encoding).isConstant = false := decide_eq_false notConstant
    have hl : (mark.token .encoding).arrayLength = if mark.size = 0 then 1 else mark.size / type.bytes := by
      unfold Token.arrayLength Mark.token
      rw [hasType]
    refine (ok_bind (Mark.type_token hasType)).trans ?_
    show (if (mark.token .encoding).isConstant = true then _ else _) = _
    rw [hc, if_neg Bool.false_ne_true, kind, ← hl]
    rfl
  | constant mark type value hasType isConstant hasValue =>
    have hc : (mark.token .encoding).isConstant = true := decide_eq_true isConstant
    refine (ok_bind (Mark.type_token hasType)).trans ?_
    show (if (mark.token .encoding).isConstant = true then _ else _) = _
    rw [hc, if_pos rfl]
    have hv : (constant mark type value hasType isConstant hasValue).token.encoding.value = some value := hasValue
    rw [hv]
    rfl

theorem toMember_token (t : ValueTree) (index : Nat) : t.token.toMember index = .ok t.member :=
  (ok_bind (Mark.expect_token index)).trans (ok_bind t.ofToken_token)

theorem mapM_toMember (members : List ValueTree) : ∀ index : Nat,
    ((members.map (·.token)).zipIdx index).mapM (fun (t, index) => t.toMember index) =
      .ok (members.map (·.member)) := by
  induction members with
  | nil => intro index; rfl
  | cons t members ih =>
    intro index
    rw [List.map_cons, List.zipIdx_cons, List.mapM_cons]
    exact (ok_bind (t.toMember_token index)).trans (ok_bind (ih (index + 1)))

end ValueTree

theorem ValidValueTree.toValidValue_token (t : ValidValueTree) :
    (t.mark.token .validValue).toValidValue = .ok (t.mark.name, t.value) := by
  unfold Token.toValidValue Mark.token
  rw [t.hasValue]

theorem ChoiceTree.toChoice_token {bits : Nat} (t : ChoiceTree bits) :
    (t.mark.token .choice).toChoice bits = .ok (t.mark.name, ⟨t.bit.toNat, t.mark.version⟩) := by
  have hb : ((t.mark.token .choice).encoding.value.bind fun l => l.value? (.unsigned .w64)) = some t.bit :=
    t.hasBit
  unfold Token.toChoice
  rw [hb]
  exact if_pos t.bit_lt

namespace TypeTree

def signal : TypeTree → Signal
  | value _ => .encoding
  | enumeration .. => .beginEnum
  | set .. => .beginSet
  | composite .. => .beginComposite

theorem tokens_eq_cons (t : TypeTree) : t.tokens = t.mark.token t.signal :: t.tokens.tail := by
  cases t <;> rfl

theorem nested_tokens (t : TypeTree) : Nested t.tokens := by
  cases t with
  | value t => exact .leaf rfl
  | enumeration first last type hasType values => exact .enclose rfl (Mark.nested_tokens values (·.mark) rfl)
  | set first last type hasType choices => exact .enclose rfl (Mark.nested_tokens choices (·.mark) rfl)
  | composite first last members => exact .enclose rfl (Mark.nested_tokens members (·.mark) rfl)

theorem drop_take_interior (t first last : Token) (inner after : List Token) :
    ((t :: first :: (inner ++ last :: after)).take (inner.length + 2)).drop 2 = inner := by
  rw [List.take_succ_cons, Token.take_interior]
  rfl

theorem ofTokens_own (t : TypeTree) (begin : Token) (after : List Token) :
    FieldKind.ofTokens (t.mark.token t.signal) (begin :: (t.tokens ++ after)) = .ok t.kind := by
  cases t with
  | value t => exact ok_bind t.ofToken_token
  | enumeration first last type hasType values =>
    have hn : Nested (values.map (·.mark.token .validValue)) := Mark.nested_tokens values (·.mark) rfl
    rw [tokens, Token.construct_append]
    refine (ok_bind (Token.findClosing_one rfl rfl rfl hn begin after)).trans ?_
    refine (ok_bind (Mark.type_token hasType)).trans ?_
    rw [drop_take_interior, Mark.filter_tokens values (·.mark)]
    exact ok_bind (mapM_map_eq_ok ValidValueTree.toValidValue_token values)
  | set first last type hasType choices =>
    have hn : Nested (choices.map (·.mark.token .choice)) := Mark.nested_tokens choices (·.mark) rfl
    rw [tokens, Token.construct_append]
    refine (ok_bind (Token.findClosing_one rfl rfl rfl hn begin after)).trans ?_
    refine (ok_bind (Mark.type_token hasType)).trans ?_
    rw [drop_take_interior, Mark.filter_tokens choices (·.mark)]
    exact ok_bind (mapM_map_eq_ok ChoiceTree.toChoice_token choices)
  | composite first last members =>
    have hn : Nested (members.map (·.token)) := Mark.nested_tokens members (·.mark) rfl
    rw [tokens, Token.construct_append]
    refine (ok_bind (Token.findClosing_one rfl rfl rfl hn begin after)).trans ?_
    rw [drop_take_interior]
    exact ok_bind (ValueTree.mapM_toMember members 2)

end TypeTree

theorem FieldTree.ofTokens_tokens (t : FieldTree) : FieldSchema.ofTokens t.tokens = .ok t.schema := by
  unfold FieldSchema.ofTokens
  have hn := t.type.nested_tokens
  refine (ok_bind (Token.findClosing_zero rfl rfl rfl hn [])).trans ?_
  have hown : t.tokens.take (t.type.tokens.length + 1 + 1) = t.first.token .beginField ::
      t.type.mark.token t.type.signal :: (t.type.tokens.tail ++ [t.last.token .endField]) := by
    rw [← List.cons_append, ← t.type.tokens_eq_cons]
    exact Token.take_construct ..
  rw [hown]
  refine (ok_bind ?_).trans rfl
  rw [← List.cons_append, ← t.type.tokens_eq_cons]
  exact t.type.ofTokens_own _ _

/-! ## Groups and data sections -/

theorem compositeParts_eq_ok {first last : Token} {inner rest : List Token} (ho : first.signal = .beginComposite)
    (hc : last.signal = .endComposite) (hn : Nested inner) :
    Token.compositeParts (first :: (inner ++ last :: rest)) = .ok (first, inner) := by
  unfold Token.compositeParts
  refine (ok_bind (Token.findClosing_zero ho hc rfl hn rest)).trans ?_
  rw [Token.take_interior]
  rfl

theorem UnsignedTree.unsignedMember_eq_ok {members : List Mark} {name : String} (t : UnsignedTree members name)
    (outer : Token) : outer.unsignedMember (members.map (·.token .encoding)) name = .ok t.field := by
  have hf : (members.map (·.token .encoding)).find? (fun t => t.signal = .encoding && t.name = name) =
      some (t.mark.token .encoding) := by
    rw [List.find?_map]
    have hp : (fun t : Token => decide (t.signal = .encoding) && decide (t.name = name)) ∘
        (fun m : Mark => m.token .encoding) = fun m => decide (m.name = name) := by
      funext m
      show (decide (Signal.encoding = .encoding) && _) = _
      rw [decide_eq_true rfl, Bool.true_and]
      rfl
    rw [hp, t.found]
    rfl
  unfold Token.unsignedMember
  rw [hf]
  exact ok_bind (Mark.width_token t.hasType t.unsigned)

namespace DimensionsTree

theorem nested_interior (t : DimensionsTree) : Nested t.interior := Mark.nested_tokens t.members id rfl

theorem nested_tokens (t : DimensionsTree) : Nested t.tokens := .enclose rfl t.nested_interior

theorem ofTokens_tokens (t : DimensionsTree) : Dimensions.ofTokens t.tokens = .ok t.schema := by
  unfold Dimensions.ofTokens
  refine (ok_bind (compositeParts_eq_ok rfl rfl t.nested_interior)).trans ?_
  refine (ok_bind (t.blockLength.unsignedMember_eq_ok _)).trans ?_
  exact ok_bind (t.numInGroup.unsignedMember_eq_ok _)

theorem findClosing_own (t : DimensionsTree) (begin : Token) (after : List Token) :
    Token.findClosing (begin :: (t.tokens ++ after)) 1 .beginComposite .endComposite = .ok t.tokens.length :=
  Token.findClosing_construct rfl rfl rfl t.nested_interior begin after

end DimensionsTree

theorem GroupFormat.ofTokens_own (first : Mark) (dimensions : DimensionsTree) (after : List Token) :
    GroupFormat.ofTokens (first.token .beginGroup :: (dimensions.tokens ++ after)) =
      .ok ⟨first.size, first.version, dimensions.schema⟩ := by
  unfold GroupFormat.ofTokens
  refine (ok_bind (Mark.expect_token 0)).trans ?_
  refine (ok_bind (dimensions.findClosing_own _ after)).trans ?_
  rw [List.take_succ_cons, List.take_left]
  exact ok_bind dimensions.ofTokens_tokens

namespace DataTree

theorem nested_composite (t : DataTree) : Nested t.composite :=
  .enclose rfl (Mark.nested_tokens (t.length :: t.others) id rfl)

theorem ofTokens_tokens (t : DataTree) : DataSchema.ofTokens t.tokens = .ok t.schema := by
  have hn : Nested ((t.length :: t.others).map (·.token .encoding)) :=
    Mark.nested_tokens (t.length :: t.others) id rfl
  have hcharset : ((t.others.map (·.token .encoding)).head?.bind fun data => data.encoding.charset) =
      t.others.head?.bind fun data => data.encoding.charset := by
    cases t.others <;> rfl
  rw [tokens, composite, Token.construct_append, schema, ← hcharset]
  unfold DataSchema.ofTokens
  refine (ok_bind (Mark.expect_token 0)).trans ?_
  refine (ok_bind (compositeParts_eq_ok rfl rfl hn)).trans ?_
  refine (ok_bind (Mark.expect_token 2)).trans ?_
  exact ok_bind (Mark.width_token t.hasType t.unsigned)

end DataTree

/-! ## Members -/

theorem GroupSchema.ofTokens_own (first last : Mark) (dimensions : DimensionsTree) {inner : List Token}
    {members : Members} (hn : Nested inner) (hinner : Members.ofTokens 0 inner = .ok members) :
    GroupSchema.ofTokens (first.token .beginGroup :: (dimensions.tokens ++ inner ++ [last.token .endGroup])) =
      .ok ⟨first.name, first.id, ⟨first.size, first.version, dimensions.schema⟩, members.fields, members.groups,
        members.data⟩ := by
  have hall : Nested (dimensions.tokens ++ inner) := dimensions.nested_tokens.append hn
  rw [ofTokens]
  refine (ok_bind (Token.findClosing_zero rfl rfl rfl hall [])).trans ?_
  rw [Token.take_construct, Token.take_interior, List.append_assoc]
  refine (ok_bind (GroupFormat.ofTokens_own first dimensions _)).trans ?_
  refine (ok_bind (dimensions.findClosing_own _ _)).trans ?_
  rw [List.drop_succ_cons, List.drop_left]
  exact ok_bind hinner

namespace Members

theorem ofTokens_field (t : FieldTree) (index : Nat) (rest : List Token) :
    Members.ofTokens index (t.tokens ++ rest) =
      (Members.ofTokens (index + (t.type.tokens.length + 1) + 1) rest >>= fun others =>
        .ok (others.addField t.schema)) := by
  rw [FieldTree.tokens, Token.construct_append, Members.ofTokens]
  refine (ok_bind (Token.findClosing_zero rfl rfl rfl t.type.nested_tokens rest)).trans ?_
  rw [Token.take_construct, Token.drop_construct]
  exact ok_bind t.ofTokens_tokens

theorem ofTokens_data (t : DataTree) (index : Nat) (rest : List Token) :
    Members.ofTokens index (t.tokens ++ rest) =
      (Members.ofTokens (index + (t.composite.length + 1) + 1) rest >>= fun others =>
        .ok (others.addData t.schema)) := by
  rw [DataTree.tokens, Token.construct_append, Members.ofTokens]
  refine (ok_bind (Token.findClosing_zero rfl rfl rfl t.nested_composite rest)).trans ?_
  rw [Token.take_construct, Token.drop_construct]
  exact ok_bind t.ofTokens_tokens

/-- A group is read twice: to find where it ends, and from its own tokens. -/
theorem ofTokens_group (first last : Mark) (dimensions : DimensionsTree) {inner : List Token} {members : Members}
    (hn : Nested inner) (hinner : ∀ index, Members.ofTokens index inner = .ok members) (index : Nat)
    (rest : List Token) :
    Members.ofTokens index
        (first.token .beginGroup :: (dimensions.tokens ++ inner ++ last.token .endGroup :: rest)) =
      (Members.ofTokens (index + ((dimensions.tokens ++ inner).length + 1) + 1) rest >>= fun others =>
        .ok (others.addGroup ⟨first.name, first.id, ⟨first.size, first.version, dimensions.schema⟩,
          members.fields, members.groups, members.data⟩)) := by
  have hall : Nested (dimensions.tokens ++ inner) := dimensions.nested_tokens.append hn
  rw [Members.ofTokens]
  refine (ok_bind (Token.findClosing_zero rfl rfl rfl hall rest)).trans ?_
  rw [Token.take_construct, Token.drop_construct]
  exact ok_bind (GroupSchema.ofTokens_own first last dimensions hn (hinner 0))

end Members

namespace MemberTree

theorem nested_tokens (t : MemberTree) : Nested t.tokens := by
  induction t with
  | nil => exact .nil
  | field t rest ih =>
    have ht : Nested t.tokens := .enclose rfl t.type.nested_tokens
    exact ht.append ih
  | group first last dimensions inner rest ihInner ihRest =>
    have hgroup : Nested (first.token .beginGroup ::
        ((dimensions.tokens ++ inner.tokens) ++ [last.token .endGroup])) :=
      .enclose rfl (dimensions.nested_tokens.append ihInner)
    have hall := hgroup.append ihRest
    rw [Token.construct_append] at hall
    exact hall
  | data t rest ih =>
    have ht : Nested t.tokens := .enclose rfl t.nested_composite
    exact ht.append ih

theorem ofTokens_tokens (t : MemberTree) :
    ∀ index, Members.ofTokens index t.tokens = .ok ⟨t.fields, t.groups, t.dataSections⟩ := by
  induction t with
  | nil => intro index; rw [tokens, Members.ofTokens]; rfl
  | field t rest ih =>
    intro index
    exact (Members.ofTokens_field t index rest.tokens).trans (ok_bind (ih _))
  | group first last dimensions inner rest ihInner ihRest =>
    intro index
    exact (Members.ofTokens_group first last dimensions inner.nested_tokens ihInner index rest.tokens).trans
      (ok_bind (ihRest _))
  | data t rest ih =>
    intro index
    exact (Members.ofTokens_data t index rest.tokens).trans (ok_bind (ih _))

end MemberTree

theorem MessageSchema.ofTokens_tree (t : MessageTree) :
    MessageSchema.ofTokens t.tokens = .ok t.schema ∧ t.schema.template.blockLength.toNat = t.first.size := by
  constructor
  · unfold MessageSchema.ofTokens
    refine (ok_bind (Token.findClosing_zero rfl rfl rfl t.members.nested_tokens [])).trans ?_
    rw [MessageTree.tokens, Token.take_interior]
    show (if 65535 < t.first.size then _ else _) = _
    rw [if_neg (Nat.not_lt.mpr t.size_le)]
    exact ok_bind (t.members.ofTokens_tokens 0)
  · show (UInt16.ofNat t.first.size).toNat = t.first.size
    rw [UInt16.toNat_ofNat']
    exact Nat.mod_eq_of_lt (Nat.lt_succ_of_le t.size_le)

end SimpleBinary
