import SimpleBinary.Proofs.Schema.Derivation

/-!
# Missing closing tokens

Without one of its closing tokens a list of nested tokens opens one construct more than it closes. So the search
for the end of a construct of that kind comes to no end where it begins outside or at the gap, and a search for
the end of another kind of construct does not notice (`Removes.leavesOpen`). What is derived from the tokens of a
tree begins a search at each construct, from the outside in, so the token that is missing is the one reported.
-/

namespace SimpleBinary

namespace Token

/-! ## Lists without one of their tokens -/

/-- The second list is the first without `t`, at one place where it stands. -/
inductive Removes (t : Token) : List Token → List Token → Prop
  | here {rest : List Token} : Removes t (t :: rest) rest
  | there {u : Token} {rest cut : List Token} : Removes t rest cut → Removes t (u :: rest) (u :: cut)

namespace Removes
variable {t : Token} {tokens cut a b : List Token}

theorem of_split (before after : List Token) : Removes t (before ++ t :: after) (before ++ after) := by
  induction before with
  | nil => exact .here
  | cons u before ih => exact .there ih

theorem mem (h : Removes t tokens cut) : t ∈ tokens := by
  induction h with
  | here => exact List.mem_cons_self
  | there _ ih => exact List.mem_cons_of_mem _ ih

theorem of_append (h : Removes t (a ++ b) cut) :
    (∃ a', Removes t a a' ∧ cut = a' ++ b) ∨ ∃ b', Removes t b b' ∧ cut = a ++ b' := by
  induction a generalizing cut with
  | nil => exact .inr ⟨cut, h, rfl⟩
  | cons u a ih =>
    cases h with
    | here => exact .inl ⟨a, .here, rfl⟩
    | there h =>
      rcases ih h with ⟨a', ha, rfl⟩ | ⟨b', hb, rfl⟩
      · exact .inl ⟨u :: a', .there ha, rfl⟩
      · exact .inr ⟨b', hb, rfl⟩

theorem of_single {u : Token} (h : Removes t [u] cut) : t = u ∧ cut = [] := by
  cases h with
  | here => exact ⟨rfl, rfl⟩
  | there h => cases h

section
variable {opener o c : Signal} (ht : opener.closing? = some t.signal)
include ht

theorem of_construct {first last : Token} {inner : List Token} (hclose : first.signal.closing? = some last.signal)
    (h : Removes t (first :: (inner ++ [last])) cut) :
    t = last ∧ cut = first :: inner ∨ ∃ inner', Removes t inner inner' ∧ cut = first :: (inner' ++ [last]) := by
  cases h with
  | here =>
    rw [Signal.closing?_of_closing? ht] at hclose
    cases hclose
  | there h =>
    rcases h.of_append with ⟨inner', hinner, rfl⟩ | ⟨_, hlast, rfl⟩
    · exact .inr ⟨inner', hinner, rfl⟩
    · obtain ⟨rfl, rfl⟩ := of_single hlast
      exact .inl ⟨rfl, by simp⟩

theorem eq_cons {first last : Token} {inner : List Token} (hclose : first.signal.closing? = some last.signal)
    (h : Removes t (first :: (inner ++ [last])) cut) : cut = first :: cut.tail := by
  rcases of_construct ht hclose h with ⟨-, rfl⟩ | ⟨_, -, rfl⟩ <;> rfl

theorem not_isLeaf (h : Removes t tokens cut) : ¬ ∀ u ∈ tokens, u.signal.isLeaf = true :=
  fun hleaf => (Signal.ne_of_isLeaf (hleaf t h.mem) ht).2 rfl

theorem of_leaves {first last : Token} {inner : List Token} (hclose : first.signal.closing? = some last.signal)
    (hleaf : ∀ u ∈ inner, u.signal.isLeaf = true) (h : Removes t (first :: (inner ++ [last])) cut) :
    t = last ∧ cut = first :: inner := by
  rcases of_construct ht hclose h with h | ⟨_, hinner, -⟩
  · exact h
  · exact absurd hleaf (hinner.not_isLeaf ht)

theorem leavesOpen (hn : Nested tokens) (h : Removes t tokens cut) (hc : o.closing? = some c) :
    LeavesOpen o c (if t.signal = c then 1 else 0) cut := by
  induction hn generalizing cut with
  | nil => cases h
  | leaf hleaf => exact absurd (by simpa using hleaf) (h.not_isLeaf ht)
  | append ha hb iha ihb =>
    rcases h.of_append with ⟨a', hgap, rfl⟩ | ⟨b', hgap, rfl⟩
    · exact (iha hgap).append (hb.leavesOpen hc)
    · have hopen := (ha.leavesOpen hc).append (ihb hgap)
      rwa [Nat.zero_add] at hopen
  | @enclose first last inner hclose hn ih =>
    rcases of_construct ht hclose h with ⟨rfl, rfl⟩ | ⟨inner', hgap, rfl⟩
    · by_cases ho : first.signal = o
      · rw [if_pos (Signal.eq_of_closing? hc hclose ho)]
        exact (hn.leavesOpen hc).opens ho
      · obtain ⟨hfc, -, hlc⟩ := Signal.apart_of_ne hc hclose ho
        rw [if_neg hlc]
        exact (LeavesOpen.single ho hfc).append (hn.leavesOpen hc)
    · exact (ih hgap).enclose hclose hc

/-- The end of a construct is looked for that has lost a closing token. Either there is none, and it is the
token that was lost; or the loss is in the interior, and what comes next (`next`) is to report it. -/
theorem findClosing_bind {β : Type} {first last : Token} {inner rest : List Token} {next : Nat → Except SchemaError β}
    (ho : first.signal = o) (hc : last.signal = c) (h : o.closing? = some c) (hn : Nested inner) (hrest : Nested rest)
    (hr : Removes t (first :: (inner ++ [last])) cut)
    (hnext : ∀ inner', Removes t inner inner' → cut = first :: (inner' ++ [last]) →
      next (inner'.length + 1) = .error (.unexpectedEnd t.signal)) :
    (findClosing (cut ++ rest) 0 o c >>= next) = .error (.unexpectedEnd t.signal) := by
  have hnone {depth : Nat} (hd : 1 ≤ depth) : closing? o c depth rest = none := hrest.closing?_eq_none h hd
  rcases of_construct ht (by rw [ho, hc, h]) hr with ⟨rfl, rfl⟩ | ⟨inner', hinner, rfl⟩
  · have hlost : closing? o c 1 (inner ++ rest) = none := by
      rw [closing?_append hn h 1 rest (Nat.le_refl 1), hnone (Nat.le_refl 1)]
      rfl
    rw [hc]
    exact error_bind (findClosing_of_none [] ho hlost)
  · have hopen := leavesOpen ht hn hinner h
    rw [construct_append]
    by_cases hs : t.signal = c
    · -- the last token closes what the lost one should have closed, and nothing closes the construct
      rw [if_pos hs] at hopen
      have hlost : closing? o c 1 (inner' ++ last :: rest) = none := by
        rw [hopen 1 _ (Nat.le_refl 1), closing?_closes (Signal.ne_of_closing? h hc) hc (Nat.le_refl 1),
          hnone (Nat.le_refl 1)]
        rfl
      rw [hs]
      exact error_bind (findClosing_of_none [] ho hlost)
    · rw [if_neg hs] at hopen
      have hfound : closing? o c 1 (inner' ++ last :: rest) = some (0 + inner'.length) := by
        rw [hopen 1 _ (Nat.le_refl 1), closing?_here h hc]
        rfl
      have hfind := findClosing_of_some [] ho hfound
      rw [List.length_nil, Nat.zero_add, Nat.zero_add, Nat.add_comm] at hfind
      exact (ok_bind hfind).trans (hnext inner' hinner rfl)

theorem findClosing_read {α β : Type} {first last : Token} {inner rest : List Token}
    {read : List Token → Except SchemaError α} {next : Nat → α → Except SchemaError β}
    (ho : first.signal = o) (hc : last.signal = c) (h : o.closing? = some c) (hn : Nested inner) (hrest : Nested rest)
    (hr : Removes t (first :: (inner ++ [last])) cut) (hread : read cut = .error (.unexpectedEnd t.signal)) :
    (findClosing (cut ++ rest) 0 o c >>= fun stop => read ((cut ++ rest).take (stop + 1)) >>= next stop) =
      .error (.unexpectedEnd t.signal) := by
  refine findClosing_bind ht ho hc h hn hrest hr fun inner' _ hcut => error_bind ?_
  rw [hcut, construct_append, take_construct, ← hcut, hread]

theorem findClosing_bind_own {β : Type} {first last : Token} {inner : List Token} {next : Nat → Except SchemaError β}
    (ho : first.signal = o) (hc : last.signal = c) (h : o.closing? = some c) (hn : Nested inner)
    (hr : Removes t (first :: (inner ++ [last])) cut)
    (hnext : ∀ inner', Removes t inner inner' → cut = first :: (inner' ++ [last]) →
      next (inner'.length + 1) = .error (.unexpectedEnd t.signal)) :
    (findClosing cut 0 o c >>= next) = .error (.unexpectedEnd t.signal) := by
  have hbind := findClosing_bind ht ho hc h hn .nil hr hnext
  rwa [List.append_nil] at hbind

end

end Removes

end Token

open Token (Nested Removes)

/-! ## Fields -/

section
variable {opener : Signal} {closer : Token} {cut : List Token} (ht : opener.closing? = some closer.signal)
include ht

theorem TypeTree.ofTokens_gap (t : TypeTree) (begin : Token) (last : Mark) (h : Removes closer t.tokens cut) :
    ∃ rest, cut = t.mark.token t.signal :: rest ∧
      FieldKind.ofTokens (t.mark.token t.signal) (begin :: (cut ++ [last.token .endField])) =
        .error (.unexpectedEnd closer.signal) := by
  cases t with
  | value t =>
    have hleaf : ∀ u ∈ [t.token], u.signal.isLeaf = true := by simp [ValueTree.token, Mark.token, Signal.isLeaf]
    exact absurd hleaf (h.not_isLeaf ht)
  | enumeration first enumLast type hasType values =>
    obtain ⟨rfl, rfl⟩ := h.of_leaves ht rfl (Mark.isLeaf_tokens values (·.mark) rfl)
    exact ⟨_, rfl, error_bind (Token.findClosing_unclosed [begin] rfl rfl (Mark.nested_tokens values (·.mark) rfl)
      nofun nofun)⟩
  | set first setLast type hasType choices =>
    obtain ⟨rfl, rfl⟩ := h.of_leaves ht rfl (Mark.isLeaf_tokens choices (·.mark) rfl)
    exact ⟨_, rfl, error_bind (Token.findClosing_unclosed [begin] rfl rfl (Mark.nested_tokens choices (·.mark) rfl)
      nofun nofun)⟩
  | composite first compositeLast members =>
    obtain ⟨rfl, rfl⟩ := h.of_leaves ht rfl (Mark.isLeaf_tokens members (·.mark) rfl)
    exact ⟨_, rfl, error_bind (Token.findClosing_unclosed [begin] rfl rfl (Mark.nested_tokens members (·.mark) rfl)
      nofun nofun)⟩

theorem FieldTree.ofTokens_gap (t : FieldTree) (h : Removes closer t.tokens cut) :
    FieldSchema.ofTokens cut = .error (.unexpectedEnd closer.signal) := by
  unfold FieldSchema.ofTokens
  refine h.findClosing_bind_own ht rfl rfl rfl t.type.nested_tokens fun inner' hinner hcut => ?_
  obtain ⟨rest, rfl, hkind⟩ := t.type.ofTokens_gap ht (t.first.token .beginField) t.last hinner
  rw [hcut, Token.take_construct]
  exact error_bind hkind

/-! ## Groups and data sections -/

theorem DimensionsTree.ofTokens_gap (t : DimensionsTree) (first last : Mark) {inner : List Token} (hn : Nested inner)
    (h : Removes closer t.tokens cut) :
    GroupFormat.ofTokens (first.token .beginGroup :: (cut ++ inner ++ [last.token .endGroup])) =
      .error (.unexpectedEnd closer.signal) := by
  obtain ⟨rfl, rfl⟩ := h.of_leaves ht rfl (Mark.isLeaf_tokens t.members id rfl)
  unfold GroupFormat.ofTokens
  refine (ok_bind (Mark.expect_token 0)).trans (error_bind ?_)
  exact Token.findClosing_unclosed [first.token .beginGroup] rfl rfl (t.nested_interior.append hn) nofun nofun

theorem DataTree.ofTokens_gap (t : DataTree) (h : Removes closer t.composite cut) :
    DataSchema.ofTokens (t.first.token .beginVarData :: (cut ++ [t.last.token .endVarData])) =
      .error (.unexpectedEnd closer.signal) := by
  obtain ⟨rfl, rfl⟩ := h.of_leaves ht rfl (Mark.isLeaf_tokens (t.length :: t.others) id rfl)
  have hn : Nested ((t.length :: t.others).map (·.token .encoding)) :=
    Mark.nested_tokens (t.length :: t.others) id rfl
  unfold DataSchema.ofTokens Token.compositeParts
  refine (ok_bind (Mark.expect_token 0)).trans (error_bind (error_bind ?_))
  exact Token.findClosing_unclosed [] rfl rfl hn nofun nofun

theorem GroupSchema.ofTokens_gap (first last : Mark) (dimensions : DimensionsTree) {inner : List Token}
    (hn : Nested inner)
    (hinner : ∀ inner', Removes closer inner inner' →
      Members.ofTokens 0 inner' = .error (.unexpectedEnd closer.signal))
    (h : Removes closer (first.token .beginGroup :: (dimensions.tokens ++ inner ++ [last.token .endGroup])) cut) :
    GroupSchema.ofTokens cut = .error (.unexpectedEnd closer.signal) := by
  have hhead := h.eq_cons ht rfl
  have hall : Nested (dimensions.tokens ++ inner) := dimensions.nested_tokens.append hn
  rw [hhead, GroupSchema.ofTokens, ← hhead]
  refine h.findClosing_bind_own ht rfl rfl rfl hall fun interior hgap hcut => ?_
  rw [hcut, Token.take_construct, Token.take_interior]
  rcases hgap.of_append with ⟨cut', hlost, rfl⟩ | ⟨inner', hlost, rfl⟩
  · exact error_bind (dimensions.ofTokens_gap ht first last hn hlost)
  · rw [List.append_assoc]
    refine (ok_bind (GroupFormat.ofTokens_own first dimensions _)).trans ?_
    refine (ok_bind (dimensions.findClosing_own _ _)).trans ?_
    rw [List.drop_succ_cons, List.drop_left]
    exact error_bind (hinner inner' hlost)

/-! ## Members -/

theorem MemberTree.ofTokens_gap (t : MemberTree) (h : Removes closer t.tokens cut) (index : Nat) :
    Members.ofTokens index cut = .error (.unexpectedEnd closer.signal) := by
  induction t generalizing cut index with
  | nil => cases h
  | field t rest ih =>
    rcases h.of_append with ⟨own, hgap, rfl⟩ | ⟨rest', hgap, rfl⟩
    · have hhead := hgap.eq_cons ht rfl
      rw [hhead, List.cons_append, Members.ofTokens, ← List.cons_append, ← hhead]
      exact hgap.findClosing_read ht rfl rfl rfl t.type.nested_tokens rest.nested_tokens (t.ofTokens_gap ht hgap)
    · exact (Members.ofTokens_field t index rest').trans (error_bind (ih hgap _))
  | group first last dimensions inner rest ihInner ihRest =>
    have hall : Nested (dimensions.tokens ++ inner.tokens) := dimensions.nested_tokens.append inner.nested_tokens
    rw [tokens, ← Token.construct_append] at h
    rcases h.of_append with ⟨own, hgap, rfl⟩ | ⟨rest', hgap, rfl⟩
    · have hhead := hgap.eq_cons ht rfl
      rw [hhead, List.cons_append, Members.ofTokens, ← List.cons_append, ← hhead]
      refine hgap.findClosing_read ht rfl rfl rfl hall rest.nested_tokens ?_
      exact GroupSchema.ofTokens_gap ht first last dimensions inner.nested_tokens (fun _ h => ihInner h 0) hgap
    · rw [Token.construct_append]
      exact (Members.ofTokens_group first last dimensions inner.nested_tokens inner.ofTokens_tokens index rest').trans
        (error_bind (ihRest hgap _))
  | data t rest ih =>
    rcases h.of_append with ⟨own, hgap, rfl⟩ | ⟨rest', hgap, rfl⟩
    · have hhead := hgap.eq_cons ht rfl
      rw [hhead, List.cons_append, Members.ofTokens, ← List.cons_append, ← hhead]
      refine hgap.findClosing_bind ht rfl rfl rfl t.nested_composite rest.nested_tokens fun inner' hlost hown => ?_
      rw [hown, Token.construct_append, Token.take_construct]
      exact error_bind (t.ofTokens_gap ht hlost)
    · exact (Members.ofTokens_data t index rest').trans (error_bind (ih hgap _))

end

/-- A token that closes something is missing, of a message, of a group or of a field: at whatever depth it stood,
what is reported is that it is. -/
theorem missing_closer_is_reported {opener : Signal} {before after : List Token} {closer : Token}
    (h : opener.closing? = some closer.signal) :
    (∀ t : MessageTree, t.tokens = before ++ closer :: after →
      MessageSchema.ofTokens (before ++ after) = .error (.unexpectedEnd closer.signal)) ∧
    (∀ (first last : Mark) (dimensions : DimensionsTree) (inner : MemberTree),
      first.token .beginGroup :: (dimensions.tokens ++ inner.tokens ++ [last.token .endGroup]) =
        before ++ closer :: after →
      GroupSchema.ofTokens (before ++ after) = .error (.unexpectedEnd closer.signal)) ∧
    ∀ t : FieldTree, t.tokens = before ++ closer :: after →
      FieldSchema.ofTokens (before ++ after) = .error (.unexpectedEnd closer.signal) := by
  have hgap : Removes closer (before ++ closer :: after) (before ++ after) := .of_split before after
  refine ⟨fun t htokens => ?_, fun first last dimensions inner htokens => ?_, fun t htokens => ?_⟩
  · rw [← htokens] at hgap
    unfold MessageSchema.ofTokens
    refine hgap.findClosing_bind_own h rfl rfl rfl t.members.nested_tokens fun members' hlost hcut => ?_
    rw [hcut, Token.take_interior]
    show (if 65535 < t.first.size then _ else _) = _
    rw [if_neg (Nat.not_lt.mpr t.size_le)]
    exact error_bind (t.members.ofTokens_gap h hlost 0)
  · rw [← htokens] at hgap
    exact GroupSchema.ofTokens_gap h first last dimensions inner.nested_tokens
      (fun _ hlost => inner.ofTokens_gap h hlost 0) hgap
  · rw [← htokens] at hgap
    exact t.ofTokens_gap h hgap

def Mark.typed (name : String) (type : PrimitiveType) (offset : Nat) : Mark where
  name := name
  offset := offset
  encoding := { type := some type }

def gear : FieldTree where
  first := { name := "gear" }
  last := { name := "gear" }
  type := .enumeration (.typed "Gear" Token.uint16 0) { name := "Gear" } Token.uint16 rfl []

def sizes : DimensionsTree where
  first := { name := "sizes", size := 4 }
  last := { name := "sizes" }
  members := [.typed "blockLength" Token.uint16 0, .typed "numInGroup" Token.uint16 2]
  blockLength := ⟨_, rfl, _, rfl, .w16, rfl⟩
  numInGroup := ⟨_, rfl, _, rfl, .w16, rfl⟩

def stops : MemberTree :=
  .group { name := "stops" } { name := "stops" } sizes (.group { name := "fares" } { name := "fares" } sizes .nil .nil)
    .nil

def journey : MessageTree where
  first := { name := "Journey" }
  last := { name := "Journey" }
  members := .field gear stops
  size_le := by decide

theorem missing_closer_is_reported_journey :
    MessageSchema.ofTokens (journey.tokens.eraseIdx 15) = .error (.unexpectedEnd .endGroup) ∧
      GroupSchema.ofTokens (stops.tokens.eraseIdx 4) = .error (.unexpectedEnd .endComposite) ∧
      FieldSchema.ofTokens (gear.tokens.eraseIdx 2) = .error (.unexpectedEnd .endEnum) := by
  let fares : Mark := { name := "fares" }
  let lastSize : Mark := { name := "sizes" }
  let lastGear : Mark := { name := "Gear" }
  refine ⟨?_, ?_, ?_⟩
  · exact (@missing_closer_is_reported .beginGroup (journey.tokens.take 15) (journey.tokens.drop 16)
      (fares.token .endGroup) rfl).1 journey rfl
  · exact (@missing_closer_is_reported .beginComposite (stops.tokens.take 4) (stops.tokens.drop 5)
      (lastSize.token .endComposite) rfl).2.1 _ _ _ _ rfl
  · exact (@missing_closer_is_reported .beginEnum (gear.tokens.take 2) (gear.tokens.drop 3)
      (lastGear.token .endEnum) rfl).2.2 gear rfl

/-! ## Data sections on their own -/

/-- The construct is the whole list: what closes it is the last token. -/
def Token.Whole (o c : Signal) (tokens : List Token) : Prop :=
  ∃ stop, Token.findClosing tokens 0 o c = .ok stop ∧ tokens.length = stop + 1

namespace Token
variable {tokens : List Token}

theorem exists_whole {o c : Signal} {stop : Nat} (h : findClosing tokens 0 o c = .ok stop) :
    ∃ own after, tokens = own ++ after ∧ Whole o c own := by
  have hlt := (lt_of_findClosing h).2
  refine ⟨_, _, (List.take_append_drop (stop + 1) tokens).symm, stop, ?_, by simp; omega⟩
  have hown := findClosing_take h []
  rwa [List.append_nil] at hown

theorem Whole.compositeParts_append (h : Whole .beginComposite .endComposite tokens) (after : List Token) :
    compositeParts (tokens ++ after) = compositeParts tokens := by
  obtain ⟨stop, hstop, hlength⟩ := h
  have happend : findClosing (tokens ++ after) 0 .beginComposite .endComposite = .ok stop := by
    have htake := findClosing_take hstop after
    rwa [← hlength, List.take_length] at htake
  unfold compositeParts
  refine (ok_bind happend).trans (Eq.trans ?_ (ok_bind hstop).symm)
  rw [List.take_append_of_le_length (by omega)]

end Token

/-- A field or a group is not read without the token that closes it, and neither is a data section among the
members of a message or a group. On its own a data section is: behind its composite nothing is looked at. -/
theorem data_end_is_not_read {first : Token} {rest : List Token} :
    (first.signal = .beginField → Token.closing? .beginField .endField 1 rest = none →
      FieldSchema.ofTokens (first :: rest) = .error (.unexpectedEnd .endField)) ∧
    (first.signal = .beginGroup → Token.closing? .beginGroup .endGroup 1 rest = none →
      GroupSchema.ofTokens (first :: rest) = .error (.unexpectedEnd .endGroup)) ∧
    (first.signal = .beginVarData → Token.closing? .beginVarData .endVarData 1 rest = none → ∀ index,
      Members.ofTokens index (first :: rest) = .error (.unexpectedEnd .endVarData)) ∧
    (∀ d, DataSchema.ofTokens (first :: rest) = .ok d → first.signal = .beginVarData ∧
      ∃ composite after, rest = composite ++ after ∧ Token.Whole .beginComposite .endComposite composite) ∧
    ∀ composite after, Token.Whole .beginComposite .endComposite composite →
      DataSchema.ofTokens (first :: (composite ++ after)) = DataSchema.ofTokens (first :: composite) := by
  refine ⟨fun ho hc => ?_, fun ho hc => ?_, fun ho hc index => ?_, fun d h => ?_, fun composite after h => ?_⟩
  · unfold FieldSchema.ofTokens
    exact error_bind (Token.findClosing_of_none [] ho hc)
  · rw [GroupSchema.ofTokens]
    exact error_bind (Token.findClosing_of_none [] ho hc)
  · rw [Members.ofTokens, ho]
    exact error_bind (Token.findClosing_of_none [] ho hc)
  · unfold DataSchema.ofTokens at h
    obtain ⟨_, hexpect, hread⟩ := of_bind_eq_ok h
    obtain ⟨parts, hparts, -⟩ := of_bind_eq_ok hread
    unfold Token.compositeParts at hparts
    obtain ⟨stop, hstop, -⟩ := of_bind_eq_ok hparts
    exact ⟨Token.signal_of_expect hexpect, Token.exists_whole hstop⟩
  · unfold DataSchema.ofTokens
    show (_ >>= fun _ => Token.compositeParts (composite ++ after) >>= _) = _
    rw [h.compositeParts_append after]

def note : Token where
  signal := .beginVarData
  name := "note"

theorem data_end_is_not_read_note :
    FieldSchema.ofTokens [gear.first.token .beginField, Token.primitive "gear" Token.uint16 0] =
        .error (.unexpectedEnd .endField) ∧
      Members.ofTokens 0 (note :: Token.dataEncoding) = .error (.unexpectedEnd .endVarData) ∧
      DataSchema.ofTokens (note :: (Token.dataEncoding ++ [gear.last.token .endVarData])) =
        DataSchema.ofTokens (note :: Token.dataEncoding) := by
  refine ⟨?_, ?_, ?_⟩
  · exact data_end_is_not_read.1 rfl rfl
  · exact data_end_is_not_read.2.2.1 rfl rfl 0
  · exact (@data_end_is_not_read note []).2.2.2.2 Token.dataEncoding _ ⟨3, rfl, rfl⟩

/-- The composite is all there is, and the section is read all the same. -/
theorem unclosed_data_is_read : ¬ ∀ (tokens : List Token) (d : DataSchema), DataSchema.ofTokens tokens = .ok d →
    ∃ t ∈ tokens, t.signal = .endVarData := by
  intro h
  have hread : DataSchema.ofTokens (note :: Token.dataEncoding) =
      .ok ⟨"note", 0, { length := .w32 }, some "UTF-8"⟩ := rfl
  exact absurd (h _ _ hread) (by decide)

end SimpleBinary
