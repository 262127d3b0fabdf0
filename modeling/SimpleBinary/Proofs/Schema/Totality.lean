import SimpleBinary.Proofs.Machine.Derivation
import SimpleBinary.Proofs.Schema.Derivation

/-!
# Derivations end

The programs do what derivation says, for every list of tokens, so each ends, and none in a fault. Kinds of
constructs are closed independently of each other, and in a list that is not nested the constructs found may cross.
What holds all the same is that a search ends behind its start, at a token that closes what was searched for, and in
the list that it was made in.
-/

namespace SimpleBinary

/-! ## Where a search ends -/

namespace Token
variable {o c o' c' : Signal} {tokens : List Token} {first : Token} {start start' stop stop' : Nat}

theorem signal_of_closing? {depth n : Nat} (h : closing? o c depth tokens = some n) :
    ∃ t, tokens[n]? = some t ∧ t.signal = c := by
  induction tokens generalizing depth n with
  | nil => cases h
  | cons t tokens ih =>
    have further {next : Nat} (h : (closing? o c next tokens).map (· + 1) = some n) :
        ∃ u, (t :: tokens)[n]? = some u ∧ u.signal = c := by
      obtain ⟨k, hk, rfl⟩ := Option.map_eq_some_iff.mp h
      exact ih hk
    unfold closing? at h
    split at h
    · exact further h
    · split at h
      · next hc =>
        split at h
        · cases h
          exact ⟨t, rfl, hc⟩
        · exact further h
      · exact further h

theorem signal_of_findClosing (h : findClosing tokens start o c = .ok stop) :
    ∃ t, tokens[stop]? = some t ∧ t.signal = c := by
  have hsearch := search_findClosing o c tokens start
  rw [h] at hsearch
  cases hsearch with
  | @closed first before behind n ho hclosing =>
    obtain ⟨t, ht, hs⟩ := signal_of_closing? hclosing
    refine ⟨t, ?_, hs⟩
    rw [List.getElem?_append_right (by omega), Nat.add_assoc, Nat.add_sub_cancel_left, Nat.add_comm 1]
    exact ht

theorem lt_of_findClosing_take (hne : c' ≠ c) (h : findClosing tokens start o c = .ok stop)
    (h' : findClosing (tokens.take (stop + 1)) start' o' c' = .ok stop') : stop' < stop := by
  obtain ⟨t, ht, hs⟩ := signal_of_findClosing h
  obtain ⟨t', ht', hs'⟩ := signal_of_findClosing h'
  have hlt := (lt_of_findClosing h').2
  rw [List.length_take] at hlt
  have hstop : stop' ≠ stop := by
    intro e
    rw [List.getElem?_take, if_pos (by omega), e, ht] at ht'
    cases ht'
    exact hne (hs'.symm.trans hs)
  omega

theorem compositeParts_behind (t : Token) {rest : List Token}
    (h : findClosing (t :: first :: rest) 1 .beginComposite .endComposite = .ok stop) :
    compositeParts (((t :: first :: rest).take (stop + 1)).drop 1) =
      .ok (first, ((t :: first :: rest).take stop).drop 2) := by
  obtain ⟨_, hfirst, h⟩ := of_bind_eq_ok ((findClosing_append [t]).symm.trans h)
  cases hclosing : closing? .beginComposite .endComposite 1 rest with
  | none =>
    rw [hclosing] at h
    cases h
  | some n =>
    rw [hclosing] at h
    cases h
    have hend := (closing?_take hclosing).2 []
    rw [List.append_nil] at hend
    have hstop : [t].length + 1 + n = n + 1 + 1 := by rw [List.length_singleton]; omega
    rw [hstop, List.take_succ_cons, List.take_succ_cons, List.take_succ_cons, List.take_succ_cons]
    unfold compositeParts
    refine (ok_bind (findClosing_of_some [] (signal_of_expect hfirst) hend)).trans ?_
    rw [List.length_nil, Nat.zero_add, Nat.add_comm 1, List.drop_succ_cons, List.drop_zero, List.take_succ_cons,
      List.take_take, Nat.min_eq_left (Nat.le_succ n)]
    rfl

end Token

/-! ## Outcomes -/

namespace Derivation

section
variable {α β : Type} {p : Derivation α} {x : Except SchemaError α} {q : α → Derivation β}
  {f : α → Except SchemaError β}

theorem bind_ok {a : α} (h : p = of (.ok a)) : (p >>= q) = q a := by
  rw [h]
  rfl

theorem bind_map_eq {γ : Type} {g : α → γ} {p : Derivation γ} {q : γ → Derivation β}
    (h : p = of (x >>= fun a => .ok (g a))) (hq : ∀ a, x = .ok a → q (g a) = of (f a)) :
    (p >>= q) = of (x >>= f) := by
  rw [h]
  cases x with
  | ok a => exact hq a rfl
  | error e => rfl

theorem bind_eq (h : p = of x) (hq : ∀ a, x = .ok a → q a = of (f a)) : (p >>= q) = of (x >>= f) :=
  bind_map_eq (h.trans (congrArg of (bind_pure x).symm)) hq

end

variable {words : Nat} {tokens : List Token}

/-! ## Words and slices -/

theorem add_eq {a b : Nat} (h : a + b < words) : add words a b = of (.ok (a + b)) := if_pos h

theorem sub_eq {a b : Nat} (h : b ≤ a) : sub a b = of (.ok (a - b)) := if_pos h

theorem div_eq {a b : Nat} (h : b ≠ 0) : div a b = of (.ok (a / b)) := if_neg h

theorem element_eq {index : Nat} {t : Token} (h : tokens[index]? = some t) : element tokens index = of (.ok t) := by
  unfold element
  rw [h]
  rfl

theorem slice_eq {start stop : Nat} (h : start ≤ stop) (h' : stop ≤ tokens.length) :
    slice tokens start stop = of (.ok ((tokens.take stop).drop start)) := if_pos ⟨h, h'⟩

theorem through_eq {start last : Nat} (hw : tokens.length < words) (h : start ≤ last) (h' : last < tokens.length) :
    through words tokens start last = of (.ok ((tokens.take (last + 1)).drop start)) :=
  (bind_ok (add_eq (by omega))).trans (slice_eq (by omega) h')

theorem length_slice (tokens : List Token) (start stop : Nat) :
    ((tokens.take stop).drop start).length = min stop tokens.length - start := by
  rw [List.length_drop, List.length_take]

/-! ## Constructs -/

theorem elim_map_succ (r : Option Nat) (e : SchemaError) (index : Nat) :
    (r.map (· + 1)).elim (.error e) (fun n => Except.ok (index + n)) =
      r.elim (.error e) fun n => .ok (index + 1 + n) := by
  cases r with
  | none => rfl
  | some n =>
    show Except.ok (index + (n + 1)) = .ok (index + 1 + n)
    rw [Nat.add_right_comm, Nat.add_assoc]

theorem search_eq (o c : Signal) {depth index : Nat} (hd : 1 ≤ depth) (hdepth : depth + tokens.length < words)
    (hindex : index + tokens.length < words) :
    search words o c depth index tokens =
      of ((Token.closing? o c depth tokens).elim (.error (.unexpectedEnd c)) fun n => .ok (index + n)) := by
  induction tokens generalizing depth index with
  | nil => rfl
  | cons t rest ih =>
    rw [List.length_cons] at hdepth hindex
    have hnext : add words index 1 = of (.ok (index + 1)) := add_eq (by omega)
    unfold search Token.closing?
    by_cases ho : t.signal = o
    · rw [if_pos ho, if_pos ho, elim_map_succ]
      refine (bind_ok (add_eq (by omega))).trans ((bind_ok hnext).trans ?_)
      exact ih (by omega) (by omega) (by omega)
    · rw [if_neg ho, if_neg ho]
      by_cases hc : t.signal = c
      · rw [if_pos hc, if_pos hc]
        refine (bind_ok (sub_eq hd)).trans ?_
        by_cases hone : depth ≤ 1
        · rw [if_pos hone, if_pos (by omega)]
          rfl
        · rw [if_neg hone, if_neg (by omega), elim_map_succ]
          exact (bind_ok hnext).trans (ih (by omega) (by omega) (by omega))
      · rw [if_neg hc, if_neg hc, elim_map_succ]
        exact (bind_ok hnext).trans (ih hd (by omega) (by omega))

theorem findClosing_eq (hw : tokens.length < words) (start : Nat) (o c : Signal) :
    findClosing words tokens start o c = of (Token.findClosing tokens start o c) := by
  unfold findClosing
  cases h : tokens[start]? with
  | none =>
    unfold Token.findClosing
    rw [List.drop_of_length_le (List.getElem?_eq_none_iff.mp h)]
    rfl
  | some first =>
    have hlt : start < tokens.length := (List.getElem?_eq_some_iff.mp h).1
    have hrest : (tokens.drop (start + 1)).length = tokens.length - (start + 1) := List.length_drop
    unfold Token.findClosing
    rw [Token.drop_of_getElem? h]
    refine bind_eq rfl fun _ hexpect => ?_
    -- the first token is counted too, and is the only one that is found with nothing open
    unfold search
    rw [if_pos (Token.signal_of_expect hexpect)]
    refine (bind_ok (add_eq (by omega))).trans ((bind_ok (add_eq (by omega))).trans ?_)
    refine (search_eq o c (by omega) (by omega) (by omega)).trans ?_
    cases Token.closing? o c 1 (tokens.drop (start + 1)) <;> rfl

theorem through_own_eq (hw : tokens.length < words) {start stop : Nat} {o c : Signal}
    (h : Token.findClosing tokens start o c = .ok stop) :
    through words tokens start stop = of (.ok ((tokens.take (stop + 1)).drop start)) := by
  obtain ⟨hlt, hlength⟩ := Token.lt_of_findClosing h
  exact through_eq hw (Nat.le_of_lt hlt) hlength

theorem slice_interior_eq {start stop : Nat} {o c : Signal} (h : Token.findClosing tokens start o c = .ok stop) :
    slice tokens (start + 1) stop = of (.ok ((tokens.take stop).drop (start + 1))) := by
  obtain ⟨hlt, hlength⟩ := Token.lt_of_findClosing h
  exact slice_eq hlt (Nat.le_of_lt hlength)

theorem compositeParts_eq (hw : tokens.length < words) :
    compositeParts words tokens = of (Token.compositeParts tokens) := by
  refine bind_eq (findClosing_eq hw ..) fun stop hstop => ?_
  obtain ⟨hpos, hlt⟩ := Token.lt_of_findClosing hstop
  cases tokens with
  | nil => cases hlt
  | cons outer rest =>
    obtain ⟨n, rfl⟩ : ∃ n, stop = n + 1 := ⟨stop - 1, by omega⟩
    exact (bind_ok (element_eq rfl)).trans (bind_ok (slice_interior_eq hstop))

theorem header_eq (hw : tokens.length < words) : header words tokens = of (HeaderFormat.ofTokens tokens) :=
  bind_eq (compositeParts_eq hw) fun _ _ =>
    bind_eq rfl fun _ _ => bind_eq rfl fun _ _ => bind_eq rfl fun _ _ => bind_eq rfl fun _ _ => rfl

theorem dimensions_eq (hw : tokens.length < words) : dimensions words tokens = of (Dimensions.ofTokens tokens) :=
  bind_eq (compositeParts_eq hw) fun _ _ => bind_eq rfl fun _ _ => bind_eq rfl fun _ _ => rfl

theorem groupFormat_eq (hw : tokens.length < words) : groupFormat words tokens = of (GroupFormat.ofTokens tokens) := by
  unfold groupFormat GroupFormat.ofTokens
  cases tokens with
  | nil => rfl
  | cons first rest =>
    refine bind_eq rfl fun _ _ => bind_eq (findClosing_eq hw ..) fun stop hstop => ?_
    refine (bind_ok (through_own_eq hw hstop)).trans ?_
    exact bind_eq (dimensions_eq (by rw [length_slice]; omega)) fun _ _ => rfl

/-! ## Fields -/

theorem bytes_ne_zero (type : PrimitiveType) : type.bytes ≠ 0 := by
  show type.carrier.width.bytes ≠ 0
  cases type.carrier.width <;> decide

theorem arrayLength_eq (t : Token) : arrayLength t = of (.ok t.arrayLength) := by
  unfold arrayLength Token.arrayLength
  cases t.encoding.type with
  | none => rfl
  | some type =>
    show (if t.size = 0 then _ else _) = of (.ok (if t.size = 0 then _ else _))
    by_cases hs : t.size = 0
    · rw [if_pos hs, if_pos hs]
      rfl
    · rw [if_neg hs, if_neg hs]
      exact div_eq (bytes_ne_zero type)

theorem valueKind_eq (t : Token) : valueKind t = of (ValueKind.ofToken t) := by
  refine bind_eq rfl fun type _ => ?_
  split
  · cases t.encoding.value <;> rfl
  · exact bind_ok (arrayLength_eq t)

theorem member_eq (t : Token) {index : Nat} (h : index + 2 < words) :
    member words t index = of (t.toMember (index + 2)) :=
  (bind_ok (add_eq h)).trans (bind_eq rfl fun _ _ => bind_eq (valueKind_eq t) fun _ _ => rfl)

theorem mapM_member_eq (inner : List Token) {index : Nat} (h : index + inner.length + 2 ≤ words) :
    ((inner.zipIdx index).mapM fun m => member words m.1 m.2) =
      of ((inner.zipIdx (index + 2)).mapM fun m => m.1.toMember m.2) := by
  induction inner generalizing index with
  | nil => rfl
  | cons t rest ih =>
    rw [List.length_cons] at h
    rw [List.zipIdx_cons, List.zipIdx_cons, List.mapM_cons, List.mapM_cons]
    refine bind_eq (member_eq t (by omega)) fun _ _ => ?_
    rw [Nat.add_right_comm]
    exact bind_eq (ih (by omega)) fun _ _ => rfl

theorem fieldKind_eq (hw : tokens.length < words) {type : Token} (h : tokens[1]? = some type) :
    fieldKind words type tokens = of (FieldKind.ofTokens type tokens) := by
  unfold fieldKind FieldKind.ofTokens
  cases type.signal with
  | encoding => exact bind_eq (valueKind_eq type) fun _ _ => rfl
  | beginEnum =>
    refine bind_eq (findClosing_eq hw ..) fun stop hstop => bind_eq rfl fun _ _ => ?_
    exact (bind_ok (slice_interior_eq hstop)).trans (bind_eq rfl fun _ _ => rfl)
  | beginSet =>
    refine bind_eq (findClosing_eq hw ..) fun stop hstop => bind_eq rfl fun _ _ => ?_
    exact (bind_ok (slice_interior_eq hstop)).trans (bind_eq rfl fun _ _ => rfl)
  | beginComposite =>
    refine bind_eq (findClosing_eq hw ..) fun stop hstop => ?_
    obtain ⟨hlt, hlength⟩ := Token.lt_of_findClosing hstop
    have hcomposite : compositeParts words ((tokens.take (stop + 1)).drop 1) =
        of (.ok (type, (tokens.take stop).drop 2)) := by
      rw [compositeParts_eq (by rw [length_slice]; omega)]
      cases tokens with
      | nil => cases h
      | cons first rest =>
        cases rest with
        | nil => cases h
        | cons second rest =>
          cases h
          rw [Token.compositeParts_behind first hstop]
    refine (bind_ok (through_own_eq hw hstop)).trans ((bind_ok hcomposite).trans ?_)
    exact bind_eq (mapM_member_eq _ (by rw [length_slice]; omega)) fun _ _ => rfl
  | _ => rfl

theorem field_eq (hw : tokens.length < words) : field words tokens = of (FieldSchema.ofTokens tokens) := by
  refine bind_eq (findClosing_eq hw ..) fun stop hstop => ?_
  obtain ⟨hlt, hlength⟩ := Token.lt_of_findClosing hstop
  refine (bind_ok (through_own_eq hw hstop)).trans ?_
  have hown : (tokens.take (stop + 1)).length < words := by rw [List.length_take]; omega
  cases tokens with
  | nil => cases hlength
  | cons first rest =>
    refine (bind_ok (element_eq rfl)).trans ?_
    cases rest with
    | nil =>
      rw [List.length_singleton] at hlength
      omega
    | cons type rest =>
      obtain ⟨n, rfl⟩ : ∃ n, stop = n + 1 := ⟨stop - 1, by omega⟩
      exact bind_eq (fieldKind_eq hown rfl) fun _ _ => rfl

/-! ## Data sections, groups and messages -/

theorem data_eq (hw : tokens.length < words) : data words tokens = of (DataSchema.ofTokens tokens) := by
  unfold data DataSchema.ofTokens
  cases tokens with
  | nil => rfl
  | cons first rest =>
    refine bind_eq rfl fun _ _ => (bind_ok (slice_eq (by simp) (Nat.le_refl _))).trans ?_
    rw [List.take_length, List.drop_succ_cons, List.drop_zero]
    rw [List.length_cons] at hw
    refine bind_eq (compositeParts_eq (by omega)) fun parts _ => ?_
    obtain ⟨outer, members⟩ := parts
    cases members with
    | nil => rfl
    | cons length others => exact bind_eq rfl fun _ _ => bind_eq rfl fun _ _ => rfl

end Derivation

namespace Members

def append (m n : Members) : Members := ⟨m.fields ++ n.fields, m.groups ++ n.groups, m.data ++ n.data⟩

theorem append_nil (m : Members) : m.append {} = m := by
  unfold append
  rw [List.append_nil, List.append_nil, List.append_nil]

end Members

namespace Derivation
variable {words : Nat} {tokens : List Token}

/-- The program does what `derive` says, on lists no longer than `n`. -/
def Follows {α : Type} (n : Nat) (program : List Token → Derivation α)
    (derive : List Token → Except SchemaError α) : Prop :=
  ∀ own : List Token, own.length ≤ n → program own = of (derive own)

def FollowsFrom (words : Nat) (tokens : List Token) (index : Nat) : Prop :=
  ∀ read, members words tokens index read =
    of (Members.ofTokens index (tokens.drop index) >>= fun m => .ok (read.append m))

theorem next_member_eq {α : Type} {o c : Signal} {index : Nat} {first : Token} {read : Members}
    (hw : tokens.length < words) (hfirst : tokens[index]? = some first) (ho : first.signal = o)
    (hnext : ∀ next, index < next → FollowsFrom words tokens next)
    {program : List Token → Derivation α} {derive : List Token → Except SchemaError α}
    (hprogram : Follows tokens.length program derive)
    {push : α → Members} {join : α → Members → Members}
    (hpush : ∀ a m, (push a).append m = read.append (join a m)) :
    ((findClosing words tokens index o c >>= fun stop => through words tokens index stop >>= fun own =>
      program own >>= fun a => .ok (stop, push a)) >>= fun part =>
      add words part.1 1 >>= fun next => if index < next then members words tokens next part.2 else endless) =
    of ((Token.findClosing (tokens.drop index) 0 o c >>= fun n =>
      derive ((tokens.drop index).take (n + 1)) >>= fun a =>
      Members.ofTokens (index + n + 1) ((tokens.drop (index + 1)).drop n) >>= fun m =>
      .ok (join a m)) >>= fun m => .ok (read.append m)) := by
  rw [bind_assoc, bind_assoc]
  refine bind_map_eq ((findClosing_eq hw ..).trans (congrArg of (Token.findClosing_drop hfirst ho))) fun n hn => ?_
  have hlt := (Token.lt_of_findClosing hn).2
  rw [List.length_drop] at hlt
  have hown : (tokens.take (index + n + 1)).drop index = (tokens.drop index).take (n + 1) := by
    rw [List.drop_take, Nat.add_assoc, Nat.add_sub_cancel_left]
  have hrest : tokens.drop (index + n + 1) = (tokens.drop (index + 1)).drop n := by
    rw [List.drop_drop, Nat.add_right_comm]
  rw [bind_ok (through_eq hw (Nat.le_add_right index n) (by omega)), hown, bind_assoc, bind_assoc]
  refine bind_eq (hprogram _ (by rw [List.length_take, List.length_drop]; omega)) fun a _ => ?_
  refine (bind_ok (add_eq (by omega))).trans ((if_pos (by omega)).trans ((hnext _ (by omega) (push a)).trans ?_))
  rw [hrest, bind_assoc]
  simp only [hpush]
  rfl

theorem followsFrom (hw : tokens.length < words)
    (hgroup : Follows tokens.length (group words tokens.length) GroupSchema.ofTokens) (index : Nat) :
    FollowsFrom words tokens index := by
  -- every member is closed behind the index, so what is behind it becomes less
  induction hmeasure : tokens.length - index using Nat.strongRecOn generalizing index with
  | _ measure ih =>
    intro read
    rw [members]
    split
    · next hfirst =>
      rw [List.drop_of_length_le (List.getElem?_eq_none_iff.mp hfirst), Members.ofTokens]
      exact congrArg (fun m => of (.ok m)) (read.append_nil).symm
    · next first hfirst =>
      have hlt : index < tokens.length := (List.getElem?_eq_some_iff.mp hfirst).1
      have hnext : ∀ next, index < next → FollowsFrom words tokens next := fun next hlt => ih _ (by omega) next rfl
      have hfield : Follows tokens.length (field words) FieldSchema.ofTokens := fun own hle => field_eq (by omega)
      have hdata : Follows tokens.length (data words) DataSchema.ofTokens := fun own hle => data_eq (by omega)
      rw [Token.drop_of_getElem? hfirst, Members.ofTokens, ← Token.drop_of_getElem? hfirst]
      cases hs : first.signal with
      | beginField =>
        exact next_member_eq hw hfirst hs hnext hfield fun f m => by simp [Members.append, Members.addField]
      | beginGroup =>
        exact next_member_eq hw hfirst hs hnext hgroup fun g m => by simp [Members.append, Members.addGroup]
      | beginVarData =>
        exact next_member_eq hw hfirst hs hnext hdata fun d m => by simp [Members.append, Members.addData]
      | _ => rfl

theorem members_eq_of (hw : tokens.length < words)
    (hgroup : Follows tokens.length (group words tokens.length) GroupSchema.ofTokens) :
    members words tokens 0 {} = of (Members.ofTokens 0 tokens) :=
  (followsFrom hw hgroup 0 {}).trans (congrArg of (bind_pure _))

/-- A group's members are read from less than its tokens, and so from less than the list that it is in. -/
theorem group_eq_of {enclosing : Nat} (hle : tokens.length ≤ enclosing) (hw : tokens.length < words)
    (hmembers : ∀ inner : List Token, inner.length < tokens.length →
      members words inner 0 {} = of (Members.ofTokens 0 inner)) :
    group words enclosing tokens = of (GroupSchema.ofTokens tokens) := by
  rw [group]
  cases tokens with
  | nil =>
    rw [GroupSchema.ofTokens]
    rfl
  | cons first rest =>
    rw [GroupSchema.ofTokens]
    refine bind_eq (findClosing_eq hw ..) fun stop hstop => ?_
    obtain ⟨hpos, hlength⟩ := Token.lt_of_findClosing hstop
    have hown : ((first :: rest).take (stop + 1)).length = stop + 1 := by rw [List.length_take]; omega
    have hinner : ((first :: rest).take (stop + 1)).take stop = (first :: rest).take stop := by
      rw [List.take_take, Nat.min_eq_left (Nat.le_succ stop)]
    refine (bind_ok (through_own_eq hw hstop)).trans ?_
    rw [List.drop_zero]
    refine bind_eq (groupFormat_eq (by omega)) fun format _ => ?_
    refine bind_eq (findClosing_eq (by omega) ..) fun dimensionsEnd hdimensions => ?_
    have hlt : dimensionsEnd < stop := Token.lt_of_findClosing_take (by decide) hstop hdimensions
    refine (bind_ok (add_eq (by omega))).trans ((bind_ok (slice_eq hlt (by omega))).trans ?_)
    rw [hinner]
    have hshorter : (((first :: rest).take stop).drop (dimensionsEnd + 1)).length < (first :: rest).length := by
      rw [length_slice]; omega
    refine (if_pos (Nat.lt_of_lt_of_le hshorter hle)).trans ?_
    exact bind_eq (hmembers _ hshorter) fun m _ => bind_ok (element_eq rfl)

theorem follows_group (enclosing : Nat) (hw : enclosing < words) :
    Follows enclosing (group words enclosing) GroupSchema.ofTokens := by
  intro tokens hle
  refine group_eq_of hle (by omega) fun inner hlt => ?_
  exact members_eq_of (by omega) (follows_group inner.length (by omega))
termination_by enclosing

theorem message_eq (hw : tokens.length < words) : message words tokens = of (MessageSchema.ofTokens tokens) := by
  refine bind_eq (findClosing_eq hw ..) fun stop hstop => ?_
  obtain ⟨hpos, hlength⟩ := Token.lt_of_findClosing hstop
  cases tokens with
  | nil => cases hlength
  | cons first rest =>
    obtain ⟨n, rfl⟩ : ∃ n, stop = n + 1 := ⟨stop - 1, by omega⟩
    refine (bind_ok (element_eq rfl)).trans ?_
    rw [List.take_succ_cons]
    dsimp only
    split
    · rfl
    · refine (bind_ok (slice_interior_eq hstop)).trans ?_
      rw [List.take_succ_cons, List.drop_succ_cons, List.drop_zero]
      have hinner : (rest.take n).length < words := by rw [List.length_take]; omega
      exact bind_eq (members_eq_of hinner (follows_group _ hinner)) fun _ _ => rfl

/-- A list of any tokens is derived from in finitely many steps and without a fault: no number is too large and
none falls below zero, no range is outside its list, and what is nested in a list is shorter. -/
theorem programs_end (h : tokens.length < words) :
    message words tokens = of (MessageSchema.ofTokens tokens) ∧
    group words tokens.length tokens = of (GroupSchema.ofTokens tokens) ∧
    field words tokens = of (FieldSchema.ofTokens tokens) ∧
    data words tokens = of (DataSchema.ofTokens tokens) ∧
    groupFormat words tokens = of (GroupFormat.ofTokens tokens) ∧
    dimensions words tokens = of (Dimensions.ofTokens tokens) ∧
    header words tokens = of (HeaderFormat.ofTokens tokens) :=
  ⟨message_eq h, follows_group _ h tokens (Nat.le_refl _), field_eq h, data_eq h, groupFormat_eq h, dimensions_eq h,
    header_eq h⟩

def bracket (signal : Signal) : Token := { signal := signal, name := "crossing" }

/-- The dimensions of the group end behind the group. -/
def crossing : List Token :=
  [bracket .beginGroup, bracket .beginComposite, bracket .endGroup, bracket .endComposite]

theorem programs_end_crossing :
    group 5 4 crossing = .error (.rejected (.unexpectedEnd .endComposite)) ∧
      message 7 (bracket .beginMessage :: crossing ++ [bracket .endMessage]) =
        .error (.rejected (.unexpectedEnd .endComposite)) := by
  have hgroup (rest : List Token) :
      GroupSchema.ofTokens (bracket .beginGroup :: bracket .beginComposite :: bracket .endGroup :: rest) =
        .error (.unexpectedEnd .endComposite) := by
    rw [GroupSchema.ofTokens]
    rfl
  have hmembers : Members.ofTokens 0 crossing = .error (.unexpectedEnd .endComposite) := by
    rw [crossing, Members.ofTokens]
    exact (ok_bind (a := 2) rfl).trans (error_bind (hgroup []))
  have hmessage : MessageSchema.ofTokens (bracket .beginMessage :: crossing ++ [bracket .endMessage]) =
      .error (.unexpectedEnd .endComposite) :=
    (ok_bind (a := 5) rfl).trans (error_bind hmembers)
  obtain ⟨-, hprogram, -⟩ := @programs_end 5 crossing (by decide)
  obtain ⟨hprogram', -⟩ := @programs_end 7 (bracket .beginMessage :: crossing ++ [bracket .endMessage]) (by decide)
  exact ⟨hprogram.trans (congrArg of (hgroup [bracket .endComposite])), hprogram'.trans (congrArg of hmessage)⟩

end Derivation

end SimpleBinary
