import SimpleBinary.Proofs.Schema.Derivation

/-!
# Where an unexpected token is

A token that is not the one expected is reported with its index. Parts of a list are read by themselves, so the
index has to be that of the list as it was given (`Pinpoints`). It is in fields, group formats, dimensions and
headers. In a data section it is not if what follows the opening token begins no composite: the index is then
counted from that token on.
-/

namespace SimpleBinary

def UnexpectedAt (tokens : List Token) (index : Nat) (expected found : Signal) : Prop :=
  found ≠ expected ∧ ∃ t, tokens[index]? = some t ∧ t.signal = found

section
variable {α β : Type} {tokens : List Token} {x : Except SchemaError α} {f : α → Except SchemaError β}

def Pinpoints (tokens : List Token) (x : Except SchemaError α) : Prop :=
  ∀ ⦃index expected found⦄, x = .error (.unexpectedSignal index expected found) →
    UnexpectedAt tokens index expected found

namespace Pinpoints

theorem ok (a : α) : Pinpoints tokens (.ok a) := fun _ _ _ => nofun

theorem other {e : SchemaError} (he : ∀ index expected found, e ≠ .unexpectedSignal index expected found) :
    Pinpoints tokens (.error e : Except SchemaError α) := by
  intro index expected found h
  cases h
  exact absurd rfl (he index expected found)

theorem unexpected {t : Token} {index : Nat} {expected found : Signal} (h : tokens[index]? = some t)
    (hs : t.signal = found) (hne : found ≠ expected) :
    Pinpoints tokens (.error (.unexpectedSignal index expected found) : Except SchemaError α) := by
  intro _ _ _ he
  cases he
  exact ⟨hne, t, h, hs⟩

theorem bind (h : Pinpoints tokens x) (hf : ∀ a, x = .ok a → Pinpoints tokens (f a)) : Pinpoints tokens (x >>= f) := by
  intro index expected found he
  rcases of_bind_eq_error he with he | ⟨a, ha, he⟩
  · exact h he
  · exact hf a ha he

theorem map (h : Pinpoints tokens x) (g : α → β) : Pinpoints tokens (x >>= fun a => .ok (g a)) :=
  h.bind fun a _ => ok (g a)

theorem mapM {l : List α} (h : ∀ a ∈ l, Pinpoints tokens (f a)) : Pinpoints tokens (l.mapM f) := by
  induction l with
  | nil => exact ok []
  | cons a l ih =>
    rw [List.mapM_cons]
    refine (h a List.mem_cons_self).bind fun b _ => ?_
    exact (ih fun a ha => h a (List.mem_cons_of_mem _ ha)).map (b :: ·)

theorem of_take {n : Nat} (h : Pinpoints (tokens.take n) x) : Pinpoints tokens x := by
  intro index expected found he
  obtain ⟨hne, t, ht, hs⟩ := h he
  rw [List.getElem?_take] at ht
  split at ht
  · exact ⟨hne, t, ht, hs⟩
  · cases ht

end Pinpoints

end

/-! ## Single tokens -/

namespace Token
variable {tokens : List Token}

theorem unexpected_of_expect {t : Token} {start index : Nat} {o expected found : Signal}
    (h : t.expect start o = .error (.unexpectedSignal index expected found)) :
    index = start ∧ expected = o ∧ found = t.signal ∧ t.signal ≠ o := by
  by_cases hs : t.signal = o
  · rw [expect_of_eq start hs] at h
    cases h
  · rw [expect_of_ne start hs] at h
    cases h
    exact ⟨rfl, rfl, rfl, hs⟩

theorem pinpoints_expect {t : Token} {index : Nat} (h : tokens[index]? = some t) (expected : Signal) :
    Pinpoints tokens (t.expect index expected) := by
  intro _ _ _ he
  obtain ⟨rfl, rfl, rfl, hne⟩ := unexpected_of_expect he
  exact ⟨hne, t, h, rfl⟩

theorem pinpoints_type (t : Token) : Pinpoints tokens t.type := by
  unfold type
  cases t.encoding.type with
  | none => exact .other fun _ _ _ => nofun
  | some type => exact .ok type

theorem pinpoints_width (t : Token) : Pinpoints tokens t.width := by
  refine t.pinpoints_type.bind fun type _ => ?_
  cases type.width? with
  | none => exact .other fun _ _ _ => nofun
  | some w => exact .ok w

theorem pinpoints_toValidValue (t : Token) : Pinpoints tokens t.toValidValue := by
  unfold toValidValue
  cases t.encoding.value with
  | none => exact .other fun _ _ _ => nofun
  | some value => exact .ok (t.name, value)

theorem pinpoints_toChoice (bits : Nat) (t : Token) : Pinpoints tokens (t.toChoice bits) := by
  unfold toChoice
  split
  · split
    · exact .ok _
    · exact .other fun _ _ _ => nofun
  · exact .other fun _ _ _ => nofun

theorem pinpoints_valueKind (t : Token) : Pinpoints tokens (ValueKind.ofToken t) := by
  refine t.pinpoints_type.bind fun type _ => ?_
  split
  · cases t.encoding.value with
    | none => exact .other fun _ _ _ => nofun
    | some value => exact .ok _
  · exact .ok _

theorem pinpoints_toMember {t : Token} {index : Nat} (h : tokens[index]? = some t) :
    Pinpoints tokens (t.toMember index) :=
  (pinpoints_expect h .encoding).bind fun _ _ => t.pinpoints_valueKind.map _

/-! ## Composites -/

section
variable {o c : Signal} {start : Nat}

theorem unexpectedAt_start {index : Nat} {expected found : Signal}
    (h : findClosing tokens start o c = .error (.unexpectedSignal index expected found)) :
    index = start ∧ expected = o ∧ UnexpectedAt tokens start o found := by
  have hsearch := search_findClosing o c tokens start
  rw [h] at hsearch
  cases hsearch with
  | other before rest ho => exact ⟨rfl, rfl, ho, _, by simp, rfl⟩

theorem slice_of_findClosing {stop : Nat} (h : findClosing tokens start o c = .ok stop) :
    ∃ t inner, (tokens.take (stop + 1)).drop start = t :: inner ∧ t.signal = o := by
  have hsearch := search_findClosing o c tokens start
  rw [h] at hsearch
  cases hsearch with
  | @closed t before behind n ho hclosing =>
    have hstop : before.length + 1 + n + 1 - before.length = n + 1 + 1 := by omega
    refine ⟨t, behind.take (n + 1), ?_, ho⟩
    rw [List.take_append, List.take_of_length_le (by omega), hstop, List.take_succ_cons, List.drop_left]

theorem pinpoints_findClosing : Pinpoints tokens (findClosing tokens start o c) := by
  intro index expected found h
  obtain ⟨rfl, rfl, hat⟩ := unexpectedAt_start h
  exact hat

end

theorem unexpectedAt_zero {index : Nat} {expected found : Signal}
    (h : compositeParts tokens = .error (.unexpectedSignal index expected found)) :
    index = 0 ∧ expected = .beginComposite ∧ UnexpectedAt tokens 0 .beginComposite found := by
  unfold compositeParts at h
  rcases of_bind_eq_error h with h | ⟨stop, -, h⟩
  · exact unexpectedAt_start h
  · cases hstop : tokens.take stop <;> rw [hstop] at h <;> cases h

theorem pinpoints_compositeParts : Pinpoints tokens (compositeParts tokens) := by
  intro index expected found h
  obtain ⟨rfl, rfl, hat⟩ := unexpectedAt_zero h
  exact hat

theorem getElem?_of_mem_zipIdx {stop start : Nat} {member : Token × Nat}
    (h : member ∈ ((tokens.take stop).drop start).zipIdx start) : tokens[member.2]? = some member.1 := by
  obtain ⟨hle, hget⟩ := List.mk_mem_zipIdx_iff_le_and_getElem?_sub.mp h
  rw [List.getElem?_drop, List.getElem?_take, Nat.add_sub_cancel' hle] at hget
  split at hget
  · exact hget
  · cases hget

theorem getElem?_of_compositeParts {outer : Token} {members : List Token}
    (h : compositeParts tokens = .ok (outer, members)) (n : Nat) (hn : n < members.length) :
    tokens[n + 1]? = members[n]? := by
  unfold compositeParts at h
  obtain ⟨stop, -, h⟩ := of_bind_eq_ok h
  cases hstop : tokens.take stop with
  | nil =>
    rw [hstop] at h
    cases h
  | cons first rest =>
    rw [hstop] at h
    cases h
    have htake : (tokens.take stop)[n + 1]? = members[n]? := by rw [hstop, List.getElem?_cons_succ]
    rw [← htake, List.getElem?_take, if_pos]
    have hlength := congrArg List.length hstop
    rw [List.length_take, List.length_cons] at hlength
    omega

theorem pinpoints_unsignedMember (outer : Token) (members : List Token) (name : String) :
    Pinpoints tokens (outer.unsignedMember members name) := by
  unfold unsignedMember
  split
  · next t _ => exact t.pinpoints_width.map _
  · exact .other fun _ _ _ => nofun

end Token

section
variable {tokens composite : List Token}

theorem HeaderFormat.pinpoints_ofTokens : Pinpoints tokens (HeaderFormat.ofTokens tokens) :=
  Token.pinpoints_compositeParts.bind fun parts _ =>
    (parts.1.pinpoints_unsignedMember parts.2 "blockLength").bind fun _ _ =>
    (parts.1.pinpoints_unsignedMember parts.2 "templateId").bind fun _ _ =>
    (parts.1.pinpoints_unsignedMember parts.2 "schemaId").bind fun _ _ =>
    (parts.1.pinpoints_unsignedMember parts.2 "version").map _

theorem Dimensions.pinpoints_ofTokens (h : Pinpoints tokens (Token.compositeParts composite)) :
    Pinpoints tokens (Dimensions.ofTokens composite) :=
  h.bind fun parts _ =>
    (parts.1.pinpoints_unsignedMember parts.2 "blockLength").bind fun _ _ =>
    (parts.1.pinpoints_unsignedMember parts.2 "numInGroup").map _

theorem GroupFormat.pinpoints_ofTokens : Pinpoints tokens (GroupFormat.ofTokens tokens) := by
  unfold GroupFormat.ofTokens
  cases tokens with
  | nil => exact .other fun _ _ _ => nofun
  | cons first rest =>
    refine (Token.pinpoints_expect rfl _).bind fun _ _ => ?_
    refine Token.pinpoints_findClosing.bind fun stop hstop => ?_
    refine (Dimensions.pinpoints_ofTokens fun index expected found h => ?_).map _
    -- the dimensions begin where a composite has just been found to begin
    obtain ⟨t, inner, hslice, hs⟩ := Token.slice_of_findClosing hstop
    rw [hslice] at h
    obtain ⟨-, -, hne, u, hu, hfound⟩ := Token.unexpectedAt_zero h
    cases hu
    exact absurd (hfound.symm.trans hs) hne

/-! ## Fields -/

theorem FieldKind.pinpoints_ofTokens {type : Token} (h : tokens[1]? = some type) :
    Pinpoints tokens (FieldKind.ofTokens type tokens) := by
  unfold FieldKind.ofTokens
  cases hs : type.signal with
  | encoding => exact type.pinpoints_valueKind.map _
  | beginEnum =>
    refine Token.pinpoints_findClosing.bind fun stop _ => type.pinpoints_type.bind fun primitive _ => ?_
    exact (Pinpoints.mapM fun t _ => t.pinpoints_toValidValue).map _
  | beginSet =>
    refine Token.pinpoints_findClosing.bind fun stop _ => type.pinpoints_type.bind fun primitive _ => ?_
    exact (Pinpoints.mapM fun t _ => t.pinpoints_toChoice _).map _
  | beginComposite =>
    refine Token.pinpoints_findClosing.bind fun stop _ => Pinpoints.map (Pinpoints.mapM fun member hm => ?_) _
    -- a member is told its index in the field, not the one in the composite
    exact Token.pinpoints_toMember (Token.getElem?_of_mem_zipIdx hm)
  | _ => exact .unexpected h hs (by decide)

theorem FieldSchema.pinpoints_ofTokens : Pinpoints tokens (FieldSchema.ofTokens tokens) := by
  refine Token.pinpoints_findClosing.bind fun stop _ => Pinpoints.of_take (n := stop + 1) ?_
  cases tokens.take (stop + 1) with
  | nil => exact .other fun _ _ _ => nofun
  | cons first rest =>
    cases rest with
    | nil => exact .other fun _ _ _ => nofun
    | cons type rest => exact (FieldKind.pinpoints_ofTokens rfl).map _

/-! ## Data sections -/

/-- The composite of a section is looked for in the list without its first token, and its index is the one there. -/
theorem DataSchema.unexpectedAt_ofTokens {index : Nat} {expected found : Signal}
    (h : DataSchema.ofTokens tokens = .error (.unexpectedSignal index expected found)) :
    expected ≠ .beginComposite ∧ UnexpectedAt tokens index expected found ∨
      expected = .beginComposite ∧ index = 0 ∧ UnexpectedAt tokens 1 expected found := by
  unfold DataSchema.ofTokens at h
  cases tokens with
  | nil => cases h
  | cons first rest =>
    rcases of_bind_eq_error h with hfirst | ⟨_, -, h⟩
    · obtain ⟨rfl, rfl, rfl, hne⟩ := Token.unexpected_of_expect hfirst
      exact .inl ⟨nofun, hne, first, rfl, rfl⟩
    · rcases of_bind_eq_error h with hparts | ⟨⟨outer, members⟩, hparts, h⟩
      · obtain ⟨rfl, rfl, hne, t, ht, rfl⟩ := Token.unexpectedAt_zero hparts
        exact .inr ⟨rfl, rfl, hne, t, ht, rfl⟩
      · cases members with
        | nil => cases h
        | cons length others =>
          rcases of_bind_eq_error h with hlength | ⟨_, -, h⟩
          · obtain ⟨rfl, rfl, rfl, hne⟩ := Token.unexpected_of_expect hlength
            exact .inl ⟨nofun, hne, length, Token.getElem?_of_compositeParts hparts 0 (Nat.zero_lt_succ _), rfl⟩
          · -- an error about the width is about no token of any list
            rcases of_bind_eq_error h with hwidth | ⟨_, -, h⟩
            · have hnowhere : Pinpoints [] length.width := length.pinpoints_width
              obtain ⟨-, t, ht, -⟩ := hnowhere hwidth
              cases ht
            · cases h

end

theorem unexpected_signal_is_located (tokens : List Token) :
    Pinpoints tokens (FieldSchema.ofTokens tokens) ∧
    Pinpoints tokens (GroupFormat.ofTokens tokens) ∧
    Pinpoints tokens (Dimensions.ofTokens tokens) ∧
    Pinpoints tokens (HeaderFormat.ofTokens tokens) ∧
    ∀ index expected found, DataSchema.ofTokens tokens = .error (.unexpectedSignal index expected found) →
      expected ≠ .beginComposite ∧ UnexpectedAt tokens index expected found ∨
        expected = .beginComposite ∧ index = 0 ∧ UnexpectedAt tokens 1 expected found :=
  ⟨FieldSchema.pinpoints_ofTokens, GroupFormat.pinpoints_ofTokens,
    Dimensions.pinpoints_ofTokens Token.pinpoints_compositeParts, HeaderFormat.pinpoints_ofTokens,
    fun _ _ _ h => DataSchema.unexpectedAt_ofTokens h⟩

def bare : List Token :=
  [.beginVarData, .encoding, .endVarData].map fun signal => { signal := signal, name := "note" }

theorem unexpected_signal_is_located_bare :
    UnexpectedAt bare 0 .beginField .beginVarData ∧ UnexpectedAt bare 0 .beginGroup .beginVarData ∧
      UnexpectedAt bare 1 .beginComposite .encoding := by
  obtain ⟨hfield, hgroup, -, -, hdata⟩ := unexpected_signal_is_located bare
  refine ⟨hfield rfl, hgroup rfl, ?_⟩
  rcases hdata 0 .beginComposite .encoding rfl with ⟨hne, -⟩ | ⟨-, -, hat⟩
  · exact absurd rfl hne
  · exact hat

/-- The encoding has index one, and zero is reported. -/
theorem unexpected_signal_is_misplaced : ¬ ∀ tokens, Pinpoints tokens (DataSchema.ofTokens tokens) := by
  intro h
  obtain ⟨-, t, ht, hs⟩ := h bare rfl
  cases ht
  cases hs

end SimpleBinary
