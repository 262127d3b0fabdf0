import SimpleBinary.Proofs.Schema.Matching
import SimpleBinary.Proofs.Schema.Closers

/-!
# How far constructs extend

A construct is often read from a list that goes on behind it, and its end is searched for again by whatever reads
a part of it. Each of these searches ends at the same token whatever follows it (`Token.findClosing_take`), and
nothing is taken from the list but what is in front of that token. So what is read of a construct is read of its
own tokens, with anything behind them (`Extent`).
-/

namespace SimpleBinary

open Token (findClosing Matches)

/-- What has been read stays what is read if tokens are added at the end, and if the list is cut behind the token
that closes what begins at `start`. -/
structure Extent {α : Type} (start : Nat) (o c : Signal) (read : List Token → Except SchemaError α)
    (tokens : List Token) (a : α) : Prop where
  further : ∀ rest, read (tokens ++ rest) = .ok a
  ends : ∃ stop, Matches o c tokens start stop ∧ ∀ rest, read (tokens.take (stop + 1) ++ rest) = .ok a

/-- What is read is a construct from `start` on: it is not read without the token that closes it, and nothing is
looked at behind that token. -/
structure ReadsConstruct {α : Type} (start : Nat) (o c : Signal) (read : List Token → Except SchemaError α) :
    Prop where
  closed : ∀ tokens a, read tokens = .ok a → ∃ stop, findClosing tokens start o c = .ok stop
  upTo : ∀ tokens stop, findClosing tokens start o c = .ok stop →
    ∀ rest, read (tokens.take (stop + 1) ++ rest) = read tokens

section
variable {α : Type} {o c : Signal} {start stop : Nat} {tokens : List Token}

theorem ReadsConstruct.extent {read : List Token → Except SchemaError α} (hread : ReadsConstruct start o c read)
    (hne : o ≠ c) {a : α} (ha : read tokens = .ok a) : Extent start o c read tokens a := by
  obtain ⟨stop, hstop⟩ := hread.closed tokens a ha
  have hown (rest : List Token) : read (tokens.take (stop + 1) ++ rest) = .ok a :=
    (hread.upTo tokens stop hstop rest).trans ha
  refine ⟨fun rest => ?_, stop, (Token.findClosing_eq_ok_iff hne).mp hstop, hown⟩
  have hsplit : tokens ++ rest = tokens.take (stop + 1) ++ (tokens.drop (stop + 1) ++ rest) := by
    rw [← List.append_assoc, List.take_append_drop]
  rw [hsplit, hown]

variable (h : findClosing tokens start o c = .ok stop) (rest : List Token)
include h

theorem take_own : (tokens.take (stop + 1) ++ rest).take (stop + 1) = tokens.take (stop + 1) := by
  have hlt := (Token.lt_of_findClosing h).2
  rw [List.take_append_of_le_length (by rw [List.length_take]; omega), List.take_take, Nat.min_self]

theorem take_inner : (tokens.take (stop + 1) ++ rest).take stop = tokens.take stop := by
  have hlt := (Token.lt_of_findClosing h).2
  rw [List.take_append_of_le_length (by rw [List.length_take]; omega), List.take_take,
    Nat.min_eq_left (Nat.le_succ stop)]

end

theorem ReadsConstruct.ofSearch {α : Type} {start : Nat} {o c : Signal}
    {next : List Token → Nat → Except SchemaError α}
    (hnext : ∀ tokens stop, findClosing tokens start o c = .ok stop →
      ∀ rest, next (tokens.take (stop + 1) ++ rest) stop = next tokens stop) :
    ReadsConstruct start o c fun tokens => findClosing tokens start o c >>= next tokens where
  closed tokens a h := by
    obtain ⟨stop, hstop, -⟩ := of_bind_eq_ok h
    exact ⟨stop, hstop⟩
  upTo tokens stop h rest := calc
    (findClosing (tokens.take (stop + 1) ++ rest) start o c >>= next (tokens.take (stop + 1) ++ rest)) =
        next (tokens.take (stop + 1) ++ rest) stop := ok_bind (Token.findClosing_take h rest)
    _ = next tokens stop := hnext tokens stop h rest
    _ = (findClosing tokens start o c >>= next tokens) := (ok_bind h).symm

theorem ReadsConstruct.bind {α β : Type} {start : Nat} {o c : Signal} {read : List Token → Except SchemaError α}
    (hread : ReadsConstruct start o c read) (next : α → Except SchemaError β) :
    ReadsConstruct start o c fun tokens => read tokens >>= next where
  closed tokens b h := by
    obtain ⟨a, ha, -⟩ := of_bind_eq_ok h
    exact hread.closed tokens a ha
  upTo tokens stop h rest := congrArg (· >>= next) (hread.upTo tokens stop h rest)

/-! ## Composites -/

theorem Token.readsConstruct_compositeParts : ReadsConstruct 0 .beginComposite .endComposite compositeParts := by
  refine .ofSearch fun tokens stop h rest => ?_
  rw [take_inner h]

theorem HeaderFormat.readsConstruct : ReadsConstruct 0 .beginComposite .endComposite ofTokens :=
  Token.readsConstruct_compositeParts.bind _

theorem Dimensions.readsConstruct : ReadsConstruct 0 .beginComposite .endComposite ofTokens :=
  Token.readsConstruct_compositeParts.bind _

theorem GroupFormat.readsConstruct : ReadsConstruct 1 .beginComposite .endComposite ofTokens where
  closed tokens a h := by
    cases tokens with
    | nil => cases h
    | cons first tokens =>
      obtain ⟨-, -, hread⟩ := of_bind_eq_ok h
      obtain ⟨stop, hstop, -⟩ := of_bind_eq_ok hread
      exact ⟨stop, hstop⟩
  upTo tokens stop h rest := by
    cases tokens with
    | nil => cases h
    | cons first tokens =>
      refine congrArg (first.expect 0 .beginGroup >>= ·) (funext fun _ => ?_)
      refine (ok_bind (Token.findClosing_take h rest)).trans (Eq.trans ?_ (ok_bind h).symm)
      rw [take_own h]

theorem findClosing_cons_eq_ok_iff {o c : Signal} {t : Token} {rest : List Token} {n : Nat} :
    findClosing (t :: rest) 1 o c = .ok (n + 1) ↔ findClosing rest 0 o c = .ok n := by
  cases rest with
  | nil => exact ⟨nofun, nofun⟩
  | cons first rest =>
    by_cases ho : first.signal = o
    · have hfirst : (t :: first :: rest)[1]? = some first := rfl
      rw [Token.findClosing_drop hfirst ho, List.drop_succ_cons, List.drop_zero]
      cases findClosing (first :: rest) 0 o c with
      | error e => exact ⟨nofun, nofun⟩
      | ok m =>
        show Except.ok (1 + m) = .ok (n + 1) ↔ Except.ok m = .ok n
        rw [Except.ok.injEq, Except.ok.injEq]
        omega
    · have hbehind : findClosing (t :: first :: rest) 1 o c = .error _ := Token.findClosing_of_ne [t] ho
      have hhere : findClosing (first :: rest) 0 o c = .error _ := Token.findClosing_of_ne [] ho
      rw [hbehind, hhere]
      exact ⟨nofun, nofun⟩

theorem DataSchema.readsConstruct : ReadsConstruct 1 .beginComposite .endComposite ofTokens where
  closed tokens d h := by
    cases tokens with
    | nil => cases h
    | cons first tokens =>
      obtain ⟨-, -, hread⟩ := of_bind_eq_ok h
      obtain ⟨parts, hparts, -⟩ := of_bind_eq_ok hread
      obtain ⟨n, hn⟩ := Token.readsConstruct_compositeParts.closed tokens parts hparts
      exact ⟨n + 1, findClosing_cons_eq_ok_iff.mpr hn⟩
  upTo tokens stop h rest := by
    cases tokens with
    | nil => cases h
    | cons first tokens =>
      obtain ⟨n, rfl⟩ : ∃ n, stop = n + 1 := ⟨stop - 1, by have := (Token.lt_of_findClosing h).1; omega⟩
      have hparts := Token.readsConstruct_compositeParts.upTo tokens n (findClosing_cons_eq_ok_iff.mp h) rest
      refine congrArg (first.expect 0 .beginVarData >>= ·) (funext fun _ => ?_)
      exact congrArg (· >>= _) hparts

/-! ## Fields, groups and messages -/

theorem FieldSchema.readsConstruct : ReadsConstruct 0 .beginField .endField ofTokens := by
  refine .ofSearch fun tokens stop h rest => ?_
  rw [take_own h]

theorem GroupSchema.readsConstruct : ReadsConstruct 0 .beginGroup .endGroup ofTokens where
  closed tokens g h := by
    cases tokens with
    | nil =>
      rw [ofTokens] at h
      cases h
    | cons first tokens =>
      rw [ofTokens] at h
      obtain ⟨stop, hstop, -⟩ := of_bind_eq_ok h
      exact ⟨stop, hstop⟩
  upTo tokens stop h rest := by
    cases tokens with
    | nil => cases h
    | cons first tokens =>
      have hcons : (first :: tokens).take (stop + 1) ++ rest = first :: (tokens.take stop ++ rest) := rfl
      rw [hcons, ofTokens, ofTokens, ← hcons]
      refine (ok_bind (Token.findClosing_take h rest)).trans (Eq.trans ?_ (ok_bind h).symm)
      rw [take_own h, take_inner h]

theorem MessageSchema.readsConstruct : ReadsConstruct 0 .beginMessage .endMessage ofTokens := by
  refine .ofSearch fun tokens stop h rest => ?_
  rw [take_inner h]

/-- What is read of a construct, alone or as a part of a message, is read of its own tokens: whatever follows them,
brackets of any kind among it, is not looked at. -/
theorem own_tokens_suffice (tokens : List Token) :
    (∀ m, MessageSchema.ofTokens tokens = .ok m →
      Extent 0 .beginMessage .endMessage MessageSchema.ofTokens tokens m) ∧
    (∀ g, GroupSchema.ofTokens tokens = .ok g → Extent 0 .beginGroup .endGroup GroupSchema.ofTokens tokens g) ∧
    (∀ f, FieldSchema.ofTokens tokens = .ok f → Extent 0 .beginField .endField FieldSchema.ofTokens tokens f) ∧
    (∀ d, DataSchema.ofTokens tokens = .ok d →
      Extent 1 .beginComposite .endComposite DataSchema.ofTokens tokens d) ∧
    (∀ g, GroupFormat.ofTokens tokens = .ok g →
      Extent 1 .beginComposite .endComposite GroupFormat.ofTokens tokens g) ∧
    (∀ d, Dimensions.ofTokens tokens = .ok d →
      Extent 0 .beginComposite .endComposite Dimensions.ofTokens tokens d) ∧
    ∀ h, HeaderFormat.ofTokens tokens = .ok h →
      Extent 0 .beginComposite .endComposite HeaderFormat.ofTokens tokens h :=
  ⟨fun _ => MessageSchema.readsConstruct.extent nofun, fun _ => GroupSchema.readsConstruct.extent nofun,
    fun _ => FieldSchema.readsConstruct.extent nofun, fun _ => DataSchema.readsConstruct.extent nofun,
    fun _ => GroupFormat.readsConstruct.extent nofun, fun _ => Dimensions.readsConstruct.extent nofun,
    fun _ => HeaderFormat.readsConstruct.extent nofun⟩

def strays : List Token :=
  [.endGroup, .beginMessage].map fun signal => { signal := signal, name := "stray" }

theorem own_tokens_suffice_strays :
    MessageSchema.ofTokens (journey.tokens ++ strays) = .ok journey.schema ∧
      (∃ g, GroupSchema.ofTokens (stops.tokens ++ strays) = .ok g ∧ g.groups.length = 1) ∧
      FieldSchema.ofTokens (gear.tokens ++ strays) = .ok gear.schema ∧
      (∃ stop, Matches .beginField .endField (gear.tokens ++ journey.tokens) 0 stop ∧
        FieldSchema.ofTokens ((gear.tokens ++ journey.tokens).take (stop + 1)) = .ok gear.schema) ∧
      DataSchema.ofTokens (note :: Token.dataEncoding ++ strays) =
        .ok ⟨"note", 0, { length := .w32 }, some "UTF-8"⟩ ∧
      GroupFormat.ofTokens (stops.tokens ++ strays) = .ok ⟨0, 0, sizes.schema⟩ ∧
      Dimensions.ofTokens (sizes.tokens ++ strays) = .ok sizes.schema ∧
      HeaderFormat.ofTokens (Token.messageHeader ++ strays) = .ok .standard := by
  have hgear : FieldSchema.ofTokens gear.tokens = .ok gear.schema := gear.ofTokens_tokens
  have hbehind : FieldSchema.ofTokens (gear.tokens ++ journey.tokens) = .ok gear.schema :=
    ((own_tokens_suffice _).2.2.1 _ hgear).further _
  have hstops : GroupSchema.ofTokens stops.tokens = .ok _ :=
    GroupSchema.ofTokens_own _ _ sizes (MemberTree.nested_tokens _) (MemberTree.ofTokens_tokens _ 0)
  have hjourney : MessageSchema.ofTokens journey.tokens = .ok journey.schema :=
    (ok_bind (Token.findClosing_zero rfl rfl rfl journey.members.nested_tokens [])).trans
      (ok_bind (journey.members.ofTokens_tokens 0))
  obtain ⟨stop, hmatches, hcut⟩ := ((own_tokens_suffice _).2.2.1 _ hbehind).ends
  have hcut' := hcut []
  rw [List.append_nil] at hcut'
  refine ⟨?_, ?_, ?_, ⟨stop, hmatches, hcut'⟩, ?_, ?_, ?_, ?_⟩
  · exact ((own_tokens_suffice _).1 _ hjourney).further strays
  · exact ⟨_, ((own_tokens_suffice _).2.1 _ hstops).further strays, rfl⟩
  · exact ((own_tokens_suffice _).2.2.1 _ hgear).further strays
  · exact ((own_tokens_suffice (note :: Token.dataEncoding)).2.2.2.1 _ rfl).further strays
  · exact ((own_tokens_suffice _).2.2.2.2.1 _ (GroupFormat.ofTokens_own _ sizes _)).further strays
  · exact ((own_tokens_suffice _).2.2.2.2.2.1 _ sizes.ofTokens_tokens).further strays
  · exact ((own_tokens_suffice Token.messageHeader).2.2.2.2.2.2 _ rfl).further strays

end SimpleBinary
