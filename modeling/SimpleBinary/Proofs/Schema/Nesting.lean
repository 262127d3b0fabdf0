import SimpleBinary.Schema.Construct

/-!
# Nested tokens

In a nested list of tokens whatever is opened is closed, by the right token and in the right order.
The search for a closing token passes over such a list as if it were not there (`closing?_append`),
so a construct with a nested interior is found to end where it ends, whatever follows it.
-/

namespace SimpleBinary

namespace Signal

def isLeaf : Signal → Bool
  | validValue | choice | encoding => true
  | _ => false

def opening? : Signal → Option Signal
  | endMessage => some beginMessage
  | endComposite => some beginComposite
  | endField => some beginField
  | endGroup => some beginGroup
  | endEnum => some beginEnum
  | endSet => some beginSet
  | endVarData => some beginVarData
  | _ => none

theorem opening?_of_closing? {o c : Signal} (h : o.closing? = some c) : c.opening? = some o := by
  cases o <;> cases h <;> rfl

theorem closing?_inj {o o' c : Signal} (h : o.closing? = some c) (h' : o'.closing? = some c) : o = o' := by
  have := opening?_of_closing? h
  rw [opening?_of_closing? h'] at this
  exact (Option.some.inj this).symm

theorem closing?_of_closing? {o c : Signal} (h : o.closing? = some c) : c.closing? = none := by
  cases o <;> cases h <;> rfl

theorem ne_of_isLeaf {s o c : Signal} (hs : s.isLeaf = true) (h : o.closing? = some c) : s ≠ o ∧ s ≠ c := by
  constructor
  · intro e
    subst e
    cases s <;> cases hs <;> cases h
  · intro e
    subst e
    cases o <;> cases h <;> cases hs

theorem ne_of_closing? {s o c : Signal} (h : o.closing? = some c) (hs : s = c) : s ≠ o := by
  intro e
  have := closing?_of_closing? h
  rw [← hs, e, h] at this
  cases this

theorem eq_of_closing? {o c o' c' : Signal} (h : o.closing? = some c) (h' : o'.closing? = some c') (ho : o' = o) :
    c' = c := by
  rw [ho, h] at h'
  exact (Option.some.inj h').symm

theorem apart_of_ne {o c o' c' : Signal} (h : o.closing? = some c) (h' : o'.closing? = some c') (hne : o' ≠ o) :
    o' ≠ c ∧ c' ≠ o ∧ c' ≠ c := by
  refine ⟨fun e => ?_, fun e => ?_, fun e => ?_⟩
  · rw [e, closing?_of_closing? h] at h'
    cases h'
  · have := closing?_of_closing? h'
    rw [e, h] at this
    cases this
  · rw [e] at h'
    exact hne (closing?_inj h' h)

end Signal

namespace Token

inductive Nested : List Token → Prop
  | nil : Nested []
  | leaf {t : Token} : t.signal.isLeaf = true → Nested [t]
  | append {a b : List Token} : Nested a → Nested b → Nested (a ++ b)
  | enclose {first last : Token} {inner : List Token} : first.signal.closing? = some last.signal →
      Nested inner → Nested (first :: (inner ++ [last]))

theorem nested_of_leaves {tokens : List Token} (h : ∀ t ∈ tokens, t.signal.isLeaf = true) : Nested tokens := by
  induction tokens with
  | nil => exact .nil
  | cons t rest ih =>
    have ht : Nested [t] := .leaf (h t List.mem_cons_self)
    exact ht.append (ih fun t ht => h t (List.mem_cons_of_mem _ ht))

section
variable {o c : Signal} {depth : Nat} {t : Token} {rest : List Token}

theorem closing?_opens (h : t.signal = o) :
    closing? o c depth (t :: rest) = (closing? o c (depth + 1) rest).map (· + 1) := by
  rw [closing?, if_pos h]

theorem closing?_closes (ho : t.signal ≠ o) (hc : t.signal = c) (hd : 1 ≤ depth) :
    closing? o c (depth + 1) (t :: rest) = (closing? o c depth rest).map (· + 1) := by
  rw [closing?, if_neg ho, if_pos hc, if_neg (by omega)]
  rfl

theorem closing?_passes (ho : t.signal ≠ o) (hc : t.signal ≠ c) :
    closing? o c depth (t :: rest) = (closing? o c depth rest).map (· + 1) := by
  rw [closing?, if_neg ho, if_neg hc]

theorem map_add_map_add (r : Option Nat) (a b : Nat) : (r.map (· + a)).map (· + b) = r.map (· + (a + b)) := by
  cases r with
  | none => rfl
  | some n => exact congrArg some (Nat.add_assoc n a b)

/-- The search passes over the tokens, and behind them `n` more constructs are open. -/
def LeavesOpen (o c : Signal) (n : Nat) (seg : List Token) : Prop :=
  ∀ (depth : Nat) (rest : List Token), 1 ≤ depth →
    closing? o c depth (seg ++ rest) = (closing? o c (depth + n) rest).map (· + seg.length)

namespace LeavesOpen
variable {n k : Nat} {a b : List Token}

theorem nil : LeavesOpen o c 0 [] := by
  intro depth rest _
  cases h : closing? o c depth rest <;> exact h

theorem single (ho : t.signal ≠ o) (hc : t.signal ≠ c) : LeavesOpen o c 0 [t] :=
  fun _ _ _ => closing?_passes ho hc

theorem append (ha : LeavesOpen o c n a) (hb : LeavesOpen o c k b) : LeavesOpen o c (n + k) (a ++ b) := by
  intro depth rest hd
  rw [List.append_assoc, ha depth _ hd, hb _ rest (by omega), map_add_map_add, List.length_append,
    Nat.add_comm a.length, Nat.add_assoc depth]

theorem opens (ho : t.signal = o) (h : LeavesOpen o c n a) : LeavesOpen o c (n + 1) (t :: a) := by
  intro depth rest hd
  rw [List.cons_append, closing?_opens ho, h _ rest (by omega), map_add_map_add, List.length_cons,
    Nat.add_assoc depth, Nat.add_comm 1]

theorem closes (ho : t.signal ≠ o) (hc : t.signal = c) (h : LeavesOpen o c (n + 1) a) :
    LeavesOpen o c n (a ++ [t]) := by
  intro depth rest hd
  rw [List.append_assoc, List.singleton_append, h depth _ hd, ← Nat.add_assoc,
    closing?_closes ho hc (by omega), map_add_map_add, List.length_append, List.length_singleton,
    Nat.add_comm a.length]

theorem enclose {first last : Token} (hclose : first.signal.closing? = some last.signal)
    (h : o.closing? = some c) (hn : LeavesOpen o c n a) : LeavesOpen o c n (first :: (a ++ [last])) := by
  by_cases ho : first.signal = o
  · -- the construct is of the kind that is looked for, so it is counted in and out again
    have hc : last.signal = c := Signal.eq_of_closing? h hclose ho
    exact (hn.opens ho).closes (Signal.ne_of_closing? h hc) hc
  · obtain ⟨hfc, hlo, hlc⟩ := Signal.apart_of_ne h hclose ho
    have hbefore := (single ho hfc).append (hn.append (single hlo hlc))
    rwa [Nat.zero_add] at hbefore

end LeavesOpen

theorem Nested.leavesOpen {seg : List Token} (hseg : Nested seg) (h : o.closing? = some c) :
    LeavesOpen o c 0 seg := by
  induction hseg with
  | nil => exact .nil
  | leaf hleaf =>
    obtain ⟨ho, hc⟩ := Signal.ne_of_isLeaf hleaf h
    exact .single ho hc
  | append _ _ iha ihb => exact iha.append ihb
  | enclose hclose _ ih => exact ih.enclose hclose h

theorem closing?_append {seg : List Token} (hseg : Nested seg) (h : o.closing? = some c)
    (depth : Nat) (rest : List Token) (hd : 1 ≤ depth) :
    closing? o c depth (seg ++ rest) = (closing? o c depth rest).map (· + seg.length) :=
  hseg.leavesOpen h depth rest hd

theorem Nested.closing?_eq_none {seg : List Token} (hseg : Nested seg) (h : o.closing? = some c)
    (hd : 1 ≤ depth) : closing? o c depth seg = none := by
  have hend := closing?_append hseg h depth [] hd
  rwa [List.append_nil] at hend

theorem closing?_here (h : o.closing? = some c) (hc : t.signal = c) : closing? o c 1 (t :: rest) = some 0 := by
  rw [closing?, if_neg (Signal.ne_of_closing? h hc), if_pos hc]
  rfl

theorem closing?_take {tokens : List Token} {n : Nat} (h : closing? o c depth tokens = some n) :
    n < tokens.length ∧ ∀ rest, closing? o c depth (tokens.take (n + 1) ++ rest) = some n := by
  induction tokens generalizing depth n with
  | nil => cases h
  | cons t tokens ih =>
    have further {next : Nat}
        (heq : ∀ rest, closing? o c depth (t :: rest) = (closing? o c next rest).map (· + 1)) :
        n < (t :: tokens).length ∧ ∀ rest, closing? o c depth ((t :: tokens).take (n + 1) ++ rest) = some n := by
      rw [heq] at h
      obtain ⟨k, hk, rfl⟩ := Option.map_eq_some_iff.mp h
      obtain ⟨hlt, hrest⟩ := ih hk
      refine ⟨Nat.succ_lt_succ hlt, fun rest => ?_⟩
      rw [List.take_succ_cons, List.cons_append, heq, hrest]
      rfl
    by_cases ho : t.signal = o
    · exact further fun rest => closing?_opens ho
    · by_cases hc : t.signal = c
      · by_cases hd : depth ≤ 1
        · have hhere (rest : List Token) : closing? o c depth (t :: rest) = some 0 := by
            rw [closing?, if_neg ho, if_pos hc, if_pos hd]
          rw [hhere] at h
          cases h
          exact ⟨by simp, fun rest => hhere _⟩
        · obtain ⟨next, rfl⟩ : ∃ next, depth = next + 1 := ⟨depth - 1, by omega⟩
          exact further fun rest => closing?_closes ho hc (by omega)
      · exact further fun rest => closing?_passes ho hc

end

theorem expect_of_eq {t : Token} {expected : Signal} (index : Nat) (h : t.signal = expected) :
    t.expect index expected = .ok () := if_pos h

theorem expect_of_ne {t : Token} {expected : Signal} (index : Nat) (h : t.signal ≠ expected) :
    t.expect index expected = .error (.unexpectedSignal index expected t.signal) := if_neg h

theorem signal_of_expect {t : Token} {index : Nat} {expected : Signal} {u : Unit}
    (h : t.expect index expected = .ok u) : t.signal = expected := by
  by_cases hs : t.signal = expected
  · exact hs
  · rw [expect_of_ne index hs] at h
    cases h

section
variable {o c : Signal} {first : Token} {rest : List Token} (before : List Token)

theorem findClosing_append :
    findClosing (before ++ first :: rest) before.length o c = (first.expect before.length o >>= fun _ =>
      (closing? o c 1 rest).elim (.error (.unexpectedEnd c)) fun n => .ok (before.length + 1 + n)) := by
  unfold findClosing
  rw [List.drop_left]
  show (first.expect before.length o >>= _) = _
  cases closing? o c 1 rest <;> rfl

theorem findClosing_of_ne (ho : first.signal ≠ o) :
    findClosing (before ++ first :: rest) before.length o c =
      .error (.unexpectedSignal before.length o first.signal) := by
  rw [findClosing_append, expect_of_ne _ ho]
  rfl

theorem findClosing_of_some {n : Nat} (ho : first.signal = o) (h : closing? o c 1 rest = some n) :
    findClosing (before ++ first :: rest) before.length o c = .ok (before.length + 1 + n) := by
  rw [findClosing_append, expect_of_eq _ ho, h]
  rfl

theorem findClosing_of_none (ho : first.signal = o) (h : closing? o c 1 rest = none) :
    findClosing (before ++ first :: rest) before.length o c = .error (.unexpectedEnd c) := by
  rw [findClosing_append, expect_of_eq _ ho, h]
  rfl

end

/-- All that the search for the end of a construct can come to. -/
inductive Search (o c : Signal) : List Token → Nat → Except SchemaError Nat → Prop
  | nothing {tokens : List Token} {start : Nat} : tokens.length ≤ start →
      Search o c tokens start (.error (.unexpectedEnd o))
  | other {first : Token} (before rest : List Token) : first.signal ≠ o →
      Search o c (before ++ first :: rest) before.length (.error (.unexpectedSignal before.length o first.signal))
  | unclosed {first : Token} (before rest : List Token) : first.signal = o → closing? o c 1 rest = none →
      Search o c (before ++ first :: rest) before.length (.error (.unexpectedEnd c))
  | closed {first : Token} (before rest : List Token) {n : Nat} : first.signal = o → closing? o c 1 rest = some n →
      Search o c (before ++ first :: rest) before.length (.ok (before.length + 1 + n))

theorem search_findClosing (o c : Signal) (tokens : List Token) (start : Nat) :
    Search o c tokens start (findClosing tokens start o c) := by
  by_cases h : tokens.length ≤ start
  · have hnone : findClosing tokens start o c = .error (.unexpectedEnd o) := by
      unfold findClosing
      rw [List.drop_of_length_le h]
      rfl
    rw [hnone]
    exact .nothing h
  · obtain ⟨before, first, rest, rfl, rfl⟩ : ∃ before first rest, tokens = before ++ first :: rest ∧
        start = before.length :=
      ⟨tokens.take start, tokens[start], tokens.drop (start + 1), by simp, by simp; omega⟩
    by_cases ho : first.signal = o
    · cases hclosing : closing? o c 1 rest with
      | none =>
        rw [findClosing_of_none before ho hclosing]
        exact .unclosed before rest ho hclosing
      | some n =>
        rw [findClosing_of_some before ho hclosing]
        exact .closed before rest ho hclosing
    · rw [findClosing_of_ne before ho]
      exact .other before rest ho

section
variable {o c : Signal} {tokens : List Token} {start stop : Nat}

theorem findClosing_take (h : findClosing tokens start o c = .ok stop) (rest : List Token) :
    findClosing (tokens.take (stop + 1) ++ rest) start o c = .ok stop := by
  have hsearch := search_findClosing o c tokens start
  rw [h] at hsearch
  cases hsearch with
  | @closed first before behind n ho hclosing =>
    have hstop : before.length + 1 + n + 1 - before.length = n + 1 + 1 := by omega
    rw [List.take_append, List.take_of_length_le (by omega), hstop, List.take_succ_cons, List.append_assoc,
      List.cons_append]
    exact findClosing_of_some before ho ((closing?_take hclosing).2 rest)

theorem lt_of_findClosing (h : findClosing tokens start o c = .ok stop) : start < stop ∧ stop < tokens.length := by
  have hsearch := search_findClosing o c tokens start
  rw [h] at hsearch
  cases hsearch with
  | closed before rest ho hclosing =>
    have hlt := (closing?_take hclosing).1
    rw [List.length_append, List.length_cons]
    omega

end

section
variable {o c : Signal} {tokens : List Token} {first : Token} {start : Nat}

theorem drop_of_getElem? (h : tokens[start]? = some first) : tokens.drop start = first :: tokens.drop (start + 1) := by
  obtain ⟨hlt, rfl⟩ := List.getElem?_eq_some_iff.mp h
  exact List.drop_eq_getElem_cons hlt

theorem findClosing_drop (h : tokens[start]? = some first) (ho : first.signal = o) :
    findClosing tokens start o c = (findClosing (tokens.drop start) 0 o c >>= fun n => .ok (start + n)) := by
  unfold findClosing
  rw [List.drop_zero, drop_of_getElem? h]
  show (first.expect start o >>= _) = ((first.expect 0 o >>= _) >>= _)
  rw [expect_of_eq start ho, expect_of_eq 0 ho]
  cases closing? o c 1 (tokens.drop (start + 1)) with
  | none => rfl
  | some n => exact congrArg Except.ok (by omega)

end

section
variable {o c : Signal} {first last : Token} {inner : List Token} (ho : first.signal = o)
  (hc : last.signal = c) (h : o.closing? = some c) (hn : Nested inner)
include ho hc h hn

theorem findClosing_eq_ok (before rest : List Token) :
    findClosing (before ++ first :: (inner ++ last :: rest)) before.length o c =
      .ok (before.length + 1 + inner.length) := by
  refine findClosing_of_some before ho ?_
  rw [closing?_append hn h 1 _ (Nat.le_refl 1), closing?_here h hc]
  exact congrArg some (Nat.zero_add _)

theorem findClosing_zero (rest : List Token) :
    findClosing (first :: (inner ++ last :: rest)) 0 o c = .ok (inner.length + 1) := by
  have hf := findClosing_eq_ok ho hc h hn [] rest
  rw [List.length_nil, Nat.zero_add, Nat.add_comm] at hf
  exact hf

theorem findClosing_one (t : Token) (rest : List Token) :
    findClosing (t :: first :: (inner ++ last :: rest)) 1 o c = .ok (inner.length + 2) := by
  have hf := findClosing_eq_ok ho hc h hn [t] rest
  rw [List.length_singleton, Nat.add_comm] at hf
  exact hf

theorem findClosing_construct (t : Token) (rest : List Token) :
    findClosing (t :: (first :: (inner ++ [last]) ++ rest)) 1 o c = .ok (first :: (inner ++ [last])).length := by
  have hf := findClosing_one ho hc h hn t rest
  rw [List.cons_append, List.append_assoc, List.singleton_append, hf]
  simp

end

theorem findClosing_unclosed {o c : Signal} {first last : Token} {inner : List Token} (before : List Token)
    (ho : first.signal = o) (h : o.closing? = some c) (hn : Nested inner) (hlo : last.signal ≠ o)
    (hlc : last.signal ≠ c) :
    findClosing (before ++ first :: (inner ++ [last])) before.length o c = .error (.unexpectedEnd c) := by
  refine findClosing_of_none before ho ?_
  rw [closing?_append hn h 1 _ (Nat.le_refl 1), closing?_passes hlo hlc]
  rfl

/-! ## Cutting constructs out of lists -/

section
variable (first last : Token) (inner rest : List Token)

theorem construct_append :
    first :: (inner ++ [last]) ++ rest = first :: (inner ++ last :: rest) := by
  rw [List.cons_append, List.append_assoc, List.singleton_append]

theorem take_construct :
    (first :: (inner ++ last :: rest)).take (inner.length + 1 + 1) = first :: (inner ++ [last]) := by
  rw [List.take_succ_cons, List.take_append, List.take_of_length_le (by omega), Nat.add_sub_cancel_left]
  rfl

theorem take_interior : (first :: (inner ++ last :: rest)).take (inner.length + 1) = first :: inner := by
  rw [List.take_succ_cons, List.take_left]

theorem drop_construct : (inner ++ last :: rest).drop (inner.length + 1) = rest := by
  rw [List.drop_append, List.drop_of_length_le (by omega), Nat.add_sub_cancel_left]
  rfl

end

end Token

end SimpleBinary
