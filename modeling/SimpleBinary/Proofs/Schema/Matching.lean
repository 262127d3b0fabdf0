import SimpleBinary.Proofs.Schema.Nesting

/-!
# Matching tokens

A construct ends at the first token up to which as many constructs of its kind are closed as are opened
(`Matches`). The search for that token counts what is open, in whatever list it is made: before the end more is
opened than closed (`occurrences_lt`), at the end as much (`occurrences_eq`), and if there is no end there is no
such token. All that counts of a token is its role.
-/

namespace SimpleBinary

namespace Token

def occurrences (s : Signal) (tokens : List Token) : Nat := tokens.countP fun t => t.signal = s

def segment (tokens : List Token) (start stop : Nat) : List Token := (tokens.take (stop + 1)).drop start

/-- `stop` is the least index with as many tokens that open a construct as tokens that close one, from `start` on. -/
structure Matches (o c : Signal) (tokens : List Token) (start stop : Nat) : Prop where
  opens : ∃ t, tokens[start]? = some t ∧ t.signal = o
  start_le : start ≤ stop
  lt_length : stop < tokens.length
  balanced : occurrences o (segment tokens start stop) = occurrences c (segment tokens start stop)
  least : ∀ n, start ≤ n → n < stop →
    occurrences o (segment tokens start n) ≠ occurrences c (segment tokens start n)

def role (o c : Signal) (t : Token) : Bool × Bool := (t.signal = o, t.signal = c)

section
variable {s : Signal} {t : Token} {tokens : List Token}

theorem occurrences_cons : occurrences s (t :: tokens) = occurrences s [t] + occurrences s tokens := by
  unfold occurrences
  rw [← List.countP_append, List.singleton_append]

theorem occurrences_of_eq (h : t.signal = s) : occurrences s [t] = 1 := by
  unfold occurrences
  rw [List.countP_cons_of_pos (by simpa using h), List.countP_nil]

theorem occurrences_of_ne (h : t.signal ≠ s) : occurrences s [t] = 0 := by
  unfold occurrences
  rw [List.countP_cons_of_neg (by simpa using h), List.countP_nil]

end

/-! ## What is open -/

section
variable {o c : Signal} (hne : o ≠ c) {depth : Nat} {tokens : List Token}
include hne

theorem closing?_step (hd : 1 ≤ depth) (t : Token) (tokens : List Token) :
    (depth + occurrences o [t] = occurrences c [t] ∧ closing? o c depth (t :: tokens) = some 0) ∨
      ∃ next, 1 ≤ next ∧ next + occurrences c [t] = depth + occurrences o [t] ∧
        closing? o c depth (t :: tokens) = (closing? o c next tokens).map (· + 1) := by
  by_cases ho : t.signal = o
  · have hc : t.signal ≠ c := fun hc => hne (ho.symm.trans hc)
    rw [occurrences_of_eq ho, occurrences_of_ne hc]
    exact .inr ⟨depth + 1, by omega, rfl, closing?_opens ho⟩
  · rw [occurrences_of_ne ho]
    by_cases hc : t.signal = c
    · rw [occurrences_of_eq hc]
      by_cases hone : depth ≤ 1
      · refine .inl ⟨by omega, ?_⟩
        rw [closing?, if_neg ho, if_pos hc, if_pos hone]
      · obtain ⟨next, rfl⟩ : ∃ next, depth = next + 1 := ⟨depth - 1, by omega⟩
        exact .inr ⟨next, by omega, rfl, closing?_closes ho hc (by omega)⟩
    · rw [occurrences_of_ne hc]
      exact .inr ⟨depth, hd, rfl, closing?_passes ho hc⟩

theorem occurrences_lt (hd : 1 ≤ depth) {k : Nat} (h : ∀ n, closing? o c depth tokens = some n → k ≤ n) :
    occurrences c (tokens.take k) < depth + occurrences o (tokens.take k) := by
  induction tokens generalizing depth k with
  | nil =>
    rw [List.take_nil]
    exact Nat.lt_of_lt_of_le hd (Nat.le_add_right ..)
  | cons t tokens ih =>
    cases k with
    | zero => exact Nat.lt_of_lt_of_le hd (Nat.le_add_right ..)
    | succ k =>
      rcases closing?_step hne hd t tokens with ⟨-, hend⟩ | ⟨next, hnext, hsum, hmap⟩
      · exact absurd (h 0 hend) (Nat.not_succ_le_zero k)
      · have hlt := ih hnext (k := k) fun n hn => Nat.le_of_succ_le_succ (h (n + 1) (by rw [hmap, hn]; rfl))
        rw [List.take_succ_cons, occurrences_cons, occurrences_cons (s := o)]
        omega

theorem occurrences_eq (hd : 1 ≤ depth) {n : Nat} (h : closing? o c depth tokens = some n) :
    depth + occurrences o (tokens.take (n + 1)) = occurrences c (tokens.take (n + 1)) := by
  induction tokens generalizing depth n with
  | nil => cases h
  | cons t tokens ih =>
    rw [List.take_succ_cons, occurrences_cons, occurrences_cons (s := c)]
    rcases closing?_step hne hd t tokens with ⟨hsum, hend⟩ | ⟨next, hnext, hsum, hmap⟩
    · obtain rfl : 0 = n := Option.some.inj (hend.symm.trans h)
      exact hsum
    · obtain ⟨n, hn, rfl⟩ := Option.map_eq_some_iff.mp (hmap.symm.trans h)
      have heq := ih hnext hn
      omega

end

/-! ## Constructs in lists -/

section
variable {o c : Signal} {first : Token} {before rest : List Token}

theorem segment_append (k : Nat) :
    segment (before ++ first :: rest) before.length (before.length + k) = first :: rest.take k := by
  unfold segment
  rw [Nat.add_assoc, List.take_length_add_append, List.drop_left, List.take_succ_cons]

theorem getElem?_before : (before ++ first :: rest)[before.length]? = some first := by
  rw [List.getElem?_append_right (Nat.le_refl _), Nat.sub_self, List.getElem?_cons_zero]

variable (before rest) (hne : o ≠ c) (ho : first.signal = o)
include hne ho

theorem occurrences_segment (k : Nat) :
    occurrences o (segment (before ++ first :: rest) before.length (before.length + k)) =
        1 + occurrences o (rest.take k) ∧
      occurrences c (segment (before ++ first :: rest) before.length (before.length + k)) =
        occurrences c (rest.take k) := by
  rw [segment_append, occurrences_cons, occurrences_cons (s := c), occurrences_of_eq ho,
    occurrences_of_ne fun hc => hne (ho.symm.trans hc), Nat.zero_add]
  exact ⟨rfl, rfl⟩

theorem occurrences_segment_lt {k : Nat} (h : ∀ n, closing? o c 1 rest = some n → k ≤ n) :
    occurrences c (segment (before ++ first :: rest) before.length (before.length + k)) <
      occurrences o (segment (before ++ first :: rest) before.length (before.length + k)) := by
  obtain ⟨hopened, hclosed⟩ := occurrences_segment before rest hne ho k
  rw [hopened, hclosed]
  exact occurrences_lt hne (Nat.le_refl 1) h

theorem matches_of_closing? {n : Nat} (h : closing? o c 1 rest = some n) :
    Matches o c (before ++ first :: rest) before.length (before.length + 1 + n) where
  opens := ⟨first, getElem?_before, ho⟩
  start_le := by omega
  lt_length := by
    have hlt := (closing?_take h).1
    rw [List.length_append, List.length_cons]
    omega
  balanced := by
    obtain ⟨hopened, hclosed⟩ := occurrences_segment before rest hne ho (n + 1)
    rw [Nat.add_assoc, Nat.add_comm 1, hopened, hclosed]
    exact occurrences_eq hne (Nat.le_refl 1) h
  least m hle hlt := by
    obtain ⟨k, rfl⟩ := Nat.exists_eq_add_of_le hle
    refine Nat.ne_of_gt (occurrences_segment_lt before rest hne ho fun n' hn => ?_)
    obtain rfl := Option.some.inj (hn.symm.trans h)
    omega

end

section
variable {o c : Signal} {tokens : List Token} {start stop stop' : Nat}

theorem Matches.eq (h : Matches o c tokens start stop) (h' : Matches o c tokens start stop') : stop = stop' := by
  rcases Nat.lt_trichotomy stop stop' with hlt | heq | hlt
  · exact absurd h.balanced (h'.least stop h.start_le hlt)
  · exact heq
  · exact absurd h'.balanced (h.least stop' h'.start_le hlt)

theorem findClosing_eq_ok_iff (hne : o ≠ c) :
    findClosing tokens start o c = .ok stop ↔ Matches o c tokens start stop := by
  have hsearch := search_findClosing o c tokens start
  generalize findClosing tokens start o c = answer at hsearch ⊢
  cases hsearch with
  | nothing hle =>
    refine ⟨nofun, fun h => ?_⟩
    have hlt := h.lt_length
    have hle' := h.start_le
    omega
  | other before rest ho =>
    refine ⟨nofun, fun h => ?_⟩
    obtain ⟨t, ht, hs⟩ := h.opens
    obtain rfl := Option.some.inj (getElem?_before.symm.trans ht)
    exact absurd hs ho
  | unclosed before rest ho hnone =>
    refine ⟨nofun, fun h => ?_⟩
    obtain ⟨k, rfl⟩ := Nat.exists_eq_add_of_le h.start_le
    have hlt := occurrences_segment_lt before rest hne ho (k := k) fun n hn => nomatch hnone.symm.trans hn
    exact absurd h.balanced (Nat.ne_of_gt hlt)
  | closed before rest ho hclosing =>
    have hmatches := matches_of_closing? before rest hne ho hclosing
    constructor
    · intro h
      obtain rfl := Except.ok.inj h
      exact hmatches
    · intro h
      rw [hmatches.eq h]

theorem findClosing_eq_nothing_iff (hne : o ≠ c) :
    findClosing tokens start o c = .error (.unexpectedEnd o) ↔ tokens.length ≤ start := by
  have hsearch := search_findClosing o c tokens start
  generalize findClosing tokens start o c = answer at hsearch ⊢
  cases hsearch with
  | nothing hle => simp [hle]
  | other before rest ho => simp
  | unclosed before rest ho hnone => simp [hne.symm]
  | closed before rest ho hclosing => simp

theorem findClosing_eq_unexpected_iff {index : Nat} {expected found : Signal} :
    findClosing tokens start o c = .error (.unexpectedSignal index expected found) ↔
      index = start ∧ expected = o ∧ found ≠ o ∧ ∃ t, tokens[start]? = some t ∧ t.signal = found := by
  have hsearch := search_findClosing o c tokens start
  generalize findClosing tokens start o c = answer at hsearch ⊢
  cases hsearch with
  | nothing hle => simp [hle]
  | other before rest ho =>
    constructor
    · intro h
      cases h
      exact ⟨rfl, rfl, ho, _, getElem?_before, rfl⟩
    · intro h
      obtain ⟨rfl, rfl, -, t, ht, rfl⟩ := h
      obtain rfl := Option.some.inj (getElem?_before.symm.trans ht)
      rfl
  | unclosed before rest ho hnone => simp [ho, eq_comm]
  | closed before rest ho hclosing => simp [ho, eq_comm]

theorem findClosing_eq_unclosed_iff (hne : o ≠ c) :
    findClosing tokens start o c = .error (.unexpectedEnd c) ↔
      (∃ t, tokens[start]? = some t ∧ t.signal = o) ∧ ∀ stop, ¬ Matches o c tokens start stop := by
  simp only [← findClosing_eq_ok_iff hne]
  have hsearch := search_findClosing o c tokens start
  generalize findClosing tokens start o c = answer at hsearch ⊢
  cases hsearch with
  | nothing hle => simp [hle, hne]
  | other before rest ho => simp [ho]
  | unclosed before rest ho hnone => simp [ho]
  | closed before rest ho hclosing => simp

theorem Matches.occurrences_lt (hne : o ≠ c) (h : Matches o c tokens start stop) {n : Nat} (hle : start ≤ n)
    (hlt : n < stop) : occurrences c (segment tokens start n) < occurrences o (segment tokens start n) := by
  have hsearch := search_findClosing o c tokens start
  rw [(findClosing_eq_ok_iff hne).mpr h] at hsearch
  cases hsearch with
  | closed before rest ho hclosing =>
    obtain ⟨k, rfl⟩ := Nat.exists_eq_add_of_le hle
    refine occurrences_segment_lt before rest hne ho fun n hn => ?_
    obtain rfl := Option.some.inj (hn.symm.trans hclosing)
    omega

/-! ## Constructs moved to other lists -/

theorem segment_take {k : Nat} (hle : start + k ≤ stop) :
    segment tokens start (start + k) = (segment tokens start stop).take (k + 1) := by
  unfold segment
  rw [List.take_drop, List.take_take, Nat.min_eq_left (by omega), Nat.add_assoc]

theorem length_segment (h : stop < tokens.length) : (segment tokens start stop).length = stop + 1 - start := by
  unfold segment
  rw [List.length_drop, List.length_take, Nat.min_eq_left (by omega)]

theorem getElem?_segment (h : start ≤ stop) : (segment tokens start stop)[0]? = tokens[start]? := by
  unfold segment
  rw [List.getElem?_drop, List.getElem?_take, if_pos (by omega), Nat.add_zero]

theorem segment_between {before own after : List Token} {k : Nat} (h : k < own.length) :
    segment (before ++ own ++ after) before.length (before.length + k) = own.take (k + 1) := by
  unfold segment
  rw [List.append_assoc, Nat.add_assoc, List.take_length_add_append, List.drop_left,
    List.take_append_of_le_length h]

theorem occurrences_of_role {own own' : List Token} (h : own.map (role o c) = own'.map (role o c)) :
    occurrences o own = occurrences o own' ∧ occurrences c own = occurrences c own' := by
  have hopens (tokens : List Token) : occurrences o tokens = (tokens.map (role o c)).countP Prod.fst := by
    rw [List.countP_map]
    rfl
  have hcloses (tokens : List Token) : occurrences c tokens = (tokens.map (role o c)).countP Prod.snd := by
    rw [List.countP_map]
    rfl
  rw [hopens, hopens own', hcloses, hcloses own', h]
  exact ⟨rfl, rfl⟩

theorem Matches.moved {own : List Token} (h : Matches o c tokens start stop)
    (hown : own.map (role o c) = (segment tokens start stop).map (role o c)) (before after : List Token) :
    Matches o c (before ++ own ++ after) before.length (before.length + (stop - start)) := by
  have hle := h.start_le
  have hlength : own.length = stop - start + 1 := by
    have heq := congrArg List.length hown
    rw [List.length_map, List.length_map, length_segment h.lt_length] at heq
    omega
  have hsame {k : Nat} (hk : k ≤ stop - start) :
      occurrences o (segment (before ++ own ++ after) before.length (before.length + k)) =
          occurrences o (segment tokens start (start + k)) ∧
        occurrences c (segment (before ++ own ++ after) before.length (before.length + k)) =
          occurrences c (segment tokens start (start + k)) := by
    rw [segment_between (by omega), segment_take (show start + k ≤ stop by omega)]
    refine occurrences_of_role ?_
    rw [List.map_take, hown, List.map_take]
  have hstop : start + (stop - start) = stop := by omega
  exact {
    opens := by
      obtain ⟨t, ht, hs⟩ := h.opens
      have hhead : (own.map (role o c))[0]? = some (role o c t) := by
        rw [hown, List.getElem?_map, getElem?_segment hle, ht]
        rfl
      obtain ⟨t', ht', hrole⟩ := Option.map_eq_some_iff.mp (List.getElem?_map.symm.trans hhead)
      refine ⟨t', ?_, ?_⟩
      · rw [List.append_assoc, List.getElem?_append_right (Nat.le_refl _), Nat.sub_self,
          List.getElem?_append_left (by omega), ht']
      · have hopens := congrArg Prod.fst hrole
        simpa [role, hs] using hopens
    start_le := Nat.le_add_right ..
    lt_length := by
      rw [List.length_append, List.length_append]
      omega
    balanced := by
      obtain ⟨hopened, hclosed⟩ := hsame (Nat.le_refl _)
      rw [hopened, hclosed, hstop]
      exact h.balanced
    least := fun n hn hlt => by
      obtain ⟨k, rfl⟩ := Nat.exists_eq_add_of_le hn
      obtain ⟨hopened, hclosed⟩ := hsame (k := k) (by omega)
      rw [hopened, hclosed]
      exact h.least _ (Nat.le_add_right ..) (by omega) }

end

/-- The search for the end of a construct answers with the token that closes it, and is refused exactly if there is
nothing at its start, if something else begins there, or if nothing closes the construct. What is found depends on
no token outside the construct, and inside it on the roles of the tokens. -/
theorem findClosing_is_matching {o c : Signal} (hne : o ≠ c) (tokens : List Token) (start : Nat) :
    (∀ stop, findClosing tokens start o c = .ok stop ↔ Matches o c tokens start stop) ∧
    (findClosing tokens start o c = .error (.unexpectedEnd o) ↔ tokens.length ≤ start) ∧
    (∀ index expected found, findClosing tokens start o c = .error (.unexpectedSignal index expected found) ↔
      index = start ∧ expected = o ∧ found ≠ o ∧ ∃ t, tokens[start]? = some t ∧ t.signal = found) ∧
    (findClosing tokens start o c = .error (.unexpectedEnd c) ↔
      (∃ t, tokens[start]? = some t ∧ t.signal = o) ∧ ∀ stop, ¬ Matches o c tokens start stop) ∧
    ∀ stop, findClosing tokens start o c = .ok stop →
      (∀ n, start ≤ n → n < stop →
        occurrences c (segment tokens start n) < occurrences o (segment tokens start n)) ∧
      (∀ before own after, own.map (role o c) = (segment tokens start stop).map (role o c) →
        findClosing (before ++ own ++ after) before.length o c = .ok (before.length + (stop - start))) ∧
      findClosing (segment tokens start stop) 0 o c = .ok (stop - start) := by
  refine ⟨fun stop => findClosing_eq_ok_iff hne, findClosing_eq_nothing_iff hne,
    fun index expected found => findClosing_eq_unexpected_iff, findClosing_eq_unclosed_iff hne, fun stop h => ?_⟩
  have hmatches := (findClosing_eq_ok_iff hne).mp h
  refine ⟨fun n => hmatches.occurrences_lt hne, fun before own after hown => ?_, ?_⟩
  · exact (findClosing_eq_ok_iff hne).mpr (hmatches.moved hown before after)
  · have halone := hmatches.moved rfl [] []
    rw [List.nil_append, List.append_nil, List.length_nil, Nat.zero_add] at halone
    exact (findClosing_eq_ok_iff hne).mpr halone

/-- Two composites, one in the other; the end of a field crosses the inner one, and a third is not closed. -/
def nest : List Token :=
  [.beginField, .beginComposite, .beginComposite, .endField, .endComposite, .endComposite, .beginComposite].map
    fun signal => { signal := signal, name := "nest" }

theorem findClosing_is_matching_nest :
    Signal.beginComposite ≠ .endComposite ∧
      findClosing nest 1 .beginComposite .endComposite = .ok 5 ∧
      findClosing (segment nest 1 5) 0 .beginComposite .endComposite = .ok 4 ∧
      (∀ stop, ¬ Matches .beginComposite .endComposite nest 6 stop) ∧
      findClosing nest 7 .beginComposite .endComposite = .error (.unexpectedEnd .beginComposite) := by
  have hne : Signal.beginComposite ≠ .endComposite := by decide
  have hleast : ∀ n < 5, 1 ≤ n → occurrences .beginComposite (segment nest 1 n) ≠
      occurrences .endComposite (segment nest 1 n) := by decide
  have hfound := ((findClosing_is_matching hne nest 1).1 5).mpr
    ⟨⟨_, rfl, rfl⟩, by decide, by decide, by decide, fun n hle hlt => hleast n hlt hle⟩
  obtain ⟨-, -, halone⟩ := (findClosing_is_matching hne nest 1).2.2.2.2 5 hfound
  exact ⟨hne, hfound, halone, ((findClosing_is_matching hne nest 6).2.2.2.1.mp rfl).2,
    (findClosing_is_matching hne nest 7).2.1.mpr (by decide)⟩

end Token

end SimpleBinary
