import SimpleBinary.Proofs.Session.Bounds
import SimpleBinary.Proofs.Session.Commutation

/-!
# The elements of a group

Between one element of a group and the next anything may be read or written, nested groups and data
among it, and all of it moves the one cursor that the message has. What the group itself keeps is little:
how many elements have been entered, and where the last of them starts. So the elements that a run
enters are listed by where they start (`Session.starts`), and every state of the run is told from that
list (`Session.Walked`).
-/

namespace SimpleBinary

/-! ## Groups -/

namespace Group
variable {g : Group} {m : Message}

def after (g : Group) (starts : List Nat) : Group :=
  { g with visited := g.visited + starts.length, elementOffset := starts.getLast?.getD g.elementOffset }

theorem visited_after (xs : List Nat) : (g.after xs).visited = g.visited + xs.length := rfl

theorem after_append (xs : List Nat) (x : Nat) : (g.after xs).after [x] = g.after (xs ++ [x]) := by
  simp [after, Nat.add_assoc]

theorem hasNext_eq_false_iff (h : g.visited ≤ g.count) : g.hasNext = false ↔ g.visited = g.count := by
  unfold hasNext
  rw [decide_eq_false_iff_not]
  omega

theorem next_exhausted (h : g.visited = g.count) : g.next m = .error (.exhausted g.count) m := by
  unfold next hasNext
  rw [if_neg (by simp [h])]
  rfl

theorem next_beyond (hv : g.visited < g.count) (h : m.capacity < m.position + g.blockLength) :
    g.next m = .error (.positionBeyondCapacity (min (m.position + g.blockLength) lastPosition) m.capacity) m := by
  unfold next hasNext
  rw [if_pos (decide_eq_true hv), bind_of_error (Message.advance_eq_error h)]

theorem next_enters (hv : g.visited < g.count) (h : m.position + g.blockLength ≤ m.capacity) :
    g.next m = .ok (g.after [m.position]) (m.past g.blockLength) :=
  next_eq_ok_iff.mpr ⟨hv, h, rfl, rfl⟩

end Group

def Call.OpensGroup : Call → Prop
  | decodeGroup _ | encodeGroup .. => True
  | _ => False

/-- The call ends the innermost scope, or puts another one in its place. -/
def Call.Replaces (x : Scope) : Call → Prop
  | .leave => True
  | .next => ∃ g, x = .group g
  | .move _ => ∃ b, x = .composite b
  | _ => False

namespace Session
variable {s : Session} {c : Call} {g : Group} {m : Message} {outer : List Scope}

/-! ## What stays open -/

theorem suffix_perform (hc : ∀ x ∈ s.scopes.head?, ¬ c.Replaces x) : s.scopes <:+ (final (perform c s)).scopes := by
  have keep {α : Type} (p : Pass α) : s.scopes <:+ (final (Step.pass p s)).scopes := by
    have hscopes : (final (Step.pass p s)).scopes = s.scopes := by rw [final_pass]
    exact ⟨[], hscopes.symm⟩
  cases c with
  | access a => exact keep _
  | openComposite f =>
    refine scopes_bind List.suffix_rfl fun inner m _ => ?_
    cases inner with
    | some inner => exact List.suffix_cons _ _
    | none => exact List.suffix_rfl
  | enterComposite f | decodeGroup f | encodeGroup f count =>
    exact scopes_bind List.suffix_rfl fun _ _ _ => List.suffix_cons _ _
  | move b =>
    obtain ⟨m, scopes⟩ := s
    rcases scopes with _ | ⟨g | b' | _, outer⟩
    · exact List.suffix_rfl
    · exact List.suffix_rfl
    · exact absurd ⟨b', rfl⟩ (hc _ rfl)
    · exact List.suffix_rfl
  | enterRoot => exact List.suffix_cons _ _
  | next =>
    obtain ⟨m, scopes⟩ := s
    rcases scopes with _ | ⟨g | b | _, outer⟩
    · exact List.suffix_rfl
    · exact absurd ⟨g, rfl⟩ (hc _ rfl)
    · exact List.suffix_rfl
    · exact List.suffix_rfl
  | leave =>
    obtain ⟨m, scopes⟩ := s
    cases scopes with
    | nil => exact List.suffix_rfl
    | cons x outer => exact absurd trivial (hc x rfl)
  | readData f | copyData f | writeData f | seek | startEncode | startDecode | encodeHeader | decodeHeader | swapBuffer =>
    show _ <:+ (final ((_ <$> Step.pass _) s)).scopes
    rw [final_map]
    exact keep _

theorem tail_suffix_perform (c : Call) (s : Session) : s.scopes.tail <:+ (final (perform c s)).scopes := by
  obtain ⟨m, scopes⟩ := s
  cases scopes with
  | nil => exact List.nil_suffix
  | cons x outer =>
    cases c with
    | move b => cases x <;> exact List.suffix_cons _ _
    | next =>
      cases x with
      | group g => exact scopes_bind (s := ⟨m, .group g :: outer⟩) (List.suffix_cons _ _) fun _ _ _ => List.suffix_cons _ _
      | composite | root => exact List.suffix_cons _ _
    | leave => exact List.suffix_rfl
    | _ =>
      refine (List.suffix_cons x outer).trans ?_
      exact suffix_perform (s := ⟨m, x :: outer⟩) fun _ _ h => h

/-! ## The next element -/

theorem call_next_of_error {e : AccessError} (h : g.next m = .error e m) :
    (Session.mk m (.group g :: outer)).call .next = (.error e, ⟨m, .group g :: outer⟩) := by
  have hpass : Step.pass g.next ⟨m, .group g :: outer⟩ = .error e ⟨m, .group g :: outer⟩ :=
    Step.pass_eq_error_iff.mpr ⟨h, rfl⟩
  refine call_of_error ?_
  show (Step.pass g.next >>= _) _ = _
  rw [bind_of_error hpass]

theorem call_next_of_ok {g' : Group} {m' : Message} (h : g.next m = .ok g' m') :
    (Session.mk m (.group g :: outer)).call .next = (.ok (.group g'), ⟨m', .group g' :: outer⟩) := by
  have hpass : Step.pass g.next ⟨m, .group g :: outer⟩ = .ok g' ⟨m', .group g :: outer⟩ :=
    Step.pass_eq_ok_iff.mpr ⟨h, rfl⟩
  refine call_of_ok ?_
  show (Step.pass g.next >>= _) _ = _
  rw [bind_of_ok hpass]
  rfl

def beyond (m : Message) (n : Nat) : AccessError :=
  .positionBeyondCapacity (min (m.position + n) lastPosition) m.capacity

theorem call_next_exhausted (h : g.visited = g.count) :
    (Session.mk m (.group g :: outer)).call .next = (.error (.exhausted g.count), ⟨m, .group g :: outer⟩) :=
  call_next_of_error (Group.next_exhausted h)

theorem call_next_beyond (hv : g.visited < g.count) (h : m.capacity < m.position + g.blockLength) :
    (Session.mk m (.group g :: outer)).call .next = (.error (beyond m g.blockLength), ⟨m, .group g :: outer⟩) :=
  call_next_of_error (Group.next_beyond hv h)

theorem call_next_enters (hv : g.visited < g.count) (h : m.position + g.blockLength ≤ m.capacity) :
    (Session.mk m (.group g :: outer)).call .next = (.ok (.group (g.after [m.position])),
      ⟨m.past g.blockLength, .group (g.after [m.position]) :: outer⟩) :=
  call_next_of_ok (Group.next_enters hv h)

/-! ## Runs in a group -/

/-- The call goes on in the group above `depth` scopes: it neither places the cursor nor leaves the group. -/
def Inside (depth : Nat) (s : Session) (c : Call) : Prop :=
  ¬ c.Places ∧ (c = .leave → depth + 1 < s.scopes.length)

/-- Where the element starts that the call enters, if it enters one of the group above `depth` scopes. -/
def entered (depth : Nat) (s : Session) : Call → List Nat
  | .next => if s.scopes.length = depth + 1 ∧ (s.call .next).1.isOk then [s.message.position] else []
  | _ => []

def starts (depth : Nat) (s : Session) : List Call → List Nat
  | [] => []
  | c :: rest => s.entered depth c ++ (s.call c).2.starts depth rest

section
variable {depth : Nat}

theorem entered_of_error {e : AccessError} (h : (s.call c).1 = .error e) : s.entered depth c = [] := by
  cases c with
  | next => exact if_neg (by simp [h, Except.isOk, Except.toBool])
  | _ => rfl

theorem entered_of_deeper (h : s.scopes.length ≠ depth + 1) : s.entered depth c = [] := by
  cases c with
  | next => exact if_neg fun hc => h hc.1
  | _ => rfl

theorem entered_of_ok {r : Reply} {s' : Session} (hs : s.scopes.length = depth + 1) (h : s.call .next = (.ok r, s')) :
    s.entered depth .next = [s.message.position] :=
  if_pos ⟨hs, by rw [h]; rfl⟩

end

/-- The elements of the group that start at `xs` have been entered. -/
structure Walked (g : Group) (outer : List Scope) (base : Nat) (s : Session) (xs : List Nat) : Prop where
  suffix : .group (g.after xs) :: outer <:+ s.scopes
  visited_le : g.visited + xs.length ≤ g.count
  apart : xs.Pairwise fun x y => x + g.blockLength ≤ y
  base_le : base ≤ s.message.position
  within : ∀ x ∈ xs, base ≤ x ∧ x + g.blockLength ≤ s.message.position

namespace Walked
variable {base : Nat} {xs : List Nat}

theorem moved (h : s.Walked g outer base xs) {s' : Session} (hs : .group (g.after xs) :: outer <:+ s'.scopes)
    (hp : s.message.position ≤ s'.message.position) : s'.Walked g outer base xs where
  suffix := hs
  visited_le := h.visited_le
  apart := h.apart
  base_le := Nat.le_trans h.base_le hp
  within x hx := ⟨(h.within x hx).1, Nat.le_trans (h.within x hx).2 hp⟩

theorem enters (h : (Session.mk m (.group (g.after xs) :: outer)).Walked g outer base xs)
    (hv : g.visited + xs.length < g.count) :
    (Session.mk (m.past g.blockLength) (.group (g.after (xs ++ [m.position])) :: outer)).Walked
      g outer base (xs ++ [m.position]) where
  suffix := List.suffix_rfl
  visited_le := by
    rw [List.length_append]
    exact hv
  apart := by
    refine List.pairwise_append.mpr ⟨h.apart, List.pairwise_singleton .., fun x hx y hy => ?_⟩
    rw [List.mem_singleton.mp hy]
    exact (h.within x hx).2
  base_le := Nat.le_trans h.base_le (Nat.le_add_right ..)
  within x hx := by
    rcases List.mem_append.mp hx with hx | hx
    · exact ⟨(h.within x hx).1, Nat.le_trans (h.within x hx).2 (Nat.le_add_right ..)⟩
    · rw [List.mem_singleton.mp hx]
      exact ⟨h.base_le, Nat.le_refl _⟩

theorem next (h : (Session.mk m (.group (g.after xs) :: outer)).Walked g outer base xs) :
    let s := Session.mk m (.group (g.after xs) :: outer)
    (s.call .next).2.Walked g outer base (xs ++ s.entered outer.length .next) := by
  intro s
  have refused {e : AccessError} (hcall : s.call .next = (.error e, s)) :
      (s.call .next).2.Walked g outer base (xs ++ s.entered outer.length .next) := by
    rw [entered_of_error (congrArg Prod.fst hcall), hcall, List.append_nil]
    exact h
  by_cases hv : (g.after xs).visited < g.count
  · by_cases hle : m.position + g.blockLength ≤ m.capacity
    · have hcall : s.call .next = _ := call_next_enters hv hle
      rw [entered_of_ok List.length_cons hcall, hcall, Group.after_append]
      exact h.enters hv
    · exact refused (call_next_beyond hv (Nat.not_le.mp hle))
  · exact refused (call_next_exhausted (Nat.le_antisymm h.visited_le (Nat.not_lt.mp hv)))

theorem call (h : s.Walked g outer base xs) (hc : s.Inside outer.length c) :
    (s.call c).2.Walked g outer base (xs ++ s.entered outer.length c) := by
  have other (hentered : s.entered outer.length c = [])
      (hsuffix : .group (g.after xs) :: outer <:+ (final (perform c s)).scopes) :
      (s.call c).2.Walked g outer base (xs ++ s.entered outer.length c) := by
    rw [hentered, List.append_nil, snd_call]
    exact h.moved hsuffix (forward_perform hc.1 s).2
  obtain ⟨inner, hinner⟩ := h.suffix
  cases inner with
  | cons x inner =>
    -- something is open in the element, and the call does not reach around it
    refine other (entered_of_deeper ?_) (List.IsSuffix.trans ?_ (tail_suffix_perform c s))
    · rw [← hinner, List.length_append, List.length_cons, List.length_cons]
      omega
    · rw [← hinner]
      exact List.suffix_append ..
  | nil =>
    obtain ⟨m, scopes⟩ := s
    obtain rfl : .group (g.after xs) :: outer = scopes := hinner
    have stays (hr : ¬ c.Replaces (.group (g.after xs))) :
        .group (g.after xs) :: outer <:+ (final (perform c ⟨m, .group (g.after xs) :: outer⟩)).scopes :=
      suffix_perform (s := ⟨m, .group (g.after xs) :: outer⟩) fun x hx => Option.some.inj hx ▸ hr
    cases c with
    | next => exact h.next
    | leave => exact absurd (hc.2 rfl) (by simp)
    | move b => exact other rfl (stays nofun)
    | _ => exact other rfl (stays id)

theorem calls (cs : List Call) (h : s.Walked g outer base xs) (hcs : s.Along (Inside outer.length) cs) :
    (s.calls cs).2.Walked g outer base (xs ++ s.starts outer.length cs) := by
  induction cs generalizing s xs with
  | nil =>
    rw [starts, List.append_nil]
    exact h
  | cons c cs ih =>
    rw [starts, ← List.append_assoc]
    exact ih (h.call hcs.1) hcs.2

end Walked

/-! ## Walking to the end -/

def hasNext (s : Session) : Bool :=
  match s.scopes with
  | .group g :: _ => g.hasNext
  | _ => false

def remaining (s : Session) : Nat :=
  match s.scopes with
  | .group g :: _ => g.count - g.visited
  | _ => 0

theorem remaining_call_next (hn : s.hasNext = true) {r : Reply} {s' : Session} (h : s.call .next = (.ok r, s')) :
    s'.remaining < s.remaining := by
  obtain ⟨m, scopes⟩ := s
  rcases scopes with _ | ⟨g | b | _, outer⟩
  · cases hn
  · have hv : g.visited < g.count := of_decide_eq_true hn
    by_cases hle : m.position + g.blockLength ≤ m.capacity
    · rw [call_next_enters hv hle] at h
      cases h
      show g.count - (g.visited + 1) < g.count - g.visited
      omega
    · rw [call_next_beyond hv (Nat.not_le.mp hle)] at h
      cases h
  · cases hn
  · cases hn

/-- Enters one element after the other while there are any, and stops where one is refused. -/
def walk (s : Session) : Except AccessError Unit × Session :=
  if _ : s.hasNext = true then
    match _ : s.call .next with
    | (.ok _, s') => s'.walk
    | (.error e, s') => (.error e, s')
  else (.ok (), s)
termination_by s.remaining
decreasing_by exact remaining_call_next ‹_› ‹_›

theorem walk_of_ok (hn : s.hasNext = true) {r : Reply} {s' : Session} (h : s.call .next = (.ok r, s')) :
    s.walk = s'.walk := by
  rw [walk, dif_pos hn]
  split
  · next h' => rw [h] at h'; cases h'; rfl
  · next h' => rw [h] at h'; cases h'

theorem walk_of_error (hn : s.hasNext = true) {e : AccessError} {s' : Session} (h : s.call .next = (.error e, s')) :
    s.walk = (.error e, s') := by
  rw [walk, dif_pos hn]
  split
  · next h' => rw [h] at h'; cases h'
  · next h' => rw [h] at h'; cases h'; rfl

theorem walk_of_end (hn : ¬ s.hasNext = true) : s.walk = (.ok (), s) := by
  rw [walk, dif_neg hn]

/-- `n` elements are entered, block behind block, and these are all that are left, or the next of them is
not in the buffer. -/
theorem exists_walk (hv : g.visited ≤ g.count) :
    let s := Session.mk m (.group g :: outer)
    ∃ n, let t := (s.calls (List.replicate n .next)).2
      s.starts outer.length (List.replicate n .next) = (List.range n).map (m.position + · * g.blockLength) ∧
      (g.visited + n = g.count ∧ s.walk = (.ok (), t) ∨
        g.visited + n < g.count ∧ m.capacity < m.position + (n + 1) * g.blockLength ∧
          s.walk = (.error (beyond t.message g.blockLength), t)) := by
  intro s
  generalize hk : g.count - g.visited = k
  induction k generalizing g m with
  | zero =>
    have hn : ¬ s.hasNext = true := by
      show ¬ g.hasNext = true
      simp only [Group.hasNext, decide_eq_true_eq]
      omega
    exact ⟨0, rfl, .inl ⟨by omega, walk_of_end hn⟩⟩
  | succ k ih =>
    have hlt : g.visited < g.count := by omega
    have hn : s.hasNext = true := decide_eq_true hlt
    by_cases hle : m.position + g.blockLength ≤ m.capacity
    · have hcall : s.call .next = _ := call_next_enters hlt hle
      have hleft : g.count - (g.visited + 1) = k := by omega
      obtain ⟨n, hstarts, hwalk⟩ := ih (g := g.after [m.position]) (m := m.past g.blockLength) hlt hleft
      have hnext (i : Nat) : m.position + g.blockLength + i * g.blockLength = m.position + (i + 1) * g.blockLength := by
        rw [Nat.succ_mul]
        omega
      refine ⟨n + 1, ?_, ?_⟩
      · rw [List.replicate_succ, starts, entered_of_ok List.length_cons hcall, hcall, hstarts,
          List.range_succ_eq_map, List.map_cons, List.map_map, Nat.zero_mul]
        exact congrArg (m.position :: ·) (List.map_congr_left fun i _ => hnext i)
      · have hcalls : (s.calls (List.replicate (n + 1) .next)).2 =
          ((s.call .next).2.calls (List.replicate n .next)).2 := rfl
        have hvisited : (g.after [m.position]).visited + n = g.visited + (n + 1) := Nat.add_right_comm ..
        rw [hcalls, walk_of_ok hn hcall, hcall, ← hvisited, ← hnext]
        exact hwalk
    · have hbeyond := Nat.not_le.mp hle
      exact ⟨0, rfl, .inr ⟨hlt, by omega, walk_of_error hn (call_next_beyond hlt hbeyond)⟩⟩

/-! ## From its opening on -/

/-- What it comes to that the innermost group, `g`, is asked for its next element, once or to the end. -/
structure Steps (g : Group) (outer : List Scope) (s : Session) : Prop where
  exhausted_iff : (s.call .next).1 = .error (.exhausted g.count) ↔ g.visited = g.count
  refused_iff : g.visited < g.count →
    ((∃ e, (s.call .next).1 = .error e) ↔ s.message.capacity < s.message.position + g.blockLength)
  unchanged : ∀ e t, s.call .next = (.error e, t) → t = s
  enters : ∀ r t, s.call .next = (.ok r, t) → ∃ g', r = .group g' ∧ t.scopes = .group g' :: outer ∧
    g'.index? = some g.visited ∧ g'.elementOffset = s.message.position ∧
    t.message.position = s.message.position + g.blockLength
  machine : s.message.capacity < 2 ^ (63 : Nat) →
    (Device.of s).call .next = ((s.call .next).1.mapError .refused, .of (s.call .next).2)
  walk : ∃ n, let t := (s.calls (List.replicate n .next)).2
    s.starts outer.length (List.replicate n .next) = (List.range n).map (s.message.position + · * g.blockLength) ∧
    (g.visited + n = g.count ∧ s.walk = (.ok (), t) ∨
      g.visited + n < g.count ∧ s.message.capacity < s.message.position + (n + 1) * g.blockLength ∧
        s.walk = (.error (beyond t.message g.blockLength), t))

theorem steps (hv : g.visited ≤ g.count) (hc : g.count < UInt64.size) : Steps g outer ⟨m, .group g :: outer⟩ := by
  let s := Session.mk m (.group g :: outer)
  have machine (hs : m.capacity < 2 ^ (63 : Nat)) := Device.call_of_realizes (s := s) (c := .next)
    (Device.realizes_perform hs trivial fun g' hg => by cases hg; exact hc)
  have refused {e : AccessError} (hcall : s.call .next = (.error e, s))
      (hend : e = .exhausted g.count ↔ g.visited = g.count)
      (hbeyond : g.visited < g.count → m.capacity < m.position + g.blockLength) : Steps g outer s := by
    refine ⟨?_, fun hlt => ?_, fun e' t ht => ?_, fun r t ht => ?_, machine, exists_walk hv⟩
    · simp [hcall, hend]
    · exact iff_of_true ⟨e, congrArg Prod.fst hcall⟩ (hbeyond hlt)
    · exact (congrArg Prod.snd (hcall.symm.trans ht)).symm
    · cases hcall.symm.trans ht
  by_cases hlt : g.visited < g.count
  · by_cases hle : m.position + g.blockLength ≤ m.capacity
    · have hcall : s.call .next = _ := call_next_enters hlt hle
      refine ⟨?_, fun _ => ?_, fun e t ht => ?_, fun r t ht => ?_, machine, exists_walk hv⟩
      · simp [s, hcall, Nat.ne_of_lt hlt]
      · simp [s, hcall, hle]
      · cases hcall.symm.trans ht
      · cases hcall.symm.trans ht
        exact ⟨_, rfl, rfl, if_neg (Nat.succ_ne_zero _), rfl, rfl⟩
    · have hbeyond := Nat.not_le.mp hle
      exact refused (call_next_beyond hlt hbeyond) (by simp [beyond, Nat.ne_of_lt hlt]) fun _ => hbeyond
  · have heq := Nat.le_antisymm hv (Nat.not_lt.mp hlt)
    exact refused (call_next_exhausted heq) (iff_of_true rfl heq) fun h => absurd h hlt

theorem scopes_opensGroup {s₀ : Session} (hc : c.OpensGroup) (h : s.call c = (.ok (.group g), s₀)) :
    s₀.scopes = .group g :: s.scopes ∧ g.visited = 0 ∧ g.Sound := by
  have hp := perform_of_call h
  cases c with
  | decodeGroup f =>
    obtain ⟨g', t, hpass, hp⟩ := bind_eq_ok_iff.mp hp
    obtain ⟨hm, hscopes⟩ := Step.pass_eq_ok_iff.mp hpass
    cases hp
    exact ⟨congrArg (.group g :: ·) hscopes, (Group.decode_fresh hm).1, Group.Sound.of_decode hm⟩
  | encodeGroup f count =>
    obtain ⟨g', t, hpass, hp⟩ := bind_eq_ok_iff.mp hp
    obtain ⟨hm, hscopes⟩ := Step.pass_eq_ok_iff.mp hpass
    cases hp
    refine ⟨congrArg (.group g :: ·) hscopes, ?_, Group.Sound.of_encode hm⟩
    rw [(Group.eq_of_encode hm).2]
  | _ => exact hc.elim

/-- A group is opened, and then anything is called that neither places the cursor nor leaves the group. At
every point of that run the group tells how many elements have been entered and where the last of them
starts; their blocks lie behind one another, and behind the group's own dimensions; and while nothing is open
in the element, the next one is entered at the cursor, unless all have been or it is not in the buffer. -/
theorem group_enters_its_elements {s₀ : Session} {cs : List Call} (hc : c.OpensGroup)
    (hopen : s.call c = (.ok (.group g), s₀)) (hcs : s₀.Along (Inside s.scopes.length) cs) :
    let t := (s₀.calls cs).2
    let xs := s₀.starts s.scopes.length cs
    .group (g.after xs) :: s.scopes <:+ t.scopes ∧ (g.after xs).visited = xs.length ∧ xs.length ≤ g.count ∧
      ((g.after xs).hasNext = false ↔ xs.length = g.count) ∧
      (xs.Pairwise fun x y => x + g.blockLength ≤ y) ∧
      (∀ x ∈ xs, s₀.message.position ≤ x ∧ x + g.blockLength ≤ t.message.position) ∧
      (t.scopes = .group (g.after xs) :: s.scopes → t.Steps (g.after xs) s.scopes) := by
  intro t xs
  obtain ⟨hscopes, hvisited, hsound⟩ := scopes_opensGroup hc hopen
  have hfresh : s₀.Walked g s.scopes s₀.message.position [] := by
    refine ⟨⟨[], hscopes.symm⟩, ?_, .nil, Nat.le_refl _, nofun⟩
    exact Nat.le_trans (Nat.le_of_eq hvisited) (Nat.zero_le _)
  have hwalked : t.Walked g s.scopes s₀.message.position xs := hfresh.calls cs hcs
  have hlength : (g.after xs).visited = xs.length := by
    rw [Group.visited_after, hvisited, Nat.zero_add]
  refine ⟨hwalked.suffix, hlength, hlength ▸ hwalked.visited_le, ?_, hwalked.apart, hwalked.within, fun ht => ?_⟩
  · rw [← hlength]
    exact Group.hasNext_eq_false_iff hwalked.visited_le
  · have hsteps : Steps (g.after xs) s.scopes ⟨t.message, .group (g.after xs) :: s.scopes⟩ :=
      steps hwalked.visited_le hsound.count_lt
    rw [← ht] at hsteps
    exact hsteps

/-- Two elements of one byte each. In the first of them there are a group of one element, and data. -/
def nested : Session := .ofBuffer {} #[1, 0, 2, 0, 7, 1, 0, 1, 0, 9, 1, 5, 8]

def visit : List Call :=
  [.next, .decodeGroup { blockLength := 1 }, .next, .leave, .readData { length := .w8 }, .next]

theorem group_enters_its_elements_nested :
    let s₀ := (nested.call (.decodeGroup { blockLength := 1 })).2
    s₀.Along (Inside 0) visit ∧ s₀.starts 0 visit = [4, 12] ∧
      ((s₀.calls visit).2.call .next).1 = .error (.exhausted 2) ∧ (s₀.calls visit).2.message.position = 13 := by
  intro s₀
  have halong : s₀.Along (Inside 0) visit :=
    ⟨⟨id, nofun⟩, ⟨id, nofun⟩, ⟨id, nofun⟩, ⟨id, fun _ => by decide⟩, ⟨id, nofun⟩, ⟨id, nofun⟩, trivial⟩
  have hstarts : s₀.starts 0 visit = [4, 12] := by decide +kernel
  have hopen : nested.call (.decodeGroup { blockLength := 1 }) = (.ok (.group ⟨1, 2, 0, 0⟩), s₀) := by rfl
  obtain ⟨-, hlength, -, -, -, -, hsteps⟩ := group_enters_its_elements (c := .decodeGroup _) trivial hopen halong
  refine ⟨halong, hstarts, ?_, by decide +kernel⟩
  have hscopes : (s₀.calls visit).2.scopes = [.group (Group.after ⟨1, 2, 0, 0⟩ (s₀.starts 0 visit))] := by
    decide +kernel
  exact (hsteps hscopes).exhausted_iff.mpr (hlength.trans (congrArg List.length hstarts))

end Session

end SimpleBinary
