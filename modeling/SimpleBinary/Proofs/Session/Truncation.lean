import SimpleBinary.Proofs.Message.Consumption
import SimpleBinary.Proofs.Session.Calls

/-!
# Messages cut short

A decoding pass is a run of calls that starts a message and then reads: groups, data, and fields
that lie in the block the session is in. What it answers depends on the bytes it has consumed and on
no others, and where one of these is missing the pass is refused: up to some call it answers as over
the whole buffer, and that call reports a bound.
-/

namespace SimpleBinary

theorem Buffer.agree_take (b : Buffer) (k start stop : Nat) : b.Agree (b.take k) start stop := by
  intro i _ _ hi
  rw [Array.take_eq_extract, Array.size_extract] at hi
  rw [Array.take_eq_extract, Array.getElem?_extract, if_pos (by omega), Nat.zero_add]

/-- An element has been entered, or there is no block yet. -/
def Group.extent (g : Group) : Nat := if g.visited = 0 then 0 else g.blockLength

theorem Group.decode_fresh {f : GroupFormat} {m m' : Message} {g : Group} (h : Group.decode f m = .ok g m') :
    g.visited = 0 ∧ g.elementOffset = m.position := by
  cases hv : m.actingVersion.includes f.since with
  | false =>
    rw [decode_newer hv] at h
    cases h
    exact ⟨rfl, rfl⟩
  | true =>
    obtain ⟨-, -, -, hvisited, hoffset, -⟩ := (decode_eq_ok_iff hv).mp h
    exact ⟨hvisited, hoffset⟩

namespace Session

def onto (s : Session) (t : Template) (b : Buffer) : Session := { s with message := s.message.onto t b }

def trace (s : Session) : List Call → List (Except AccessError Reply × Nat)
  | [] => []
  | c :: rest => ((s.call c).1, (s.call c).2.message.position) :: (s.call c).2.trace rest

/-- Where the root block or the element lies that the innermost block belongs to. -/
def acting (m : Message) : List Scope → Nat × Nat
  | [] | .root :: _ => (m.offset, m.offset + m.actingBlockLength)
  | .group g :: _ => (g.elementOffset, g.elementOffset + g.extent)
  | .composite _ :: outer => acting m outer

/-- The call reads, and if it reads in a block it stays in it. -/
def Reads (s : Session) : Call → Prop
  | .access a => ∃ l, a.lookup? = some l ∧
      l.Within s.block (acting s.message s.scopes).1 (acting s.message s.scopes).2
  | .openComposite f => s.block.version.includes f.since = true →
      (acting s.message s.scopes).1 ≤ s.block.base + f.offset ∧
        s.block.base + f.offset + f.size ≤ (acting s.message s.scopes).2
  | .decodeGroup f => f.dimensions.Bounded
  | .enterRoot | .next | .leave | .readData _ | .copyData .. => True
  | _ => False

def ReadsAll (s : Session) : List Call → Prop
  | [] => True
  | c :: rest => s.Reads c ∧ (s.call c).2.ReadsAll rest

structure Covered (start : Nat) (s : Session) : Prop where
  start_le : start ≤ s.message.offset
  root_le : s.message.offset + s.message.actingBlockLength ≤ s.message.position
  position_le : s.message.position ≤ s.message.capacity
  group_le : ∀ g, .group g ∈ s.scopes → start ≤ g.elementOffset ∧ g.elementOffset + g.extent ≤ s.message.position

namespace Covered
variable {start : Nat} {s : Session}

theorem acting_le (h : s.Covered start) :
    start ≤ (acting s.message s.scopes).1 ∧ (acting s.message s.scopes).2 ≤ s.message.position := by
  have hg := h.group_le
  revert hg
  induction s.scopes with
  | nil => exact fun _ => ⟨h.start_le, h.root_le⟩
  | cons scope outer ih =>
    intro hg
    cases scope with
    | group g => exact hg g List.mem_cons_self
    | composite b => exact ih fun g hg' => hg g (List.mem_cons_of_mem _ hg')
    | root => exact ⟨h.start_le, h.root_le⟩

theorem moved (h : s.Covered start) {m : Message} {scopes : List Scope} (hoffset : m.offset = s.message.offset)
    (hlength : m.actingBlockLength = s.message.actingBlockLength) (hp : s.message.position ≤ m.position)
    (hc : m.position ≤ m.capacity)
    (hg : ∀ g, .group g ∈ scopes → .group g ∈ s.scopes ∨
      start ≤ g.elementOffset ∧ g.elementOffset + g.extent ≤ m.position) : Covered start ⟨m, scopes⟩ where
  start_le := by rw [hoffset]; exact h.start_le
  root_le := by rw [hoffset, hlength]; exact Nat.le_trans h.root_le hp
  position_le := hc
  group_le g hm := by
    rcases hg g hm with hm | hm
    · exact ⟨(h.group_le g hm).1, Nat.le_trans (h.group_le g hm).2 hp⟩
    · exact hm

end Covered

/-! ## One call -/

structure Replays (start : Nat) (c : Call) (s : Session) (r : Reply) (s' : Session) : Prop where
  buffer_eq : s'.message.buffer = s.message.buffer
  position_le : s.message.position ≤ s'.message.position
  same : ∀ ⦃t b⦄, s.message.buffer.Agree b start s'.message.position → s'.message.position ≤ b.size →
    perform c (s.onto t b) = .ok r (s'.onto t b)
  refused : ∀ ⦃t b⦄, s.message.buffer.Agree b start s'.message.position → s.message.position ≤ b.size →
    b.size < s'.message.position → ∃ e u, perform c (s.onto t b) = .error e u ∧ e.IsBounds

section
variable {α : Type} {start : Nat} {s s' : Session} {c : Call} {r : Reply} {p : Pass α} {k : α → Step Reply}
  {a : α} {m : Message}

theorem block_onto (s : Session) (t : Template) (b : Buffer) : (s.onto t b).block = s.block := block_congr rfl rfl

theorem Step.pass_of_fallsShort (h : p.FallsShort s.message) : ∃ e u, Step.pass p s = .error e u ∧ e.IsBounds := by
  obtain ⟨e, m, he, hb⟩ := h
  exact ⟨e, { s with message := m }, Step.pass_eq_error_iff.mpr ⟨he, rfl⟩, hb⟩

theorem Covered.replays (hs : s.Covered start) {scopes : List Scope}
    (hcall : ∀ t b, perform c (s.onto t b) = (Step.pass p >>= k) (s.onto t b))
    (hp : p.Replays start s.message a m) (ha : p s.message = .ok a m)
    (hk : ∀ t b, k a ⟨m.onto t b, s.scopes⟩ = .ok r ⟨m.onto t b, scopes⟩)
    (hg : ∀ g, .group g ∈ scopes → .group g ∈ s.scopes ∨
      start ≤ g.elementOffset ∧ g.elementOffset + g.extent ≤ m.position) :
    Replays start c s r ⟨m, scopes⟩ ∧ Covered start ⟨m, scopes⟩ := by
  constructor
  · refine ⟨hp.buffer_eq, hp.position_le, fun t b hagree hb => ?_, fun t b hagree hm hb => ?_⟩
    · have hpass : Step.pass p (s.onto t b) = .ok a ⟨m.onto t b, s.scopes⟩ :=
        Step.pass_eq_ok_iff.mpr ⟨hp.same hagree hb, rfl⟩
      rw [hcall]
      exact bind_eq_ok_iff.mpr ⟨a, _, hpass, hk t b⟩
    · have hshort : p.FallsShort (s.onto t b).message := hp.refused hagree hm hb
      obtain ⟨e, u, he, hbounds⟩ := Step.pass_of_fallsShort hshort
      exact ⟨e, u, (hcall t b).trans (bind_eq_error_iff.mpr (.inl he)), hbounds⟩
  · have hoffset : m.offset = s.message.offset := by rw [hp.frame]
    have hlength : m.actingBlockLength = s.message.actingBlockLength := by rw [hp.frame]
    exact hs.moved hoffset hlength hp.position_le (hp.position_le_capacity ha hs.position_le) hg

theorem Covered.replays_scopes (hs : s.Covered start) {scopes : List Scope}
    (hcall : ∀ t b, perform c (s.onto t b) = .ok r ⟨s.message.onto t b, scopes⟩)
    (hg : ∀ g, .group g ∈ scopes → .group g ∈ s.scopes) :
    Replays start c s r ⟨s.message, scopes⟩ ∧ Covered start ⟨s.message, scopes⟩ :=
  hs.replays (p := pure ()) (k := fun _ => perform c) (fun _ _ => rfl) .pure rfl hcall fun g hm => .inl (hg g hm)

def opened : Option Block → Step Reply
  | some inner => do Step.push (.composite inner); return .block inner
  | none => return .absent

theorem replays_perform (hs : s.Covered start) (hc : s.Reads c) (h : perform c s = .ok r s') :
    Replays start c s r s' ∧ s'.Covered start := by
  obtain ⟨hbelow, habove⟩ := hs.acting_le
  have hstart : start ≤ s.message.position :=
    Nat.le_trans (Nat.le_trans hs.start_le (Nat.le_add_right ..)) hs.root_le
  cases c with
  | access a =>
    obtain ⟨l, hl, hin⟩ := hc
    obtain ⟨hm, hscopes⟩ := Step.pass_eq_ok_iff.mp h
    obtain ⟨m, scopes⟩ := s'
    cases hscopes
    have hwithin : l.Within s.block start s.message.position := fun hp =>
      ⟨Nat.le_trans hbelow (hin hp).1, Nat.le_trans (hin hp).2 habove⟩
    refine hs.replays (k := pure) (fun t b => ?_) (Pass.Replays.access hl hwithin hm) hm (fun t b => rfl)
      fun g hg => .inl hg
    rw [bind_pure, ← block_onto s t b]
    rfl
  | openComposite f =>
    obtain ⟨_, _, hget, hrest⟩ := bind_eq_ok_iff.mp h
    cases hget
    obtain ⟨inner, ⟨m, scopes⟩, hpass, hk⟩ := bind_eq_ok_iff.mp hrest
    obtain ⟨hm, hscopes⟩ := Step.pass_eq_ok_iff.mp hpass
    obtain ⟨hinner, rfl⟩ := Pass.look_eq_ok_iff.mp hm
    cases hscopes
    have hwithin := fun hv => And.intro (Nat.le_trans hbelow (hc hv).1) (Nat.le_trans (hc hv).2 habove)
    have hp := Pass.Replays.composite hwithin hinner
    have hcall (t : Template) (b : Buffer) : perform (.openComposite f) (s.onto t b) =
        (Step.pass (Pass.look fun m => s.block.composite? f m.buffer) >>= opened) (s.onto t b) := by
      rw [← block_onto s t b]
      rfl
    cases inner with
    | none =>
      cases hk
      exact hs.replays hcall hp hm (fun t b => rfl) fun g hg => .inl hg
    | some inner =>
      cases hk
      refine hs.replays hcall hp hm (fun t b => rfl) fun g hg => ?_
      cases hg with
      | tail _ hg => exact .inl hg
  | enterRoot =>
    cases h
    refine hs.replays_scopes (fun t b => rfl) fun g hg => ?_
    cases hg with
    | tail _ hg => exact hg
  | decodeGroup f =>
    obtain ⟨g, ⟨m, scopes⟩, hpass, hk⟩ := bind_eq_ok_iff.mp h
    obtain ⟨hm, hscopes⟩ := Step.pass_eq_ok_iff.mp hpass
    cases hscopes
    cases hk
    refine hs.replays (fun t b => rfl) (Group.replays_decode hc hstart hm) hm (fun t b => rfl) fun g' hg => ?_
    cases hg with
    | tail _ hg => exact .inl hg
    | head =>
      obtain ⟨hvisited, hoffset⟩ := Group.decode_fresh hm
      have hextent : g.extent = 0 := if_pos hvisited
      have hle := (Group.replays_decode hc hstart hm).position_le
      rw [hoffset, hextent]
      exact .inr ⟨hstart, hle⟩
  | next =>
    obtain ⟨m₀, scopes⟩ := s
    rcases scopes with _ | ⟨g | b | _, outer⟩
    · cases h
      exact hs.replays_scopes (fun t b => rfl) fun g hg => hg
    · obtain ⟨_, _, hget, hrest⟩ := bind_eq_ok_iff.mp h
      cases hget
      obtain ⟨g', ⟨m, scopes⟩, hpass, hk⟩ := bind_eq_ok_iff.mp hrest
      obtain ⟨hm, hscopes⟩ := Step.pass_eq_ok_iff.mp hpass
      cases hscopes
      cases hk
      refine hs.replays (fun t b => rfl) (Group.replays_next hm) hm (fun t b => rfl) fun g'' hg => ?_
      cases hg with
      | tail _ hg => exact .inl (List.mem_cons_of_mem _ hg)
      | head =>
        obtain ⟨-, -, rfl, rfl⟩ := Group.next_eq_ok_iff.mp hm
        exact .inr ⟨hstart, Nat.le_refl _⟩
    · cases h
      exact hs.replays_scopes (fun t b => rfl) fun g hg => hg
    · cases h
      exact hs.replays_scopes (fun t b => rfl) fun g hg => hg
  | leave =>
    obtain ⟨m₀, scopes⟩ := s
    cases scopes with
    | nil =>
      cases h
      exact hs.replays_scopes (fun t b => rfl) fun g hg => hg
    | cons scope outer =>
      cases h
      exact hs.replays_scopes (fun t b => rfl) fun g hg => List.mem_cons_of_mem _ hg
  | readData f =>
    obtain ⟨bytes, hpass, rfl⟩ := map_eq_ok_iff.mp h
    obtain ⟨hm, hscopes⟩ := Step.pass_eq_ok_iff.mp hpass
    obtain ⟨m, scopes⟩ := s'
    cases hscopes
    exact hs.replays (k := fun bytes => pure (.data bytes)) (fun t b => rfl) (DataFormat.replays_read hstart hm) hm
      (fun t b => rfl) fun g hg => .inl hg
  | copyData f dst =>
    obtain ⟨answer, hpass, rfl⟩ := map_eq_ok_iff.mp h
    obtain ⟨hm, hscopes⟩ := Step.pass_eq_ok_iff.mp hpass
    obtain ⟨m, scopes⟩ := s'
    cases hscopes
    exact hs.replays (k := fun copied => pure (.copied copied.1 copied.2)) (fun t b => rfl)
      (DataFormat.replays_copy hstart hm) hm (fun t b => rfl) fun g hg => .inl hg
  | enterComposite | move | encodeGroup | writeData | seek | startEncode | startDecode | encodeHeader
  | decodeHeader | swapBuffer => exact hc.elim

end

/-! ## A run of calls -/

section
variable {start : Nat} {s s' u u' : Session} {c : Call} {r : Reply} {e : AccessError} {cs : List Call}

/-- Up to a call that reports a bound, `u` answers as `s` does. -/
def CutShort (s u : Session) (cs : List Call) : Prop :=
  ∃ i e position, (u.trace cs)[i]? = some (.error e, position) ∧ e.IsBounds ∧
    (u.trace cs).take i = (s.trace cs).take i

theorem trace_cons_of_ok (h : perform c s = .ok r s') :
    s.trace (c :: cs) = (.ok r, s'.message.position) :: s'.trace cs := by
  rw [trace, call_of_ok h]

theorem trace_cons_of_error (h : perform c s = .error e s') :
    s.trace (c :: cs) = (.error e, s'.message.position) :: s'.trace cs := by
  rw [trace, call_of_error h]

theorem call_snd_of_ok (h : perform c s = .ok r s') : (s.call c).2 = s' := congrArg Prod.snd (call_of_ok h)

theorem calls_cons_of_ok (h : perform c s = .ok r s') : (s.calls (c :: cs)).2 = (s'.calls cs).2 := by
  show ((s.call c).2.calls cs).2 = _
  rw [call_snd_of_ok h]

theorem exists_ok (h : ∀ a ∈ s.trace (c :: cs), a.1.isOk = true) : ∃ r s', perform c s = .ok r s' := by
  cases hp : perform c s with
  | ok r s' => exact ⟨r, s', rfl⟩
  | error e s' =>
    rw [trace_cons_of_error hp] at h
    have := h _ List.mem_cons_self
    cases this

theorem CutShort.of_error (h : perform c u = .error e u') (hb : e.IsBounds) : s.CutShort u (c :: cs) := by
  refine ⟨0, e, u'.message.position, ?_, hb, ?_⟩
  · rw [trace_cons_of_error h, List.getElem?_cons_zero]
  · rw [List.take_zero, List.take_zero]

theorem CutShort.cons (h : s'.CutShort u' cs) (hs : perform c s = .ok r s') (hu : perform c u = .ok r u')
    (hp : u'.message.position = s'.message.position) : s.CutShort u (c :: cs) := by
  obtain ⟨i, e, position, he, hb, ht⟩ := h
  refine ⟨i + 1, e, position, ?_, hb, ?_⟩
  · rw [trace_cons_of_ok hu, List.getElem?_cons_succ]
    exact he
  · rw [trace_cons_of_ok hu, trace_cons_of_ok hs, hp, List.take_succ_cons, List.take_succ_cons, ht]

theorem position_le_calls (hs : s.Covered start) (hr : s.ReadsAll cs) (hok : ∀ a ∈ s.trace cs, a.1.isOk = true) :
    s.message.position ≤ (s.calls cs).2.message.position := by
  induction cs generalizing s with
  | nil => exact Nat.le_refl _
  | cons c cs ih =>
    obtain ⟨hc, hrest⟩ := hr
    obtain ⟨r, s', h⟩ := exists_ok hok
    rw [trace_cons_of_ok h] at hok
    rw [call_snd_of_ok h] at hrest
    obtain ⟨hcall, hs'⟩ := replays_perform hs hc h
    rw [calls_cons_of_ok h]
    exact Nat.le_trans hcall.position_le (ih hs' hrest fun a ha => hok a (List.mem_cons_of_mem _ ha))

theorem trace_onto (hs : s.Covered start) (hr : s.ReadsAll cs) (hok : ∀ a ∈ s.trace cs, a.1.isOk = true)
    {t : Template} {b : Buffer} (ha : s.message.buffer.Agree b start (s.calls cs).2.message.position)
    (hm : s.message.position ≤ b.size) :
    ((s.calls cs).2.message.position ≤ b.size → (s.onto t b).trace cs = s.trace cs) ∧
      (b.size < (s.calls cs).2.message.position → s.CutShort (s.onto t b) cs) := by
  induction cs generalizing s with
  | nil => exact ⟨fun _ => rfl, fun hb => absurd hm (Nat.not_le.mpr hb)⟩
  | cons c cs ih =>
    obtain ⟨hc, hrest⟩ := hr
    obtain ⟨r, s', h⟩ := exists_ok hok
    rw [trace_cons_of_ok h] at hok
    rw [call_snd_of_ok h] at hrest
    rw [calls_cons_of_ok h] at ha ⊢
    have hok' : ∀ a ∈ s'.trace cs, a.1.isOk = true := fun a ha => hok a (List.mem_cons_of_mem _ ha)
    obtain ⟨hcall, hs'⟩ := replays_perform hs hc h
    have hle := position_le_calls hs' hrest hok'
    have hagree := ha.mono hle
    rw [← hcall.buffer_eq] at ha
    have ih' := ih hs' hrest hok' ha
    constructor
    · intro hb
      have hb' := Nat.le_trans hle hb
      rw [trace_cons_of_ok (hcall.same hagree hb'), trace_cons_of_ok h, (ih' hb').1 hb]
      rfl
    · intro hb
      rcases Nat.lt_or_ge b.size s'.message.position with hlt | hge
      · obtain ⟨e, u, he, hbounds⟩ := hcall.refused hagree hm hlt
        exact .of_error he hbounds
      · exact ((ih' hge).2 hb).cons h (hcall.same hagree hge) rfl

end

/-! ## The whole pass -/

section
variable {s u : Session} {offset blockLength : Nat} (version : Version) {calls : List Call}

def started (s : Session) (offset blockLength : Nat) (version : Version) : Session :=
  { s with message := s.message.started offset blockLength version }

theorem perform_startDecode_of_le (h : offset + blockLength ≤ u.message.capacity) :
    perform (.startDecode offset blockLength version) u = .ok .done (u.started offset blockLength version) :=
  map_eq_ok_iff.mpr ⟨(), Step.pass_eq_ok_iff.mpr ⟨Message.start_eq_ok_iff.mpr ⟨h, rfl⟩, rfl⟩, rfl⟩

theorem perform_startDecode_of_lt (h : u.message.capacity < offset + blockLength) :
    ∃ e u', perform (.startDecode offset blockLength version) u = .error e u' ∧ e.IsBounds := by
  have hshort : (Message.startDecode offset blockLength version).FallsShort u.message :=
    .after rfl ⟨_, _, if_neg (Nat.not_le.mpr h), trivial⟩
  obtain ⟨e, u', he, hb⟩ := Step.pass_of_fallsShort hshort
  exact ⟨e, u', map_eq_error_iff.mpr he, hb⟩

theorem started_eq_onto (h : u.scopes = s.scopes) : u.started offset blockLength version =
    (s.started offset blockLength version).onto u.message.template u.message.buffer := by
  unfold started onto
  rw [h]
  rfl

theorem covered_started (hopen : s.scopes = []) (h : offset + blockLength ≤ s.message.capacity) :
    Covered offset (s.started offset blockLength version) where
  start_le := Nat.le_refl _
  root_le := Nat.le_refl _
  position_le := h
  group_le g hg := by
    unfold started at hg
    rw [hopen] at hg
    cases hg

variable {version}

/-- A decoding pass that succeeds answers the same wherever the bytes that it consumed are the same, and
is refused where the buffer ends before the last of them. -/
theorem decode_depends_on_consumed (hopen : s.scopes = [])
    (hreads : (s.call (.startDecode offset blockLength version)).2.ReadsAll calls)
    (hok : ∀ a ∈ s.trace (.startDecode offset blockLength version :: calls), a.1.isOk = true) :
    let pass := .startDecode offset blockLength version :: calls
    let stop := (s.calls pass).2.message.position
    ∀ u : Session, u.scopes = [] →
      (s.message.buffer.Agree u.message.buffer offset stop → stop ≤ u.message.capacity →
        u.trace pass = s.trace pass) ∧
      ∀ k < stop, u.message.buffer = s.message.buffer.take k → s.CutShort u pass := by
  intro pass stop u hu
  have hcapacity : offset + blockLength ≤ s.message.capacity := by
    obtain ⟨r, s', h⟩ := exists_ok hok
    rcases Nat.lt_or_ge s.message.capacity (offset + blockLength) with hlt | hge
    · obtain ⟨e, u', he, -⟩ := perform_startDecode_of_lt version hlt
      rw [he] at h
      cases h
    · exact hge
  have hstart := perform_startDecode_of_le version hcapacity
  have hcovered := covered_started version hopen hcapacity
  have hstop : stop = ((s.started offset blockLength version).calls calls).2.message.position :=
    congrArg (·.message.position) (calls_cons_of_ok hstart)
  rw [call_snd_of_ok hstart] at hreads
  rw [trace_cons_of_ok hstart] at hok
  have hrest : ∀ a ∈ (s.started offset blockLength version).trace calls, a.1.isOk = true :=
    fun a ha => hok a (List.mem_cons_of_mem _ ha)
  have hle : offset + blockLength ≤ stop := hstop ▸ position_le_calls hcovered hreads hrest
  have hrun := trace_onto (t := u.message.template) (b := u.message.buffer) hcovered hreads hrest
  rw [← hstop, ← started_eq_onto version (hu.trans hopen.symm)] at hrun
  constructor
  · intro ha hc
    have hcu := Nat.le_trans hle hc
    rw [trace_cons_of_ok (perform_startDecode_of_le version hcu), trace_cons_of_ok hstart, (hrun ha hcu).1 hc]
    rfl
  · intro k hk hcut
    have ha : s.message.buffer.Agree u.message.buffer offset stop := by
      rw [hcut]
      exact Buffer.agree_take _ k _ _
    have hsize : u.message.capacity < stop := by
      unfold Message.capacity
      rw [hcut, Array.take_eq_extract, Array.size_extract]
      omega
    rcases Nat.lt_or_ge u.message.capacity (offset + blockLength) with hlt | hge
    · obtain ⟨e, u', he, hb⟩ := perform_startDecode_of_lt version hlt
      exact .of_error he hb
    · exact ((hrun ha hge).2 hsize).cons hstart (perform_startDecode_of_le version hge) rfl

end

/-- One byte in front of a root block of two bytes, a group with one element, data, and one byte behind. The root
block is read once more from the group. -/
def pouch : Session := .ofBuffer {} #[9, 5, 1, 1, 0, 1, 0, 7, 2, 1, 2, 9]

def pouchCalls : List Call :=
  let field : Field (.unsigned .w8) := { offset := 0 }
  [.access (.get field), .decodeGroup { blockLength := 1 }, .next, .access (.get field), .enterRoot,
    .access (.get field), .leave, .leave, .readData { length := .w8 }]

theorem decode_depends_on_consumed_pouch :
    Session.trace (.ofBuffer {} #[0, 5, 1, 1, 0, 1, 0, 7, 2, 1, 2]) (.startDecode 1 2 0 :: pouchCalls) =
        pouch.trace (.startDecode 1 2 0 :: pouchCalls) ∧
      ∀ k < 11, pouch.CutShort (.ofBuffer {} (#[9, 5, 1, 1, 0, 1, 0, 7, 2, 1, 2, 9].take k))
        (.startDecode 1 2 0 :: pouchCalls) := by
  have hreads : (pouch.call (.startDecode 1 2 0)).2.ReadsAll pouchCalls :=
    ⟨⟨_, rfl, fun _ => by decide⟩, ⟨by decide, by decide⟩, trivial, ⟨_, rfl, fun _ => by decide⟩, trivial,
      ⟨_, rfl, fun _ => by decide⟩, trivial, trivial, trivial, trivial⟩
  have hok : ∀ a ∈ pouch.trace (.startDecode 1 2 0 :: pouchCalls), a.1.isOk = true := by decide
  have hagree : ∀ i < 11, 1 ≤ i → #[0, 5, 1, 1, 0, 1, 0, 7, 2, 1, 2][i]? = pouch.message.buffer[i]? := by decide
  have hstop : (pouch.calls (.startDecode 1 2 0 :: pouchCalls)).2.message.position = 11 := by decide +kernel
  have hpass := decode_depends_on_consumed (s := pouch) rfl hreads hok
  simp only [hstop] at hpass
  constructor
  · exact (hpass _ rfl).1 (fun i h hi _ => hagree i hi h) (by decide)
  · intro k hk
    exact (hpass (.ofBuffer {} _) rfl).2 k hk rfl

end Session

end SimpleBinary
