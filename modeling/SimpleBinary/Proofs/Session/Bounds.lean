import SimpleBinary.Proofs.Machine.Realization
import SimpleBinary.Proofs.Session.Calls

/-!
# Whatever the buffer holds, a session stays in its bounds

Calls come in any order, with any descriptors, over any bytes, and go on after refusals. What every
call keeps is that the cursor is in the buffer and that no group has more elements behind it than it
has (`Session.Sound`); on a machine of 64-bit words, that is why no call faults.
-/

namespace SimpleBinary

/-! ## Groups -/

structure Group.Sound (g : Group) : Prop where
  visited_le : g.visited ≤ g.count
  count_lt : g.count < UInt64.size

theorem Width.max_lt (w : Width) : w.max < UInt64.size := by
  cases w <;> decide

namespace Group.Sound
variable {f : GroupFormat} {g g' : Group} {m m' : Message}

theorem of_decode (h : Group.decode f m = .ok g m') : g.Sound := by
  cases hv : m.actingVersion.includes f.since with
  | true =>
    obtain ⟨-, -, hc, h0, -⟩ := (decode_eq_ok_iff hv).mp h
    have hle := (UnsignedField.window_of_read hc).2
    exact ⟨by omega, Nat.lt_of_le_of_lt hle (Width.max_lt _)⟩
  | false =>
    rw [decode_newer hv] at h
    cases h
    exact ⟨Nat.le_refl _, show 0 < UInt64.size by decide⟩

theorem of_encode {count : Nat} (h : Group.encode f count m = .ok g m') : g.Sound := by
  obtain ⟨hle, rfl⟩ := eq_of_encode h
  exact ⟨Nat.zero_le _, Nat.lt_of_le_of_lt hle (Width.max_lt _)⟩

theorem of_next (hg : g.Sound) (h : g.next m = .ok g' m') : g'.Sound := by
  obtain ⟨hlt, -, rfl, -⟩ := next_eq_ok_iff.mp h
  exact ⟨hlt, hg.count_lt⟩

end Group.Sound

/-! ## Calls on a session -/

def Scope.Sound : Scope → Prop
  | group g => g.Sound
  | composite _ | root => True

namespace Session
variable {s : Session}

structure Sound (s : Session) : Prop where
  position_le : s.message.position ≤ s.message.capacity
  capacity_lt : s.message.capacity < 2 ^ (63 : Nat)
  scopes : ∀ x ∈ s.scopes, x.Sound

theorem sound_ofBuffer {template : Template} {buffer : Buffer} (h : buffer.size < 2 ^ (63 : Nat)) :
    (ofBuffer template buffer).Sound :=
  ⟨Nat.zero_le _, h, fun _ hx => nomatch hx⟩

theorem Sound.scopes_perform (h : s.Sound) (c : Call) : ∀ x ∈ (final (perform c s)).scopes, x.Sound := by
  intro x hx
  rcases mem_scopes_perform hx with hx | hx
  · exact h.scopes x hx
  · cases c with
    | openComposite f | enterComposite f =>
      obtain ⟨inner, -, rfl⟩ := hx
      trivial
    | move b | enterRoot =>
      obtain rfl := hx
      trivial
    | decodeGroup f =>
      obtain ⟨g, m, hg, rfl⟩ := hx
      exact Group.Sound.of_decode hg
    | encodeGroup f count =>
      obtain ⟨g, m, hg, rfl⟩ := hx
      exact Group.Sound.of_encode hg
    | next =>
      obtain ⟨g, g', m, hmem, hg, rfl⟩ := hx
      have hsound : g.Sound := h.scopes _ hmem
      exact Group.Sound.of_next hsound hg
    | _ => exact hx.elim

/-! ### Sound sessions -/

theorem sound_call {c : Call} (h : s.Sound) (hr : c.InRange s) : (s.call c).2.Sound := by
  rw [snd_call]
  by_cases hc : ∃ buffer, c = .swapBuffer buffer
  · obtain ⟨buffer, rfl⟩ := hc
    exact ⟨Nat.zero_le _, hr, h.scopes⟩
  · obtain ⟨hsize, hposition⟩ := contained_perform (not_exists.mp hc) s
    exact ⟨hposition h.position_le, hsize ▸ h.capacity_lt, h.scopes_perform c⟩

def InRange (s : Session) : List Call → Prop
  | [] => True
  | c :: rest => c.InRange s ∧ (s.call c).2.InRange rest

theorem sound_calls (cs : List Call) (h : s.Sound) (hr : s.InRange cs) : (s.calls cs).2.Sound := by
  induction cs generalizing s with
  | nil => exact h
  | cons c rest ih => exact ih (sound_call h hr.1) hr.2

end Session

/-! ## Runs on the machine -/

namespace Device
variable {s : Session}

theorem call_of_realizes {c : Call} (h : Realizes Device.of (perform c) (Session.perform c) s) :
    (Device.of s).call c = ((s.call c).1.mapError .refused, .of (s.call c).2) := by
  unfold Realizes at h
  unfold call Session.call
  rw [h]
  cases Session.perform c s <;> rfl

theorem call_of {c : Call} (h : s.Sound) (hr : c.InRange s) :
    (Device.of s).call c = ((s.call c).1.mapError .refused, .of (s.call c).2) := by
  refine call_of_realizes (realizes_perform h.capacity_lt hr fun g hg => ?_)
  have hsound : g.Sound := h.scopes _ (List.mem_of_mem_head? hg)
  exact hsound.count_lt

theorem mapError_ne_fault {α : Type} (x : Except AccessError α) : x.mapError .refused ≠ .error Trap.fault := by
  cases x <;> nofun

theorem calls_cons {d : Device} {c : Call} (h : (d.call c).1 ≠ .error .fault) (rest : List Call) :
    d.calls (c :: rest) = ((d.call c).1 :: ((d.call c).2.calls rest).1, ((d.call c).2.calls rest).2) := by
  rw [calls]
  generalize d.call c = r at h ⊢
  obtain ⟨answer, d'⟩ := r
  rcases answer with (e | _) | r
  · rfl
  · exact absurd rfl h
  · rfl

theorem calls_of (cs : List Call) (h : s.Sound) (hr : s.InRange cs) :
    (Device.of s).calls cs = ((s.calls cs).1.map (·.mapError .refused), .of (s.calls cs).2) := by
  induction cs generalizing s with
  | nil => rfl
  | cons c rest ih =>
    have hc := call_of h hr.1
    have hrest := ih (Session.sound_call h hr.1) hr.2
    have hanswer : ((Device.of s).call c).1 ≠ .error .fault := by
      rw [hc]
      exact mapError_ne_fault _
    rw [calls_cons hanswer, hc, hrest]
    rfl

structure InBounds (d : Device) : Prop where
  limit_eq : d.limit = d.session.message.buffer.size
  position_le : d.session.message.position ≤ d.limit
  visited_le : ∀ g, .group g ∈ d.session.scopes → g.visited ≤ g.count

theorem inBounds_of (h : s.Sound) : (Device.of s).InBounds where
  limit_eq := rfl
  position_le := h.position_le
  visited_le g hg := by
    have hsound : g.Sound := h.scopes _ hg
    exact hsound.visited_le

/-- Whatever is called, and whatever the buffer holds: no call faults, the answers and what is left are those
of the session, the device stays in its bounds, and the next call moves the cursor back only if it is one
that places it. -/
theorem calls_stay_in_bounds {template : Template} {buffer : Buffer} {cs : List Call}
    {answers : List (Except Trap Reply)} {d : Device} (hb : buffer.size < 2 ^ (63 : Nat))
    (hr : (Session.ofBuffer template buffer).InRange cs) (h : (ofBuffer template buffer).calls cs = (answers, d)) :
    (∀ answer ∈ answers, answer ≠ .error .fault) ∧
      answers = ((Session.ofBuffer template buffer).calls cs).1.map (·.mapError .refused) ∧
      d.session = ((Session.ofBuffer template buffer).calls cs).2 ∧ d.InBounds ∧
      ∀ c : Call, c.InRange d.session → ¬ c.Places →
        d.session.message.position ≤ (d.call c).2.session.message.position := by
  have hinitial : (Session.ofBuffer template buffer).Sound := Session.sound_ofBuffer hb
  have hsound := Session.sound_calls cs hinitial hr
  have hcalls := calls_of cs hinitial hr
  have hd := h.symm.trans hcalls
  obtain ⟨rfl, rfl⟩ := Prod.mk.inj hd
  refine ⟨fun answer ha => ?_, rfl, rfl, inBounds_of hsound, fun c hc hplaces => ?_⟩
  · obtain ⟨x, -, rfl⟩ := List.mem_map.mp ha
    exact mapError_ne_fault x
  · have hforward := Session.forward_perform hplaces ((Session.ofBuffer template buffer).calls cs).2
    rw [call_of hsound hc, Session.snd_call]
    exact hforward.2

/-- Every count and length in it is the greatest that there is. -/
def hostile : Buffer := Array.replicate 24 255

def widest : Dimensions where
  blockLength := ⟨0, .w64, .little⟩
  numInGroup := ⟨8, .w64, .little⟩
  size := 16

/-- Enters a group of 2 ^ 64 - 1 elements, each as long, and reads data of that length behind it. -/
def greedy : List Call :=
  [.decodeGroup ⟨0, 0, widest⟩, .next, .readData { length := .w64 }, .startDecode 20 9 0, .seek 25]

theorem calls_stay_in_bounds_hostile :
    (Session.ofBuffer {} hostile).InRange greedy ∧ ((ofBuffer {} hostile).calls greedy).2.InBounds ∧
      ((ofBuffer {} hostile).calls greedy).2.session.message.position = 24 := by
  have hr : (Session.ofBuffer {} hostile).InRange greedy :=
    And.intro ⟨by decide, by decide⟩ (And.intro trivial (And.intro trivial (And.intro trivial
      (And.intro (show 25 < UInt64.size by decide) trivial))))
  exact ⟨hr, (calls_stay_in_bounds (by decide) hr rfl).2.2.2.1, rfl⟩

end Device

end SimpleBinary
