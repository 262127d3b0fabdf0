import SimpleBinary.Proofs.Block.Lookup
import SimpleBinary.Proofs.Message.Decoding
import SimpleBinary.Proofs.Session.Calls

/-!
# Descriptors newer than the data

Whatever is read has a version since which it exists. Data that was written at an earlier one does not
have it, so the absent value is answered, and neither the buffer nor the cursor matters. Where the data
is recent enough the descriptor works as one that has existed from the start. In the elements of a group
and in composites the version is that of the message, however they were come by.
-/

namespace SimpleBinary

/-- Since which version there is something to be read, and what is answered of older data. -/
structure Gate where
  since : Version
  absent : Reply

namespace Access

/-- A choice is there as soon as its set is there too. Elements that an array does not have, and copies to
where there is no room, are refused at all versions. -/
def gate? : Access → Option Gate
  | @get c f => some ⟨f.since, .value c f.null⟩
  | @getElement c f index => if index < f.length then some ⟨f.since, .value c f.null⟩ else none
  | getArray f dst => if f.length ≤ dst.length then some ⟨f.since, .copied 0 dst⟩ else none
  | @getVariant e f => some ⟨f.since, .variant e none⟩
  | @getBits w f => some ⟨f.since, .value (.unsigned w) 0⟩
  | getChoice f choice => some ⟨max choice.since f.since, .flag false⟩
  | put .. | putElement .. | putArray .. | putVariant .. | putBits .. | putChoice .. => none

def unversioned : Access → Access
  | get f => get { f with since := 0 }
  | getElement f index => getElement { f with since := 0 } index
  | getArray f dst => getArray { f with since := 0 } dst
  | @getVariant e f => @getVariant e { f with since := 0 }
  | @getBits w f => @getBits w { f with since := 0 }
  | @getChoice w f choice => @getChoice w { f with since := 0 } { choice with since := 0 }
  | put f v => put { f with since := 0 } v
  | putElement f index v => putElement { f with since := 0 } index v
  | putArray f src => putArray { f with since := 0 } src
  | @putVariant e f v => @putVariant e { f with since := 0 } v
  | @putBits w f raw => @putBits w { f with since := 0 } raw
  | @putChoice w f choice value => @putChoice w { f with since := 0 } { choice with since := 0 } value

end Access

namespace Version
variable {acting since : Version}

theorem includes_of_le (h : since ≤ acting) : acting.includes since = true := includes_iff.mpr h

theorem includes_of_lt (h : acting < since) : acting.includes since = false := by
  rw [Bool.eq_false_iff, Ne, includes_iff, UInt16.not_le]
  exact h

theorem includes_zero (acting : Version) : acting.includes 0 = true := includes_of_le UInt16.zero_le

end Version

/-! ## Blocks -/

namespace Block
variable {b : Block} {since : Version}

theorem fetch_unversioned (h : since ≤ b.version) (offset width : Nat) (buffer : Buffer) :
    b.fetch since offset width buffer = b.fetch 0 offset width buffer := by
  unfold fetch
  rw [Version.includes_of_le h, Version.includes_zero]

variable {c : Carrier}

theorem composite?_unversioned {f : CompositeField} (h : f.since ≤ b.version) :
    b.composite? { f with since := 0 } = b.composite? f := by
  funext buffer
  unfold composite?
  rw [Version.includes_of_le h, Version.includes_zero]
  rfl

theorem composite?_newer {f : CompositeField} (h : b.version < f.since) (buffer : Buffer) :
    b.composite? f buffer = .ok none := by
  unfold composite?
  rw [Version.includes_of_lt h]
  rfl

theorem getElement_unversioned {f : ArrayField c} {index : Nat} (h : index < f.length → f.since ≤ b.version) :
    b.getElement { f with since := 0 } index = b.getElement f index := by
  have heq : ({ f with since := 0 } : ArrayField c).elementOffset index = f.elementOffset index := rfl
  funext buffer
  unfold getElement
  by_cases hi : index < f.length
  · simp only [fetch_unversioned (h hi), heq]
  · have he : f.elementOffset index = .error (.indexOutOfRange index f.length) := if_neg hi
    simp only [heq, he]
    rfl

theorem getArray_unversioned {f : ByteArrayField} {dst : Bytes} (h : f.length ≤ dst.length → f.since ≤ b.version) :
    b.getArray { f with since := 0 } dst = b.getArray f dst := by
  funext buffer
  unfold getArray
  by_cases hd : dst.length < f.length
  · simp only [hd, if_true]
    rfl
  · simp only [hd, fetch_unversioned (h (Nat.not_lt.mp hd))]

end Block

namespace Access
variable {a : Access} {b : Block} {g : Gate}

theorem exists_lookup (hg : a.gate? = some g) :
    ∃ l, a.lookup? = some l ∧ l.absent = g.absent ∧ ∀ v, v < g.since → l.present v = false := by
  cases a with
  | get | getVariant | getBits =>
    cases hg
    exact ⟨_, rfl, rfl, fun v hv => Version.includes_of_lt hv⟩
  | getElement f index =>
    obtain ⟨hi, hg⟩ := Option.ite_none_right_eq_some.mp hg
    cases hg
    exact ⟨_, if_pos hi, rfl, fun v hv => Version.includes_of_lt hv⟩
  | getArray f dst =>
    obtain ⟨hd, hg⟩ := Option.ite_none_right_eq_some.mp hg
    cases hg
    exact ⟨_, if_neg (Nat.not_lt.mpr hd), rfl, fun v hv => Version.includes_of_lt hv⟩
  | getChoice f choice =>
    cases hg
    refine ⟨_, rfl, rfl, fun v hv => ?_⟩
    rcases Version.lt_max_iff.mp hv with hv | hv <;> simp [Version.includes_of_lt hv]
  | put | putElement | putArray | putVariant | putBits | putChoice => cases hg

theorem perform_newer (hg : a.gate? = some g) (h : b.version < g.since) (buffer : Buffer) :
    a.perform b buffer = .ok g.absent buffer := by
  obtain ⟨l, hl, habsent, hpresent⟩ := exists_lookup hg
  rw [perform_eq_look hl]
  refine Edit.look_eq_ok_iff.mpr ⟨?_, rfl⟩
  simp [Lookup.perform, hpresent _ h, habsent]

theorem perform_unversioned (h : ∀ g, a.gate? = some g → g.since ≤ b.version) :
    a.unversioned.perform b = a.perform b := by
  cases a with
  | get f =>
    unfold unversioned perform Block.get
    simp only [Block.fetch_unversioned (h _ rfl)]
  | getElement f index =>
    have hread := Block.getElement_unversioned fun hi => h _ (if_pos hi)
    exact congrArg (fun read => _ <$> Edit.look read) hread
  | getArray f dst =>
    have hread := Block.getArray_unversioned fun hd => h _ (if_pos hd)
    exact congrArg (fun read => _ <$> Edit.look read) hread
  | getVariant f =>
    unfold unversioned perform Block.getVariant
    simp only [Block.fetch_unversioned (h _ rfl)]
  | getBits f =>
    unfold unversioned perform Block.getBits
    simp only [Block.fetch_unversioned (h _ rfl)]
  | getChoice f choice =>
    obtain ⟨hc, hf⟩ := Version.max_le_iff.mp (h _ rfl)
    unfold unversioned perform Block.getChoice Block.getBits
    simp only [Version.includes_of_le hc, Version.includes_zero, Block.fetch_unversioned hf]
    rfl
  | put | putElement | putArray | putVariant | putBits | putChoice => rfl

end Access

/-! ## Sections -/

section
variable {m : Message}

theorem bind_congr_left {ε σ α β : Type} {p q : EStateM ε σ α} {f : α → EStateM ε σ β} {s : σ} (h : p s = q s) :
    (p >>= f) s = (q >>= f) s := bind_congr_ok h fun _ _ _ => rfl

theorem map_congr_left {ε σ α β : Type} {p q : EStateM ε σ α} {f : α → β} {s : σ} (h : p s = q s) :
    (f <$> p) s = (f <$> q) s := by
  show EStateM.map f p s = EStateM.map f q s
  unfold EStateM.map
  rw [h]

def GroupFormat.absent (f : GroupFormat) (position : Nat) : Group := ⟨f.blockLength, 0, 0, position⟩

theorem Group.decode_unversioned {f : GroupFormat} (h : f.since ≤ m.actingVersion) :
    Group.decode { f with since := 0 } m = Group.decode f m := by
  unfold Group.decode
  simp only [get_bind, Version.includes_of_le h, Version.includes_zero]

namespace DataFormat
variable {f : DataFormat}

theorem take_unversioned (h : f.since ≤ m.actingVersion) : take { f with since := 0 } m = f.take m := by
  have hsize : lengthSize { f with since := 0 } = f.lengthSize := rfl
  unfold take
  simp only [get_bind, Version.includes_of_le h, Version.includes_zero, hsize]

theorem read_unversioned (h : f.since ≤ m.actingVersion) : read { f with since := 0 } m = f.read m :=
  bind_congr_left (take_unversioned h)

theorem copy_unversioned (h : f.since ≤ m.actingVersion) (dst : Bytes) :
    copy { f with since := 0 } dst m = f.copy dst m :=
  bind_congr_left (take_unversioned h)

end DataFormat

end

/-! ## Calls -/

def Call.unversioned : Call → Call
  | access a => access a.unversioned
  | openComposite f => openComposite { f with since := 0 }
  | enterComposite f => enterComposite { f with since := 0 }
  | decodeGroup f => decodeGroup { f with since := 0 }
  | encodeGroup f count => encodeGroup { f with since := 0 } count
  | readData f => readData { f with since := 0 }
  | copyData f dst => copyData { f with since := 0 } dst
  | writeData f src => writeData { f with since := 0 } src
  | c => c

def Call.GoesOn (v : Version) : Call → Prop
  | startEncode _ | startDecode .. | encodeHeader .. | decodeHeader .. => False
  | move b => b.version = v
  | _ => True

namespace Session

def gate? (s : Session) : Call → Option Gate
  | .access a => a.gate?
  | .openComposite f => some ⟨f.since, .absent⟩
  | .decodeGroup f => some ⟨f.since, .group (f.absent s.message.position)⟩
  | .readData f => some ⟨f.since, .data []⟩
  | .copyData f dst => some ⟨f.since, .copied 0 dst⟩
  | _ => none

def versionFor (s : Session) : Call → Version
  | .access _ | .openComposite _ => s.block.version
  | _ => s.message.actingVersion

/-- What is left by a call that has found nothing: an absent group is open, and has no elements. -/
def passing (s : Session) : Call → Session
  | .decodeGroup f => { s with scopes := .group (f.absent s.message.position) :: s.scopes }
  | _ => s

section
variable {s s' : Session} {c : Call} {g : Gate}

theorem call_newer (hg : s.gate? c = some g) (h : s.versionFor c < g.since) :
    s.call c = (.ok g.absent, s.passing c) := by
  have pass {α : Type} {p : Pass α} {a : α} (hp : p s.message = .ok a s.message) : Step.pass p s = .ok a s :=
    Step.pass_eq_ok_iff.mpr ⟨hp, rfl⟩
  refine call_of_ok ?_
  cases c with
  | access a =>
    exact pass (Pass.edit_eq_ok_iff.mpr ⟨s.message.buffer, Access.perform_newer hg h _, rfl⟩)
  | openComposite f =>
    cases hg
    have hlook : Step.pass (Pass.look fun m => s.block.composite? f m.buffer) s = .ok none s :=
      pass (Pass.look_eq_ok_iff.mpr ⟨Block.composite?_newer h _, rfl⟩)
    exact (bind_of_ok hlook).trans rfl
  | decodeGroup f =>
    cases hg
    exact (bind_of_ok (pass (Group.decode_newer (Version.includes_of_lt h)))).trans rfl
  | readData f =>
    cases hg
    exact map_eq_ok_iff.mpr ⟨_, pass (DataFormat.read_newer (Version.includes_of_lt h)), rfl⟩
  | copyData f dst =>
    cases hg
    exact map_eq_ok_iff.mpr ⟨_, pass (DataFormat.copy_newer (Version.includes_of_lt h) dst), rfl⟩
  | _ => cases hg

theorem call_unversioned (h : ∀ g, s.gate? c = some g → g.since ≤ s.versionFor c) :
    s.call c.unversioned = s.call c := by
  have pass {α : Type} {p q : Pass α} (hp : p s.message = q s.message) : Step.pass p s = Step.pass q s := by
    unfold Step.pass
    rw [hp]
  have hperform : perform c.unversioned s = perform c s := by
    cases c with
    | access a =>
      show Step.pass (Pass.edit (a.unversioned.perform s.block)) s = Step.pass (Pass.edit (a.perform s.block)) s
      rw [Access.perform_unversioned h]
    | openComposite f =>
      refine bind_congr_left (p := Step.pass (Pass.look fun m => s.block.composite? { f with since := 0 } m.buffer)) ?_
      rw [Block.composite?_unversioned (h _ rfl)]
    | decodeGroup f => exact bind_congr_left (pass (Group.decode_unversioned (h _ rfl)))
    | readData f => exact map_congr_left (pass (DataFormat.read_unversioned (h _ rfl)))
    | copyData f dst => exact map_congr_left (pass (DataFormat.copy_unversioned (h _ rfl) dst))
    | _ => rfl
  unfold call
  rw [hperform]

/-! ## Versions of blocks -/

theorem version_enter {b inner : Block} {f : CompositeField} {buffer : Buffer} (h : b.enter f buffer = .ok inner) :
    inner.version = b.version := by
  unfold Block.enter at h
  cases hw : buffer.window (b.base + f.offset) f.size with
  | ok raw =>
    rw [hw] at h
    cases h
    rfl
  | error e =>
    rw [hw] at h
    cases h

theorem enter_of_composite? {b inner : Block} {f : CompositeField} {buffer : Buffer}
    (h : b.composite? f buffer = .ok (some inner)) : b.enter f buffer = .ok inner := by
  unfold Block.composite? at h
  split at h
  · cases hb : b.enter f buffer with
    | ok c =>
      rw [hb] at h
      cases h
      rfl
    | error e =>
      rw [hb] at h
      cases h
  · cases h

theorem version_openComposite {f : CompositeField} {inner : Block}
    (h : s.call (.openComposite f) = (.ok (.block inner), s')) :
    s'.block = inner ∧ inner.version = s.block.version := by
  obtain ⟨_, _, hget, hrest⟩ := bind_eq_ok_iff.mp (perform_of_call h)
  obtain ⟨rfl, rfl⟩ := get_eq_ok_iff.mp hget
  obtain ⟨found, t, hpass, hk⟩ := bind_eq_ok_iff.mp hrest
  obtain ⟨hm, -⟩ := Step.pass_eq_ok_iff.mp hpass
  cases found with
  | none => cases hk
  | some b =>
    cases hk
    exact ⟨rfl, version_enter (enter_of_composite? (Pass.look_eq_ok_iff.mp hm).1)⟩

theorem version_enterComposite {f : CompositeField} {inner : Block}
    (h : s.call (.enterComposite f) = (.ok (.block inner), s')) :
    s'.block = inner ∧ inner.version = s.block.version := by
  obtain ⟨_, _, hget, hrest⟩ := bind_eq_ok_iff.mp (perform_of_call h)
  obtain ⟨rfl, rfl⟩ := get_eq_ok_iff.mp hget
  obtain ⟨b, t, hpass, hk⟩ := bind_eq_ok_iff.mp hrest
  obtain ⟨hm, -⟩ := Step.pass_eq_ok_iff.mp hpass
  cases hk
  exact ⟨rfl, version_enter (Pass.look_eq_ok_iff.mp hm).1⟩

structure AtVersion (v : Version) (s : Session) : Prop where
  message : s.message.actingVersion = v
  composite : ∀ b, .composite b ∈ s.scopes → b.version = v

variable {v : Version}

theorem AtVersion.block (h : s.AtVersion v) : s.block.version = v := by
  obtain ⟨m, scopes⟩ := s
  match scopes with
  | [] | .group _ :: _ | .root :: _ => exact h.message
  | .composite b :: _ => exact h.composite b List.mem_cons_self

theorem AtVersion.versionFor (h : s.AtVersion v) (c : Call) : s.versionFor c = v := by
  cases c with
  | access | openComposite => exact h.block
  | _ => exact h.message

theorem actingVersion_call (hc : c.GoesOn v) : (s.call c).2.message.actingVersion = s.message.actingVersion := by
  rw [snd_call]
  by_cases hp : c.Places
  · cases c with
    | seek position =>
      show (final ((_ <$> Step.pass _) s)).message.actingVersion = _
      rw [final_map, final_pass]
      unfold Message.seek
      split <;> rfl
    | swapBuffer buffer => rfl
    | startEncode | startDecode | encodeHeader | decodeHeader => exact hc.elim
    | _ => exact hp.elim
  · have hhead : s.message.SameHead (final (perform c s)).message := sameHead_perform hp s
    rw [hhead]

theorem AtVersion.call (h : s.AtVersion v) (hc : c.GoesOn v) : (s.call c).2.AtVersion v := by
  refine ⟨(actingVersion_call hc).trans h.message, fun b hb => ?_⟩
  rw [snd_call] at hb
  rcases mem_scopes_perform hb with hb | hb
  · exact h.composite b hb
  · cases c with
    | openComposite f =>
      obtain ⟨inner, hinner, hx⟩ := hb
      cases hx
      exact (version_enter (enter_of_composite? hinner)).trans h.block
    | enterComposite f =>
      obtain ⟨inner, hinner, hx⟩ := hb
      cases hx
      exact (version_enter hinner).trans h.block
    | move b' =>
      cases hb
      exact hc
    | enterRoot => cases hb
    | decodeGroup f | encodeGroup f count =>
      obtain ⟨g, m, -, hx⟩ := hb
      cases hx
    | next =>
      obtain ⟨g, g', m, -, -, hx⟩ := hb
      cases hx
    | _ => exact hb.elim

theorem AtVersion.calls (h : s.AtVersion v) (cs : List Call) (hcs : ∀ c ∈ cs, c.GoesOn v) :
    (s.calls cs).2.AtVersion v :=
  holds_calls cs (fun c hc _ hs => hs.call (hcs c hc)) h

/-- What is newer than the data that it is looked for in is answered as absent, in every session. What is not
newer is answered, or refused, as if it had existed from the start. An element is at the version of the message
and a composite at that of its block, so all data is at one version until another message is started. -/
theorem newer_is_absent :
    (∀ (s : Session) (c : Call) (g : Gate), s.gate? c = some g → s.versionFor c < g.since →
      s.call c = (.ok g.absent, s.passing c)) ∧
    (∀ (s : Session) (c : Call), (∀ g, s.gate? c = some g → g.since ≤ s.versionFor c) →
      s.call c = s.call c.unversioned) ∧
    (∀ (s : Session) (g : Group) (outer : List Scope), s.scopes = .group g :: outer →
      s.block.version = s.message.actingVersion) ∧
    (∀ (s s' : Session) (f : CompositeField) (inner : Block),
      s.call (.openComposite f) = (.ok (.block inner), s') ∨ s.call (.enterComposite f) = (.ok (.block inner), s') →
      s'.block = inner ∧ inner.version = s.block.version) ∧
    ∀ (s : Session) (v : Version) (cs : List Call), s.AtVersion v → (∀ c ∈ cs, c.GoesOn v) →
      ∀ c, (s.calls cs).2.versionFor c = v := by
  refine ⟨fun s c g => call_newer, fun s c h => (call_unversioned h).symm, fun s g outer h => ?_,
    fun s s' f inner h => ?_, fun s v cs h hcs c => (h.calls cs hcs).versionFor c⟩
  · unfold block
    rw [h]
    rfl
  · exact h.elim version_openComposite version_enterComposite

end

def early : Session := .ofBuffer { version := 1 } #[]

def mileage : Field (.unsigned .w16) := { offset := 40, since := 2 }

def riders : GroupFormat := { blockLength := 3, since := 2 }

theorem newer_is_absent_early :
    early.call (.access (.get mileage)) = (.ok (.value (.unsigned .w16) mileage.null), early) ∧
      early.call (.decodeGroup riders) = (.ok (.group (riders.absent 0)), ⟨early.message, [.group (riders.absent 0)]⟩) ∧
      (early.call (.readData { length := .w8, since := 1 })) = early.call (.readData { length := .w8 }) ∧
      ((early.calls [.decodeGroup riders, .next]).2.versionFor (.access (.get mileage))) = 1 := by
  obtain ⟨hnewer, hsame, -, -, hversion⟩ := newer_is_absent
  have hmileage : early.versionFor (.access (.get mileage)) < mileage.since := by decide
  have hriders : early.versionFor (.decodeGroup riders) < riders.since := by decide
  refine ⟨hnewer early (.access (.get mileage)) _ rfl hmileage, hnewer early (.decodeGroup riders) _ rfl hriders,
    hsame early _ fun g hg => ?_, ?_⟩
  · cases hg
    decide
  · refine hversion early 1 _ ⟨rfl, fun b hb => nomatch hb⟩ ?_ _
    simp [Call.GoesOn]

end Session

end SimpleBinary
