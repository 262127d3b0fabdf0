import SimpleBinary.Proofs.Message.Encoding
import SimpleBinary.Proofs.Session.Restart

/-!
# What the cursor decides

Sections are read and written at the cursor; blocks are where they are. So if a cursor is moved, accesses to
blocks are as they would have been, and once the cursor has been placed again nothing is different. A new message
is like one that has just been started, at the start of the buffer, with its cursor moved back over the root block.
-/

namespace SimpleBinary

def Call.AtCursor : Call → Prop
  | decodeGroup _ | encodeGroup .. | next | readData _ | copyData .. | writeData .. => True
  | _ => False

namespace Message
variable {m m' : Message}

def Moved (m m' : Message) : Prop := m' = { m with position := m'.position }

instance : Std.Refl Moved := ⟨fun _ => rfl⟩

namespace Moved

theorem sameSource (h : m.Moved m') : m.SameSource m' := by
  rw [h]
  exact ⟨rfl, rfl⟩

theorem root_eq (h : m.Moved m') : m'.root = m.root := by
  rw [h]
  rfl

theorem edited (h : m.Moved m') (b : Buffer) : Moved { m with buffer := b } { m' with buffer := b } := by
  rw [h]
  rfl

theorem placed (h : m.Moved m') (position : Nat) :
    { m' with position := position } = { m with position := position } := by
  rw [h]

end Moved

section
variable {offset blockLength : Nat} {version : Version}

theorem alike_seek (position : Nat) (h : m.Moved m') : Alike Moved (seek position) m m' := by
  have hcapacity : m'.capacity = m.capacity := congrArg Array.size h.sameSource.buffer_eq
  by_cases hp : position ≤ m.capacity
  · have hleft : seek position m = .ok () _ := seek_eq_ok_iff.mpr ⟨hp, rfl⟩
    have hright : seek position m' = .ok () _ := seek_eq_ok_iff.mpr ⟨hcapacity ▸ hp, rfl⟩
    rw [h.placed] at hright
    exact .ok hleft hright (refl_of Moved _)
  · have hleft : seek position m = .error _ m := if_neg hp
    have hright : seek position m' = .error _ m' := if_neg (hcapacity ▸ hp)
    rw [hcapacity] at hright
    exact .error hleft hright h

theorem merges_seek (position : Nat) (h : m.Moved m') : Merges (seek position) m m' := by
  refine .of_alike (alike_seek position h) fun _ _ _ hleft hright => ?_
  obtain ⟨-, rfl⟩ := seek_eq_ok_iff.mp hleft
  obtain ⟨-, rfl⟩ := seek_eq_ok_iff.mp hright
  exact h.placed position

theorem alike_start (h : m.Moved m') : Alike Moved (start offset blockLength version) m m' := by
  refine Alike.bind (R := Moved) (.ok rfl rfl ?_) (fun _ _ _ _ ht => alike_seek _ ht) fun _ _ ht => ht
  rw [h]
  rfl

theorem alike_startEncode (h : m.Moved m') : Alike Moved (startEncode offset) m m' :=
  .get (by rw [h]) (alike_start h)

theorem alike_encodeHeader {format : HeaderFormat} (h : m.Moved m') :
    Alike Moved (encodeHeader offset format) m m' := by
  refine .get (by rw [h]) ?_
  have hedit := Pass.alike_editSame ((HeaderView.mk offset format).write m.template) h.sameSource.buffer_eq h.edited
  exact hedit.bind (fun _ _ _ _ ht => alike_startEncode ht) fun _ _ ht => ht

theorem alike_decodeHeader {format : HeaderFormat} (h : m.Moved m') :
    Alike Moved (decodeHeader offset format) m m' := by
  have hlook := Pass.alike_lookSame (HeaderView.mk offset format).template h.sameSource.buffer_eq h
  exact hlook.bind (fun found _ _ _ ht => (alike_start ht).map fun _ => found) fun _ _ ht => ht

theorem alike_swapBuffer (buffer : Buffer) (h : m.Moved m') : Alike Moved (swapBuffer buffer) m m' := by
  rw [h]
  exact .ok rfl rfl (refl_of Moved _)

theorem merges_swapBuffer (buffer : Buffer) (h : m.Moved m') : Merges (swapBuffer buffer) m m' := by
  rw [h]
  exact .ok rfl rfl

end

end Message

theorem Sections.encode_eq_ok {m : Message} (x : Sections) {content : x.Content Fill} (hfits : x.Fits content)
    (hroom : m.position + x.size content ≤ m.capacity) :
    x.encode content m = .ok () (m.written (x.image content)) := by
  refine (x.writes_encode content (Nat.le_trans (Nat.le_add_right ..) hroom) () _).mpr ⟨hfits, ?_, rfl, rfl⟩
  rwa [x.length_image]

namespace Session
variable {s s' : Session} {c : Call}

structure Moved (s s' : Session) : Prop where
  message : s.message.Moved s'.message
  scopes : s'.scopes = s.scopes

theorem Moved.block_eq (h : s.Moved s') : s'.block = s.block := block_congr h.scopes h.message.root_eq

theorem Moved.pass {α : Type} {p : Pass α} (hs : s.Moved s') (h : Alike Message.Moved p s.message s'.message) :
    Alike Moved (Step.pass p) s s' :=
  Step.alike_pass h fun _ _ hm => ⟨hm, hs.scopes⟩

theorem Moved.reopened {β : Type} {f : List Scope → List Scope} {answer : β} (h : s.Moved s') :
    Alike Moved (do modify fun s => { s with scopes := f s.scopes }; return answer : Step β) s s' :=
  .ok rfl rfl ⟨h.message, congrArg f h.scopes⟩

theorem alike_moved (hc : ¬ c.AtCursor) (h : s.Moved s') : Alike Moved (perform c) s s' := by
  have hbuffer := h.message.sameSource.buffer_eq
  have hscopes := h.scopes
  cases c with
  | access a => exact .get (by rw [h.block_eq]) (h.pass (Pass.alike_editSame _ hbuffer h.message.edited))
  | openComposite f =>
    have hlook := h.pass (Pass.alike_lookSame (s.block.composite? f) hbuffer h.message)
    refine .get (by rw [h.block_eq]) (hlook.bind (fun inner t t' _ ht => ?_) fun _ _ ht => ht)
    cases inner with
    | some inner => exact ht.reopened (f := (.composite inner :: ·))
    | none => exact .pure ht
  | enterComposite f =>
    have hlook := h.pass (Pass.alike_lookSame (s.block.enter f) hbuffer h.message)
    refine .get (by rw [h.block_eq]) (hlook.bind (fun inner t t' _ ht => ?_) fun _ _ ht => ht)
    exact ht.reopened (f := (.composite inner :: ·))
  | move b =>
    refine .get (by rw [hscopes]) ?_
    split
    · exact h.reopened (f := fun scopes => .composite b :: scopes.tail)
    · exact .pure h
  | enterRoot => exact .get (by rw [h.message.root_eq]) (h.reopened (f := (.root :: ·)))
  | leave =>
    refine .get (by rw [hscopes]) ?_
    split
    · next scope outer _ => exact h.reopened (f := fun _ => outer)
    · exact .pure h
  | seek position => exact (h.pass (Message.alike_seek position h.message)).map _
  | startEncode offset => exact (h.pass (Message.alike_startEncode h.message)).map _
  | startDecode offset blockLength version => exact (h.pass (Message.alike_start h.message)).map _
  | encodeHeader offset format => exact (h.pass (Message.alike_encodeHeader h.message)).map _
  | decodeHeader offset format => exact (h.pass (Message.alike_decodeHeader h.message)).map _
  | swapBuffer buffer => exact (h.pass (Message.alike_swapBuffer buffer h.message)).map _
  | _ => exact (hc trivial).elim

/-- To place the cursor is to leave no difference, or it is refused. -/
theorem merges_places (hc : c.Places) (h : s.Moved s') : Merges (perform c) s s' := by
  obtain ⟨m, opened⟩ := s
  obtain ⟨m', opened'⟩ := s'
  obtain ⟨hm, hopened⟩ := h
  cases hopened
  cases c with
  | seek position => exact (merges_pass (Message.merges_seek position hm)).map _
  | swapBuffer buffer => exact (merges_pass (Message.merges_swapBuffer buffer hm)).map _
  | startEncode | startDecode | encodeHeader | decodeHeader => exact merges_perform trivial hm.sameSource
  | _ => exact hc.elim

theorem call_of_alike {R : Session → Session → Prop} (h : Alike R (perform c) s s') :
    (s'.call c).1 = (s.call c).1 ∧ R (s.call c).2 (s'.call c).2 := by
  cases h with
  | ok left right related =>
    rw [call_of_ok left, call_of_ok right]
    exact ⟨rfl, related⟩
  | error left right related =>
    rw [call_of_error left, call_of_error right]
    exact ⟨rfl, related⟩

theorem calls_moved (cs : List Call) (hcs : ∀ c ∈ cs, ¬ c.AtCursor) (h : s.Moved s') :
    (s'.calls cs).1 = (s.calls cs).1 ∧ (s.calls cs).2.Moved (s'.calls cs).2 := by
  induction cs generalizing s s' with
  | nil => exact ⟨rfl, h⟩
  | cons c cs ih =>
    obtain ⟨hanswer, hcall⟩ := call_of_alike (alike_moved (hcs c List.mem_cons_self) h)
    obtain ⟨hanswers, hlast⟩ := ih (fun c hc => hcs c (List.mem_cons_of_mem _ hc)) hcall
    refine ⟨?_, hlast⟩
    show (s'.call c).1 :: ((s'.call c).2.calls cs).1 = _
    rw [hanswer, hanswers]
    rfl

theorem call_of_placed (hc : c.Places) (h : s.Moved s') (hok : (s.call c).1.isOk = true) : s'.call c = s.call c := by
  cases merges_places hc h with
  | ok left right => rw [call_of_ok left, call_of_ok right]
  | error left right =>
    rw [call_of_error left] at hok
    cases hok

/-! ## New messages -/

def SameRun (s s' : Session) (cs : List Call) : Prop :=
  s'.trace cs = s.trace cs ∧ (s'.calls cs).2.message.buffer = (s.calls cs).2.message.buffer

section
variable {t : Template} {b : Buffer}

theorem perform_startEncode (hroom : t.blockLength.toNat ≤ b.size) : perform (.startEncode 0) (ofBuffer t b) =
    .ok .done ((ofBuffer t b).started 0 t.blockLength.toNat t.version) := by
  have hle : 0 + t.blockLength.toNat ≤ b.size := by omega
  exact map_eq_ok_iff.mpr ⟨(), Step.pass_eq_ok_iff.mpr ⟨Message.startEncode_eq_ok_iff.mpr ⟨hle, rfl⟩, rfl⟩, rfl⟩

theorem perform_seek {position : Nat} (h : position ≤ s.message.capacity) : perform (.seek position) s =
    .ok .done { s with message := { s.message with position := position } } :=
  map_eq_ok_iff.mpr ⟨(), Step.pass_eq_ok_iff.mpr ⟨Message.seek_eq_ok_iff.mpr ⟨h, rfl⟩, rfl⟩, rfl⟩

theorem Moved.eq_of_position (h : s.Moved s') (hposition : s'.message.position = s.message.position) : s' = s := by
  have hmessage : s'.message = s.message := by
    rw [h.message, hposition]
  obtain ⟨m, opened⟩ := s
  obtain ⟨m', opened'⟩ := s'
  cases hmessage
  cases h.scopes
  rfl

/-- A new message is the message that is started at the start of its buffer, but for the cursor. Until the cursor
is placed the difference is in sections only: they are put at the start of the buffer, where the root block is. -/
theorem new_message_is_not_placed (hroom : t.blockLength.toNat ≤ b.size) :
    ∃ started, (ofBuffer t b).call (.startEncode 0) = (.ok .done, started) ∧
      (ofBuffer t b).call (.seek t.blockLength.toNat) = (.ok .done, started) ∧
      (ofBuffer t b).message.position = 0 ∧ started.message.position = t.blockLength.toNat ∧
      (∀ cs, (∀ c ∈ cs, ¬ c.AtCursor) →
        (started.calls cs).1 = ((ofBuffer t b).calls cs).1 ∧ ((ofBuffer t b).calls cs).2.Moved (started.calls cs).2 ∧
        ∀ c, c.Places → (((ofBuffer t b).calls cs).2.call c).1.isOk = true →
          (started.calls cs).2.call c = ((ofBuffer t b).calls cs).2.call c) ∧
      (∀ (x : Sections) (content : x.Content Fill), x.Fits content → t.blockLength.toNat + x.size content ≤ b.size →
        ∃ early late, x.encode content (ofBuffer t b).message = .ok () early ∧
          early.buffer = b.stamp 0 (x.image content) ∧
          x.encode content started.message = .ok () late ∧
          late.buffer = b.stamp t.blockLength.toNat (x.image content)) ∧
      ((∀ cs, started.SameRun (ofBuffer t b) cs) ↔ t.blockLength = 0) := by
  let started := (ofBuffer t b).started 0 t.blockLength.toNat t.version
  have hposition : started.message.position = t.blockLength.toNat := Nat.zero_add _
  have hmoved : (ofBuffer t b).Moved started := ⟨rfl, rfl⟩
  refine ⟨started, call_of_ok (perform_startEncode hroom), ?_, rfl, hposition, fun cs hcs => ?_,
    fun x content hfits hx => ?_, fun h => ?_, fun h cs => ?_⟩
  · have hseek : perform (.seek (0 + t.blockLength.toNat)) (ofBuffer t b) = .ok .done started :=
      perform_seek (Nat.le_trans (Nat.le_of_eq hposition) hroom)
    rw [Nat.zero_add] at hseek
    exact call_of_ok hseek
  · obtain ⟨hanswers, hlast⟩ := calls_moved cs hcs hmoved
    exact ⟨hanswers, hlast, fun c hc => call_of_placed hc hlast⟩
  · have hearly : (ofBuffer t b).message.position + x.size content ≤ b.size := by
      show 0 + x.size content ≤ b.size
      omega
    refine ⟨_, _, x.encode_eq_ok hfits hearly, rfl, x.encode_eq_ok hfits (hposition ▸ hx), ?_⟩
    show b.stamp started.message.position _ = _
    rw [hposition]
  · obtain ⟨htrace, -⟩ := h [.leave]
    have hstarted : started.trace [.leave] = [(.ok .notOpen, started.message.position)] := rfl
    have hnew : (ofBuffer t b).trace [.leave] = [(.ok .notOpen, 0)] := rfl
    rw [hstarted, hnew, hposition] at htrace
    exact UInt16.toNat_inj.mp (congrArg Prod.snd (List.cons.inj htrace).1).symm
  · have hsame : started = ofBuffer t b := hmoved.eq_of_position (hposition.trans (congrArg UInt16.toNat h))
    rw [hsame]
    exact ⟨rfl, rfl⟩

end

theorem new_message_is_not_placed_tight :
    let data : Sections := .data { length := .w8 } .nil
    ∃ early late started, Sections.encode data ([7], ()) (ofBuffer { blockLength := 2 } #[0, 0, 0, 0]).message =
        .ok () early ∧ early.buffer = #[1, 7, 0, 0] ∧
      (ofBuffer { blockLength := 2 } #[0, 0, 0, 0]).call (.startEncode 0) = (.ok .done, started) ∧
      Sections.encode data ([7], ()) started.message = .ok () late ∧ late.buffer = #[0, 0, 1, 7] := by
  intro data
  have hroom : UInt16.toNat 2 ≤ #[0, 0, 0, 0].size := by decide
  obtain ⟨started, hstart, -, -, -, -, hsections, -⟩ :=
    @new_message_is_not_placed { blockLength := 2 } #[0, 0, 0, 0] hroom
  obtain ⟨early, late, hearly, hfirst, hlate, hlast⟩ := hsections data ([7], ()) ⟨by decide, trivial⟩ (by decide)
  exact ⟨early, late, started, hearly, hfirst, hstart, hlate, hlast⟩

/-- The length and the byte are put into the root block. -/
theorem new_message_is_not_started : ¬ ∀ (t : Template) (b : Buffer) (cs : List Call), t.blockLength.toNat ≤ b.size →
    ((ofBuffer t b).call (.startEncode 0)).2.SameRun (ofBuffer t b) cs := by
  intro h
  obtain ⟨-, hbytes⟩ := h { blockLength := 2 } #[0, 0, 0, 0] [.writeData { length := .w8 } [7]] (by decide)
  exact absurd hbytes (by decide)

end Session

end SimpleBinary
