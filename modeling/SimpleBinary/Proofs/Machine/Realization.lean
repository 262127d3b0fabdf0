import SimpleBinary.Proofs.Machine.Access
import SimpleBinary.Proofs.Message.Decoding
import SimpleBinary.Proofs.Session.Progress

/-!
# The machine does what the passes say

As long as the sums that nobody checks are words, a call on the machine answers, refuses and leaves
what the call of the session does. Slices never fault, because the cursor's limit is the length of the
buffer and so a range that it has passed lies there.
-/

namespace SimpleBinary

/-! ## Messages -/

def Handle.of (m : Message) : Handle := ⟨m, m.capacity⟩

namespace Machine
variable {m : Message}

theorem lt_size_of_lt {n : Nat} (h : n < 2 ^ (63 : Nat)) : n < UInt64.size := Nat.lt_trans h (by decide)

theorem readMember_eq {f : UnsignedField} {base : Nat} {buffer : Buffer} (hs : buffer.size < UInt64.size)
    (hr : base + f.offset < UInt64.size) : readMember f base buffer = (f.read base buffer).mapError .refused := by
  unfold readMember UnsignedField.read
  rw [add_eq_ok hr, mapError_map]
  show window buffer (base + f.offset) f.width.bytes >>= _ = _
  rw [window_eq hs]
  cases h : buffer.window (base + f.offset) f.width.bytes with
  | error e => rfl
  | ok raw =>
    show load raw f.width.bytes >>= _ = _
    rw [load_eq_ok (Buffer.length_of_window h)]
    rfl

theorem realizes_lookMessage {α : Type} {read' : Handle → Except Trap α} {read : Message → Except AccessError α}
    (h : read' (.of m) = (read m).mapError .refused) : Realizes Handle.of (Exec.look read') (Pass.look read) m :=
  .look h rfl

theorem realizes_fit {w : Width} {n : Nat} :
    Realizes Handle.of (Exec.of (fit w n)) (Pass.look fun _ => w.fit n) m := by
  show Realizes Handle.of (Exec.look fun _ => fit w n) _ m
  exact realizes_lookMessage rfl

theorem realizes_edit {α : Type} {step' : Exec Buffer α} {step : Edit α} (h : Realizes id step' step m.buffer)
    (hk : Keeps Buffer.SameSize step) : Realizes Handle.of (edit step') (Pass.edit step) m := by
  have hsize : (final (step m.buffer)).size = m.buffer.size := hk m.buffer
  unfold Realizes edit Pass.edit at *
  have h : step' (Handle.of m).message.buffer = _ := h
  rw [h]
  cases hp : step m.buffer with
  | ok a written | error e written =>
    rw [hp] at hsize
    have hc : m.capacity = Message.capacity { m with buffer := written } := hsize.symm
    dsimp only [Handle.of, id]
    rw [hc]

theorem realizes_writeMember {f : UnsignedField} {base n : Nat} (hs : m.capacity < 2 ^ (63 : Nat))
    (hr : base + f.offset < UInt64.size) :
    Realizes Handle.of (edit (writeMember f base n)) (Pass.edit (f.write base n)) m :=
  realizes_edit (realizes_store (lt_size_of_lt hs) hr) (Edit.keeps_overwrite _ _)

theorem realizes_seek {position position' : Nat} (hs : m.capacity < 2 ^ (63 : Nat)) (h : position' = min position lastPosition) :
    Realizes Handle.of (seek position') (Message.seek position) m := by
  have hlast : (2 : Nat) ^ 63 ≤ lastPosition := by decide
  unfold Realizes seek Message.seek
  rw [get_bind]
  rcases Nat.lt_or_ge m.capacity position with hlt | hge
  · have h' : (Handle.of m).limit < position' := by
      show m.capacity < position'
      omega
    rw [if_pos h', if_neg (Nat.not_le.mpr hlt), h]
    rfl
  · have h' : ¬ (Handle.of m).limit < position' := by
      show ¬ m.capacity < position'
      omega
    have hp : position' = position := by omega
    rw [if_neg h', if_pos hge, hp]
    rfl

theorem realizes_advance {n : Nat} (hs : m.capacity < 2 ^ (63 : Nat)) :
    Realizes Handle.of (advance n) (Message.advance n) m := by
  have hsize := lt_size_of_lt hs
  unfold Realizes advance Message.advance
  rw [get_bind]
  rcases Nat.lt_or_ge m.capacity (m.position + n) with hlt | hge
  · have hno : (checkedAdd? (Handle.of m).message.position n).any (· ≤ (Handle.of m).limit) = false := by
      show (checkedAdd? m.position n).any (· ≤ m.capacity) = false
      unfold checkedAdd?
      split <;> simp [hlt]
    rw [hno, if_neg (Nat.not_le.mpr hlt)]
    rfl
  · have hword := Nat.lt_of_le_of_lt hge hsize
    have hyes : (checkedAdd? (Handle.of m).message.position n).any (· ≤ (Handle.of m).limit) = true := by
      show (checkedAdd? m.position n).any (· ≤ m.capacity) = true
      unfold checkedAdd?
      rw [if_pos hword]
      simp [hge]
    have hadd : add (Handle.of m).message.position n = .ok (m.position + n) := add_eq_ok hword
    rw [if_pos hyes, if_pos hge, hadd]
    rfl

theorem realizes_start {offset blockLength : Nat} {version : Version} (hs : m.capacity < 2 ^ (63 : Nat)) :
    Realizes Handle.of (start offset blockLength version) (Message.start offset blockLength version) m := by
  unfold start Message.start
  refine Realizes.bind (.answer rfl rfl) fun _ t ht => ?_
  obtain rfl := modify_eq_ok_iff.mp ht
  exact realizes_seek hs rfl

theorem realizes_startEncode {offset : Nat} (hs : m.capacity < 2 ^ (63 : Nat)) :
    Realizes Handle.of (startEncode offset) (Message.startEncode offset) m :=
  realizes_start (m := m) hs

theorem realizes_swapBuffer (buffer : Buffer) : Realizes Handle.of (swapBuffer buffer) (Message.swapBuffer buffer) m :=
  .answer rfl rfl

/-! ### Headers -/

theorem headerMember_eq {f : UnsignedField} {base : Nat} {format : HeaderFormat} {buffer : Buffer}
    (hs : buffer.size < UInt64.size) (hr : base + f.offset < UInt64.size) :
    headerMember f base buffer = ((HeaderView.mk base format).member f buffer).mapError .refused := by
  unfold headerMember HeaderView.member
  rw [readMember_eq hs hr, mapError_bind]
  refine bind_congr fun n => ?_
  rw [mapError_bind]
  rfl

/-- The sums of where a header starts and what is in it are words. -/
structure HeaderInRange (base : Nat) (format : HeaderFormat) : Prop where
  blockLength_lt : base + format.blockLength.offset < UInt64.size
  templateId_lt : base + format.templateId.offset < UInt64.size
  schemaId_lt : base + format.schemaId.offset < UInt64.size
  version_lt : base + format.version.offset < UInt64.size
  size_lt : base + format.size < UInt64.size

theorem headerTemplate_eq {base : Nat} {format : HeaderFormat} {buffer : Buffer} (hs : buffer.size < UInt64.size)
    (hr : HeaderInRange base format) :
    headerTemplate format base buffer = ((HeaderView.mk base format).template buffer).mapError .refused := by
  unfold headerTemplate HeaderView.template HeaderView.templateId HeaderView.schemaId HeaderView.version
    HeaderView.blockLength
  rw [headerMember_eq hs hr.templateId_lt, headerMember_eq hs hr.schemaId_lt, headerMember_eq hs hr.version_lt,
    headerMember_eq hs hr.blockLength_lt]
  simp only [mapError_bind]
  rfl

theorem size_of_write {f : UnsignedField} {base n : Nat} {buffer written : Buffer} {u : Unit}
    (h : f.write base n buffer = .ok u written) : written.size = buffer.size := by
  have hk : Buffer.SameSize buffer (final (f.write base n buffer)) := Edit.keeps_overwrite _ _ _
  rw [h] at hk
  exact hk

theorem realizes_writeHeader {base : Nat} {format : HeaderFormat} {t : Template} {buffer : Buffer}
    (hs : buffer.size < UInt64.size) (hr : HeaderInRange base format) :
    Realizes id (writeHeader format base t) ((HeaderView.mk base format).write t) buffer := by
  refine (realizes_store hs hr.blockLength_lt).bind fun _ b₁ h₁ => ?_
  have hs₁ : b₁.size < UInt64.size := by rw [size_of_write h₁]; exact hs
  refine (realizes_store hs₁ hr.templateId_lt).bind fun _ b₂ h₂ => ?_
  have hs₂ : b₂.size < UInt64.size := by rw [size_of_write h₂]; exact hs₁
  refine (realizes_store hs₂ hr.schemaId_lt).bind fun _ b₃ h₃ => ?_
  have hs₃ : b₃.size < UInt64.size := by rw [size_of_write h₃]; exact hs₂
  exact realizes_store hs₃ hr.version_lt

theorem realizes_decodeHeader {offset : Nat} {format : HeaderFormat} (hs : m.capacity < 2 ^ (63 : Nat))
    (hr : HeaderInRange offset format) :
    Realizes Handle.of (decodeHeader offset format) (Message.decodeHeader offset format) m := by
  refine (realizes_lookMessage (headerTemplate_eq (lt_size_of_lt hs) hr)).bind fun found t ht => ?_
  obtain ⟨-, rfl⟩ := Pass.look_eq_ok_iff.mp ht
  refine .of_ok (add_eq_ok hr.size_lt) ?_
  exact (realizes_start hs).bind fun _ _ _ => .answer rfl rfl

theorem capacity_of_ok {α : Type} {p : Pass α} {a : α} {t : Message} (hp : Keeps Message.Forward p)
    (h : p m = .ok a t) : t.capacity = m.capacity := by
  have hf := hp m
  rw [h] at hf
  exact hf.1.1

theorem realizes_encodeHeader {offset : Nat} {format : HeaderFormat} (hs : m.capacity < 2 ^ (63 : Nat))
    (hr : HeaderInRange offset format) :
    Realizes Handle.of (encodeHeader offset format) (Message.encodeHeader offset format) m := by
  have hkeeps := HeaderView.keeps_write ⟨offset, format⟩ m.template
  refine .of_get ((realizes_edit (realizes_writeHeader (lt_size_of_lt hs) hr) hkeeps).bind fun _ t ht => ?_)
  refine .of_ok (add_eq_ok hr.size_lt) (realizes_startEncode ?_)
  rw [capacity_of_ok (Message.forward_edit hkeeps) ht]
  exact hs

/-! ### Groups -/

structure DimensionsInRange (base : Nat) (d : Dimensions) : Prop where
  blockLength_lt : base + d.blockLength.offset < UInt64.size
  numInGroup_lt : base + d.numInGroup.offset < UInt64.size

theorem realizes_decodeGroup {f : GroupFormat} (hs : m.capacity < 2 ^ (63 : Nat))
    (hr : DimensionsInRange m.position f.dimensions) :
    Realizes Handle.of (decodeGroup f) (Group.decode f) m := by
  refine .of_get ?_
  by_cases hi : m.actingVersion.includes f.since = true
  · rw [if_pos hi]
    have hi' : (Handle.of m).message.actingVersion.includes f.since = true := hi
    rw [if_pos hi']
    refine (realizes_advance hs).bind fun base t ht => ?_
    obtain ⟨-, rfl, rfl⟩ := Message.advance_eq_ok_iff.mp ht
    refine (realizes_lookMessage (readMember_eq (lt_size_of_lt hs) hr.blockLength_lt)).bind fun _ t ht => ?_
    obtain ⟨-, rfl⟩ := Pass.look_eq_ok_iff.mp ht
    refine (realizes_lookMessage (readMember_eq (lt_size_of_lt hs) hr.numInGroup_lt)).bind fun _ _ _ => ?_
    exact .answer rfl rfl
  · rw [if_neg hi]
    have hi' : ¬ (Handle.of m).message.actingVersion.includes f.since = true := hi
    rw [if_neg hi']
    exact .answer rfl rfl

theorem realizes_encodeGroup {f : GroupFormat} {count : Nat} (hs : m.capacity < 2 ^ (63 : Nat))
    (hr : DimensionsInRange m.position f.dimensions) :
    Realizes Handle.of (encodeGroup f count) (Group.encode f count) m := by
  refine realizes_fit.bind fun n t ht => ?_
  obtain ⟨hn, rfl⟩ := Pass.look_eq_ok_iff.mp ht
  obtain ⟨-, rfl⟩ := Width.fit_eq_ok_iff.mp hn
  refine realizes_fit.bind fun n t ht => ?_
  obtain ⟨hn, rfl⟩ := Pass.look_eq_ok_iff.mp ht
  obtain ⟨-, rfl⟩ := Width.fit_eq_ok_iff.mp hn
  refine .of_get_left ((realizes_advance hs).bind fun base t ht => ?_)
  obtain ⟨-, rfl, rfl⟩ := Message.advance_eq_ok_iff.mp ht
  refine (realizes_writeMember (by exact hs) hr.numInGroup_lt).bind fun _ t ht => ?_
  have hc := capacity_of_ok (Message.forward_edit (Edit.keeps_overwrite _ _)) ht
  refine (realizes_writeMember ?_ hr.blockLength_lt).bind fun _ _ _ => .answer rfl rfl
  rw [hc]
  exact hs

theorem realizes_next {g : Group} (hs : m.capacity < 2 ^ (63 : Nat)) (hc : g.count < UInt64.size) :
    Realizes Handle.of (next g) g.next m := by
  unfold next Group.next
  by_cases hn : g.hasNext = true
  · rw [if_pos hn, if_pos hn]
    have hlt : g.visited < g.count := of_decide_eq_true hn
    refine (realizes_advance hs).bind fun base t _ => ?_
    refine .of_ok (add_eq_ok (Nat.lt_of_le_of_lt hlt hc)) ?_
    have hsub : sub (g.visited + 1) 1 = .ok g.visited := if_pos (Nat.le_add_left ..)
    exact .of_ok hsub (.answer rfl rfl)
  · rw [if_neg hn, if_neg hn]
    exact .refusal rfl rfl

/-! ### Data sections -/

variable {f : DataFormat}

theorem realizes_takeData (hs : m.capacity < 2 ^ (63 : Nat)) : Realizes Handle.of (takeData f) f.take m := by
  refine .of_get ?_
  by_cases hi : m.actingVersion.includes f.since = true
  · have hi' : (Handle.of m).message.actingVersion.includes f.since = true := hi
    rw [if_pos hi, if_pos hi']
    refine (realizes_lookMessage (window_eq (lt_size_of_lt hs))).bind fun raw t ht => ?_
    obtain ⟨hraw, rfl⟩ := Pass.look_eq_ok_iff.mp ht
    refine .of_ok (load_eq_ok (Buffer.length_of_window hraw)) ?_
    refine (realizes_advance hs).bind fun _ t ht => ?_
    obtain ⟨-, -, rfl⟩ := Message.advance_eq_ok_iff.mp ht
    exact (realizes_advance (by exact hs)).bind fun _ _ _ => .answer rfl rfl
  · have hi' : ¬ (Handle.of m).message.actingVersion.includes f.since = true := hi
    rw [if_neg hi, if_neg hi']
    exact .answer rfl rfl

theorem range_of_take {start length : Nat} {t : Message} (h : f.take m = .ok (some (start, length)) t) :
    start + length ≤ t.capacity := by
  cases hv : m.actingVersion.includes f.since with
  | true =>
    obtain ⟨raw, -, hle, hr, rfl⟩ := (DataFormat.take_eq_ok_iff hv).mp h
    obtain ⟨rfl, rfl⟩ := Prod.mk.inj (Option.some.inj hr)
    show m.position + f.lengthSize + f.order.decode raw ≤ m.capacity
    omega
  | false =>
    rw [DataFormat.take_newer hv] at h
    cases h

theorem slice_buffer {start stop : Nat} (h : start ≤ stop) (h' : stop ≤ m.capacity) :
    slice m.buffer.toList start stop = .ok (m.buffer.extract start stop).toList := by
  rw [slice_eq_ok h h']
  simp

theorem realizes_readData (hs : m.capacity < 2 ^ (63 : Nat)) : Realizes Handle.of (readData f) f.read m := by
  refine (realizes_takeData hs).bind fun r t ht => ?_
  have hc := capacity_of_ok (f.keeps_take Message.forward_advance) ht
  cases r with
  | none => exact .answer rfl rfl
  | some r =>
    obtain ⟨start, length⟩ := r
    have hr := range_of_take ht
    have hword := Nat.lt_of_le_of_lt hr (lt_size_of_lt (hc ▸ hs))
    refine .of_ok (add_eq_ok hword) (.answer (Exec.look_eq_ok ?_) rfl)
    exact slice_buffer (Nat.le_add_right ..) hr

theorem realizes_copyData {dst : Bytes} (hs : m.capacity < 2 ^ (63 : Nat)) :
    Realizes Handle.of (copyData f dst) (f.copy dst) m := by
  refine (realizes_takeData hs).bind fun r t ht => ?_
  have hc := capacity_of_ok (f.keeps_take Message.forward_advance) ht
  cases r with
  | none => exact .answer rfl rfl
  | some r =>
    obtain ⟨start, length⟩ := r
    have hr : start + min length dst.length ≤ t.capacity :=
      Nat.le_trans (Nat.add_le_add_left (Nat.min_le_left ..) start) (range_of_take ht)
    have hword := Nat.lt_of_le_of_lt hr (lt_size_of_lt (hc ▸ hs))
    refine .of_ok (slice_eq_ok (Nat.zero_le _) (Nat.min_le_right ..)) (.of_ok (add_eq_ok hword) ?_)
    refine .of_look (slice_buffer (Nat.le_add_right ..) hr) (.of_ok (copy_eq_ok ?_) (.answer rfl rfl))
    have hr : start + min length dst.length ≤ (Handle.of t).message.buffer.size := hr
    simp
    omega

theorem realizes_writeData {src : Bytes} (hs : m.capacity < 2 ^ (63 : Nat)) (hl : src.length < 2 ^ (63 : Nat)) :
    Realizes Handle.of (writeData f src) (f.write src) m := by
  refine realizes_fit.bind fun n t ht => ?_
  obtain ⟨-, rfl⟩ := Pass.look_eq_ok_iff.mp ht
  have hsize : f.lengthSize ≤ 8 := by
    unfold DataFormat.lengthSize Width.bytes
    cases f.length <;> decide
  have htotal : f.lengthSize + src.length < UInt64.size := by
    have hword : 8 + 2 ^ (63 : Nat) < UInt64.size := by decide
    omega
  refine .of_ok (add_eq_ok htotal) ((realizes_advance hs).bind fun base t' ht => ?_)
  obtain ⟨hle, rfl, rfl⟩ := Message.advance_eq_ok_iff.mp ht
  have hstart : t.position + f.lengthSize < UInt64.size :=
    Nat.lt_of_le_of_lt (by omega) (lt_size_of_lt hs)
  have hlength : (f.order.encode f.lengthSize src.length).length = f.lengthSize := ByteOrder.length_encode ..
  refine .of_ok (add_eq_ok hstart) ?_
  refine Realizes.bind (realizes_edit ?_ (Edit.keeps_overwrite _ _)) fun _ t' ht => ?_
  · exact realizes_region (lt_size_of_lt hs) hlength (save_eq_ok hlength)
  · have hc := capacity_of_ok (Message.forward_edit (Edit.keeps_overwrite _ _)) ht
    refine Realizes.bind (realizes_edit ?_ (Edit.keeps_overwrite _ _)) fun _ _ _ => .answer rfl rfl
    refine realizes_region (lt_size_of_lt ?_) rfl (if_pos rfl)
    have hs' : t'.capacity < 2 ^ (63 : Nat) := by
      rw [hc]
      exact hs
    exact hs'

end Machine

/-! ## Calls -/

def Device.of (s : Session) : Device := ⟨s, s.message.capacity⟩

namespace Device
variable {s : Session}

theorem realizes_pass {α : Type} {q : Exec Handle α} {p : Pass α} (h : Realizes Handle.of q p s.message) :
    Realizes Device.of (pass q) (Session.Step.pass p) s := by
  unfold Realizes pass Session.Step.pass at *
  have h' : q ⟨(Device.of s).session.message, (Device.of s).limit⟩ = _ := h
  rw [h']
  cases p s.message <;> rfl

end Device

open Machine

/-- The sums that nobody checks are words. -/
def Call.InRange (s : Session) : Call → Prop
  | access a => ∀ offset, a.offset? = some offset → s.block.base + offset < UInt64.size
  | openComposite f | enterComposite f => s.block.base + f.offset < UInt64.size
  | decodeGroup f | encodeGroup f _ => DimensionsInRange s.message.position f.dimensions
  | writeData _ src => src.length < 2 ^ (63 : Nat)
  | seek position => position < UInt64.size
  | encodeHeader offset format | decodeHeader offset format => HeaderInRange offset format
  | swapBuffer buffer => buffer.size < 2 ^ (63 : Nat)
  | _ => True

namespace Device
variable {s : Session}

theorem realizes_perform {c : Call} (hs : s.message.capacity < 2 ^ (63 : Nat)) (hr : c.InRange s)
    (hg : ∀ g, .group g ∈ s.scopes.head? → g.count < UInt64.size) :
    Realizes Device.of (perform c) (Session.perform c) s := by
  cases c with
  | access a =>
    exact .of_get (realizes_pass (realizes_edit (realizes_access (lt_size_of_lt hs) hr) (Access.keeps_perform _ a)))
  | openComposite f =>
    refine .of_get ((realizes_pass (realizes_lookMessage (composite?_eq (lt_size_of_lt hs) hr))).bind fun r _ _ => ?_)
    cases r with
    | some inner => exact .answer rfl rfl
    | none => exact .answer rfl rfl
  | enterComposite f =>
    refine .of_get ((realizes_pass (realizes_lookMessage (enter_eq (lt_size_of_lt hs) hr))).bind fun r _ _ => ?_)
    exact .answer rfl rfl
  | move b =>
    obtain ⟨m, scopes⟩ := s
    rcases scopes with _ | ⟨_ | _ | _, _⟩ <;> exact .answer rfl rfl
  | enterRoot => exact .answer rfl rfl
  | decodeGroup f => exact (realizes_pass (realizes_decodeGroup hs hr)).bind fun _ _ _ => .answer rfl rfl
  | encodeGroup f count => exact (realizes_pass (realizes_encodeGroup hs hr)).bind fun _ _ _ => .answer rfl rfl
  | next =>
    obtain ⟨m, scopes⟩ := s
    rcases scopes with _ | ⟨g | b | _, outer⟩
    · exact .answer rfl rfl
    · have hnext := realizes_next hs (hg g rfl)
      exact .of_get ((realizes_pass (s := ⟨m, .group g :: outer⟩) hnext).bind fun _ _ _ => .answer rfl rfl)
    · exact .answer rfl rfl
    · exact .answer rfl rfl
  | leave =>
    obtain ⟨m, scopes⟩ := s
    cases scopes <;> exact .answer rfl rfl
  | readData f => exact (realizes_pass (realizes_readData hs)).map _
  | copyData f dst => exact (realizes_pass (realizes_copyData hs)).map _
  | writeData f src => exact (realizes_pass (realizes_writeData hs hr)).map _
  | seek position =>
    have hword : position = min position lastPosition := (Nat.min_eq_left (Nat.le_pred_of_lt hr)).symm
    exact (realizes_pass (realizes_seek hs hword)).map _
  | startEncode offset => exact (realizes_pass (realizes_startEncode hs)).map _
  | startDecode offset blockLength version => exact (realizes_pass (realizes_start hs)).map _
  | encodeHeader offset format => exact (realizes_pass (realizes_encodeHeader hs hr)).map _
  | decodeHeader offset format => exact (realizes_pass (realizes_decodeHeader hs hr)).map _
  | swapBuffer buffer => exact (realizes_pass (realizes_swapBuffer buffer)).map _

end Device

end SimpleBinary
