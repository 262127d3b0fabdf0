import SimpleBinary.Proofs.Machine.Realization

/-!
# Data in and out

A section can be read where it stands, copied to a slice of the caller's, or written. Reading and copying
take the section up alike, in two moves of the cursor, and differ in what they make of it then
(`read_eq_error_iff`, `copy_eq_error_iff`). Writing takes the room for it in one move. Still a length that
leaves the buffer is refused by each of them, whatever the sums come to on a machine.
-/

namespace SimpleBinary

/-! ## Slices that a caller lends -/

structure Lending where
  message : Message
  dst : Buffer

def Lending.pass {α : Type} (p : Pass α) : EStateM AccessError Lending α := fun l =>
  match p l.message with
  | .ok a m => .ok a { l with message := m }
  | .error e m => .error e { l with message := m }

theorem Lending.pass_eq_ok_iff {α : Type} {p : Pass α} {l l' : Lending} {a : α} :
    Lending.pass p l = .ok a l' ↔ p l.message = .ok a l'.message ∧ l'.dst = l.dst := by
  unfold Lending.pass
  obtain ⟨m, dst⟩ := l'
  cases p l.message with
  | ok b m => simp [eq_comm, and_assoc]
  | error e m => simp

theorem Lending.pass_eq_error_iff {α : Type} {p : Pass α} {l l' : Lending} {e : AccessError} :
    Lending.pass p l = .error e l' ↔ p l.message = .error e l'.message ∧ l'.dst = l.dst := by
  unfold Lending.pass
  obtain ⟨m, dst⟩ := l'
  cases p l.message with
  | ok b m => simp
  | error e m => simp [eq_comm, and_assoc]

namespace DataFormat
variable {f : DataFormat} {m m' : Message} {e : AccessError}

def lengthAt (f : DataFormat) (m : Message) : Nat :=
  f.order.decode (m.buffer.extract m.position (m.position + f.lengthSize)).toList

/-- Copies the data over the front of the slice, as far as the shorter of the two goes. -/
def copyOver (f : DataFormat) : EStateM AccessError Lending Nat := do
  match ← Lending.pass f.take with
  | some (start, length) =>
    let l ← get
    let n := min length l.dst.size
    set { l with dst := l.dst.patch 0 (l.message.buffer.extract start (start + n)).toList }
    return n
  | none => return 0

/-! ## Sections taken up -/

theorem take_eq_some_iff (h : m.actingVersion.includes f.since = true) {r : Option (Nat × Nat)} :
    f.take m = .ok r m' ↔ m.position + f.lengthSize ≤ m.capacity ∧
      m.position + f.lengthSize + f.lengthAt m ≤ m.capacity ∧
      r = some (m.position + f.lengthSize, f.lengthAt m) ∧
      m' = { m with position := m.position + f.lengthSize + f.lengthAt m } := by
  rw [take_eq_ok_iff h, Nat.add_assoc]
  apply Iff.intro
  · intro h
    obtain ⟨raw, hw, hs, rfl, rfl⟩ := h
    have hl : f.lengthAt m = f.order.decode raw := congrArg f.order.decode (Buffer.extract_of_window hw)
    rw [hl]
    exact ⟨(Buffer.window_eq_ok_iff.mp hw).1, hs, rfl, rfl⟩
  · intro h
    obtain ⟨hp, hs, rfl, rfl⟩ := h
    exact ⟨_, Buffer.window_eq_extract hp, hs, rfl, rfl⟩

theorem take_bind_eq_ok_iff {α : Type} {k : Option (Nat × Nat) → Pass α} {a : α}
    (h : m.actingVersion.includes f.since = true) :
    (f.take >>= k) m = .ok a m' ↔ m.position + f.lengthSize ≤ m.capacity ∧
      m.position + f.lengthSize + f.lengthAt m ≤ m.capacity ∧
      k (some (m.position + f.lengthSize, f.lengthAt m))
        { m with position := m.position + f.lengthSize + f.lengthAt m } = .ok a m' := by
  simp only [bind_eq_ok_iff, take_eq_some_iff h]
  apply Iff.intro
  · intro h
    obtain ⟨_, _, ⟨hp, hs, rfl, rfl⟩, hk⟩ := h
    exact ⟨hp, hs, hk⟩
  · intro h
    obtain ⟨hp, hs, hk⟩ := h
    exact ⟨_, _, ⟨hp, hs, rfl, rfl⟩, hk⟩

theorem read_eq_ok_iff (h : m.actingVersion.includes f.since = true) {bytes : Bytes} :
    f.read m = .ok bytes m' ↔ m.position + f.lengthSize ≤ m.capacity ∧
      m.position + f.lengthSize + f.lengthAt m ≤ m.capacity ∧
      bytes = (m.buffer.extract (m.position + f.lengthSize) (m.position + f.lengthSize + f.lengthAt m)).toList ∧
      m' = { m with position := m.position + f.lengthSize + f.lengthAt m } := by
  unfold read
  simp only [take_bind_eq_ok_iff h, get_bind, pure_eq_ok_iff]

theorem copy_eq_ok_iff (h : m.actingVersion.includes f.since = true) {dst after : Bytes} {n : Nat} :
    f.copy dst m = .ok (n, after) m' ↔ m.position + f.lengthSize ≤ m.capacity ∧
      m.position + f.lengthSize + f.lengthAt m ≤ m.capacity ∧ n = min (f.lengthAt m) dst.length ∧
      after = (m.buffer.extract (m.position + f.lengthSize) (m.position + f.lengthSize + n)).toList ++ dst.drop n ∧
      m' = { m with position := m.position + f.lengthSize + f.lengthAt m } := by
  unfold copy
  simp only [take_bind_eq_ok_iff h, get_bind, pure_eq_ok_iff, Prod.mk.injEq]
  grind

theorem read_eq_error_iff : f.read m = .error e m' ↔ f.take m = .error e m' := by
  unfold read
  refine bind_eq_error_of_succeeds fun r t => ?_
  cases r <;> exact ⟨_, _, rfl⟩

theorem copy_eq_error_iff {dst : Bytes} : f.copy dst m = .error e m' ↔ f.take m = .error e m' := by
  unfold copy
  refine bind_eq_error_of_succeeds fun r t => ?_
  cases r <;> exact ⟨_, _, rfl⟩

/-! ## Copies to a slice -/

def lent (dst : Buffer) : EStateM.Result AccessError Message (Nat × Bytes) → EStateM.Result AccessError Lending Nat
  | .ok (n, after) m => .ok n ⟨m, after.toArray⟩
  | .error e m => .error e ⟨m, dst⟩

theorem copyOver_eq_lent (f : DataFormat) (m : Message) (dst : Buffer) :
    f.copyOver ⟨m, dst⟩ = lent dst (f.copy dst.toList m) := by
  cases ht : f.take m with
  | error e t =>
    have hover : Lending.pass f.take ⟨m, dst⟩ = .error e ⟨t, dst⟩ := Lending.pass_eq_error_iff.mpr ⟨ht, rfl⟩
    unfold copyOver copy
    rw [bind_of_error hover, bind_of_error ht]
    rfl
  | ok r t =>
    have hover : Lending.pass f.take ⟨m, dst⟩ = .ok r ⟨t, dst⟩ := Lending.pass_eq_ok_iff.mpr ⟨ht, rfl⟩
    unfold copyOver copy
    rw [bind_of_ok hover, bind_of_ok ht]
    cases r with
    | none => rfl
    | some r =>
      obtain ⟨start, length⟩ := r
      have hrange : start + length ≤ t.buffer.size := Machine.range_of_take ht
      have hlength : (t.buffer.extract start (start + min length dst.size)).toList.length = min length dst.size := by
        simp
        omega
      have hfit : (t.buffer.extract start (start + min length dst.size)).toList.length ≤ dst.size := by omega
      have hfront := Buffer.toList_patch_zero hfit
      rw [hlength] at hfront
      have hafter := congrArg List.toArray hfront
      exact congrArg (fun after => EStateM.Result.ok (min length dst.size) (Lending.mk t after)) hafter

theorem copyOver_eq_ok_iff (h : m.actingVersion.includes f.since = true) {dst : Buffer} {n : Nat} {l : Lending} :
    f.copyOver ⟨m, dst⟩ = .ok n l ↔ m.position + f.lengthSize ≤ m.capacity ∧
      m.position + f.lengthSize + f.lengthAt m ≤ m.capacity ∧ n = min (f.lengthAt m) dst.size ∧
      l.dst.toList = (m.buffer.extract (m.position + f.lengthSize) (m.position + f.lengthSize + n)).toList ++
        dst.toList.drop n ∧
      l.message = { m with position := m.position + f.lengthSize + f.lengthAt m } := by
  obtain ⟨t, after⟩ := l
  rw [copyOver_eq_lent, ← Array.length_toList, ← copy_eq_ok_iff h]
  cases f.copy dst.toList m with
  | ok answer t' =>
    simp only [lent, EStateM.Result.ok.injEq, Lending.mk.injEq, Prod.ext_iff]
    rw [← Array.toList_inj]
    grind
  | error e t' => simp [lent]

theorem copyOver_eq_error_iff {dst : Buffer} {l : Lending} :
    f.copyOver ⟨m, dst⟩ = .error e l ↔ f.read m = .error e l.message ∧ l.dst = dst := by
  obtain ⟨t, after⟩ := l
  have hcopy : f.copy dst.toList m = .error e t ↔ f.read m = .error e t :=
    copy_eq_error_iff.trans read_eq_error_iff.symm
  rw [copyOver_eq_lent, ← hcopy]
  cases f.copy dst.toList m with
  | ok answer t' => simp [lent]
  | error e t' => simp [lent, eq_comm, and_assoc]

theorem succeeds_copyOver_iff {dst : Buffer} : Succeeds f.copyOver ⟨m, dst⟩ ↔ Succeeds f.read m := by
  simp only [succeeds_iff, ne_eq, copyOver_eq_error_iff, not_and]
  exact ⟨fun h e t ht => h e ⟨t, dst⟩ ht rfl, fun h e l hl => absurd hl (h e l.message)⟩

/-! ## Sections written -/

theorem write_eq_ok_iff {src : Bytes} {n : Nat} : f.write src m = .ok n m' ↔ src.length ≤ f.length.max ∧
    m.position + f.lengthSize + src.length ≤ m.capacity ∧ n = src.length ∧ m' = m.written (f.image src) := by
  by_cases hp : m.position ≤ m.capacity
  · rw [f.writes_write src hp, Sections.length_data_image, Nat.add_assoc]
  · refine iff_of_false (fun h => ?_) (by omega)
    unfold write at h
    simp only [bind_eq_ok_iff, Pass.look_eq_ok_iff, Message.advance_eq_ok_iff] at h
    obtain ⟨_, _, ⟨-, rfl⟩, _, _, ⟨hs, -⟩, -⟩ := h
    omega

theorem read_written {src : Bytes} (h : m.actingVersion.includes f.since = true) (hl : src.length ≤ f.length.max)
    (hs : m.position + f.lengthSize + src.length ≤ m.capacity) :
    f.read { m.written (f.image src) with position := m.position } = .ok src (m.written (f.image src)) := by
  have himage : m.position + (f.image src).length ≤ m.buffer.size := by
    rw [Sections.length_data_image, ← Nat.add_assoc]
    exact hs
  obtain ⟨_, hread, rfl⟩ := reads_fetch h hl none (m := { m.written (f.image src) with position := m.position }) rfl
    (Buffer.shows_stamp himage)
  exact hread

/-- A section that is not newer than the message, wherever the cursor is and whatever the length says: what is
read, what a slice of any length gets of it, and what is written. On a machine it is the same. -/
theorem sections_transfer_alike (h : m.actingVersion.includes f.since = true) :
    let start := m.position + f.lengthSize
    let length := f.lengthAt m
    let data := (m.buffer.extract start (start + length)).toList
    (Succeeds f.read m ↔ start ≤ m.capacity ∧ start + length ≤ m.capacity) ∧
    (∀ bytes m', f.read m = .ok bytes m' →
      bytes = data ∧ bytes.length = length ∧ m' = { m with position := start + length }) ∧
    (∀ dst : Buffer, f.copyOver ⟨m, dst⟩ = lent dst (f.copy dst.toList m) ∧
      (Succeeds f.copyOver ⟨m, dst⟩ ↔ Succeeds f.read m) ∧
      (∀ n l, f.copyOver ⟨m, dst⟩ = .ok n l → n = min length dst.size ∧
        l.dst.toList = data.take n ++ dst.toList.drop n ∧ l.message = { m with position := start + length }) ∧
      ∀ e l, f.copyOver ⟨m, dst⟩ = .error e l → f.read m = .error e l.message ∧ l.dst = dst) ∧
    (∀ src : Bytes, (Succeeds (f.write src) m ↔ src.length ≤ f.length.max ∧ start + src.length ≤ m.capacity) ∧
      ∀ n m', f.write src m = .ok n m' → n = src.length ∧ m'.position = start + src.length ∧
        f.read { m' with position := m.position } = .ok src m') ∧
    (m.capacity < 2 ^ (63 : Nat) → Realizes Handle.of (Machine.readData f) f.read m ∧
      (∀ dst, Realizes Handle.of (Machine.copyData f dst) (f.copy dst) m) ∧
      ∀ src : Bytes, src.length < 2 ^ (63 : Nat) → Realizes Handle.of (Machine.writeData f src) (f.write src) m) := by
  intro start length data
  have hdata (hs : start + length ≤ m.capacity) : data.length = length := by
    have hs : start + length ≤ m.buffer.size := hs
    simp [data]
    omega
  have hread : Succeeds f.read m ↔ start ≤ m.capacity ∧ start + length ≤ m.capacity := by
    unfold Succeeds
    simp only [read_eq_ok_iff h]
    grind
  refine ⟨hread, fun bytes m' hr => ?_, fun dst => ⟨copyOver_eq_lent f m dst, succeeds_copyOver_iff, fun n l hc => ?_,
    fun e l hc => ?_⟩, fun src => ⟨?_, fun n m' hw => ?_⟩, fun hm => ?_⟩
  · obtain ⟨-, hs, rfl, rfl⟩ := (read_eq_ok_iff h).mp hr
    exact ⟨rfl, hdata hs, rfl⟩
  · obtain ⟨-, hs, rfl, hdst, hmessage⟩ := (copyOver_eq_ok_iff h).mp hc
    have htake : (m.buffer.extract start (start + min length dst.size)).toList = data.take (min length dst.size) := by
      refine Buffer.extract_of_le ?_ ?_
      · rw [hdata hs]
      · rw [hdata hs]
        exact Nat.min_le_left ..
    exact ⟨rfl, hdst.trans (congrArg (· ++ _) htake), hmessage⟩
  · exact copyOver_eq_error_iff.mp hc
  · unfold Succeeds
    simp only [write_eq_ok_iff]
    grind
  · obtain ⟨hl, hs, rfl, rfl⟩ := write_eq_ok_iff.mp hw
    refine ⟨rfl, ?_, read_written h hl hs⟩
    rw [Message.position_written, Sections.length_data_image, ← Nat.add_assoc]
  · exact ⟨Machine.realizes_readData hm, fun dst => Machine.realizes_copyData hm,
      fun src hsrc => Machine.realizes_writeData hm hsrc⟩

def note : Message := { Message.ofBuffer {} #[9, 0, 3, 7, 8, 9, 5, 5] with position := 1 }

def noteFormat : DataFormat := { length := .w16, order := .big }

theorem sections_transfer_alike_note :
    note.actingVersion.includes noteFormat.since = true ∧ Succeeds noteFormat.copyOver ⟨note, #[1, 1]⟩ ∧
      (∀ n l, noteFormat.copyOver ⟨note, #[1, 1]⟩ = .ok n l → l.dst.toList = [7, 8] ∧ l.message.position = 6) ∧
      ¬ Succeeds (noteFormat.write [1, 2, 3, 4, 5, 6]) note := by
  have hpresent : note.actingVersion.includes noteFormat.since = true := by decide
  obtain ⟨hread, -, hcopy, hwrite, -⟩ := sections_transfer_alike hpresent
  obtain ⟨-, hsame, hok, -⟩ := hcopy #[1, 1]
  refine ⟨hpresent, hsame.mpr (hread.mpr (by decide)), fun n l hl => ?_, fun h => ?_⟩
  · obtain ⟨rfl, hdst, hmessage⟩ := hok n l hl
    rw [hdst, hmessage]
    decide
  · exact absurd ((hwrite _).1.mp h) (by decide)

end DataFormat

end SimpleBinary
