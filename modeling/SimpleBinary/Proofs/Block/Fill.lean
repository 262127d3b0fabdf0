import SimpleBinary.Proofs.Block.Placement
import SimpleBinary.Proofs.Buffer.Image

/-!
# Blocks written field by field

A block is written by accesses to its fields, and to the members of its composites. An `Amendment` is
such accesses together with what they make of the bytes that the block held. They make the same of them
wherever the block stands (`performAll_puts`), and amendments of adjoining parts make up one of the
whole. A `Fill` is an amendment of which what the block held is no part. Every byte string is the
content of some fill.
-/

namespace SimpleBinary

namespace Buffer

theorem patch_append (a b : Bytes) : ∀ (buffer : Buffer) (offset : Nat),
    (buffer.patch offset a).patch (offset + a.length) b = buffer.patch offset (a ++ b) := by
  induction a with
  | nil => intro buffer offset; rfl
  | cons byte a ih =>
    intro buffer offset
    rw [List.cons_append, patch, patch, ← ih, List.length_cons, Nat.add_assoc, Nat.add_comm a.length]

theorem patch_all {buffer : Buffer} {bytes : Bytes} (h : buffer.size = bytes.length) :
    buffer.patch 0 bytes = bytes.toArray := by
  apply Array.ext_getElem?
  intro i
  rw [getElem?_patch, show bytes.toArray[i]? = bytes[i]? from List.getElem?_toArray ..]
  by_cases hi : i < bytes.length
  · rw [if_pos (by omega), Nat.sub_zero]
  · rw [if_neg (by omega), List.getElem?_eq_none (by omega), Array.getElem?_eq_none (by omega)]

end Buffer

def Block.reach (b : Block) : List CompositeField → Buffer → Except AccessError Block
  | [], _ => .ok b
  | f :: path, buffer => do (← b.enter f buffer).reach path buffer

structure Put where
  path : List CompositeField := []
  access : Access

namespace Put

def perform (b : Block) (p : Put) : Edit Reply := do
  let inner ← Edit.look (b.reach p.path)
  p.access.perform inner

def performAll (b : Block) : List Put → Edit Unit
  | [] => pure ()
  | p :: rest => do
    let _ ← p.perform b
    performAll b rest

end Put

/-- Accesses to a block of `n` bytes, and what they make of the bytes that were there. -/
structure Amendment (n : Nat) where
  puts : List Put
  amend : Bytes → Bytes
  amends : ∀ (version : Version) (old : Buffer), old.size = n →
    Put.performAll ⟨0, version⟩ puts old = .ok () (amend old.toList).toArray

/-- An amendment that leaves nothing of what was there. -/
structure Fill (n : Nat) extends Amendment n where
  bytes : Bytes
  amend_eq : ∀ old : Bytes, old.length = n → amend old = bytes

section
variable {base : Nat}

theorem Block.reach_shift {buffer inner : Buffer} (hb : base + inner.size ≤ buffer.size) :
    ∀ (path : List CompositeField) (b c : Block), b.reach path inner = .ok c →
      (b.shift base).reach path (buffer.embed base inner) = .ok (c.shift base)
  | [], b, c, h => by
    cases h; rfl
  | f :: path, b, c, h => by
    unfold reach at h ⊢
    cases hf : b.enter f inner with
    | error e => rw [hf] at h; cases h
    | ok d =>
      rw [hf] at h
      rw [enter_shift b hb hf]
      exact reach_shift hb path d c h

theorem Block.enter_eq_ok {b : Block} {f : CompositeField} {buffer : Buffer}
    (h : b.base + f.offset + f.size ≤ buffer.size) :
    b.enter f buffer = .ok ⟨b.base + f.offset, b.version⟩ := by
  unfold enter Buffer.window
  rw [if_pos h]
  rfl

namespace Put

theorem carries_perform (b : Block) (p : Put) :
    Edit.Carries base (p.perform b) (p.perform (b.shift base)) := by
  intro buffer inner written r hb h
  obtain ⟨c, t, hc, ha⟩ := bind_eq_ok_iff.mp h
  obtain ⟨hc, rfl⟩ := Edit.look_eq_ok_iff.mp hc
  obtain ⟨hs, ha'⟩ := c.carries_perform p.access hb ha
  have hr := Edit.look_eq_ok_iff.mpr ⟨b.reach_shift hb p.path c hc, rfl⟩
  exact ⟨hs, bind_eq_ok_iff.mpr ⟨_, _, hr, ha'⟩⟩

theorem size_of_perform {b : Block} {p : Put} {old written : Buffer} {r : Reply}
    (h : p.perform b old = .ok r written) : written.size = old.size := by
  have hc : Edit.Carries 0 (p.perform b) (p.perform (b.shift 0)) := carries_perform b p
  exact (hc (Nat.le_of_eq (Nat.zero_add old.size)) h).1

theorem carries_performAll (b : Block) :
    ∀ puts : List Put, Edit.Carries base (performAll b puts) (performAll (b.shift base) puts)
  | [] => Edit.carries_pure ()
  | p :: rest => (carries_perform b p).bind fun _ => carries_performAll b rest

theorem performAll_access {b : Block} {a : Access} {old written : Buffer} (h : a.perform b old = .ok .done written) :
    performAll b [{ access := a }] old = .ok () written := by
  refine bind_eq_ok_iff.mpr ⟨.done, written, ?_, pure_eq_ok_iff.mpr ⟨rfl, rfl⟩⟩
  exact bind_eq_ok_iff.mpr ⟨b, old, Edit.look_eq_ok_iff.mpr ⟨rfl, rfl⟩, h⟩

theorem performAll_append {b : Block} {puts rest : List Put} {old t written : Buffer}
    (h : performAll b puts old = .ok () t) (h' : performAll b rest t = .ok () written) :
    performAll b (puts ++ rest) old = .ok () written := by
  induction puts generalizing old with
  | nil =>
    obtain ⟨_, rfl⟩ := pure_eq_ok_iff.mp h
    exact h'
  | cons p puts ih =>
    obtain ⟨r, s, hr, h⟩ := bind_eq_ok_iff.mp h
    exact bind_eq_ok_iff.mpr ⟨r, s, hr, ih h⟩

def under (f : CompositeField) (p : Put) : Put := { p with path := f :: p.path }

theorem performAll_under (b : Block) (f : CompositeField) :
    ∀ (puts : List Put) (old written : Buffer), b.base + f.offset + f.size ≤ old.size →
      performAll ⟨b.base + f.offset, b.version⟩ puts old = .ok () written →
      performAll b (puts.map (under f)) old = .ok () written
  | [], _, _, _, h => h
  | p :: puts, old, written, hs, h => by
    obtain ⟨r, t, hr, h'⟩ := bind_eq_ok_iff.mp h
    have ht : b.base + f.offset + f.size ≤ t.size := by rw [size_of_perform hr]; exact hs
    obtain ⟨c, s, hc, ha⟩ := bind_eq_ok_iff.mp hr
    obtain ⟨hc, rfl⟩ := Edit.look_eq_ok_iff.mp hc
    have hreach : b.reach (f :: p.path) s = .ok c := by
      unfold Block.reach
      rw [Block.enter_eq_ok hs]
      exact hc
    have hput : (p.under f).perform b s = .ok r t :=
      bind_eq_ok_iff.mpr ⟨c, s, Edit.look_eq_ok_iff.mpr ⟨hreach, rfl⟩, ha⟩
    exact bind_eq_ok_iff.mpr ⟨r, t, hput, performAll_under b f puts t written ht h'⟩

end Put

end

namespace Amendment
variable {n : Nat}

theorem length_amend (a : Amendment n) {old : Bytes} (h : old.length = n) : (a.amend old).length = n := by
  have hbase : 0 + old.toArray.size ≤ old.toArray.size := Nat.le_of_eq (Nat.zero_add _)
  exact (Put.carries_performAll ⟨0, 0⟩ a.puts hbase (a.amends 0 old.toArray h)).1.trans h

theorem performAll_puts (a : Amendment n) {base : Nat} (version : Version) {buffer : Buffer}
    (h : base + n ≤ buffer.size) : Put.performAll ⟨base, version⟩ a.puts buffer =
      .ok () (buffer.patch base (a.amend (buffer.extract base (base + n)).toList)) := by
  have hs : (buffer.extract base (base + n)).size = n := by rw [Array.size_extract]; omega
  have hb : base + (buffer.extract base (base + n)).size ≤ buffer.size := by rwa [hs]
  obtain ⟨_, h'⟩ := Put.carries_performAll ⟨0, version⟩ a.puts hb (a.amends version _ hs)
  rw [Buffer.embed_extract h] at h'
  exact h'

def keep (n : Nat) : Amendment n where
  puts := []
  amend := id
  amends _ _ _ := rfl

def append {k : Nat} (first : Amendment n) (second : Amendment k) : Amendment (n + k) where
  puts := first.puts ++ second.puts.map (Put.under { offset := n, size := k })
  amend old := first.amend (old.take n) ++ second.amend (old.drop n)
  amends version old h := by
    let front := first.amend (old.toList.take n)
    let back := second.amend (old.toList.drop n)
    have hfront : front.length = n := first.length_amend (by rw [List.length_take, Array.length_toList]; omega)
    have hback : back.length = k := second.length_amend (by rw [List.length_drop, Array.length_toList]; omega)
    have hsize : (old.patch 0 front).size = n + k := by rw [Buffer.size_patch, h]
    have hfirst : Put.performAll ⟨0, version⟩ first.puts old = .ok () (old.patch 0 front) := by
      have htake : (old.extract 0 (0 + n)).toList = old.toList.take n := by simp
      rw [first.performAll_puts version (by omega), htake]
    have hsecond : Put.performAll ⟨0 + n, version⟩ second.puts (old.patch 0 front) =
        .ok () ((old.patch 0 front).patch (0 + n) back) := by
      -- the second block is as it was, for the first is in front of it
      have hdrop : ((old.patch 0 front).extract (0 + n) (0 + n + k)).toList = old.toList.drop n := by
        rw [Array.toList_extract, Buffer.toList_patch_zero (by omega), hfront, Nat.zero_add,
          List.extract_eq_take_drop, List.drop_left' hfront, Nat.add_sub_cancel_left]
        exact List.take_of_length_le (by rw [List.length_drop, Array.length_toList]; omega)
      rw [second.performAll_puts version (by omega), hdrop]
    have hunder := Put.performAll_under ⟨0, version⟩ { offset := n, size := k } second.puts _ _
      (by rw [hsize]; show 0 + n + k ≤ n + k; omega) hsecond
    have hpatch : (old.patch 0 front).patch (0 + n) back = (front ++ back).toArray := by
      rw [← hfront, Buffer.patch_append, Buffer.patch_all (by rw [List.length_append]; omega)]
    rw [hpatch] at hunder
    exact Put.performAll_append hfirst hunder

end Amendment

namespace Fill
variable {n : Nat}

theorem length_bytes (fill : Fill n) : fill.bytes.length = n := by
  rw [← fill.amend_eq (List.replicate n 0) List.length_replicate]
  exact fill.length_amend List.length_replicate

theorem performAll_puts (fill : Fill n) {base : Nat} (version : Version) {buffer : Buffer}
    (h : base + n ≤ buffer.size) :
    Put.performAll ⟨base, version⟩ fill.puts buffer = .ok () (buffer.patch base fill.bytes) := by
  rw [fill.toAmendment.performAll_puts version h, fill.amend_eq]
  rw [Array.length_toList, Array.size_extract]
  omega

theorem store_eq_ok (version : Version) {bytes : Bytes} {old : Buffer} (h : old.size = bytes.length) :
    (Block.mk 0 version).store 0 bytes old = .ok () bytes.toArray :=
  Edit.overwrite_eq_ok_iff.mpr ⟨by show 0 + bytes.length ≤ old.size; omega, (Buffer.patch_all h).symm⟩

def ofBytes (bytes : Bytes) : Fill bytes.length where
  bytes := bytes
  puts := [{ access := .putArray { offset := 0, length := bytes.length } bytes }]
  amend _ := bytes
  amend_eq _ _ := rfl
  amends version old h := by
    refine Put.performAll_access (map_eq_ok_iff.mpr ⟨(), ?_, rfl⟩)
    unfold Block.putArray
    rw [if_neg (Nat.lt_irrefl _), List.take_length]
    exact store_eq_ok version h

def ofLength (bytes : Bytes) (h : bytes.length = n) : Fill n := h ▸ ofBytes bytes

@[simp] theorem bytes_ofLength (bytes : Bytes) (h : bytes.length = n) : (ofLength bytes h).bytes = bytes := by
  subst h
  rfl

def ofValue (c : Carrier) (order : ByteOrder) (v : c.Value) : Fill c.bytes where
  bytes := c.encode order v
  puts := [{ access := .put { offset := 0, order := order } v }]
  amend _ := c.encode order v
  amend_eq _ _ := rfl
  amends version old h := by
    refine Put.performAll_access (map_eq_ok_iff.mpr ⟨(), ?_, rfl⟩)
    exact store_eq_ok version (by rw [h, c.length_encode])

def append {k : Nat} (first : Fill n) (second : Fill k) : Fill (n + k) where
  toAmendment := first.toAmendment.append second.toAmendment
  bytes := first.bytes ++ second.bytes
  amend_eq old h := by
    show first.amend (old.take n) ++ second.amend (old.drop n) = _
    rw [first.amend_eq _ (by rw [List.length_take]; omega), second.amend_eq _ (by rw [List.length_drop]; omega)]

end Fill

end SimpleBinary
