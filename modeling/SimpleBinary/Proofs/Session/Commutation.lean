import SimpleBinary.Proofs.Session.Locality

/-!
# Writes to the root block can wait

While a message is encoded, its sections come after the root block, and the elements of its groups lie
in the sections. So a write to the root block and the encoding of sections do not see each other: the
write can be done before them or after them, and no answer, no byte and not the position is different.
-/

namespace SimpleBinary

/-! ## Runs with writes to the root block -/

/-- A call, or a write to the root block of the message, whatever is open. -/
inductive Act
  | call (c : Call)
  | root (p : Put)

def Act.perform : Act → Session.Step Reply
  | call c => Session.perform c
  | root p => do
    let b := (← get).message.root
    Session.Step.pass (Pass.edit (p.perform b))

def Act.Stays : Act → Prop
  | call c => ¬ c.Places
  | root _ => True

namespace Session

def Along (P : Session → Call → Prop) (s : Session) : List Call → Prop
  | [] => True
  | c :: rest => P s c ∧ (s.call c).2.Along P rest

def act (s : Session) (a : Act) : Except AccessError Reply × Session :=
  match a.perform s with
  | .ok r s => (.ok r, s)
  | .error e s => (.error e, s)

def acts (s : Session) : List Act → List (Except AccessError Reply) × Session
  | [] => ([], s)
  | a :: rest =>
    let (answer, s) := s.act a
    let (answers, s) := s.acts rest
    (answer :: answers, s)

section
variable {P : Nat → Prop} {s s' : Session} {a : Act} {p : Put}

theorem snd_act (a : Act) : (s.act a).2 = final (a.perform s) := by
  unfold act
  cases a.perform s <;> rfl

theorem acts_append (xs ys : List Act) :
    s.acts (xs ++ ys) = ((s.acts xs).1 ++ ((s.acts xs).2.acts ys).1, ((s.acts xs).2.acts ys).2) := by
  induction xs generalizing s with
  | nil => rfl
  | cons a xs ih =>
    show ((s.act a).1 :: ((s.act a).2.acts (xs ++ ys)).1, ((s.act a).2.acts (xs ++ ys)).2) = _
    rw [ih]
    rfl

theorem length_acts (as : List Act) : (s.acts as).1.length = as.length := by
  induction as generalizing s with
  | nil => rfl
  | cons a as ih => exact congrArg (· + 1) ih

theorem acts_map_call (cs : List Call) : s.acts (cs.map .call) = s.calls cs := by
  induction cs generalizing s with
  | nil => rfl
  | cons c cs ih =>
    show ((s.call c).1 :: ((s.call c).2.acts (cs.map .call)).1, ((s.call c).2.acts (cs.map .call)).2) = _
    rw [ih]
    rfl

theorem act_of_alike {R : Session → Session → Prop} (h : Alike R a.perform s s') :
    (s'.act a).1 = (s.act a).1 ∧ R (s.act a).2 (s'.act a).2 := by
  unfold act
  cases h with
  | ok left right related =>
    rw [left, right]
    exact ⟨rfl, related⟩
  | error left right related =>
    rw [left, right]
    exact ⟨rfl, related⟩

theorem sameOn_root (s : Session) (p : Put) :
    s.SameOn (fun i => ¬ p.Touches s.message.root i) (s.act (.root p)).2 := by
  have hfinal : (s.act (.root p)).2 =
      { s with message := { s.message with buffer := final (p.perform s.message.root s.message.buffer) } } := by
    rw [snd_act]
    show final (Step.pass (Pass.edit (p.perform s.message.root)) s) = _
    rw [final_pass, Message.final_edit]
  rw [hfinal]
  exact ⟨.of_buffer (p.changes_perform _ _), rfl⟩

theorem alike_root (hl : p.access.lookup? = none) (hP : ∀ i, p.Touches s.message.root i → P i)
    (hroot : s'.message.root = s.message.root) (hb : s.message.buffer.SameOn P s'.message.buffer) :
    Alike (Over fun m m' => m.buffer.SameOn P m'.buffer) (Act.root p).perform s s' := by
  refine .get (by rw [hroot]) (Step.alike_pass (Pass.alike_edit ?_ fun _ _ hb => hb) fun _ _ hm => hm)
  exact p.alike_perform hl hP hb

theorem sameOn_access (s : Session) (a : Access) :
    s.SameOn (fun i => ¬ a.Touches s.block i) (s.call (.access a)).2 := by
  rw [snd_call, final_access]
  exact ⟨.of_buffer (a.changes_perform _ _), rfl⟩

end

/-! ## Sections behind the root block -/

section
variable {n : Nat} {s : Session} {c : Call} {a : Act} {p : Put}

/-- The sections that are open and those to come are at `n` or behind it. -/
structure Apart (n : Nat) (s : Session) : Prop where
  position_le : n ≤ s.message.position
  group_le : ∀ g, .group g ∈ s.scopes → n ≤ g.elementOffset

theorem Apart.call (hs : s.Apart n) (hc : ¬ c.Places) : (s.call c).2.Apart n := by
  have hforward := forward_perform hc s
  rw [snd_call]
  refine ⟨Nat.le_trans hs.position_le hforward.2, fun g hg => ?_⟩
  rcases mem_scopes_perform hg with hg | hg
  · exact hs.group_le g hg
  · cases c with
    | decodeGroup f =>
      obtain ⟨g, m, hdecode, hx⟩ := hg
      cases hx
      rw [(Group.decode_fresh hdecode).2]
      exact hs.position_le
    | encodeGroup f count =>
      obtain ⟨g, m, hencode, hx⟩ := hg
      cases hx
      obtain ⟨-, rfl⟩ := Group.eq_of_encode hencode
      exact hs.position_le
    | next =>
      obtain ⟨g, g', m, -, hnext, hx⟩ := hg
      cases hx
      obtain ⟨-, -, rfl, -⟩ := Group.next_eq_ok_iff.mp hnext
      exact hs.position_le
    | openComposite f | enterComposite f =>
      obtain ⟨inner, -, hx⟩ := hg
      cases hx
    | move | enterRoot => cases hg
    | _ => exact hg.elim

theorem Apart.root (hs : s.Apart n) (p : Put) : (s.act (.root p)).2.Apart n := by
  have hroot := sameOn_root s p
  refine ⟨?_, ?_⟩
  · rw [hroot.message.position_eq]
    exact hs.position_le
  · rw [hroot.scopes]
    exact hs.group_le

theorem root_call (hc : ¬ c.Places) : (s.call c).2.message.root = s.message.root := by
  rw [snd_call]
  exact (sameHead_perform hc s).root_eq

theorem Apart.acts (hs : s.Apart n) (as : List Act) (has : ∀ a ∈ as, a.Stays) :
    (s.acts as).2.Apart n ∧ (s.acts as).2.message.root = s.message.root := by
  induction as generalizing s with
  | nil => exact ⟨hs, rfl⟩
  | cons a as ih =>
    have hrest := fun b hb => has b (List.mem_cons_of_mem _ hb)
    cases a with
    | call c =>
      have hc : ¬ c.Places := has (.call c) List.mem_cons_self
      obtain ⟨hapart, hroot⟩ := ih (hs.call hc) hrest
      exact ⟨hapart, hroot.trans (root_call hc)⟩
    | root p =>
      obtain ⟨hapart, hroot⟩ := ih (hs.root p) hrest
      exact ⟨hapart, hroot.trans (sameOn_root s p).root_eq⟩

theorem Encodes.stays (hc : s.Encodes c) : ¬ c.Places := by
  cases c <;> first | exact hc.elim | exact id

theorem Encodes.framed (hc : s.Encodes c) : c.Framed := by
  cases c <;> first | exact hc.elim | exact hc | trivial

theorem Apart.le_acting (hs : s.Apart n) {scopes : List Scope} (hscopes : ∀ x ∈ scopes, x ∈ s.scopes)
    (he : InElement scopes) : n ≤ (acting s.message scopes).1 := by
  induction scopes with
  | nil => exact he.elim
  | cons x outer ih =>
    cases x with
    | group g => exact hs.group_le g (hscopes _ List.mem_cons_self)
    | composite b => exact ih (fun y hy => hscopes y (List.mem_cons_of_mem _ hy)) he
    | root => exact he.elim

theorem Apart.le_of_touches (hs : s.Apart n) (hc : s.Encodes c) {i : Nat} (ht : s.Touches i c) : n ≤ i := by
  cases c with
  | access a => exact Nat.le_trans (hs.le_acting (fun _ hx => hx) hc.1) (hc.2.2 i ht).1
  | encodeGroup | writeData => exact Nat.le_trans hs.position_le ht.1
  | _ => exact ht.elim

theorem call_root (hs : s.Apart n) (hc : s.Encodes c) (hl : p.access.lookup? = none)
    (hp : ∀ i, p.Touches s.message.root i → i < n) :
    ((s.act (.root p)).2.call c).1 = (s.call c).1 ∧
      ((s.call c).2.act (.root p)).1 = (s.act (.root p)).1 ∧
      ((s.call c).2.act (.root p)).2 = ((s.act (.root p)).2.call c).2 := by
  have hbehind {t : Session} (ht : t.message.root = s.message.root) : t.SameOn (n ≤ ·) (t.act (.root p)).2 :=
    (sameOn_root t p).mono fun i hi htouches => Nat.not_le.mpr (hp i (ht ▸ htouches)) hi
  have hfront {t : Session} (ht : t.Apart n) (hct : t.Encodes c) :
      t.message.buffer.SameOn (· < n) (t.call c).2.message.buffer := by
    rw [snd_call]
    exact (changes_perform hct.framed).mono fun i hi htouches => Nat.not_le.mpr hi (ht.le_of_touches hct htouches)
  -- each of the two goes alike before and after the other, for it touches no byte that the other does
  have hroot := hbehind (t := s) rfl
  have hcall := act_of_alike (a := .call c) (alike_perform hc (fun a ha i hi => ?_) hroot)
  · have hput := act_of_alike (a := .root p) (alike_root hl hp (root_call hc.stays) (hfront hs hc))
    refine ⟨hcall.1, hput.1, ?_⟩
    -- behind `n` the bytes are the call's in both orders, and in front of it the write's
    refine eq_of_sameOn n hcall.2 (hbehind (root_call hc.stays)) ?_
    exact trans_of (Buffer.SameOn (· < n)) (hfront (hs.root p) (hroot.encodes hc)).symm hput.2
  · subst ha
    exact hs.le_of_touches hc hi

theorem calls_root (hs : s.Apart n) (cs : List Call) (hcs : s.Along Encodes cs) (hl : p.access.lookup? = none)
    (hp : ∀ i, p.Touches s.message.root i → i < n) :
    ((s.act (.root p)).2.calls cs).1 = (s.calls cs).1 ∧
      (s.calls cs).2.act (.root p) = ((s.act (.root p)).1, ((s.act (.root p)).2.calls cs).2) := by
  induction cs generalizing s with
  | nil => exact ⟨rfl, rfl⟩
  | cons c cs ih =>
    obtain ⟨hc, hrest⟩ := hcs
    obtain ⟨hanswer, hwritten, hleft⟩ := call_root hs hc hl hp
    have hroot : (s.call c).2.message.root = s.message.root := root_call hc.stays
    obtain ⟨hanswers, hlast⟩ := ih (hs.call hc.stays) hrest (hroot ▸ hp)
    rw [hleft] at hanswers hlast
    constructor
    · show ((s.act (.root p)).2.call c).1 :: (((s.act (.root p)).2.call c).2.calls cs).1 = _
      rw [hanswer, hanswers]
      rfl
    · rw [hwritten] at hlast
      exact hlast

end

theorem apart_startEncode {s s₁ : Session} {offset : Nat} (hopen : s.scopes = [])
    (h : s.call (.startEncode offset) = (.ok .done, s₁)) :
    s₁.Apart (offset + s.message.template.blockLength.toNat) := by
  obtain ⟨_, hpass, -⟩ := map_eq_ok_iff.mp (perform_of_call h)
  obtain ⟨hm, hscopes⟩ := Step.pass_eq_ok_iff.mp hpass
  obtain ⟨-, hm⟩ := Message.startEncode_eq_ok_iff.mp hm
  refine ⟨?_, fun g hg => ?_⟩
  · rw [hm]
    exact Nat.le_refl _
  · rw [hscopes, hopen] at hg
    cases hg

/-- What a call, a field and a field of the root block may change, in whatever state; and for that reason:
while a message is encoded without placing the cursor again, a write to the root block can wait until
others, to sections and elements, are done. All get the same answers, and the same session is left. -/
theorem writes_stay_apart :
    (∀ (s : Session) (c : Call), c.Framed →
      s.message.buffer.SameOn (fun i => ¬ s.Touches i c) (s.call c).2.message.buffer) ∧
    (∀ (s : Session) (a : Access), s.SameOn (fun i => ¬ a.Touches s.block i) (s.call (.access a)).2) ∧
    (∀ (s : Session) (p : Put), s.SameOn (fun i => ¬ p.Touches s.message.root i) (s.act (.root p)).2) ∧
    ∀ {s s₁ : Session} {offset : Nat} {before after : List Act} {p : Put} {others : List Call}, s.scopes = [] →
      s.call (.startEncode offset) = (.ok .done, s₁) → (∀ a ∈ before, a.Stays) → p.access.lookup? = none →
      (∀ i, p.Touches s₁.message.root i → i < offset + s.message.template.blockLength.toNat) →
      (s₁.acts before).2.Along Encodes others →
      ∃ (earlier encoded later : List (Except AccessError Reply)) (answer : Except AccessError Reply) (t : Session),
        earlier.length = before.length ∧ encoded.length = others.length ∧
        s₁.acts (before ++ .root p :: (others.map .call ++ after)) = (earlier ++ answer :: (encoded ++ later), t) ∧
        s₁.acts (before ++ (others.map .call ++ .root p :: after)) = (earlier ++ (encoded ++ answer :: later), t) := by
  refine ⟨fun s c hc => ?_, sameOn_access, sameOn_root, ?_⟩
  · rw [snd_call]
    exact changes_perform hc
  · intro s s₁ offset before after p others hopen hstart hbefore hl hp hothers
    obtain ⟨hapart, hroot⟩ := (apart_startEncode hopen hstart).acts before hbefore
    obtain ⟨hanswers, hlast⟩ := calls_root hapart others hothers hl (hroot ▸ hp)
    let u := (s₁.acts before).2
    let w := (u.act (.root p)).2.calls others
    refine ⟨(s₁.acts before).1, w.1, (w.2.acts after).1, (u.act (.root p)).1, (w.2.acts after).2, ?_, ?_, ?_, ?_⟩
    · exact length_acts before
    · show (Session.calls _ others).1.length = _
      rw [← acts_map_call, length_acts, List.length_map]
    · rw [acts_append]
      show (_ ++ (u.act (.root p)).1 :: ((u.act (.root p)).2.acts _).1, ((u.act (.root p)).2.acts _).2) = _
      rw [acts_append, acts_map_call]
    · rw [acts_append, acts_append, acts_map_call]
      show (_ ++ (_ ++ ((u.calls others).2.act (.root p)).1 :: (((u.calls others).2.act (.root p)).2.acts after).1),
        (((u.calls others).2.act (.root p)).2.acts after).2) = _
      rw [hlast, ← hanswers]

def parcel : Session := .ofBuffer { blockLength := 2 } (Array.replicate 10 0)

def parcelSections : List Call :=
  let weight : Field (.unsigned .w8) := { offset := 0 }
  [.encodeGroup { blockLength := 1 } 1, .next, .access (.put weight (7 : BitVec 8)), .leave,
    .writeData { length := .w8 } [1, 2]]

def parcelNumber : Put where
  access :=
    let number : Field (.unsigned .w16) := { offset := 0 }
    .put number (0x0102 : BitVec 16)

theorem writes_stay_apart_parcel :
    let s := (parcel.call (.startEncode 0)).2
    s.Along Encodes parcelSections ∧ (∀ i, parcelNumber.Touches s.message.root i → i < 2) ∧
      (s.acts (.root parcelNumber :: parcelSections.map .call)).2 =
        (s.acts (parcelSections.map .call ++ [.root parcelNumber])).2 ∧
      (s.acts (parcelSections.map .call ++ [.root parcelNumber])).2.message.buffer =
        #[2, 1, 1, 0, 1, 0, 7, 2, 1, 2] := by
  intro s
  have htouches : ∀ i, parcelNumber.Touches s.message.root i → i < 2 := by
    rintro i ⟨u, hu, -, hi⟩
    cases hu
    exact hi
  let t := ((s.call (.encodeGroup { blockLength := 1 } 1)).2.call .next).2
  have hscopes : t.scopes = [.group ⟨1, 1, 1, 6⟩] := by decide +kernel
  have hblock : t.block = ⟨6, 0⟩ := by decide +kernel
  have halong : s.Along Encodes parcelSections := by
    refine ⟨⟨by decide, by decide⟩, trivial, ⟨?_, rfl, ?_⟩, trivial, trivial, trivial⟩
    · show InElement t.scopes
      rw [hscopes]
      trivial
    · show ∀ i, Access.Touches _ t.block i → (acting t.message t.scopes).1 ≤ i ∧ i < (acting t.message t.scopes).2
      rw [hscopes, hblock]
      rintro i ⟨u, hu, hi⟩
      cases hu
      exact hi
  obtain ⟨-, -, -, hwait⟩ := writes_stay_apart
  obtain ⟨earlier, encoded, later, answer, t, -, -, hfirst, hlast⟩ :=
    @hwait parcel s 0 [] [] parcelNumber parcelSections rfl rfl (fun a ha => nomatch ha) rfl htouches halong
  rw [List.append_nil] at hfirst
  exact ⟨halong, htouches, (congrArg Prod.snd hfirst).trans (congrArg Prod.snd hlast).symm, by decide⟩

end Session

end SimpleBinary
