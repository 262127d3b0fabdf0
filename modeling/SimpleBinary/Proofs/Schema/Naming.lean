import SimpleBinary.Proofs.Schema.Derivation

/-!
# Members found by name

Where a member of a header or of dimensions stands among the members, and what else stands there, does not matter
as long as its name is on one encoding only. A search for a name comes to the first encoding with it, so it depends
on the encodings with the name alone (`find?_named`), and these are the same in any order of the members and with
any others between them (`Rearranged.filter_perm`).
-/

namespace SimpleBinary

namespace Token

def named (name : String) (t : Token) : Bool := t.signal = .encoding && t.name = name

/-- What the interior of a composite may be: single tokens, each of the names on at most one encoding. -/
structure NamedOnce (names : List String) (members : List Token) : Prop where
  isLeaf : ∀ t ∈ members, t.signal.isLeaf = true
  atMostOne : ∀ name ∈ names, members.countP (named name) ≤ 1

/-- The second list has come from the first by changes of the order, and by single tokens that are not encodings
with one of the names coming in and going out. -/
inductive Rearranged (names : List String) : List Token → List Token → Prop
  | permuted {members members' : List Token} : members.Perm members' → Rearranged names members members'
  | inserted {t : Token} (before after : List Token) : t.signal.isLeaf = true →
      (∀ name ∈ names, named name t = false) → Rearranged names (before ++ after) (before ++ t :: after)
  | removed {t : Token} (before after : List Token) : (∀ name ∈ names, named name t = false) →
      Rearranged names (before ++ t :: after) (before ++ after)
  | trans {a b c : List Token} : Rearranged names a b → Rearranged names b c → Rearranged names a c

/-- The field is where the one encoding with the name is, and as wide and of the order that this one says. -/
def Gives (members : List Token) (name : String) (f : UnsignedField) : Prop :=
  ∃ t type, members.filter (named name) = [t] ∧ t.encoding.type = some type ∧ type.width? = some f.width ∧
    f.offset = t.offset ∧ f.order = t.encoding.order

section
variable {names : List String} {members members' : List Token} {name : String} {outer : Token}

theorem Rearranged.isLeaf (h : Rearranged names members members') (hleaf : ∀ t ∈ members, t.signal.isLeaf = true) :
    ∀ t ∈ members', t.signal.isLeaf = true := by
  induction h with
  | permuted hperm => exact fun t ht => hleaf t (hperm.mem_iff.mpr ht)
  | inserted before after ht _ =>
    intro u hu
    rcases List.mem_append.mp hu with hu | hu
    · exact hleaf u (List.mem_append_left _ hu)
    · rcases List.mem_cons.mp hu with rfl | hu
      · exact ht
      · exact hleaf u (List.mem_append_right _ hu)
  | removed before after _ =>
    intro u hu
    rcases List.mem_append.mp hu with hu | hu
    · exact hleaf u (List.mem_append_left _ hu)
    · exact hleaf u (List.mem_append_right _ (List.mem_cons_of_mem _ hu))
  | trans _ _ iha ihb => exact ihb (iha hleaf)

theorem filter_named_insert {t : Token} (before after : List Token) (ht : named name t = false) :
    (before ++ t :: after).filter (named name) = (before ++ after).filter (named name) := by
  rw [List.filter_append, List.filter_cons_of_neg (by rw [ht]; exact Bool.false_ne_true), ← List.filter_append]

theorem Rearranged.filter_perm (h : Rearranged names members members') (hname : name ∈ names) :
    (members.filter (named name)).Perm (members'.filter (named name)) := by
  induction h with
  | permuted hperm => exact hperm.filter _
  | inserted before after _ ht => rw [filter_named_insert before after (ht name hname)]
  | removed before after ht => rw [filter_named_insert before after (ht name hname)]
  | trans _ _ iha ihb => exact iha.trans ihb

theorem NamedOnce.filter_cases (hin : NamedOnce names members) (hname : name ∈ names) :
    members.filter (named name) = [] ∨ ∃ t, members.filter (named name) = [t] := by
  have hone := hin.atMostOne name hname
  rw [List.countP_eq_length_filter] at hone
  rcases hfilter : members.filter (named name) with _ | ⟨t, rest⟩
  · exact .inl rfl
  · rw [hfilter, List.length_cons] at hone
    obtain rfl : rest = [] := List.eq_nil_of_length_eq_zero (by omega)
    exact .inr ⟨t, rfl⟩

theorem Rearranged.filter_eq (h : Rearranged names members members') (hin : NamedOnce names members)
    (hname : name ∈ names) : members'.filter (named name) = members.filter (named name) := by
  have hperm := h.filter_perm hname
  rcases hin.filter_cases hname with hnone | ⟨t, hone⟩
  · rw [hnone] at hperm ⊢
    exact List.perm_nil.mp hperm.symm
  · rw [hone] at hperm ⊢
    exact List.perm_singleton.mp hperm.symm

theorem find?_named : members.find? (fun t => t.signal = .encoding && t.name = name) =
    (members.filter (named name)).head? :=
  List.head?_filter.symm

theorem Rearranged.unsignedMember_eq (h : Rearranged names members members') (hin : NamedOnce names members)
    (hname : name ∈ names) : outer.unsignedMember members' name = outer.unsignedMember members name := by
  unfold unsignedMember
  rw [find?_named, find?_named, h.filter_eq hin hname]

theorem type_eq_ok_iff {t : Token} {type : PrimitiveType} : t.type = .ok type ↔ t.encoding.type = some type := by
  unfold Token.type
  cases t.encoding.type <;> simp

theorem width_eq_ok_iff {t : Token} {w : Width} :
    t.width = .ok w ↔ ∃ type, t.encoding.type = some type ∧ type.width? = some w := by
  unfold width
  constructor
  · intro h
    obtain ⟨type, htype, hw⟩ := of_bind_eq_ok h
    refine ⟨type, type_eq_ok_iff.mp htype, ?_⟩
    cases hwidth : type.width? with
    | none =>
      rw [hwidth] at hw
      cases hw
    | some w' =>
      rw [hwidth] at hw
      obtain rfl := Except.ok.inj hw
      rfl
  · rintro ⟨type, htype, hw⟩
    refine (ok_bind (type_eq_ok_iff.mpr htype)).trans ?_
    rw [hw]
    rfl

theorem NamedOnce.unsignedMember_eq_ok_iff (hin : NamedOnce names members) (hname : name ∈ names) {f : UnsignedField} :
    outer.unsignedMember members name = .ok f ↔ Gives members name f := by
  unfold unsignedMember Gives
  rw [find?_named]
  rcases hin.filter_cases hname with hnone | ⟨t, hone⟩
  · rw [hnone]
    refine ⟨nofun, fun h => ?_⟩
    obtain ⟨_, _, hnil, -⟩ := h
    cases hnil
  · rw [hone]
    constructor
    · intro h
      obtain ⟨w, hw, hf⟩ := of_bind_eq_ok h
      obtain ⟨type, htype, hwidth⟩ := width_eq_ok_iff.mp hw
      cases hf
      exact ⟨t, type, rfl, htype, hwidth, rfl, rfl⟩
    · rintro ⟨_, type, heq, htype, hwidth, hoffset, horder⟩
      cases heq
      refine (ok_bind (width_eq_ok_iff.mpr ⟨type, htype, hwidth⟩)).trans ?_
      rw [← hoffset, ← horder]
      rfl

end

end Token

/-! ## Headers and dimensions -/

open Token (Gives NamedOnce Rearranged)

def HeaderFormat.memberNames : List String := ["blockLength", "templateId", "schemaId", "version"]

def Dimensions.memberNames : List String := ["blockLength", "numInGroup"]

section
variable {first last : Token} {members members' : List Token} (ho : first.signal = .beginComposite)
  (hc : last.signal = .endComposite)
include ho hc

theorem compositeParts_leaves (hleaf : ∀ t ∈ members, t.signal.isLeaf = true) :
    Token.compositeParts (first :: (members ++ [last])) = .ok (first, members) :=
  compositeParts_eq_ok ho hc (Token.nested_of_leaves hleaf)

theorem compositeParts_bind_rearranged {α : Type} {names : List String}
    {next : Token × List Token → Except SchemaError α} (hin : NamedOnce names members)
    (h : Rearranged names members members')
    (hnext : (∀ name ∈ names, first.unsignedMember members' name = first.unsignedMember members name) →
      next (first, members') = next (first, members)) :
    (Token.compositeParts (first :: (members' ++ [last])) >>= next) =
      (Token.compositeParts (first :: (members ++ [last])) >>= next) := calc
  (Token.compositeParts (first :: (members' ++ [last])) >>= next) = next (first, members') :=
    ok_bind (compositeParts_leaves ho hc (h.isLeaf hin.isLeaf))
  _ = next (first, members) := hnext fun _ hname => h.unsignedMember_eq hin hname
  _ = (Token.compositeParts (first :: (members ++ [last])) >>= next) :=
    (ok_bind (compositeParts_leaves ho hc hin.isLeaf)).symm

theorem HeaderFormat.ofTokens_rearranged (hin : NamedOnce memberNames members)
    (h : Rearranged memberNames members members') :
    ofTokens (first :: (members' ++ [last])) = ofTokens (first :: (members ++ [last])) := by
  refine compositeParts_bind_rearranged ho hc hin h fun hmember => ?_
  dsimp only
  rw [hmember "blockLength" (by decide), hmember "templateId" (by decide), hmember "schemaId" (by decide),
    hmember "version" (by decide)]

theorem Dimensions.ofTokens_rearranged (hin : NamedOnce memberNames members)
    (h : Rearranged memberNames members members') :
    ofTokens (first :: (members' ++ [last])) = ofTokens (first :: (members ++ [last])) := by
  refine compositeParts_bind_rearranged ho hc hin h fun hmember => ?_
  dsimp only
  rw [hmember "blockLength" (by decide), hmember "numInGroup" (by decide)]

/-- A header is read if and only if each of its names is on an encoding of an unsigned type. -/
theorem HeaderFormat.ofTokens_eq_ok_iff (hin : NamedOnce memberNames members) {h : HeaderFormat} :
    ofTokens (first :: (members ++ [last])) = .ok h ↔
      Gives members "blockLength" h.blockLength ∧ Gives members "templateId" h.templateId ∧
        Gives members "schemaId" h.schemaId ∧ Gives members "version" h.version ∧ h.size = first.size := by
  have hmember (name : String) (hname : name ∈ memberNames) {f : UnsignedField} :
      first.unsignedMember members name = .ok f ↔ Gives members name f := hin.unsignedMember_eq_ok_iff hname
  rw [← hmember "blockLength" (by decide), ← hmember "templateId" (by decide), ← hmember "schemaId" (by decide),
    ← hmember "version" (by decide)]
  constructor
  · intro hread
    obtain ⟨_, hparts, hread⟩ := of_bind_eq_ok hread
    obtain rfl := Except.ok.inj ((compositeParts_leaves ho hc hin.isLeaf).symm.trans hparts)
    obtain ⟨blockLength, hblockLength, hread⟩ := of_bind_eq_ok hread
    obtain ⟨templateId, htemplateId, hread⟩ := of_bind_eq_ok hread
    obtain ⟨schemaId, hschemaId, hread⟩ := of_bind_eq_ok hread
    obtain ⟨version, hversion, hread⟩ := of_bind_eq_ok hread
    cases hread
    exact ⟨hblockLength, htemplateId, hschemaId, hversion, rfl⟩
  · rintro ⟨hblockLength, htemplateId, hschemaId, hversion, hsize⟩
    refine (ok_bind (compositeParts_leaves ho hc hin.isLeaf)).trans ?_
    refine (ok_bind hblockLength).trans ((ok_bind htemplateId).trans ((ok_bind hschemaId).trans ?_))
    refine (ok_bind hversion).trans ?_
    rw [← hsize]
    rfl

theorem Dimensions.ofTokens_eq_ok_iff (hin : NamedOnce memberNames members) {d : Dimensions} :
    ofTokens (first :: (members ++ [last])) = .ok d ↔
      Gives members "blockLength" d.blockLength ∧ Gives members "numInGroup" d.numInGroup ∧ d.size = first.size := by
  have hmember (name : String) (hname : name ∈ memberNames) {f : UnsignedField} :
      first.unsignedMember members name = .ok f ↔ Gives members name f := hin.unsignedMember_eq_ok_iff hname
  rw [← hmember "blockLength" (by decide), ← hmember "numInGroup" (by decide)]
  constructor
  · intro hread
    obtain ⟨_, hparts, hread⟩ := of_bind_eq_ok hread
    obtain rfl := Except.ok.inj ((compositeParts_leaves ho hc hin.isLeaf).symm.trans hparts)
    obtain ⟨blockLength, hblockLength, hread⟩ := of_bind_eq_ok hread
    obtain ⟨numInGroup, hnumInGroup, hread⟩ := of_bind_eq_ok hread
    cases hread
    exact ⟨hblockLength, hnumInGroup, rfl⟩
  · rintro ⟨hblockLength, hnumInGroup, hsize⟩
    refine (ok_bind (compositeParts_leaves ho hc hin.isLeaf)).trans ?_
    refine (ok_bind hblockLength).trans ((ok_bind hnumInGroup).trans ?_)
    rw [← hsize]
    rfl

end

/-- Headers and dimensions are the same, or are refused in the same way, whatever the order of their members and
whatever else is among these. What they say of a member is what the one encoding with its name says. -/
theorem members_are_found_by_name {first last : Token} {members : List Token}
    (ho : first.signal = .beginComposite) (hc : last.signal = .endComposite) :
    (NamedOnce HeaderFormat.memberNames members →
      (∀ members', Rearranged HeaderFormat.memberNames members members' →
        HeaderFormat.ofTokens (first :: (members' ++ [last])) =
          HeaderFormat.ofTokens (first :: (members ++ [last]))) ∧
      ∀ h : HeaderFormat, HeaderFormat.ofTokens (first :: (members ++ [last])) = .ok h ↔
        Gives members "blockLength" h.blockLength ∧ Gives members "templateId" h.templateId ∧
          Gives members "schemaId" h.schemaId ∧ Gives members "version" h.version ∧ h.size = first.size) ∧
    (NamedOnce Dimensions.memberNames members →
      (∀ members', Rearranged Dimensions.memberNames members members' →
        Dimensions.ofTokens (first :: (members' ++ [last])) = Dimensions.ofTokens (first :: (members ++ [last]))) ∧
      ∀ d : Dimensions, Dimensions.ofTokens (first :: (members ++ [last])) = .ok d ↔
        Gives members "blockLength" d.blockLength ∧ Gives members "numInGroup" d.numInGroup ∧
          d.size = first.size) :=
  ⟨fun hin =>
      ⟨fun _ => HeaderFormat.ofTokens_rearranged ho hc hin, fun _ => HeaderFormat.ofTokens_eq_ok_iff ho hc hin⟩,
    fun hin => ⟨fun _ => Dimensions.ofTokens_rearranged ho hc hin, fun _ => Dimensions.ofTokens_eq_ok_iff ho hc hin⟩⟩

def headerMembers : List Token := (Token.messageHeader.drop 1).take 4

def flags : Token := { signal := .choice, name := "version" }

theorem members_are_found_by_name_reversed :
    HeaderFormat.ofTokens (Token.composite "messageHeader" 8 (flags :: headerMembers.reverse)) = .ok .standard ∧
      Gives headerMembers "version" HeaderFormat.standard.version ∧
      Dimensions.ofTokens (Token.composite "groupSizeEncoding" 4 (headerMembers.reverse ++ [flags])) =
        .error (.missingMember "groupSizeEncoding" "numInGroup") := by
  have hflags : flags.signal.isLeaf = true := rfl
  have hreversed {names : List String} : Rearranged names headerMembers headerMembers.reverse :=
    .permuted (List.reverse_perm _).symm
  have hheader := (@members_are_found_by_name { signal := .beginComposite, name := "messageHeader", size := 8 }
    { signal := .endComposite, name := "messageHeader", size := 8 } headerMembers rfl rfl).1 ⟨by decide, by decide⟩
  have hdimensions := (@members_are_found_by_name
    { signal := .beginComposite, name := "groupSizeEncoding", size := 4 }
    { signal := .endComposite, name := "groupSizeEncoding", size := 4 } headerMembers rfl rfl).2
    ⟨by decide, by decide⟩
  refine ⟨?_, ((hheader.2 .standard).mp rfl).2.2.2.1, ?_⟩
  · exact hheader.1 _ (hreversed.trans (.inserted [] _ hflags (by decide)))
  · have hbehind : Rearranged Dimensions.memberNames (headerMembers.reverse ++ [])
        (headerMembers.reverse ++ [flags]) := .inserted _ [] hflags (by decide)
    rw [List.append_nil] at hbehind
    exact hdimensions.1 _ (hreversed.trans hbehind)

end SimpleBinary
