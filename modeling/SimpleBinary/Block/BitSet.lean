import SimpleBinary.Block.Field

/-!
# Bit sets

A bit set is one unsigned number in which every choice has a bit. A choice whose bit the number
does not have reads as unset, and setting it does nothing.
-/

namespace SimpleBinary

structure BitSetField (w : Width) where
  offset : Nat
  order : ByteOrder := .little
  since : Version := 0
deriving DecidableEq

structure Choice where
  bit : Nat
  since : Version := 0
deriving DecidableEq, Repr

namespace Choice

def test {n : Nat} (choice : Choice) (raw : BitVec n) : Bool := raw.getLsbD choice.bit

def apply {n : Nat} (choice : Choice) (raw : BitVec n) (value : Bool) : BitVec n :=
  let mask := 1#n <<< choice.bit
  if value then raw ||| mask else raw &&& ~~~mask

theorem getLsbD_apply {n : Nat} (choice : Choice) (raw : BitVec n) (value : Bool) (i : Nat) :
    (choice.apply raw value).getLsbD i =
      if i = choice.bit ∧ i < n then value else raw.getLsbD i := by
  by_cases hi : i < n
  · by_cases hb : i = choice.bit
    · subst hb
      cases value <;> simp [apply, hi]
    · cases value with
      | true => simp [apply, hi, hb]; omega
      | false => simp [apply, hi, hb]; omega
  · simp [BitVec.getLsbD_of_ge _ _ (Nat.le_of_not_lt hi), hi]

section
variable {n : Nat} {choice : Choice} {raw : BitVec n}

theorem test_apply (h : choice.bit < n) (value : Bool) : choice.test (choice.apply raw value) = value := by
  unfold test
  rw [getLsbD_apply, if_pos ⟨rfl, h⟩]

theorem bit_lt_of_test (h : choice.test raw = true) : choice.bit < n := by
  refine Nat.not_le.mp fun hle => ?_
  rw [test, BitVec.getLsbD_of_ge _ _ hle] at h
  cases h

theorem apply_test : choice.apply raw (choice.test raw) = raw := by
  apply BitVec.eq_of_getLsbD_eq
  intro i hi
  rw [getLsbD_apply]
  split
  · next h => rw [h.1]; rfl
  · rfl

theorem apply_apply (value value' : Bool) : choice.apply (choice.apply raw value) value' = choice.apply raw value' := by
  apply BitVec.eq_of_getLsbD_eq
  intro i hi
  rw [getLsbD_apply, getLsbD_apply, getLsbD_apply]
  split <;> rfl

end

end Choice

end SimpleBinary
