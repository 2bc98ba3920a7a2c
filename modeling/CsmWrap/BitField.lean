import Mathlib.Data.Nat.Bitwise

/-!
# Bit fields of a number

A field is `size` bits from bit `pos` on. Fields are read from a number with
`field` and put into one with a shift; a number made of fields that lie apart
gives each of them back.
-/

namespace CsmWrap.BitField

def field (n pos size : Nat) : Nat := n / 2 ^ pos % 2 ^ size

/-- The bits of a field, as a mask. -/
def mask (pos size : Nat) : Nat := (2 ^ size - 1) <<< pos

/-- Two fields without a bit in common. -/
def Apart (pos size pos' size' : Nat) : Prop := pos + size ≤ pos' ∨ pos' + size' ≤ pos

theorem Apart.symm {pos size pos' size' : Nat} (h : Apart pos size pos' size') :
    Apart pos' size' pos size := Or.symm h

theorem field_lt (n pos size : Nat) : field n pos size < 2 ^ size :=
  Nat.mod_lt _ (Nat.two_pow_pos size)

theorem testBit_field (n pos size j : Nat) :
    (field n pos size).testBit j = (decide (j < size) && n.testBit (pos + j)) := by
  rw [field, Nat.testBit_mod_two_pow, Nat.testBit_div_two_pow, Nat.add_comm]

theorem field_or (x y pos size : Nat) :
    field (x ||| y) pos size = field x pos size ||| field y pos size := by
  apply Nat.eq_of_testBit_eq
  intro j
  simp only [testBit_field, Nat.testBit_or, Bool.and_or_distrib_left]

theorem field_shiftLeft_self {v size : Nat} (hv : v < 2 ^ size) (pos : Nat) :
    field (v <<< pos) pos size = v := by
  rw [field, Nat.shiftLeft_eq, Nat.mul_div_cancel _ (Nat.two_pow_pos pos), Nat.mod_eq_of_lt hv]

theorem field_shiftLeft_apart {v pos size pos' size' : Nat} (hv : v < 2 ^ size')
    (h : Apart pos size pos' size') : field (v <<< pos') pos size = 0 := by
  apply Nat.eq_of_testBit_eq
  intro j
  rw [testBit_field, Nat.testBit_shiftLeft, Nat.zero_testBit]
  by_cases hj : j < size
  · rcases h with hbelow | habove
    · simp [show ¬ pos + j ≥ pos' by omega]
    · have hpow : 2 ^ size' ≤ 2 ^ (pos + j - pos') := Nat.pow_le_pow_right (by decide) (by omega)
      rw [Nat.testBit_lt_two_pow (hv.trans_le hpow), Bool.and_false, Bool.and_false]
  · simp [hj]

/-- A field put back where it was read is the number cut to it. -/
theorem shiftLeft_field (n pos size : Nat) : field n pos size <<< pos = n &&& mask pos size := by
  apply Nat.eq_of_testBit_eq
  intro i
  rw [mask, Nat.testBit_shiftLeft, testBit_field, Nat.testBit_and, Nat.testBit_shiftLeft,
    Nat.testBit_two_pow_sub_one]
  by_cases hi : i ≥ pos
  · rw [Nat.add_sub_cancel' hi, decide_eq_true hi, Bool.true_and, Bool.true_and, Bool.and_comm]
  · simp [hi]

theorem shiftLeft_lt {v pos size w : Nat} (hv : v < 2 ^ size) (hw : pos + size ≤ w) :
    v <<< pos < 2 ^ w := by
  rw [Nat.shiftLeft_eq]
  calc v * 2 ^ pos < 2 ^ size * 2 ^ pos := Nat.mul_lt_mul_of_pos_right hv (Nat.two_pow_pos pos)
    _ = 2 ^ (pos + size) := by rw [← Nat.pow_add, Nat.add_comm]
    _ ≤ 2 ^ w := Nat.pow_le_pow_right (by decide) hw

end CsmWrap.BitField
