import Mathlib.Data.Nat.ModEq
import Mathlib.Data.UInt
import Mathlib.Tactic.Ring

/-!
# Ones' complement sums

Sums with an end-around carry. Such a sum is a number modulo `M`, where
`M + 1` is the word size, with two forms of zero: 0, which only the sum of
nothing but zeros gives, and `M`. `residue` is that normal form, and however
often and at whatever moments the carry is folded back, `residue` stays the same.
-/

namespace CsmWrap.OnesComplement

section
variable {M : Nat}

/-- The number from 1 to `M` that is congruent to `n`, and 0 for 0. -/
def residue (M n : Nat) : Nat := if n = 0 then 0 else (n - 1) % M + 1

theorem residue_pos {n : Nat} (h : n ≠ 0) : residue M n = (n - 1) % M + 1 := if_neg h

theorem residue_of_le {n : Nat} (h : n ≤ M) : residue M n = n := by
  by_cases hn : n = 0
  · rw [hn]; rfl
  · rw [residue_pos hn, Nat.mod_eq_of_lt (by omega)]
    omega

theorem residue_le (hM : 0 < M) (n : Nat) : residue M n ≤ M := by
  by_cases hn : n = 0
  · rw [hn]; exact Nat.zero_le _
  · rw [residue_pos hn]
    exact Nat.mod_lt _ hM

theorem residue_eq_zero {n : Nat} : residue M n = 0 ↔ n = 0 := by
  constructor
  · intro h
    by_contra hn
    rw [residue_pos hn] at h
    omega
  · rintro rfl; rfl

theorem residue_modEq (n : Nat) : residue M n ≡ n [MOD M] := by
  by_cases hn : n = 0
  · rw [hn]; rfl
  · rw [residue_pos hn]
    have h : (n - 1) % M + 1 ≡ (n - 1) + 1 [MOD M] := (Nat.mod_modEq _ _).add_right 1
    rwa [Nat.sub_add_cancel (Nat.pos_of_ne_zero hn)] at h

/-- Congruent sums have one normal form, unless just one of them is 0. -/
theorem residue_congr {a b : Nat} (hz : a = 0 ↔ b = 0) (h : a ≡ b [MOD M]) :
    residue M a = residue M b := by
  by_cases ha : a = 0
  · rw [ha, hz.mp ha]
  · have hb : b ≠ 0 := fun hb => ha (hz.mpr hb)
    have hsub : a - 1 ≡ b - 1 [MOD M] := by
      apply Nat.ModEq.add_right_cancel' 1
      rwa [Nat.sub_add_cancel (Nat.pos_of_ne_zero ha), Nat.sub_add_cancel (Nat.pos_of_ne_zero hb)]
    rw [residue_pos ha, residue_pos hb, hsub]

theorem residue_residue_add (a b : Nat) : residue M (residue M a + b) = residue M (a + b) := by
  apply residue_congr
  · rw [Nat.add_eq_zero_iff, Nat.add_eq_zero_iff, residue_eq_zero]
  · exact (residue_modEq a).add_right b

/-- Folding the carry back into the word. -/
theorem residue_carry (n : Nat) : residue M (n / (M + 1) + n % (M + 1)) = residue M n := by
  have hdiv := Nat.div_add_mod n (M + 1)
  apply residue_congr
  · constructor
    · intro h
      obtain ⟨hq, hr⟩ := Nat.add_eq_zero_iff.mp h
      rw [hq, hr] at hdiv
      exact hdiv.symm
    · rintro rfl; simp
  · have hM : M + 1 ≡ 1 [MOD M] := by simp [Nat.ModEq]
    have h := (hM.mul_right (n / (M + 1))).add_right (n % (M + 1))
    rw [hdiv, Nat.one_mul] at h
    exact h.symm

/-- Adding the complement of a sum to the sum fills the word with ones. -/
theorem residue_add_compl (hM : 0 < M) (n : Nat) : residue M (n + (M - residue M n)) = M := by
  have hle := residue_le hM n
  rw [← residue_residue_add, Nat.add_sub_cancel' hle, residue_of_le (Nat.le_refl M)]

end

/-- The sum of the little-endian 16-bit words of a byte string whose first byte
has index `i`; an odd byte at the end counts as the low half of a word. -/
def wordSum : Nat → List UInt8 → Nat
  | _, [] => 0
  | i, b :: bytes => (if i % 2 = 1 then 256 * b.toNat else b.toNat) + wordSum (i + 1) bytes

theorem wordSum_add_two (i : Nat) (bytes : List UInt8) :
    wordSum (i + 2) bytes = wordSum i bytes := by
  induction bytes generalizing i with
  | nil => rfl
  | cons b bytes ih =>
    have hp : (i + 2) % 2 = i % 2 := by omega
    rw [wordSum, wordSum, hp, Nat.add_right_comm i 2 1, ih]

theorem wordSum_pair (b c : UInt8) (bytes : List UInt8) :
    wordSum 0 (b :: c :: bytes) = b.toNat + 256 * c.toNat + wordSum 0 bytes := by
  simp only [wordSum, wordSum_add_two 0]
  simp [Nat.add_assoc]

theorem wordSum_le : ∀ bytes : List UInt8, wordSum 0 bytes ≤ 65535 * ((bytes.length + 1) / 2)
  | [] => Nat.zero_le _
  | [b] => by
    have hb := b.toNat_lt
    have he : wordSum 0 [b] = b.toNat := by simp [wordSum]
    rw [he, List.length_singleton]
    omega
  | b :: c :: bytes => by
    have hb := b.toNat_lt
    have hc := c.toNat_lt
    have ih := wordSum_le bytes
    rw [wordSum_pair, List.length_cons, List.length_cons]
    omega

end CsmWrap.OnesComplement
