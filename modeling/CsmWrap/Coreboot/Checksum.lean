import CsmWrap.OnesComplement

/-!
# The two checksums of the coreboot table

csmwrap computes the checksums of the table it writes with `CbCheckSum16`, which
folds the carry back after every byte. SeaBIOS verifies them with `ipchksum`,
which adds 16-bit words in 32 bits and folds twice at the end. Both are the
complement of the ones' complement sum of the words.
-/

namespace CsmWrap.Coreboot
open OnesComplement

/-- One round of the loop. -/
def cbStep (idx : Nat) (sum : UInt32) (byte : UInt8) : UInt32 :=
  let tmpValue := if idx % 2 = 1 then byte.toUInt32 <<< 8 else byte.toUInt32
  let sum := sum + tmpValue
  if sum ≥ 0x10000 then (sum + (sum >>> 16)) &&& 0xffff else sum

def cbLoop : Nat → UInt32 → List UInt8 → UInt32
  | _, sum, [] => sum
  | idx, sum, byte :: buffer => cbLoop (idx + 1) (cbStep idx sum byte) buffer

def cbCheckSum16 (buffer : List UInt8) : UInt16 := (~~~(cbLoop 0 0 buffer) &&& 0xffff).toUInt16

theorem toNat_low16 (x : UInt32) : (x &&& 0xffff).toNat = x.toNat % 65536 := by
  have h : (0xffff : UInt32).toNat = 2 ^ 16 - 1 := rfl
  rw [UInt32.toNat_and, h, Nat.and_two_pow_sub_one_eq_mod]

theorem toNat_high16 (x : UInt32) : (x >>> 16).toNat = x.toNat / 65536 := by
  rw [UInt32.toNat_shiftRight]
  exact Nat.shiftRight_eq_div_pow x.toNat 16

theorem toNat_byte_shift (b : UInt8) : (b.toUInt32 <<< 8).toNat = 256 * b.toNat := by
  have hb := b.toNat_lt
  have hs : b.toUInt32.toNat <<< 8 = 256 * b.toNat := by
    rw [Nat.shiftLeft_eq, UInt8.toNat_toUInt32, Nat.mul_comm]
  rw [UInt32.toNat_shiftLeft]
  exact (congrArg (· % 2 ^ 32) hs).trans (Nat.mod_eq_of_lt (by omega))

/-- A round keeps the sum within 16 bits, in normal form. -/
theorem toNat_cbStep (idx : Nat) {sum : UInt32} (hsum : sum.toNat ≤ 65535) (b : UInt8) :
    (cbStep idx sum b).toNat =
      residue 65535 (sum.toNat + if idx % 2 = 1 then 256 * b.toNat else b.toNat) := by
  have hb := b.toNat_lt
  have hw : (if idx % 2 = 1 then b.toUInt32 <<< 8 else b.toUInt32).toNat =
      if idx % 2 = 1 then 256 * b.toNat else b.toNat := by
    split
    · exact toNat_byte_shift b
    · exact UInt8.toNat_toUInt32 b
  unfold cbStep
  rw [← hw]
  have hle : (if idx % 2 = 1 then b.toUInt32 <<< 8 else b.toUInt32).toNat ≤ 65280 := by
    rw [hw]
    split <;> omega
  generalize (if idx % 2 = 1 then b.toUInt32 <<< 8 else b.toUInt32) = tmp at hle
  have hadd : (sum + tmp).toNat = sum.toNat + tmp.toNat := by
    rw [UInt32.toNat_add, Nat.mod_eq_of_lt (by omega)]
  by_cases hge : sum + tmp ≥ 0x10000
  · have hge' : 65536 ≤ (sum + tmp).toNat := UInt32.le_iff_toNat_le.mp hge
    rw [if_pos hge, toNat_low16, UInt32.toNat_add (sum + tmp), toNat_high16, hadd,
      residue_pos (by omega)]
    omega
  · have hlt : (sum + tmp).toNat < 65536 := UInt32.lt_iff_toNat_lt.mp (UInt32.not_le.mp hge)
    rw [if_neg hge, hadd, residue_of_le (by omega)]

theorem toNat_cbLoop (idx : Nat) {sum : UInt32} (hsum : sum.toNat ≤ 65535) (buffer : List UInt8) :
    (cbLoop idx sum buffer).toNat = residue 65535 (sum.toNat + wordSum idx buffer) := by
  induction buffer generalizing idx sum with
  | nil => rw [cbLoop, wordSum, Nat.add_zero, residue_of_le hsum]
  | cons b buffer ih =>
    have hstep := toNat_cbStep idx hsum b
    have hle : (cbStep idx sum b).toNat ≤ 65535 := hstep ▸ residue_le (by decide) _
    rw [cbLoop, ih _ hle, hstep, residue_residue_add, wordSum, Nat.add_assoc]

theorem toNat_cbCheckSum16 (buffer : List UInt8) :
    (cbCheckSum16 buffer).toNat = 65535 - residue 65535 (wordSum 0 buffer) := by
  have h : (cbLoop 0 0 buffer).toNat = residue 65535 (wordSum 0 buffer) := by
    rw [toNat_cbLoop 0 (by decide)]
    exact congrArg (residue 65535) (Nat.zero_add _)
  have hle := residue_le (M := 65535) (by decide) (wordSum 0 buffer)
  have hlt := (cbLoop 0 0 buffer).toNat_lt
  unfold cbCheckSum16
  rw [UInt32.toNat_toUInt16, toNat_low16, UInt32.toNat_not, h]
  rw [h] at hlt
  simp only [UInt32.size]
  omega

/-- The loop over the words and the odd byte after it. -/
def ipLoop : UInt32 → List UInt8 → UInt32
  | sum, b :: c :: buf => ipLoop (sum + UInt32.ofNat (b.toNat + 256 * c.toNat)) buf
  | sum, [b] => sum + b.toUInt32
  | sum, [] => sum

def ipchksum (buf : List UInt8) : UInt16 :=
  let sum := ipLoop 0 buf
  let sum := (sum >>> 16) + (sum &&& 0xffff)
  let sum := sum + (sum >>> 16)
  (~~~sum).toUInt16

theorem toNat_ipLoop : ∀ (sum : UInt32) (buf : List UInt8), sum.toNat + wordSum 0 buf < 2 ^ 32 →
    (ipLoop sum buf).toNat = sum.toNat + wordSum 0 buf
  | sum, [], _ => rfl
  | sum, [b], h => by
    have he : wordSum 0 [b] = b.toNat := by simp [wordSum]
    rw [he] at h ⊢
    rw [ipLoop, UInt32.toNat_add, UInt8.toNat_toUInt32, Nat.mod_eq_of_lt h]
  | sum, b :: c :: buf, h => by
    rw [wordSum_pair] at h ⊢
    have hword : (sum + UInt32.ofNat (b.toNat + 256 * c.toNat)).toNat =
        sum.toNat + (b.toNat + 256 * c.toNat) := by
      rw [UInt32.toNat_add, UInt32.toNat_ofNat']
      omega
    rw [ipLoop, toNat_ipLoop _ buf (by omega), hword]
    omega

/-- Two folds are enough for a 32-bit sum. -/
theorem two_folds {n : Nat} (h : n < 2 ^ 32) :
    (n / 65536 + n % 65536 + (n / 65536 + n % 65536) / 65536) % 65536 = residue 65535 n := by
  have hc := residue_carry (M := 65535) n
  have hle : n / 65536 + n % 65536 ≤ 131070 := by omega
  rw [← hc]
  generalize n / 65536 + n % 65536 = s at hle
  by_cases hs : s ≤ 65535
  · rw [residue_of_le hs]
    omega
  · rw [residue_pos (by omega)]
    omega

theorem toNat_ipchksum {buf : List UInt8} (h : wordSum 0 buf < 2 ^ 32) :
    (ipchksum buf).toNat = 65535 - residue 65535 (wordSum 0 buf) := by
  have hloop : (ipLoop 0 buf).toNat = wordSum 0 buf := by
    rw [toNat_ipLoop 0 buf (by simpa using h)]
    exact Nat.zero_add _
  rw [← hloop] at h ⊢
  rw [ipchksum]
  generalize ipLoop 0 buf = sum at h
  have hfold := two_folds h
  have hone : ((sum >>> 16) + (sum &&& 0xffff)).toNat =
      sum.toNat / 65536 + sum.toNat % 65536 := by
    rw [UInt32.toNat_add, toNat_high16, toNat_low16, Nat.mod_eq_of_lt (by omega)]
  generalize (sum >>> 16) + (sum &&& 0xffff) = folded at hone
  rw [← hone] at hfold
  simp only [UInt32.toNat_toUInt16, UInt32.toNat_not, UInt32.toNat_add, toNat_high16, UInt32.size]
  omega

theorem ipchksum_eq {buf : List UInt8} (h : wordSum 0 buf < 2 ^ 32) :
    ipchksum buf = cbCheckSum16 buf := by
  rw [← UInt16.toNat_inj, toNat_ipchksum h, toNat_cbCheckSum16]

/-- **The two checksums agree** as long as the 32-bit sum of `ipchksum` cannot
wrap. -/
theorem checksums_agree (buffer : List UInt8) (h : buffer.length ≤ 131072) :
    cbCheckSum16 buffer = ipchksum buffer := by
  have hsum := wordSum_le buffer
  have hwords : (buffer.length + 1) / 2 ≤ 65536 := by omega
  exact (ipchksum_eq (by omega)).symm

theorem checksums_agree_odd :
    [0x12, 0xff, 0x80].length ≤ 131072 ∧
      cbCheckSum16 [0x12, 0xff, 0x80] = ipchksum [0x12, 0xff, 0x80] :=
  ⟨by decide, checksums_agree [0x12, 0xff, 0x80] (by decide)⟩

end CsmWrap.Coreboot
