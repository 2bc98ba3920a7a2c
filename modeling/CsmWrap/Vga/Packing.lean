import CsmWrap.BitField
import CsmWrap.Vga.TextMode
import CsmWrap.Vga.FlushColour

/-!
# Packing and unpacking of 16-bit pixels

`pack_rgb16` cuts a channel to the size of its field by a shift; `packed_to_argb`
scales a field back to eight bits by a division. The value that the division gives
always lies in the bucket that the shift maps to the field, so the two are inverse
as far as the sizes of the fields allow.
-/

namespace CsmWrap.Vga
open BitField

/-- A channel of one to eight bits within a 16-bit pixel. -/
structure Field16 (pos size : UInt8) : Prop where
  nonempty : 1 ≤ size.toNat
  byte : size.toNat ≤ 8
  within : pos.toNat + size.toNat ≤ 16

/-- Three disjoint channels within a 16-bit pixel. -/
structure Masks.Layout16 (m : Masks) : Prop where
  red : Field16 m.redPos m.redSize
  green : Field16 m.greenPos m.greenSize
  blue : Field16 m.bluePos m.blueSize
  redGreen : Apart m.redPos.toNat m.redSize.toNat m.greenPos.toNat m.greenSize.toNat
  redBlue : Apart m.redPos.toNat m.redSize.toNat m.bluePos.toNat m.blueSize.toNat
  greenBlue : Apart m.greenPos.toNat m.greenSize.toNat m.bluePos.toNat m.blueSize.toNat

/-- The bits of the three channels. -/
def Masks.bits (m : Masks) : UInt16 :=
  UInt16.ofNat (mask m.redPos.toNat m.redSize.toNat ||| mask m.greenPos.toNat m.greenSize.toNat |||
    mask m.bluePos.toNat m.blueSize.toNat)

theorem bucket_lt {size c : Nat} (hhi : size ≤ 8) (hc : c < 256) :
    c / 2 ^ (8 - size) < 2 ^ size := by
  apply Nat.div_lt_of_lt_mul
  rwa [← Nat.pow_add, Nat.sub_add_cancel hhi]

section
variable {size : Nat} (hlo : 1 ≤ size) (hhi : size ≤ 8)
include hlo hhi

/-- The scaled value lies in the bucket of the field. -/
theorem expanded_bucket {v : Nat} (hv : v < 2 ^ size) : expanded v size / 2 ^ (8 - size) = v := by
  unfold expanded
  interval_cases size <;> norm_num at hv ⊢ <;> omega

/-- Two values of one bucket are less than its width apart. -/
theorem expanded_near {c : Nat} (hc : c < 256) :
    |(expanded (c / 2 ^ (8 - size)) size : Int) - c| < 2 ^ (8 - size) := by
  have hbucket := expanded_bucket hlo hhi (bucket_lt hhi hc)
  generalize expanded (c / 2 ^ (8 - size)) size = e at hbucket
  have hwidth : (2 : Int) ^ (8 - size) = ((2 ^ (8 - size) : Nat) : Int) := by push_cast; rfl
  have hpos := Nat.two_pow_pos (8 - size)
  have he := Nat.div_add_mod e (2 ^ (8 - size))
  have hc' := Nat.div_add_mod c (2 ^ (8 - size))
  have helt := Nat.mod_lt e hpos
  have hclt := Nat.mod_lt c hpos
  rw [hbucket] at he
  rw [hwidth, abs_lt]
  omega

end

section
variable {pos size : UInt8} (h : Field16 pos size)
include h

theorem Field16.expandChan_eq (pixel : UInt32) :
    ∃ c : UInt8, expandChan pixel pos size = some c ∧
      c.toNat = expanded (field pixel.toNat pos.toNat size.toNat) size.toNat := by
  obtain ⟨hlo, hhi, hin⟩ := h
  exact Vga.expandChan_eq (by omega) hlo (by omega) pixel

/-- A channel cut to its field, in its place. -/
theorem Field16.cut_toNat (v : UInt8) :
    (((v.toUInt32 >>> (8 - size.toUInt32) &&& (1 : UInt32) <<< size.toUInt32 - 1) &&& 0xffff) <<<
      pos.toUInt32).toNat = (v.toNat / 2 ^ (8 - size.toNat)) <<< pos.toNat := by
  obtain ⟨hlo, hhi, hin⟩ := h
  have hmask := @toNat_chanMask size (by omega)
  have hbucket := bucket_lt hhi v.toNat_lt
  have hpow : 2 ^ size.toNat ≤ 2 ^ 8 := Nat.pow_le_pow_right (by decide) hhi
  have hmod : pos.toNat % 32 = pos.toNat := Nat.mod_eq_of_lt (by omega)
  have hcount : (8 - size.toUInt32).toNat % 32 = 8 - size.toNat := by
    rw [UInt32.toNat_sub_of_le _ _ (by rw [UInt32.le_iff_toNat_le]; simpa using hhi)]
    simp only [UInt32.reduceToNat, UInt8.toNat_toUInt32]
    omega
  rw [UInt32.toNat_shiftLeft, UInt32.toNat_and, UInt32.toNat_and, hmask, UInt32.toNat_shiftRight,
    hcount, UInt8.toNat_toUInt32, UInt8.toNat_toUInt32, hmod, Nat.shiftRight_eq_div_pow,
    Nat.and_two_pow_sub_one_eq_mod, Nat.mod_eq_of_lt hbucket]
  have hword : v.toNat / 2 ^ (8 - size.toNat) &&& (0xffff : UInt32).toNat =
      v.toNat / 2 ^ (8 - size.toNat) := by
    rw [show (0xffff : UInt32).toNat = 2 ^ 16 - 1 from rfl, Nat.and_two_pow_sub_one_eq_mod]
    exact Nat.mod_eq_of_lt (by omega)
  rw [hword]
  exact Nat.mod_eq_of_lt (shiftLeft_lt hbucket (by omega))

end

section
variable {m : Masks} (h : m.Layout16)
include h

theorem Masks.Layout16.packRgb16_toNat (r g b : UInt8) :
    (packRgb16 r g b m).toNat =
      (r.toNat / 2 ^ (8 - m.redSize.toNat)) <<< m.redPos.toNat |||
        (g.toNat / 2 ^ (8 - m.greenSize.toNat)) <<< m.greenPos.toNat |||
        (b.toNat / 2 ^ (8 - m.blueSize.toNat)) <<< m.bluePos.toNat := by
  unfold packRgb16
  dsimp only
  rw [UInt32.toNat_toUInt16, UInt32.toNat_or, UInt32.toNat_or, h.red.cut_toNat,
    h.green.cut_toNat, h.blue.cut_toNat]
  apply Nat.mod_eq_of_lt
  apply Nat.or_lt_two_pow (Nat.or_lt_two_pow _ _) _
  · exact shiftLeft_lt (bucket_lt h.red.byte r.toNat_lt) h.red.within
  · exact shiftLeft_lt (bucket_lt h.green.byte g.toNat_lt) h.green.within
  · exact shiftLeft_lt (bucket_lt h.blue.byte b.toNat_lt) h.blue.within

theorem Masks.Layout16.packedToArgb_eq (pixel : UInt32) :
    ∃ r g b : UInt8, packedToArgb pixel m = some (channelsArgb r g b) ∧
      r.toNat = expanded (field pixel.toNat m.redPos.toNat m.redSize.toNat) m.redSize.toNat ∧
      g.toNat = expanded (field pixel.toNat m.greenPos.toNat m.greenSize.toNat)
        m.greenSize.toNat ∧
      b.toNat = expanded (field pixel.toNat m.bluePos.toNat m.blueSize.toNat) m.blueSize.toNat := by
  obtain ⟨r, hr, hrv⟩ := h.red.expandChan_eq pixel
  obtain ⟨g, hg, hgv⟩ := h.green.expandChan_eq pixel
  obtain ⟨b, hb, hbv⟩ := h.blue.expandChan_eq pixel
  refine ⟨r, g, b, ?_, hrv, hgv, hbv⟩
  rw [packedToArgb, hr, hg, hb]
  rfl

/-- Each field of a packed pixel is its channel, cut. -/
theorem Masks.Layout16.field_packed (r g b : UInt8) :
    field (packRgb16 r g b m).toNat m.redPos.toNat m.redSize.toNat =
        r.toNat / 2 ^ (8 - m.redSize.toNat) ∧
      field (packRgb16 r g b m).toNat m.greenPos.toNat m.greenSize.toNat =
        g.toNat / 2 ^ (8 - m.greenSize.toNat) ∧
      field (packRgb16 r g b m).toNat m.bluePos.toNat m.blueSize.toNat =
        b.toNat / 2 ^ (8 - m.blueSize.toNat) := by
  have hr := bucket_lt h.red.byte r.toNat_lt
  have hg := bucket_lt h.green.byte g.toNat_lt
  have hb := bucket_lt h.blue.byte b.toNat_lt
  rw [h.packRgb16_toNat]
  simp only [field_or, field_shiftLeft_self hr, field_shiftLeft_self hg, field_shiftLeft_self hb,
    field_shiftLeft_apart hg h.redGreen, field_shiftLeft_apart hb h.redBlue,
    field_shiftLeft_apart hr h.redGreen.symm, field_shiftLeft_apart hb h.greenBlue,
    field_shiftLeft_apart hr h.redBlue.symm, field_shiftLeft_apart hg h.greenBlue.symm,
    Nat.or_zero, Nat.zero_or, and_self]

end

/-- The channels of a colour, as `cbvga_render_char` and `putpx` take them. -/
def redOf (argb : UInt32) : UInt8 := (argb >>> 16).toUInt8
def greenOf (argb : UInt32) : UInt8 := (argb >>> 8).toUInt8
def blueOf (argb : UInt32) : UInt8 := argb.toUInt8

/-- Less apart than the width of a bucket of a field of `size` bits. -/
def SameBucket (size : UInt8) (c c' : UInt8) : Prop :=
  |(c.toNat : Int) - c'.toNat| < 2 ^ (8 - size.toNat)

/-- **Packing and unpacking are inverse.** A pixel that is unpacked and packed again
is the pixel cut to the three channels, and a colour that is packed and unpacked
again is the colour to within the width of a bucket. -/
theorem pack_unpack_inverse (m : Masks) (h : m.Layout16) :
    (∀ p : UInt16, ∃ argb, packedToArgb p.toUInt32 m = some argb ∧
      packRgb16 (redOf argb) (greenOf argb) (blueOf argb) m = p &&& m.bits) ∧
    ∀ r g b : UInt8, ∃ argb, packedToArgb (packRgb16 r g b m).toUInt32 m = some argb ∧
      SameBucket m.redSize (redOf argb) r ∧ SameBucket m.greenSize (greenOf argb) g ∧
      SameBucket m.blueSize (blueOf argb) b := by
  constructor
  · intro p
    obtain ⟨r, g, b, hargb, hr, hg, hb⟩ := h.packedToArgb_eq p.toUInt32
    refine ⟨_, hargb, UInt16.toNat_inj.mp ?_⟩
    have hlt : ∀ pos size : UInt8, Field16 pos size →
        mask pos.toNat size.toNat < 2 ^ 16 := fun pos size hf =>
      shiftLeft_lt (Nat.sub_lt (Nat.two_pow_pos _) Nat.one_pos) hf.within
    have hbits : m.bits.toNat = mask m.redPos.toNat m.redSize.toNat |||
        mask m.greenPos.toNat m.greenSize.toNat ||| mask m.bluePos.toNat m.blueSize.toNat := by
      rw [Masks.bits, UInt16.toNat_ofNat']
      exact Nat.mod_eq_of_lt (Nat.or_lt_two_pow (Nat.or_lt_two_pow (hlt _ _ h.red)
        (hlt _ _ h.green)) (hlt _ _ h.blue))
    rw [redOf, greenOf, blueOf, toUInt8_channelsArgb, toUInt8_channelsArgb_shift8,
      toUInt8_channelsArgb_shift16, h.packRgb16_toNat, hr, hg, hb,
      expanded_bucket h.red.nonempty h.red.byte (field_lt _ _ _),
      expanded_bucket h.green.nonempty h.green.byte (field_lt _ _ _),
      expanded_bucket h.blue.nonempty h.blue.byte (field_lt _ _ _), UInt16.toNat_toUInt32,
      shiftLeft_field, shiftLeft_field, shiftLeft_field, UInt16.toNat_and, hbits,
      Nat.and_or_distrib_left, Nat.and_or_distrib_left]
  · intro r g b
    obtain ⟨r', g', b', hargb, hr, hg, hb⟩ := h.packedToArgb_eq (packRgb16 r g b m).toUInt32
    obtain ⟨hfr, hfg, hfb⟩ := h.field_packed r g b
    rw [UInt16.toNat_toUInt32, hfr] at hr
    rw [UInt16.toNat_toUInt32, hfg] at hg
    rw [UInt16.toNat_toUInt32, hfb] at hb
    refine ⟨_, hargb, ?_⟩
    simp only [SameBucket, redOf, greenOf, blueOf, toUInt8_channelsArgb,
      toUInt8_channelsArgb_shift8, toUInt8_channelsArgb_shift16, hr, hg, hb]
    exact ⟨expanded_near h.red.nonempty h.red.byte r.toNat_lt,
      expanded_near h.green.nonempty h.green.byte g.toNat_lt,
      expanded_near h.blue.nonempty h.blue.byte b.toNat_lt⟩

/-- Five, six and five bits, the layout that `cbvga_setup` falls back to. -/
theorem pack_unpack_inverse_rgb565 :
    ∃ argb, packedToArgb 0x1234 ⟨5, 6, 5, 11, 5, 0⟩ = some argb ∧
      packRgb16 (redOf argb) (greenOf argb) (blueOf argb) ⟨5, 6, 5, 11, 5, 0⟩ = 0x1234 :=
  (pack_unpack_inverse ⟨5, 6, 5, 11, 5, 0⟩
    ⟨⟨by decide, by decide, by decide⟩, ⟨by decide, by decide, by decide⟩,
      ⟨by decide, by decide, by decide⟩, .inr (by decide), .inr (by decide),
      .inr (by decide)⟩).1 0x1234

end CsmWrap.Vga
