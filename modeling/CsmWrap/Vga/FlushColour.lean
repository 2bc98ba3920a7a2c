import CsmWrap.BitField
import CsmWrap.Sweep
import CsmWrap.Vga.Flush
import Mathlib.Tactic.IntervalCases
import Mathlib.Tactic.LinearCombination
import Mathlib.Tactic.Linarith

/-!
# The colours of the flush

What a flush to a framebuffer of 16, 24 or 32 bits leaves there, pixel by pixel,
and a comparison of two shadows with the same picture: one of indices into a
palette, and one of packed pixels. The table of the palette has blue on top and the
expansion of a packed pixel has red on top, while one routine stores both; and the
table shifts a value of the DAC to eight bits where the expansion divides.
-/

namespace CsmWrap.Vga
open Memory AccessTrace BitField

/-- The bytes of a colour at a depth of 16, 24 or 32. -/
def colourBytes (dstBpp : Int) (c : UInt32) : List UInt8 :=
  if dstBpp = 32 then leBytes 4 c.toNat
  else if dstBpp = 24 then [c.toUInt8, (c >>> 8).toUInt8, (c >>> 16).toUInt8]
  else leBytes 2 (rgb565 c).toNat

def TrueColour (dstBpp : Int) : Prop := dstBpp = 16 ∨ dstBpp = 24 ∨ dstBpp = 32

theorem length_colourBytes {dstBpp : Int} (hd : TrueColour dstBpp) (c : UInt32) :
    ((colourBytes dstBpp c).length : Int) = bytesppDst dstBpp := by
  rcases hd with rfl | rfl | rfl <;> simp [colourBytes, bytesppDst]

theorem runs_putColour {dstBpp : Int} (hd : TrueColour dstBpp) {dline : Int} (hline : 0 ≤ dline)
    {x : Nat} {c : UInt32} {m : Mem} {Q : Unit → Mem → Prop}
    (h : Q () (store m (dline + x * bytesppDst dstBpp).toNat (colourBytes dstBpp c))) :
    Runs (fun _ => True) (putColour dstBpp dline x c) m Q := by
  rcases hd with rfl | rfl | rfl
  · exact Runs.put trivial h
  · refine Runs.bind (Runs.put trivial (Runs.bind (Runs.put trivial (Runs.put trivial ?_))))
    have h1 : (dline + (x * 3 + 1 : Nat)).toNat = (dline + (x * 3 : Nat)).toNat + 1 := by omega
    have h2 : (dline + (x * 3 + 2 : Nat)).toNat = (dline + (x * 3 : Nat)).toNat + 2 := by omega
    rw [h1, h2]
    -- three bytes side by side are one store
    have hstore := store_append m (dline + (x * 3 : Nat)).toNat [c.toUInt8] [(c >>> 8).toUInt8]
    have hstore' := store_append m (dline + (x * 3 : Nat)).toNat [c.toUInt8, (c >>> 8).toUInt8]
      [(c >>> 16).toUInt8]
    simp only [List.length_cons, List.length_nil, Nat.zero_add, Nat.reduceAdd, List.cons_append,
      List.nil_append] at hstore hstore'
    rw [hstore, hstore']
    exact h
  · exact Runs.put trivial h

theorem sourceReads_kind {srcBpp sline : Int} {x : Nat} :
    ∀ acc ∈ sourceReads srcBpp sline x, acc.kind = .read := by
  unfold sourceReads
  repeat' split
  all_goals simp

theorem byte_eq_of_load {m m' : Mem} {a : Nat} (h : load m' a 1 = load m a 1) : m' a = m a := by
  simpa [load] using h

/-- The colour of a pixel depends on the bytes that its expansion reads. -/
theorem sourceColour_congr {e : Emul} {m m' : Mem} {sline : Int} {x : Nat}
    (h : ∀ acc ∈ sourceReads e.srcBpp sline x,
      load m' acc.addr.toNat acc.len = load m acc.addr.toNat acc.len) :
    sourceColour e m' sline x = sourceColour e m sline x := by
  unfold sourceColour indexAt packedAt read16 read32
  unfold sourceReads at h
  by_cases h4 : e.srcBpp = 4
  · simp only [h4, if_true, List.forall_mem_singleton] at h
    simp only [h4, true_or, if_true, byte_eq_of_load h]
  by_cases h8 : e.srcBpp = 8
  · simp only [h8, Int.reduceEq, if_true, if_false, List.forall_mem_singleton] at h
    simp only [h8, Int.reduceEq, or_true, if_true, if_false, byte_eq_of_load h]
  by_cases h16 : e.srcBpp = 16
  · simp only [h16, Int.reduceEq, if_true, if_false, List.forall_mem_singleton] at h
    simp only [h16, Int.reduceEq, or_self, true_or, if_true, if_false, h]
  by_cases h24 : e.srcBpp = 24
  · simp only [h24, Int.reduceEq, if_true, if_false, List.forall_mem_cons] at h
    obtain ⟨h0, h1, h2, -⟩ := h
    simp only [h24, Int.reduceEq, or_self, or_true, if_true, if_false, byte_eq_of_load h0,
      byte_eq_of_load h1, byte_eq_of_load h2]
  · simp only [h4, h8, h16, h24, if_false, List.forall_mem_singleton] at h
    simp only [h4, h8, h16, h24, or_self, if_false, h]

/-- A flush to a framebuffer of 16, 24 or 32 bits, from a shadow that holds the whole
width and does not overlap it. -/
structure Emul.Showing (e : Emul) : Prop where
  sized : e.Sized
  shadowPtr : e.shadowPtr ≠ 0
  dstPtr : e.dstPtr ≠ 0
  dstBpp : TrueColour e.dstBpp
  wide : e.width ≤ e.srcPixels
  apart : e.shadowPtr.toNat + e.height * e.srcPitch ≤ e.dstPtr.toNat ∨
    e.dstPtr.toNat + e.height * e.dstPitch ≤ e.shadowPtr.toNat

/-- Where a destination pixel is. -/
def Emul.pixelAddress (e : Emul) (x y : Nat) : Nat :=
  (e.dline y + x * bytesppDst e.dstBpp).toNat

/-- A pixel that the flush writes. -/
structure Emul.Writes (e : Emul) (x y : Nat) : Prop where
  width : (x : Int) < e.width
  pitch : (x : Int) < e.dstPixels
  height : (y : Int) < e.height

/-- The bytes of the shadow are those of `m`. -/
def Emul.ShadowOf (e : Emul) (m m' : Mem) : Prop :=
  ∀ a : Nat, e.shadowPtr.toNat ≤ a → (a : Int) < e.shadowPtr.toNat + e.height * e.srcPitch →
    m' a = m a

section
variable {e : Emul} (h : e.Showing)
include h

theorem Emul.Showing.not4 : e.dstBpp ≠ 4 := by
  rcases h.dstBpp with hd | hd | hd <;> omega

theorem Emul.Showing.bytes_pos : 0 < bytesppDst e.dstBpp := by
  rcases h.dstBpp with hd | hd | hd <;> rw [hd] <;> decide

theorem Emul.Showing.limit_eq : e.limit = min e.width e.dstPixels :=
  min_eq_left ((min_le_left _ _).trans h.wide)

theorem Emul.Showing.writes_iff {x y : Nat} :
    e.Writes x y ↔ (x : Int) < e.limit ∧ (y : Int) < e.height := by
  rw [h.limit_eq, lt_min_iff]
  exact ⟨fun hw => ⟨⟨hw.width, hw.pitch⟩, hw.height⟩, fun ⟨⟨hw, hp⟩, hh⟩ => ⟨hw, hp, hh⟩⟩

/-- A pixel ends in its line. -/
theorem Emul.Showing.pixel_le {x : Nat} (hx : (x : Int) < e.limit) :
    (x + 1) * bytesppDst e.dstBpp ≤ e.dstPitch := by
  have hle := Emul.limit_le_dst h.not4
  exact Int.mul_le_of_le_ediv h.bytes_pos (by omega)

theorem Emul.Showing.pixelAddress_eq (x y : Nat) :
    (e.pixelAddress x y : Int) =
      e.dstPtr.toNat + y * e.dstPitch + x * bytesppDst e.dstBpp := by
  have hline := Int.mul_nonneg (Int.natCast_nonneg y) h.sized.dstPitch
  have hpixel := Int.mul_nonneg (Int.natCast_nonneg x) h.bytes_pos.le
  rw [pixelAddress, dline]
  omega

/-- A pixel ends at or before the next line. -/
theorem Emul.Showing.pixel_before {x y y' : Nat} (hx : (x : Int) < e.limit) (hy : y < y') :
    (e.pixelAddress x y : Int) + bytesppDst e.dstBpp ≤ e.dstPtr.toNat + y' * e.dstPitch := by
  have hpixel := h.pixel_le hx
  have hline : ((y : Int) + 1) * e.dstPitch ≤ y' * e.dstPitch :=
    Int.mul_le_mul_of_nonneg_right (by omega) h.sized.dstPitch
  rw [add_one_mul] at hpixel hline
  rw [h.pixelAddress_eq]
  omega

/-- Two pixels do not overlap. -/
theorem Emul.Showing.pixels_apart {x y x' y' : Nat} (hx : (x : Int) < e.limit)
    (hx' : (x' : Int) < e.limit) (hne : ¬(x = x' ∧ y = y')) :
    (e.pixelAddress x y : Int) + bytesppDst e.dstBpp ≤ e.pixelAddress x' y' ∨
      (e.pixelAddress x' y' : Int) + bytesppDst e.dstBpp ≤ e.pixelAddress x y := by
  have hstart : ∀ x y : Nat, e.dstPtr.toNat + y * e.dstPitch ≤ e.pixelAddress x y := by
    intro x y
    have := Int.mul_nonneg (Int.natCast_nonneg x) h.bytes_pos.le
    rw [h.pixelAddress_eq]
    omega
  rcases Nat.lt_trichotomy y y' with hy | rfl | hy
  · exact .inl ((h.pixel_before hx hy).trans (hstart x' y'))
  · have hstep : ∀ {a b : Nat}, a < b →
        ((a : Int) + 1) * bytesppDst e.dstBpp ≤ b * bytesppDst e.dstBpp := fun hab =>
      Int.mul_le_mul_of_nonneg_right (by omega) h.bytes_pos.le
    rw [h.pixelAddress_eq, h.pixelAddress_eq]
    rcases Nat.lt_trichotomy x x' with hlt | rfl | hlt
    · have := hstep hlt
      rw [add_one_mul] at this
      omega
    · exact absurd ⟨rfl, rfl⟩ hne
    · have := hstep hlt
      rw [add_one_mul] at this
      omega
  · exact .inr ((h.pixel_before hx' hy).trans (hstart x y))

/-- The shadow is not written to. -/
theorem Emul.Showing.shadowOf_store {m m' : Mem} (hm : e.ShadowOf m m') {x y : Nat}
    (hx : (x : Int) < e.limit) (hy : (y : Int) < e.height) (c : UInt32) :
    e.ShadowOf m (store m' (e.pixelAddress x y) (colourBytes e.dstBpp c)) := by
  intro a hlo hhi
  have hlen := length_colourBytes h.dstBpp c
  have hend : (e.pixelAddress x y : Int) + _ ≤ e.dstPtr.toNat + (e.height.toNat : Int) * _ :=
    h.pixel_before hx (by omega)
  have hstart := h.pixelAddress_eq x y
  have hline := Int.mul_nonneg (Int.natCast_nonneg y) h.sized.dstPitch
  have hpixel := Int.mul_nonneg (Int.natCast_nonneg x) h.bytes_pos.le
  rw [Int.toNat_of_nonneg h.sized.height] at hend
  rw [store_outside _ _ _ ?_, hm a hlo hhi]
  have := h.apart
  omega

/-- A pixel of a shadow that is left alone keeps its colour. -/
theorem Emul.Showing.sourceColour_eq {m m' : Mem} (hm : e.ShadowOf m m') {x y : Nat}
    (hx : (x : Int) < e.limit) (hy : (y : Int) < e.height) :
    sourceColour e m' (e.sline y) x = sourceColour e m (e.sline y) x := by
  apply sourceColour_congr
  intro acc hacc
  have hread := sourceReads_kind acc hacc
  have hin := sourceReads_inLine (y := y) h.sized.srcBpp hx acc hacc
  rw [InLine, hread] at hin
  have hfirst := Int.mul_nonneg (Int.natCast_nonneg y) h.sized.srcPitch
  have hlast : ((y : Int) + 1) * e.srcPitch ≤ e.height * e.srcPitch :=
    Int.mul_le_mul_of_nonneg_right (by omega) h.sized.srcPitch
  apply load_congr
  intro i hi
  dsimp only at hin
  exact hm _ (by omega) (by omega)

variable {m : Mem} {colour : Nat → Nat → UInt32}

/-- The loop over the pixels of a line. -/
def Emul.paintLine (e : Emul) (colour : Nat → Nat → UInt32) (m : Mem) (y : Nat) : Mem :=
  (pixels e.limit).foldl
    (fun m x => store m (e.pixelAddress x y) (colourBytes e.dstBpp (colour x y))) m

theorem Emul.Showing.runs_flushLine {y : Nat} (hy : (y : Int) < e.height)
    (hcolour : ∀ x : Nat, (x : Int) < e.limit →
      sourceColour e m (e.sline y) x = some (colour x y)) {m' : Mem} (hm : e.ShadowOf m m') :
    Runs (fun _ => True) (flushLine e y) m' fun _ m'' =>
      m'' = e.paintLine colour m' y ∧ e.ShadowOf m m'' := by
  have h8 : e.dstBpp ≠ 8 := by rcases h.dstBpp with hd | hd | hd <;> omega
  have hline : 0 ≤ e.dline y :=
    Int.add_nonneg (Int.natCast_nonneg _) (Int.mul_nonneg (Int.natCast_nonneg y) h.sized.dstPitch)
  refine Runs.bind (Runs.ofOption h.sized.flushLimit_eq ?_)
  rw [if_neg h.not4, if_neg h8]
  refine Runs.loop_foldl hm fun x hx m₁ hm₁ => ?_
  have hlt := mem_pixels hx
  have hc := (h.sourceColour_eq hm₁ hlt hy).trans (hcolour x hlt)
  refine Runs.bind (runs_expand hc (fun _ _ => trivial) (runs_putColour h.dstBpp hline ?_))
  exact ⟨rfl, h.shadowOf_store hm₁ hlt hy _⟩

theorem Emul.Showing.runs_flush (hcolour : ∀ x y, e.Writes x y →
    sourceColour e m (e.sline y) x = some (colour x y)) :
    Runs (fun _ => True) (cbvgaPalFlush e) m fun _ m' =>
      m' = (pixels e.height).foldl (e.paintLine colour) m := by
  rw [cbvgaPalFlush, if_neg (not_or.mpr ⟨h.shadowPtr, h.dstPtr⟩)]
  have hm : e.ShadowOf m m := fun _ _ _ => rfl
  refine (Runs.loop_foldl hm fun y hy m₁ hm₁ => ?_).imp (fun _ h => h) fun _ _ hend => hend.1
  have hlt := mem_pixels hy
  exact h.runs_flushLine hlt (fun x hx => hcolour x y (h.writes_iff.mpr ⟨hx, hlt⟩)) hm₁

theorem Emul.Showing.load_pixel {x y x' y' : Nat} (hx : (x : Int) < e.limit)
    (hx' : (x' : Int) < e.limit) (m : Mem) (c : UInt32) :
    load (store m (e.pixelAddress x' y') (colourBytes e.dstBpp c)) (e.pixelAddress x y)
        (bytesppDst e.dstBpp).toNat =
      if x' = x ∧ y' = y then colourBytes e.dstBpp c
      else load m (e.pixelAddress x y) (bytesppDst e.dstBpp).toNat := by
  have hlen := length_colourBytes h.dstBpp c
  split
  · next heq =>
    obtain ⟨rfl, rfl⟩ := heq
    rw [← hlen, Int.toNat_natCast, load_store]
  · next hne =>
    apply load_store_outside
    have := h.pixels_apart hx' hx hne
    omega

/-- One line, seen at a pixel. -/
theorem Emul.Showing.load_paintLine {x y : Nat} (hx : (x : Int) < e.limit) (m : Mem) (y' : Nat) :
    load (e.paintLine colour m y') (e.pixelAddress x y) (bytesppDst e.dstBpp).toNat =
      if y' = y then colourBytes e.dstBpp (colour x y)
      else load m (e.pixelAddress x y) (bytesppDst e.dstBpp).toNat := by
  have hview := Sweep.foldl_view (l := pixels e.limit)
    (fun m (_ : Unit) => load m (e.pixelAddress x y) (bytesppDst e.dstBpp).toNat)
    (fun m x' => store m (e.pixelAddress x' y') (colourBytes e.dstBpp (colour x' y')))
    (fun x' _ => x' = x ∧ y' = y) (fun _ => colourBytes e.dstBpp (colour x y))
    (fun x' hx' m₁ _ => by
      rw [h.load_pixel hx (mem_pixels hx')]
      split
      · next heq => rw [heq.1, heq.2]
      · rfl) m ()
  have hmem : (∃ x' ∈ pixels e.limit, x' = x ∧ y' = y) ↔ y' = y :=
    ⟨fun ⟨_, _, _, hy⟩ => hy, fun hy => ⟨x, List.mem_range.mpr (by omega), rfl, hy⟩⟩
  simp only [hmem] at hview
  exact hview

/-- **What a flush shows.** Every pixel it writes has the colour that the shadow had for
it at the start. -/
theorem Emul.Showing.flush_shows (hcolour : ∀ x y, e.Writes x y →
    sourceColour e m (e.sline y) x = some (colour x y)) :
    ∃ r, cbvgaPalFlush e m = some r ∧ ∀ x y, e.Writes x y →
      load r.mem (e.pixelAddress x y) (bytesppDst e.dstBpp).toNat =
        colourBytes e.dstBpp (colour x y) := by
  obtain ⟨r, hr, -, hmem⟩ := h.runs_flush hcolour
  refine ⟨r, hr, fun x y hw => ?_⟩
  obtain ⟨hx, hy⟩ := h.writes_iff.mp hw
  have hview := Sweep.foldl_view (l := pixels e.height)
    (fun m (_ : Unit) => load m (e.pixelAddress x y) (bytesppDst e.dstBpp).toNat)
    (e.paintLine colour) (fun y' _ => y' = y) (fun _ => colourBytes e.dstBpp (colour x y))
    (fun y' _ m₁ _ => h.load_paintLine hx m₁ y') m ()
  rw [hmem, hview, if_pos ⟨y, List.mem_range.mpr (by omega), rfl⟩]

end

/-! ## Channels in the wrong order -/

section
variable (r g b : UInt8)

theorem toUInt8_channelsArgb : (channelsArgb r g b).toUInt8 = b := by
  simp [channelsArgb, ← UInt8.toBitVec_inj]

theorem toUInt8_channelsArgb_shift8 : (channelsArgb r g b >>> 8).toUInt8 = g := by
  apply UInt8.eq_of_toBitVec_eq
  ext i hi
  interval_cases i <;> simp [channelsArgb]

theorem toUInt8_channelsArgb_shift16 : (channelsArgb r g b >>> 16).toUInt8 = r := by
  apply UInt8.eq_of_toBitVec_eq
  ext i hi
  interval_cases i <;> simp [channelsArgb]

/-- The field at the bottom has the channel on top. -/
theorem rgb565_low : rgb565 (channelsArgb r g b) &&& (31 : UInt16) = (r >>> 3).toUInt16 := by
  simp only [rgb565, toUInt8_channelsArgb, toUInt8_channelsArgb_shift8,
    toUInt8_channelsArgb_shift16]
  apply UInt16.eq_of_toBitVec_eq
  ext i hi
  interval_cases i <;> simp

theorem rgb565_middle :
    rgb565 (channelsArgb r g b) >>> 5 &&& (63 : UInt16) = (g >>> 2).toUInt16 := by
  simp only [rgb565, toUInt8_channelsArgb, toUInt8_channelsArgb_shift8,
    toUInt8_channelsArgb_shift16]
  apply UInt16.eq_of_toBitVec_eq
  ext i hi
  interval_cases i <;> simp

theorem rgb565_high : rgb565 (channelsArgb r g b) >>> 11 = (b >>> 3).toUInt16 := by
  simp only [rgb565, toUInt8_channelsArgb, toUInt8_channelsArgb_shift8,
    toUInt8_channelsArgb_shift16]
  apply UInt16.eq_of_toBitVec_eq
  ext i hi
  interval_cases i <;> simp

/-- The bytes of a colour tell its channels, cut to the depth of the destination. -/
theorem colourBytes_channels_iff {dstBpp : Int} (hd : TrueColour dstBpp) {r' g' b' : UInt8} :
    colourBytes dstBpp (channelsArgb r g b) = colourBytes dstBpp (channelsArgb r' g' b') ↔
      if dstBpp = 16 then r >>> 3 = r' >>> 3 ∧ g >>> 2 = g' >>> 2 ∧ b >>> 3 = b' >>> 3
      else r = r' ∧ g = g' ∧ b = b' := by
  rcases hd with rfl | rfl | rfl
  · change leBytes 2 _ = leBytes 2 _ ↔ _ ∧ _
    rw [leBytes_inj (UInt16.toNat_lt _) (UInt16.toNat_lt _), UInt16.toNat_inj]
    constructor
    · intro h
      have hlow := congrArg (· &&& (31 : UInt16)) h
      have hmiddle := congrArg (fun p : UInt16 => p >>> 5 &&& 63) h
      have hhigh := congrArg (fun p : UInt16 => p >>> 11) h
      simp only [rgb565_low, rgb565_middle, rgb565_high, UInt8.toUInt16_inj] at hlow hmiddle hhigh
      exact ⟨hlow, hmiddle, hhigh⟩
    · rintro ⟨hr, hg, hb⟩
      simp only [rgb565, toUInt8_channelsArgb, toUInt8_channelsArgb_shift8,
        toUInt8_channelsArgb_shift16, hr, hg, hb]
  · change [_, _, _] = [_, _, _] ↔ r = r' ∧ g = g' ∧ b = b'
    simp only [toUInt8_channelsArgb, toUInt8_channelsArgb_shift8, toUInt8_channelsArgb_shift16,
      List.cons.injEq, and_true]
    tauto
  · change leBytes 4 _ = leBytes 4 _ ↔ r = r' ∧ g = g' ∧ b = b'
    rw [leBytes_inj (UInt32.toNat_lt _) (UInt32.toNat_lt _), UInt32.toNat_inj]
    constructor
    · intro h
      have hlow := congrArg UInt32.toUInt8 h
      have hmiddle := congrArg (fun c : UInt32 => (c >>> 8).toUInt8) h
      have hhigh := congrArg (fun c : UInt32 => (c >>> 16).toUInt8) h
      simp only [toUInt8_channelsArgb, toUInt8_channelsArgb_shift8,
        toUInt8_channelsArgb_shift16] at hlow hmiddle hhigh
      exact ⟨hhigh, hmiddle, hlow⟩
    · rintro ⟨rfl, rfl, rfl⟩
      rfl

end

/-- What `expand_chan` makes of a field. -/
def expanded (v size : Nat) : Nat := v * 255 / (2 ^ size - 1)

theorem expanded_lt {v size : Nat} (hv : v < 2 ^ size) : expanded v size < 256 := by
  have hle : v * 255 ≤ (2 ^ size - 1) * 255 := Nat.mul_le_mul_right 255 (by omega)
  exact Nat.lt_succ_of_le (Nat.div_le_of_le_mul hle)

theorem toNat_chanMask {size : UInt8} (h : size.toNat < 32) :
    ((1 : UInt32) <<< size.toUInt32 - 1).toNat = 2 ^ size.toNat - 1 := by
  have hpow : 2 ^ size.toNat < 2 ^ 32 := Nat.pow_lt_pow_right (by decide) h
  have hshift : ((1 : UInt32) <<< size.toUInt32).toNat = 2 ^ size.toNat := by
    rw [UInt32.toNat_shiftLeft, UInt8.toNat_toUInt32, Nat.mod_eq_of_lt h, UInt32.toNat_one,
      Nat.one_shiftLeft]
    exact Nat.mod_eq_of_lt hpow
  rw [UInt32.toNat_sub_of_le, hshift, UInt32.toNat_one]
  rw [UInt32.le_iff_toNat_le, hshift]
  exact Nat.two_pow_pos size.toNat

/-- Fields of at most 24 bits are multiplied without an overflow. -/
theorem expandChan_eq {pos size : UInt8} (hpos : pos.toNat < 32) (hlo : 1 ≤ size.toNat)
    (hhi : size.toNat ≤ 24) (pixel : UInt32) :
    ∃ c : UInt8, expandChan pixel pos size = some c ∧
      c.toNat = expanded (field pixel.toNat pos.toNat size.toNat) size.toNat := by
  have hmask := @toNat_chanMask size (by omega)
  have hlt := field_lt pixel.toNat pos.toNat size.toNat
  have hpow : 2 ^ size.toNat ≤ 2 ^ 24 := Nat.pow_le_pow_right (by decide) hhi
  have htwo : 2 ^ 1 ≤ 2 ^ size.toNat := Nat.pow_le_pow_right (by decide) hlo
  have hsize : size ≠ 0 := by
    rintro rfl
    simp at hlo
  have hne : (1 : UInt32) <<< size.toUInt32 - 1 ≠ 0 := by
    intro e
    rw [e, UInt32.toNat_zero] at hmask
    omega
  have hval : (pixel >>> pos.toUInt32 &&& (1 : UInt32) <<< size.toUInt32 - 1).toNat =
      field pixel.toNat pos.toNat size.toNat := by
    rw [UInt32.toNat_and, hmask, Nat.and_two_pow_sub_one_eq_mod, UInt32.toNat_shiftRight,
      UInt8.toNat_toUInt32, Nat.mod_eq_of_lt hpos, Nat.shiftRight_eq_div_pow, field]
  refine ⟨_, by rw [expandChan, if_neg hsize]; exact if_neg hne, ?_⟩
  rw [UInt32.toNat_toUInt8, UInt32.toNat_div, UInt32.toNat_mul, hval, hmask,
    show (255 : UInt32).toNat = 255 from rfl, Nat.mod_eq_of_lt (show _ < 2 ^ 32 by omega),
    ← expanded]
  exact Nat.mod_eq_of_lt (expanded_lt hlt)

/-- How much more than four times its value a value of the DAC is shown as when a field
of `size` bits holds it. -/
def excess (size d : Nat) : Int := d * (256 - 2 ^ size) / (64 * (2 ^ size - 1))

theorem expanded_exact {v d size : Nat} (hsize : 1 ≤ size) (h : v * 64 = d * 2 ^ size) :
    (expanded v size : Int) = 4 * d + excess size d := by
  have htwo : 2 ^ 1 ≤ 2 ^ size := Nat.pow_le_pow_right (by decide) hsize
  have hcast : ((2 ^ size - 1 : Nat) : Int) = 2 ^ size - 1 := by
    rw [Nat.cast_sub (by omega)]
    push_cast
    rfl
  have hpos : (0 : Int) < 2 ^ size - 1 := by omega
  have h' : (v : Int) * 64 = d * 2 ^ size := by exact_mod_cast h
  calc (expanded v size : Int) = v * 255 / (2 ^ size - 1) := by
        rw [expanded, Int.natCast_ediv, hcast]
        push_cast
        rfl
    _ = 64 * (v * 255) / (64 * (2 ^ size - 1)) :=
        (Int.mul_ediv_mul_of_pos _ _ (by decide)).symm
    _ = (d * (256 - 2 ^ size) + 4 * d * (64 * (2 ^ size - 1))) / (64 * (2 ^ size - 1)) := by
        congr 1
        linear_combination 255 * h'
    _ = 4 * d + excess size d := by
        rw [Int.add_mul_ediv_right _ _ (by omega), excess, Int.add_comm]

theorem neg_one_le_excess {size d : Nat} (hd : d < 64) : -1 ≤ excess size d := by
  have hone : 1 ≤ 2 ^ size := Nat.two_pow_pos size
  rcases Nat.eq_or_lt_of_le hone with hzero | hpos
  · have : (2 : Int) ^ size = 1 := by exact_mod_cast hzero.symm
    simp [excess, this]
  · have hpos' : (1 : Int) < 2 ^ size := by exact_mod_cast hpos
    apply Int.le_ediv_of_mul_le (by omega)
    have hd' : (0 : Int) ≤ 63 - d := by omega
    nlinarith [mul_nonneg hd' (show (0 : Int) ≤ 2 ^ size - 1 by omega)]

/-- Channels of six bits, as the DAC has them. -/
structure Rgb.SixBit (c : Rgb) : Prop where
  r : c.r.toNat < 64
  g : c.g.toNat < 64
  b : c.b.toNat < 64

/-- A field of `size` bits holds a value of the DAC to the bit: it is padded with zeros
below, or it ends before bits that are zero. -/
structure HoldsDac (bits : Int) (pixel : UInt32) (pos size d : UInt8) : Prop where
  within : (pos.toNat + size.toNat : Int) ≤ bits
  exact : field pixel.toNat pos.toNat size.toNat * 64 = d.toNat * 2 ^ size.toNat

/-- The sizes of fields, and the values in them, that are shown as four times the
value. -/
def Unscaled (size d : Nat) : Prop :=
  d = 0 ∨ size = 7 ∨ size = 8 ∨ size = 6 ∧ d < 21 ∨ size = 5 ∧ d < 9

/-- Red and blue of a colour are equal and its fields are shown unscaled, as far as the
destination tells. -/
def ShownAlike (dstBpp : Int) (masks : Masks) (c : Rgb) : Prop :=
  if dstBpp = 16 then
    (c.b.toNat / 2 : Int) = (4 * c.r.toNat + excess masks.redSize.toNat c.r.toNat) / 8 ∧
      excess masks.greenSize.toNat c.g.toNat / 4 = 0 ∧
      (c.r.toNat / 2 : Int) = (4 * c.b.toNat + excess masks.blueSize.toNat c.b.toNat) / 8
  else
    c.r = c.b ∧ Unscaled masks.redSize.toNat c.r.toNat ∧
      Unscaled masks.greenSize.toNat c.g.toNat ∧ Unscaled masks.blueSize.toNat c.b.toNat

theorem toNat_dac {c : UInt8} (h : c.toNat < 64) : (c <<< 2).toNat = 4 * c.toNat := by
  rw [UInt8.toNat_shiftLeft, Nat.shiftLeft_eq]
  change c.toNat * 4 % 256 = _
  omega

section
variable {bits : Int} (hbits : bits ≤ 24) {pixel : UInt32} {pos size d : UInt8}
  (h : HoldsDac bits pixel pos size d)
include hbits h

theorem HoldsDac.expandChan_eq : ∃ c : UInt8, expandChan pixel pos size = some c ∧
    (c.toNat : Int) = 4 * d.toNat + excess size.toNat d.toNat := by
  obtain ⟨hwithin, hexact⟩ := h
  by_cases hsize : size = 0
  · subst hsize
    have hd : d.toNat = 0 := by simpa [field, Nat.mod_one] using hexact.symm
    exact ⟨0, rfl, by rw [hd]; rfl⟩
  · have hlo : 1 ≤ size.toNat := by
      rw [Nat.one_le_iff_ne_zero]
      exact fun hzero => hsize (UInt8.toNat_inj.mp hzero)
    obtain ⟨c, hc, hvalue⟩ := @Vga.expandChan_eq pos size (by omega) hlo (by omega) pixel
    exact ⟨c, hc, by rw [hvalue, expanded_exact hlo hexact]⟩

theorem HoldsDac.excess_eq_zero_iff (hd : d.toNat < 64) :
    excess size.toNat d.toNat = 0 ↔ Unscaled size.toNat d.toNat := by
  obtain ⟨hwithin, hexact⟩ := h
  have hsize : size.toNat ≤ 24 := by omega
  generalize field pixel.toNat pos.toNat size.toNat = v at hexact
  generalize d.toNat = n at *
  generalize size.toNat = k at *
  unfold excess Unscaled
  interval_cases k <;> norm_num at hexact ⊢ <;> omega

end

/-- Between five and eight bits the excess does not reach the bits of red and blue that
a destination of 16 bits has. -/
theorem HoldsDac.half_eq {bits : Int} {pixel : UInt32} {pos size d : UInt8}
    (h : HoldsDac bits pixel pos size d) (hlo : 5 ≤ size.toNat) (hhi : size.toNat ≤ 8)
    (hd : d.toNat < 64) :
    (4 * d.toNat + excess size.toNat d.toNat) / 8 = (d.toNat / 2 : Int) := by
  have hexact := h.exact
  generalize field pixel.toNat pos.toNat size.toNat = v at hexact
  generalize d.toNat = n at *
  generalize size.toNat = k at *
  unfold excess
  interval_cases k <;> norm_num at hexact ⊢ <;> omega

theorem shiftRight_three_eq_iff {x y : UInt8} :
    x >>> 3 = y >>> 3 ↔ (x.toNat : Int) / 8 = (y.toNat : Int) / 8 := by
  rw [← UInt8.toNat_inj, UInt8.toNat_shiftRight, UInt8.toNat_shiftRight,
    Nat.shiftRight_eq_div_pow, Nat.shiftRight_eq_div_pow]
  change x.toNat / 8 = y.toNat / 8 ↔ _
  omega

theorem shiftRight_two_eq_iff {x y : UInt8} :
    x >>> 2 = y >>> 2 ↔ (x.toNat : Int) / 4 = (y.toNat : Int) / 4 := by
  rw [← UInt8.toNat_inj, UInt8.toNat_shiftRight, UInt8.toNat_shiftRight,
    Nat.shiftRight_eq_div_pow, Nat.shiftRight_eq_div_pow]
  change x.toNat / 4 = y.toNat / 4 ↔ _
  omega

/-- The shadow holds indices into a palette whose entries are the colours of the
picture, and the table is that of the palette. -/
structure Indexed (e : Emul) (m : Mem) (picture : Nat → Nat → Rgb) : Prop where
  srcBpp : e.srcBpp = 4 ∨ e.srcBpp = 8
  table : rebuildArgbTable e = e
  entry : ∀ x y : Nat, (x : Int) < e.width → (y : Int) < e.height →
    e.palette.get ⟨(indexAt e m (e.sline y) x).toNat, UInt8.toNat_lt _⟩ = picture x y

/-- The shadow holds pixels whose fields hold the colours of the picture. -/
structure PackedExactly (e : Emul) (m : Mem) (picture : Nat → Nat → Rgb) : Prop where
  srcBpp : e.srcBpp = 16 ∨ e.srcBpp = 24
  red : ∀ x y : Nat, (x : Int) < e.width → (y : Int) < e.height →
    HoldsDac e.srcBpp (packedAt e m (e.sline y) x) e.masks.redPos e.masks.redSize (picture x y).r
  green : ∀ x y : Nat, (x : Int) < e.width → (y : Int) < e.height →
    HoldsDac e.srcBpp (packedAt e m (e.sline y) x) e.masks.greenPos e.masks.greenSize
      (picture x y).g
  blue : ∀ x y : Nat, (x : Int) < e.width → (y : Int) < e.height →
    HoldsDac e.srcBpp (packedAt e m (e.sline y) x) e.masks.bluePos e.masks.blueSize
      (picture x y).b

section
variable {e : Emul} {m : Mem} {picture : Nat → Nat → Rgb}

theorem Indexed.sourceColour (h : Indexed e m picture) {x y : Nat} (hw : e.Writes x y) :
    sourceColour e m (e.sline y) x = some (channelsArgb ((picture x y).b <<< 2)
      ((picture x y).g <<< 2) ((picture x y).r <<< 2)) := by
  have hlookup : ∀ idx, e.lookup idx = packDac (e.palette.get ⟨idx.toNat, idx.toNat_lt⟩) := by
    intro idx
    have htable := congrArg Emul.argb h.table
    rw [Emul.lookup, ← htable]
    exact Vector.getElem_map ..
  rw [Vga.sourceColour, if_pos h.srcBpp, hlookup, h.entry x y hw.width hw.height]
  rfl

/-- The channels that a packed pixel is shown with. -/
structure Expanded (masks : Masks) (c : Rgb) (r g b : UInt8) : Prop where
  r : (r.toNat : Int) = 4 * c.r.toNat + excess masks.redSize.toNat c.r.toNat
  g : (g.toNat : Int) = 4 * c.g.toNat + excess masks.greenSize.toNat c.g.toNat
  b : (b.toNat : Int) = 4 * c.b.toNat + excess masks.blueSize.toNat c.b.toNat

theorem PackedExactly.srcBpp_le (h : PackedExactly e m picture) : e.srcBpp ≤ 24 := by
  have := h.srcBpp
  omega

theorem PackedExactly.sourceColour (h : PackedExactly e m picture) {x y : Nat}
    (hw : e.Writes x y) :
    ∃ r g b, Vga.sourceColour e m (e.sline y) x = some (channelsArgb r g b) ∧
      Expanded e.masks (picture x y) r g b := by
  have hbpp := h.srcBpp
  obtain ⟨r, hr, hrv⟩ := (h.red x y hw.width hw.height).expandChan_eq h.srcBpp_le
  obtain ⟨g, hg, hgv⟩ := (h.green x y hw.width hw.height).expandChan_eq h.srcBpp_le
  obtain ⟨b, hb, hbv⟩ := (h.blue x y hw.width hw.height).expandChan_eq h.srcBpp_le
  refine ⟨r, g, b, ?_, hrv, hgv, hbv⟩
  rw [Vga.sourceColour, if_neg (by omega), if_pos hbpp, packedToArgb, hr, hg, hb]
  rfl

/-- The two expansions of one colour give the same bytes. -/
theorem PackedExactly.shownAlike_iff (h : PackedExactly e m picture) {x y : Nat}
    (hw : e.Writes x y) (hsix : (picture x y).SixBit) {dstBpp : Int} (hd : TrueColour dstBpp)
    {r g b : UInt8} (hshown : Expanded e.masks (picture x y) r g b) :
    colourBytes dstBpp (channelsArgb ((picture x y).b <<< 2) ((picture x y).g <<< 2)
        ((picture x y).r <<< 2)) = colourBytes dstBpp (channelsArgb r g b) ↔
      ShownAlike dstBpp e.masks (picture x y) := by
  have hr4 := toNat_dac hsix.r
  have hg4 := toNat_dac hsix.g
  have hb4 := toNat_dac hsix.b
  rw [colourBytes_channels_iff _ _ _ hd, ShownAlike]
  obtain ⟨hr, hg, hb⟩ := hshown
  split
  · rw [shiftRight_three_eq_iff, shiftRight_two_eq_iff, shiftRight_three_eq_iff, hr4, hg4, hb4,
      hr, hg, hb]
    omega
  · have hred := (h.red x y hw.width hw.height).excess_eq_zero_iff h.srcBpp_le hsix.r
    have hgreen := (h.green x y hw.width hw.height).excess_eq_zero_iff h.srcBpp_le hsix.g
    have hblue := (h.blue x y hw.width hw.height).excess_eq_zero_iff h.srcBpp_le hsix.b
    -- an exchange that hides one excess behind the other takes an excess of -4
    have hrlo := @neg_one_le_excess e.masks.redSize.toNat _ hsix.r
    have hblo := @neg_one_le_excess e.masks.blueSize.toNat _ hsix.b
    rw [← hred, ← hgreen, ← hblue, ← UInt8.toNat_inj, ← UInt8.toNat_inj, ← UInt8.toNat_inj,
      ← UInt8.toNat_inj, hr4, hg4, hb4]
    omega

/-- At 16 bits and with fields of five to eight bits, the upper five bits of red and blue
have to be equal, and only the excess of green can be seen. -/
theorem PackedExactly.shownAlike_sixteen (h : PackedExactly e m picture) {x y : Nat}
    (hw : e.Writes x y) (hsix : (picture x y).SixBit)
    (hred : 5 ≤ e.masks.redSize.toNat ∧ e.masks.redSize.toNat ≤ 8)
    (hblue : 5 ≤ e.masks.blueSize.toNat ∧ e.masks.blueSize.toNat ≤ 8) :
    ShownAlike 16 e.masks (picture x y) ↔
      (picture x y).r.toNat / 2 = (picture x y).b.toNat / 2 ∧
        excess e.masks.greenSize.toNat (picture x y).g.toNat / 4 = 0 := by
  rw [ShownAlike, if_pos rfl, (h.red x y hw.width hw.height).half_eq hred.1 hred.2 hsix.r,
    (h.blue x y hw.width hw.height).half_eq hblue.1 hblue.2 hsix.b]
  omega

end

/-- Two emulators that write to one framebuffer. -/
structure SameTarget (e₁ e₂ : Emul) : Prop where
  dstPtr : e₁.dstPtr = e₂.dstPtr
  dstPitch : e₁.dstPitch = e₂.dstPitch
  dstBpp : e₁.dstBpp = e₂.dstBpp
  width : e₁.width = e₂.width
  height : e₁.height = e₂.height

/-- **When two encodings show the same colours.** Flushed from indices and from packed
pixels, one picture has red and blue exchanged, and what the division adds to a channel.
A pixel has the same bytes exactly if its red and blue are equal and the division adds
nothing, as far as the destination tells. -/
theorem flush_same_iff {e₁ e₂ : Emul} {m₁ m₂ : Mem} {picture : Nat → Nat → Rgb}
    (h₁ : e₁.Showing) (h₂ : e₂.Showing) (htarget : SameTarget e₁ e₂)
    (hi : Indexed e₁ m₁ picture) (hp : PackedExactly e₂ m₂ picture)
    (hsix : ∀ x y, (picture x y).SixBit) :
    ∃ r₁ r₂, cbvgaPalFlush e₁ m₁ = some r₁ ∧ cbvgaPalFlush e₂ m₂ = some r₂ ∧
      ∀ x y, e₁.Writes x y →
        (load r₁.mem (e₁.pixelAddress x y) (bytesppDst e₁.dstBpp).toNat =
            load r₂.mem (e₁.pixelAddress x y) (bytesppDst e₁.dstBpp).toNat ↔
          ShownAlike e₁.dstBpp e₂.masks (picture x y)) := by
  have hsource : ∀ x y, ∃ c, e₂.Writes x y → ∃ r g b, c = channelsArgb r g b ∧
      sourceColour e₂ m₂ (e₂.sline y) x = some c ∧ Expanded e₂.masks (picture x y) r g b := by
    intro x y
    by_cases hw : e₂.Writes x y
    · obtain ⟨r, g, b, hc, hshown⟩ := hp.sourceColour hw
      exact ⟨_, fun _ => ⟨r, g, b, rfl, hc, hshown⟩⟩
    · exact ⟨0, fun h => absurd h hw⟩
  choose colour hcolour using hsource
  have hsourceColour : ∀ x y, e₂.Writes x y →
      sourceColour e₂ m₂ (e₂.sline y) x = some (colour x y) := by
    intro x y hw
    obtain ⟨r, g, b, -, hc, -⟩ := hcolour x y hw
    exact hc
  obtain ⟨r₁, hr₁, hshow₁⟩ := h₁.flush_shows fun x y hw => hi.sourceColour hw
  obtain ⟨r₂, hr₂, hshow₂⟩ := h₂.flush_shows hsourceColour
  refine ⟨r₁, r₂, hr₁, hr₂, fun x y hw => ?_⟩
  obtain ⟨hptr, hpitch, hbpp, hwidth, hheight⟩ := htarget
  have haddress : e₁.pixelAddress x y = e₂.pixelAddress x y := by
    rw [Emul.pixelAddress, Emul.pixelAddress, Emul.dline, Emul.dline, hptr, hpitch, hbpp]
  have hw₂ : e₂.Writes x y := by
    refine ⟨hwidth ▸ hw.width, ?_, hheight ▸ hw.height⟩
    have := hw.pitch
    rwa [Emul.dstPixels, hbpp, hpitch] at this
  obtain ⟨r, g, b, hc, -, hshown⟩ := hcolour x y hw₂
  rw [hshow₁ x y hw, haddress, hbpp, hshow₂ x y hw₂, hc]
  exact hp.shownAlike_iff hw₂ (hsix x y) h₂.dstBpp hshown

/-- A framebuffer of one pixel of 32 bits. -/
def onePixel : Emul :=
  { blankMachine.emul with
    shadowPtr := 0x1000, dstPtr := 0x2000, dstPitch := 4, width := 1, height := 1, dstBpp := 32 }

/-- The pixel as index 0, in memory that holds zeros. -/
def onePixelIndexed (c : Rgb) : Emul :=
  rebuildArgbTable
    { onePixel with palette := Vector.replicate 256 c, srcBpp := 8, srcPitch := 1 }

/-- The pixel packed with channels of eight bits. -/
def onePixelPacked : Emul :=
  { onePixel with srcBpp := 24, srcPitch := 3, masks := ⟨8, 8, 8, 16, 8, 0⟩ }

def packedShadow (c : Rgb) : Mem := fun a =>
  if a = 0x1000 then c.b <<< 2 else if a = 0x1001 then c.g <<< 2
  else if a = 0x1002 then c.r <<< 2 else 0

theorem showing_onePixelIndexed (c : Rgb) : (onePixelIndexed c).Showing where
  sized := by constructor <;> simp [onePixelIndexed, rebuildArgbTable, onePixel, intMax]
  shadowPtr := by simp [onePixelIndexed, rebuildArgbTable, onePixel]
  dstPtr := by simp [onePixelIndexed, rebuildArgbTable, onePixel]
  dstBpp := .inr (.inr rfl)
  wide := by simp [onePixelIndexed, rebuildArgbTable, onePixel, Emul.srcPixels]
  apart := .inl (by simp [onePixelIndexed, rebuildArgbTable, onePixel])

theorem showing_onePixelPacked : onePixelPacked.Showing where
  sized := by constructor <;> decide
  shadowPtr := by decide
  dstPtr := by decide
  dstBpp := .inr (.inr rfl)
  wide := by decide
  apart := .inl (by decide)

theorem indexed_onePixel (c : Rgb) :
    Indexed (onePixelIndexed c) (fun _ => 0) fun _ _ => c where
  srcBpp := .inr rfl
  table := rfl
  entry _ _ _ _ := Vector.getElem_replicate ..

/-- The only pixel of `onePixelPacked`. -/
def onlyPixel (c : Rgb) : UInt32 :=
  packedAt onePixelPacked (packedShadow c) (onePixelPacked.sline 0) 0

/-- The picture has one position, so that it is enough to look at this pixel. -/
theorem packedExactly_onePixel {c : Rgb} (hr : HoldsDac 24 (onlyPixel c) 16 8 c.r)
    (hg : HoldsDac 24 (onlyPixel c) 8 8 c.g) (hb : HoldsDac 24 (onlyPixel c) 0 8 c.b) :
    PackedExactly onePixelPacked (packedShadow c) fun _ _ => c := by
  have hzero : ∀ {x : Nat}, (x : Int) < 1 → x = 0 := fun h => by omega
  refine ⟨.inr rfl, fun x y hx hy => ?_, fun x y hx hy => ?_, fun x y hx hy => ?_⟩
  · rw [hzero hx, hzero hy]
    exact hr
  · rw [hzero hx, hzero hy]
    exact hg
  · rw [hzero hx, hzero hy]
    exact hb

/-- A grey pixel is shown alike. -/
theorem flush_same_grey :
    ∃ r₁ r₂, cbvgaPalFlush (onePixelIndexed ⟨21, 21, 21⟩) (fun _ => 0) = some r₁ ∧
      cbvgaPalFlush onePixelPacked (packedShadow ⟨21, 21, 21⟩) = some r₂ ∧
      load r₁.mem 0x2000 4 = load r₂.mem 0x2000 4 := by
  obtain ⟨r₁, r₂, hr₁, hr₂, h⟩ := flush_same_iff (showing_onePixelIndexed _)
    showing_onePixelPacked ⟨rfl, rfl, rfl, rfl, rfl⟩ (indexed_onePixel ⟨21, 21, 21⟩)
    (packedExactly_onePixel ⟨by decide, by decide⟩ ⟨by decide, by decide⟩ ⟨by decide, by decide⟩)
    fun _ _ => ⟨by decide, by decide, by decide⟩
  have halike : ShownAlike 32 onePixelPacked.masks ⟨21, 21, 21⟩ :=
    ⟨rfl, .inr (.inr (.inl rfl)), .inr (.inr (.inl rfl)), .inr (.inr (.inl rfl))⟩
  exact ⟨r₁, r₂, hr₁, hr₂, (h 0 0 ⟨by decide, by decide, by decide⟩).mpr halike⟩

/-- A red pixel is shown as 0xff0000fc from an index, and as 0xfffc0000 from a packed
pixel. -/
theorem flush_differs_red :
    (onePixelIndexed ⟨63, 0, 0⟩).Showing ∧ onePixelPacked.Showing ∧
      Indexed (onePixelIndexed ⟨63, 0, 0⟩) (fun _ => 0) (fun _ _ => ⟨63, 0, 0⟩) ∧
      PackedExactly onePixelPacked (packedShadow ⟨63, 0, 0⟩) (fun _ _ => ⟨63, 0, 0⟩) ∧
      ∃ r₁ r₂, cbvgaPalFlush (onePixelIndexed ⟨63, 0, 0⟩) (fun _ => 0) = some r₁ ∧
        cbvgaPalFlush onePixelPacked (packedShadow ⟨63, 0, 0⟩) = some r₂ ∧
        load r₁.mem 0x2000 4 = [0xfc, 0, 0, 0xff] ∧ load r₂.mem 0x2000 4 = [0, 0, 0xfc, 0xff] := by
  have hi := indexed_onePixel ⟨63, 0, 0⟩
  have hp : PackedExactly onePixelPacked (packedShadow ⟨63, 0, 0⟩) fun _ _ => ⟨63, 0, 0⟩ :=
    packedExactly_onePixel ⟨by decide, by decide⟩ ⟨by decide, by decide⟩ ⟨by decide, by decide⟩
  have hcolour : ∀ x y, onePixelPacked.Writes x y →
      sourceColour onePixelPacked (packedShadow ⟨63, 0, 0⟩) (onePixelPacked.sline y) x =
        some 0xfffc0000 := by
    rintro x y ⟨hx, -, hy⟩
    have hx0 : x = 0 := by
      change (x : Int) < 1 at hx
      omega
    have hy0 : y = 0 := by
      change (y : Int) < 1 at hy
      omega
    rw [hx0, hy0]
    decide
  obtain ⟨r₁, hr₁, h₁⟩ := (showing_onePixelIndexed ⟨63, 0, 0⟩).flush_shows fun _ _ hw =>
    hi.sourceColour hw
  obtain ⟨r₂, hr₂, h₂⟩ := showing_onePixelPacked.flush_shows hcolour
  refine ⟨showing_onePixelIndexed _, showing_onePixelPacked, hi, hp, r₁, r₂, hr₁, hr₂, ?_, ?_⟩
  · exact (h₁ 0 0 ⟨by decide, by decide, by decide⟩).trans (by decide)
  · exact (h₂ 0 0 ⟨by decide, by decide, by decide⟩).trans (by decide)

end CsmWrap.Vga
