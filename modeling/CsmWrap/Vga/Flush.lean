import CsmWrap.AccessTrace
import CsmWrap.Vga.Emulator

/-!
# The flush

`cbvga_pal_flush` copies the shadow buffer to the framebuffer, scanline by
scanline, and converts every pixel from the depth of the source to that of the
destination. The first section is the code, over one memory that holds both
buffers; a division by zero traps. The second gives what the expansion of a source
pixel reads and returns, and the third says which bytes a scanline accesses.

An `int` is not wrapped here: none of the source overflows for the pitches of
`Emul.Sized`.
-/

namespace CsmWrap.Vga
open Memory AccessTrace

/-- The table that is looked up for a pixel. -/
def Emul.lookup (e : Emul) (idx : UInt8) : UInt32 := e.argb.get ⟨idx.toNat, idx.toNat_lt⟩

/-- A division by zero traps. A shift of a 32-bit value takes its count modulo 32. -/
def expandChan (pixel : UInt32) (pos size : UInt8) : Option UInt8 :=
  if size = 0 then some 0
  else
    let mask : UInt32 := 1 <<< size.toUInt32 - 1
    let val : UInt32 := pixel >>> pos.toUInt32 &&& mask
    if mask = 0 then none else some (val * 255 / mask).toUInt8

/-- The colour of three channels, red on top. -/
def channelsArgb (r g b : UInt8) : UInt32 :=
  (0xff000000 : UInt32) ||| r.toUInt32 <<< 16 ||| g.toUInt32 <<< 8 ||| b.toUInt32

def packedToArgb (pixel : UInt32) (masks : Masks) : Option UInt32 := do
  let r ← expandChan pixel masks.redPos masks.redSize
  let g ← expandChan pixel masks.greenPos masks.greenSize
  let b ← expandChan pixel masks.bluePos masks.blueSize
  return channelsArgb r g b

def expandSrcPixel (e : Emul) (sline : Int) (x : Nat) : Prog UInt32 :=
  if e.srcBpp = 4 then do
    let byte ← fetch8 (sline + (x / 2 : Nat))
    let idx := if x % 2 = 1 then byte &&& 0x0f else byte >>> 4
    return e.lookup idx
  else if e.srcBpp = 8 then do
    let idx ← fetch8 (sline + x)
    return e.lookup idx
  else if e.srcBpp = 16 then do
    let pixel ← fetch16 (sline + (x * 2 : Nat))
    ofOption (packedToArgb pixel.toUInt32 e.masks)
  else if e.srcBpp = 24 then do
    let b0 ← fetch8 (sline + (x * 3 : Nat))
    let b1 ← fetch8 (sline + (x * 3 + 1 : Nat))
    let b2 ← fetch8 (sline + (x * 3 + 2 : Nat))
    ofOption (packedToArgb (b0.toUInt32 ||| b1.toUInt32 <<< 8 ||| b2.toUInt32 <<< 16) e.masks)
  else
    fetch32 (sline + (x * 4 : Nat))

/-- The first entry of `palette` that is nearest to `c`, within 999999. -/
def nearestIndex {n : Nat} (palette : Vector Rgb n) (c : UInt32) : UInt8 :=
  let dist (p : Rgb) : Int :=
    let dr : Int := c.toUInt8.toNat - (p.r.toNat <<< 2 : Nat)
    let dg : Int := (c >>> 8).toUInt8.toNat - (p.g.toNat <<< 2 : Nat)
    let db : Int := (c >>> 16).toUInt8.toNat - (p.b.toNat <<< 2 : Nat)
    dr * dr + dg * dg + db * db
  let (best, _) := (List.finRange n).foldl
    (fun (best, bestdist) i =>
      if dist palette[i] < bestdist then (i.val, dist palette[i]) else (best, bestdist))
    (0, 999999)
  UInt8.ofNat best

def nearestVga16Index (c : UInt32) : UInt8 := nearestIndex defaultVgaPalette c

def nearestVga256Index (e : Emul) (c : UInt32) : UInt8 := nearestIndex e.vga256 c

def divide (a b : Int) : Option Int := if b = 0 then none else some (a.tdiv b)

def bytesppDst (dstBpp : Int) : Int :=
  if dstBpp = 24 then 3 else if dstBpp = 16 then 2 else if dstBpp = 8 then 1
  else if dstBpp = 4 then 0 else 4

def maxpixSrc (e : Emul) : Option Int :=
  if e.srcBpp = 4 then some (e.srcPitch * 2) else divide e.srcPitch (e.srcBpp.tdiv 8)

def maxpixDst (e : Emul) : Option Int :=
  if e.dstBpp = 4 then some (e.dstPitch * 2)
  else divide e.dstPitch (if bytesppDst e.dstBpp = 0 then 1 else bytesppDst e.dstBpp)

/-- The number of pixels of a line that are written. -/
def flushLimit (e : Emul) : Option Int := do
  let maxpixSrc ← maxpixSrc e
  let maxpixDst ← maxpixDst e
  let limit := e.width
  let limit := if limit > maxpixDst then maxpixDst else limit
  return if limit > maxpixSrc then maxpixSrc else limit

/-- `for (int x = 0; x < limit; x++)`. -/
def pixels (limit : Int) : List Nat := List.range limit.toNat

/-- `for (int x = 0; x < limit; x += 2)`. -/
def pixelPairs (limit : Int) : List Nat := (List.range ((limit + 1) / 2).toNat).map (2 * ·)

/-- An `int` passed as a `size_t`. -/
def asSize (n : Int) : Nat := (UInt32.ofInt n).toNat

/-- A line of 4-bit pixels: two in a byte, the left one on top. -/
def flushLine4 (e : Emul) (sline dline limit : Int) : Prog Unit :=
  if e.srcBpp = 4 then memcpy dline sline (asSize ((limit + 1) / 2))
  else if e.srcBpp = 8 then
    loop (fun x : Nat => do
      let idx0 ← fetch8 (sline + x)
      let idx1 ← guarded ((x : Int) + 1 < limit) (fetch8 (sline + (x + 1 : Nat))) 0
      put (dline + (x / 2 : Nat)) [(idx0 &&& 0x0f) <<< 4 ||| idx1 &&& 0x0f]) (pixelPairs limit)
  else
    loop (fun x : Nat => do
      let c0 ← expandSrcPixel e sline x
      let c1 ← guarded ((x : Int) + 1 < limit) (expandSrcPixel e sline (x + 1)) c0
      put (dline + (x / 2 : Nat)) [nearestVga16Index c0 <<< 4 ||| nearestVga16Index c1])
      (pixelPairs limit)

/-- A line of indices. -/
def flushLine8 (e : Emul) (sline dline limit : Int) : Prog Unit :=
  if e.srcBpp = 4 then
    loop (fun x : Nat => do
      let byte ← fetch8 (sline + (x / 2 : Nat))
      put (dline + x) [byte >>> 4 &&& 0x0f]
      guarded ((x : Int) + 1 < limit) (put (dline + (x + 1 : Nat)) [byte &&& 0x0f]) ())
      (pixelPairs limit)
  else if e.srcBpp = 8 then memcpy dline sline (asSize limit)
  else
    loop (fun x : Nat => do
      let c ← expandSrcPixel e sline x
      put (dline + x) [nearestVga256Index e c]) (pixels limit)

def rgb565 (c : UInt32) : UInt16 :=
  let r := c.toUInt8
  let g := (c >>> 8).toUInt8
  let b := (c >>> 16).toUInt8
  (r >>> 3).toUInt16 <<< 11 ||| (g >>> 2).toUInt16 <<< 5 ||| (b >>> 3).toUInt16

/-- A colour stored at a depth of 32, 24 or 16; other depths are left alone. -/
def putColour (dstBpp dline : Int) (x : Nat) (c : UInt32) : Prog Unit :=
  if dstBpp = 32 then put (dline + (x * 4 : Nat)) (leBytes 4 c.toNat)
  else if dstBpp = 24 then do
    put (dline + (x * 3 : Nat)) [c.toUInt8]
    put (dline + (x * 3 + 1 : Nat)) [(c >>> 8).toUInt8]
    put (dline + (x * 3 + 2 : Nat)) [(c >>> 16).toUInt8]
  else if dstBpp = 16 then put (dline + (x * 2 : Nat)) (leBytes 2 (rgb565 c).toNat)
  else pure ()

def flushLineTrue (e : Emul) (sline dline limit : Int) : Prog Unit :=
  loop (fun x : Nat => do
    let c ← expandSrcPixel e sline x
    putColour e.dstBpp dline x c) (pixels limit)

def Emul.sline (e : Emul) (y : Nat) : Int := e.shadowPtr.toNat + y * e.srcPitch

def Emul.dline (e : Emul) (y : Nat) : Int := e.dstPtr.toNat + y * e.dstPitch

/-- One scanline. -/
def flushLine (e : Emul) (y : Nat) : Prog Unit := do
  let limit ← ofOption (flushLimit e)
  if e.dstBpp = 4 then flushLine4 e (e.sline y) (e.dline y) limit
  else if e.dstBpp = 8 then flushLine8 e (e.sline y) (e.dline y) limit
  else flushLineTrue e (e.sline y) (e.dline y) limit

def cbvgaPalFlush (e : Emul) : Prog Unit :=
  if e.shadowPtr = 0 ∨ e.dstPtr = 0 then pure ()
  else loop (flushLine e) (List.range e.height.toNat)

/-- The index of a pixel of 4 or 8 bits. -/
def indexAt (e : Emul) (m : Mem) (sline : Int) (x : Nat) : UInt8 :=
  if e.srcBpp = 4 then
    let byte := m (sline + (x / 2 : Nat)).toNat
    if x % 2 = 1 then byte &&& 0x0f else byte >>> 4
  else m (sline + x).toNat

/-- A pixel of 16 or 24 bits. -/
def packedAt (e : Emul) (m : Mem) (sline : Int) (x : Nat) : UInt32 :=
  if e.srcBpp = 16 then (read16 m (sline + (x * 2 : Nat)).toNat).toUInt32
  else
    (m (sline + (x * 3 : Nat)).toNat).toUInt32 |||
      (m (sline + (x * 3 + 1 : Nat)).toNat).toUInt32 <<< 8 |||
      (m (sline + (x * 3 + 2 : Nat)).toNat).toUInt32 <<< 16

def sourceColour (e : Emul) (m : Mem) (sline : Int) (x : Nat) : Option UInt32 :=
  if e.srcBpp = 4 ∨ e.srcBpp = 8 then some (e.lookup (indexAt e m sline x))
  else if e.srcBpp = 16 ∨ e.srcBpp = 24 then packedToArgb (packedAt e m sline x) e.masks
  else some (read32 m (sline + (x * 4 : Nat)).toNat)

def sourceReads (srcBpp sline : Int) (x : Nat) : List Access :=
  if srcBpp = 4 then [⟨.read, sline + (x / 2 : Nat), 1⟩]
  else if srcBpp = 8 then [⟨.read, sline + x, 1⟩]
  else if srcBpp = 16 then [⟨.read, sline + (x * 2 : Nat), 2⟩]
  else if srcBpp = 24 then
    [⟨.read, sline + (x * 3 : Nat), 1⟩, ⟨.read, sline + (x * 3 + 1 : Nat), 1⟩,
      ⟨.read, sline + (x * 3 + 2 : Nat), 1⟩]
  else [⟨.read, sline + (x * 4 : Nat), 4⟩]

theorem expandSrcPixel_eq (e : Emul) (m : Mem) (sline : Int) (x : Nat) :
    expandSrcPixel e sline x m =
      (sourceColour e m sline x).map (⟨·, m, sourceReads e.srcBpp sline x⟩) := by
  unfold expandSrcPixel sourceColour sourceReads
  by_cases h4 : e.srcBpp = 4
  · simp only [h4, indexAt, if_true, true_or]
    rfl
  by_cases h8 : e.srcBpp = 8
  · simp only [h8, indexAt, or_true, if_true]
    rfl
  by_cases h16 : e.srcBpp = 16
  · simp only [h16, packedAt, true_or, if_true]
    exact Option.map_map _ _ _
  by_cases h24 : e.srcBpp = 24
  · simp only [h24, packedAt, Int.reduceEq, or_self, or_true, if_true, if_false]
    change (((Option.map _ _).map _).map _).map _ = _
    simp only [Option.map_map]
    rfl
  · simp only [h4, h8, h16, h24, or_self, if_false]
    rfl

theorem runs_expand {e : Emul} {m : Mem} {sline : Int} {x : Nat} {P : Access → Prop}
    {Q : UInt32 → Mem → Prop} {c : UInt32} (hc : sourceColour e m sline x = some c)
    (hP : ∀ acc ∈ sourceReads e.srcBpp sline x, P acc) (h : Q c m) :
    Runs P (expandSrcPixel e sline x) m Q :=
  ⟨⟨c, m, sourceReads e.srcBpp sline x⟩, by rw [expandSrcPixel_eq, hc]; rfl, hP, h⟩

/-- The size of a mask that is shifted out of its word. -/
def Trapping (size : UInt8) : Prop := size ≠ 0 ∧ size.toNat % 32 = 0

instance (size : UInt8) : Decidable (Trapping size) := inferInstanceAs (Decidable (_ ∧ _))

theorem mask_eq_zero_iff (size : UInt8) :
    (1 : UInt32) <<< size.toUInt32 - 1 = 0 ↔ size.toNat % 32 = 0 := by
  have hlt : 2 ^ (size.toNat % 32) < 2 ^ 32 :=
    Nat.pow_lt_pow_right (by decide) (Nat.mod_lt _ (by decide))
  rw [sub_eq_zero, ← UInt32.toNat_inj, UInt32.toNat_shiftLeft, UInt8.toNat_toUInt32,
    Nat.shiftLeft_eq, UInt32.toNat_one, Nat.one_mul, Nat.mod_eq_of_lt hlt, Nat.pow_eq_one]
  exact or_iff_right (by decide)

theorem expandChan_eq_none_iff (pixel : UInt32) (pos size : UInt8) :
    expandChan pixel pos size = none ↔ Trapping size := by
  unfold expandChan Trapping
  by_cases h0 : size = 0
  · simp [h0]
  · simp [h0, mask_eq_zero_iff]

/-- One of the three masks traps. -/
def Masks.Trap (masks : Masks) : Prop :=
  Trapping masks.redSize ∨ Trapping masks.greenSize ∨ Trapping masks.blueSize

instance (masks : Masks) : Decidable masks.Trap := inferInstanceAs (Decidable (_ ∨ _))

theorem packedToArgb_eq_none_iff (pixel : UInt32) (masks : Masks) :
    packedToArgb pixel masks = none ↔ masks.Trap := by
  unfold packedToArgb Masks.Trap
  rw [← expandChan_eq_none_iff pixel masks.redPos, ← expandChan_eq_none_iff pixel masks.greenPos,
    ← expandChan_eq_none_iff pixel masks.bluePos]
  cases expandChan pixel masks.redPos masks.redSize <;>
    cases expandChan pixel masks.greenPos masks.greenSize <;>
    cases expandChan pixel masks.bluePos masks.blueSize <;> simp

theorem sourceColour_eq_none_iff (e : Emul) (m : Mem) (sline : Int) (x : Nat) :
    sourceColour e m sline x = none ↔ (e.srcBpp = 16 ∨ e.srcBpp = 24) ∧ e.masks.Trap := by
  unfold sourceColour
  split
  · next h =>
    have : ¬(e.srcBpp = 16 ∨ e.srcBpp = 24) := by omega
    simp [this]
  · split
    · next h => simp [h, packedToArgb_eq_none_iff]
    · next h => simp [h]

/-! ## Scanlines -/

/-- The largest `int`. -/
def intMax : Int := 2147483647

/-- A depth of the source, sizes that are not negative, and pitches whose doubles and
products with the height are `int`s. -/
structure Emul.Sized (e : Emul) : Prop where
  srcBpp : e.srcBpp = 4 ∨ e.srcBpp = 8 ∨ e.srcBpp = 16 ∨ e.srcBpp = 24 ∨ e.srcBpp = 32
  width : 0 ≤ e.width
  height : 0 ≤ e.height
  srcPitch : 0 ≤ e.srcPitch
  dstPitch : 0 ≤ e.dstPitch
  srcDouble : e.srcPitch * 2 ≤ intMax
  dstDouble : e.dstPitch * 2 ≤ intMax
  srcLines : e.srcPitch * e.height ≤ intMax
  dstLines : e.dstPitch * e.height ≤ intMax

theorem divide_eq {a b : Int} (ha : 0 ≤ a) (hb : 0 < b) : divide a b = some (a / b) := by
  rw [divide, if_neg hb.ne', Int.tdiv_eq_ediv_of_nonneg ha]

theorem bytesppDst_cases {dstBpp : Int} (h : dstBpp ≠ 4) :
    bytesppDst dstBpp = 1 ∨ bytesppDst dstBpp = 2 ∨ bytesppDst dstBpp = 3 ∨
      bytesppDst dstBpp = 4 := by
  unfold bytesppDst
  split
  · simp
  · split
    · simp
    · split <;> simp

def Emul.srcPixels (e : Emul) : Int :=
  if e.srcBpp = 4 then e.srcPitch * 2 else e.srcPitch / (e.srcBpp / 8)

def Emul.dstPixels (e : Emul) : Int :=
  if e.dstBpp = 4 then e.dstPitch * 2 else e.dstPitch / bytesppDst e.dstBpp

def Emul.limit (e : Emul) : Int := min (min e.width e.dstPixels) e.srcPixels

section
variable {e : Emul} (h : e.Sized)
include h

theorem Emul.Sized.maxpixSrc_eq : maxpixSrc e = some e.srcPixels := by
  unfold maxpixSrc Emul.srcPixels
  split
  · rfl
  · have hbpp := h.srcBpp
    rw [Int.tdiv_eq_ediv_of_nonneg (by omega), divide_eq h.srcPitch (by omega)]

theorem Emul.Sized.maxpixDst_eq : maxpixDst e = some e.dstPixels := by
  unfold maxpixDst Emul.dstPixels
  split
  · rfl
  · next h4 =>
    have hbytes := bytesppDst_cases h4
    rw [if_neg (by omega), divide_eq h.dstPitch (by omega)]

/-- No division of the limit is by zero. -/
theorem Emul.Sized.flushLimit_eq : flushLimit e = some e.limit := by
  have hmin : ∀ a b : Int, (if a > b then b else a) = min a b := by
    intro a b
    split <;> omega
  simp only [flushLimit, h.maxpixSrc_eq, h.maxpixDst_eq, hmin]
  rfl

theorem Emul.Sized.limit_nonneg : 0 ≤ e.limit := by
  have hsrc : 0 ≤ e.srcPixels := by
    unfold Emul.srcPixels
    split
    · have := h.srcPitch
      omega
    · exact Int.ediv_nonneg h.srcPitch (by have := h.srcBpp; omega)
  have hdst : 0 ≤ e.dstPixels := by
    unfold Emul.dstPixels
    split
    · have := h.dstPitch
      omega
    · next h4 => exact Int.ediv_nonneg h.dstPitch (by have := bytesppDst_cases h4; omega)
  exact le_min (le_min h.width hdst) hsrc

end

theorem asSize_eq {n : Int} (hn : 0 ≤ n) (hle : n ≤ intMax) : (asSize n : Int) = n := by
  unfold intMax at hle
  rw [asSize, UInt32.ofInt, UInt32.toNat_ofNat']
  omega

theorem mem_pixels {limit : Int} {x : Nat} (hx : x ∈ pixels limit) : (x : Int) < limit := by
  have := List.mem_range.mp hx
  omega

theorem mem_pixelPairs {limit : Int} {x : Nat} (hx : x ∈ pixelPairs limit) :
    (x : Int) < limit := by
  obtain ⟨k, hk, rfl⟩ := List.mem_map.mp hx
  have := List.mem_range.mp hk
  omega

section
variable {e : Emul}

theorem Emul.limit_le_srcPixels : e.limit ≤ e.srcPixels := min_le_right _ _

theorem Emul.limit_le_dstPixels : e.limit ≤ e.dstPixels :=
  (min_le_left _ _).trans (min_le_right _ _)

theorem Emul.limit_le_src4 (h4 : e.srcBpp = 4) : e.limit ≤ e.srcPitch * 2 :=
  limit_le_srcPixels.trans_eq (if_pos h4)

theorem Emul.limit_le_src (h4 : e.srcBpp ≠ 4) : e.limit ≤ e.srcPitch / (e.srcBpp / 8) :=
  limit_le_srcPixels.trans_eq (if_neg h4)

theorem Emul.limit_le_dst4 (h4 : e.dstBpp = 4) : e.limit ≤ e.dstPitch * 2 :=
  limit_le_dstPixels.trans_eq (if_pos h4)

theorem Emul.limit_le_dst (h4 : e.dstBpp ≠ 4) : e.limit ≤ e.dstPitch / bytesppDst e.dstBpp :=
  limit_le_dstPixels.trans_eq (if_neg h4)

end

/-- The access stays in scanline `y` of its buffer: of the shadow if it is a read, and
of the framebuffer if it is a write. -/
def InLine (e : Emul) (y : Nat) (acc : Access) : Prop :=
  match acc.kind with
  | .read => e.shadowPtr.toNat + y * e.srcPitch ≤ acc.addr ∧
      acc.addr + acc.len ≤ e.shadowPtr.toNat + (y + 1) * e.srcPitch
  | .write => e.dstPtr.toNat + y * e.dstPitch ≤ acc.addr ∧
      acc.addr + acc.len ≤ e.dstPtr.toNat + (y + 1) * e.dstPitch

section
variable {e : Emul} {y : Nat}

theorem inLine_read {k n : Nat} (h : (k + n : Int) ≤ e.srcPitch) :
    InLine e y ⟨.read, e.sline y + k, n⟩ := by
  simp only [InLine, Emul.sline, add_one_mul]
  omega

theorem inLine_write {k n : Nat} (h : (k + n : Int) ≤ e.dstPitch) :
    InLine e y ⟨.write, e.dline y + k, n⟩ := by
  simp only [InLine, Emul.dline, add_one_mul]
  omega

theorem sourceReads_inLine (hbpp : e.srcBpp = 4 ∨ e.srcBpp = 8 ∨ e.srcBpp = 16 ∨ e.srcBpp = 24 ∨
    e.srcBpp = 32) {x : Nat} (hx : (x : Int) < e.limit) :
    ∀ acc ∈ sourceReads e.srcBpp (e.sline y) x, InLine e y acc := by
  by_cases h4 : e.srcBpp = 4
  · have hle := Emul.limit_le_src4 h4
    rw [sourceReads, if_pos h4, List.forall_mem_singleton]
    exact inLine_read (by omega)
  · have hle := Emul.limit_le_src h4
    rcases hbpp.resolve_left h4 with hb | hb | hb | hb <;>
      simp only [hb, sourceReads, Int.reduceEq, if_true, if_false, List.forall_mem_cons] at hle ⊢
    · exact ⟨inLine_read (by omega), List.forall_mem_nil _⟩
    · exact ⟨inLine_read (by omega), List.forall_mem_nil _⟩
    · exact ⟨inLine_read (by omega), inLine_read (by omega), inLine_read (by omega),
        List.forall_mem_nil _⟩
    · exact ⟨inLine_read (by omega), List.forall_mem_nil _⟩

theorem runs_put_within {k : Nat} {bytes : List UInt8} {m : Mem}
    (hk : (k + bytes.length : Int) ≤ e.dstPitch) :
    Runs (InLine e y) (put (e.dline y + k) bytes) m fun _ _ => True :=
  Runs.put (inLine_write hk) trivial

theorem runs_memcpy_within {n : Nat} {m : Mem} (hsrc : (n : Int) ≤ e.srcPitch)
    (hdst : (n : Int) ≤ e.dstPitch) :
    Runs (InLine e y) (memcpy (e.dline y) (e.sline y) n) m fun _ _ => True := by
  refine Runs.memcpy ?_ ?_ trivial
  · simpa using inLine_read (k := 0) (n := n) (by omega)
  · simpa using inLine_write (k := 0) (n := n) (by omega)

/-- The pixels of the line that are written can be expanded. -/
def Expandable (e : Emul) : Prop :=
  ∀ m sline (x : Nat), (x : Int) < e.limit → ∃ c, sourceColour e m sline x = some c

variable (h : e.Sized)
include h

theorem runs_expand_within (hc : Expandable e) {x : Nat} (hx : (x : Int) < e.limit) {m : Mem}
    {Q : UInt32 → Mem → Prop} (hQ : ∀ c, Q c m) :
    Runs (InLine e y) (expandSrcPixel e (e.sline y) x) m Q := by
  obtain ⟨c, hcolour⟩ := hc m (e.sline y) x hx
  exact runs_expand hcolour (sourceReads_inLine h.srcBpp hx) (hQ c)

theorem flushLine4_within (hc : Expandable e) (hd : e.dstBpp = 4) (m : Mem) :
    Runs (InLine e y) (flushLine4 e (e.sline y) (e.dline y) e.limit) m fun _ _ => True := by
  have hdst := Emul.limit_le_dst4 hd
  unfold flushLine4
  split
  · next h4 =>
    have hsrc := Emul.limit_le_src4 h4
    have hpos := h.limit_nonneg
    have hdouble := h.srcDouble
    have hsize := asSize_eq (n := (e.limit + 1) / 2) (by omega) (by omega)
    exact runs_memcpy_within (by omega) (by omega)
  · next h4 =>
    have hsrc := Emul.limit_le_src h4
    split
    · next h8 =>
      rw [h8] at hsrc
      apply Runs.loop_within
      intro x hx m'
      have hlt := mem_pixelPairs hx
      have hbyte : ((x / 2 : Nat) + 1 : Int) ≤ e.dstPitch := by omega
      refine Runs.bind (Runs.fetch8 (inLine_read (by omega)) (Runs.bind (Runs.guarded ?_ ?_)))
      · exact fun hlt' => Runs.fetch8 (inLine_read (by omega)) (runs_put_within hbyte)
      · exact fun _ => runs_put_within hbyte
    · apply Runs.loop_within
      intro x hx m'
      have hlt := mem_pixelPairs hx
      have hbyte : ((x / 2 : Nat) + 1 : Int) ≤ e.dstPitch := by omega
      refine Runs.bind (runs_expand_within h hc hlt fun c0 => Runs.bind (Runs.guarded ?_ ?_))
      · exact fun hlt' => runs_expand_within h hc hlt' fun c1 => runs_put_within hbyte
      · exact fun _ => runs_put_within hbyte

theorem flushLine8_within (hc : Expandable e) (hd : e.dstBpp = 8) (m : Mem) :
    Runs (InLine e y) (flushLine8 e (e.sline y) (e.dline y) e.limit) m fun _ _ => True := by
  have hdst : e.limit ≤ e.dstPitch / 1 := by
    simpa [hd, bytesppDst] using Emul.limit_le_dst (e := e) (by omega)
  unfold flushLine8
  split
  · next h4 =>
    have hsrc := Emul.limit_le_src4 h4
    apply Runs.loop_within
    intro x hx m'
    have hlt := mem_pixelPairs hx
    refine Runs.bind (Runs.fetch8 (inLine_read (by omega)) (Runs.bind ?_))
    refine Runs.put (inLine_write (k := x) (by simp; omega)) (Runs.guarded ?_ fun _ => trivial)
    exact fun hlt' => runs_put_within (by simp; omega)
  · next h4 =>
    have hsrc := Emul.limit_le_src h4
    split
    · next h8 =>
      rw [h8] at hsrc
      have hpos := h.limit_nonneg
      have hdouble := h.srcDouble
      have hsize := asSize_eq (n := e.limit) hpos (by omega)
      exact runs_memcpy_within (by omega) (by omega)
    · apply Runs.loop_within
      intro x hx m'
      have hlt := mem_pixels hx
      refine Runs.bind (runs_expand_within h hc hlt fun c => ?_)
      exact runs_put_within (by simp; omega)

theorem flushLineTrue_within (hc : Expandable e) (h4 : e.dstBpp ≠ 4) (m : Mem) :
    Runs (InLine e y) (flushLineTrue e (e.sline y) (e.dline y) e.limit) m fun _ _ => True := by
  have hdst := Emul.limit_le_dst h4
  apply Runs.loop_within
  intro x hx m'
  have hlt := mem_pixels hx
  refine Runs.bind (runs_expand_within h hc hlt fun c => ?_)
  unfold putColour
  split
  · next hd =>
    simp only [hd, bytesppDst, Int.reduceEq, if_false] at hdst
    exact runs_put_within (by simp; omega)
  · split
    · next hd =>
      simp only [hd, bytesppDst, if_true] at hdst
      refine Runs.bind (Runs.put (inLine_write (by simp; omega)) (Runs.bind ?_))
      exact Runs.put (inLine_write (by simp; omega)) (runs_put_within (by simp; omega))
    · split
      · next hd =>
        simp only [hd, bytesppDst, Int.reduceEq, if_true, if_false] at hdst
        exact runs_put_within (by simp; omega)
      · exact Runs.pure trivial

theorem flushLine_within (hc : Expandable e) (m : Mem) :
    Runs (InLine e y) (flushLine e y) m fun _ _ => True := by
  refine Runs.bind (Runs.ofOption h.flushLimit_eq ?_)
  split
  · next h4 => exact flushLine4_within h hc h4 m
  · next h4 =>
    split
    · next h8 => exact flushLine8_within h hc h8 m
    · exact flushLineTrue_within h hc h4 m

end

/-- The flush does not trap and stays in the scanlines, and each line, run after those
before it, stays in its own. -/
structure FlushStays (e : Emul) (m : Mem) : Prop where
  ends : Runs (fun acc => ∃ y : Nat, (y : Int) < e.height ∧ InLine e y acc) (cbvgaPalFlush e) m
    fun _ _ => True
  lines : e.shadowPtr ≠ 0 → e.dstPtr ≠ 0 → ∀ y : Nat, (y : Int) < e.height →
    Runs (fun _ => True) (loop (flushLine e) (List.range y)) m fun _ m' =>
      Runs (InLine e y) (flushLine e y) m' fun _ _ => True

/-- There is a packed pixel to expand: both buffers are set, and a line of both of them
holds a pixel. -/
structure Emul.ExpandsPacked (e : Emul) : Prop where
  shadowPtr : e.shadowPtr ≠ 0
  dstPtr : e.dstPtr ≠ 0
  height : 0 < e.height
  width : 0 < e.width
  srcBpp : e.srcBpp = 16 ∨ e.srcBpp = 24
  srcPitch : e.srcBpp / 8 ≤ e.srcPitch
  dstPitch : (if e.dstBpp = 4 then 1 else bytesppDst e.dstBpp) ≤ e.dstPitch

theorem limit_pos_iff {e : Emul} (hbpp : e.srcBpp = 16 ∨ e.srcBpp = 24) :
    0 < e.limit ↔ 0 < e.width ∧ e.srcBpp / 8 ≤ e.srcPitch ∧
      (if e.dstBpp = 4 then 1 else bytesppDst e.dstBpp) ≤ e.dstPitch := by
  have hsrc : 0 < e.srcPixels ↔ e.srcBpp / 8 ≤ e.srcPitch := by
    rw [Emul.srcPixels, if_neg (by omega)]
    rcases hbpp with hb | hb <;> rw [hb] <;> omega
  have hdst : 0 < e.dstPixels ↔
      (if e.dstBpp = 4 then 1 else bytesppDst e.dstBpp) ≤ e.dstPitch := by
    unfold Emul.dstPixels
    split
    · omega
    · next h4 => rcases bytesppDst_cases h4 with hb | hb | hb | hb <;> rw [hb] <;> omega
  rw [Emul.limit, lt_min_iff, lt_min_iff, hsrc, hdst]
  tauto

theorem expandSrcPixel_trap {e : Emul} (hbpp : e.srcBpp = 16 ∨ e.srcBpp = 24)
    (htrap : e.masks.Trap) (m : Mem) (sline : Int) (x : Nat) :
    expandSrcPixel e sline x m = none := by
  rw [expandSrcPixel_eq, (sourceColour_eq_none_iff e m sline x).mpr ⟨hbpp, htrap⟩]
  rfl

theorem pixels_cons {limit : Int} (h : 0 < limit) : ∃ rest, pixels limit = 0 :: rest := by
  obtain ⟨n, hn⟩ : ∃ n, limit.toNat = n + 1 := ⟨limit.toNat - 1, by omega⟩
  exact ⟨_, by rw [pixels, hn, List.range_succ_eq_map]⟩

theorem pixelPairs_cons {limit : Int} (h : 0 < limit) : ∃ rest, pixelPairs limit = 0 :: rest := by
  obtain ⟨n, hn⟩ : ∃ n, ((limit + 1) / 2).toNat = n + 1 :=
    ⟨((limit + 1) / 2).toNat - 1, by omega⟩
  exact ⟨_, by rw [pixelPairs, hn, List.range_succ_eq_map, List.map_cons]⟩

/-- The first pixel already traps. -/
theorem flushLine_trap {e : Emul} (h : e.Sized) (hx : e.ExpandsPacked) (htrap : e.masks.Trap)
    (m : Mem) (y : Nat) : flushLine e y m = none := by
  have hpos : 0 < e.limit := (limit_pos_iff hx.srcBpp).mpr ⟨hx.width, hx.srcPitch, hx.dstPitch⟩
  have hexp := expandSrcPixel_trap hx.srcBpp htrap m
  have hbpp := hx.srcBpp
  refine bind_trap_right (r := ⟨e.limit, m, []⟩) (by rw [ofOption, h.flushLimit_eq]; rfl) ?_
  obtain ⟨rest, hrest⟩ := pixels_cons hpos
  obtain ⟨rest', hrest'⟩ := pixelPairs_cons hpos
  dsimp only
  split
  · rw [flushLine4, if_neg (by omega), if_neg (by omega), hrest']
    exact loop_trap (bind_trap (hexp _ 0))
  · split
    · rw [flushLine8, if_neg (by omega), if_neg (by omega), hrest]
      exact loop_trap (bind_trap (hexp _ 0))
    · rw [flushLineTrue, hrest]
      exact loop_trap (bind_trap (hexp _ 0))

theorem cbvgaPalFlush_trap {e : Emul} (h : e.Sized) (hx : e.ExpandsPacked)
    (htrap : e.masks.Trap) (m : Mem) : cbvgaPalFlush e m = none := by
  obtain ⟨rest, hrest⟩ := pixels_cons hx.height
  rw [cbvgaPalFlush, if_neg (not_or.mpr ⟨hx.shadowPtr, hx.dstPtr⟩), ← pixels, hrest]
  exact loop_trap (flushLine_trap h hx htrap m 0)

/-- **The flush stays in both buffers** whatever the two depths are, and the divisions
of its limit are never by zero. It divides by zero exactly if a packed pixel is
expanded with a mask size that is a multiple of 32 other than 0: the check in
`expand_chan` is for 0 only, and the mask is 0 for these as well. -/
theorem flush_stays_iff (e : Emul) (h : e.Sized) (m : Mem) :
    FlushStays e m ↔ ¬(e.ExpandsPacked ∧ e.masks.Trap) := by
  constructor
  · rintro ⟨⟨r, hr, -⟩, -⟩ ⟨hx, htrap⟩
    rw [cbvgaPalFlush_trap h hx htrap m] at hr
    cases hr
  · intro hno
    by_cases hptr : e.shadowPtr = 0 ∨ e.dstPtr = 0
    · refine ⟨?_, fun hs hd => absurd hptr (not_or.mpr ⟨hs, hd⟩)⟩
      rw [cbvgaPalFlush, if_pos hptr]
      exact Runs.pure trivial
    · obtain ⟨hs, hd⟩ := not_or.mp hptr
      -- without a line nothing is expanded, and `Expandable` is not needed
      have hline : 0 < e.height → ∀ y m, Runs (InLine e y) (flushLine e y) m fun _ _ => True := by
        intro hheight y m'
        apply flushLine_within h
        intro m sline x hlt
        rw [← Option.ne_none_iff_exists', Ne, sourceColour_eq_none_iff]
        rintro ⟨hbpp, htrap⟩
        obtain ⟨hw, hsp, hdp⟩ := (limit_pos_iff hbpp).mp (by omega)
        exact hno ⟨⟨hs, hd, hheight, hw, hbpp, hsp, hdp⟩, htrap⟩
      constructor
      · rw [cbvgaPalFlush, if_neg hptr]
        apply Runs.loop_within
        intro y hy m'
        have hlt := mem_pixels hy
        refine (hline (by omega) y m').imp (fun acc hacc => ⟨y, hlt, hacc⟩) fun _ _ h => h
      · intro _ _ y hy
        refine (Runs.loop_within fun y' hy' m' => ?_).imp (fun _ h => h) fun _ m' _ =>
          hline (by omega) y m'
        exact (hline (by omega) y' m').imp (fun _ _ => trivial) fun _ _ h => h

/-- Two packed pixels of 24 bits, and a framebuffer of 32 bits. -/
def packedEmul (masks : Masks) : Emul :=
  { blankMachine.emul with
    shadowPtr := 0x1000, dstPtr := 0x2000, srcPitch := 6, dstPitch := 8, width := 2, height := 1
    srcBpp := 24, dstBpp := 32, masks := masks }

theorem sized_packedEmul (masks : Masks) : (packedEmul masks).Sized := by
  constructor <;> simp [packedEmul, intMax]

/-- With channels of 8 bits. -/
theorem flush_stays_bytes : FlushStays (packedEmul ⟨8, 8, 8, 16, 8, 0⟩) fun _ => 0 :=
  (flush_stays_iff _ (sized_packedEmul _) _).mpr fun h => absurd h.2 (by decide)

/-- With a red mask of 32 bits the first pixel divides by zero. -/
theorem flush_divides_by_zero :
    (packedEmul ⟨32, 8, 8, 0, 8, 0⟩).Sized ∧
      cbvgaPalFlush (packedEmul ⟨32, 8, 8, 0, 8, 0⟩) (fun _ => 0) = none :=
  ⟨sized_packedEmul _, rfl⟩

end CsmWrap.Vga
