import CsmWrap.Vga.Vbe
import Mathlib.Data.Vector.Basic

/-!
# The palette emulator

`cbvga_palette_emulator.c` with its callers in `cbvga.c` and `vbe.c`: the DAC, the
table of colours built from it, and the geometry that a mode set leaves in the
emulator. A mode set reads the mode from segment 0, and the last mode information from the
data segment, whereas both variables are in the segment of the ROM. So what it reads is an
argument here; `RealMode` has the memory that it is read from.
-/

namespace CsmWrap.Vga
open Coreboot Memory

/-- Three components of the DAC. -/
structure Rgb where
  r : UInt8
  g : UInt8
  b : UInt8
  deriving DecidableEq, Repr

/-- The variables of `cbvga_palette_emulator.c`. -/
structure Emul where
  palette : Vector Rgb 256
  argb : Vector UInt32 256
  vga256 : Vector Rgb 256
  shadowPtr : UInt32
  dstPtr : UInt32
  srcPitch : Int
  dstPitch : Int
  width : Int
  height : Int
  srcBpp : Int
  dstBpp : Int
  masks : Masks

def defaultVgaPalette : Vector Rgb 16 :=
  #v[⟨0, 0, 0⟩, ⟨0, 0, 42⟩, ⟨0, 42, 0⟩, ⟨0, 42, 42⟩, ⟨42, 0, 0⟩, ⟨42, 0, 42⟩, ⟨42, 21, 0⟩,
    ⟨42, 42, 42⟩, ⟨21, 21, 21⟩, ⟨21, 21, 63⟩, ⟨21, 63, 21⟩, ⟨21, 63, 63⟩, ⟨63, 21, 21⟩,
    ⟨63, 21, 63⟩, ⟨63, 63, 21⟩, ⟨63, 63, 63⟩]

/-- The table that `init_vga256_palette` fills: the sixteen colours, a cube of six
shades each, and a ramp of greys. -/
def initVga256Palette : Vector Rgb 256 := Vector.ofFn fun i =>
  if h : i.val < 16 then defaultVgaPalette[i.val]
  else if i.val < 232 then
    let k := i.val - 16
    ⟨UInt8.ofNat (k / 36 * 63 / 5), UInt8.ofNat (k / 6 % 6 * 63 / 5), UInt8.ofNat (k % 6 * 63 / 5)⟩
  else
    let val := UInt8.ofNat ((i.val - 232) * 63 / 23)
    ⟨val, val, val⟩

/-- The colour that `rebuild_argb_table` computes for an entry of the DAC. -/
def packDac (c : Rgb) : UInt32 :=
  (0xff000000 : UInt32) ||| (c.b <<< 2).toUInt32 <<< (16 : UInt32) |||
    (c.g <<< 2).toUInt32 <<< (8 : UInt32) ||| (c.r <<< 2).toUInt32

def rebuildArgbTable (e : Emul) : Emul := { e with argb := e.palette.map packDac }

/-- The loops that store entries into the DAC: from `start + i` on, and not beyond
the last index. -/
def storeRgb (entry : Nat → Rgb) (start : Nat) :
    (i count : Nat) → Vector Rgb 256 → Vector Rgb 256
  | _, 0, palette => palette
  | i, count + 1, palette =>
    if h : start + i < 256 then
      storeRgb entry start (i + 1) count (palette.set (start + i) (entry i))
    else palette

/-- The triple at index `i` of a buffer of bytes. -/
def rgbAt (data : Nat → UInt8) (i : Nat) : Rgb := ⟨data (i * 3), data (i * 3 + 1), data (i * 3 + 2)⟩

def cbvgaEmulSetPalette (e : Emul) (start : Nat) (count : Int) (data : Nat → UInt8) : Emul :=
  rebuildArgbTable { e with palette := storeRgb (rgbAt data) start 0 count.toNat e.palette }

/-- Without entries (`NULL`) the sixteen default ones are loaded, whatever `count` is. -/
def cbvgaPaletteSetEntries (e : Emul) (entries : Option (Nat → UInt8)) (count : Int) : Emul :=
  match entries with
  | none => rebuildArgbTable
      { e with
        palette := storeRgb (fun i => defaultVgaPalette[i]?.getD ⟨0, 0, 0⟩) 0 0 16 e.palette }
  | some src => rebuildArgbTable
      { e with palette := storeRgb (rgbAt src) 0 0 count.toNat e.palette }

def vga16Argb : Vector UInt32 16 :=
  #v[0xff000000, 0xff800000, 0xff008000, 0xff808000, 0xff000080, 0xff800080, 0xff008080,
    0xffc0c0c0, 0xff808080, 0xffff0000, 0xff00ff00, 0xffffff00, 0xff0000ff, 0xffff00ff, 0xff00ffff,
    0xffffffff]

/-- The colours go into the table that is looked up, not into the DAC. -/
def cbvgaInitTextPalette (e : Emul) : Emul :=
  { e with argb := Vector.ofFn fun i => if h : i.val < 16 then vga16Argb[i.val] else e.argb[i] }

theorem getElem_storeRgb (entry : Nat → Rgb) (start i count : Nat) (palette : Vector Rgb 256)
    {j : Nat} (hj : j < 256) :
    (storeRgb entry start i count palette)[j] =
      if start + i ≤ j ∧ j < start + i + count then entry (j - start) else palette[j] := by
  induction count generalizing i palette with
  | zero => rw [storeRgb, if_neg (by omega)]
  | succ count ih =>
    rw [storeRgb]
    split
    · next h =>
      rw [ih]
      by_cases hij : j = start + i
      · subst hij
        rw [if_neg (by omega), if_pos (by omega), Vector.getElem_set_self h,
          Nat.add_sub_cancel_left]
      · rw [Vector.getElem_set_ne h hj (Ne.symm hij)]
        congr 1
        simp only [eq_iff_iff]
        omega
    · rw [if_neg (by omega)]

def mfGraysum : UInt32 := 0x0002
def mfNoclearmem : UInt32 := 0x8000

def cbvgaEmulSetMasks (e : Emul) (masks : Masks) : Emul := { e with masks := masks }

/-- The depths that the emulator writes, or 32. -/
def clampBpp (bpp : UInt8) : Int :=
  if bpp = 4 ∨ bpp = 8 ∨ bpp = 16 ∨ bpp = 24 ∨ bpp = 32 then bpp.toNat else 32

/-- A row of 4-bit pixels, rounded up to four bytes. -/
def packedPitch (width : Int) : Int := ((width + 1) / 2 + 3) / 4 * 4

/-- The greys that `cbvga_emul_set_mode` loads on request. -/
def initGrayscale (e : Emul) (flags : UInt32) : Emul :=
  if flags &&& mfGraysum ≠ 0 then
    let dacval (i : Fin 256) : UInt8 := UInt8.ofNat (i.val / 4)
    rebuildArgbTable { e with palette := Vector.ofFn fun i => ⟨dacval i, dacval i, dacval i⟩ }
  else e

/-- What the emulator reads of a `struct vgamode_s`, with `GET_FARVAR(0, ..)`. -/
structure FarMode where
  width : UInt16
  height : UInt16
  depth : UInt8
  deriving DecidableEq, Repr

/-- What it reads of the `struct vbe_mode_info` that `get_current_vbe_mode_info` points to. -/
structure NearInfo where
  bytesPerScanline : UInt16
  bitsPerPixel : UInt8
  masks : Masks
  linearBytesPerScanline : UInt16
  deriving DecidableEq, Repr

/-- Linear pitch if available. -/
def NearInfo.pitch (info : NearInfo) : Int :=
  if info.linearBytesPerScanline ≠ 0 then info.linearBytesPerScanline.toNat
  else info.bytesPerScanline.toNat

/-- `vmode` is what segment 0 holds at the offset of the mode, and `info` what the data
segment holds at that of the mode information. -/
def cbvgaEmulSetMode (e : Emul) (info : NearInfo) (vmode : FarMode) (flags : UInt32) : Emul :=
  let e : Emul := { e with
    shadowPtr := 0
    width := vmode.width.toNat
    height := vmode.height.toNat
    srcBpp := vmode.depth.toNat
    srcPitch := 0 }
  let e : Emul := initGrayscale e flags
  let e : Emul := { e with dstBpp := clampBpp info.bitsPerPixel }
  let e : Emul := cbvgaEmulSetMasks e info.masks
  let e : Emul := { e with dstPitch := info.pitch }
  let e : Emul := { e with srcPitch := if e.srcBpp = 4 then packedPitch e.width else e.dstPitch }
  { e with vga256 := if e.dstBpp = 8 then initVga256Palette else e.vga256 }

/-- An unsigned value stored into an `int`. -/
def asInt (n : UInt32) : Int := n.toInt32.toInt

def cbvgaEmulSetupModes (e : Emul) (addr : UInt64) (bpp : UInt8)
    (xlines ylines linelength : UInt32) : Emul :=
  { e with
    dstPtr := addr.toUInt32, width := asInt xlines, height := asInt ylines, srcBpp := bpp.toNat
    dstBpp := 24, dstPitch := asInt linelength }

/-- `cbvga_set_mode` without the clearing of the screen and the flag in the BDA. The mode
that it passes on is `CBmodeinfo`, and `low` what segment 0 holds at the offset of that. -/
def cbvgaSetMode (st : State) (e : Emul) (info : NearInfo) (low : FarMode) (vmode : VgaMode)
    (flags : UInt32) : Emul :=
  if flags &&& mfNoclearmem = 0 ∧ st.cbModeinfo.memmodel = .text then
    cbvgaEmulSetMode e info low flags
  else
    let e := cbvgaEmulSetupModes e st.vbeFramebuffer.toUInt64 vmode.depth vmode.width.toUInt32
      vmode.height.toUInt32 st.cbLinelength
    cbvgaEmulSetMode e info low flags

/-- What `cbvga_setup` does to the emulator once it has found a record. -/
def emulSetupFramebuffer (e : Emul) (fb : CbFramebuffer) : Emul :=
  let e := cbvgaEmulSetMasks e (saneMasks fb)
  if validFramebuffer fb then
    cbvgaInitTextPalette (cbvgaEmulSetupModes e fb.physicalAddress (effBpp fb) fb.xResolution
      fb.yResolution fb.bytesPerLine)
  else e

/-- The globals of `cbvga.c`, the emulator, and what a mode set reads: `low` in segment 0 at
the offset of `CBmodeinfo`, and `info` in the data segment at that of
`g_last_vbe_mode_info`. -/
structure Machine where
  cb : State
  emul : Emul
  low : FarMode
  info : NearInfo

def Machine.setupFramebuffer (m : Machine) (fb : CbFramebuffer) : Option Machine :=
  (Vga.setupFramebuffer m.cb fb).map fun cb =>
    { m with cb := cb, emul := emulSetupFramebuffer m.emul fb }

/-- `VBE_RETURN_STATUS_FAILED`. -/
def vbeReturnStatusFailed : UInt8 := 0x01

/-- `vga_set_mode` without what it stores into the BDA and the interrupt table. -/
def vgaSetMode (m : Machine) (mode : UInt16) (flags : UInt32) : UInt8 × Machine :=
  match cbvgaFindMode m.cb mode.toNat with
  | none => (vbeReturnStatusFailed, m)
  | some vmode => (0, { m with emul := cbvgaSetMode m.cb m.emul m.info m.low vmode flags })

/-- The geometry and the masks of the emulator. -/
structure Config where
  width : Int
  height : Int
  srcBpp : Int
  srcPitch : Int
  dstBpp : Int
  dstPitch : Int
  masks : Masks
  deriving DecidableEq, Repr

def Emul.config (e : Emul) : Config :=
  ⟨e.width, e.height, e.srcBpp, e.srcPitch, e.dstBpp, e.dstPitch, e.masks⟩

/-- The configuration from what is read. -/
def modeConfig (info : NearInfo) (vmode : FarMode) : Config where
  width := vmode.width.toNat
  height := vmode.height.toNat
  srcBpp := vmode.depth.toNat
  srcPitch := if (vmode.depth.toNat : Int) = 4 then packedPitch vmode.width.toNat else info.pitch
  dstBpp := clampBpp info.bitsPerPixel
  dstPitch := info.pitch
  masks := info.masks

theorem initGrayscale_fields (e : Emul) (flags : UInt32) :
    (initGrayscale e flags).width = e.width ∧ (initGrayscale e flags).height = e.height ∧
      (initGrayscale e flags).srcBpp = e.srcBpp := by
  unfold initGrayscale
  split <;> simp only [rebuildArgbTable, and_self]

theorem config_cbvgaEmulSetMode (e : Emul) (info : NearInfo) (vmode : FarMode)
    (flags : UInt32) : (cbvgaEmulSetMode e info vmode flags).config = modeConfig info vmode := by
  unfold cbvgaEmulSetMode
  obtain ⟨hw, hh, hb⟩ := initGrayscale_fields { e with
    shadowPtr := 0, width := vmode.width.toNat, height := vmode.height.toNat,
    srcBpp := vmode.depth.toNat, srcPitch := 0 } flags
  simp only [Emul.config, modeConfig, cbvgaEmulSetMasks, hw, hh, hb]

/-- The mode that is set does not matter: on every path the emulator is configured from what
is read. -/
theorem config_cbvgaSetMode (st : State) (e : Emul) (info : NearInfo) (low : FarMode)
    (vmode : VgaMode) (flags : UInt32) :
    (cbvgaSetMode st e info low vmode flags).config = modeConfig info low := by
  unfold cbvgaSetMode
  split <;> exact config_cbvgaEmulSetMode ..

/-- The text mode of an accepted framebuffer is its native mode. -/
theorem emulinfo_setup {fb : CbFramebuffer} {st st₀ : State} (hv : validFramebuffer fb = true)
    (hsize : 25 ≤ st₀.svgaModes.length) (hsetup : setupFramebuffer st₀ fb = some st) :
    st.cbEmulinfo = st.cbModeinfo := by
  unfold setupFramebuffer at hsetup
  rw [if_neg fun h => xResolution_ne_zero hv h.2] at hsetup
  dsimp only at hsetup
  rw [if_pos hv, cbvgaSetupModes] at hsetup
  dsimp only at hsetup
  generalize hbase : State.mk _ _ _ _ _ _ _ _ _ _ = base at hsetup
  have h := registered_emulated base (by rw [← hbase]) (by rw [← hbase]; exact hsize)
    fb.physicalAddress fb.xResolution fb.yResolution fb.bytesPerLine
  rw [Option.some.inj hsetup] at h
  have hemul := congrArg State.cbEmulinfo h.rest
  have hmode := congrArg State.cbModeinfo h.rest
  dsimp only at hemul hmode
  rw [hemul, hmode, ← hbase]

/-- The video BIOS as it is loaded. -/
def blankMachine : Machine where
  cb := blankState
  emul :=
    { palette := Vector.replicate 256 ⟨0, 0, 0⟩
      argb := Vector.replicate 256 0
      vga256 := Vector.replicate 256 ⟨0, 0, 0⟩
      shadowPtr := 0
      dstPtr := 0
      srcPitch := 0
      dstPitch := 0
      width := 0
      height := 0
      srcBpp := 0
      dstBpp := 0
      masks := ⟨0, 0, 0, 0, 0, 0⟩ }
  low := ⟨0, 0, 0⟩
  info := ⟨0, 0, ⟨0, 0, 0, 0, 0, 0⟩, 0⟩

end CsmWrap.Vga
