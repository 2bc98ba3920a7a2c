import CsmWrap.Vga.Cbvga

/-!
# The modes a guest is told about

`vbe_104f01` answers a guest's query about a mode. The modes it can be asked
about are those that `cbvga_list_modes` lists, and the resolutions among them are
fixed. Here is for which framebuffers all of them fit.
-/

namespace CsmWrap.Vga
open Coreboot

/-- Sizes and positions of the colour fields of a pixel. -/
structure PixelFields where
  rSize : UInt8
  rPos : UInt8
  gSize : UInt8
  gPos : UInt8
  bSize : UInt8
  bPos : UInt8
  aSize : UInt8
  aPos : UInt8
  deriving DecidableEq, Repr

def PixelFields.none : PixelFields := ⟨0, 0, 0, 0, 0, 0, 0, 0⟩

/-- `struct vbe_mode_info` without the pointer to the window function and the
fields that stay zero. -/
structure VbeModeInfo where
  modeAttributes : UInt16
  winAAttributes : UInt8
  winBAttributes : UInt8
  winGranularity : UInt16
  winSize : UInt16
  winASeg : UInt16
  winBSeg : UInt16
  bytesPerScanline : UInt16
  xres : UInt16
  yres : UInt16
  xcharsize : UInt8
  ycharsize : UInt8
  planes : UInt8
  bitsPerPixel : UInt8
  banks : UInt8
  memModel : MemModel
  bankSize : UInt8
  pages : UInt8
  reserved0 : UInt8
  pixel : PixelFields
  directcolorInfo : UInt8
  physBase : UInt32
  linearBytesPerScanline : UInt16
  linearPages : UInt8
  linearPixel : PixelFields
  deriving DecidableEq, Repr

def mfVbeflags : UInt16 := 0xfe00
def segMtext : UInt16 := 0xb000

def attributeSupported : UInt16 := 0x0001
def attributeExtendedInformationAvailable : UInt16 := 0x0002
def attributeTtyBiosSupport : UInt16 := 0x0004
def attributeColorMode : UInt16 := 0x0008
def attributeGraphicsMode : UInt16 := 0x0010
def attributeNotVgaCompatible : UInt16 := 0x0020
def attributeLinearFrameBufferMode : UInt16 := 0x0080

def pixelFields (depth : UInt8) : PixelFields :=
  if depth = 15 then ⟨5, 10, 5, 5, 5, 0, 1, 15⟩
  else if depth = 16 then ⟨5, 11, 6, 5, 5, 0, 0, 0⟩
  else if depth = 24 then ⟨8, 16, 8, 8, 8, 0, 0, 0⟩
  else if depth = 32 then ⟨8, 16, 8, 8, 8, 0, 8, 24⟩
  else .none

/-- `ALIGN(size, 64*1024)`. -/
def align64k (size : UInt32) : UInt32 := (size + 0xffff) &&& ~~~0xffff

/-- Whether the `switch` over the memory model takes its default branch. -/
def linearModel : MemModel → Bool
  | .text | .cga | .planar => false
  | _ => true

def modeAttributes (vmode : VgaMode) (framebuffer : UInt32) : UInt16 :=
  let attr := attributeSupported ||| attributeExtendedInformationAvailable |||
    attributeColorMode ||| attributeGraphicsMode ||| attributeNotVgaCompatible
  match vmode.memmodel with
  | .text =>
    let attr := attr &&& ~~~attributeGraphicsMode ||| attributeTtyBiosSupport
    if vmode.sstart = segMtext then attr &&& ~~~attributeColorMode else attr
  | _ => if framebuffer ≠ 0 then attr ||| attributeLinearFrameBufferMode else attr

def pageCount (memmodel : MemModel) (pages : UInt32) : UInt32 :=
  let pages := match memmodel with
    | .text | .cga => 1
    | .planar => pages / 4
    | _ => pages
  let pages := if pages > 128 then 128 else pages
  if pages < 2 then pages + 1 else pages

/-- The answer before the override for 4 bits per pixel. -/
def describeMode (st : State) (vmode : VgaMode) (pages : UInt32) : VbeModeInfo :=
  let linesize := st.cbLinelength
  let framebuffer := if linearModel vmode.memmodel then st.vbeFramebuffer else 0
  { modeAttributes := modeAttributes vmode framebuffer
    winAAttributes := (if st.vbeWinGranularity ≠ 0 then 0x01 else 0) ||| 0x02 ||| 0x04
    winBAttributes := 0
    winGranularity := st.vbeWinGranularity
    winSize := 64
    winASeg := vmode.sstart
    winBSeg := 0
    bytesPerScanline := linesize.toUInt16
    xres := vmode.width
    yres := vmode.height
    xcharsize := vmode.cwidth
    ycharsize := vmode.cheight
    planes := if vmode.memmodel = .planar then 4 else 1
    bitsPerPixel := vmode.depth
    banks := if vmode.memmodel = .cga then 2 else 1
    memModel := vmode.memmodel
    bankSize := if vmode.memmodel = .cga then 8 else 0
    pages := (pageCount vmode.memmodel pages - 1).toUInt8
    reserved0 := 1
    pixel := pixelFields vmode.depth
    directcolorInfo := if vmode.depth = 32 then 0x02 else 0
    physBase := framebuffer
    linearBytesPerScanline := if framebuffer ≠ 0 then linesize.toUInt16 else 0
    linearPages := 0
    linearPixel := if framebuffer ≠ 0 then pixelFields vmode.depth else .none }

/-- Indexed modes of 4 bits have no linear framebuffer, and a pitch of their own. -/
def override4bpp (vmode : VgaMode) (info : VbeModeInfo) : VbeModeInfo :=
  if vmode.depth = 4 ∧ vmode.memmodel = .packed then
    { info with
      bytesPerScanline := UInt16.ofNat (((vmode.width.toNat + 1) / 2 + 3) / 4 * 4)
      physBase := 0
      linearBytesPerScanline := 0
      linearPages := 0
      planes := 1
      memModel := .packed
      modeAttributes := attributeSupported ||| attributeColorMode ||| attributeGraphicsMode
      pixel := .none
      banks := 1
      pages := 0 }
  else info

theorem override4bpp_other {vmode : VgaMode}
    (h : ¬ (vmode.depth = 4 ∧ vmode.memmodel = .packed)) (info : VbeModeInfo) :
    override4bpp vmode info = info := if_neg h

theorem override4bpp_physBase {vmode : VgaMode}
    (h : vmode.depth = 4 ∧ vmode.memmodel = .packed) (info : VbeModeInfo) :
    (override4bpp vmode info).physBase = 0 := by
  unfold override4bpp
  rw [if_pos h]

inductive ModeQuery where
  /-- AX = 0x014f. -/
  | notFound
  /-- The division by the size of a page of the mode. -/
  | divideError
  | info (info : VbeModeInfo)
  deriving DecidableEq, Repr

def vbe104f01 (st : State) (mode : UInt16) : ModeQuery :=
  match cbvgaFindMode st (mode &&& ~~~mfVbeflags).toNat with
  | none => .notFound
  | some vmode =>
    let pageSize := align64k (vmode.height.toUInt32 * st.cbLinelength)
    if pageSize = 0 then .divideError
    else .info (override4bpp vmode (describeMode st vmode (st.vbeTotalMemory / pageSize)))

/-- Bytes that a row of `w` pixels takes. -/
def rowBytes (w : UInt16) (d : UInt8) : Nat := (w.toNat * d.toNat + 7) / 8

def VgaMode.Fits (vmode : VgaMode) (st : State) (fb : CbFramebuffer) : Prop :=
  vmode.width.toNat ≤ fb.xResolution.toNat ∧ vmode.height.toNat ≤ fb.yResolution.toNat ∧
    rowBytes vmode.width vmode.depth ≤ st.cbLinelength.toNat

/-- The linear framebuffer of an answer lies within video memory. -/
def VbeModeInfo.Inside (info : VbeModeInfo) (st : State) : Prop :=
  info.physBase = st.vbeFramebuffer ∧
    (info.yres.toNat - 1) * info.linearBytesPerScanline.toNat +
      rowBytes info.xres info.bitsPerPixel ≤ st.vbeTotalMemory.toNat

instance (vmode : VgaMode) (st : State) (fb : CbFramebuffer) : Decidable (vmode.Fits st fb) :=
  inferInstanceAs (Decidable (_ ∧ _))

instance (info : VbeModeInfo) (st : State) : Decidable (info.Inside st) :=
  inferInstanceAs (Decidable (_ ∧ _))

/-- Every mode that is listed fits, and so does the linear framebuffer that is
reported for it. -/
def AdvertisedFit (st : State) (fb : CbFramebuffer) : Prop :=
  ∀ m ∈ cbvgaListModes st vbeListRoom, m ≠ 0xffff →
    ∃ vmode, cbvgaFindMode st m.toNat = some vmode ∧ vmode.Fits st fb ∧
      ∀ info, vbe104f01 st m = .info info → info.physBase ≠ 0 → info.Inside st

/-- The linear framebuffer of a mode ends within video memory, at the 16-bit
pitch that is reported and with the 32-bit size of video memory, or the query
fails. -/
def LfbFits (fb : CbFramebuffer) (w h : UInt16) (d : UInt8) : Prop :=
  align64k (h.toUInt32 * fb.bytesPerLine) = 0 ∨
    (h.toNat - 1) * (fb.bytesPerLine.toNat % 65536) + rowBytes w d ≤
      (fb.bytesPerLine * fb.yResolution).toNat

/-- The framebuffers that all modes fit. -/
structure FitsAll (fb : CbFramebuffer) : Prop where
  width : 1280 ≤ fb.xResolution.toNat
  height : 1024 ≤ fb.yResolution.toNat
  pitch : 5120 ≤ fb.bytesPerLine.toNat
  nativePitch : 3 * fb.xResolution.toNat ≤ fb.bytesPerLine.toNat
  lfb480 : LfbFits fb 640 480 32
  lfb600 : LfbFits fb 800 600 32
  lfb768 : LfbFits fb 1024 768 32
  lfb1024 : LfbFits fb 1280 1024 32
  lfbNative : LfbFits fb fb.xResolution.toUInt16 fb.yResolution.toUInt16
    (if effBpp fb = 32 then 32 else 24)

def Geometry.Fits (g : Geometry) (fb : CbFramebuffer) : Prop :=
  g.width.toNat ≤ fb.xResolution.toNat ∧ g.height.toNat ≤ fb.yResolution.toNat ∧
    rowBytes g.width g.depth ≤ fb.bytesPerLine.toNat ∧
    (¬ (g.depth = 4 ∧ g.memmodel = .packed) → LfbFits fb g.width g.height g.depth)

/-- The geometries behind the listed numbers: those registered, with the native
depth for the last. -/
def advertised (fb : CbFramebuffer) : List Geometry :=
  (registered fb.xResolution.toUInt16 fb.yResolution.toUInt16).dropLast ++
    [⟨0x143, fb.xResolution.toUInt16, fb.yResolution.toUInt16, effBpp fb, .direct⟩]

theorem advertised_modes (fb : CbFramebuffer) :
    (advertised fb).map Geometry.mode =
      (registered fb.xResolution.toUInt16 fb.yResolution.toUInt16).map Geometry.mode := rfl

theorem advertised_linear (fb : CbFramebuffer) {g : Geometry} (hg : g ∈ advertised fb) :
    linearModel g.memmodel = true := by
  have h : (advertised fb).map (fun g => linearModel g.memmodel) = List.replicate 25 true := rfl
  have hmem := List.mem_map_of_mem (f := fun g => linearModel g.memmodel) hg
  rw [h] at hmem
  exact List.eq_of_mem_replicate hmem

section
variable {fb : CbFramebuffer} {st : State}

theorem Installed.find (hi : Installed fb st) {g : Geometry} (hg : g ∈ advertised fb) :
    ∃ vmode, cbvgaFindMode st g.mode.toNat = some vmode ∧
      SvgaMode.geometry ⟨g.mode, vmode⟩ = g := by
  cases List.mem_append.mp hg with
  | inl hg =>
    apply hi.find_registered (List.dropLast_subset _ hg)
    intro h
    have hmem := List.mem_map_of_mem (f := Geometry.mode) hg
    have hmodes : ((registered fb.xResolution.toUInt16 fb.yResolution.toUInt16).dropLast).map
        Geometry.mode = ((registered 0 0).dropLast).map Geometry.mode := rfl
    rw [h, hmodes] at hmem
    revert hmem
    decide
  | inr hg =>
    rw [List.mem_singleton.mp hg]
    exact hi.find_native

theorem vbe104f01_eq (hi : Installed fb st) {m : UInt16} {vmode : VgaMode}
    (hmask : m &&& ~~~mfVbeflags = m) (hfind : cbvgaFindMode st m.toNat = some vmode) :
    vbe104f01 st m =
      if align64k (vmode.height.toUInt32 * fb.bytesPerLine) = 0 then .divideError
      else .info (override4bpp vmode (describeMode st vmode
        (st.vbeTotalMemory / align64k (vmode.height.toUInt32 * fb.bytesPerLine)))) := by
  unfold vbe104f01
  rw [hmask, hfind, ← hi.linelength]

/-- The linear framebuffer of a mode that is not 4-bit indexed: the mode's own
geometry at the framebuffer's pitch. -/
theorem inside_iff (hi : Installed fb st) (haddr : fb.physicalAddress.toUInt32 ≠ 0)
    {vmode : VgaMode} (hlin : linearModel vmode.memmodel = true) (pages : UInt32) :
    (describeMode st vmode pages).physBase ≠ 0 ∧
    ((describeMode st vmode pages).Inside st ↔
      (vmode.height.toNat - 1) * (fb.bytesPerLine.toNat % 65536) +
        rowBytes vmode.width vmode.depth ≤ (fb.bytesPerLine * fb.yResolution).toNat) := by
  have hfb : st.vbeFramebuffer ≠ 0 := hi.framebuffer ▸ haddr
  simp only [describeMode, VbeModeInfo.Inside, hlin, if_true, ne_eq, hfb, not_false_eq_true,
    hi.linelength, hi.totalMemory, UInt32.toNat_toUInt16, true_and]

/-- A mode fits and is reported within video memory just when its geometry fits
the framebuffer. -/
theorem fits_iff (hi : Installed fb st) (haddr : fb.physicalAddress.toUInt32 ≠ 0) {m : UInt16}
    {vmode : VgaMode} (hfind : cbvgaFindMode st m.toNat = some vmode)
    (hmask : m &&& ~~~mfVbeflags = m) (hlin : linearModel vmode.memmodel = true) :
    (vmode.Fits st fb ∧
      ∀ info, vbe104f01 st m = .info info → info.physBase ≠ 0 → info.Inside st) ↔
    (SvgaMode.geometry ⟨m, vmode⟩).Fits fb := by
  have hquery := vbe104f01_eq hi hmask hfind
  have hinside := inside_iff hi haddr hlin
    (st.vbeTotalMemory / align64k (vmode.height.toUInt32 * fb.bytesPerLine))
  rw [hquery, VgaMode.Fits, hi.linelength]
  constructor
  · rintro ⟨⟨hw, hh, hr⟩, hinfo⟩
    refine ⟨hw, hh, hr, fun h4 => ?_⟩
    by_cases hz : align64k (vmode.height.toUInt32 * fb.bytesPerLine) = 0
    · exact .inl hz
    · have h := hinfo _ (if_neg hz)
      rw [override4bpp_other h4] at h
      exact .inr (hinside.2.mp (h hinside.1))
  · rintro ⟨hw, hh, hr, hlfb⟩
    refine ⟨⟨hw, hh, hr⟩, fun info hinfo hphys => ?_⟩
    by_cases hz : align64k (vmode.height.toUInt32 * fb.bytesPerLine) = 0
    · rw [if_pos hz] at hinfo
      cases hinfo
    · rw [if_neg hz] at hinfo
      cases hinfo
      by_cases h4 : vmode.depth = 4 ∧ vmode.memmodel = .packed
      · exact absurd (override4bpp_physBase h4 _) hphys
      · rw [override4bpp_other h4]
        exact hinside.2.mpr ((hlfb h4).resolve_left hz)

theorem advertisedFit_iff (hi : Installed fb st) (haddr : fb.physicalAddress.toUInt32 ≠ 0) :
    AdvertisedFit st fb ↔ ∀ g ∈ advertised fb, g.Fits fb := by
  have hmodes : ∀ m ∈ (advertised fb).map Geometry.mode, m ≠ 0xffff ∧ m &&& ~~~mfVbeflags = m := by
    rw [advertised_modes, registered_modes, ← List.all_iff_forall_prop]
    decide
  have key : ∀ g ∈ advertised fb, (∃ vmode, cbvgaFindMode st g.mode.toNat = some vmode ∧
      vmode.Fits st fb ∧
      ∀ info, vbe104f01 st g.mode = .info info → info.physBase ≠ 0 → info.Inside st) ↔
      g.Fits fb := by
    intro g hg
    obtain ⟨vmode, hfind, hgeo⟩ := hi.find hg
    have hlin : linearModel vmode.memmodel = true := by
      have h := advertised_linear fb hg
      rw [← hgeo] at h
      exact h
    have hiff := fits_iff hi haddr hfind (hmodes _ (List.mem_map_of_mem hg)).2 hlin
    rw [hgeo] at hiff
    rw [← hiff]
    constructor
    · rintro ⟨vmode', hfind', h⟩
      rw [hfind] at hfind'
      cases hfind'
      exact h
    · exact fun h => ⟨vmode, hfind, h⟩
  unfold AdvertisedFit
  rw [hi.listed, ← advertised_modes]
  constructor
  · intro h g hg
    have hmem := List.mem_map_of_mem (f := Geometry.mode) hg
    exact (key g hg).mp (h _ (List.mem_append_left _ hmem) (hmodes _ hmem).1)
  · intro h m hm hend
    cases List.mem_append.mp hm with
    | inl hm =>
      obtain ⟨g, hg, rfl⟩ := List.mem_map.mp hm
      exact (key g hg).mpr (h g hg)
    | inr hm => exact absurd (List.mem_singleton.mp hm) hend

end

section
variable {fb : CbFramebuffer}

theorem rowBytes_mono (w : UInt16) {d d' : UInt8} (h : d ≤ d') : rowBytes w d ≤ rowBytes w d' := by
  have hd : w.toNat * d.toNat ≤ w.toNat * d'.toNat :=
    Nat.mul_le_mul_left _ (UInt8.le_iff_toNat_le.mp h)
  exact Nat.div_le_div_right (Nat.add_le_add_right hd 7)

theorem LfbFits.mono {w h : UInt16} {d d' : UInt8} (hd : d ≤ d') (hl : LfbFits fb w h d') :
    LfbFits fb w h d := by
  have hrow := rowBytes_mono w hd
  cases hl with
  | inl hz => exact .inl hz
  | inr hl => exact .inr (by omega)

/-- A mode fits when one of the same resolution and at least its depth does. -/
theorem fits_of_deeper {g : Geometry} {w h : UInt16} {d : UInt8} (hw : g.width = w)
    (hh : g.height = h) (hd : g.depth ≤ d) (hx : w.toNat ≤ fb.xResolution.toNat)
    (hy : h.toNat ≤ fb.yResolution.toNat) (hrow : rowBytes w d ≤ fb.bytesPerLine.toNat)
    (hlfb : LfbFits fb w h d) : g.Fits fb := by
  subst hw hh
  exact ⟨hx, hy, (rowBytes_mono _ hd).trans hrow, fun _ => hlfb.mono hd⟩

theorem mem_depths {b w h : UInt16} {g : Geometry} (hg : g ∈ depths b w h) :
    g.width = w ∧ g.height = h ∧ g.depth ≤ 32 := by
  simp only [depths, List.mem_cons, List.not_mem_nil, or_false] at hg
  rcases hg with rfl | rfl | rfl | rfl | rfl <;> exact ⟨rfl, rfl, by dsimp only; decide⟩

/-- With a pitch that fits its field, rows that fit the pitch and lines that fit
the height are within video memory. -/
theorem lfbFits_of_pitch {w h : UInt16} {d : UInt8} (hs : fb.bytesPerLine.toNat < 65536)
    (hy : fb.yResolution.toNat < 65536) (hpos : 0 < h.toNat)
    (hh : h.toNat ≤ fb.yResolution.toNat) (hrow : rowBytes w d ≤ fb.bytesPerLine.toNat) :
    LfbFits fb w h d := by
  have hmul : fb.bytesPerLine.toNat * fb.yResolution.toNat ≤ 65535 * 65535 :=
    Nat.mul_le_mul (by omega) (by omega)
  right
  rw [Nat.mod_eq_of_lt hs, UInt32.toNat_mul, Nat.mod_eq_of_lt (by omega)]
  calc (h.toNat - 1) * fb.bytesPerLine.toNat + rowBytes w d
      ≤ (h.toNat - 1) * fb.bytesPerLine.toNat + fb.bytesPerLine.toNat := by omega
    _ = h.toNat * fb.bytesPerLine.toNat := by
        rw [← Nat.succ_mul, Nat.succ_eq_add_one, Nat.sub_add_cancel hpos]
    _ ≤ fb.yResolution.toNat * fb.bytesPerLine.toNat := Nat.mul_le_mul_right _ hh
    _ = fb.bytesPerLine.toNat * fb.yResolution.toNat := Nat.mul_comm _ _

/-- What the checks of `cbvga_setup` ensure. -/
theorem valid_facts (hv : validFramebuffer fb = true) :
    fb.physicalAddress.toUInt32 ≠ 0 ∧
    (effBpp fb = 16 ∨ effBpp fb = 24 ∨ effBpp fb = 32) ∧
    fb.xResolution ≠ 0 ∧ fb.yResolution ≠ 0 ∧
    (minStride (effBpp fb) fb.xResolution).toNat ≤ fb.bytesPerLine.toNat := by
  simp only [validFramebuffer, Bool.not_eq_true', decide_eq_false_iff_not, not_or] at hv
  obtain ⟨haddr, hhigh, -, hx, hy, hbpp, hmin⟩ := hv
  refine ⟨?_, by tauto, hx, hy, ?_⟩
  · intro h
    apply haddr
    have hle : fb.physicalAddress.toNat ≤ 0xffffffff :=
      UInt64.le_iff_toNat_le.mp (UInt64.not_lt.mp hhigh)
    have hz := congrArg UInt32.toNat h
    rw [UInt64.toNat_toUInt32, Nat.mod_eq_of_lt (by omega)] at hz
    exact UInt64.toNat_inj.mp hz
  · by_cases hz : minStride (effBpp fb) fb.xResolution = 0
    · rw [hz]
      exact Nat.zero_le _
    · exact UInt32.le_iff_toNat_le.mp (UInt32.not_lt.mp fun h => hmin ⟨hz, h⟩)

theorem toNat_toUInt16 {n : UInt32} (h : n.toNat < 65536) : n.toUInt16.toNat = n.toNat := by
  rw [UInt32.toNat_toUInt16, Nat.mod_eq_of_lt h]

/-- The native mode has rows that fit: `min_stride` does not wrap. -/
theorem native_row (hv : validFramebuffer fb = true) (hx : fb.xResolution.toNat < 65536) :
    rowBytes fb.xResolution.toUInt16 (effBpp fb) ≤ fb.bytesPerLine.toNat := by
  obtain ⟨-, hbpp, -, -, hmin⟩ := valid_facts hv
  have h16 : minStride 16 fb.xResolution = fb.xResolution * 2 := rfl
  have h24 : minStride 24 fb.xResolution = fb.xResolution * 3 := rfl
  have h32 : minStride 32 fb.xResolution = fb.xResolution * 4 := rfl
  unfold rowBytes
  rw [toNat_toUInt16 hx]
  rcases hbpp with h | h | h
  all_goals
    rw [h] at hmin ⊢
    simp only [h16, h24, h32, UInt8.reduceToNat, UInt32.toNat_mul, UInt32.reduceToNat] at hmin ⊢
    omega

theorem advertised_eq (fb : CbFramebuffer) :
    advertised fb = depths 0x100 640 480 ++ depths 0x110 800 600 ++ depths 0x120 1024 768 ++
      depths 0x130 1280 1024 ++
      [⟨0x13f, fb.xResolution.toUInt16, fb.yResolution.toUInt16, 4, .packed⟩,
        ⟨0x140, fb.xResolution.toUInt16, fb.yResolution.toUInt16, 8, .packed⟩,
        ⟨0x141, fb.xResolution.toUInt16, fb.yResolution.toUInt16, 16, .direct⟩,
        ⟨0x142, fb.xResolution.toUInt16, fb.yResolution.toUInt16, 24, .direct⟩,
        ⟨0x143, fb.xResolution.toUInt16, fb.yResolution.toUInt16, effBpp fb, .direct⟩] := rfl

theorem fitsAll_of_advertised (hx : fb.xResolution.toNat < 65536)
    (h : ∀ g ∈ advertised fb, g.Fits fb) : FitsAll fb := by
  rw [advertised_eq] at h
  have notIndexed : ∀ (m w h : UInt16) (d : UInt8),
      ¬ ((⟨m, w, h, d, .direct⟩ : Geometry).depth = 4 ∧
        (⟨m, w, h, d, .direct⟩ : Geometry).memmodel = .packed) := fun _ _ _ _ e => by cases e.2
  have h480 := h ⟨0x103, 640, 480, 32, .direct⟩ (by simp [depths])
  have h600 := h ⟨0x113, 800, 600, 32, .direct⟩ (by simp [depths])
  have h768 := h ⟨0x123, 1024, 768, 32, .direct⟩ (by simp [depths])
  have h1024 := h ⟨0x133, 1280, 1024, 32, .direct⟩ (by simp [depths])
  have h24 := h ⟨0x142, fb.xResolution.toUInt16, fb.yResolution.toUInt16, 24, .direct⟩ (by simp)
  have hnative := h ⟨0x143, fb.xResolution.toUInt16, fb.yResolution.toUInt16, effBpp fb, .direct⟩
    (by simp)
  refine ⟨h1024.1, h1024.2.1, h1024.2.2.1, ?_, h480.2.2.2 (notIndexed _ _ _ _),
    h600.2.2.2 (notIndexed _ _ _ _), h768.2.2.2 (notIndexed _ _ _ _),
    h1024.2.2.2 (notIndexed _ _ _ _), ?_⟩
  · have hrow := h24.2.2.1
    simp only [rowBytes, toNat_toUInt16 hx, UInt8.reduceToNat] at hrow
    omega
  · split
    · next h32 =>
      have hl := hnative.2.2.2 (notIndexed _ _ _ _)
      rwa [h32] at hl
    · exact h24.2.2.2 (notIndexed _ _ _ _)

/-- The deepest of the modes registered at the resolution of the framebuffer. -/
def deepest (fb : CbFramebuffer) : UInt8 := if effBpp fb = 32 then 32 else 24

theorem le_deepest {d : UInt8} (hd : d ≤ 24) : d ≤ deepest fb := by
  unfold deepest
  split
  · exact UInt8.le_trans hd (by decide)
  · exact hd

theorem effBpp_le_deepest (hv : validFramebuffer fb = true) : effBpp fb ≤ deepest fb := by
  obtain ⟨-, hbpp, -⟩ := valid_facts hv
  unfold deepest
  rcases hbpp with h | h | h <;> rw [h] <;> decide

theorem deepest_row (hv : validFramebuffer fb = true) (hx : fb.xResolution.toNat < 65536)
    (hp : 3 * fb.xResolution.toNat ≤ fb.bytesPerLine.toNat) :
    rowBytes fb.xResolution.toUInt16 (deepest fb) ≤ fb.bytesPerLine.toNat := by
  unfold deepest
  split
  · next h32 => exact h32 ▸ native_row hv hx
  · simp only [rowBytes, toNat_toUInt16 hx, UInt8.reduceToNat]
    omega

theorem fixed_row {w : UInt16} (hw : w.toNat ≤ 1280) : rowBytes w 32 ≤ 5120 := by
  simp only [rowBytes, UInt8.reduceToNat]
  omega

theorem FitsAll.fixed (h : FitsAll fb) {b x y : UInt16} (hx : x.toNat ≤ 1280)
    (hy : y.toNat ≤ 1024) (hl : LfbFits fb x y 32) : ∀ g ∈ depths b x y, g.Fits fb := by
  intro g hg
  obtain ⟨e1, e2, e3⟩ := mem_depths hg
  exact fits_of_deeper e1 e2 e3 (hx.trans h.width) (hy.trans h.height)
    ((fixed_row hx).trans h.pitch) hl

theorem FitsAll.native (h : FitsAll fb) (hv : validFramebuffer fb = true)
    (hx : fb.xResolution.toNat < 65536) (hy : fb.yResolution.toNat < 65536) {m : UInt16} {d : UInt8}
    {mm : MemModel} (hd : d ≤ deepest fb) :
    (⟨m, fb.xResolution.toUInt16, fb.yResolution.toUInt16, d, mm⟩ : Geometry).Fits fb :=
  fits_of_deeper rfl rfl hd (toNat_toUInt16 hx).le (toNat_toUInt16 hy).le
    (deepest_row hv hx h.nativePitch) h.lfbNative

theorem advertised_of_fitsAll (hv : validFramebuffer fb = true)
    (hx : fb.xResolution.toNat < 65536) (hy : fb.yResolution.toNat < 65536) (h : FitsAll fb) :
    ∀ g ∈ advertised fb, g.Fits fb := by
  intro g hg
  rw [advertised_eq] at hg
  simp only [List.mem_append, List.mem_cons, List.not_mem_nil, or_false] at hg
  rcases hg with (((hg | hg) | hg) | hg) | rfl | rfl | rfl | rfl | rfl
  · exact h.fixed (by decide) (by decide) h.lfb480 g hg
  · exact h.fixed (by decide) (by decide) h.lfb600 g hg
  · exact h.fixed (by decide) (by decide) h.lfb768 g hg
  · exact h.fixed (by decide) (by decide) h.lfb1024 g hg
  · exact h.native hv hx hy (le_deepest (by decide))
  · exact h.native hv hx hy (le_deepest (by decide))
  · exact h.native hv hx hy (le_deepest (by decide))
  · exact h.native hv hx hy (le_deepest (by decide))
  · exact h.native hv hx hy (effBpp_le_deepest hv)

/-- Below 64 KiB a line, only the resolutions and the pitch matter. -/
theorem fitsAll_iff_of_pitch (hv : validFramebuffer fb = true)
    (hx : fb.xResolution.toNat < 65536) (hy : fb.yResolution.toNat < 65536)
    (hs : fb.bytesPerLine.toNat < 65536) :
    FitsAll fb ↔ 1280 ≤ fb.xResolution.toNat ∧ 1024 ≤ fb.yResolution.toNat ∧
      5120 ≤ fb.bytesPerLine.toNat ∧ 3 * fb.xResolution.toNat ≤ fb.bytesPerLine.toNat := by
  constructor
  · exact fun h => ⟨h.width, h.height, h.pitch, h.nativePitch⟩
  · rintro ⟨hw, hh, hp, hnp⟩
    have fixed : ∀ {w h : UInt16}, 0 < h.toNat → w.toNat ≤ 1280 → h.toNat ≤ 1024 →
        LfbFits fb w h 32 := by
      intro w h hpos hw' hh'
      apply lfbFits_of_pitch hs hy hpos (hh'.trans hh)
      exact (fixed_row hw').trans hp
    refine ⟨hw, hh, hp, hnp, fixed (by decide) (by decide) (by decide),
      fixed (by decide) (by decide) (by decide), fixed (by decide) (by decide) (by decide),
      fixed (by decide) (by decide) (by decide), ?_⟩
    apply lfbFits_of_pitch hs hy (by rw [toNat_toUInt16 hy]; omega) (toNat_toUInt16 hy).le
    exact deepest_row hv hx hnp

end

/-- **When every advertised mode fits.** The modes are registered without a look
at the framebuffer, so they fit exactly those of at least 1280 by 1024 pixels
with a pitch of at least 5120 bytes and three bytes per pixel, where in addition
no linear framebuffer is reported beyond the 32-bit size of video memory. The
addition follows for pitches below 64 KiB. -/
theorem advertised_fit_iff (st : State) (hsize : 25 ≤ st.svgaModes.length) (fb : CbFramebuffer)
    (hv : validFramebuffer fb = true) (hx : fb.xResolution.toNat < 65536)
    (hy : fb.yResolution.toNat < 65536) :
    ∃ st', setupFramebuffer st fb = some st' ∧ (AdvertisedFit st' fb ↔ FitsAll fb) ∧
      (fb.bytesPerLine.toNat < 65536 →
        (FitsAll fb ↔ 1280 ≤ fb.xResolution.toNat ∧ 1024 ≤ fb.yResolution.toNat ∧
          5120 ≤ fb.bytesPerLine.toNat ∧ 3 * fb.xResolution.toNat ≤ fb.bytesPerLine.toNat)) := by
  obtain ⟨st', hsetup, hi⟩ := installed_setup hv hsize
  refine ⟨st', hsetup, ?_, fitsAll_iff_of_pitch hv hx hy⟩
  rw [advertisedFit_iff hi (valid_facts hv).1]
  exact ⟨fitsAll_of_advertised hx, advertised_of_fitsAll hv hx hy⟩

/-- Globals before the setup; what `svga_modes` holds does not matter. -/
def blankState : State where
  cbMode := 0
  cbModeinfo := ⟨.text, 0, 0, 0, 0, 0, 0⟩
  cbEmulinfo := ⟨.text, 0, 0, 0, 0, 0, 0⟩
  cbLinelength := 0
  masks := ⟨0, 0, 0, 0, 0, 0⟩
  vbeFramebuffer := 0
  vbeTotalMemory := 256 * 1024
  vbeWinGranularity := 0
  svgaModes := List.replicate 82 ⟨0, .packed, 0, 0, 0, 8, 16, 0xa000⟩
  svgaMcount := 82

theorem advertised_fit_large :
    ∃ st', setupFramebuffer blankState
        { sampleFramebuffer with
          xResolution := 1920, yResolution := 1080, bytesPerLine := 7680 } = some st' ∧
      AdvertisedFit st' { sampleFramebuffer with
        xResolution := 1920, yResolution := 1080, bytesPerLine := 7680 } := by
  obtain ⟨st', hsetup, hfit, hall⟩ := advertised_fit_iff blankState (by decide)
    { sampleFramebuffer with xResolution := 1920, yResolution := 1080, bytesPerLine := 7680 }
    (by decide) (by decide) (by decide)
  exact ⟨st', hsetup, hfit.mpr ((hall (by decide)).mpr (by decide))⟩

/-- On a framebuffer of 1024 by 768 pixels, mode 0x130 is listed with 1280 by
1024 pixels, and its linear framebuffer reaches beyond video memory. -/
theorem advertised_fit_small :
    ∃ st', setupFramebuffer blankState sampleFramebuffer = some st' ∧
      0x130 ∈ cbvgaListModes st' vbeListRoom ∧
      ∃ vmode, cbvgaFindMode st' 0x130 = some vmode ∧ ¬ vmode.Fits st' sampleFramebuffer ∧
        ∃ info, vbe104f01 st' 0x130 = .info info ∧ info.physBase ≠ 0 ∧ ¬ info.Inside st' :=
  ⟨_, rfl, by decide, _, rfl, by decide, _, rfl, by decide, by decide⟩

end CsmWrap.Vga
