import CsmWrap.Vga.RomVariables

/-!
# Mode sets in real mode

The variables of `vbe.c`, `cbvga.c` and the palette emulator have one offset each, and the
accesses to them three segments. `GET_GLOBAL` and the copy that `vbe_104f01` keeps of its
answer use the segment of the ROM. Plain accesses use the data segment, which is the stack
of the caller. `cbvga_emul_set_mode` reads the mode that it is given from segment 0. So the
geometry of a mode set comes from low memory at the offset of `CBmodeinfo`, and depth, pitch and
masks from the caller's stack segment at that of `g_last_vbe_mode_info`. No query stores there,
unless its buffer happens to be there; and no mode is configured as itself, unless low memory
happens to hold its geometry.
-/

namespace CsmWrap.Vga
open Coreboot Memory

/-- The variables that are accessed through the data segment. -/
inductive NearVar where
  | shadowPtr
  | dstPtr
  | srcPitch
  | dstPitch
  | width
  | height
  | srcBpp
  | dstBpp
  | redSize
  | greenSize
  | blueSize
  | redPos
  | greenPos
  | bluePos
  | palette
  | paletteArgb
  | vga256
  | lastVbeModeInfo
  deriving DecidableEq, Repr

def NearVar.size : NearVar → Nat
  | .redSize | .greenSize | .blueSize | .redPos | .greenPos | .bluePos => 1
  | .palette | .vga256 => 768
  | .paletteArgb => 1024
  | .lastVbeModeInfo => 256
  | _ => 4

/-- Where the linker has put the variables, `default_vga_palette` and the function
`entry_104f05`, as offsets in the ROM. No two of the variables overlap. -/
structure NearLayout where
  rom : RomLayout
  offset : NearVar → Nat
  defaultVgaPalette : Nat
  entry104f05 : UInt16
  apart : ∀ v w, v ≠ w → offset v + v.size ≤ offset w ∨ offset w + w.size ≤ offset v

/-- The segment of the ROM. -/
def segRom : UInt16 := 0xc000

def PixelFields.bytes (p : PixelFields) : List UInt8 :=
  [p.rSize, p.rPos, p.gSize, p.gPos, p.bSize, p.bPos, p.aSize, p.aPos]

/-- `struct vbe_mode_info`, with the far pointer to `entry`. -/
def VbeModeInfo.bytes (entry : UInt16) (info : VbeModeInfo) : List UInt8 :=
  leBytes 2 info.modeAttributes.toNat ++ [info.winAAttributes, info.winBAttributes] ++
  leBytes 2 info.winGranularity.toNat ++ leBytes 2 info.winSize.toNat ++
  leBytes 2 info.winASeg.toNat ++ leBytes 2 info.winBSeg.toNat ++
  leBytes 2 entry.toNat ++ leBytes 2 segRom.toNat ++
  leBytes 2 info.bytesPerScanline.toNat ++ leBytes 2 info.xres.toNat ++ leBytes 2 info.yres.toNat ++
  [info.xcharsize, info.ycharsize, info.planes, info.bitsPerPixel, info.banks,
    info.memModel.code.toUInt8, info.bankSize, info.pages, info.reserved0] ++
  info.pixel.bytes ++ [info.directcolorInfo] ++ leBytes 4 info.physBase.toNat ++
  List.replicate 6 0 ++ leBytes 2 info.linearBytesPerScanline.toNat ++ [0, info.linearPages] ++
  info.linearPixel.bytes ++ List.replicate 194 0

theorem length_bytes (entry : UInt16) (info : VbeModeInfo) : (info.bytes entry).length = 256 := by
  unfold VbeModeInfo.bytes PixelFields.bytes
  simp only [List.length_append, length_leBytes, List.length_cons, List.length_nil,
    List.length_replicate]

namespace NearLayout
variable (l : NearLayout)

def addr (ds : UInt16) (v : NearVar) : Nat := 16 * ds.toNat + l.offset v

/-- `GET_FARVAR(0, CBmodeinfo..)`. -/
def low (m : Mem) : FarMode where
  width := read16 m (l.rom.cbModeinfo + 2)
  height := read16 m (l.rom.cbModeinfo + 4)
  depth := m (l.rom.cbModeinfo + 6)

/-- The fields of `g_last_vbe_mode_info`, plainly read. -/
def info (ds : UInt16) (m : Mem) : NearInfo :=
  let base := l.addr ds .lastVbeModeInfo
  { bytesPerScanline := read16 m (base + 16)
    bitsPerPixel := m (base + 25)
    masks := ⟨m (base + 31), m (base + 33), m (base + 35), m (base + 32), m (base + 34),
      m (base + 36)⟩
    linearBytesPerScanline := read16 m (base + 50) }

def set (ds : UInt16) (v : NearVar) (bytes : List UInt8) (m : Mem) : Mem :=
  store m (l.addr ds v) bytes

def setInt (ds : UInt16) (v : NearVar) (n : Int) : Mem → Mem :=
  l.set ds v (leBytes 4 (UInt32.ofInt n).toNat)

def getInt (ds : UInt16) (v : NearVar) (m : Mem) : Int := asInt (read32 m (l.addr ds v))

def cbvgaEmulSetMasks (ds : UInt16) (masks : Masks) (m : Mem) : Mem :=
  let m := l.set ds .redSize [masks.redSize] m
  let m := l.set ds .greenSize [masks.greenSize] m
  let m := l.set ds .blueSize [masks.blueSize] m
  let m := l.set ds .redPos [masks.redPos] m
  let m := l.set ds .greenPos [masks.greenPos] m
  l.set ds .bluePos [masks.bluePos] m

def rebuildArgbTable (ds : UInt16) (m : Mem) : Mem :=
  let entry (i : Nat) := rgbAt (fun k => m (l.addr ds .palette + k)) i
  l.set ds .paletteArgb ((List.range 256).flatMap fun i => leBytes 4 (packDac (entry i)).toNat) m

/-- The sixteen colours are read through the data segment as well. -/
def initVga256Palette (ds : UInt16) (m : Mem) : Mem :=
  l.set ds .vga256 (load m (16 * ds.toNat + l.defaultVgaPalette) 48 ++
    (Vga.initVga256Palette.toList.drop 16).flatMap fun c => [c.r, c.g, c.b]) m

def initGrayscale (ds : UInt16) (flags : UInt32) (m : Mem) : Mem :=
  if flags &&& mfGraysum ≠ 0 then
    l.rebuildArgbTable ds (l.set ds .palette
      ((List.range 256).flatMap fun i => List.replicate 3 (UInt8.ofNat (i / 4))) m)
  else m

/-- `cbvga_emul_set_mode(&CBmodeinfo, flags)`. -/
def cbvgaEmulSetMode (ds : UInt16) (flags : UInt32) (m : Mem) : Mem :=
  let m := l.setInt ds .shadowPtr 0 m
  let m := l.setInt ds .width (l.low m).width.toNat m
  let m := l.setInt ds .height (l.low m).height.toNat m
  let m := l.setInt ds .srcBpp (l.low m).depth.toNat m
  let m := l.setInt ds .srcPitch 0 m
  let m := l.initGrayscale ds flags m
  let m := l.setInt ds .dstBpp (clampBpp (l.info ds m).bitsPerPixel) m
  let m := l.cbvgaEmulSetMasks ds (l.info ds m).masks m
  let m := l.setInt ds .dstPitch (l.info ds m).pitch m
  let m := l.setInt ds .srcPitch
    (if l.getInt ds .srcBpp m = 4 then packedPitch (l.getInt ds .width m)
      else l.getInt ds .dstPitch m) m
  if l.getInt ds .dstBpp m = 8 then l.initVga256Palette ds m else m

def cbvgaEmulSetupModes (ds : UInt16) (addr : UInt64) (bpp : UInt8)
    (xlines ylines linelength : UInt32) (m : Mem) : Mem :=
  let m := l.set ds .dstPtr (leBytes 4 addr.toUInt32.toNat) m
  let m := l.setInt ds .width (asInt xlines) m
  let m := l.setInt ds .height (asInt ylines) m
  let m := l.setInt ds .srcBpp bpp.toNat m
  let m := l.setInt ds .dstBpp 24 m
  l.setInt ds .dstPitch (asInt linelength) m

/-- What `cbvga_set_mode` stores into variables. -/
def cbvgaSetMode (ds : UInt16) (st : State) (vmode : VgaMode) (flags : UInt32) (m : Mem) : Mem :=
  if flags &&& mfNoclearmem = 0 ∧ st.cbModeinfo.memmodel = .text then
    l.cbvgaEmulSetMode ds flags m
  else
    l.cbvgaEmulSetMode ds flags (l.cbvgaEmulSetupModes ds st.vbeFramebuffer.toUInt64 vmode.depth
      vmode.width.toUInt32 vmode.height.toUInt32 st.cbLinelength m)

def masks (ds : UInt16) (m : Mem) : Masks :=
  ⟨m (l.addr ds .redSize), m (l.addr ds .greenSize), m (l.addr ds .blueSize),
    m (l.addr ds .redPos), m (l.addr ds .greenPos), m (l.addr ds .bluePos)⟩

/-- The emulator's configuration in memory. -/
def config (ds : UInt16) (m : Mem) : Config where
  width := l.getInt ds .width m
  height := l.getInt ds .height m
  srcBpp := l.getInt ds .srcBpp m
  srcPitch := l.getInt ds .srcPitch m
  dstBpp := l.getInt ds .dstBpp m
  dstPitch := l.getInt ds .dstPitch m
  masks := l.masks ds m

/-- `m'` is `m` but for these variables. -/
def Changes (ds : UInt16) (vs : List NearVar) (m m' : Mem) : Prop :=
  ∀ a, (∀ v ∈ vs, a < l.addr ds v ∨ l.addr ds v + v.size ≤ a) → m' a = m a

section
variable {l} {ds : UInt16} {vs ws : List NearVar} {m m' m'' : Mem}

theorem Changes.trans (h : l.Changes ds vs m m') (h' : l.Changes ds ws m' m'') :
    l.Changes ds (vs ++ ws) m m'' := by
  intro a ha
  rw [h' a fun v hv => ha v (List.mem_append_right _ hv),
    h a fun v hv => ha v (List.mem_append_left _ hv)]

theorem Changes.mono (h : l.Changes ds vs m m') (hsub : vs ⊆ ws) : l.Changes ds ws m m' :=
  fun a ha => h a fun v hv => ha v (hsub hv)

theorem changes_set (v : NearVar) {bytes : List UInt8} (h : bytes.length = v.size) (m : Mem) :
    l.Changes ds [v] m (l.set ds v bytes m) := by
  intro a ha
  exact store_outside m _ bytes (h ▸ ha v List.mem_cons_self)

theorem changes_setInt {v : NearVar} (h : v.size = 4) (n : Int) (m : Mem) :
    l.Changes ds [v] m (l.setInt ds v n m) :=
  changes_set v (by rw [length_leBytes, h]) m

/-- A variable that is not changed is read as it was. -/
theorem Changes.byte (h : l.Changes ds vs m m') {w : NearVar} (hw : w ∉ vs) {i : Nat}
    (hi : i < w.size) : m' (l.addr ds w + i) = m (l.addr ds w + i) := by
  apply h
  intro v hv
  have hapart := l.apart v w fun hvw => hw (hvw ▸ hv)
  unfold addr
  omega

theorem Changes.getInt (h : l.Changes ds vs m m') {w : NearVar} (hw : w ∉ vs)
    (hsize : w.size = 4) : l.getInt ds w m' = l.getInt ds w m := by
  have hload : load m' (l.addr ds w) 4 = load m (l.addr ds w) 4 :=
    load_congr fun i hi => h.byte hw (by rw [hsize]; exact hi)
  rw [NearLayout.getInt, NearLayout.getInt, read32, read32, hload]

theorem info_congr (h : ∀ a, l.addr ds .lastVbeModeInfo ≤ a →
    a < l.addr ds .lastVbeModeInfo + 256 → m' a = m a) : l.info ds m' = l.info ds m := by
  have hbyte : ∀ i < 256, m' (l.addr ds .lastVbeModeInfo + i) =
      m (l.addr ds .lastVbeModeInfo + i) := fun i hi => h _ (by omega) (by omega)
  have hread : ∀ i < 255, read16 m' (l.addr ds .lastVbeModeInfo + i) =
      read16 m (l.addr ds .lastVbeModeInfo + i) := by
    intro i hi
    have hload : load m' (l.addr ds .lastVbeModeInfo + i) 2 =
        load m (l.addr ds .lastVbeModeInfo + i) 2 :=
      load_congr fun k hk => h _ (by omega) (by omega)
    rw [read16, read16, hload]
  simp only [NearLayout.info, hread 16 (by decide), hread 50 (by decide), hbyte 25 (by decide),
    hbyte 31 (by decide), hbyte 32 (by decide), hbyte 33 (by decide), hbyte 34 (by decide),
    hbyte 35 (by decide), hbyte 36 (by decide)]

theorem Changes.info (h : l.Changes ds vs m m') (hw : .lastVbeModeInfo ∉ vs) :
    l.info ds m' = l.info ds m := by
  apply info_congr
  intro a hlo hhi
  obtain ⟨i, rfl⟩ := Nat.exists_eq_add_of_le hlo
  exact h.byte hw (Nat.lt_of_add_lt_add_left hhi)

theorem low_congr (h : ∀ a, l.rom.cbModeinfo + 2 ≤ a → a < l.rom.cbModeinfo + 7 → m' a = m a) :
    l.low m' = l.low m := by
  have hread : ∀ i, 2 ≤ i → i < 6 → read16 m' (l.rom.cbModeinfo + i) =
      read16 m (l.rom.cbModeinfo + i) := by
    intro i hlo hhi
    have hload : load m' (l.rom.cbModeinfo + i) 2 = load m (l.rom.cbModeinfo + i) 2 :=
      load_congr fun k hk => h _ (by omega) (by omega)
    rw [read16, read16, hload]
  simp only [NearLayout.low, hread 2 (by decide) (by decide), hread 4 (by decide) (by decide),
    h (l.rom.cbModeinfo + 6) (by omega) (by omega)]

theorem low_of_load {x y : Nat} {d : UInt8}
    (h : load m (l.rom.cbModeinfo + 2) 5 = leBytes 2 x ++ leBytes 2 y ++ [d]) :
    l.low m = ⟨UInt16.ofNat (ofLeBytes (leBytes 2 x)), UInt16.ofNat (ofLeBytes (leBytes 2 y)),
      d⟩ := by
  have hx : load m (l.rom.cbModeinfo + 2) 2 = leBytes 2 x := congrArg (List.take 2) h
  have hy : load m (l.rom.cbModeinfo + 4) 2 = leBytes 2 y :=
    congrArg (fun bytes => (bytes.drop 2).take 2) h
  have hd : m (l.rom.cbModeinfo + 6) = d := congrArg (fun bytes => bytes.getD 4 0) h
  unfold NearLayout.low read16
  rw [hx, hy, hd]

theorem getInt_setInt (v : NearVar) {n : Int} (hlo : 0 ≤ n) (hhi : n < 2 ^ 31) :
    l.getInt ds v (l.setInt ds v n m) = n := by
  obtain ⟨k, rfl⟩ := Int.eq_ofNat_of_zero_le hlo
  have hload := load_store m (l.addr ds v) (leBytes 4 (UInt32.ofInt k).toNat)
  rw [length_leBytes] at hload
  have hword : UInt32.ofInt k = UInt32.ofNat k := by
    rw [UInt32.ofInt]
    apply UInt32.toNat_inj.mp
    simp only [UInt32.toNat_ofNat']
    omega
  unfold NearLayout.getInt setInt NearLayout.set
  rw [read32_of_load hload, hword, asInt, UInt32.toInt32_ofNat']
  exact Int32.toInt_ofNat_of_lt (by omega)

/-- It is read back after stores to other variables. -/
theorem Changes.getInt_setInt {v : NearVar} {n : Int} (h : l.Changes ds vs (l.setInt ds v n m) m')
    (hv : v ∉ vs) (hsize : v.size = 4) (hlo : 0 ≤ n) (hhi : n < 2 ^ 31) :
    l.getInt ds v m' = n := by
  rw [h.getInt hv hsize, NearLayout.getInt_setInt v hlo hhi]

/-- The variables of `cbvga_emul_set_masks`. -/
def maskVars : List NearVar := [.redSize, .greenSize, .blueSize, .redPos, .greenPos, .bluePos]

theorem Changes.masks (h : l.Changes ds vs m m') (hvs : ∀ v ∈ maskVars, v ∉ vs) :
    l.masks ds m' = l.masks ds m := by
  have hbyte : ∀ v ∈ maskVars, m' (l.addr ds v) = m (l.addr ds v) := by
    intro v hv
    have hsize : ∀ v ∈ maskVars, 0 < v.size := by decide
    exact h.byte (i := 0) (hvs v hv) (hsize v hv)
  unfold NearLayout.masks
  rw [hbyte .redSize (by decide), hbyte .greenSize (by decide), hbyte .blueSize (by decide),
    hbyte .redPos (by decide), hbyte .greenPos (by decide), hbyte .bluePos (by decide)]

theorem set_self (v : NearVar) (b : UInt8) (m : Mem) : l.set ds v [b] m (l.addr ds v) = b :=
  store_inside m (l.addr ds v) [b] Nat.one_pos

theorem set_ne {v w : NearVar} (hvw : w ≠ v) (hv : v.size = 1) (hw : w.size = 1) (b : UInt8)
    (m : Mem) : l.set ds v [b] m (l.addr ds w) = m (l.addr ds w) := by
  have h : l.Changes ds [v] m (l.set ds v [b] m) := changes_set v (by rw [hv]; rfl) m
  exact h.byte (i := 0) (by simpa using hvw) (by rw [hw]; decide)

theorem masks_cbvgaEmulSetMasks (masks : Masks) (m : Mem) :
    l.masks ds (l.cbvgaEmulSetMasks ds masks m) = masks := by
  simp (disch := decide) only [NearLayout.masks, cbvgaEmulSetMasks, set_self, set_ne]

theorem changes_cbvgaEmulSetMasks (masks : Masks) (m : Mem) :
    l.Changes ds maskVars m (l.cbvgaEmulSetMasks ds masks m) :=
  ((((changes_set .redSize rfl _).trans (changes_set .greenSize rfl _)).trans
    (changes_set .blueSize rfl _)).trans (changes_set .redPos rfl _)).trans
    (changes_set .greenPos rfl _) |>.trans (changes_set .bluePos rfl _)

theorem changes_initGrayscale (flags : UInt32) (m : Mem) :
    l.Changes ds [.palette, .paletteArgb] m (l.initGrayscale ds flags m) := by
  unfold initGrayscale
  split
  · apply Changes.trans (changes_set .palette _ _) (changes_set .paletteArgb _ _)
    · rw [length_records (fun _ => List.length_replicate), List.length_range]
      rfl
    · rw [length_records (fun _ => length_leBytes 4 _), List.length_range]
      rfl
  · exact fun a _ => rfl

theorem changes_initVga256Palette (m : Mem) :
    l.Changes ds [.vga256] m (l.initVga256Palette ds m) := by
  apply changes_set
  rw [List.length_append, length_load, length_records (n := 3) fun _ => rfl, List.length_drop,
    Vector.length_toList]
  rfl

theorem changes_cbvgaEmulSetupModes (addr : UInt64) (bpp : UInt8)
    (xlines ylines linelength : UInt32) (m : Mem) :
    l.Changes ds [.dstPtr, .width, .height, .srcBpp, .dstBpp, .dstPitch] m
      (l.cbvgaEmulSetupModes ds addr bpp xlines ylines linelength m) :=
  ((((changes_set .dstPtr (length_leBytes 4 _) _).trans (changes_setInt rfl _ _)).trans
    (changes_setInt rfl _ _)).trans (changes_setInt rfl _ _)).trans
    (changes_setInt rfl _ _) |>.trans (changes_setInt rfl _ _)

end

end NearLayout

theorem clampBpp_bounds (bpp : UInt8) : 0 ≤ clampBpp bpp ∧ clampBpp bpp < 2 ^ 31 := by
  have := bpp.toNat_lt
  unfold clampBpp
  split <;> omega

theorem pitch_bounds (info : NearInfo) : 0 ≤ info.pitch ∧ info.pitch < 2 ^ 31 := by
  have := info.linearBytesPerScanline.toNat_lt
  have := info.bytesPerScanline.toNat_lt
  unfold NearInfo.pitch
  split <;> omega

theorem srcPitch_bounds (info : NearInfo) (vmode : FarMode) :
    0 ≤ (modeConfig info vmode).srcPitch ∧ (modeConfig info vmode).srcPitch < 2 ^ 31 := by
  have := vmode.width.toNat_lt
  unfold modeConfig
  dsimp only
  split
  · unfold packedPitch
    omega
  · exact pitch_bounds info

namespace NearLayout
variable (l : NearLayout)

/-- A byte of the geometry that a mode set reads in segment 0. -/
def InLow (a : Nat) : Prop := l.rom.cbModeinfo + 2 ≤ a ∧ a < l.rom.cbModeinfo + 7

/-- A byte that it may store into, in the data segment. -/
def Stored (ds : UInt16) (a : Nat) : Prop :=
  ∃ v ≠ NearVar.lastVbeModeInfo, l.addr ds v ≤ a ∧ a < l.addr ds v + v.size

section
variable {l} {ds : UInt16} {vs : List NearVar} {m m' : Mem}

theorem Changes.unstored (h : l.Changes ds vs m m') (hvs : .lastVbeModeInfo ∉ vs) {a : Nat}
    (ha : ¬ l.Stored ds a) : m' a = m a := by
  apply h
  intro v hv
  by_contra hin
  exact ha ⟨v, fun hlast => hvs (hlast ▸ hv), by omega, by omega⟩

theorem Changes.low (h : l.Changes ds vs m m') (hvs : .lastVbeModeInfo ∉ vs)
    (hlow : ∀ a, l.InLow a → ¬ l.Stored ds a) : l.low m' = l.low m :=
  low_congr fun a hlo hhi => h.unstored hvs (hlow a ⟨hlo, hhi⟩)

/-- The variables that a mode set stores into. -/
def storedVars : List NearVar :=
  [.shadowPtr, .dstPtr, .srcPitch, .dstPitch, .width, .height, .srcBpp, .dstBpp, .palette,
    .paletteArgb, .vga256] ++ maskVars

/-- The geometry is that of segment 0, and the rest that of the mode information in the data
segment, unless it is what is stored that is read. -/
theorem cbvgaEmulSetMode_spec (hlow : ∀ a, l.InLow a → ¬ l.Stored ds a) (flags : UInt32)
    (m : Mem) :
    l.config ds (l.cbvgaEmulSetMode ds flags m) = modeConfig (l.info ds m) (l.low m) ∧
      l.Changes ds storedVars m (l.cbvgaEmulSetMode ds flags m) := by
  unfold cbvgaEmulSetMode
  extract_lets m₁ m₂ m₃ m₄ m₅ m₆ m₇ m₈ m₉ m₁₀
  generalize hend : (if l.getInt ds .dstBpp m₁₀ = 8 then l.initVga256Palette ds m₁₀ else m₁₀) = m'
  have h₁₀ : l.Changes ds [.vga256] m₁₀ m' := by
    rw [← hend]
    split
    · exact changes_initVga256Palette m₁₀
    · exact fun a _ => rfl
  have h₀ : l.Changes ds [.shadowPtr] m m₁ := changes_setInt rfl _ _
  have h₁ : l.Changes ds [.width] m₁ m₂ := changes_setInt rfl _ _
  have h₂ : l.Changes ds [.height] m₂ m₃ := changes_setInt rfl _ _
  have h₃ : l.Changes ds [.srcBpp] m₃ m₄ := changes_setInt rfl _ _
  have h₄ : l.Changes ds [.srcPitch] m₄ m₅ := changes_setInt rfl _ _
  have h₅ : l.Changes ds [.palette, .paletteArgb] m₅ m₆ := changes_initGrayscale flags m₅
  have h₆ : l.Changes ds [.dstBpp] m₆ m₇ := changes_setInt rfl _ _
  have h₇ : l.Changes ds maskVars m₇ m₈ := changes_cbvgaEmulSetMasks _ _
  have h₈ : l.Changes ds [.dstPitch] m₈ m₉ := changes_setInt rfl _ _
  have h₉ : l.Changes ds [.srcPitch] m₉ m₁₀ := changes_setInt rfl _ _
  -- what is read is what was there before the first store
  have low₁ : l.low m₁ = l.low m := h₀.low (by decide) hlow
  have low₂ : l.low m₂ = l.low m := (h₁.low (by decide) hlow).trans low₁
  have low₃ : l.low m₃ = l.low m := (h₂.low (by decide) hlow).trans low₂
  have info₆ : l.info ds m₆ = l.info ds m :=
    (((((h₀.trans h₁).trans h₂).trans h₃).trans h₄).trans h₅).info (by decide)
  have info₇ : l.info ds m₇ = l.info ds m := (h₆.info (by decide)).trans info₆
  have info₈ : l.info ds m₈ = l.info ds m := (h₇.info (by decide)).trans info₇
  -- and each variable is left alone after the last store to it
  have e₉ := h₉.trans h₁₀
  have e₈ := h₈.trans e₉
  have e₇ := h₇.trans e₈
  have e₄ := h₄.trans (h₅.trans (h₆.trans e₇))
  have e₃ := h₃.trans e₄
  have e₂ := h₂.trans e₃
  have hwidth : l.getInt ds .width m' = (l.low m).width.toNat := by
    have hlt := (l.low m₁).width.toNat_lt
    rw [e₂.getInt_setInt (by decide) rfl (by omega) (by omega), low₁]
  have hheight : l.getInt ds .height m' = (l.low m).height.toNat := by
    have hlt := (l.low m₂).height.toNat_lt
    rw [e₃.getInt_setInt (by decide) rfl (by omega) (by omega), low₂]
  have hsrcBpp : l.getInt ds .srcBpp m' = (l.low m).depth.toNat := by
    have hlt := (l.low m₃).depth.toNat_lt
    rw [e₄.getInt_setInt (by decide) rfl (by omega) (by omega), low₃]
  have hdstBpp : l.getInt ds .dstBpp m' = clampBpp (l.info ds m).bitsPerPixel := by
    obtain ⟨hlo, hhi⟩ := clampBpp_bounds (l.info ds m₆).bitsPerPixel
    rw [e₇.getInt_setInt (by decide) rfl hlo hhi, info₆]
  have hdstPitch : l.getInt ds .dstPitch m' = (l.info ds m).pitch := by
    obtain ⟨hlo, hhi⟩ := pitch_bounds (l.info ds m₈)
    rw [e₉.getInt_setInt (by decide) rfl hlo hhi, info₈]
  have hmasks : l.masks ds m' = (l.info ds m).masks := by
    rw [e₈.masks (by decide), masks_cbvgaEmulSetMasks, info₇]
  have hsrcPitch : l.getInt ds .srcPitch m' =
      (modeConfig (l.info ds m) (l.low m)).srcPitch := by
    have hvalue : (if l.getInt ds .srcBpp m₉ = 4 then packedPitch (l.getInt ds .width m₉)
        else l.getInt ds .dstPitch m₉) = (modeConfig (l.info ds m) (l.low m)).srcPitch := by
      rw [← e₉.getInt (w := .srcBpp) (by decide) rfl, ← e₉.getInt (w := .width) (by decide) rfl,
        ← e₉.getInt (w := .dstPitch) (by decide) rfl, hsrcBpp, hwidth, hdstPitch]
      rfl
    obtain ⟨hlo, hhi⟩ := srcPitch_bounds (l.info ds m) (l.low m)
    rw [← hvalue] at hlo hhi ⊢
    exact h₁₀.getInt_setInt (by decide) rfl hlo hhi
  refine ⟨?_, (h₀.trans (h₁.trans e₂)).mono (by decide)⟩
  unfold config modeConfig
  rw [hwidth, hheight, hsrcBpp, hdstBpp, hdstPitch, hmasks, hsrcPitch]
  rfl

/-- `cbvga_set_mode` in memory does to the configuration what it does in `Vga.cbvgaSetMode`,
with what is read in the two segments. -/
theorem cbvgaSetMode_spec (hlow : ∀ a, l.InLow a → ¬ l.Stored ds a) (st : State) (e : Emul)
    (vmode : VgaMode) (flags : UInt32) (m : Mem) :
    l.config ds (l.cbvgaSetMode ds st vmode flags m) =
        (Vga.cbvgaSetMode st e (l.info ds m) (l.low m) vmode flags).config ∧
      l.Changes ds storedVars m (l.cbvgaSetMode ds st vmode flags m) := by
  rw [config_cbvgaSetMode]
  unfold cbvgaSetMode
  split
  · exact cbvgaEmulSetMode_spec hlow flags m
  · generalize hsetup : l.cbvgaEmulSetupModes ds _ _ _ _ _ m = m₁
    have h : l.Changes ds _ m m₁ := hsetup ▸ changes_cbvgaEmulSetupModes _ _ _ _ _ m
    obtain ⟨hconfig, hchanges⟩ := cbvgaEmulSetMode_spec hlow flags m₁
    refine ⟨?_, (h.trans hchanges).mono (by decide)⟩
    rw [hconfig, h.info (by decide), h.low (by decide) hlow]

end

end NearLayout

/-- Memory, with the globals of `cbvga.c` as the ROM holds them. -/
structure RealMode where
  cb : State
  mem : Mem

inductive VbeEvent where
  /-- AX = 4F01h, with the mode in CX and the buffer at ES:DI. -/
  | modeInfo (cx es di : UInt16)
  /-- AX = 4F02h, with mode and flags in BX, on a stack in the segment `ss`. -/
  | setMode (bx ss : UInt16)
  /-- Anything else that is stored, by the guest or by the calls themselves: on the stack, in
  the data area, in text memory and in the framebuffer. -/
  | stores (f : Mem → Mem)

/-- A byte of the ROM. -/
def InRom (a : Nat) : Prop := 0xc0000 ≤ a ∧ a < 0xc0000 + 0x10000

namespace NearLayout
variable (l : NearLayout)

/-- The globals are what stores to the ROM have made of them. -/
def stored (v : RealMode) (m : Mem) : RealMode :=
  ⟨l.rom.overwrite (romStored 0xc0000 0x10000 v.mem m) v.cb, m⟩

/-- AX and memory after `vbe_104f01`; its division can fail. -/
def vbe104f01 (v : RealMode) (cx es di : UInt16) : Option (UInt16 × RealMode) :=
  match Vga.vbe104f01 v.cb cx with
  | .notFound => some (0x014f, v)
  | .divideError => none
  | .info info =>
    let bytes := info.bytes l.entry104f05
    let v := l.stored v (storeFar v.mem es di.toNat bytes)
    -- memcpy_far(get_global_seg(), &g_last_vbe_mode_info, ..)
    some (0x004f, { v with mem := l.set segRom .lastVbeModeInfo bytes v.mem })

/-- AX and memory after `vbe_104f02`. -/
def vbe104f02 (v : RealMode) (bx ss : UInt16) : UInt16 × RealMode :=
  match cbvgaFindMode v.cb (bx &&& ~~~mfVbeflags).toNat with
  | none => (vbeReturnStatusFailed.toUInt16 <<< 8 ||| 0x4f, v)
  | some vmode =>
    (0x004f, l.stored v (l.cbvgaSetMode ss v.cb vmode (bx &&& mfVbeflags).toUInt32 v.mem))

def step (v : RealMode) : VbeEvent → Option RealMode
  | .modeInfo cx es di => (l.vbe104f01 v cx es di).map Prod.snd
  | .setMode bx ss => some (l.vbe104f02 v bx ss).2
  | .stores f => some (l.stored v (f v.mem))

def run (v : RealMode) (events : List VbeEvent) : Option RealMode := events.foldlM l.step v

/-- A byte that a mode set on a stack in `ss` reads. -/
def Watched (ss : UInt16) (a : Nat) : Prop :=
  l.InLow a ∨ (l.addr ss .lastVbeModeInfo ≤ a ∧ a < l.addr ss .lastVbeModeInfo + 256)

/-- The event stores neither into these bytes nor into the globals. -/
def Spares (ss : UInt16) : VbeEvent → Prop
  | .modeInfo _ es di => ∀ i < 256, ¬ l.Watched ss (farAddr es (di.toNat + i)) ∧
      ¬ InRom (farAddr es (di.toNat + i)) ∧ ¬ l.Watched ss (l.addr segRom .lastVbeModeInfo + i)
  | .setMode _ ds => ∀ a, l.Stored ds a → ¬ l.Watched ss a ∧ ¬ InRom a
  | .stores f => ∀ m a, l.Watched ss a ∨ InRom a → f m a = m a

variable {l}

theorem stored_of_spared {v : RealMode} {m : Mem} (h : ∀ a, InRom a → m a = v.mem a) :
    l.stored v m = ⟨v.cb, m⟩ := by
  have hrom : ∀ rom, romStored 0xc0000 0x10000 v.mem m rom = none :=
    romStored_eq_none fun a hlo hhi => h a ⟨hlo, hhi⟩
  rw [stored, overwrite_of_untouched l.rom hrom]

/-- `v` has the globals of `v₀`, and the bytes that a mode set reads. -/
structure Spared (l : NearLayout) (ss : UInt16) (v₀ v : RealMode) : Prop where
  cb : v.cb = v₀.cb
  mem : ∀ a, l.Watched ss a → v.mem a = v₀.mem a

variable {ss : UInt16} {v₀ v w : RealMode}

theorem Spared.reads (h : l.Spared ss v₀ v) :
    l.info ss v.mem = l.info ss v₀.mem ∧ l.low v.mem = l.low v₀.mem :=
  ⟨info_congr fun a hlo hhi => h.mem a (.inr ⟨hlo, hhi⟩),
    low_congr fun a hlo hhi => h.mem a (.inl ⟨hlo, hhi⟩)⟩

theorem spared_vbe104f01 {cx es di ax : UInt16} (h : l.Spares ss (.modeInfo cx es di))
    (hcall : l.vbe104f01 v cx es di = some (ax, w)) : l.Spared ss v w := by
  unfold vbe104f01 at hcall
  split at hcall
  · cases hcall
    exact ⟨rfl, fun _ _ => rfl⟩
  · cases hcall
  · next info _ =>
    dsimp only at hcall
    have hlength := length_bytes l.entry104f05 info
    generalize info.bytes l.entry104f05 = bytes at hcall hlength
    have hbuffer : ∀ a, l.Watched ss a ∨ InRom a →
        storeFar v.mem es di.toNat bytes a = v.mem a := by
      intro a ha
      apply storeFar_outside
      rintro i hi rfl
      obtain ⟨hwatched, hrom, -⟩ := h i (hlength ▸ hi)
      exact ha.elim hwatched hrom
    rw [stored_of_spared fun a ha => hbuffer a (.inr ha)] at hcall
    cases hcall
    refine ⟨rfl, fun a ha => ?_⟩
    have hcopy : a < l.addr segRom .lastVbeModeInfo ∨
        l.addr segRom .lastVbeModeInfo + 256 ≤ a := by
      by_contra hin
      obtain ⟨i, rfl⟩ := Nat.exists_eq_add_of_le (by omega : l.addr segRom .lastVbeModeInfo ≤ a)
      exact (h i (by omega)).2.2 ha
    have hkept := changes_set .lastVbeModeInfo hlength (storeFar v.mem es di.toNat bytes) a
      (List.forall_mem_singleton.mpr hcopy)
    exact hkept.trans (hbuffer a (.inl ha))

/-- Nothing but its variables in the data segment is stored by a mode set. -/
theorem unstored_vbe104f02 {bx ds : UInt16} {vmode : VgaMode} (h : l.Spares ss (.setMode bx ds))
    (flags : UInt32) {a : Nat} (ha : ¬ l.Stored ds a) (st : State) (m : Mem) :
    l.cbvgaSetMode ds st vmode flags m a = m a :=
  (cbvgaSetMode_spec (fun a hlow hstored => (h a hstored).1 (.inl hlow)) st
    blankMachine.emul vmode flags m).2.unstored (by decide) ha

theorem spared_vbe104f02 {bx ds : UInt16} (h : l.Spares ss (.setMode bx ds)) :
    l.Spared ss v (l.vbe104f02 v bx ds).2 := by
  unfold vbe104f02
  split
  · exact ⟨rfl, fun _ _ => rfl⟩
  · rw [stored_of_spared fun a ha => unstored_vbe104f02 h _ (fun hs => (h a hs).2 ha) _ _]
    exact ⟨rfl, fun a ha => unstored_vbe104f02 h _ (fun hs => (h a hs).1 ha) _ _⟩

theorem spared_step {e : VbeEvent} (h : l.Spares ss e) (hstep : l.step v e = some w) :
    l.Spared ss v w := by
  cases e with
  | modeInfo cx es di =>
    obtain ⟨⟨ax, _⟩, hcall, rfl⟩ := Option.map_eq_some_iff.mp hstep
    exact spared_vbe104f01 h hcall
  | setMode bx ds =>
    cases hstep
    exact spared_vbe104f02 h
  | stores f =>
    cases hstep
    rw [stored_of_spared fun a ha => h v.mem a (.inr ha)]
    exact ⟨rfl, fun a ha => h v.mem a (.inl ha)⟩

theorem Spared.trans (h : l.Spared ss v₀ v) (h' : l.Spared ss v w) : l.Spared ss v₀ w :=
  ⟨h'.cb.trans h.cb, fun a ha => (h'.mem a ha).trans (h.mem a ha)⟩

theorem spared_run {events : List VbeEvent} (h : ∀ e ∈ events, l.Spares ss e)
    (hrun : l.run v events = some w) : l.Spared ss v w := by
  induction events generalizing v with
  | nil =>
    cases hrun
    exact ⟨rfl, fun _ _ => rfl⟩
  | cons e events ih =>
    obtain ⟨u, hstep, hrest⟩ := Option.bind_eq_some_iff.mp hrun
    exact (spared_step (h e List.mem_cons_self) hstep).trans
      (ih (fun e he => h e (List.mem_cons_of_mem _ he)) hrest)

/-- A mode that is found is set, with the configuration that is read. -/
theorem set_config {bx : UInt16} {vmode : VgaMode}
    (hfind : cbvgaFindMode v.cb (bx &&& ~~~mfVbeflags).toNat = some vmode)
    (hset : l.Spares ss (.setMode bx ss)) : ∃ t, l.vbe104f02 v bx ss = (0x004f, t) ∧
      l.config ss t.mem = modeConfig (l.info ss v.mem) (l.low v.mem) := by
  unfold vbe104f02
  rw [hfind]
  refine ⟨_, rfl, ?_⟩
  have hconfig := (cbvgaSetMode_spec (fun a hlow hstored => (hset a hstored).1 (.inl hlow)) v.cb
    blankMachine.emul vmode (bx &&& mfVbeflags).toUInt32 v.mem).1
  rw [config_cbvgaSetMode] at hconfig
  exact hconfig

/-- The mode is set with one configuration, and with its own geometry, whatever came before,
queries and mode sets and all, as long as it spares what the set reads. -/
def ConfiguredBySet (l : NearLayout) (v₀ : RealMode) (bx ss : UInt16) (vmode : VgaMode) : Prop :=
  ∀ events events' v v', (∀ e ∈ events, l.Spares ss e) → (∀ e ∈ events', l.Spares ss e) →
    l.run v₀ events = some v → l.run v₀ events' = some v' →
    ∃ t t', l.vbe104f02 v bx ss = (0x004f, t) ∧ l.vbe104f02 v' bx ss = (0x004f, t') ∧
      l.config ss t.mem = l.config ss t'.mem ∧
      (l.config ss t.mem).width = vmode.width.toNat ∧
      (l.config ss t.mem).height = vmode.height.toNat ∧
      (l.config ss t.mem).srcBpp = vmode.depth.toNat

end NearLayout

/-- The geometry that is read is that of the mode. -/
theorem modeConfig_geometry_iff (info : NearInfo) (low : FarMode) (vmode : VgaMode) :
    ((modeConfig info low).width = vmode.width.toNat ∧
      (modeConfig info low).height = vmode.height.toNat ∧
      (modeConfig info low).srcBpp = vmode.depth.toNat) ↔
    low = ⟨vmode.width, vmode.height, vmode.depth⟩ := by
  obtain ⟨width, height, depth⟩ := low
  simp only [modeConfig, FarMode.mk.injEq, Int.ofNat_inj, UInt16.toNat_inj, UInt8.toNat_inj]

/-- **When the emulator is configured by the mode that is set.** A mode set takes the geometry
from segment 0 and the rest from its own stack segment, as they were before all the events, if
those have spared the bytes there. So nothing that was asked before matters, nor does the
mode that is set; and it is configured as itself exactly if low memory holds its geometry
at the offset of `CBmodeinfo`. -/
theorem configured_by_set_iff (l : NearLayout) (v₀ : RealMode) {bx ss : UInt16} {vmode : VgaMode}
    (hfind : cbvgaFindMode v₀.cb (bx &&& ~~~mfVbeflags).toNat = some vmode)
    (hset : l.Spares ss (.setMode bx ss)) :
    (l.ConfiguredBySet v₀ bx ss vmode ↔
      l.low v₀.mem = ⟨vmode.width, vmode.height, vmode.depth⟩) ∧
    ∀ events v, (∀ e ∈ events, l.Spares ss e) → l.run v₀ events = some v →
      ∃ t, l.vbe104f02 v bx ss = (0x004f, t) ∧
        l.config ss t.mem = modeConfig (l.info ss v₀.mem) (l.low v₀.mem) := by
  have hrun : ∀ events v, (∀ e ∈ events, l.Spares ss e) → l.run v₀ events = some v →
      ∃ t, l.vbe104f02 v bx ss = (0x004f, t) ∧
        l.config ss t.mem = modeConfig (l.info ss v₀.mem) (l.low v₀.mem) := by
    intro events v hevents hv
    have hspared := NearLayout.spared_run hevents hv
    obtain ⟨t, ht, hconfig⟩ := NearLayout.set_config (hspared.cb ▸ hfind) hset
    obtain ⟨hinfo, hlow⟩ := hspared.reads
    exact ⟨t, ht, by rw [hconfig, hinfo, hlow]⟩
  refine ⟨⟨fun h => ?_, fun h => ?_⟩, hrun⟩
  · have hnil : ∀ e ∈ ([] : List VbeEvent), l.Spares ss e := List.forall_mem_nil _
    obtain ⟨t, -, ht, -, -, hgeometry⟩ := h [] [] v₀ v₀ hnil hnil rfl rfl
    obtain ⟨t', ht', hconfig⟩ := hrun [] v₀ hnil rfl
    cases ht.symm.trans ht'
    rw [hconfig] at hgeometry
    exact (modeConfig_geometry_iff ..).mp hgeometry
  · intro events events' v v' hevents hevents' hv hv'
    obtain ⟨t, ht, hconfig⟩ := hrun events v hevents hv
    obtain ⟨t', ht', hconfig'⟩ := hrun events' v' hevents' hv'
    refine ⟨t, t', ht, ht', by rw [hconfig, hconfig'], ?_⟩
    rw [hconfig]
    exact (modeConfig_geometry_iff ..).mpr h

/-- The variables one after the other, behind those of `cbvga.c`. -/
def romOffset : NearVar → Nat
  | .shadowPtr => 0x6b20
  | .dstPtr => 0x6b24
  | .srcPitch => 0x6b28
  | .dstPitch => 0x6b2c
  | .width => 0x6b30
  | .height => 0x6b34
  | .srcBpp => 0x6b38
  | .dstBpp => 0x6b3c
  | .redSize => 0x6b40
  | .greenSize => 0x6b41
  | .blueSize => 0x6b42
  | .redPos => 0x6b43
  | .greenPos => 0x6b44
  | .bluePos => 0x6b45
  | .palette => 0x6b60
  | .paletteArgb => 0x6e60
  | .vga256 => 0x7260
  | .lastVbeModeInfo => 0x7560

theorem mem_nearVars (v : NearVar) : v ∈ .lastVbeModeInfo :: NearLayout.storedVars := by
  cases v <;> decide

theorem romOffset_apart (v w : NearVar) (h : v ≠ w) :
    romOffset v + v.size ≤ romOffset w ∨ romOffset w + w.size ≤ romOffset v := by
  have hall : ∀ v ∈ .lastVbeModeInfo :: NearLayout.storedVars,
      ∀ w ∈ .lastVbeModeInfo :: NearLayout.storedVars, v ≠ w →
        romOffset v + v.size ≤ romOffset w ∨ romOffset w + w.size ≤ romOffset v := by
    decide
  exact hall v (mem_nearVars v) w (mem_nearVars w) h

def nearLayout : NearLayout := ⟨romLayout, romOffset, 0x6000, 0x0100, romOffset_apart⟩

/-- On a stack in segment 7000h a mode set stores above what it reads in segment 0, and below
what it reads on the stack. -/
theorem spares_stack (bx : UInt16) : nearLayout.Spares 0x7000 (.setMode bx 0x7000) := by
  rintro a ⟨v, hv, hlo, hhi⟩
  have hall : ∀ v ∈ NearLayout.storedVars,
      0x6b20 ≤ romOffset v ∧ romOffset v + v.size ≤ 0x7560 := by decide
  have hoffset := hall v ((List.mem_cons.mp (mem_nearVars v)).resolve_left hv)
  change 0x70000 + romOffset v ≤ a at hlo
  change a < 0x70000 + romOffset v + v.size at hhi
  change ¬ ((0x649a ≤ a ∧ a < 0x649f) ∨ 0x77560 ≤ a ∧ a < 0x77660) ∧ ¬ (0xc0000 ≤ a ∧ a < 0xd0000)
  omega

/-- A framebuffer of 1024 by 768 pixels. -/
theorem setup_sample : ∃ st, setupFramebuffer blankState sampleFramebuffer = some st ∧
    cbvgaFindMode st 0x101 = some ⟨.direct, 640, 480, 16, 8, 16, 0xa000⟩ ∧
    ∃ info, vbe104f01 st 0x101 = .info info ∧ info.xres = 640 ∧ info.yres = 480 ∧
      info.xcharsize = 8 := ⟨_, rfl, rfl, _, rfl, rfl, rfl, rfl⟩

/-- Low memory that holds the geometry of mode 0x101. -/
def lowMemory : Mem := store (fun _ => 0) 0x649a [0x80, 0x02, 0xe0, 0x01, 16]

theorem configured_by_set_low : ∃ st, setupFramebuffer blankState sampleFramebuffer = some st ∧
    nearLayout.ConfiguredBySet ⟨st, lowMemory⟩ 0x101 0x7000
      ⟨.direct, 640, 480, 16, 8, 16, 0xa000⟩ := by
  obtain ⟨st, hsetup, hfind, -⟩ := setup_sample
  have hset := spares_stack 0x101
  have hfound : cbvgaFindMode st ((0x101 : UInt16) &&& ~~~mfVbeflags).toNat = _ := hfind
  exact ⟨st, hsetup, (configured_by_set_iff nearLayout ⟨st, lowMemory⟩ hfound hset).1.mpr rfl⟩

/-- A query whose buffer has the resolution over the width and the height of `CBmodeinfo`. -/
theorem query_low {st : State} {cx : UInt16} {info : VbeModeInfo}
    (hinfo : vbe104f01 st cx = .info info) :
    ∃ w, nearLayout.vbe104f01 ⟨st, fun _ => 0⟩ cx 0 0x6488 = some (0x004f, w) ∧ w.cb = st ∧
      nearLayout.low w.mem = ⟨UInt16.ofNat (ofLeBytes (leBytes 2 info.xres.toNat)),
        UInt16.ofNat (ofLeBytes (leBytes 2 info.yres.toNat)), info.xcharsize⟩ ∧
      nearLayout.info 0x7000 w.mem = ⟨0, 0, ⟨0, 0, 0, 0, 0, 0⟩, 0⟩ := by
  have hlength := length_bytes nearLayout.entry104f05 info
  have hfields : ((info.bytes nearLayout.entry104f05).drop 18).take 5 =
      leBytes 2 info.xres.toNat ++ leBytes 2 info.yres.toNat ++ [info.xcharsize] := by
    unfold VbeModeInfo.bytes
    simp only [leBytes, List.cons_append, List.nil_append, List.drop_succ_cons, List.drop_zero,
      List.take_succ_cons, List.take_zero]
  unfold NearLayout.vbe104f01
  rw [hinfo]
  dsimp only
  generalize info.bytes nearLayout.entry104f05 = bytes at *
  have hbuffer : storeFar (fun _ => 0) 0 0x6488 bytes = store (fun _ => 0) 0x6488 bytes :=
    storeFar_eq_store _ 0 (by omega)
  have hrom : nearLayout.stored ⟨st, fun _ => 0⟩ (store (fun _ => 0) 0x6488 bytes) =
      ⟨st, store (fun _ => 0) 0x6488 bytes⟩ :=
    NearLayout.stored_of_spared fun a ha =>
      store_outside _ _ _ (.inr (by unfold InRom at ha; omega))
  have hcopy : ∀ a < 0xc0000, nearLayout.set segRom .lastVbeModeInfo bytes
      (store (fun _ => 0) 0x6488 bytes) a = store (fun _ => 0) 0x6488 bytes a := fun a ha =>
    store_outside _ _ _ (.inl (show a < 0xc7560 by omega))
  have hload : ∀ i n, i + n ≤ 256 → load (store (fun _ => 0) 0x6488 bytes) (0x6488 + i) n =
      (bytes.drop i).take n := by
    intro i n hi
    rw [load_sub _ _ (hlength ▸ hi), load_store]
  refine ⟨_, rfl, ?_, ?_, ?_⟩
  · change (nearLayout.stored _ (storeFar _ 0 0x6488 bytes)).cb = st
    rw [hbuffer, hrom]
  · change nearLayout.low (nearLayout.set segRom .lastVbeModeInfo bytes
      (nearLayout.stored _ (storeFar _ 0 0x6488 bytes)).mem) = _
    rw [hbuffer, hrom, NearLayout.low_congr fun a _ (ha : a < 0x649f) => hcopy a (by omega)]
    exact NearLayout.low_of_load ((hload 18 5 (by decide)).trans hfields)
  · change nearLayout.info 0x7000 (nearLayout.set segRom .lastVbeModeInfo bytes
      (nearLayout.stored _ (storeFar _ 0 0x6488 bytes)).mem) = _
    rw [hbuffer, hrom, NearLayout.info_congr (m := fun _ => 0)]
    · rfl
    · intro a hlo hhi
      change 0x77560 ≤ a at hlo
      change a < 0x77660 at hhi
      rw [hcopy a (by omega)]
      exact store_outside _ _ _ (.inr (by omega))

/-- In memory that is all zero, mode 0x101 of 640 by 480 pixels is set with no width and no
height. A query before it whose buffer is in low memory, with the resolution over the width and
the height of `CBmodeinfo`, makes them 640 and 480, and the depth 8, the width of a character. -/
theorem configured_by_set_small : ∃ st t w t',
    setupFramebuffer blankState sampleFramebuffer = some st ∧
    cbvgaFindMode st 0x101 = some ⟨.direct, 640, 480, 16, 8, 16, 0xa000⟩ ∧
    nearLayout.vbe104f02 ⟨st, fun _ => 0⟩ 0x101 0x7000 = (0x004f, t) ∧
    nearLayout.config 0x7000 t.mem = ⟨0, 0, 0, 0, 32, 0, ⟨0, 0, 0, 0, 0, 0⟩⟩ ∧
    nearLayout.vbe104f01 ⟨st, fun _ => 0⟩ 0x101 0 0x6488 = some (0x004f, w) ∧
    nearLayout.vbe104f02 w 0x101 0x7000 = (0x004f, t') ∧
    nearLayout.config 0x7000 t'.mem = ⟨640, 480, 8, 0, 32, 0, ⟨0, 0, 0, 0, 0, 0⟩⟩ := by
  obtain ⟨st, hsetup, hfind, info, hinfo, hxres, hyres, hxchar⟩ := setup_sample
  have hfound : cbvgaFindMode st ((0x101 : UInt16) &&& ~~~mfVbeflags).toNat = _ := hfind
  obtain ⟨t, ht, hconfig⟩ :=
    NearLayout.set_config (v := ⟨st, fun _ => 0⟩) hfound (spares_stack 0x101)
  obtain ⟨w, hquery, hcb, hlow, hlast⟩ := query_low hinfo
  obtain ⟨t', ht', hconfig'⟩ := NearLayout.set_config (hcb ▸ hfound) (spares_stack 0x101)
  refine ⟨st, t, w, t', hsetup, hfind, ht, hconfig, hquery, ht', ?_⟩
  rw [hconfig', hlow, hlast, hxres, hyres, hxchar]
  decide

end CsmWrap.Vga
