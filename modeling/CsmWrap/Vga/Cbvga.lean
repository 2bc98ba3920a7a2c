import CsmWrap.Coreboot.Table
import Mathlib.Data.Bool.AllAny

/-!
# Mode setup of SeaVGABIOS on a coreboot framebuffer

`cbvga.c`: which framebuffers `cbvga_setup` takes, the modes it then puts into
`svga_modes`, and how modes are listed and looked up.
-/

namespace CsmWrap.Vga
open Coreboot Memory

/-- The memory models `MM_*`. -/
inductive MemModel where
  | text
  | cga
  | hercules
  | planar
  | packed
  | nonChain4x256
  | direct
  | yuv
  deriving DecidableEq, Repr

/-- `struct vgamode_s`. -/
structure VgaMode where
  memmodel : MemModel
  width : UInt16
  height : UInt16
  depth : UInt8
  cwidth : UInt8
  cheight : UInt8
  sstart : UInt16
  deriving DecidableEq, Repr

/-- `struct generic_svga_mode`. -/
structure SvgaMode where
  mode : UInt16
  info : VgaMode
  deriving DecidableEq, Repr

/-- The colour masks `CBred_size` to `CBblue_pos`. -/
structure Masks where
  redSize : UInt8
  greenSize : UInt8
  blueSize : UInt8
  redPos : UInt8
  greenPos : UInt8
  bluePos : UInt8
  deriving DecidableEq, Repr

/-- The globals of `cbvga.c`, and those of `vbe.c` and `svgamodes.c` that it
sets or that a mode query reads. -/
structure State where
  cbMode : Int
  cbModeinfo : VgaMode
  cbEmulinfo : VgaMode
  cbLinelength : UInt32
  masks : Masks
  vbeFramebuffer : UInt32
  vbeTotalMemory : UInt32
  vbeWinGranularity : UInt16
  svgaModes : List SvgaMode
  svgaMcount : Nat
  deriving DecidableEq, Repr

def State.used (st : State) : List SvgaMode := st.svgaModes.take st.svgaMcount

def cbvgaFindMode (st : State) (mode : Int) : Option VgaMode :=
  if mode = st.cbMode then some st.cbModeinfo
  else if mode = 0x03 then some st.cbEmulinfo
  else (st.used.find? fun m => m.mode ≠ 0xffff ∧ m.mode.toNat = mode).map SvgaMode.info

/-- The loop over the table with room for `room` words: the words written, the
room left, and whether `CBmode` was among them. -/
def listLoop (cbMode : Int) : Nat → List UInt16 → List UInt16 × Nat × Bool
  | room, [] => ([], room, false)
  | 0, _ :: _ => ([], 0, false)
  | room + 1, mode :: modes =>
    if mode = 0xffff then listLoop cbMode (room + 1) modes
    else
      let (words, left, seen) := listLoop cbMode room modes
      (mode :: words, left, seen || cbMode = mode.toNat)

/-- The words that `cbvga_list_modes` writes when `last - dest` is `room`. -/
def cbvgaListModes (st : State) (room : Nat) : List UInt16 :=
  let (words, left, seen) :=
    if st.cbMode ≠ 0x03 then listLoop st.cbMode room (st.used.map SvgaMode.mode)
    else ([], room, false)
  if 0 < left ∧ seen = false then words ++ [UInt16.ofInt st.cbMode, 0xffff] else words ++ [0xffff]

def svgaMaxModes : Nat := 128

def appendMode (st : State) (mode : UInt16) (set : VgaMode → VgaMode) : State :=
  { st with
    svgaModes := st.svgaModes.modify st.svgaMcount fun m => ⟨mode, set m.info⟩
    svgaMcount := st.svgaMcount + 1 }

/-- The fields that all five blocks of `add_mode_depths_for_resolution` set. -/
def setGeometry (x y : UInt32) (depth : UInt8) (memmodel : MemModel) (info : VgaMode) : VgaMode :=
  { info with width := x.toUInt16, height := y.toUInt16, depth := depth, memmodel := memmodel }

/-- The address and the pitch are parameters of the source as well, and not used
there either. -/
def addModeDepthsForResolution (st : State) (baseMode : UInt16) (x y : UInt32) (_addr : UInt64)
    (_pitch : UInt32) : State :=
  if st.svgaMcount + 5 > svgaMaxModes then st
  else
    let st := appendMode st (baseMode - 1) fun info =>
      { setGeometry x y 4 .packed info with cwidth := 8, cheight := 16 }
    let st := appendMode st baseMode (setGeometry x y 8 .packed)
    let st := appendMode st (baseMode + 1) (setGeometry x y 16 .direct)
    let st := appendMode st (baseMode + 2) (setGeometry x y 24 .direct)
    appendMode st (baseMode + 3) (setGeometry x y 32 .direct)

def registerEmulatedModes (st : State) (addr : UInt64) (fbX fbY pitch : UInt32) : State :=
  let st := addModeDepthsForResolution st 0x100 640 480 addr pitch
  let st := addModeDepthsForResolution st 0x110 800 600 addr pitch
  let st := addModeDepthsForResolution st 0x120 1024 768 addr pitch
  let st := addModeDepthsForResolution st 0x130 1280 1024 addr pitch
  addModeDepthsForResolution st 0x140 fbX fbY addr pitch

/-- `cbvga_setup_modes`, but for the palette emulator. -/
def cbvgaSetupModes (st : State) (addr : UInt64) (bpp : UInt8)
    (xlines ylines linelength : UInt32) : State :=
  let info : VgaMode :=
    { st.cbModeinfo with
      memmodel := .direct, width := xlines.toUInt16, height := ylines.toUInt16, depth := bpp
      cwidth := 8, cheight := 16 }
  let st : State :=
    { st with
      svgaMcount := 0, cbMode := 0x143
      vbeFramebuffer := addr.toUInt32, vbeTotalMemory := linelength * ylines
      cbLinelength := linelength, cbModeinfo := info, cbEmulinfo := info }
  registerEmulatedModes st addr xlines ylines linelength

/-- `eff_bpp`: the tag's depth, or a guess from the stride. -/
def effBpp (fb : CbFramebuffer) : UInt8 :=
  if fb.bitsPerPixel ≠ 16 ∧ fb.bitsPerPixel ≠ 24 ∧ fb.bitsPerPixel ≠ 32 ∧ fb.xResolution ≠ 0 then
    let bytesPerPx := fb.bytesPerLine / fb.xResolution
    if bytesPerPx = 4 then 32
    else if bytesPerPx = 3 then 24
    else if bytesPerPx = 2 then 16
    else fb.bitsPerPixel
  else fb.bitsPerPixel

def minStride (bpp : UInt8) (xlines : UInt32) : UInt32 :=
  if bpp = 32 then xlines * 4
  else if bpp = 24 then xlines * 3
  else if bpp = 16 then xlines * 2
  else 0

/-- The checks at the end of `cbvga_setup`. -/
def validFramebuffer (fb : CbFramebuffer) : Bool :=
  let bpp := effBpp fb
  let minimum := minStride bpp fb.xResolution
  !(fb.physicalAddress = 0 ∨ fb.physicalAddress > 0xffffffff ∨ fb.bytesPerLine = 0 ∨
    fb.xResolution = 0 ∨ fb.yResolution = 0 ∨ (bpp ≠ 16 ∧ bpp ≠ 24 ∧ bpp ≠ 32) ∨
    (minimum ≠ 0 ∧ fb.bytesPerLine < minimum))

def Masks.empty (m : Masks) : Prop := m.redSize = 0 ∨ m.greenSize = 0 ∨ m.blueSize = 0

instance (m : Masks) : Decidable m.empty := inferInstanceAs (Decidable (_ ∨ _))

/-- The masks of the record, or the usual ones where it has none. -/
def saneMasks (fb : CbFramebuffer) : Masks :=
  let masks : Masks := ⟨fb.redMaskSize, fb.greenMaskSize, fb.blueMaskSize, fb.redMaskPos,
    fb.greenMaskPos, fb.blueMaskPos⟩
  if effBpp fb = 16 ∧ masks.empty then ⟨5, 6, 5, 11, 5, 0⟩
  else if (effBpp fb = 24 ∨ effBpp fb = 32) ∧ masks.empty then ⟨8, 8, 8, 16, 8, 0⟩
  else masks

/-- `SEG_CTEXT`. -/
def segCtext : UInt16 := 0xb800

def textFallback (st : State) : State :=
  { st with
    cbMode := 0x03, cbLinelength := 80 * 2
    cbModeinfo := ⟨.text, 80, 25, 4, 9, 16, segCtext⟩ }

/-- `cbvga_setup` once it has found a record. A record of 24 bits per pixel
without columns makes it divide by zero, which is `none`. -/
def setupFramebuffer (st : State) (fb : CbFramebuffer) : Option State :=
  if fb.bitsPerPixel = 24 ∧ fb.xResolution = 0 then none
  else
    let st := { st with masks := saneMasks fb }
    if validFramebuffer fb then
      some (cbvgaSetupModes st fb.physicalAddress (effBpp fb) fb.xResolution fb.yResolution
        fb.bytesPerLine)
    else some (textFallback st)

/-- The result is the value returned and the state. -/
def cbvgaSetup (mem : Mem) (haveRunInit : Bool) (st : State) : Option (Int × State) :=
  if haveRunInit then some (0, st)
  else
    let cbh := findCbTable mem
    if cbh = 0 then some (-1, st)
    else
      let cbfb := findCbSubtable mem cbh cbTagFramebuffer
      if cbfb = 0 then some (0, textFallback st)
      else (setupFramebuffer st (framebufferAt mem cbfb)).map fun st => (0, st)

theorem tagged_setup (st : State) (fb : CbFramebuffer) :
    setupFramebuffer st fb.tagged = setupFramebuffer st fb := rfl

/-- SeaVGABIOS sets up the framebuffer that csmwrap described. -/
theorem cbvgaSetup_build (mem : Mem) {videoType : VideoType} (hv : videoType ≠ .oprom)
    (fb : CbFramebuffer)
    (hlow : ∀ addr < cbTableStart, addr % 16 = 0 →
      accepted (buildCorebootTable mem videoType fb) addr = false) (st : State) :
    cbvgaSetup (buildCorebootTable mem videoType fb) false st =
      (setupFramebuffer st fb).map fun st => (0, st) := by
  obtain ⟨htable, -, hrecord⟩ := findCbTable_build mem hv fb hlow
  unfold cbvgaSetup
  simp only [htable, hrecord, framebufferAt_build mem hv, tagged_setup]
  rfl

/-! ## The table that is registered -/

/-- What the registration decides about an entry of `svga_modes`. -/
structure Geometry where
  mode : UInt16
  width : UInt16
  height : UInt16
  depth : UInt8
  memmodel : MemModel
  deriving DecidableEq, Repr

def SvgaMode.geometry (m : SvgaMode) : Geometry :=
  ⟨m.mode, m.info.width, m.info.height, m.info.depth, m.info.memmodel⟩

/-- The five depths of one resolution. -/
def depths (baseMode x y : UInt16) : List Geometry :=
  [⟨baseMode - 1, x, y, 4, .packed⟩, ⟨baseMode, x, y, 8, .packed⟩,
    ⟨baseMode + 1, x, y, 16, .direct⟩, ⟨baseMode + 2, x, y, 24, .direct⟩,
    ⟨baseMode + 3, x, y, 32, .direct⟩]

def registered (x y : UInt16) : List Geometry :=
  depths 0x100 640 480 ++ depths 0x110 800 600 ++ depths 0x120 1024 768 ++
    depths 0x130 1280 1024 ++ depths 0x140 x y

/-- The table holds the modes `gs` and nothing else of `base` has changed. -/
structure Registered (base st : State) (gs : List Geometry) : Prop where
  used : st.used.map SvgaMode.geometry = gs
  count : st.svgaMcount = gs.length
  size : st.svgaModes.length = base.svgaModes.length
  rest : { st with svgaModes := base.svgaModes, svgaMcount := base.svgaMcount } = base

theorem take_modify {α : Type*} (l : List α) (f : α → α) {n : Nat} (hn : n < l.length) :
    (l.modify n f).take (n + 1) = l.take n ++ [f l[n]] := by
  have hlen : (l.take n).length = n := List.length_take_of_le hn.le
  rw [List.modify_eq_take_cons_drop hn, List.take_append, hlen, List.take_of_length_le (by omega),
    Nat.add_sub_cancel_left]
  rfl

theorem Registered.append {base st : State} {gs : List Geometry} (h : Registered base st gs)
    (hroom : gs.length < base.svgaModes.length) {g : Geometry} {f : VgaMode → VgaMode}
    (hf : ∀ info, (SvgaMode.mk g.mode (f info)).geometry = g) :
    Registered base (appendMode st g.mode f) (gs ++ [g]) := by
  have hn : st.svgaMcount < st.svgaModes.length := by rw [h.count, h.size]; exact hroom
  refine ⟨?_, ?_, ?_, h.rest⟩
  · unfold State.used
    rw [appendMode, take_modify _ _ hn, List.map_append, ← State.used, h.used]
    exact congrArg (gs ++ [·]) (hf _)
  · rw [appendMode, List.length_append, h.count]; rfl
  · unfold appendMode
    rw [List.length_modify, h.size]

theorem Registered.depths {base st : State} {gs : List Geometry} (h : Registered base st gs)
    (hroom : gs.length + 5 ≤ base.svgaModes.length) (hmax : gs.length + 5 ≤ svgaMaxModes)
    (baseMode : UInt16) (x y : UInt32) (addr : UInt64) (pitch : UInt32) :
    Registered base (addModeDepthsForResolution st baseMode x y addr pitch)
      (gs ++ depths baseMode x.toUInt16 y.toUInt16) := by
  unfold addModeDepthsForResolution
  rw [if_neg (by rw [h.count]; omega)]
  have h1 := h.append (g := ⟨baseMode - 1, x.toUInt16, y.toUInt16, 4, .packed⟩)
    (f := fun info => { setGeometry x y 4 .packed info with cwidth := 8, cheight := 16 })
    (by omega) fun _ => rfl
  have h2 := h1.append (g := ⟨baseMode, x.toUInt16, y.toUInt16, 8, .packed⟩)
    (f := setGeometry x y 8 .packed) (by simp; omega) fun _ => rfl
  have h3 := h2.append (g := ⟨baseMode + 1, x.toUInt16, y.toUInt16, 16, .direct⟩)
    (f := setGeometry x y 16 .direct) (by simp; omega) fun _ => rfl
  have h4 := h3.append (g := ⟨baseMode + 2, x.toUInt16, y.toUInt16, 24, .direct⟩)
    (f := setGeometry x y 24 .direct) (by simp; omega) fun _ => rfl
  have h5 := h4.append (g := ⟨baseMode + 3, x.toUInt16, y.toUInt16, 32, .direct⟩)
    (f := setGeometry x y 32 .direct) (by simp; omega) fun _ => rfl
  simp only [List.append_assoc] at h5
  exact h5

theorem registered_emulated (st : State) (hcount : st.svgaMcount = 0)
    (hsize : 25 ≤ st.svgaModes.length) (addr : UInt64) (fbX fbY pitch : UInt32) :
    Registered st (registerEmulatedModes st addr fbX fbY pitch)
      (registered fbX.toUInt16 fbY.toUInt16) := by
  have h0 : Registered st st [] := ⟨by simp [State.used, hcount], hcount, rfl, rfl⟩
  have hlen : ∀ b x y, (depths b x y).length = 5 := fun _ _ _ => rfl
  have h1 := h0.depths (by simp; omega) (by decide) 0x100 640 480 addr pitch
  have h2 := h1.depths (by simp [hlen]; omega) (by simp [hlen, svgaMaxModes]) 0x110 800 600 addr
    pitch
  have h3 := h2.depths (by simp [hlen]; omega) (by simp [hlen, svgaMaxModes]) 0x120 1024 768 addr
    pitch
  have h4 := h3.depths (by simp [hlen]; omega) (by simp [hlen, svgaMaxModes]) 0x130 1280 1024 addr
    pitch
  exact h4.depths (by simp [hlen]; omega) (by simp [hlen, svgaMaxModes]) 0x140 fbX fbY addr pitch

/-- What setting up an accepted framebuffer leaves behind. -/
structure Installed (fb : CbFramebuffer) (st : State) : Prop where
  used : st.used.map SvgaMode.geometry =
    registered fb.xResolution.toUInt16 fb.yResolution.toUInt16
  cbMode : st.cbMode = 0x143
  native : SvgaMode.geometry ⟨0x143, st.cbModeinfo⟩ =
    ⟨0x143, fb.xResolution.toUInt16, fb.yResolution.toUInt16, effBpp fb, .direct⟩
  linelength : st.cbLinelength = fb.bytesPerLine
  framebuffer : st.vbeFramebuffer = fb.physicalAddress.toUInt32
  totalMemory : st.vbeTotalMemory = fb.bytesPerLine * fb.yResolution

theorem xResolution_ne_zero {fb : CbFramebuffer} (hv : validFramebuffer fb = true) :
    fb.xResolution ≠ 0 := by
  intro h
  simp [validFramebuffer, h] at hv

theorem installed_setup {st : State} {fb : CbFramebuffer} (hv : validFramebuffer fb = true)
    (hsize : 25 ≤ st.svgaModes.length) :
    ∃ st', setupFramebuffer st fb = some st' ∧ Installed fb st' := by
  have hx : ¬ (fb.bitsPerPixel = 24 ∧ fb.xResolution = 0) := fun h => xResolution_ne_zero hv h.2
  unfold setupFramebuffer
  rw [if_neg hx]
  dsimp only
  rw [if_pos hv]
  refine ⟨_, rfl, ?_⟩
  rw [cbvgaSetupModes]
  generalize hst : State.mk _ _ _ _ _ _ _ _ _ _ = base
  have h := registered_emulated base (by rw [← hst]) (by rw [← hst]; exact hsize)
    fb.physicalAddress fb.xResolution fb.yResolution fb.bytesPerLine
  generalize registerEmulatedModes base _ _ _ _ = st' at h
  refine ⟨h.used, (congrArg State.cbMode h.rest).trans ?_,
    (congrArg (fun st => SvgaMode.geometry ⟨0x143, st.cbModeinfo⟩) h.rest).trans ?_,
    (congrArg State.cbLinelength h.rest).trans ?_, (congrArg State.vbeFramebuffer h.rest).trans ?_,
    (congrArg State.vbeTotalMemory h.rest).trans ?_⟩
  all_goals rw [← hst]
  rfl

/-- A member of a table of distinct modes is found under its mode. -/
theorem find?_mode {gs : List Geometry} (hnodup : (gs.map Geometry.mode).Nodup) {g : Geometry}
    (hg : g ∈ gs) (hend : g.mode ≠ 0xffff) :
    (gs.find? fun h => h.mode ≠ 0xffff ∧ (h.mode.toNat : Int) = g.mode.toNat) = some g := by
  induction gs with
  | nil => cases hg
  | cons h gs ih =>
    obtain ⟨hnot, hrest⟩ := List.nodup_cons.mp hnodup
    rcases List.mem_cons.mp hg with rfl | hmem
    · rw [List.find?_cons_of_pos (by simp [hend])]
    · have hne : h.mode ≠ g.mode := fun e => hnot (e ▸ List.mem_map_of_mem hmem)
      rw [List.find?_cons_of_neg, ih hrest hmem]
      simp only [decide_eq_true_eq, not_and]
      intro _ e
      exact hne (UInt16.toNat_inj.mp (Int.ofNat_inj.mp e))

theorem registered_modes (x y : UInt16) :
    (registered x y).map Geometry.mode =
      [0xff, 0x100, 0x101, 0x102, 0x103, 0x10f, 0x110, 0x111, 0x112, 0x113, 0x11f, 0x120, 0x121,
        0x122, 0x123, 0x12f, 0x130, 0x131, 0x132, 0x133, 0x13f, 0x140, 0x141, 0x142, 0x143] :=
  rfl

/-- The mode list of `vbe_104f00` has room for 111 words, with the terminator. -/
def vbeListRoom : Nat := 110

section
variable {fb : CbFramebuffer} {st : State} (hi : Installed fb st)
include hi

theorem Installed.listed :
    cbvgaListModes st vbeListRoom =
      (registered fb.xResolution.toUInt16 fb.yResolution.toUInt16).map Geometry.mode ++
        [0xffff] := by
  have hmodes : st.used.map SvgaMode.mode =
      (registered fb.xResolution.toUInt16 fb.yResolution.toUInt16).map Geometry.mode := by
    rw [← hi.used, List.map_map]
    rfl
  unfold cbvgaListModes
  rw [hmodes, hi.cbMode, registered_modes]
  decide

/-- The number of the native mode is the table's last entry, but leads to
`CBmodeinfo`. -/
theorem Installed.find_native :
    ∃ vmode, cbvgaFindMode st 0x143 = some vmode ∧ SvgaMode.geometry ⟨0x143, vmode⟩ =
      ⟨0x143, fb.xResolution.toUInt16, fb.yResolution.toUInt16, effBpp fb, .direct⟩ :=
  ⟨st.cbModeinfo, by rw [cbvgaFindMode, if_pos hi.cbMode.symm], hi.native⟩

theorem Installed.find_registered {g : Geometry}
    (hg : g ∈ registered fb.xResolution.toUInt16 fb.yResolution.toUInt16)
    (hne : g.mode ≠ 0x143) :
    ∃ vmode, cbvgaFindMode st g.mode.toNat = some vmode ∧
      SvgaMode.geometry ⟨g.mode, vmode⟩ = g := by
  have hnodup : ((registered fb.xResolution.toUInt16 fb.yResolution.toUInt16).map
      Geometry.mode).Nodup := by rw [registered_modes]; decide
  have hall : ∀ m ∈ (registered fb.xResolution.toUInt16 fb.yResolution.toUInt16).map Geometry.mode,
      m ≠ 0xffff ∧ (m.toNat : Int) ≠ 0x03 := by
    rw [registered_modes, ← List.all_iff_forall_prop]
    decide
  obtain ⟨hend, htext⟩ := hall _ (List.mem_map_of_mem hg)
  have hcb : ((g.mode.toNat : Nat) : Int) ≠ st.cbMode := by
    rw [hi.cbMode]
    intro e
    exact hne (UInt16.toNat_inj.mp (Int.ofNat_inj.mp e))
  have hfind := find?_mode hnodup hg hend
  rw [← hi.used, List.find?_map] at hfind
  obtain ⟨m, hm, hgeo⟩ := Option.map_eq_some_iff.mp hfind
  refine ⟨m.info, ?_, ?_⟩
  · unfold cbvgaFindMode
    rw [if_neg hcb, if_neg htext]
    exact congrArg (Option.map SvgaMode.info) hm
  · have hmode : g.mode = m.mode := by rw [← hgeo]; rfl
    rw [hmode]
    exact hgeo

end

end CsmWrap.Vga
