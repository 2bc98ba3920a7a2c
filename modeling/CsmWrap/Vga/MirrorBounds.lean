import CsmWrap.Vga.Flush
import CsmWrap.Vga.MirrorFollows
import CsmWrap.Vga.PaletteRuns
import CsmWrap.Vga.RomVariables

/-!
# The mirror stays within video memory

The drawing functions of `cbvga.c` compute addresses from what they are given, and
check nothing. What keeps them within video memory is that text modes and depths
that can be drawn never come together: after an accepted record no mode is a text
mode, and after any other outcome of the setup the depth is one that is not drawn. But
the depth is a variable of the ROM at C0000h, and the segment of text memory reaches into
it: B800:8000h is C000:0. Nothing limits the position of a character, so all this holds for
as long as characters stay below 8000h.
-/

namespace CsmWrap.Vga
open Coreboot Memory AccessTrace

section
variable (cb : State) (e : Emul) (charHeight : UInt16)

/-- The address of a row of pixels of a cell, in arithmetic of 32 bits. -/
def cellBase (cx cy : UInt16) (row : Int) : UInt32 :=
  cb.vbeFramebuffer + UInt32.ofInt (cy.toNat * charHeight.toNat + row) * cb.cbLinelength +
    UInt32.ofInt (cx.toNat * cb.cbModeinfo.cwidth.toNat * (cb.cbModeinfo.depth.toNat / 8))

/-- `((u32*)base)[col] = argb` and its forms for less depth; the bytes of 24 bits are in
the order blue, green, red. -/
def putCell (base : UInt32) (col : Nat) (argb : UInt32) : Prog Unit :=
  if cb.cbModeinfo.depth = 32 then
    put (base + 4 * UInt32.ofNat col).toNat (leBytes 4 argb.toNat)
  else if cb.cbModeinfo.depth = 24 then
    put (base + 3 * UInt32.ofNat col).toNat
      [argb.toUInt8, (argb >>> 8).toUInt8, (argb >>> 16).toUInt8]
  else if cb.cbModeinfo.depth = 16 then
    put (base + 2 * UInt32.ofNat col).toNat
      (leBytes 2 (packRgb16 (argb >>> 16).toUInt8 (argb >>> 8).toUInt8 argb.toUInt8
        cb.masks).toNat)
  else pure ()

/-- `font` is what `get_font_data` leads to. -/
def cbvgaRenderChar (font : UInt8 → Nat → UInt8) (cx cy : UInt16) (ch attr : UInt8) : Prog Unit :=
  loop (fun (row : Nat) =>
    let base := cellBase cb charHeight cx cy row
    loop (fun (col : Nat) =>
      putCell cb base col
        (if (font ch row).toUInt32 &&& (0x80 : UInt32) >>> UInt32.ofNat col ≠ 0 then
          e.lookup (attr &&& 0x0f)
        else e.lookup (background attr)))
      (List.range cb.cbModeinfo.cwidth.toNat))
    (List.range charHeight.toNat)

def cbvgaClearRegion (x y cols rows : UInt16) (attr : UInt8) : Prog Unit :=
  loop (fun (row : Nat) =>
    let base := cellBase cb charHeight x y row
    loop (fun (col : Nat) => putCell cb base col (e.lookup (background attr)))
      (List.range (cols.toNat * cb.cbModeinfo.cwidth.toNat)))
    (List.range (rows.toNat * charHeight.toNat))

/-- A channel of 16 bits as eight bits, inverted. -/
def invertChannel (pix : UInt16) (pos size : UInt8) : UInt8 :=
  let value := pix.toUInt32 >>> pos.toUInt32 &&& (1 <<< size.toUInt32) - 1
  0xff - (value <<< (8 - size.toUInt32)).toUInt8

/-- One pixel of the cursor. -/
def invertCell (base : UInt32) (col : Nat) : Prog Unit :=
  if cb.cbModeinfo.depth = 32 then do
    let p : Int := (base + 4 * UInt32.ofNat col).toNat
    let pix ← fetch32 p
    put p (leBytes 4 (pix ^^^ 0x00ffffff).toNat)
  else if cb.cbModeinfo.depth = 24 then do
    let p : Int := (base + 3 * UInt32.ofNat col).toNat
    loop (fun (i : Nat) => do
      let c ← fetch8 (p + i)
      put (p + i) [0xff - c]) [0, 1, 2]
  else if cb.cbModeinfo.depth = 16 then do
    let p : Int := (base + 2 * UInt32.ofNat col).toNat
    let pix ← fetch16 p
    put p (leBytes 2 (packRgb16 (invertChannel pix cb.masks.redPos cb.masks.redSize)
      (invertChannel pix cb.masks.greenPos cb.masks.greenSize)
      (invertChannel pix cb.masks.bluePos cb.masks.blueSize) cb.masks).toNat)
  else pure ()

/-- The last row is clamped to the cell. -/
def cbvgaDrawCursor (cx cy : UInt16) (start stop : Int) : Prog Unit :=
  let stop : Int := if stop ≥ charHeight.toNat then charHeight.toNat - 1 else stop
  if start > stop then pure ()
  else
    loop (fun (row : Int) =>
      let base := cellBase cb charHeight cx cy row
      loop (invertCell cb base) (List.range cb.cbModeinfo.cwidth.toNat))
      (Int.range start (stop + 1))

end

/-- `BF_EMULATE_TEXT`, `BF_SWCURSOR` and `BF_EXTRA_STACK`. -/
def bfEmulateText : UInt8 := 0x10
def bfSwcursor : UInt8 := 0x20
def bfExtraStack : UInt8 := 0x40

def mfLegacy : UInt32 := 0x0001

/-- The video BIOS with the current mode, which the data area points to, and what else
it reads from there. -/
structure VideoBios where
  machine : Machine
  curmode : Option VgaMode
  bios : Bios
  videoPage : UInt8
  charHeight : UInt16
  flags : UInt8

def calcPageSize (memmodel : MemModel) (width height : UInt16) : Nat :=
  match memmodel with
  | .text => (width.toNat * height.toNat * 2 + 0x7ff) / 0x800 * 0x800
  | .cga => 16 * 1024
  | _ => (width.toNat * height.toNat / 8 + 0x1fff) / 0x2000 * 0x2000

/-- `MASK_BDA_EXT(flags, bit, on ? bit : 0)`. -/
def maskFlag (flags bit : UInt8) (on : Bool) : UInt8 := flags &&& ~~~bit ||| if on then bit else 0

/-- `vgahw_find_mode` has returned `CBemulinfo`, or there is text only. -/
def emulatesText (cb : State) (mode : UInt16) : Bool :=
  (mode.toNat : Int) ≠ cb.cbMode ∧ mode = 0x03 ∨ cb.cbMode = 0x03

/-- The data area and text memory after a mode set. -/
def modeBios (cb : State) (b : Bios) (vmode : VgaMode) (emulate : Bool) (flags : UInt32) :
    Bios where
  videoCols := if vmode.memmodel = .text then vmode.width else vmode.width / vmode.cwidth.toUInt16
  videoRows :=
    if vmode.memmodel = .text then (vmode.height - 1).toUInt8
    else (vmode.height / vmode.cheight.toUInt16 - 1).toUInt8
  videoPagesize := UInt16.ofNat (calcPageSize vmode.memmodel vmode.width vmode.height)
  cursorType := if vmode.memmodel = .text ∨ emulate then 0x0607 else 0
  cursorPos := fun page => if page < 8 then 0 else b.cursorPos page
  vram :=
    if flags &&& mfNoclearmem = 0 ∧ cb.cbModeinfo.memmodel = .text then
      memset16Far b.vram 0 0x20 0x07 (80 * 25 * 2)
    else b.vram

/-- `vga_set_mode`. In a mode of graphics it divides by the size of a character. -/
def VideoBios.vgaSetMode (v : VideoBios) (mode : UInt16) (flags : UInt32) :
    Option (UInt8 × VideoBios) :=
  match cbvgaFindMode v.machine.cb mode.toNat with
  | none => some (vbeReturnStatusFailed, v)
  | some vmode =>
    if vmode.memmodel ≠ .text ∧ (vmode.cwidth = 0 ∨ vmode.cheight = 0) then none
    else
      let emulate := emulatesText v.machine.cb mode
      some (0,
        { machine := (Vga.vgaSetMode v.machine mode flags).2
          curmode := some vmode
          bios := modeBios v.machine.cb v.bios vmode emulate flags
          videoPage := 0
          charHeight := vmode.cheight.toUInt16
          flags := maskFlag (maskFlag v.flags bfEmulateText emulate) bfExtraStack
            (flags &&& mfLegacy ≠ 0) })

/-- A call into `vgafb.c`. In a mode of graphics it draws by other means. -/
def VideoBios.vgafb (v : VideoBios) (call : VgafbCall) : VideoBios × List MirrorOp :=
  match v.curmode with
  | none => (v, [])
  | some vmode =>
    if vmode.memmodel ≠ .text then (v, [])
    else
      let (b, ops) := call.run v.bios
      ({ v with bios := b }, ops)

/-- The character is read from the first page, whichever is shown. -/
def cbvgaHideCursor (b : Bios) (cx cy : UInt16) : MirrorOp :=
  let c := vgafbReadChar b ⟨cx.toUInt8, cy.toUInt8, 0⟩
  .renderChar cx cy c.ch c.attr

def VideoBios.setSwcursor (v : VideoBios) (enable : Bool) : VideoBios × List MirrorOp :=
  if decide (v.flags &&& bfSwcursor ≠ 0) = enable then (v, [])
  else
    match v.curmode with
    | none => (v, [])
    | some vmode =>
      let cp := getCursorPos v.bios v.videoPage
      if cp.x.toUInt16 ≥ v.bios.videoCols ∨ cp.y > v.bios.videoRows ∨
          v.bios.cursorType ≥ 0x2000 then (v, [])
      else
        let v : VideoBios := { v with flags := maskFlag v.flags bfSwcursor enable }
        if vmode.memmodel ≠ .text then (v, [])
        else
          let dest := textAddress v.bios cp + 1
          let attr := v.bios.vram dest >>> 4 ||| v.bios.vram dest <<< 4
          let b : Bios := { v.bios with vram := Function.update v.bios.vram dest attr }
          let start : UInt8 := (b.cursorType >>> 8).toUInt8
          let stop : UInt8 := b.cursorType.toUInt8
          let op : MirrorOp :=
            if enable then .drawCursor cp.x.toUInt16 cp.y.toUInt16 attr start.toNat stop.toNat
            else cbvgaHideCursor b cp.x.toUInt16 cp.y.toUInt16
          ({ v with bios := b }, [op])

/-- What the services of INT 10h and the timer come down to. -/
inductive VideoCall where
  | setMode (mode : UInt16) (flags : UInt32)
  | vgafb (call : VgafbCall)
  | setSwcursor (enable : Bool)
  /-- The current mode is restored with `bda_save_restore`. -/
  | restoreMode (vbeMode : UInt16)
  /-- The data area, or text memory, is changed by any other means. -/
  | store (bios : Bios) (videoPage : UInt8) (charHeight : UInt16)

/-- The state after a call, and what the call draws. -/
def VideoBios.step (v : VideoBios) : VideoCall → Option (VideoBios × List MirrorOp)
  | .setMode mode flags => (v.vgaSetMode mode flags).map fun (_, v) => (v, [])
  | .vgafb call => some (v.vgafb call)
  | .setSwcursor enable => some (v.setSwcursor enable)
  | .restoreMode vbeMode =>
    some ({ v with curmode := cbvgaFindMode v.machine.cb (vbeMode &&& ~~~mfVbeflags).toNat }, [])
  | .store bios videoPage charHeight =>
    some ({ v with bios := bios, videoPage := videoPage, charHeight := charHeight }, [])

def VideoBios.run (v : VideoBios) (calls : List VideoCall) : Option VideoBios :=
  calls.foldlM (fun v call => (v.step call).map Prod.fst) v

def MirrorOp.draw (v : VideoBios) (font : UInt8 → Nat → UInt8) : MirrorOp → Prog Unit
  | renderChar cx cy ch attr =>
    cbvgaRenderChar v.machine.cb v.machine.emul v.charHeight font cx cy ch attr
  | clearRegion x y cols rows attr =>
    cbvgaClearRegion v.machine.cb v.machine.emul v.charHeight x y cols rows attr
  | drawCursor cx cy _ start stop => cbvgaDrawCursor v.machine.cb v.charHeight cx cy start stop

/-- A depth for which the drawing functions have a case. -/
def Drawn (depth : UInt8) : Prop := depth = 32 ∨ depth = 24 ∨ depth = 16

/-- What is stored lies in video memory. -/
def InVideoMemory (cb : State) (acc : Access) : Prop :=
  acc.kind = .write → (cb.vbeFramebuffer.toNat : Int) ≤ acc.addr ∧
    acc.addr + acc.len ≤
      cb.vbeFramebuffer.toNat + cb.cbLinelength.toNat * cb.cbModeinfo.height.toNat

section
variable {cb : State} (hdepth : ¬ Drawn cb.cbModeinfo.depth) {P : Access → Prop}
include hdepth

theorem putCell_undrawn (base : UInt32) (col : Nat) (argb : UInt32) :
    putCell cb base col argb = pure () := by
  simp only [Drawn, not_or] at hdepth
  rw [putCell, if_neg hdepth.1, if_neg hdepth.2.1, if_neg hdepth.2.2]

theorem invertCell_undrawn (base : UInt32) (col : Nat) : invertCell cb base col = pure () := by
  simp only [Drawn, not_or] at hdepth
  rw [invertCell, if_neg hdepth.1, if_neg hdepth.2.1, if_neg hdepth.2.2]

/-- With such a depth nothing is accessed, wherever it would be. -/
theorem runs_undrawn {v : VideoBios} (hv : v.machine.cb = cb) (font : UInt8 → Nat → UInt8)
    (op : MirrorOp) (m : Mem) : Runs P (op.draw v font) m fun _ _ => True := by
  subst hv
  cases op with
  | renderChar cx cy ch attr =>
    apply Runs.loops_within
    intro row _ col _ m
    rw [putCell_undrawn hdepth]
    exact Runs.pure trivial
  | clearRegion x y cols rows attr =>
    apply Runs.loops_within
    intro row _ col _ m
    rw [putCell_undrawn hdepth]
    exact Runs.pure trivial
  | drawCursor cx cy attr start stop =>
    rw [MirrorOp.draw, cbvgaDrawCursor]
    dsimp only
    generalize (if stop ≥ v.charHeight.toNat then (v.charHeight.toNat : Int) - 1 else stop) = last
    split
    · exact Runs.pure trivial
    · apply Runs.loops_within
      intro row _ col _ m
      rw [invertCell_undrawn hdepth]
      exact Runs.pure trivial

end

/-! ## Modes after the setup -/

/-- No text mode is found, or none is drawn. -/
def Quiet (cb : State) : Prop :=
  (∀ mode vmode, cbvgaFindMode cb mode = some vmode → vmode.memmodel ≠ .text) ∨
    ¬ Drawn cb.cbModeinfo.depth

/-- The globals as they are loaded. -/
structure State.Loaded (cb : State) : Prop where
  table : 25 ≤ cb.svgaModes.length
  depth : cb.cbModeinfo.depth = 0

theorem registered_not_text {x y : UInt16} {g : Geometry} (hg : g ∈ registered x y) :
    g.memmodel ≠ .text := by
  have hall : ∀ model ∈ (registered x y).map Geometry.memmodel, model ≠ .text := by
    rw [← List.all_iff_forall_prop]
    rfl
  exact hall _ (List.mem_map_of_mem hg)

theorem quiet_accepted {fb : CbFramebuffer} {st cb : State} (hv : validFramebuffer fb = true)
    (hsize : 25 ≤ st.svgaModes.length) (hsetup : setupFramebuffer st fb = some cb) : Quiet cb := by
  obtain ⟨st', hst', hi⟩ := installed_setup hv hsize
  cases hst'.symm.trans hsetup
  have hnative : cb.cbModeinfo.memmodel = .direct := congrArg Geometry.memmodel hi.native
  refine .inl fun mode vmode hfind => ?_
  unfold cbvgaFindMode at hfind
  split at hfind
  · cases hfind
    rw [hnative]
    decide
  · split at hfind
    · cases hfind
      rw [emulinfo_setup hv hsize hsetup, hnative]
      decide
    · obtain ⟨m, hm, rfl⟩ := Option.map_eq_some_iff.mp hfind
      have hused : m.geometry ∈ cb.used.map SvgaMode.geometry :=
        List.mem_map_of_mem (List.mem_of_find?_eq_some hm)
      rw [hi.used] at hused
      exact registered_not_text hused

theorem quiet_textFallback (st : State) : Quiet (textFallback st) :=
  .inr (show ¬ Drawn 4 by unfold Drawn; decide)

theorem quiet_setupFramebuffer {fb : CbFramebuffer} {st cb : State}
    (hsize : 25 ≤ st.svgaModes.length) (hsetup : setupFramebuffer st fb = some cb) : Quiet cb := by
  by_cases hv : validFramebuffer fb = true
  · exact quiet_accepted hv hsize hsetup
  · by_cases hzero : fb.bitsPerPixel = 24 ∧ fb.xResolution = 0
    · rw [setupFramebuffer, if_pos hzero] at hsetup
      cases hsetup
    · rw [setupFramebuffer, if_neg hzero] at hsetup
      dsimp only at hsetup
      rw [if_neg hv] at hsetup
      cases hsetup
      exact quiet_textFallback _

theorem quiet_setup {mem : Mem} {haveRunInit : Bool} {st cb : State} {ret : Int}
    (hload : st.Loaded) (hsetup : cbvgaSetup mem haveRunInit st = some (ret, cb)) : Quiet cb := by
  have hloaded : Quiet st := by
    refine .inr ?_
    rw [hload.depth]
    unfold Drawn
    decide
  unfold cbvgaSetup at hsetup
  split at hsetup
  · cases hsetup
    exact hloaded
  · dsimp only at hsetup
    split at hsetup
    · cases hsetup
      exact hloaded
    · split at hsetup
      · cases hsetup
        exact quiet_textFallback st
      · obtain ⟨cb', hrecord, heq⟩ := Option.map_eq_some_iff.mp hsetup
        cases heq
        exact quiet_setupFramebuffer hload.table hrecord

/-- The globals are those of the setup, and the current mode is one that is found. -/
structure Settled (cb : State) (v : VideoBios) : Prop where
  globals : v.machine.cb = cb
  mode : ∀ vmode, v.curmode = some vmode → ∃ mode, cbvgaFindMode cb mode = some vmode

theorem cb_vgaSetMode (m : Machine) (mode : UInt16) (flags : UInt32) :
    (vgaSetMode m mode flags).2.cb = m.cb := by
  unfold vgaSetMode
  split <;> rfl

theorem vgafb_kept (v : VideoBios) (call : VgafbCall) :
    (v.vgafb call).1.machine = v.machine ∧ (v.vgafb call).1.curmode = v.curmode := by
  unfold VideoBios.vgafb
  split
  · exact ⟨rfl, rfl⟩
  · split <;> exact ⟨rfl, rfl⟩

theorem setSwcursor_kept (v : VideoBios) (enable : Bool) :
    (v.setSwcursor enable).1.machine = v.machine ∧
      (v.setSwcursor enable).1.curmode = v.curmode := by
  unfold VideoBios.setSwcursor
  split
  · exact ⟨rfl, rfl⟩
  · split
    · exact ⟨rfl, rfl⟩
    · dsimp only
      split
      · exact ⟨rfl, rfl⟩
      · split <;> exact ⟨rfl, rfl⟩

theorem Settled.congr {cb : State} {v v' : VideoBios} (h : Settled cb v)
    (hmachine : v'.machine = v.machine) (hmode : v'.curmode = v.curmode) : Settled cb v' :=
  ⟨hmachine ▸ h.globals, hmode ▸ h.mode⟩

theorem Settled.step {cb : State} {v v' : VideoBios} {call : VideoCall} {ops : List MirrorOp}
    (h : Settled cb v) (hstep : v.step call = some (v', ops)) : Settled cb v' := by
  cases call with
  | setMode mode flags =>
    obtain ⟨⟨ret, w⟩, hset, heq⟩ := Option.map_eq_some_iff.mp hstep
    cases heq
    unfold VideoBios.vgaSetMode at hset
    split at hset
    · cases hset
      exact h
    · next vmode hfind =>
      split at hset
      · cases hset
      · cases hset
        refine ⟨(cb_vgaSetMode _ mode flags).trans h.globals, fun vmode' hmode => ?_⟩
        cases hmode
        exact ⟨mode.toNat, h.globals ▸ hfind⟩
  | vgafb call =>
    have hv := congrArg Prod.fst (Option.some.inj hstep)
    obtain ⟨hmachine, hmode⟩ := vgafb_kept v call
    rw [hv] at hmachine hmode
    exact h.congr hmachine hmode
  | setSwcursor enable =>
    have hv := congrArg Prod.fst (Option.some.inj hstep)
    obtain ⟨hmachine, hmode⟩ := setSwcursor_kept v enable
    rw [hv] at hmachine hmode
    exact h.congr hmachine hmode
  | restoreMode vbeMode =>
    cases hstep
    refine ⟨h.globals, fun vmode hmode => ⟨(vbeMode &&& ~~~mfVbeflags).toNat, ?_⟩⟩
    rw [← h.globals]
    exact hmode
  | store bios videoPage charHeight =>
    cases hstep
    exact ⟨h.globals, h.mode⟩

theorem Settled.run {cb : State} {v v' : VideoBios} (h : Settled cb v) {calls : List VideoCall}
    (hrun : v.run calls = some v') : Settled cb v' := by
  induction calls generalizing v with
  | nil =>
    cases hrun
    exact h
  | cons call calls ih =>
    obtain ⟨w, hcall, hrest⟩ := Option.bind_eq_some_iff.mp hrun
    obtain ⟨⟨_, ops⟩, hstep, rfl⟩ := Option.map_eq_some_iff.mp hcall
    exact ih (h.step hstep) hrest

/-- Only in a text mode is anything drawn. -/
theorem step_text {v v' : VideoBios} {call : VideoCall} {ops : List MirrorOp}
    (hstep : v.step call = some (v', ops)) {op : MirrorOp} (hop : op ∈ ops) :
    ∃ vmode, v.curmode = some vmode ∧ vmode.memmodel = .text := by
  cases call with
  | setMode mode flags =>
    obtain ⟨_, _, heq⟩ := Option.map_eq_some_iff.mp hstep
    cases heq
    cases hop
  | vgafb call =>
    obtain rfl : (v.vgafb call).2 = ops := congrArg Prod.snd (Option.some.inj hstep)
    unfold VideoBios.vgafb at hop
    split at hop
    · cases hop
    · next vmode hmode =>
      split at hop
      · cases hop
      · next htext => exact ⟨vmode, hmode, not_not.mp htext⟩
  | setSwcursor enable =>
    obtain rfl : (v.setSwcursor enable).2 = ops := congrArg Prod.snd (Option.some.inj hstep)
    unfold VideoBios.setSwcursor at hop
    split at hop
    · cases hop
    · split at hop
      · cases hop
      · next vmode hmode =>
        dsimp only at hop
        split at hop
        · cases hop
        · split at hop
          · cases hop
          · next htext => exact ⟨vmode, hmode, not_not.mp htext⟩
  | restoreMode vbeMode =>
    cases hstep
    cases hop
  | store bios videoPage charHeight =>
    cases hstep
    cases hop

/-- What a change of text memory leaves in the ROM, whose first 32 KiB are the second half of
the segment. -/
def textStored (before after : Mem) : Int → Option UInt8 := romStored 0x8000 0x8000 before after

/-- The call, and then the globals as text memory has left them. A call draws after all its
stores to text memory. -/
def RomLayout.step (l : RomLayout) (v : VideoBios) (call : VideoCall) :
    Option (VideoBios × List MirrorOp) :=
  (v.step call).map fun (w, ops) =>
    ({ w with
        machine :=
          { w.machine with
            cb := l.overwrite (textStored v.bios.vram w.bios.vram) w.machine.cb } }, ops)

def RomLayout.run (l : RomLayout) (v : VideoBios) (calls : List VideoCall) : Option VideoBios :=
  calls.foldlM (fun v call => (l.step v call).map Prod.fst) v

/-- The bytes of some rows are below the ROM. -/
def RowsBelow (b : Bios) (cp size : CursorPos) : Prop :=
  ∀ k < size.y.toNat, ∀ i < size.x.toNat * 2,
    textAddress b cp + k * (b.videoCols.toNat * 2) + i < 0x8000

/-- The part of a window that a scroll clears, as `vgafb_scroll` has it. -/
def clearedAt (win winsize : CursorPos) (lines : Int) : CursorPos :=
  if lines > 0 then ⟨win.x, UInt8.ofInt (win.y.toNat + winsize.y.toNat - lines), 0⟩
  else ⟨win.x, win.y, 0⟩

def VgafbCall.Below (b : Bios) : VgafbCall → Prop
  | writeChar cp _ => textAddress b cp + 1 < 0x8000
  | scroll win winsize lines _ =>
    RowsBelow b win winsize ∧ (lines ≠ 0 →
      RowsBelow b (clearedAt win winsize lines) ⟨winsize.x, UInt8.ofInt |lines|, 0⟩)

/-- What a call stores to text memory is below the ROM. -/
def VideoCall.Below (v : VideoBios) : VideoCall → Prop
  | setMode .. | restoreMode _ => True
  | vgafb call => call.Below v.bios
  | setSwcursor _ => textAddress v.bios (getCursorPos v.bios v.videoPage) + 1 < 0x8000
  | store bios _ _ => ∀ a, 0x8000 ≤ a → bios.vram a = v.bios.vram a

/-- So it is for each call of a run. -/
def RomLayout.BelowRun (l : RomLayout) : VideoBios → List VideoCall → Prop
  | _, [] => True
  | v, call :: calls =>
    call.Below v ∧ ∀ w ops, l.step v call = some (w, ops) → l.BelowRun w calls

theorem RowsBelow.miss {b : Bios} {cp size : CursorPos} (h : RowsBelow b cp size) {a : Nat}
    (ha : 0x8000 ≤ a) : RowsMiss (b.videoCols.toNat * 2) (textAddress b cp) (size.x.toNat * 2)
      size.y.toNat a := by
  intro k hk i hi
  have hlt := h k hk i hi
  have hoffset := offset_natCast _ (by omega : textAddress b cp + k * (b.videoCols.toNat * 2) + i <
    0x10000)
  push_cast at hoffset
  rw [hoffset]
  omega

section
variable {b : Bios} {win winsize : CursorPos} {a : Nat} (ha : 0x8000 ≤ a)
include ha

theorem vgafbMoveChars_above (h : RowsBelow b win winsize) (lines : Int) :
    (vgafbMoveChars b win winsize lines).vram a = b.vram a :=
  memmoveStride_outside (h.miss ha) ..

theorem vgafbClearChars_above (h : RowsBelow b win winsize) (ca : CarAttr) :
    (vgafbClearChars b win winsize ca).1.vram a = b.vram a :=
  memset16Stride_outside (h.miss ha) ..

/-- Text memory above the screen is left alone. -/
theorem vgafbCall_above {call : VgafbCall} (h : call.Below b) :
    (call.run b).1.vram a = b.vram a := by
  cases call with
  | writeChar cp ca =>
    change textAddress b cp + 1 < 0x8000 at h
    apply store_outside
    split <;> simp <;> omega
  | scroll win winsize lines ca =>
    obtain ⟨hmove, hclear⟩ := h
    unfold VgafbCall.run vgafbScroll
    dsimp only
    split
    · exact vgafbClearChars_above ha hmove ca
    · next hne =>
      have hrows := hclear hne
      unfold clearedAt at hrows
      split
      · next hpos =>
        rw [if_pos hpos, abs_of_pos hpos] at hrows
        have hmoved : RowsBelow (vgafbMoveChars b win winsize lines) _ _ := hrows
        exact (vgafbClearChars_above ha hmoved ca).trans (vgafbMoveChars_above ha hmove lines)
      · next hpos =>
        rw [if_neg hpos, abs_of_neg (by omega)] at hrows
        have hmoved : RowsBelow (vgafbMoveChars b win winsize (- -lines)) _ _ := hrows
        exact (vgafbClearChars_above ha hmoved ca).trans (vgafbMoveChars_above ha hmove _)

end

theorem modeBios_above (cb : State) (b : Bios) (vmode : VgaMode) (emulate : Bool) (flags : UInt32)
    {a : Nat} (ha : 0x8000 ≤ a) : (modeBios cb b vmode emulate flags).vram a = b.vram a := by
  unfold modeBios
  dsimp only
  split
  · apply memset16Far_outside
    intro i hi
    have hoffset := offset_natCast i (by omega)
    rw [zero_add, hoffset]
    omega
  · rfl

theorem setSwcursor_above {v : VideoBios}
    (h : textAddress v.bios (getCursorPos v.bios v.videoPage) + 1 < 0x8000) (enable : Bool)
    {a : Nat} (ha : 0x8000 ≤ a) : (v.setSwcursor enable).1.bios.vram a = v.bios.vram a := by
  unfold VideoBios.setSwcursor
  split
  · rfl
  · split
    · rfl
    · dsimp only
      split
      · rfl
      · split
        · rfl
        · exact Function.update_of_ne (show a ≠ _ by omega) _ _

theorem step_above {v w : VideoBios} {call : VideoCall} {ops : List MirrorOp} (h : call.Below v)
    (hstep : v.step call = some (w, ops)) {a : Nat} (ha : 0x8000 ≤ a) :
    w.bios.vram a = v.bios.vram a := by
  cases call with
  | setMode mode flags =>
    obtain ⟨⟨ret, u⟩, hset, heq⟩ := Option.map_eq_some_iff.mp hstep
    cases heq
    unfold VideoBios.vgaSetMode at hset
    split at hset
    · cases hset
      rfl
    · split at hset
      · cases hset
      · cases hset
        exact modeBios_above _ _ _ _ _ ha
  | vgafb call =>
    obtain rfl : (v.vgafb call).1 = w := congrArg Prod.fst (Option.some.inj hstep)
    unfold VideoBios.vgafb
    split
    · rfl
    · split
      · rfl
      · exact vgafbCall_above ha h
  | setSwcursor enable =>
    obtain rfl : (v.setSwcursor enable).1 = w := congrArg Prod.fst (Option.some.inj hstep)
    exact setSwcursor_above h enable ha
  | restoreMode vbeMode =>
    cases hstep
    rfl
  | store bios videoPage charHeight =>
    cases hstep
    exact h a ha

/-- A call that stays below the ROM leaves the globals alone. -/
theorem romStep_eq (l : RomLayout) {v : VideoBios} {call : VideoCall} (h : call.Below v) :
    l.step v call = v.step call := by
  unfold RomLayout.step
  cases hstep : v.step call with
  | none => rfl
  | some r =>
    obtain ⟨w, ops⟩ := r
    have hrom : ∀ rom, textStored v.bios.vram w.bios.vram rom = none :=
      romStored_eq_none fun a ha _ => step_above h hstep ha
    have hcb := overwrite_of_untouched l hrom w.machine.cb
    simp only [Option.map_some, hcb]

theorem romRun_eq (l : RomLayout) {v : VideoBios} {calls : List VideoCall}
    (h : l.BelowRun v calls) : l.run v calls = v.run calls := by
  induction calls generalizing v with
  | nil => rfl
  | cons call calls ih =>
    obtain ⟨hcall, hrest⟩ := h
    have hstep := romStep_eq l hcall
    unfold RomLayout.run VideoBios.run at ih ⊢
    rw [List.foldlM_cons, List.foldlM_cons, hstep]
    cases hv : v.step call with
    | none => rfl
    | some r => exact ih (hrest r.1 r.2 (hstep.trans hv))

/-- No mode is set yet. The ROM shows `CBmodeinfo` as it is in the text fallback. -/
def afterSetup (m : Machine) : VideoBios where
  machine := m
  curmode := none
  bios :=
    { letterScreen with
      vram := store letterScreen.vram 0xe498 [0, 0, 80, 0, 25, 0, 4, 9, 16, 0, 0x00, 0xb8] }
  videoPage := 0
  charHeight := 0
  flags := 0

/-- A record without an address. -/
def rejectedMemory : Mem :=
  buildCorebootTable (fun _ => 0) .seavgabios { sampleFramebuffer with physicalAddress := 0 }

/-- There is text mode after such a record, 80 columns and pages of 4 KiB. -/
structure InFallback (cb : State) (v : VideoBios) : Prop where
  globals : v.machine.cb = cb
  modeinfo : cb.cbModeinfo = ⟨.text, 80, 25, 4, 9, 16, segCtext⟩
  linelength : cb.cbLinelength = 160
  framebuffer : cb.vbeFramebuffer = 0
  mode : v.curmode = some cb.cbModeinfo
  charHeight : v.charHeight = 16
  cols : v.bios.videoCols = 80
  pagesize : v.bios.videoPagesize = 0x1000
  rom : ∀ a, 0x8000 ≤ a → v.bios.vram a = (afterSetup v.machine).bios.vram a

theorem belowRun_mode (m : Machine) : romLayout.BelowRun (afterSetup m) [.setMode 0x03 0] :=
  ⟨trivial, fun _ _ _ => trivial⟩

theorem inFallback_run : ∃ m' v', blankMachine.cbvgaSetup rejectedMemory false = some (0, m') ∧
    romLayout.run (afterSetup m') [.setMode 0x03 0] = some v' ∧ InFallback m'.cb v' := by
  have hbuild := Machine.cbvgaSetup_build (fun _ => 0) (by decide : VideoType.seavgabios ≠ .oprom)
    { sampleFramebuffer with physicalAddress := 0 } (accepted_build_empty _) blankMachine
  refine ⟨_, _, hbuild.trans rfl, (romRun_eq romLayout (belowRun_mode _)).trans rfl, ?_⟩
  refine ⟨rfl, rfl, rfl, rfl, rfl, rfl, rfl, rfl, fun a ha => modeBios_above _ _ _ _ _ ha⟩

/-- At 32 bits a cell in row 7 is drawn behind the 4000 bytes of the text fallback. -/
theorem renderChar_behind {cb : State} (hdepth : cb.cbModeinfo.depth = 32)
    (hcwidth : cb.cbModeinfo.cwidth = 8) (hline : cb.cbLinelength = 160)
    (hfb : cb.vbeFramebuffer = 0) (e : Emul) (font : UInt8 → Nat → UInt8) (ch attr : UInt8)
    (m : Mem) : ¬ Runs (fun acc => acc.kind = .write → acc.addr + acc.len ≤ 4000)
      (cbvgaRenderChar cb e 16 font 31 7 ch attr) m fun _ _ => True := by
  intro h
  have hrows : List.range (16 : UInt16).toNat = 0 :: (List.range 15).map Nat.succ :=
    List.range_succ_eq_map
  have hcols : List.range (8 : UInt8).toNat = 0 :: (List.range 7).map Nat.succ :=
    List.range_succ_eq_map
  rw [cbvgaRenderChar, hcwidth, hrows, hcols] at h
  have hput : Runs _ (putCell cb (cellBase cb 16 31 7 (0 : Nat)) 0 _) m _ :=
    h.fst_of_bind.fst_of_bind
  rw [putCell, if_pos hdepth] at hput
  have hbase : cellBase cb 16 31 7 (0 : Nat) = 18912 := by
    rw [cellBase, hfb, hline, hcwidth, hdepth]
    decide
  have hend := hput.of_put rfl
  rw [hbase] at hend
  revert hend
  simp

/-- What is stored in the ROM by the blank on page 14, row 7 and column 31: the depth and the
width of a character in `CBmodeinfo`. -/
theorem textStored_blank {m : Machine} {vram : Mem}
    (hrom : ∀ a, 0x8000 ≤ a → vram a = (afterSetup m).bios.vram a) :
    let stored := textStored vram (store vram 0xe49e [0x20, 0x08])
    stored 0x649e = some 0x20 ∧ stored 0x649f = some 0x08 ∧
      ∀ rom : Nat, 0x64a0 ≤ rom → stored rom = none := by
  have hdepth : store vram 0xe49e [0x20, 0x08] 0xe49e ≠ vram 0xe49e := by
    have hold : vram 0xe49e = 4 := hrom _ (by decide)
    rw [hold]
    exact show (0x20 : UInt8) ≠ 4 by decide
  have hcwidth : store vram 0xe49e [0x20, 0x08] 0xe49f ≠ vram 0xe49f := by
    have hold : vram 0xe49f = 9 := hrom _ (by decide)
    rw [hold]
    exact show (0x08 : UInt8) ≠ 9 by decide
  refine ⟨if_pos ⟨by decide, hdepth⟩, if_pos ⟨by decide, hcwidth⟩, fun rom hle => if_neg ?_⟩
  rintro ⟨-, hne⟩
  exact hne (store_outside _ _ _ (.inr (by simp; omega)))

end CsmWrap.Vga
