import CsmWrap.Coreboot.Table
import CsmWrap.Video.RomWalk

/-!
# A video BIOS to dispatch

Four sources of a video BIOS are tried one after another: a file, the option ROM of the
card, SeaVGABIOS on the framebuffer of the firmware, and SeaVGABIOS on nothing. Here is
what `efi_main` has in hand after that, for any answers of the firmware.
-/

namespace CsmWrap.Video
open Coreboot Memory ReadTrace

/-- `EFI_GRAPHICS_OUTPUT_MODE_INFORMATION`. -/
structure ModeInformation where
  horizontalResolution : UInt32
  verticalResolution : UInt32
  pixelFormat : UInt32
  redMask : UInt32
  greenMask : UInt32
  blueMask : UInt32
  reservedMask : UInt32
  pixelsPerScanLine : UInt32

/-- `EFI_GRAPHICS_OUTPUT_PROTOCOL`. `Mode` is checked for NULL before its number is used;
the address of the framebuffer is what is read through it in any case. -/
structure GraphicsOutput where
  mode : Option UInt32
  frameBufferBase : UInt64
  queryMode : UInt32 → Option ModeInformation

/-- `EFI_PCI_IO_PROTOCOL`: the location and the ids that it gives, and the ROM. -/
structure PciIo where
  bus : UInt64
  device : UInt64
  function : UInt64
  vendorId : UInt16
  deviceId : UInt16
  /-- `RomImage` is not NULL. -/
  romImage : Bool
  rom : Rom

/-- The calls of `FindGopPciDevice`. -/
structure Firmware where
  /-- `LocateHandleBuffer`, and for each handle `HandleProtocol`, which may also succeed
  with NULL. -/
  handles : Option (List (Option (Option GraphicsOutput)))
  devicePath : Bool
  locateDevicePath : Bool
  pciIo : Option PciIo
  /-- The status of the last read from configuration space. -/
  pciRead : Bool

/-- `\EFI\CSMWrap\vgabios.bin`. -/
structure VgabiosFile where
  /-- `sfs_dir` is not NULL. -/
  sfsDir : Bool
  opened : Bool
  allocated : Bool
  read : Bool
  size : Nat

/-- The video BIOS that is built in, which is not empty. -/
structure Bins where
  vgabiosBin : Nat
  pos : 0 < vgabiosBin

inductive VbiosLoc where
  | file
  | rom (offset : Nat)
  | vgabiosBin
  deriving DecidableEq, Repr

/-- `vbios_loc` and `vbios_size`. -/
structure Vbios where
  loc : Option VbiosLoc
  size : Nat
  deriving DecidableEq, Repr

/-- The fields of `struct csmwrap_priv` for video. -/
structure Priv where
  videoType : VideoType
  gop : Option GraphicsOutput
  gopHandle : Option Nat
  vgaPciIo : Option PciIo
  vgaPciBus : UInt8
  vgaPciDevfn : UInt8
  cbFb : CbFramebuffer

/-- `priv` as it is loaded, but for the content of `cb_fb`. -/
def Priv.start (cbFb : CbFramebuffer) : Priv := ⟨.none, none, none, none, 0, 0, cbFb⟩

/-- The loop over the handles: the index and the protocol of the first one that has it. -/
def findHandle : Nat → List (Option (Option GraphicsOutput)) → Option (Nat × Option GraphicsOutput)
  | _, [] => none
  | i, none :: handles => findHandle (i + 1) handles
  | i, some gop :: _ => some (i, gop)

/-- Whether the status is not an error. When no handle has the protocol, it is the status
of the last one, and success when there is none. -/
def findGopPciDevice (fw : Firmware) (priv : Priv) : Bool × Priv :=
  match fw.handles with
  | none => (false, priv)
  | some handles =>
    let (status, priv) := match findHandle 0 handles with
      | none => (handles.isEmpty, priv)
      | some (i, gop) => (true, { priv with gop := gop, gopHandle := some i })
    if priv.gop.isNone then (status, priv)
    else if fw.devicePath = false then (false, priv)
    else if fw.locateDevicePath = false then (false, priv)
    else match fw.pciIo with
      | none => (false, priv)
      | some pciIo => (fw.pciRead,
          { priv with
            vgaPciIo := some pciIo
            vgaPciBus := pciIo.bus.toUInt8
            vgaPciDevfn := (pciIo.device <<< 3 ||| pciIo.function).toUInt8 })

/-- The file, of which up to 256 KiB are read. -/
def loadVgabios (f : VgabiosFile) : Vbios :=
  if f.sfsDir ∧ f.opened ∧ f.allocated ∧ f.read then ⟨some .file, min f.size (256 * 1024)⟩
  else ⟨none, 0⟩

/-- `none` when `GetPciLegacyRom` does not return within `fuel` rounds. -/
def csmwrapVideoOpromInit (fuel : Nat) (priv : Priv) (vbios : Vbios) :
    Option (Bool × Priv × Vbios) :=
  match priv.vgaPciIo with
  | none => some (false, priv, vbios)
  | some pciIo =>
    if pciIo.romImage = false ∨ pciIo.rom.imageSize = 0 then some (false, priv, vbios)
    else match (getPciLegacyRom pciIo.rom (oprom pciIo.vendorId pciIo.deviceId) fuel).value with
      | some (.returned out) =>
        if out.status = .success then
          some (true, { priv with videoType := .oprom }, ⟨some (.rom out.rom), out.imageSize⟩)
        else some (false, priv, vbios)
      | _ => none

/-- `__builtin_ffs`. -/
def ffs (mask : UInt32) : Nat :=
  match (List.range 32).find? fun i => mask.toNat.testBit i with
  | none => 0
  | some i => i + 1

/-- `__builtin_popcount`. -/
def popcount (mask : UInt32) : Nat := (List.range 32).countP fun i => mask.toNat.testBit i

/-- `__builtin_ffs(mask) - 1`, in a byte. -/
def maskPos (mask : UInt32) : UInt8 := UInt8.ofNat (ffs mask) - 1

def maskSize (mask : UInt32) : UInt8 := UInt8.ofNat (popcount mask)

/-- The part of `cb_fb` that is set before the pixel format is looked at. -/
def setFramebuffer (fbAddr : UInt64) (info : ModeInformation) (cbFb : CbFramebuffer) :
    CbFramebuffer :=
  { cbFb with
    physicalAddress := fbAddr
    xResolution := info.horizontalResolution
    yResolution := info.verticalResolution
    bytesPerLine := info.pixelsPerScanLine * 4
    bitsPerPixel := 32 }

/-- The `switch` over the pixel format. -/
def setMasks (info : ModeInformation) (cbFb : CbFramebuffer) : Option CbFramebuffer :=
  if info.pixelFormat = 0 then some
    { cbFb with
      redMaskPos := 0, redMaskSize := 8, greenMaskPos := 8, greenMaskSize := 8
      blueMaskPos := 16, blueMaskSize := 8, reservedMaskPos := 24, reservedMaskSize := 8 }
  else if info.pixelFormat = 1 then some
    { cbFb with
      blueMaskPos := 0, blueMaskSize := 8, greenMaskPos := 8, greenMaskSize := 8
      redMaskPos := 16, redMaskSize := 8, reservedMaskPos := 24, reservedMaskSize := 8 }
  else if info.pixelFormat = 2 then some
    { cbFb with
      redMaskPos := maskPos info.redMask, greenMaskPos := maskPos info.greenMask
      blueMaskPos := maskPos info.blueMask, reservedMaskPos := maskPos info.reservedMask
      redMaskSize := maskSize info.redMask, greenMaskSize := maskSize info.greenMask
      blueMaskSize := maskSize info.blueMask, reservedMaskSize := maskSize info.reservedMask }
  else none

def csmwrapVideoSeavgabiosInit (bins : Bins) (priv : Priv) (vbios : Vbios) :
    Bool × Priv × Vbios :=
  match priv.gop with
  | none => (false, priv, vbios)
  | some gop =>
    match gop.queryMode (gop.mode.getD 0) with
    | none => (false, priv, vbios)
    | some info =>
      let fbAddr := gop.frameBufferBase
      if fbAddr = 0 ∨ fbAddr > 0xffffffff then (false, priv, vbios)
      else
        let cbFb := setFramebuffer fbAddr info priv.cbFb
        match setMasks info cbFb with
        -- what has been set stays
        | none => (false, { priv with cbFb := cbFb }, vbios)
        | some cbFb => (true, { priv with cbFb := cbFb, videoType := .seavgabios },
            ⟨some .vgabiosBin, bins.vgabiosBin⟩)

def fallbackFramebuffer (cbFb : CbFramebuffer) : CbFramebuffer :=
  { cbFb with
    physicalAddress := 0x000a0000, xResolution := 1024, yResolution := 768
    bytesPerLine := 1024 * 4, bitsPerPixel := 32
    redMaskPos := 0, redMaskSize := 8, greenMaskPos := 8, greenMaskSize := 8
    blueMaskPos := 16, blueMaskSize := 8, reservedMaskPos := 24, reservedMaskSize := 8 }

def csmwrapVideoFallback (bins : Bins) (priv : Priv) : Priv × Vbios :=
  ({ priv with cbFb := fallbackFramebuffer priv.cbFb, videoType := .fallback },
    ⟨some .vgabiosBin, bins.vgabiosBin⟩)

/-- `csmwrap_video_init`. Whether the card takes legacy VGA cycles (`csmwrap_pci_vgaarb`)
changes nothing here. -/
def csmwrapVideoInit (bins : Bins) (fw : Firmware) (fuel : Nat) (priv : Priv) (vbios : Vbios) :
    Option (Priv × Vbios) := do
  let (status, priv) := findGopPciDevice fw priv
  if status = false ∧ priv.gop.isNone then return (priv, vbios)
  if vbios.loc.isSome then return (priv, vbios)
  let (found, priv, vbios) ← csmwrapVideoOpromInit fuel priv vbios
  if found then return (priv, vbios)
  let (found, priv, vbios) := csmwrapVideoSeavgabiosInit bins priv vbios
  if found then return (priv, vbios)
  return csmwrapVideoFallback bins priv

/-- The part of `efi_main` that decides on the video BIOS. The status that
`csmwrap_video_init` returns is not looked at. -/
def efiMainVideo (bins : Bins) (f : VgabiosFile) (fw : Firmware) (fuel : Nat)
    (cbFb : CbFramebuffer) : Option (Priv × Vbios) :=
  csmwrapVideoInit bins fw fuel (.start cbFb) (loadVgabios f)

/-- The walk comes to an image for the device that is of length zero. -/
def Rom.EmptyMatch (rom : Rom) (q : Query) : Prop :=
  ∃ pos, rom.Visited q pos ∧ rom.Accepted pos ∧ rom.matched q pos = some true ∧
    rom.imageLength pos = 0

section
variable {rom : Rom} {q : Query}

/-- A kept image of length zero is one that the walk ends at: a walk that goes on from it
would not end. -/
theorem empty_exit {w w' : Walk} (hbest : w.bestImage = none)
    (hbackup : ∀ pos, w.backupImage = some pos → rom.imageLength pos ≠ 0)
    (hround : Round rom q w (.exit (.left w'))) :
    (∃ pos, w'.bestImage.or w'.backupImage = some pos ∧ rom.imageLength pos = 0) ↔
      rom.Accepted w.pos ∧ rom.matched q w.pos = some true ∧ rom.imageLength w.pos = 0 := by
  have hkept : ¬ ∃ pos, w.backupImage = some pos ∧ rom.imageLength pos = 0 := by
    rintro ⟨pos, hpos, hlength⟩
    exact hbackup pos hpos hlength
  cases hround with
  | rejected hacc =>
    rw [hbest, Option.none_or]
    exact iff_of_false hkept fun h => hacc h.1
  | best hacc hmatch hperfect =>
    simp [hacc, hmatch]
  | last hacc matching hmatch hperfect hlast =>
    cases matching with
    | false =>
      rw [Walk.note, if_neg Bool.false_ne_true, hbest, Option.none_or]
      refine iff_of_false hkept fun h => ?_
      rw [hmatch] at h
      cases h.2.1
    | true => simp [Walk.note, hbest, hacc, hmatch]

theorem walk_empty {w w' : Walk} {fuel : Nat} (hbest : w.bestImage = none)
    (hbackup : ∀ pos, w.backupImage = some pos → rom.imageLength pos ≠ 0)
    (h : (walk rom q fuel w).value = some (.left w')) :
    (∃ pos, w'.bestImage.or w'.backupImage = some pos ∧ rom.imageLength pos = 0) ↔
      ∃ pos, Relation.ReflTransGen (rom.Advances q) w.pos pos ∧ rom.Accepted pos ∧
        rom.matched q pos = some true ∧ rom.imageLength pos = 0 := by
  induction fuel generalizing w with
  | zero => cases h
  | succ fuel ih =>
    by_cases hgo : rom.GoesOn q w.pos
    · have hlength : rom.imageLength w.pos ≠ 0 := by
        intro hlength
        rw [walk_stalled .refl hgo hlength] at h
        cases h
      obtain ⟨matching, hmatch, hstep⟩ := walkStep_goesOn hgo
      rw [walk_next hstep] at h
      have hnote : ∀ pos, (w.note matching).backupImage = some pos → rom.imageLength pos ≠ 0 := by
        intro pos hpos
        cases matching with
        | false => exact hbackup pos hpos
        | true =>
          cases hpos
          exact hlength
      rw [ih (w := { w.note matching with pos := rom.imageEnd w.pos })
        ((note_bestImage w matching).trans hbest) hnote h]
      constructor
      · rintro ⟨pos, hpath, hpos⟩
        exact ⟨pos, .head ⟨hgo, rfl⟩ hpath, hpos⟩
      · rintro ⟨pos, hpath, hacc, hmatch', hzero⟩
        rcases reach_iff.mp hpath with rfl | ⟨-, hrest⟩
        · exact absurd hzero hlength
        · exact ⟨pos, hrest, hacc, hmatch', hzero⟩
    · obtain ⟨e, hstep⟩ := walkStep_exit hgo
      have hround := walkStep_round rom q w
      rw [hstep] at hround
      rw [walk_exit hstep] at h
      cases h
      rw [empty_exit hbest hbackup hround]
      simp only [reach_stop hgo, exists_eq_left]

/-- What `GetPciLegacyRom` returns is empty just when the walk comes to an empty match. -/
theorem returned_empty {fuel : Nat} {out : Outputs}
    (hsize : sizeofRomHeader rom.arch ≤ rom.imageSize)
    (h : (getPciLegacyRom rom q fuel).value = some (.returned out)) :
    out.status = .success ∧ out.imageSize = 0 ↔ rom.EmptyMatch q := by
  obtain ⟨w, hwalk⟩ := (getPciLegacyRom_returned hsize fuel).mp ⟨out, h⟩
  rw [getPciLegacyRom_left hsize hwalk] at h
  cases h
  refine Iff.trans ?_ (walk_empty (w := start) rfl (fun pos hpos => by cases hpos) hwalk)
  have hfinish := finish_value rom q w
  cases hpicked : w.bestImage.or w.backupImage with
  | none =>
    rw [hpicked] at hfinish
    dsimp only at hfinish
    rw [hfinish]
    simp
  | some pos =>
    rw [hpicked] at hfinish
    obtain ⟨hstatus, -, hlength⟩ := hfinish
    rw [hstatus, hlength]
    simp only [Option.some.injEq, true_and, exists_eq_left', Nat.mul_eq_zero, OfNat.ofNat_ne_zero,
      false_or]
    rw [← UInt16.toNat_inj]
    rfl

end

/-! ## What there is to dispatch -/

/-- The fields of a record that describe a framebuffer. The tag and the size are set in the
copy that goes into the coreboot table, and the padding is no field. -/
def describing (fb : CbFramebuffer) : CbFramebuffer :=
  { fb with tag := 0, size := 0, pad0 := 0, pad1 := 0, pad2 := 0 }

/-- The record is what `csmwrap_video_seavgabios_init` makes of any record. -/
def SetBySeavgabios (priv : Priv) : Prop :=
  ∃ gop info, priv.gop = some gop ∧ gop.queryMode (gop.mode.getD 0) = some info ∧
    ∀ other, (setMasks info (setFramebuffer gop.frameBufferBase info other)).map describing =
      some (describing priv.cbFb)

/-- The record is what `csmwrap_video_fallback` makes of any record. -/
def SetByFallback (priv : Priv) : Prop :=
  ∀ other, describing (fallbackFramebuffer other) = describing priv.cbFb

structure Dispatchable (priv : Priv) (vbios : Vbios) : Prop where
  loc : vbios.loc ≠ none
  size : 0 < vbios.size
  seavgabios : priv.videoType = .seavgabios → SetBySeavgabios priv
  fallback : priv.videoType = .fallback → SetByFallback priv

/-- With a BIOS of another type nothing is asked of the framebuffer. -/
theorem dispatchable_other {priv : Priv} {vbios : Vbios} (hloc : vbios.loc ≠ none)
    (hsize : 0 < vbios.size) (hsea : priv.videoType ≠ .seavgabios)
    (hfallback : priv.videoType ≠ .fallback) : Dispatchable priv vbios :=
  ⟨hloc, hsize, fun h => absurd h hsea, fun h => absurd h hfallback⟩

/-- `FindGopPciDevice` ends with an error and no protocol. -/
def Firmware.NoService (fw : Firmware) : Prop :=
  fw.handles = none ∨ ∃ handles, fw.handles = some handles ∧ handles ≠ [] ∧
    ∀ handle ∈ handles, handle = none

/-- `FindGopPciDevice` finds the card. -/
def Firmware.FindsPci (fw : Firmware) (pciIo : PciIo) : Prop :=
  (∃ handles i gop, fw.handles = some handles ∧ findHandle 0 handles = some (i, some gop)) ∧
    fw.devicePath = true ∧ fw.locateDevicePath = true ∧ fw.pciIo = some pciIo

/-- The option ROM has an image of length zero to offer. -/
def PciIo.OffersEmpty (pciIo : PciIo) : Prop :=
  pciIo.romImage = true ∧ sizeofRomHeader pciIo.rom.arch ≤ pciIo.rom.imageSize ∧
    pciIo.rom.EmptyMatch (oprom pciIo.vendorId pciIo.deviceId)

def VgabiosFile.Loaded (f : VgabiosFile) : Prop :=
  f.sfsDir = true ∧ f.opened = true ∧ f.allocated = true ∧ f.read = true

/-- The file is loaded and not empty; or there is none, and the search for a card did not
fail, and did not find one with an empty image. -/
def VbiosProvided (f : VgabiosFile) (fw : Firmware) : Prop :=
  f.Loaded ∧ 0 < f.size ∨
    ¬ f.Loaded ∧ ¬ fw.NoService ∧ ¬ ∃ pciIo, fw.FindsPci pciIo ∧ pciIo.OffersEmpty

theorem findHandle_eq_none {handles : List (Option (Option GraphicsOutput))} (i : Nat) :
    findHandle i handles = none ↔ ∀ handle ∈ handles, handle = none := by
  induction handles generalizing i with
  | nil => simp [findHandle]
  | cons handle handles ih =>
    cases handle with
    | none => simp [findHandle, ih]
    | some gop => simp [findHandle]

/-- What `FindGopPciDevice` leaves in a fresh `priv`. -/
structure GopFound (fw : Firmware) (cbFb : CbFramebuffer) (status : Bool) (priv : Priv) : Prop where
  service : status = false ∧ priv.gop.isNone = true ↔ fw.NoService
  card : ∀ pciIo, priv.vgaPciIo = some pciIo ↔ fw.FindsPci pciIo
  videoType : priv.videoType = .none
  cbFb : priv.cbFb = cbFb

theorem noService_iff {fw : Firmware} {handles : List (Option (Option GraphicsOutput))}
    (h : fw.handles = some handles) :
    fw.NoService ↔ handles ≠ [] ∧ findHandle 0 handles = none := by
  unfold Firmware.NoService
  rw [h, findHandle_eq_none]
  simp

theorem gopFound (fw : Firmware) (cbFb : CbFramebuffer) :
    GopFound fw cbFb (findGopPciDevice fw (.start cbFb)).1
      (findGopPciDevice fw (.start cbFb)).2 := by
  unfold findGopPciDevice
  cases hhandles : fw.handles with
  | none =>
    refine ⟨iff_of_true ⟨rfl, rfl⟩ (.inl hhandles), fun pciIo => ?_, rfl, rfl⟩
    refine iff_of_false (fun h => by cases h) ?_
    rintro ⟨⟨handles, -, -, h, -⟩, -⟩
    rw [hhandles] at h
    cases h
  | some handles =>
    have hservice := noService_iff hhandles
    have hcard : ∀ pciIo, fw.FindsPci pciIo ↔ (∃ i gop, findHandle 0 handles = some (i, some gop)) ∧
        fw.devicePath = true ∧ fw.locateDevicePath = true ∧ fw.pciIo = some pciIo := by
      intro pciIo
      unfold Firmware.FindsPci
      rw [hhandles]
      simp
    dsimp only
    rcases hfind : findHandle 0 handles with _ | ⟨i, _ | gop⟩
    · refine ⟨?_, fun pciIo => ?_, rfl, rfl⟩
      · rw [hservice, hfind]
        simp [Priv.start]
      · rw [hcard, hfind]
        simp [Priv.start]
    · refine ⟨?_, fun pciIo => ?_, rfl, rfl⟩
      · rw [hservice, hfind]
        simp
      · rw [hcard, hfind]
        simp [Priv.start]
    · have hgop : ¬ fw.NoService := by
        rw [hservice, hfind]
        simp
      simp only [Option.isNone_some, Bool.false_eq_true, if_false]
      split
      · next hpath =>
        refine ⟨iff_of_false (by simp) hgop, fun pciIo => ?_, rfl, rfl⟩
        rw [hcard, hpath]
        simp [Priv.start]
      · split
        · next hlocate =>
          refine ⟨iff_of_false (by simp) hgop, fun pciIo => ?_, rfl, rfl⟩
          rw [hcard, hlocate]
          simp [Priv.start]
        · next hpath hlocate =>
          have hfound : ∀ pciIo, fw.FindsPci pciIo ↔ fw.pciIo = some pciIo := by
            intro pciIo
            rw [hcard, hfind]
            simp [hpath, hlocate]
          split
          · next hpci =>
            refine ⟨iff_of_false (by simp) hgop, fun pciIo => ?_, rfl, rfl⟩
            rw [hfound, hpci]
            rfl
          · next pciIo' hpci =>
            refine ⟨iff_of_false (by simp) hgop, fun pciIo => ?_, rfl, rfl⟩
            rw [hfound, hpci]

/-- What the attempt with the option ROM leaves. -/
theorem opromInit_cases {fuel : Nat} {priv priv' : Priv} {vbios vbios' : Vbios} {found : Bool}
    (h : csmwrapVideoOpromInit fuel priv vbios = some (found, priv', vbios')) :
    (found = false ∧ priv' = priv ∧ vbios' = vbios ∧
      ¬ ∃ pciIo, priv.vgaPciIo = some pciIo ∧ pciIo.OffersEmpty) ∨
    (found = true ∧ priv'.videoType = .oprom ∧ vbios'.loc ≠ none ∧
      (vbios'.size = 0 ↔ ∃ pciIo, priv.vgaPciIo = some pciIo ∧ pciIo.OffersEmpty)) := by
  unfold csmwrapVideoOpromInit at h
  cases hpci : priv.vgaPciIo with
  | none =>
    rw [hpci] at h
    cases h
    exact .inl ⟨rfl, rfl, rfl, by simp⟩
  | some pciIo =>
    have hoffers : (∃ pciIo', some pciIo = some pciIo' ∧ pciIo'.OffersEmpty) ↔
        pciIo.OffersEmpty := by simp
    rw [hpci] at h
    dsimp only at h
    rw [hoffers]
    split at h
    · next hrom =>
      cases h
      refine .inl ⟨rfl, rfl, rfl, ?_⟩
      rintro ⟨himage, hsize, -⟩
      rcases hrom with hrom | hrom
      · rw [himage] at hrom
        cases hrom
      · have hheader := sizeofRomHeader_pos pciIo.rom.arch
        omega
    · next hrom =>
      split at h
      · next out hout =>
        have hempty : out.status = .success ∧ out.imageSize = 0 ↔ pciIo.OffersEmpty := by
          rw [not_or, Bool.not_eq_false] at hrom
          by_cases hsize : sizeofRomHeader pciIo.rom.arch ≤ pciIo.rom.imageSize
          · rw [returned_empty hsize hout]
            exact ⟨fun h => ⟨hrom.1, hsize, h⟩, fun h => h.2.2⟩
          · rw [getPciLegacyRom_small hsize] at hout
            cases hout
            exact iff_of_false (fun h => by cases h.1) fun h => hsize h.2.1
        split at h
        · next hstatus =>
          cases h
          exact .inr ⟨rfl, rfl, by simp, by rw [← hempty, and_iff_right hstatus]⟩
        · next hstatus =>
          cases h
          exact .inl ⟨rfl, rfl, rfl, fun h => hstatus (hempty.mpr h).1⟩
      · cases h

/-- A record with masks has all its fields from the firmware. -/
theorem describing_masks {fbAddr : UInt64} {info : ModeInformation} {cbFb cbFb' : CbFramebuffer}
    (h : setMasks info (setFramebuffer fbAddr info cbFb) = some cbFb') (other : CbFramebuffer) :
    (setMasks info (setFramebuffer fbAddr info other)).map describing =
      some (describing cbFb') := by
  unfold setMasks at h ⊢
  split at h
  · next hrgb =>
    cases h
    rw [if_pos hrgb]
    rfl
  · next hrgb =>
    split at h
    · next hbgr =>
      cases h
      rw [if_neg hrgb, if_pos hbgr]
      rfl
    · next hbgr =>
      split at h
      · next hmask =>
        cases h
        rw [if_neg hrgb, if_neg hbgr, if_pos hmask]
        rfl
      · cases h

/-- The attempt with the framebuffer of the firmware. -/
theorem seavgabiosInit_cases (bins : Bins) (priv : Priv) (vbios : Vbios) :
    (csmwrapVideoSeavgabiosInit bins priv vbios).1 = false ∨
      ∃ priv', csmwrapVideoSeavgabiosInit bins priv vbios =
          (true, priv', ⟨some .vgabiosBin, bins.vgabiosBin⟩) ∧
        priv'.videoType = .seavgabios ∧ SetBySeavgabios priv' := by
  unfold csmwrapVideoSeavgabiosInit
  cases hgop : priv.gop with
  | none => exact .inl rfl
  | some gop =>
    dsimp only
    cases hinfo : gop.queryMode (gop.mode.getD 0) with
    | none => exact .inl rfl
    | some info =>
      dsimp only
      split
      · exact .inl rfl
      · cases hmasks : setMasks info (setFramebuffer gop.frameBufferBase info priv.cbFb) with
        | none => exact .inl rfl
        | some cbFb =>
          exact .inr ⟨_, rfl, rfl, gop, info, rfl, hinfo, describing_masks hmasks⟩

theorem loadVgabios_loaded {f : VgabiosFile} (h : f.Loaded) :
    loadVgabios f = ⟨some .file, min f.size (256 * 1024)⟩ := by
  obtain ⟨hdir, hopened, hallocated, hread⟩ := h
  simp [loadVgabios, hdir, hopened, hallocated, hread]

theorem loadVgabios_missing {f : VgabiosFile} (h : ¬ f.Loaded) : loadVgabios f = ⟨none, 0⟩ :=
  if_neg h

/-- With a file, nothing else is tried. -/
theorem videoInit_file {bins : Bins} {fw : Firmware} {fuel : Nat} {priv priv' : Priv}
    {vbios vbios' : Vbios} (hloc : vbios.loc.isSome = true)
    (h : csmwrapVideoInit bins fw fuel priv vbios = some (priv', vbios')) :
    priv' = (findGopPciDevice fw priv).2 ∧ vbios' = vbios := by
  unfold csmwrapVideoInit at h
  dsimp only at h
  split at h
  · cases h
    exact ⟨rfl, rfl⟩
  · cases h
    exact ⟨rfl, rfl⟩

/-- Without a file: no service, or the option ROM, or SeaVGABIOS one way or the other. -/
theorem videoInit_none {bins : Bins} {fw : Firmware} {fuel : Nat} {cbFb : CbFramebuffer}
    {priv : Priv} {vbios : Vbios}
    (h : csmwrapVideoInit bins fw fuel (.start cbFb) ⟨none, 0⟩ = some (priv, vbios)) :
    fw.NoService ∧ vbios.loc = none ∨ ¬ fw.NoService ∧
      ((priv.videoType = .oprom ∧ vbios.loc ≠ none ∧
        (vbios.size = 0 ↔ ∃ pciIo, fw.FindsPci pciIo ∧ pciIo.OffersEmpty)) ∨
      (Dispatchable priv vbios ∧ ¬ ∃ pciIo, fw.FindsPci pciIo ∧ pciIo.OffersEmpty)) := by
  have hgop := gopFound fw cbFb
  unfold csmwrapVideoInit at h
  generalize findGopPciDevice fw (.start cbFb) = r at h hgop
  obtain ⟨status, priv₁⟩ := r
  dsimp only at h hgop
  split at h
  · next hfailed =>
    cases h
    exact .inl ⟨hgop.service.mp hfailed, rfl⟩
  · next hservice =>
    refine .inr ⟨fun h => hservice (hgop.service.mpr h), ?_⟩
    obtain ⟨⟨found, priv₂, vbios₂⟩, hoprom, h⟩ := Option.bind_eq_some_iff.mp h
    have hcases := opromInit_cases hoprom
    simp only [hgop.card] at hcases
    dsimp only at h
    rcases hcases with ⟨rfl, rfl, rfl, hnone⟩ | ⟨rfl, htype, hloc, hsize⟩
    · refine .inr ⟨?_, hnone⟩
      rw [if_neg Bool.false_ne_true] at h
      rcases seavgabiosInit_cases bins priv₂ ⟨none, 0⟩ with hno | ⟨priv₃, hsea, htype, hset⟩
      · rw [if_neg (by rw [hno]; decide)] at h
        cases h
        exact ⟨by simp, bins.pos, (fun ht => by cases ht), fun _ other => rfl⟩
      · rw [hsea] at h
        cases h
        refine ⟨by simp, bins.pos, fun _ => hset, fun ht => ?_⟩
        rw [htype] at ht
        cases ht
    · cases h
      exact .inl ⟨htype, hloc, hsize⟩

/-- **There is a video BIOS to dispatch**, and its framebuffer is set by the function that
set its type, just when `VbiosProvided` says so. -/
theorem dispatchable_iff (bins : Bins) {f : VgabiosFile} {fw : Firmware} {fuel : Nat}
    {cbFb : CbFramebuffer} {priv : Priv} {vbios : Vbios}
    (h : efiMainVideo bins f fw fuel cbFb = some (priv, vbios)) :
    Dispatchable priv vbios ↔ VbiosProvided f fw := by
  unfold VbiosProvided
  by_cases hloaded : f.Loaded
  · rw [efiMainVideo, loadVgabios_loaded hloaded] at h
    obtain ⟨rfl, rfl⟩ := videoInit_file rfl h
    have htype := (gopFound fw cbFb).videoType
    simp only [hloaded, true_and, not_true, false_and, or_false]
    constructor
    · rintro ⟨-, hsize, -, -⟩
      exact lt_of_lt_of_le hsize (min_le_left _ _)
    · intro hsize
      exact dispatchable_other (by simp) (lt_min hsize (by decide)) (by simp [htype])
        (by simp [htype])
  · rw [efiMainVideo, loadVgabios_missing hloaded] at h
    simp only [hloaded, false_and, not_false_eq_true, true_and, false_or]
    rcases videoInit_none h with ⟨hno, hloc⟩ | ⟨hservice, ⟨htype, hloc, hsize⟩ | ⟨hdisp, hnone⟩⟩
    · exact iff_of_false (fun hd => hd.loc hloc) fun hp => hp.1 hno
    · rw [and_iff_right hservice, ← hsize]
      constructor
      · rintro ⟨-, hpos, -, -⟩
        exact Nat.ne_of_gt hpos
      · intro hne
        exact dispatchable_other hloc (Nat.pos_of_ne_zero hne) (by simp [htype]) (by simp [htype])
    · exact iff_of_true hdisp ⟨hservice, hnone⟩

/-- A build with a video BIOS of 38 KiB. -/
def sampleBins : Bins := ⟨38912, by decide⟩

def noFile : VgabiosFile := ⟨false, false, false, false, 0⟩

/-- A card at 00:02.0 with the ROM `twoImages`. -/
def sampleCard : PciIo := ⟨0, 2, 0, 0x8086, 0x46a6, true, twoImages⟩

def sampleGop : GraphicsOutput :=
  ⟨some 0, 0x80000000, fun _ => some ⟨1024, 768, 1, 0, 0, 0, 0, 1024⟩⟩

/-- Firmware with two handles, of which the second has graphics output, on the card; and
firmware that has no handle and reports this as an error. -/
def withCard : Firmware := ⟨some [none, some (some sampleGop)], true, true, some sampleCard, true⟩

def noService : Firmware := ⟨none, false, false, none, false⟩

theorem dispatchable_card : ∃ priv,
    efiMainVideo sampleBins noFile withCard 3 sampleFramebuffer =
        some (priv, ⟨some (.rom 512), 512⟩) ∧
      Dispatchable priv ⟨some (.rom 512), 512⟩ := by
  have hreturned : (getPciLegacyRom twoImages (oprom 0x8086 0x46a6) 3).value =
      some (.returned ⟨.success, 512, 512, none, none, none⟩) := by
    rfl
  have hempty : ¬ sampleCard.OffersEmpty := by
    rintro ⟨-, hsize, hmatch⟩
    have hzero := (returned_empty hsize hreturned).mpr hmatch
    exact absurd hzero.2 (by decide)
  have hrun : efiMainVideo sampleBins noFile withCard 3 sampleFramebuffer =
      some (⟨.oprom, some sampleGop, some 1, some sampleCard, 0, 16, sampleFramebuffer⟩,
        ⟨some (.rom 512), 512⟩) := by
    rfl
  refine ⟨_, hrun, (dispatchable_iff sampleBins hrun).mpr (.inr ⟨?_, ?_, ?_⟩)⟩
  · rintro ⟨h, -⟩
    cases h
  · rintro (h | ⟨handles, h, -, hnone⟩)
    · cases h
    · cases h
      exact absurd (hnone (some (some sampleGop)) (by simp)) (by simp)
  · rintro ⟨pciIo, ⟨-, -, -, h⟩, hoffers⟩
    cases h
    exact hempty hoffers

/-- Without graphics output there is no video BIOS at all, although there is a fallback;
and an empty file is taken for one. -/
theorem dispatchable_noService :
    (∃ priv, efiMainVideo sampleBins noFile noService 1 sampleFramebuffer =
      some (priv, ⟨none, 0⟩)) ∧
    ∃ priv, efiMainVideo sampleBins ⟨true, true, true, true, 0⟩ withCard 1 sampleFramebuffer =
      some (priv, ⟨some .file, 0⟩) :=
  ⟨⟨_, rfl⟩, _, rfl⟩

end CsmWrap.Video
