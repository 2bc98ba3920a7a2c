import CsmWrap.Overwrite
import CsmWrap.Vga.Emulator

/-!
# The globals of `cbvga.c` in the ROM

The variables that `SET_VGA` stores are bytes of the ROM at C0000h, and on the CSM path
nothing locks them: a store through some other segment changes them like any memory. A
`RomLayout` says where they are, and `RomLayout.overwrite` what stores to the ROM make of them.
-/

namespace CsmWrap.Vga
open Coreboot Memory

/-- Where the linker has put the globals, as offsets in the ROM. -/
structure RomLayout where
  cbMode : Nat
  cbModeinfo : Nat
  cbEmulinfo : Nat
  cbLinelength : Nat
  redSize : Nat
  greenSize : Nat
  blueSize : Nat
  redPos : Nat
  greenPos : Nat
  bluePos : Nat
  vbeFramebuffer : Nat
  vbeTotalMemory : Nat
  vbeWinGranularity : Nat
  svgaModes : Nat
  svgaMcount : Nat

/-- What a change of memory leaves at an offset in the ROM, of which the first `size` bytes are
seen from `base` on. -/
def romStored (base size : Nat) (before after : Mem) (rom : Int) : Option UInt8 :=
  let a := base + rom.toNat
  if rom.toNat < size ∧ after a ≠ before a then some (after a) else none

/-- The numbers `MM_*`. -/
def MemModel.code : MemModel → UInt32
  | .text => 0
  | .cga => 1
  | .hercules => 2
  | .planar => 3
  | .packed => 4
  | .nonChain4x256 => 5
  | .direct => 6
  | .yuv => 7

/-- A byte that is none of the numbers is compared with `MM_TEXT` like the last one. -/
def MemModel.ofCode (code : UInt32) : MemModel :=
  match code.toUInt8 with
  | 0 => .text
  | 1 => .cga
  | 2 => .hercules
  | 3 => .planar
  | 4 => .packed
  | 5 => .nonChain4x256
  | 6 => .direct
  | _ => .yuv

section
variable (stored : Int → Option UInt8)

def patch8 (rom : Nat) (v : UInt8) : UInt8 :=
  Overwrite.patch stored rom 1 UInt8.toUInt32 UInt32.toUInt8 v

def patch16 (rom : Nat) (v : UInt16) : UInt16 :=
  Overwrite.patch stored rom 2 UInt16.toUInt32 UInt32.toUInt16 v

def patch32 (rom : Nat) (v : UInt32) : UInt32 := Overwrite.patch stored rom 4 id id v

/-- The fields of `struct vgamode_s` at their places. -/
def VgaMode.patch (rom : Nat) (m : VgaMode) : VgaMode where
  memmodel := Overwrite.patch stored rom 1 MemModel.code MemModel.ofCode m.memmodel
  width := patch16 stored (rom + 2) m.width
  height := patch16 stored (rom + 4) m.height
  depth := patch8 stored (rom + 6) m.depth
  cwidth := patch8 stored (rom + 7) m.cwidth
  cheight := patch8 stored (rom + 8) m.cheight
  sstart := patch16 stored (rom + 10) m.sstart

/-- The globals after such a change. -/
def RomLayout.overwrite (l : RomLayout) (cb : State) : State where
  cbMode := Overwrite.patch stored l.cbMode 4 UInt32.ofInt asInt cb.cbMode
  cbModeinfo := cb.cbModeinfo.patch stored l.cbModeinfo
  cbEmulinfo := cb.cbEmulinfo.patch stored l.cbEmulinfo
  cbLinelength := patch32 stored l.cbLinelength cb.cbLinelength
  masks :=
    { redSize := patch8 stored l.redSize cb.masks.redSize
      greenSize := patch8 stored l.greenSize cb.masks.greenSize
      blueSize := patch8 stored l.blueSize cb.masks.blueSize
      redPos := patch8 stored l.redPos cb.masks.redPos
      greenPos := patch8 stored l.greenPos cb.masks.greenPos
      bluePos := patch8 stored l.bluePos cb.masks.bluePos }
  vbeFramebuffer := patch32 stored l.vbeFramebuffer cb.vbeFramebuffer
  vbeTotalMemory := patch32 stored l.vbeTotalMemory cb.vbeTotalMemory
  vbeWinGranularity := patch16 stored l.vbeWinGranularity cb.vbeWinGranularity
  svgaModes := cb.svgaModes.mapIdx fun i m =>
    ⟨patch16 stored (l.svgaModes + 14 * i) m.mode, m.info.patch stored (l.svgaModes + 14 * i + 2)⟩
  svgaMcount := Overwrite.patch stored l.svgaMcount 4 UInt32.ofNat UInt32.toNat cb.svgaMcount

end

theorem overwrite_of_untouched (l : RomLayout) {stored : Int → Option UInt8}
    (h : ∀ rom, stored rom = none) (cb : State) : l.overwrite stored cb = cb := by
  have hpatch : ∀ {α : Type} (rom : Int) (size : Nat) (encode : α → UInt32) (decode : UInt32 → α)
      (a : α), Overwrite.patch stored rom size encode decode a = a := fun rom size =>
    Overwrite.patch_of_untouched fun i _ => h (rom + i)
  have hmode : ∀ (rom : Nat) (m : VgaMode), m.patch stored rom = m := by
    intro rom m
    simp only [VgaMode.patch, patch8, patch16, hpatch]
  have htable : (cb.svgaModes.mapIdx fun i m => (⟨patch16 stored (l.svgaModes + 14 * i) m.mode,
      m.info.patch stored (l.svgaModes + 14 * i + 2)⟩ : SvgaMode)) = cb.svgaModes := by
    apply List.ext_getElem List.length_mapIdx
    intro i hi hi'
    simp only [List.getElem_mapIdx, patch16, hpatch, hmode]
  rw [RomLayout.overwrite, htable]
  simp only [hmode, patch8, patch16, patch32, hpatch]

/-- Where the ROM is as it was, nothing is stored. -/
theorem romStored_eq_none {base size : Nat} {before after : Mem}
    (h : ∀ a, base ≤ a → a < base + size → after a = before a) (rom : Int) :
    romStored base size before after rom = none := by
  apply if_neg
  rintro ⟨hlt, hne⟩
  exact hne (h _ (Nat.le_add_right ..) (Nat.add_lt_add_left hlt base))

/-- `CBmodeinfo` 6498h bytes into the ROM, and the other globals around it. -/
def romLayout : RomLayout :=
  ⟨0x6494, 0x6498, 0x64a4, 0x64b0, 0x64b4, 0x64b5, 0x64b6, 0x64b7, 0x64b8, 0x64b9, 0x64bc, 0x64c0,
    0x64c4, 0x64c6, 0x6b00⟩

end CsmWrap.Vga
