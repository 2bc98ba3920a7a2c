import CsmWrap.Vga.TextMemory

/-!
# Text memory and its mirror

In a text mode every change of text memory is also drawn into the framebuffer.
The drawing takes some of what it shows from the caller and reads the rest back
after the rows have been moved. Calls are described here cell by cell, in text
memory and on the screen.
-/

namespace CsmWrap.Vga
open Memory Sweep

/-- A call of a drawing function of `cbvga.c`. -/
inductive MirrorOp where
  | renderChar (cx cy : UInt16) (ch attr : UInt8)
  | clearRegion (x y cols rows : UInt16) (attr : UInt8)
  | drawCursor (cx cy : UInt16) (attr : UInt8) (start stop : Int)
  deriving DecidableEq, Repr

def vgafbReadChar (b : Bios) (cp : CursorPos) : Cell :=
  ⟨b.vram (textAddress b cp), b.vram (textAddress b cp + 1)⟩

def vgafbMoveChars (b : Bios) (dest movesize : CursorPos) (lines : Int) : Bios :=
  let stride : Int := b.videoCols.toNat * 2
  let destAddr : Int := textAddress b dest
  { b with
    vram := memmoveStride b.vram destAddr (destAddr + lines * stride) (movesize.x.toNat * 2) stride
      movesize.y.toNat }

/-- The attribute that text memory is cleared with. -/
def CarAttr.clearAttr (ca : CarAttr) : UInt8 := if ca.useAttr then ca.attr else 0x07

def vgafbClearChars (b : Bios) (win winsize : CursorPos) (ca : CarAttr) : Bios × List MirrorOp :=
  let stride : Int := b.videoCols.toNat * 2
  ({ b with
      vram := memset16Stride ca.car ca.clearAttr (winsize.x.toNat * 2) stride winsize.y.toNat
        (textAddress b win) b.vram },
    [.clearRegion win.x.toUInt16 win.y.toUInt16 winsize.x.toUInt16 winsize.y.toUInt16 ca.attr])

/-- The loops of `vgafb_scroll` that draw rows of the window anew, each from the row
`up` rows above it. -/
def mirrorRows (b : Bios) (win : CursorPos) (cols : Nat) (up : Int) (rows : List Int) :
    List MirrorOp :=
  rows.flatMap fun row => (Int.range 0 cols).map fun col =>
    let c := vgafbReadChar b
      ⟨UInt8.ofInt (win.x.toNat + col), UInt8.ofInt (win.y.toNat + row - up), 0⟩
    .renderChar (UInt16.ofInt (win.x.toNat + col)) (UInt16.ofInt (win.y.toNat + row)) c.ch c.attr

def vgafbScroll (b : Bios) (win winsize : CursorPos) (lines : Int) (ca : CarAttr) :
    Bios × List MirrorOp :=
  if lines = 0 then vgafbClearChars b win winsize ca
  else if lines > 0 then
    let clearpos : CursorPos := ⟨win.x, UInt8.ofInt (win.y.toNat + winsize.y.toNat - lines), 0⟩
    let clearsize : CursorPos := ⟨winsize.x, UInt8.ofInt lines, 0⟩
    let (b, cleared) := vgafbClearChars (vgafbMoveChars b win winsize lines) clearpos clearsize ca
    (b, cleared ++
      mirrorRows b win winsize.x.toNat 0 (Int.range 0 (winsize.y.toNat - lines)) ++
      [.clearRegion win.x.toUInt16 (UInt16.ofInt (win.y.toNat + winsize.y.toNat - lines))
        winsize.x.toUInt16 (UInt16.ofInt lines) ca.attr])
  else
    let nlines := -lines
    let clearsize : CursorPos := ⟨winsize.x, UInt8.ofInt nlines, 0⟩
    let (b, cleared) :=
      vgafbClearChars (vgafbMoveChars b win winsize (-nlines)) ⟨win.x, win.y, 0⟩ clearsize ca
    (b, cleared ++
      mirrorRows b win winsize.x.toNat nlines (Int.range nlines winsize.y.toNat).reverse ++
      [.clearRegion win.x.toUInt16 win.y.toUInt16 winsize.x.toUInt16 (UInt16.ofInt nlines)
        ca.attr])

/-- A call into `vgafb.c` in a text mode. -/
inductive VgafbCall where
  | writeChar (cp : CursorPos) (ca : CarAttr)
  | scroll (win winsize : CursorPos) (lines : Int) (ca : CarAttr)
  deriving DecidableEq, Repr

def VgafbCall.run (b : Bios) : VgafbCall → Bios × List MirrorOp
  | writeChar cp ca =>
    (vgafbWriteChar b cp ca, [.renderChar cp.x.toUInt16 cp.y.toUInt16 ca.car ca.attr])
  | scroll win winsize lines ca => vgafbScroll b win winsize lines ca

/-! ## What is displayed -/

/-- What a cell of the screen displays: a character, or a blank on a background. -/
inductive Shown where
  | char (ch attr : UInt8)
  | blank (background : UInt8)
  deriving DecidableEq, Repr

/-- The attribute's background colour. -/
def background (attr : UInt8) : UInt8 := attr >>> 4 &&& 0x0f

def MirrorOp.shows (x y : Nat) : MirrorOp → Option Shown
  | renderChar cx cy ch attr =>
    if x = cx.toNat ∧ y = cy.toNat then some (.char ch attr) else none
  | clearRegion x₀ y₀ cols rows attr =>
    if (x₀.toNat ≤ x ∧ x < x₀.toNat + cols.toNat) ∧ y₀.toNat ≤ y ∧ y < y₀.toNat + rows.toNat then
      some (.blank (background attr))
    else none
  | drawCursor .. => none

/-- What a cell displays after some drawing, if that has drawn it at all. -/
def shownAt (x y : Nat) : List MirrorOp → Option Shown
  | [] => none
  | op :: ops => (shownAt x y ops).or (op.shows x y)

theorem shownAt_append (x y : Nat) (ops ops' : List MirrorOp) :
    shownAt x y (ops ++ ops') = (shownAt x y ops').or (shownAt x y ops) := by
  induction ops with
  | nil => simp [shownAt]
  | cons op ops ih => simp only [List.cons_append, shownAt, ih, Option.or_assoc]

/-- Where all drawing of a cell agrees. -/
theorem shownAt_of_forall {x y : Nat} {ops : List MirrorOp} {s : Shown}
    (h : ∀ op ∈ ops, op.shows x y = none ∨ op.shows x y = some s) :
    shownAt x y ops = if ∃ op ∈ ops, op.shows x y = some s then some s else none := by
  induction ops with
  | nil => simp [shownAt]
  | cons op ops ih =>
    rw [shownAt, ih fun op' hop => h op' (List.mem_cons_of_mem op hop)]
    by_cases hlater : ∃ op' ∈ ops, op'.shows x y = some s
    · obtain ⟨op', hop, hs⟩ := hlater
      rw [if_pos ⟨op', hop, hs⟩, if_pos ⟨op', List.mem_cons_of_mem op hop, hs⟩, Option.some_or]
    · rw [if_neg hlater, Option.none_or]
      rcases h op List.mem_cons_self with hnone | hsome
      · rw [hnone, if_neg]
        rintro ⟨op', hop, hs⟩
        rcases List.mem_cons.mp hop with rfl | hop
        · rw [hnone] at hs
          cases hs
        · exact hlater ⟨op', hop, hs⟩
      · rw [hsome, if_pos ⟨op, List.mem_cons_self, hsome⟩]

/-- The cell of a column and a row. Rows above the screen are found at the end of the
segment. -/
def textCell (cols : Nat) (m : Mem) (x y : Int) : Cell :=
  ⟨m (offset (y * (cols * 2) + x * 2)), m (offset (y * (cols * 2) + (x * 2 + 1)))⟩

/-- A window on a screen that lies in the 32 KiB of text memory. -/
structure TextWindow where
  cols : Nat
  rows : Nat
  x : Nat
  y : Nat
  w : Nat
  h : Nat
  fits : rows * (cols * 2) ≤ 0x8000
  x_le : x + w ≤ cols
  y_le : y + h ≤ rows

namespace TextWindow

def block (W : TextWindow) : Block where
  stride := W.cols * 2
  rows := W.rows
  y := W.y
  x := W.x * 2
  lines := W.h
  len := W.w * 2
  fits := by
    have := W.fits
    rw [mul_assoc]
    exact_mod_cast (by omega : 2 * (W.rows * (W.cols * 2)) ≤ 0x10000)
  y_nonneg := by omega
  y_le := by have := W.y_le; omega
  x_nonneg := by omega
  x_le := by have := W.x_le; push_cast; omega

def Covers (W : TextWindow) (x y : Int) : Prop :=
  (W.x ≤ x ∧ x < W.x + W.w) ∧ W.y ≤ y ∧ y < W.y + W.h

instance (W : TextWindow) (x y : Int) : Decidable (W.Covers x y) := by unfold Covers; infer_instance

/-- Positions as far as one screen above or below this one. -/
def Near (W : TextWindow) (x y : Int) : Prop :=
  (0 ≤ x ∧ x < W.cols) ∧ -(W.rows : Int) ≤ y ∧ y < 2 * W.rows

variable {W : TextWindow} {x y : Int}

theorem Covers.near (h : W.Covers x y) : W.Near x y := by
  obtain ⟨⟨hx, hx'⟩, hy, hy'⟩ := h
  have := W.x_le
  have := W.y_le
  exact ⟨⟨by omega, by omega⟩, by omega, by omega⟩

/-- The two bytes of a cell are covered together. -/
theorem block_covers {i : Int} (hi : i = x * 2 ∨ i = x * 2 + 1) :
    W.block.Covers y i ↔ W.Covers x y := by
  simp only [Block.Covers, Covers, block]
  push_cast
  omega

theorem Near.block (h : W.Near x y) {i : Int} (hi : i = x * 2 ∨ i = x * 2 + 1) :
    W.block.Near y i := by
  obtain ⟨hx, hy⟩ := h
  refine ⟨hy, ?_⟩
  simp only [TextWindow.block]
  omega

/-- Where a byte of the block is covered, so is the cell it belongs to. -/
theorem exists_cell {r i : Int} (h : W.block.Covers r i) :
    ∃ x y : Nat, W.Covers x y ∧ r = y ∧ (i = x * 2 ∨ i = x * 2 + 1) := by
  obtain ⟨⟨hr, hr'⟩, hi, hi'⟩ := h
  simp only [block] at hr hr' hi hi'
  refine ⟨(i / 2).toNat, r.toNat, ⟨⟨by omega, ?_⟩, by omega, by omega⟩, by omega, by omega⟩
  push_cast at hi'
  omega

def cell (W : TextWindow) (m : Mem) (x y : Int) : Cell := textCell W.cols m x y

theorem cell_eq (m : Mem) : W.cell m x y =
    ⟨W.block.byteAt m y (x * 2), W.block.byteAt m y (x * 2 + 1)⟩ := rfl

theorem len_pos (hw : 0 < W.w) : 0 < W.block.len := Nat.mul_pos hw Nat.two_pos

theorem cell_moved {n : Int} (hn : -W.h < n ∧ n < W.h) (hn₀ : n ≠ 0) (hw : 0 < W.w)
    (hsource : 0 ≤ W.y + n) (h : W.Near x y) (m : Mem) :
    W.cell (W.block.moved n m) x y = if W.Covers x y then W.cell m x (y + n) else W.cell m x y := by
  have hbyte : ∀ i, i = x * 2 ∨ i = x * 2 + 1 → W.block.byteAt (W.block.moved n m) y i =
      if W.Covers x y then W.block.byteAt m (y + n) i else W.block.byteAt m y i := by
    intro i hi
    rw [Block.byteAt_moved hn hn₀ (len_pos hw) hsource (h.block hi)]
    simp only [block_covers hi]
  rw [cell_eq, hbyte _ (.inl rfl), hbyte _ (.inr rfl)]
  split <;> rfl

section
variable {n : Int} (hn : -W.h < n ∧ n < W.h) (hw : 0 < W.w) (hsource : W.y + n < 0)
include hn hw hsource

theorem cell_wrapped (h : W.Covers x y) (m : Mem) :
    W.cell (W.block.moved n m) x y = W.cell (W.block.moved n m) x (y + n) := by
  have hbyte : ∀ i, i = x * 2 ∨ i = x * 2 + 1 → W.block.byteAt (W.block.moved n m) y i =
      W.block.byteAt (W.block.moved n m) (y + n) i := fun i hi =>
    Block.byteAt_wrapped hn (len_pos hw) hsource ((block_covers hi).mpr h) m
  rw [cell_eq, hbyte _ (.inl rfl), hbyte _ (.inr rfl), cell_eq]

theorem cell_wrapped_outside (h : W.Near x y) (hout : ¬ W.Covers x y) (m : Mem) :
    W.cell (W.block.moved n m) x y = W.cell m x y := by
  have hbyte : ∀ i, i = x * 2 ∨ i = x * 2 + 1 → W.block.byteAt (W.block.moved n m) y i =
      W.block.byteAt m y i := fun i hi =>
    Block.byteAt_wrapped_outside hn (len_pos hw) hsource (h.block hi)
      (mt (block_covers hi).mp hout) m
  rw [cell_eq, hbyte _ (.inl rfl), hbyte _ (.inr rfl), cell_eq]

end

theorem cell_filled (lo hi : UInt8) (m : Mem) (h : W.Near x y) :
    W.cell (W.block.filled lo hi m) x y = if W.Covers x y then ⟨lo, hi⟩ else W.cell m x y := by
  have hbyte : ∀ i, i = x * 2 ∨ i = x * 2 + 1 → W.block.byteAt (W.block.filled lo hi m) y i =
      if W.Covers x y then if i % 2 = 0 then lo else hi else W.block.byteAt m y i := by
    intro i hi'
    rw [Block.byteAt_filled (w := W.w) rfl (by simp only [block]; omega)
      (by simp only [block]; omega) lo hi m (h.block hi')]
    simp only [block_covers hi']
  rw [cell_eq, hbyte _ (.inl rfl), hbyte _ (.inr rfl), if_pos (show x * 2 % 2 = 0 by omega),
    if_neg (show ¬ (x * 2 + 1) % 2 = 0 by omega)]
  split <;> rfl

/-- A part of a window, with all its columns. -/
structure Rows (Z W : TextWindow) : Prop where
  cols : Z.cols = W.cols
  x : Z.x = W.x
  w : Z.w = W.w
  pos : 0 < Z.h
  top : W.y ≤ Z.y
  bottom : Z.y + Z.h ≤ W.y + W.h

theorem Rows.covers {Z : TextWindow} (h : Z.Rows W) (hZ : Z.Covers x y) : W.Covers x y := by
  obtain ⟨⟨_, _⟩, _, _⟩ := hZ
  obtain ⟨_, _, _, _, _, _⟩ := h
  exact ⟨⟨by omega, by omega⟩, by omega, by omega⟩

theorem Rows.block_covers {Z : TextWindow} (h : Z.Rows W) {r i : Int} (hZ : Z.block.Covers r i) :
    W.block.Covers r i := by
  obtain ⟨x, y, hcovers, rfl, hi⟩ := exists_cell hZ
  exact (TextWindow.block_covers hi).mpr (h.covers hcovers)

end TextWindow

theorem toNat_ofInt8 {n : Int} (h : 0 ≤ n ∧ n < 0x100) : ((UInt8.ofInt n).toNat : Int) = n := by
  rw [UInt8.ofInt, UInt8.toNat_ofNat']
  omega

theorem toNat_ofInt16 {n : Int} (h : 0 ≤ n ∧ n < 0x10000) :
    ((UInt16.ofInt n).toNat : Int) = n := by
  rw [UInt16.ofInt, UInt16.toNat_ofNat']
  omega

/-- A call for the first page, within the screen. -/
def VgafbCall.OnScreen (b : Bios) : VgafbCall → Prop
  | writeChar cp _ => cp.page = 0 ∧ cp.x.toNat < b.videoCols.toNat ∧ cp.y ≤ b.videoRows
  | scroll win winsize lines _ =>
    win.page = 0 ∧ win.x.toNat + winsize.x.toNat ≤ b.videoCols.toNat ∧
      win.y.toNat + winsize.y.toNat ≤ b.videoRows.toNat + 1 ∧
      -(winsize.y.toNat : Int) < lines ∧ lines < winsize.y.toNat

theorem textAddress_firstPage (b : Bios) {cp : CursorPos} (hpage : cp.page = 0) :
    textAddress b cp = cp.y.toNat * (b.videoCols.toNat * 2) + cp.x.toNat * 2 := by
  rw [textAddress, hpage, UInt8.toNat_zero, mul_zero, zero_add]

namespace Bios

/-- The first page lies in the 32 KiB of text memory, and a byte holds a column. -/
structure Fits (b : Bios) : Prop where
  cols : b.videoCols.toNat ≤ 256
  size : (b.videoRows.toNat + 1) * (b.videoCols.toNat * 2) ≤ 0x8000

def cell (b : Bios) (x y : Int) : Cell := textCell b.videoCols.toNat b.vram x y

def window {b : Bios} (hb : b.Fits) {x y w h : Nat} (hx : x + w ≤ b.videoCols.toNat)
    (hy : y + h ≤ b.videoRows.toNat + 1) : TextWindow :=
  ⟨b.videoCols.toNat, b.videoRows.toNat + 1, x, y, w, h, hb.size, hx, hy⟩

variable {b : Bios} (hb : b.Fits)
include hb

/-- A row of the screen ends within text memory. -/
theorem row_end {y : Nat} (hy : y ≤ b.videoRows.toNat) :
    y * (b.videoCols.toNat * 2) + b.videoCols.toNat * 2 ≤ 0x8000 :=
  calc y * (b.videoCols.toNat * 2) + b.videoCols.toNat * 2
      = (y + 1) * (b.videoCols.toNat * 2) := by rw [add_mul, one_mul]
    _ ≤ (b.videoRows.toNat + 1) * (b.videoCols.toNat * 2) := Nat.mul_le_mul_right _ (by omega)
    _ ≤ 0x8000 := hb.size

/-- On the first page an address is the offset of its cell. -/
theorem offset_textAddress {cp : CursorPos} (hpage : cp.page = 0)
    (hx : cp.x.toNat < b.videoCols.toNat) (hy : cp.y.toNat ≤ b.videoRows.toNat) :
    offset (cp.y.toNat * (b.videoCols.toNat * 2) + cp.x.toNat * 2) = textAddress b cp ∧
      offset (cp.y.toNat * (b.videoCols.toNat * 2) + (cp.x.toNat * 2 + 1)) =
        textAddress b cp + 1 := by
  have hend := row_end hb hy
  have hlo := offset_natCast (cp.y.toNat * (b.videoCols.toNat * 2) + cp.x.toNat * 2) (by omega)
  have hhi := offset_natCast (cp.y.toNat * (b.videoCols.toNat * 2) + cp.x.toNat * 2 + 1) (by omega)
  push_cast at hlo hhi
  rw [textAddress_firstPage b hpage, ← add_assoc]
  exact ⟨hlo, hhi⟩

theorem vgafbReadChar_eq {x y : Int} (hx : 0 ≤ x ∧ x < b.videoCols.toNat)
    (hy : 0 ≤ y ∧ y ≤ b.videoRows.toNat) :
    vgafbReadChar b ⟨UInt8.ofInt x, UInt8.ofInt y, 0⟩ = b.cell x y := by
  have hcols := hb.cols
  have hrows := b.videoRows.toNat_lt
  have hx' := toNat_ofInt8 (n := x) (by omega)
  have hy' := toNat_ofInt8 (n := y) (by omega)
  generalize UInt8.ofInt x = cx at hx' ⊢
  generalize UInt8.ofInt y = cy at hy' ⊢
  subst hx' hy'
  have hx' : cx.toNat < b.videoCols.toNat := by omega
  have hy' : cy.toNat ≤ b.videoRows.toNat := by omega
  have hpage : (⟨cx, cy, 0⟩ : CursorPos).page = 0 := rfl
  obtain ⟨hlo, hhi⟩ := offset_textAddress hb hpage hx' hy'
  rw [vgafbReadChar, cell, textCell, hlo, hhi]

/-- The loops that draw rows anew show in each cell what is `up` rows above it. -/
theorem shownAt_mirrorRows {win : CursorPos} {cols : Nat} {up : Int} {rows : List Int}
    (hcols : win.x.toNat + cols ≤ b.videoCols.toNat)
    (hrows : ∀ row ∈ rows, (0 ≤ win.y.toNat + row ∧ win.y.toNat + row ≤ b.videoRows.toNat) ∧
      0 ≤ win.y.toNat + row - up ∧ win.y.toNat + row - up ≤ b.videoRows.toNat) (x y : Nat) :
    shownAt x y (mirrorRows b win cols up rows) =
      if (win.x.toNat ≤ x ∧ x < win.x.toNat + cols) ∧ (y : Int) - win.y.toNat ∈ rows then
        some (.char (b.cell x (y - up)).ch (b.cell x (y - up)).attr)
      else none := by
  have hrender : ∀ row ∈ rows, ∀ col ∈ Int.range 0 cols, MirrorOp.shows x y
      (.renderChar (UInt16.ofInt (win.x.toNat + col)) (UInt16.ofInt (win.y.toNat + row))
        (vgafbReadChar b ⟨UInt8.ofInt (win.x.toNat + col),
          UInt8.ofInt (win.y.toNat + row - up), 0⟩).ch
        (vgafbReadChar b ⟨UInt8.ofInt (win.x.toNat + col),
          UInt8.ofInt (win.y.toNat + row - up), 0⟩).attr) =
      if (x : Int) = win.x.toNat + col ∧ (y : Int) = win.y.toNat + row then
        some (.char (b.cell x (y - up)).ch (b.cell x (y - up)).attr)
      else none := by
    intro row hrow col hcol
    have hcol := Int.mem_range_iff.mp hcol
    obtain ⟨hrow, hsource⟩ := hrows row hrow
    have := b.videoCols.toNat_lt
    have := b.videoRows.toNat_lt
    have hx := toNat_ofInt16 (n := win.x.toNat + col) (by omega)
    have hy := toNat_ofInt16 (n := win.y.toNat + row) (by omega)
    rw [vgafbReadChar_eq hb (by omega) hsource, MirrorOp.shows]
    by_cases hhit : (x : Int) = win.x.toNat + col ∧ (y : Int) = win.y.toNat + row
    · rw [if_pos hhit, if_pos (by omega), hhit.1, hhit.2]
    · rw [if_neg hhit, if_neg (by omega)]
  have hall : ∀ op ∈ mirrorRows b win cols up rows, op.shows x y = none ∨
      op.shows x y = some (.char (b.cell x (y - up)).ch (b.cell x (y - up)).attr) := by
    intro op hop
    obtain ⟨row, hrow, hop⟩ := List.mem_flatMap.mp hop
    obtain ⟨col, hcol, rfl⟩ := List.mem_map.mp hop
    rw [hrender row hrow col hcol]
    split
    · exact .inr rfl
    · exact .inl rfl
  rw [shownAt_of_forall hall]
  congr 1
  rw [eq_iff_iff]
  constructor
  · rintro ⟨op, hop, hs⟩
    obtain ⟨row, hrow, hop⟩ := List.mem_flatMap.mp hop
    obtain ⟨col, hcol, rfl⟩ := List.mem_map.mp hop
    rw [hrender row hrow col hcol] at hs
    have hcol := Int.mem_range_iff.mp hcol
    split at hs
    next hhit =>
      refine ⟨by omega, ?_⟩
      rwa [show (y : Int) - win.y.toNat = row by omega]
    next => cases hs
  · rintro ⟨hx, hrow⟩
    have hcol : (x : Int) - win.x.toNat ∈ Int.range 0 cols := Int.mem_range_iff.mpr (by omega)
    refine ⟨_, List.mem_flatMap.mpr ⟨_, hrow, List.mem_map.mpr ⟨_, hcol, rfl⟩⟩, ?_⟩
    rw [hrender _ hrow _ hcol, if_pos (by omega)]

omit hb in
theorem vgafbMoveChars_vram {W : TextWindow} {win winsize : CursorPos} (hpage : win.page = 0)
    (hcols : W.cols = b.videoCols.toNat) (hx : W.x = win.x.toNat) (hy : W.y = win.y.toNat)
    (hw : W.w = winsize.x.toNat) (hh : W.h = winsize.y.toNat) (lines : Int) :
    (vgafbMoveChars b win winsize lines).vram = W.block.moved lines b.vram := by
  have haddress : (textAddress b win : Int) = W.y * (W.cols * 2) + W.x * 2 := by
    rw [textAddress_firstPage b hpage, hcols, hx, hy]
    push_cast
    rfl
  simp only [vgafbMoveChars, Block.moved, TextWindow.block, haddress, ← hcols, hw, hh]

omit hb in
theorem vgafbClearChars_vram {W : TextWindow} {win winsize : CursorPos} (hpage : win.page = 0)
    (hcols : W.cols = b.videoCols.toNat) (hx : W.x = win.x.toNat) (hy : W.y = win.y.toNat)
    (hw : W.w = winsize.x.toNat) (hh : W.h = winsize.y.toNat) (ca : CarAttr) :
    (vgafbClearChars b win winsize ca).1.vram = W.block.filled ca.car ca.clearAttr b.vram := by
  have haddress : (textAddress b win : Int) = W.y * (W.cols * 2) + W.x * 2 := by
    rw [textAddress_firstPage b hpage, hcols, hx, hy]
    push_cast
    rfl
  simp only [vgafbClearChars, Block.filled, TextWindow.block, haddress, ← hcols, hw, hh]

end Bios

/-- The state after the rows of a window were moved and some of them cleared. -/
def scrolled (b : Bios) (win winsize : CursorPos) (lines : Int) (y n : UInt8) (ca : CarAttr) :
    Bios :=
  (vgafbClearChars (vgafbMoveChars b win winsize lines) ⟨win.x, y, 0⟩ ⟨winsize.x, n, 0⟩ ca).1

theorem scrolled_vram {W Z : TextWindow} {b : Bios} {win winsize : CursorPos} {y n : UInt8}
    (hpage : win.page = 0) (hcols : W.cols = b.videoCols.toNat) (hx : W.x = win.x.toNat)
    (hy : W.y = win.y.toNat) (hw : W.w = winsize.x.toNat) (hh : W.h = winsize.y.toNat)
    (hZ : Z.Rows W) (hZy : Z.y = y.toNat) (hZh : Z.h = n.toNat) (lines : Int) (ca : CarAttr) :
    (scrolled b win winsize lines y n ca).vram =
      Z.block.filled ca.car ca.clearAttr (W.block.moved lines b.vram) := by
  have hmove := Bios.vgafbMoveChars_vram hpage hcols hx hy hw hh lines
  rw [← hmove]
  apply Bios.vgafbClearChars_vram rfl
  · exact hZ.cols.trans hcols
  · exact hZ.x.trans hx
  · exact hZy
  · exact hZ.w.trans hw
  · exact hZh

/-- What `vgafb_scroll` draws: the part that is cleared, rows of the window anew, and the
part that is cleared once more. -/
def scrollOps (b : Bios) (win winsize : CursorPos) (up : Int) (rows : List Int) (y₈ n₈ : UInt8)
    (y₁₆ n₁₆ : UInt16) (attr : UInt8) : List MirrorOp :=
  [.clearRegion win.x.toUInt16 y₈.toUInt16 winsize.x.toUInt16 n₈.toUInt16 attr] ++
    mirrorRows b win winsize.x.toNat up rows ++
    [.clearRegion win.x.toUInt16 y₁₆ winsize.x.toUInt16 n₁₆ attr]

theorem run_scroll_up (b : Bios) (win winsize : CursorPos) {lines : Int} (h : 0 < lines)
    (ca : CarAttr) :
    let bottom := win.y.toNat + winsize.y.toNat - lines
    let b' := scrolled b win winsize lines (UInt8.ofInt bottom) (UInt8.ofInt lines) ca
    (VgafbCall.scroll win winsize lines ca).run b = (b', scrollOps b' win winsize 0
      (Int.range 0 (winsize.y.toNat - lines)) (UInt8.ofInt bottom) (UInt8.ofInt lines)
      (UInt16.ofInt bottom) (UInt16.ofInt lines) ca.attr) := by
  rw [VgafbCall.run, vgafbScroll, if_neg (by omega), if_pos h]
  rfl

theorem run_scroll_down (b : Bios) (win winsize : CursorPos) {n : Int} (h : 0 < n)
    (ca : CarAttr) :
    let b' := scrolled b win winsize (-n) win.y (UInt8.ofInt n) ca
    (VgafbCall.scroll win winsize (-n) ca).run b = (b', scrollOps b' win winsize n
      (Int.range n winsize.y.toNat).reverse win.y (UInt8.ofInt n) win.y.toUInt16
      (UInt16.ofInt n) ca.attr) := by
  rw [VgafbCall.run, vgafbScroll, if_neg (by omega), if_neg (by omega)]
  simp only [neg_neg]
  rfl

section
variable {b : Bios} (hb : b.Fits) {win winsize : CursorPos} (hpage : win.page = 0)
  (hx : win.x.toNat + winsize.x.toNat ≤ b.videoCols.toNat)
  (hy : win.y.toNat + winsize.y.toNat ≤ b.videoRows.toNat + 1)
include hb hpage hx hy

/-- Rows that are moved up, as `vgafb_scroll` does within a screen. -/
theorem vgafbMoveChars_up {n : Nat} (hn : 0 < n) (hn' : n < winsize.y.toNat) :
    (vgafbMoveChars b win winsize n).vram = (List.range winsize.y.toNat).foldl
      (fun m k => store m (textAddress b win + k * (b.videoCols.toNat * 2))
        (load m (textAddress b win + (k + n) * (b.videoCols.toNat * 2)) (winsize.x.toNat * 2)))
      b.vram := by
  have hdest := textAddress_firstPage b hpage
  have hend : ∀ y ≤ 2 * b.videoRows.toNat + 1,
      y * (b.videoCols.toNat * 2) + b.videoCols.toNat * 2 ≤ 0x10000 := by
    intro y hy
    have hrow : (y + 1) * (b.videoCols.toNat * 2) ≤
        2 * (b.videoRows.toNat + 1) * (b.videoCols.toNat * 2) := Nat.mul_le_mul_right _ (by omega)
    have := hb.size
    rw [add_mul, one_mul, mul_assoc] at hrow
    omega
  have hrows : n * (b.videoCols.toNat * 2) ≥ b.videoCols.toNat * 2 := Nat.le_mul_of_pos_left _ hn
  have hsrc : ∀ k < winsize.y.toNat, textAddress b win + n * (b.videoCols.toNat * 2) +
      k * (b.videoCols.toNat * 2) + winsize.x.toNat * 2 ≤ 0x10000 := by
    intro k hk
    have := hend (win.y.toNat + n + k) (by omega)
    rw [add_mul, add_mul] at this
    omega
  have hforward : ¬ ((textAddress b win : Int) + n * (b.videoCols.toNat * 2)) % 0x100000000 <
      (textAddress b win : Int) % 0x100000000 := by
    have hlast := hsrc 0 (by omega)
    have hcast : (n : Int) * (b.videoCols.toNat * 2) = (n * (b.videoCols.toNat * 2) : Nat) := by
      push_cast
      rfl
    rw [hcast]
    omega
  have hdst : textAddress b win + winsize.x.toNat * 2 ≤
      textAddress b win + n * (b.videoCols.toNat * 2) := by omega
  have hmove := moveLines_eq_stores (winsize.x.toNat * 2) (b.videoCols.toNat * 2) winsize.y.toNat
    hdst hsrc b.vram
  simp only [vgafbMoveChars, memmoveStride, if_neg hforward]
  push_cast at hmove
  rw [hmove]
  simp only [add_mul, add_comm (_ * _) (n * _), add_assoc]

theorem vgafbClearChars_stores (ca : CarAttr) :
    (vgafbClearChars b win winsize ca).1.vram = (List.range winsize.y.toNat).foldl
      (fun m k => store m (textAddress b win + k * (b.videoCols.toNat * 2))
        (List.replicate winsize.x.toNat [ca.car, ca.clearAttr]).flatten) b.vram := by
  have hdest := textAddress_firstPage b hpage
  have hend : ∀ k < winsize.y.toNat, textAddress b win + k * (b.videoCols.toNat * 2) +
      winsize.x.toNat * 2 ≤ 0x10000 := by
    intro k hk
    have := Bios.row_end hb (y := win.y.toNat + k) (by omega)
    rw [add_mul] at this
    omega
  have hclear := memset16Stride_eq_stores ca.car ca.clearAttr winsize.x.toNat
    (b.videoCols.toNat * 2) winsize.y.toNat hend b.vram
  push_cast at hclear
  exact hclear

end

/-- Scrolling up is what the teletype output does with it. -/
theorem vgafbScroll_up {b : Bios} (hb : b.Fits) {win winsize : CursorPos} {n : Nat} (hn : 0 < n)
    {ca : CarAttr} (hon : (VgafbCall.scroll win winsize n ca).OnScreen b) :
    (vgafbScroll b win winsize n ca).1 =
      vgafbScrollUp b win winsize.x.toNat winsize.y.toNat n ca := by
  have hrun := congrArg Prod.fst (run_scroll_up b win winsize (by omega : (0 : Int) < n) ca)
  obtain ⟨hpage, hx, hy, -, hhi⟩ := hon
  have hrows := b.videoRows.toNat_lt
  have hy₈ := toNat_ofInt8 (n := win.y.toNat + winsize.y.toNat - n) (by omega)
  have hn₈ := toNat_ofInt8 (n := n) (by omega)
  generalize UInt8.ofInt (win.y.toNat + winsize.y.toNat - n) = y₈ at hrun hy₈
  generalize UInt8.ofInt n = n₈ at hrun hn₈
  have hmove := vgafbMoveChars_up hb hpage hx hy hn (by omega)
  obtain rfl : n = n₈.toNat := by omega
  have hlast : y₈.toNat + n₈.toNat ≤ b.videoRows.toNat + 1 := by omega
  have hclear := vgafbClearChars_stores (b := vgafbMoveChars b win winsize n₈.toNat)
    ⟨hb.cols, hb.size⟩ (show (⟨win.x, y₈, 0⟩ : CursorPos).page = 0 from rfl)
    (show win.x.toNat + (⟨winsize.x, n₈, 0⟩ : CursorPos).x.toNat ≤ _ from hx) hlast ca
  have haddress : textAddress (vgafbMoveChars b win winsize n₈.toNat) ⟨win.x, y₈, 0⟩ =
      win.y.toNat * (b.videoCols.toNat * 2) +
        (winsize.y.toNat - n₈.toNat) * (b.videoCols.toNat * 2) + win.x.toNat * 2 := by
    rw [textAddress_firstPage _ rfl]
    simp only [vgafbMoveChars]
    rw [show y₈.toNat = win.y.toNat + (winsize.y.toNat - n₈.toNat) by omega, add_mul]
  rw [haddress, hmove] at hclear
  refine hrun.trans ?_
  exact congrArg (fun vram => { b with vram := vram }) hclear

end CsmWrap.Vga
