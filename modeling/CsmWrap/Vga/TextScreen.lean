import CsmWrap.Vga.TextLayout
import Mathlib.Logic.Relation

/-!
# What is on the screen

The pixels of a framebuffer as the text emulator leaves them. Drawing a cell or
the cursor is described pixel by pixel, and from that follows in which runs the
screen shows the buffer: the cursor is drawn with the whole screen only, in the
first line only, and never removed.
-/

namespace CsmWrap.Vga
open Memory Sweep

/-- The bytes of a pixel of colour `argb`. -/
def Screen.pixelBytes (s : Screen) (argb : UInt32) : List UInt8 :=
  if s.fbBpp = 32 then leBytes 4 argb.toNat
  else if s.fbBpp = 24 then [argb.toUInt8, (argb >>> 8).toUInt8, (argb >>> 16).toUInt8]
  else leBytes 2
    (packRgb16 (argb >>> 16).toUInt8 (argb >>> 8).toUInt8 argb.toUInt8 s.masks).toNat

def Screen.address (s : Screen) (k : Int × Int) : Nat :=
  s.fbPtr.toNat + k.2.toNat * s.fbPitch.toNat + k.1.toNat * (s.fbBpp / 8)

/-- The bytes in the place of a pixel. -/
def Screen.shown (s : Screen) (fb : Mem) (k : Int × Int) : List UInt8 :=
  load fb (s.address k) (s.fbBpp / 8)

def Screen.Inside (s : Screen) (k : Int × Int) : Prop :=
  (0 ≤ k.1 ∧ k.1 < s.fbW.toNat) ∧ 0 ≤ k.2 ∧ k.2 < s.fbH.toNat

/-- A framebuffer whose rows do not overlap, below 4 GiB. -/
structure Screen.Linear (s : Screen) : Prop where
  bpp : s.fbBpp = 16 ∨ s.fbBpp = 24 ∨ s.fbBpp = 32
  rows : s.fbW.toNat * (s.fbBpp / 8) ≤ s.fbPitch.toNat
  below : s.fbPtr.toNat + s.fbH.toNat * s.fbPitch.toNat ≤ 2 ^ 32

/-- Such a framebuffer with room for the text. -/
structure Screen.Fits (s : Screen) : Prop extends s.Linear where
  originX : 0 ≤ s.originX ∧ s.originX + 640 ≤ s.fbW.toNat
  originY : 0 ≤ s.originY ∧ s.originY + 400 ≤ s.fbH.toNat

theorem length_pixelBytes {s : Screen} (h : s.Linear) (argb : UInt32) :
    (s.pixelBytes argb).length = s.fbBpp / 8 := by
  unfold Screen.pixelBytes
  rcases h.bpp with h | h | h <;> simp [h]

theorem toNat_ofInt {x : Int} (h : 0 ≤ x) (hlt : x < 2 ^ 32) :
    (UInt32.ofInt x).toNat = x.toNat := by
  obtain ⟨n, rfl⟩ := Int.eq_ofNat_of_zero_le h
  simp [UInt32.ofInt]
  omega

/-- A row ends where the next one starts, or earlier. -/
theorem rows_le (pitch : Nat) {y y' : Int} (hy : 0 ≤ y) (hlt : y < y') :
    y.toNat * pitch + pitch ≤ y'.toNat * pitch := by
  rw [← Nat.succ_mul]
  exact Nat.mul_le_mul_right _ (by omega)

section
variable {s : Screen} (h : s.Linear)
include h

/-- A pixel ends within its row. -/
theorem row_le {k : Int × Int} (hk : s.Inside k) :
    k.1.toNat * (s.fbBpp / 8) + s.fbBpp / 8 ≤ s.fbPitch.toNat := by
  have hx : k.1.toNat + 1 ≤ s.fbW.toNat := by
    have := hk.1
    omega
  calc k.1.toNat * (s.fbBpp / 8) + s.fbBpp / 8 = (k.1.toNat + 1) * (s.fbBpp / 8) := by
        rw [Nat.succ_mul]
    _ ≤ s.fbW.toNat * (s.fbBpp / 8) := Nat.mul_le_mul_right _ hx
    _ ≤ s.fbPitch.toNat := h.rows

theorem address_le {k : Int × Int} (hk : s.Inside k) : s.address k + s.fbBpp / 8 ≤ 2 ^ 32 := by
  have hrow := row_le h hk
  have hrows := rows_le s.fbPitch.toNat hk.2.1 hk.2.2
  have hbelow := h.below
  rw [Int.toNat_natCast] at hrows
  unfold Screen.address
  omega

theorem bytes_pos : 0 < s.fbBpp / 8 := by
  rcases h.bpp with h | h | h <;> rw [h] <;> decide

/-- The address that `putpx` computes does not wrap. -/
theorem toNat_address {k : Int × Int} (hk : s.Inside k) {n : UInt32}
    (hn : n.toNat = s.fbBpp / 8) :
    (s.fbPtr + UInt32.ofInt k.2 * s.fbPitch + UInt32.ofInt k.1 * n).toNat = s.address k := by
  have haddr := address_le h hk
  have hpos := bytes_pos h
  have hx : (UInt32.ofInt k.1).toNat = k.1.toNat := by
    have := s.fbW.toNat_lt
    exact toNat_ofInt hk.1.1 (by have := hk.1.2; omega)
  have hy : (UInt32.ofInt k.2).toNat = k.2.toNat := by
    have := s.fbH.toNat_lt
    exact toNat_ofInt hk.2.1 (by have := hk.2.2; omega)
  simp only [UInt32.toNat_add, UInt32.toNat_mul, hx, hy, hn, Screen.address] at haddr ⊢
  generalize k.2.toNat * s.fbPitch.toNat = row at haddr ⊢
  generalize k.1.toNat * (s.fbBpp / 8) = col at haddr ⊢
  omega

theorem putpx_eq {k : Int × Int} (hk : s.Inside k) (argb : UInt32) (fb : Mem) :
    putpx s k.1 k.2 argb fb = store fb (s.address k) (s.pixelBytes argb) := by
  have hx : ¬ UInt32.ofInt k.1 ≥ s.fbW := by
    have := s.fbW.toNat_lt
    rw [ge_iff_le, UInt32.le_iff_toNat_le, toNat_ofInt hk.1.1 (by have := hk.1.2; omega)]
    have := hk.1
    omega
  have hy : ¬ UInt32.ofInt k.2 ≥ s.fbH := by
    have := s.fbH.toNat_lt
    rw [ge_iff_le, UInt32.le_iff_toNat_le, toNat_ofInt hk.2.1 (by have := hk.2.2; omega)]
    have := hk.2
    omega
  have haddr := fun {n : UInt32} => toNat_address h hk (n := n)
  unfold putpx Screen.pixelBytes
  rw [if_neg (by simp only [hx, hy, or_self, not_false_eq_true])]
  dsimp only
  rcases h.bpp with hb | hb | hb
  · rw [if_neg (by omega), if_neg (by omega), if_pos hb, if_neg (by omega), if_neg (by omega),
      haddr (by rw [hb]; rfl)]
  · rw [if_neg (by omega), if_pos hb, if_neg (by omega), if_pos hb, haddr (by rw [hb]; rfl)]
  · rw [if_pos hb, if_pos hb, haddr (by rw [hb]; rfl)]

/-- Pixels do not overlap. -/
theorem address_disjoint {k k' : Int × Int} (hk : s.Inside k) (hk' : s.Inside k') (hne : k ≠ k') :
    s.address k' + s.fbBpp / 8 ≤ s.address k ∨ s.address k + s.fbBpp / 8 ≤ s.address k' := by
  have hrow := row_le h hk
  have hrow' := row_le h hk'
  unfold Screen.address
  rcases lt_trichotomy k.2 k'.2 with hy | hy | hy
  · have := rows_le s.fbPitch.toNat hk.2.1 hy
    omega
  · have hx : k.1 ≠ k'.1 := fun hx => hne (Prod.ext hx hy)
    rw [hy]
    rcases lt_or_gt_of_ne hx with hx | hx
    · have := rows_le (s.fbBpp / 8) hk.1.1 hx
      omega
    · have := rows_le (s.fbBpp / 8) hk'.1.1 hx
      omega
  · have := rows_le s.fbPitch.toNat hk'.2.1 hy
    omega

theorem shown_putpx {k k' : Int × Int} (hk : s.Inside k) (hk' : s.Inside k') (argb : UInt32)
    (fb : Mem) :
    s.shown (putpx s k.1 k.2 argb fb) k' =
      if k = k' then s.pixelBytes argb else s.shown fb k' := by
  rw [putpx_eq h hk, Screen.shown]
  by_cases heq : k = k'
  · rw [if_pos heq, ← heq, ← length_pixelBytes h argb]
    exact load_store fb _ _
  · rw [if_neg heq]
    apply load_store_outside
    rw [length_pixelBytes h]
    exact address_disjoint h hk hk' heq

/-- Painting: the colour that the pixels give to a place, where they hit it. -/
theorem shown_paint {pixels : List Pixel} (colour : Int × Int → UInt32)
    (hpixels : ∀ p ∈ pixels, s.Inside (p.x, p.y) ∧ p.argb = colour (p.x, p.y)) (fb : Mem)
    {k : Int × Int} (hk : s.Inside k) :
    s.shown (paint s pixels fb) k =
      if ∃ p ∈ pixels, (p.x, p.y) = k then s.pixelBytes (colour k) else s.shown fb k := by
  have hstep : ∀ p ∈ pixels, ∀ (fb : Mem) (k : { k // s.Inside k }),
      s.shown (putpx s p.x p.y p.argb fb) k.1 =
        if (p.x, p.y) = k.1 then s.pixelBytes (colour k.1) else s.shown fb k.1 := by
    intro p hp fb k
    obtain ⟨hin, hargb⟩ := hpixels p hp
    rw [shown_putpx h hin k.2]
    split
    · next heq => rw [hargb, heq]
    · rfl
  unfold paint
  exact foldl_view (fun fb (k : { k // s.Inside k }) => s.shown fb k.1)
    (fun fb (p : Pixel) => putpx s p.x p.y p.argb fb) (fun p k => (p.x, p.y) = k.1)
    (fun k => s.pixelBytes (colour k.1)) hstep fb ⟨k, hk⟩

end

/-- The place of a pixel of a cell. -/
def Screen.pixelOf (s : Screen) (r c gx gy : Int) : Int × Int :=
  (s.originX + c * 8 + gx, s.originY + r * 16 + gy)

/-- A pixel within a cell. -/
def InGlyph (gx gy : Int) : Prop := (0 ≤ gx ∧ gx < 8) ∧ 0 ≤ gy ∧ gy < 16

instance (gx gy : Int) : Decidable (InGlyph gx gy) := inferInstanceAs (Decidable (_ ∧ _))

theorem pixelOf_inside {s : Screen} (h : s.Fits) {r c gx gy : Int} (hcell : InBuf (r, c))
    (hpixel : InGlyph gx gy) : s.Inside (s.pixelOf r c gx gy) := by
  have hx := h.originX
  have hy := h.originY
  unfold InBuf at hcell
  unfold InGlyph at hpixel
  unfold Screen.Inside Screen.pixelOf
  dsimp only at hcell ⊢
  omega

theorem pixelOf_inj {s : Screen} {r c gx gy r' c' gx' gy' : Int} (hpixel : InGlyph gx gy)
    (hpixel' : InGlyph gx' gy') :
    s.pixelOf r c gx gy = s.pixelOf r' c' gx' gy' ↔ (r = r' ∧ c = c') ∧ gx = gx' ∧ gy = gy' := by
  unfold InGlyph at hpixel hpixel'
  unfold Screen.pixelOf
  rw [Prod.mk.injEq]
  omega

theorem mem_cellPixels {font : Font} {s : Screen} {cell : Cell} {r c : Int} {p : Pixel}
    (hp : p ∈ cellPixels font s cell r c) :
    ∃ gx gy, InGlyph gx gy ∧ (p.x, p.y) = s.pixelOf r c gx gy ∧
      p.argb = glyphColour font s cell gx gy := by
  obtain ⟨⟨gy, gx⟩, hmem, rfl⟩ := List.mem_map.mp hp
  rw [mem_grid] at hmem
  dsimp only at hmem
  exact ⟨gx, gy, ⟨by omega, by omega⟩, rfl, rfl⟩

theorem cellPixels_hit (font : Font) (s : Screen) (cell : Cell) (r c : Int) {gx gy : Int}
    (hpixel : InGlyph gx gy) :
    ∃ p ∈ cellPixels font s cell r c, (p.x, p.y) = s.pixelOf r c gx gy := by
  refine ⟨_, List.mem_map.mpr ⟨(gy, gx), ?_, rfl⟩, rfl⟩
  unfold InGlyph at hpixel
  rw [mem_grid]
  dsimp only
  omega

/-- The colours of the whole text, by place. -/
def textColour (font : Font) (s : Screen) (buf : Int × Int → Cell) (k : Int × Int) : UInt32 :=
  glyphColour font s (buf ((k.2 - s.originY) / 16, (k.1 - s.originX) / 8))
    ((k.1 - s.originX) % 8) ((k.2 - s.originY) % 16)

theorem textColour_pixelOf (font : Font) (s : Screen) (buf : Int × Int → Cell) (r c : Int)
    {gx gy : Int} (hpixel : InGlyph gx gy) :
    textColour font s buf (s.pixelOf r c gx gy) = glyphColour font s (buf (r, c)) gx gy := by
  unfold InGlyph at hpixel
  have hr : (s.originY + r * 16 + gy - s.originY) / 16 = r := by omega
  have hc : (s.originX + c * 8 + gx - s.originX) / 8 = c := by omega
  have hx : (s.originX + c * 8 + gx - s.originX) % 8 = gx := by omega
  have hy : (s.originY + r * 16 + gy - s.originY) % 16 = gy := by omega
  simp only [textColour, Screen.pixelOf, hr, hc, hx, hy]

section
variable {s : Screen} (h : s.Fits) (font : Font)
include h

/-- Drawing some cells shows them, and leaves the others. -/
theorem shown_cells (buf : Int × Int → Cell) {cells : List (Int × Int)}
    (hcells : ∀ q ∈ cells, InBuf q) (fb : Mem) {r c gx gy : Int} (hcell : InBuf (r, c))
    (hpixel : InGlyph gx gy) :
    s.shown (paint s (cells.flatMap fun q => cellPixels font s (buf q) q.1 q.2) fb)
        (s.pixelOf r c gx gy) =
      if (r, c) ∈ cells then s.pixelBytes (glyphColour font s (buf (r, c)) gx gy)
      else s.shown fb (s.pixelOf r c gx gy) := by
  have hpixels : ∀ p ∈ cells.flatMap fun q => cellPixels font s (buf q) q.1 q.2,
      s.Inside (p.x, p.y) ∧ p.argb = textColour font s buf (p.x, p.y) := by
    intro p hp
    obtain ⟨q, hq, hp⟩ := List.mem_flatMap.mp hp
    obtain ⟨gx, gy, hpixel, hplace, hargb⟩ := mem_cellPixels hp
    rw [hplace, textColour_pixelOf font s buf q.1 q.2 hpixel]
    exact ⟨pixelOf_inside h (hcells q hq) hpixel, hargb⟩
  have hhit : (∃ p ∈ cells.flatMap fun q => cellPixels font s (buf q) q.1 q.2,
      (p.x, p.y) = s.pixelOf r c gx gy) ↔ (r, c) ∈ cells := by
    constructor
    · rintro ⟨p, hp, hplace⟩
      obtain ⟨q, hq, hp⟩ := List.mem_flatMap.mp hp
      obtain ⟨gx', gy', hpixel', hplace', -⟩ := mem_cellPixels hp
      obtain ⟨⟨rfl, rfl⟩, -⟩ := (pixelOf_inj hpixel hpixel').mp (hplace.symm.trans hplace')
      exact hq
    · intro hq
      obtain ⟨p, hp, hplace⟩ := cellPixels_hit font s (buf (r, c)) r c hpixel
      exact ⟨p, List.mem_flatMap.mpr ⟨(r, c), hq, hp⟩, hplace⟩
  rw [shown_paint h.toLinear (textColour font s buf) hpixels fb (pixelOf_inside h hcell hpixel),
    textColour_pixelOf font s buf r c hpixel]
  simp only [hhit]

end

/-- A cursor: its cell, its scanlines and its colour. -/
structure Overlay where
  cell : Int × Int
  first : Nat
  last : Nat
  argb : UInt32

def Overlay.Covers (o : Overlay) (r c gy : Int) : Prop :=
  (r, c) = o.cell ∧ o.first ≤ gy ∧ gy ≤ o.last

instance (o : Overlay) (r c gy : Int) : Decidable (o.Covers r c gy) :=
  inferInstanceAs (Decidable (_ ∧ _))

def Text.overlay (t : Text) : Overlay :=
  ⟨t.cursor, t.cursorStart.toNat, t.cursorEnd.toNat, t.cursorColour⟩

/-- No scanline of the cell is part of the cursor. -/
def Overlay.Hidden (o : Overlay) : Prop := o.last < o.first ∨ 15 < o.first

theorem Overlay.Hidden.not_covers {o : Overlay} (h : o.Hidden) {r c gx gy : Int}
    (hpixel : InGlyph gx gy) : ¬ o.Covers r c gy := by
  rintro ⟨-, hfirst, hlast⟩
  unfold InGlyph at hpixel
  unfold Overlay.Hidden at h
  omega

/-- The pixels of the cursor are within the first line. -/
theorem mem_cursorPixels {t : Text} (hin : t.InBounds) {p : Pixel} (hp : p ∈ cursorPixels t) :
    ∃ gx gy, InGlyph gx gy ∧ (p.x, p.y) = t.screen.pixelOf 0 t.col gx gy ∧
      p.argb = t.cursorColour ∧ t.row = 0 ∧ t.cursorStart.toNat ≤ gy ∧ gy ≤ t.cursorEnd.toNat := by
  have hb := Page.inBounds_iff.mp hin
  obtain ⟨⟨y, x⟩, hmem, rfl⟩ := List.mem_map.mp hp
  rw [mem_grid] at hmem
  dsimp only at hmem
  rw [if_neg (by omega)] at hmem
  refine ⟨x - (t.screen.originX + t.col * 8), y - t.screen.originY, ?_, ?_, rfl, ?_⟩
  · unfold InGlyph
    split at hmem <;> omega
  · unfold Screen.pixelOf
    rw [Prod.mk.injEq]
    dsimp only
    omega
  · split at hmem <;> omega

theorem cursorPixels_hit {t : Text} (hrow : t.row = 0) {gx gy : Int} (hpixel : InGlyph gx gy)
    (hfirst : t.cursorStart.toNat ≤ gy) (hlast : gy ≤ t.cursorEnd.toNat) :
    ∃ p ∈ cursorPixels t, (p.x, p.y) = t.screen.pixelOf 0 t.col gx gy := by
  unfold InGlyph at hpixel
  refine ⟨_, List.mem_map.mpr ⟨(t.screen.originY + 0 * 16 + gy, t.screen.originX + t.col * 8 + gx),
    ?_, rfl⟩, rfl⟩
  rw [mem_grid]
  dsimp only
  rw [if_neg (by omega)]
  split <;> omega

theorem cursorPixels_inside {t : Text} (h : t.screen.Fits) (hin : t.InBounds) :
    ∀ p ∈ cursorPixels t, t.screen.Inside (p.x, p.y) ∧ p.argb = t.cursorColour := by
  intro p hp
  obtain ⟨gx, gy, hpixel, hplace, hargb, -⟩ := mem_cursorPixels hin hp
  have hfirst : InBuf (0, t.col) := ⟨⟨by simp, by simp⟩, (Page.inBounds_iff.mp hin).2⟩
  rw [hplace]
  exact ⟨pixelOf_inside h hfirst hpixel, hargb⟩

/-- `render_cursor` draws the cursor in the first line, and elsewhere nothing. -/
theorem shown_cursor {t : Text} (h : t.screen.Fits) (hin : t.InBounds) (fb : Mem)
    {r c gx gy : Int} (hcell : InBuf (r, c)) (hpixel : InGlyph gx gy) :
    t.screen.shown (paint t.screen (cursorPixels t) fb) (t.screen.pixelOf r c gx gy) =
      if t.row = 0 ∧ t.overlay.Covers r c gy then t.screen.pixelBytes t.cursorColour
      else t.screen.shown fb (t.screen.pixelOf r c gx gy) := by
  have hhit : (∃ p ∈ cursorPixels t, (p.x, p.y) = t.screen.pixelOf r c gx gy) ↔
      t.row = 0 ∧ t.overlay.Covers r c gy := by
    constructor
    · rintro ⟨p, hp, hplace⟩
      obtain ⟨gx', gy', hpixel', hplace', -, hrow, hfirst, hlast⟩ := mem_cursorPixels hin hp
      obtain ⟨⟨rfl, rfl⟩, -, rfl⟩ := (pixelOf_inj hpixel hpixel').mp (hplace.symm.trans hplace')
      exact ⟨hrow, Prod.ext hrow.symm rfl, hfirst, hlast⟩
    · rintro ⟨hrow, hcursor, hfirst, hlast⟩
      have hr : r = 0 := (congrArg Prod.fst hcursor).trans hrow
      have hc : c = t.col := congrArg Prod.snd hcursor
      rw [hr, hc]
      exact cursorPixels_hit hrow hpixel hfirst hlast
  rw [shown_paint h.toLinear (fun _ => t.cursorColour) (cursorPixels_inside h hin) fb
    (pixelOf_inside h hcell hpixel)]
  simp only [hhit]

/-! ## The screen shows the buffer -/

/-- The screen `s` shows the buffer and the cursor `o`. -/
def Shows (font : Font) (s : Screen) (t : Text) (o : Overlay) : Prop :=
  ∀ r c gx gy, InBuf (r, c) → InGlyph gx gy →
    s.shown t.fb (s.pixelOf r c gx gy) = s.pixelBytes
      (if o.Covers r c gy then o.argb else glyphColour font s (t.buf (r, c)) gx gy)

theorem redraw_screen (font : Font) (t : Text) : (redraw font t).screen = t.screen := by
  unfold redraw
  rfl

theorem redraw_overlay (font : Font) (t : Text) : (redraw font t).overlay = t.overlay := by
  unfold redraw Text.overlay Text.cursorColour
  rfl

/-- After everything has been drawn, a cursor outside the first line is missing. -/
theorem shown_redraw (font : Font) {t : Text} (h : t.screen.Fits) (hin : t.InBounds)
    {r c gx gy : Int} (hcell : InBuf (r, c)) (hpixel : InGlyph gx gy) :
    t.screen.shown (redraw font t).fb (t.screen.pixelOf r c gx gy) = t.screen.pixelBytes
      (if t.row = 0 ∧ t.overlay.Covers r c gy then t.cursorColour
        else glyphColour font t.screen (t.buf (r, c)) gx gy) := by
  have hall : ∀ q ∈ grid 0 24 0 79, InBuf q := by
    intro q hq
    rw [mem_grid] at hq
    unfold InBuf
    omega
  have hmem : (r, c) ∈ grid 0 24 0 79 := by
    unfold InBuf at hcell
    rw [mem_grid]
    dsimp only at hcell ⊢
    omega
  unfold redraw screenPixels
  dsimp only
  rw [paint_append, shown_cursor h hin _ hcell hpixel,
    shown_cells h font t.buf hall t.fb hcell hpixel, if_pos hmem]
  split <;> rfl

theorem shows_redraw (font : Font) {t : Text} (h : t.screen.Fits) (hin : t.InBounds)
    (hcursor : t.row = 0 ∨ t.overlay.Hidden) :
    Shows font t.screen (redraw font t) t.overlay := by
  intro r c gx gy hcell hpixel
  rw [shown_redraw font h hin hcell hpixel]
  rcases hcursor with hrow | hhidden
  · simp only [hrow, true_and]
    rfl
  · have hnot := hhidden.not_covers (r := r) (c := c) hpixel
    simp only [hnot, and_false, if_false]
    rfl

/-- Drawing a cell shows it, if the cursor is elsewhere. -/
theorem shows_print (font : Font) {t : Text} (h : t.screen.Fits) (hin : t.InBounds) {o : Overlay}
    (hshows : Shows font t.screen t o) (ch : UInt8) (ho : o.Hidden ∨ t.cursor ≠ o.cell) :
    Shows font t.screen (t.print font ch) o := by
  intro r c gx gy hcell hpixel
  have hall : ∀ q ∈ [t.cursor], InBuf q := fun q hq => List.mem_singleton.mp hq ▸ hin
  have hdraw := shown_cells h font (t.print font ch).buf hall t.fb hcell hpixel
  have hfb : (t.print font ch).fb = paint t.screen ([t.cursor].flatMap fun q =>
      cellPixels font t.screen ((t.print font ch).buf q) q.1 q.2) t.fb := by
    simp [Text.print, Page.cursor]
  rw [← hfb] at hdraw
  rw [hdraw]
  by_cases hq : (r, c) = t.cursor
  · have hnot : ¬ o.Covers r c gy := by
      rcases ho with ho | ho
      · exact ho.not_covers hpixel
      · exact fun hcovers => ho (hq.symm.trans hcovers.1)
    rw [if_pos (by simp [hq]), if_neg hnot]
  · rw [if_neg (by simpa using hq), hshows r c gx gy hcell hpixel]
    have hbuf : (t.print font ch).buf (r, c) = t.buf (r, c) := Function.update_of_ne hq _ _
    rw [hbuf]

theorem Shows.of_hidden {font : Font} {s : Screen} {t : Text} {o o' : Overlay}
    (h : Shows font s t o) (ho : o.Hidden) (ho' : o'.Hidden) : Shows font s t o' := by
  intro r c gx gy hcell hpixel
  rw [h r c gx gy hcell hpixel, if_neg (ho.not_covers hpixel), if_neg (ho'.not_covers hpixel)]

/-- The character scrolls the screen. -/
def Scrolls (rc : Int × Int) (ch : UInt8) : Prop :=
  rc.1 + 1 ≥ 25 ∧
    (ch = 0x0a ∨ ch = 0x09 ∧ (rc.2 / 8 + 1) * 8 ≥ 80 ∨ Printed ch ∧ rc.2 + 1 ≥ 80)

instance (rc : Int × Int) (ch : UInt8) : Decidable (Scrolls rc ch) :=
  inferInstanceAs (Decidable (_ ∧ _))

/-- The characters lead the cursor from `rc` to `cell`, and on the way neither print
into this cell nor scroll. -/
def Avoids (cell : Int × Int) : Int × Int → List UInt8 → Prop
  | rc, [] => rc = cell
  | rc, ch :: chars =>
    ¬ Scrolls rc ch ∧ (Printed ch → rc ≠ cell) ∧ Avoids cell (moved rc ch) chars

/-- The scanlines of the cursor. -/
def Overlay.SameLines (o : Overlay) (t : Text) : Prop :=
  o.first = t.cursorStart.toNat ∧ o.last = t.cursorEnd.toNat

theorem Overlay.SameLines.hidden {o : Overlay} {t : Text} (h : o.SameLines t) (ho : o.Hidden) :
    t.overlay.Hidden := by
  unfold Overlay.Hidden at ho ⊢
  rw [h.1, h.2] at ho
  exact ho

section
variable (font : Font) {t : Text} (h : t.screen.Fits) (hin : t.InBounds) {o : Overlay}
  (hlines : o.SameLines t) (hshows : Shows font t.screen t o)
include h hin hlines hshows

theorem shows_newline (ho : o.Hidden ∨ ¬ t.row + 1 ≥ 25) :
    Shows font t.screen (t.newline font) o := by
  have hb := Page.inBounds_iff.mp hin
  unfold Text.newline
  split
  · next hend =>
    have hidden := ho.resolve_right (not_not_intro hend)
    let u : Text := { t with row := 24, buf := tmScrollUp 1 fullWindow t.attr t.buf }
    have hu : u.InBounds := ⟨⟨by simp [u], by simp [u]⟩, hb.2⟩
    have hhidden : u.overlay.Hidden := hlines.hidden hidden
    exact (shows_redraw font (t := u) h hu (.inr hhidden)).of_hidden hhidden hidden
  · exact hshows

theorem shows_advance {next : Int}
    (ho : o.Hidden ∨ ¬ (t.row + 1 ≥ 25 ∧ next ≥ 80)) :
    Shows font t.screen (t.advance font next) o := by
  have hb := Page.inBounds_iff.mp hin
  unfold Text.advance
  split
  · next hend =>
    have hstart : Page.InBounds { t.toPage with col := 0 } := ⟨hb.1, by simp, by simp⟩
    exact shows_newline font (t := { t with col := 0 }) h hstart hlines hshows
      (ho.imp_right fun hno hrow => hno ⟨hrow, hend⟩)
  · exact hshows

theorem shows_putch (ch : UInt8)
    (ho : o.Hidden ∨ ¬ Scrolls t.cursor ch ∧ (Printed ch → t.cursor ≠ o.cell)) :
    Shows font t.screen (t.putch font ch) o := by
  have hb := Page.inBounds_iff.mp hin
  have hcase := putch_case font t ch
  generalize t.putch font ch = u at hcase ⊢
  cases hcase with
  | carriageReturn => exact hshows
  | lineFeed =>
    exact shows_newline font h hin hlines hshows
      (ho.imp_right fun hno hrow => hno.1 ⟨hrow, .inl rfl⟩)
  | backspace => exact hshows
  | tab =>
    exact shows_advance font h hin hlines hshows
      (ho.imp_right fun hno hend => hno.1 ⟨hend.1, .inr (.inl ⟨rfl, hend.2⟩)⟩)
  | print ch hch =>
    have hprint := shows_print font h hin hshows ch (ho.imp_right fun hno => hno.2 hch)
    exact shows_advance font (t := t.print font ch) h hin hlines hprint
      (ho.imp_right fun hno hend => hno.1 ⟨hend.1, .inr (.inr ⟨hch, hend.2⟩)⟩)

end

theorem shows_type (font : Font) {t : Text} (h : t.screen.Fits) (hin : t.InBounds) {o : Overlay}
    (hlines : o.SameLines t) (hshows : Shows font t.screen t o) {chars : List UInt8}
    (ho : o.Hidden ∨ Avoids o.cell t.cursor chars) :
    Shows font t.screen (t.type font chars) o := by
  induction chars generalizing t with
  | nil => exact hshows
  | cons ch chars ih =>
    have hsetting := putch_setting font t ch
    have hstep := shows_putch font h hin hlines hshows ch (ho.imp_right fun ha => ⟨ha.1, ha.2.1⟩)
    have hcursor : (t.putch font ch).cursor = moved t.cursor ch := by
      rw [toPage_putch, cursor_putch]
    rw [← hsetting.screen] at h hstep ⊢
    refine ih h (putch_inBounds font hin ch) ?_ hstep (ho.imp_right fun ha => ?_)
    · exact ⟨hlines.1.trans (by rw [hsetting.cursorStart]),
        hlines.2.trans (by rw [hsetting.cursorEnd])⟩
    · rw [hcursor]
      exact ha.2.2

theorem Avoids.cursor {cell rc : Int × Int} {chars : List UInt8} (h : Avoids cell rc chars) :
    chars.foldl moved rc = cell := by
  induction chars generalizing rc with
  | nil => exact h
  | cons ch chars ih => exact ih h.2.2

/-- The screen shows the buffer and the cursor. -/
def Consistent (font : Font) (t : Text) : Prop := Shows font t.screen t t.overlay

/-- The same scanlines of a cell are part of the cursor. -/
def SameScanlines (start stop start' stop' : UInt8) : Prop :=
  ∀ gy : Int, 0 ≤ gy → gy < 16 →
    ((start.toNat : Int) ≤ gy ∧ gy ≤ stop.toNat ↔ (start'.toNat : Int) ≤ gy ∧ gy ≤ stop'.toNat)

/-- The call does not touch a visible cursor: its scanlines, its place and its colour
stay, its cell is not printed into, and the screen is not scrolled unless the cursor
is in the first line. -/
def Undisturbed (far : Far) (regs : Regs) (t : Text) : Prop :=
  t.active = false ∨ match service regs.ah with
    | some .setCursorShape =>
      SameScanlines t.cursorStart t.cursorEnd (regs.ch &&& 0x1f) (regs.cl &&& 0x1f)
    | some .setCursorPosition => t.overlay.Hidden ∨ (rowOf regs.dh, colOf regs.dl) = t.cursor
    | some .scrollUp => t.overlay.Hidden ∨ t.row = 0
    | _ => ∀ start chars, typing far regs t = some (start, chars) → t.overlay.Hidden ∨
        start.cursorColour = t.cursorColour ∧ Avoids t.cursor start.cursor chars

theorem undisturbed_typing {far : Far} {regs : Regs} {t start : Text} {chars : List UInt8}
    (h : Undisturbed far regs t) (htyping : typing far regs t = some (start, chars)) :
    t.overlay.Hidden ∨
      start.cursorColour = t.cursorColour ∧ Avoids t.cursor start.cursor chars := by
  have htyping' := htyping
  unfold typing at htyping
  split at htyping
  · cases htyping
  · next hon =>
    have hcond := h.resolve_left hon
    split at htyping <;> first | cases htyping; done | skip
    all_goals
      next hs =>
        rw [hs] at hcond
        exact hcond _ _ htyping'

/-- A cursor with the same scanlines, at the same place and of the same colour. -/
theorem Shows.congr {font : Font} {s : Screen} {t : Text} {o o' : Overlay} (h : Shows font s t o)
    (hcovers : ∀ r c gx gy, InGlyph gx gy → (o.Covers r c gy ↔ o'.Covers r c gy))
    (hargb : o'.argb = o.argb) : Shows font s t o' := by
  intro r c gx gy hcell hpixel
  rw [h r c gx gy hcell hpixel, hargb]
  simp only [hcovers r c gx gy hpixel]

theorem typing_fb {far : Far} {regs : Regs} {t start : Text} {chars : List UInt8}
    (htyping : typing far regs t = some (start, chars)) :
    start.fb = t.fb ∧ start.buf = t.buf := by
  unfold typing at htyping
  split at htyping
  · cases htyping
  · split at htyping <;> cases htyping <;> exact ⟨rfl, rfl⟩

theorem consistent_typed (font : Font) {far : Far} {regs : Regs} {t start : Text}
    {chars : List UInt8} (h : t.screen.Fits) (hin : t.InBounds) (hcons : Consistent font t)
    (htyping : typing far regs t = some (start, chars)) (hcond : Undisturbed far regs t) :
    Consistent font (start.type font chars) := by
  have hstart := typing_setting htyping
  have htype := type_setting font start chars
  have hscreen : (start.type font chars).screen = t.screen := htype.screen.trans hstart.screen
  have hshows : Shows font start.screen start t.overlay := by
    obtain ⟨hfb, hbuf⟩ := typing_fb htyping
    intro r c gx gy hcell hpixel
    rw [hstart.screen, hfb, hbuf]
    exact hcons r c gx gy hcell hpixel
  have hlines : t.overlay.SameLines start := by
    unfold Overlay.SameLines
    rw [hstart.cursorStart, hstart.cursorEnd]
    exact ⟨rfl, rfl⟩
  have hfits : start.screen.Fits := hstart.screen ▸ h
  have hundisturbed := undisturbed_typing hcond htyping
  have hafter := shows_type font hfits (typing_inBounds hin htyping) hlines hshows
    (hundisturbed.imp_right And.right)
  unfold Consistent
  rw [htype.screen]
  rcases hundisturbed with hhidden | ⟨hcolour, havoids⟩
  · apply hafter.of_hidden hhidden
    unfold Overlay.Hidden Text.overlay at hhidden ⊢
    rw [htype.cursorStart, htype.cursorEnd, hstart.cursorStart, hstart.cursorEnd]
    exact hhidden
  · have hcursor : (start.type font chars).cursor = t.cursor := by
      rw [toPage_type, cursor_type]
      exact havoids.cursor
    have hcolour' : (start.type font chars).cursorColour = start.cursorColour := by
      unfold Text.cursorColour
      rw [htype.screen, toPage_type, attr_type]
    have hoverlay : (start.type font chars).overlay = t.overlay := by
      unfold Text.overlay
      rw [hcursor, htype.cursorStart, htype.cursorEnd, hstart.cursorStart, hstart.cursorEnd,
        hcolour', hcolour]
    rw [hoverlay]
    exact hafter

/-- Drawing everything makes the screen right, unless there is a cursor to be seen
outside the first line. -/
theorem consistent_redraw (font : Font) {t : Text} (h : t.screen.Fits) (hin : t.InBounds)
    (hcursor : t.row = 0 ∨ t.overlay.Hidden) : Consistent font (redraw font t) := by
  unfold Consistent
  rw [redraw_screen, redraw_overlay]
  exact shows_redraw font h hin hcursor

theorem consistent_enabled (font : Font) {t : Text} (h : t.screen.Fits) :
    Consistent font (t.enabled font) := by
  unfold Text.enabled
  apply consistent_redraw font
  · exact h
  · change InBuf (0, 0)
    decide
  · exact .inl rfl

/-- A call that leaves a visible cursor alone keeps the screen as it should be. -/
theorem consistent_call (font : Font) {far : Far} {regs : Regs} {t u : Text} (h : t.screen.Fits)
    (hin : t.InBounds) (hcons : Consistent font t) (hcond : Undisturbed far regs t)
    (hcase : Int10Case font far regs t u) : Consistent font u := by
  cases hcase with
  | same => exact hcons
  | enabled => exact consistent_enabled font h
  | shape hactive hs =>
    have hlines := hcond.resolve_left (by rw [hactive]; decide)
    rw [hs] at hlines
    refine hcons.congr (fun r c gx gy hpixel => ?_) rfl
    unfold Overlay.Covers Text.overlay
    exact and_congr_right fun _ => hlines gy hpixel.2.1 hpixel.2.2
  | position hactive hs =>
    have hplace := hcond.resolve_left (by rw [hactive]; decide)
    rw [hs] at hplace
    rcases hplace with hhidden | hplace
    · exact hcons.of_hidden hhidden hhidden
    · refine hcons.congr (fun r c gx gy _ => ?_) rfl
      unfold Overlay.Covers Text.overlay
      dsimp only
      rw [← hplace]
      rfl
  | scrolled hactive hs =>
    have hrow := hcond.resolve_left (by rw [hactive]; decide)
    rw [hs] at hrow
    apply consistent_redraw font
    · exact h
    · exact hin
    · exact hrow.symm
  | typed htyping => exact consistent_typed font h hin hcons htyping hcond

/-- A call that draws the whole screen, with a cursor in the first line or none to be
seen: mode 3 is set, or a window scrolled. -/
def Redraws (regs : Regs) (t : Text) : Prop :=
  regs.ah = 0x00 ∧ regs.al = 0x03 ∨
    regs.ah = 0x06 ∧ t.active = true ∧ (t.overlay.Hidden ∨ t.row = 0)

theorem tmHandleInt10_mode3 (font : Font) (far : Far) {regs : Regs} (t : Text)
    (hah : regs.ah = 0x00) (hal : regs.al = 0x03) :
    tmHandleInt10 font far regs t = some (true, { regs with ah := 0x00 }, t.enabled font) := by
  have hs : service regs.ah = some .setVideoMode := by rw [hah]; rfl
  unfold tmHandleInt10
  by_cases hactive : t.active = false
  · rw [if_pos ⟨hactive, hah, hal⟩, tmEnable_eq]
    rfl
  · rw [if_neg fun h => hactive h.1, if_neg hactive, hs]
    dsimp only
    rw [if_pos hal, tmEnable_eq]
    rfl

/-- Such a call makes the screen right, whatever it showed before. -/
theorem consistent_redrawn (font : Font) {far : Far} {regs regs' : Regs} {t u : Text}
    {handled : Bool} (h : t.screen.Fits) (hin : t.InBounds) (hredraws : Redraws regs t)
    (hcall : tmHandleInt10 font far regs t = some (handled, regs', u)) : Consistent font u := by
  rcases hredraws with ⟨hah, hal⟩ | ⟨hah, hactive, hcursor⟩
  · rw [tmHandleInt10_mode3 font far t hah hal] at hcall
    cases hcall
    exact consistent_enabled font h
  · rw [tmHandleInt10_scroll font far (by rw [hah]; rfl) hactive] at hcall
    cases hcall
    apply consistent_redraw font
    · exact h
    · exact hin
    · exact hcursor.symm

/-- A call that stores nothing outside `tm_buf`. -/
def Called (l : Layout) (font : Font) (t u : Text) : Prop :=
  ∃ far regs handled regs', Confined regs t ∧
    l.tmHandleInt10 font far regs t = some (handled, regs', u)

/-- The states in which no call has stored outside `tm_buf`, and no visible cursor has been
disturbed since the screen was last drawn as a whole. -/
inductive Intact (l : Layout) (font : Font) (t₁ : Text) : Text → Prop where
  | enabled : Intact l font t₁ t₁
  | redrawn {far : Far} {regs regs' : Regs} {t u : Text} {handled : Bool}
      (hrun : Relation.ReflTransGen (Called l font) t₁ t) (hconfined : Confined regs t)
      (hredraws : Redraws regs t)
      (hcall : l.tmHandleInt10 font far regs t = some (handled, regs', u)) : Intact l font t₁ u
  | undisturbed {far : Far} {regs regs' : Regs} {t u : Text} {handled : Bool}
      (ht : Intact l font t₁ t) (hconfined : Confined regs t) (hcond : Undisturbed far regs t)
      (hcall : l.tmHandleInt10 font far regs t = some (handled, regs', u)) : Intact l font t₁ u

theorem enabled_screen (font : Font) (t : Text) : (t.enabled font).screen = t.screen := by
  unfold Text.enabled
  rw [redraw_screen]

theorem int10Case_screen {font : Font} {far : Far} {regs : Regs} {t u : Text}
    (hcase : Int10Case font far regs t u) : u.screen = t.screen := by
  cases hcase with
  | same | shape | position => rfl
  | enabled => exact enabled_screen font _
  | scrolled => rw [redraw_screen]
  | typed htyping => exact (type_setting font _ _).screen.trans (typing_setting htyping).screen

theorem called_case {l : Layout} {font : Font} {far : Far} {regs regs' : Regs} {t u : Text}
    {handled : Bool} (hin : t.InBounds) (hconfined : Confined regs t)
    (hcall : l.tmHandleInt10 font far regs t = some (handled, regs', u)) :
    Int10Case font far regs t u := by
  obtain ⟨handled', regs'', v, hcall', hcase⟩ := int10_case font far regs hin
  rw [tmHandleInt10_of_confined l font far hconfined] at hcall
  cases hcall.symm.trans hcall'
  exact hcase

theorem called_run {l : Layout} {font : Font} {t u : Text} (hin : t.InBounds)
    (hrun : Relation.ReflTransGen (Called l font) t u) : u.screen = t.screen ∧ u.InBounds := by
  induction hrun with
  | refl => exact ⟨rfl, hin⟩
  | tail _ hstep ih =>
    obtain ⟨hscreen, hin'⟩ := ih
    obtain ⟨far, regs, handled, regs', hconfined, hcall⟩ := hstep
    have hcase := called_case hin' hconfined hcall
    exact ⟨(int10Case_screen hcase).trans hscreen, int10Case_inBounds hin' hcase⟩

theorem Intact.run {l : Layout} {font : Font} {t₁ u : Text} (h : Intact l font t₁ u) :
    Relation.ReflTransGen (Called l font) t₁ u := by
  induction h with
  | enabled => exact .refl
  | redrawn hrun hconfined _ hcall => exact hrun.tail ⟨_, _, _, _, hconfined, hcall⟩
  | undisturbed _ hconfined _ hcall ih => exact ih.tail ⟨_, _, _, _, hconfined, hcall⟩

theorem consistent_intact {l : Layout} (font : Font) {t₁ u : Text} (h : t₁.screen.Fits)
    (hin : t₁.InBounds) (hcons : Consistent font t₁) (hu : Intact l font t₁ u) :
    Consistent font u := by
  induction hu with
  | enabled => exact hcons
  | redrawn hrun hconfined hredraws hcall =>
    obtain ⟨hscreen, hin'⟩ := called_run hin hrun
    rw [tmHandleInt10_of_confined l font _ hconfined] at hcall
    exact consistent_redrawn font (hscreen ▸ h) hin' hredraws hcall
  | undisturbed ht hconfined hcond hcall ih =>
    obtain ⟨hscreen, hin'⟩ := called_run hin ht.run
    exact consistent_call font (hscreen ▸ h) hin' ih hcond (called_case hin' hconfined hcall)

/-- The bytes that a row of pixels leaves to each, which is all that `tm_init` looks at. -/
def State.rowBytesPerPixel (st : State) : Nat :=
  st.cbLinelength.toNat / st.cbModeinfo.width.toNat

/-- A framebuffer of at least 640 by 400 pixels, of the depth that `tm_init` derives
from its pitch, and below 4 GiB. -/
structure State.Drawable (st : State) : Prop where
  present : st.vbeFramebuffer ≠ 0
  width : 640 ≤ st.cbModeinfo.width.toNat
  height : 400 ≤ st.cbModeinfo.height.toNat
  depth : st.cbModeinfo.depth = 16 ∧ st.rowBytesPerPixel = 2 ∨
    st.cbModeinfo.depth = 24 ∧ st.rowBytesPerPixel = 3 ∨
    st.cbModeinfo.depth = 32 ∧ 4 ≤ st.rowBytesPerPixel
  below : st.vbeFramebuffer.toNat + st.cbModeinfo.height.toNat * st.cbLinelength.toNat ≤ 2 ^ 32

theorem centred_eq {size text : UInt32} (hle : text.toNat ≤ size.toNat)
    (hlt : size.toNat < 2 ^ 31) :
    centred size text = ((size.toNat - text.toNat) / 2 : Nat) := by
  have hsub : (size - text).toNat = size.toNat - text.toNat :=
    UInt32.toNat_sub_of_le _ _ (UInt32.le_iff_toNat_le.mpr hle)
  have hint : asInt (size - text) = (size - text).toNat := by
    apply BitVec.toInt_eq_toNat_of_lt
    change 2 * (size - text).toNat < 2 ^ 32
    omega
  unfold centred
  rw [hint, hsub]
  rfl

theorem deriveBpp_toNat (pitch width : UInt32) :
    deriveBpp pitch width =
      if pitch.toNat / width.toNat = 3 then 24
      else if pitch.toNat / width.toNat = 2 then 16
      else 32 := by
  have hiff : ∀ n : UInt32, pitch / width = n ↔ pitch.toNat / width.toNat = n.toNat := by
    intro n
    rw [← UInt32.toNat_inj, UInt32.toNat_div]
  unfold deriveBpp
  simp only [hiff, UInt32.reduceToNat]
  split
  · next h4 => simp [h4]
  · rfl

/-- At 32 bits a row may be padded. -/
theorem State.Drawable.deriveBpp_eq {st : State} (h : st.Drawable) :
    deriveBpp st.cbLinelength st.cbModeinfo.width.toUInt32 = st.cbModeinfo.depth.toNat := by
  rw [deriveBpp_toNat, UInt16.toNat_toUInt32, ← State.rowBytesPerPixel]
  rcases h.depth with ⟨hd, hbytes⟩ | ⟨hd, hbytes⟩ | ⟨hd, hbytes⟩
  · rw [hd, hbytes]
    rfl
  · rw [hd, hbytes]
    rfl
  · rw [hd, if_neg (by omega), if_neg (by omega)]
    rfl

theorem State.Drawable.fb {st : State} (h : st.Drawable) : cbvgaGetFb st =
    some ⟨st.vbeFramebuffer, st.cbModeinfo.width.toUInt32, st.cbModeinfo.height.toUInt32,
      st.cbLinelength⟩ := by
  unfold cbvgaGetFb
  apply if_neg
  rintro (hfb | hwidth | hheight)
  · exact h.present hfb
  · have hle := h.width
    rw [hwidth] at hle
    exact absurd hle (by decide)
  · have hle := h.height
    rw [hheight] at hle
    exact absurd hle (by decide)

/-- The screen stands for the framebuffer. -/
structure State.DrawnOn (st : State) (s : Screen) : Prop where
  ptr : s.fbPtr = st.vbeFramebuffer
  pitch : s.fbPitch = st.cbLinelength
  bpp : s.fbBpp = st.cbModeinfo.depth.toNat

theorem drawnOn_tmInit {st : State} (h : st.Drawable) (e : Emul) (t : Text) :
    st.DrawnOn (tmInit st e t).2.screen := by
  unfold tmInit
  rw [h.fb]
  exact ⟨rfl, rfl, h.deriveBpp_eq⟩

theorem fits_tmInit {st : State} (h : st.Drawable) (e : Emul) (t : Text) :
    (tmInit st e t).2.screen.Fits := by
  have hdrawn := drawnOn_tmInit h e t
  have hw := h.width
  have hh := h.height
  have hw16 := st.cbModeinfo.width.toNat_lt
  have hh16 := st.cbModeinfo.height.toNat_lt
  obtain ⟨hfbW, hfbH, hx, hy⟩ :
      (tmInit st e t).2.screen.fbW.toNat = st.cbModeinfo.width.toNat ∧
      (tmInit st e t).2.screen.fbH.toNat = st.cbModeinfo.height.toNat ∧
      (tmInit st e t).2.screen.originX = ((st.cbModeinfo.width.toNat - 640) / 2 : Nat) ∧
      (tmInit st e t).2.screen.originY = ((st.cbModeinfo.height.toNat - 400) / 2 : Nat) := by
    unfold tmInit
    rw [h.fb]
    refine ⟨UInt16.toNat_toUInt32 _, UInt16.toNat_toUInt32 _, ?_, ?_⟩
    · exact centred_eq hw (by rw [UInt16.toNat_toUInt32]; omega)
    · exact centred_eq hh (by rw [UInt16.toNat_toUInt32]; omega)
  have hbelow := h.below
  rw [← hdrawn.ptr, ← hdrawn.pitch, ← hfbH] at hbelow
  have hbytes : st.cbModeinfo.depth.toNat / 8 ≤ st.rowBytesPerPixel := by
    rcases h.depth with ⟨hd, hbytes⟩ | ⟨hd, hbytes⟩ | ⟨hd, hbytes⟩
    · rw [hd, hbytes]
      decide
    · rw [hd, hbytes]
      decide
    · rw [hd]
      exact hbytes
  refine ⟨⟨?_, ?_, hbelow⟩, by omega, by omega⟩
  · rw [hdrawn.bpp]
    rcases h.depth with ⟨hd, -⟩ | ⟨hd, -⟩ | ⟨hd, -⟩ <;> rw [hd] <;> decide
  · rw [hdrawn.bpp, hdrawn.pitch, hfbW]
    exact (Nat.mul_le_mul_left _ hbytes).trans (Nat.mul_div_le _ _)

/-- From `tm_enable` on, the screen shows the buffer and the cursor as long as no call has
stored outside `tm_buf`, and no visible cursor has been disturbed since the screen was last
drawn as a whole. -/
theorem screen_shows_text (l : Layout) (font : Font) {st : State} (h : st.Drawable) (e : Emul)
    (t : Text) :
    ∃ t₁, tmEnable font (tmInit st e t).2 = some t₁ ∧
      ∀ u, Intact l font t₁ u → st.DrawnOn u.screen ∧ Consistent font u := by
  refine ⟨_, tmEnable_eq font _, fun u hu => ?_⟩
  have hfits := fits_tmInit h e t
  have hscreen := enabled_screen font (tmInit st e t).2
  have hin := enabled_inBounds font (tmInit st e t).2
  refine ⟨?_, consistent_intact font (hscreen ▸ hfits) hin (consistent_enabled font hfits) hu⟩
  rw [(called_run hin hu.run).1, hscreen]
  exact drawnOn_tmInit h e t

/-- A framebuffer of 640 by 400 pixels of 32 bits. -/
def smallState : State :=
  { blankState with
    cbModeinfo := ⟨.direct, 640, 400, 32, 8, 16, 0⟩
    cbLinelength := 2560
    masks := ⟨8, 8, 8, 16, 8, 0⟩
    vbeFramebuffer := 0xe0000000 }

theorem drawable_small : smallState.Drawable := by
  constructor <;> decide

/-- The screen that `tm_init` makes of it. -/
def smallScreen : Screen := (tmInit smallState blankMachine.emul blankText).2.screen

theorem fits_smallScreen : smallScreen.Fits :=
  fits_tmInit drawable_small blankMachine.emul blankText

/-- A call of AH = 02h. -/
def setCursorRegs (dh dl : UInt8) : Regs := ⟨0, 0x02, 0, 0, 0, 0, dl, dh, 0, 0⟩

theorem screen_shows_text_small : smallState.Drawable ∧ ∃ t₁,
    tmEnable blankFont (tmInit smallState blankMachine.emul blankText).2 = some t₁ ∧
      ∀ u, Intact compiledLayout blankFont t₁ u →
        smallState.DrawnOn u.screen ∧ Consistent blankFont u :=
  ⟨drawable_small,
    screen_shows_text compiledLayout blankFont drawable_small blankMachine.emul blankText⟩

theorem colours_small :
    smallScreen.pixelBytes (smallScreen.rgb 0x07) ≠
      smallScreen.pixelBytes (smallScreen.rgb 0x00) := by
  decide +kernel

/-- The cursor is moved from the first cell to the second one. The first cell still shows
it: the call draws nothing. -/
theorem screen_shows_text_moved : ∃ t₁ regs' u,
    tmEnable blankFont (tmInit smallState blankMachine.emul blankText).2 = some t₁ ∧
      compiledLayout.tmHandleInt10 blankFont (fun _ _ => 0) (setCursorRegs 0 1) t₁ =
        some (true, regs', u) ∧
      u.cursor = (0, 1) ∧ u.buf (0, 0) = ⟨0x20, 0x07⟩ ∧ ¬ Consistent blankFont u := by
  have hfits := fits_smallScreen
  have hcolours := colours_small
  unfold smallScreen at hfits hcolours
  generalize (tmInit smallState blankMachine.emul blankText).2 = t at hfits hcolours ⊢
  let v : Text :=
    { t with
      active := true, row := 0, col := 0, attr := 0x07, cursorStart := 0x0d, cursorEnd := 0x0f
      buf := tmClear 0x07 t.buf }
  have hblank : v.buf (0, 0) = ⟨0x20, 0x07⟩ := tmClear_apply _ _ (by decide)
  refine ⟨_, _, _, tmEnable_eq blankFont t, rfl, rfl, hblank, fun hcons => hcolours ?_⟩
  -- a scanline of the first cell that the cursor covered
  have hcell : InBuf (0, 0) := by decide
  have hpixel : InGlyph 0 13 := by decide
  have hbefore := shown_redraw (t := v) blankFont hfits (enabled_inBounds blankFont t) hcell hpixel
  have hafter := hcons 0 0 0 13 hcell hpixel
  have hcovered : v.overlay.Covers 0 0 13 := ⟨rfl, by simp [v, Text.overlay]⟩
  rw [if_pos ⟨rfl, hcovered⟩] at hbefore
  have hnext : ((0, 0) : Int × Int) ≠ (rowOf 0, colOf 1) := by decide
  rw [if_neg fun hcovers => hnext hcovers.1] at hafter
  have hglyph : glyphColour blankFont t.screen (v.buf (0, 0)) 0 13 = t.screen.rgb 0x00 := by
    rw [hblank]
    rfl
  have hcursor : v.cursorColour = t.screen.rgb 0x07 :=
    congrArg t.screen.rgb (by decide : (0x07 &&& 0x0f : UInt8) = 0x07)
  rw [← hglyph, ← hcursor]
  exact hbefore.symm.trans hafter

end CsmWrap.Vga
