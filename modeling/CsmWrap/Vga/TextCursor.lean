import CsmWrap.Vga.TextScreen

/-!
# Painting the cursor

`render_cursor` on its own. The last scanline is meant to be cut to the cell of the
cursor, but it is cut to the first line of the text: there the cursor is painted as it
should be, and in every other line not at all.
-/

namespace CsmWrap.Vga
open Memory Sweep

/-- The pixels of the cursor: its cell, in the scanlines from `cursor_start` to
`cursor_end` or the last one of the cell. -/
def Text.InCursor (t : Text) (k : Int × Int) : Prop :=
  (t.screen.originX + t.col * 8 ≤ k.1 ∧ k.1 < t.screen.originX + t.col * 8 + 8) ∧
    t.screen.originY + t.row * 16 + t.cursorStart.toNat ≤ k.2 ∧
    k.2 ≤ t.screen.originY + t.row * 16 + min t.cursorEnd.toNat 15

instance (t : Text) (k : Int × Int) : Decidable (t.InCursor k) :=
  inferInstanceAs (Decidable (_ ∧ _))

/-- `render_cursor` gives the foreground colour to the pixels of the cursor and leaves
all others alone. -/
def PaintsCursor (t : Text) : Prop :=
  ∀ k, t.screen.Inside k →
    t.screen.shown (renderCursor t).fb k =
      if t.InCursor k then t.screen.pixelBytes t.cursorColour else t.screen.shown t.fb k

/-- The cursor has no scanline within its cell. -/
def Text.NoScanlines (t : Text) : Prop := min t.cursorEnd.toNat 15 < t.cursorStart.toNat

/-- The pixels of the cursor have its colour already. -/
def Text.CursorPainted (t : Text) : Prop :=
  ∀ k, t.screen.Inside k → t.InCursor k → t.screen.shown t.fb k = t.screen.pixelBytes t.cursorColour

theorem Text.NoScanlines.painted {t : Text} (h : t.NoScanlines) : t.CursorPainted := by
  rintro k - ⟨-, hfirst, hlast⟩
  unfold Text.NoScanlines at h
  omega

section
variable {t : Text} (hin : t.InBounds)
include hin

theorem cursorPixels_hit_iff (k : Int × Int) :
    (∃ p ∈ cursorPixels t, (p.x, p.y) = k) ↔ t.row = 0 ∧ t.InCursor k := by
  have hb := Page.inBounds_iff.mp hin
  obtain ⟨x, y⟩ := k
  have hmem : (∃ p ∈ cursorPixels t, (p.x, p.y) = (x, y)) ↔
      (t.screen.originY + t.row * 16 + t.cursorStart.toNat ≤ y ∧
        y ≤ if t.screen.originY + t.row * 16 + t.cursorEnd.toNat ≥ t.screen.originY + 16 then
          t.screen.originY + 16 - 1 else t.screen.originY + t.row * 16 + t.cursorEnd.toNat) ∧
      t.screen.originX + t.col * 8 ≤ x ∧ x ≤ t.screen.originX + t.col * 8 + 8 - 1 := by
    have hfirst : ¬ t.screen.originY + t.row * 16 + t.cursorStart.toNat < t.screen.originY := by
      omega
    simp only [cursorPixels, List.mem_map, Prod.exists, mem_grid, if_neg hfirst]
    constructor
    · rintro ⟨p, ⟨y', x', hgrid, rfl⟩, hk⟩
      obtain ⟨rfl, rfl⟩ := Prod.mk.inj hk
      exact hgrid
    · intro hgrid
      exact ⟨_, ⟨y, x, hgrid, rfl⟩, rfl⟩
  rw [hmem]
  unfold Text.InCursor
  dsimp only
  -- below the first line the clamped end lies above the start
  split <;> omega

variable (h : t.screen.Fits)
include h

/-- What `render_cursor` leaves on the screen. -/
theorem shown_renderCursor {k : Int × Int} (hk : t.screen.Inside k) :
    t.screen.shown (renderCursor t).fb k =
      if t.row = 0 ∧ t.InCursor k then t.screen.pixelBytes t.cursorColour
      else t.screen.shown t.fb k := by
  rw [renderCursor,
    shown_paint h.toLinear (fun _ => t.cursorColour) (cursorPixels_inside h hin) t.fb hk]
  simp only [cursorPixels_hit_iff hin]

end

/-- **The cursor is painted in the first line only.** Elsewhere `render_cursor` does
what it should just when there is nothing to be done. -/
theorem paints_cursor_iff (t : Text) (h : t.screen.Fits) (hin : t.InBounds) :
    PaintsCursor t ↔ t.row = 0 ∨ t.NoScanlines ∨ t.CursorPainted := by
  have hpaints : PaintsCursor t ↔ t.row = 0 ∨ t.CursorPainted := by
    unfold PaintsCursor Text.CursorPainted
    by_cases hrow : t.row = 0
    · simp only [hrow, true_or, iff_true]
      intro k hk
      rw [shown_renderCursor hin h hk]
      simp only [hrow, true_and]
    · simp only [hrow, false_or]
      apply forall₂_congr
      intro k hk
      rw [shown_renderCursor hin h hk, if_neg fun hpainted => hrow hpainted.1]
      split
      · next hcursor => exact ⟨fun hshown _ => hshown, fun hshown => hshown hcursor⟩
      · next hcursor => exact iff_of_true rfl fun hc => absurd hc hcursor
  rw [hpaints]
  constructor
  · rintro (hrow | hpainted)
    · exact .inl hrow
    · exact .inr (.inr hpainted)
  · rintro (hrow | hnone | hpainted)
    · exact .inl hrow
    · exact .inr hnone.painted
    · exact .inr hpainted

/-- All black, with the cursor that `tm_enable` sets in column 0 of a row. -/
def cursorText (row : Int) : Text :=
  { blankText with row := row, active := true, screen := smallScreen }

theorem paints_cursor_iff_first : PaintsCursor (cursorText 0) :=
  (paints_cursor_iff (cursorText 0) fits_smallScreen (Page.inBounds_iff.mpr (by decide))).mpr
    (.inl rfl)

/-- In the second line the corner of scanline 13 stays black. -/
theorem paints_cursor_second : ¬ PaintsCursor (cursorText 1) := by
  intro h
  have hin : (cursorText 1).InBounds := Page.inBounds_iff.mpr (by decide)
  have hk : (cursorText 1).screen.Inside (0, 29) := ⟨by decide, by decide⟩
  have hpixel := h (0, 29) hk
  rw [shown_renderCursor hin fits_smallScreen hk, if_neg (by decide), if_pos (by decide)]
    at hpixel
  revert hpixel
  decide +kernel

end CsmWrap.Vga
