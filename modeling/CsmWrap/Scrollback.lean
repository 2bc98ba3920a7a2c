import Mathlib.Logic.Function.Basic

/-!
# A screen as a window on a page without end

A sheet has rows without end and a cursor. A screen of a fixed height shows the last
rows of it down to the row of the cursor: writing at the cursor, moving it within the
row and feeding a line keep this, if the screen scrolls where the sheet just goes on.
-/

namespace CsmWrap.Scrollback

structure Sheet (α : Type*) where
  cells : Int × Int → α
  row : Int
  col : Int

section
variable {α : Type*}

def Sheet.put (s : Sheet α) (a : α) : Sheet α :=
  { s with cells := Function.update s.cells (s.row, s.col) a }

def Sheet.moveTo (s : Sheet α) (col : Int) : Sheet α := { s with col := col }

def Sheet.lineFeed (s : Sheet α) : Sheet α := { s with row := s.row + 1 }

/-- How many rows of a sheet have left a screen of a height. -/
def Sheet.scrolledOff (s : Sheet α) (height : Int) : Int := max 0 (s.row - (height - 1))

/-- A screen `w` of a size that shows the end of the sheet `s`, which is blank below its
cursor. -/
structure ShowsEnd (height width : Int) (blank : α) (w s : Sheet α) : Prop where
  start : 0 ≤ s.row
  cols : 0 ≤ s.col ∧ s.col < width
  row : w.row = min s.row (height - 1)
  col : w.col = s.col
  shown : ∀ i c, 0 ≤ i ∧ i < height → 0 ≤ c ∧ c < width →
    w.cells (i, c) = s.cells (i + s.scrolledOff height, c)
  below : ∀ i c, s.row < i → s.cells (i, c) = blank

variable {height width : Int} {blank : α} {w s : Sheet α}

theorem ShowsEnd.put (h : ShowsEnd height width blank w s) (a : α) :
    ShowsEnd height width blank (w.put a) (s.put a) := by
  have hrow : w.row + s.scrolledOff height = s.row := by
    rw [h.row, Sheet.scrolledOff]
    omega
  refine ⟨h.start, h.cols, h.row, h.col, fun i c hi hc => ?_, fun i c hbelow => ?_⟩
  · change Function.update w.cells (w.row, w.col) a (i, c) =
      Function.update s.cells (s.row, s.col) a (i + s.scrolledOff height, c)
    by_cases hat : (i, c) = (w.row, w.col)
    · obtain ⟨rfl, rfl⟩ := Prod.mk.inj hat
      rw [Function.update_self, hrow, h.col, Function.update_self]
    · have hne : (i + s.scrolledOff height, c) ≠ (s.row, s.col) := by
        intro he
        obtain ⟨hi', hc'⟩ := Prod.mk.inj he
        exact hat (Prod.ext (by omega) (hc'.trans h.col.symm))
      rw [Function.update_of_ne hat, Function.update_of_ne hne]
      exact h.shown i c hi hc
  · change s.row < i at hbelow
    have hne : (i, c) ≠ (s.row, s.col) := fun he => by
      have := (Prod.mk.inj he).1
      omega
    exact (Function.update_of_ne hne _ _).trans (h.below i c hbelow)

theorem ShowsEnd.moveTo (h : ShowsEnd height width blank w s) {col : Int}
    (hcol : 0 ≤ col ∧ col < width) : ShowsEnd height width blank (w.moveTo col) (s.moveTo col) :=
  ⟨h.start, hcol, h.row, rfl, h.shown, h.below⟩

/-- A line feed above the last row of the screen. -/
theorem ShowsEnd.lineFeed (h : ShowsEnd height width blank w s) (hroom : w.row + 1 < height) :
    ShowsEnd height width blank w.lineFeed s.lineFeed := by
  have hrow := h.row
  have hstart := h.start
  have hoff : s.lineFeed.scrolledOff height = s.scrolledOff height := by
    unfold Sheet.scrolledOff Sheet.lineFeed
    dsimp only
    omega
  refine ⟨?_, h.cols, ?_, h.col, fun i c hi hc => ?_, fun i c hbelow => h.below i c ?_⟩
  · change 0 ≤ s.row + 1
    omega
  · change w.row + 1 = min (s.row + 1) (height - 1)
    omega
  · rw [hoff]
    exact h.shown i c hi hc
  · change s.row + 1 < i at hbelow
    omega

/-- A line feed in the last row of the screen, which scrolls it: each row becomes the one
below it, and the last one blank. -/
theorem ShowsEnd.scroll (h : ShowsEnd height width blank w s) (hlast : height ≤ w.row + 1)
    {cells : Int × Int → α}
    (hcells : ∀ i c, 0 ≤ i ∧ i < height → 0 ≤ c ∧ c < width →
      cells (i, c) = if i = height - 1 then blank else w.cells (i + 1, c)) :
    ShowsEnd height width blank ⟨cells, height - 1, w.col⟩ s.lineFeed := by
  have hrow := h.row
  have hstart := h.start
  have hoff : s.lineFeed.scrolledOff height = s.scrolledOff height + 1 := by
    unfold Sheet.scrolledOff Sheet.lineFeed
    dsimp only
    omega
  refine ⟨?_, h.cols, ?_, h.col, fun i c hi hc => ?_, fun i c hbelow => h.below i c ?_⟩
  · change 0 ≤ s.row + 1
    omega
  · change height - 1 = min (s.row + 1) (height - 1)
    omega
  · refine (hcells i c hi hc).trans ?_
    rw [hoff]
    split
    · next hi' =>
      refine (h.below _ c ?_).symm
      unfold Sheet.scrolledOff
      omega
    · rw [h.shown (i + 1) c (by omega) hc, Int.add_assoc, Int.add_comm 1]
      rfl
  · change s.row + 1 < i at hbelow
    omega

end

end CsmWrap.Scrollback
