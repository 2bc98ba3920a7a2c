import CsmWrap.Vga.Mirror

/-!
# Where the mirror follows text memory

After a call the cells it has drawn should show what text memory holds, and what
it has changed there should have been drawn. For each call there is an exact
condition on the state that it finds, and a run of calls follows text memory just
when each of them meets its own.
-/

namespace CsmWrap.Vga
open Memory

/-- A cell displays what text memory holds. Of a blank only the background is to be
seen, and which characters are blanks is left open. -/
def Shown.Agrees (isBlank : UInt8 → Prop) (cell : Cell) : Shown → Prop
  | char ch attr => cell = ⟨ch, attr⟩
  | blank bg => isBlank cell.ch ∧ background cell.attr = bg

/-- The two bytes of a cell. -/
def Bios.cellOffsets (b : Bios) (x y : Nat) : List Nat :=
  [offset (y * (b.videoCols.toNat * 2) + x * 2),
    offset (y * (b.videoCols.toNat * 2) + (x * 2 + 1))]

/-- After a call all cells it has displayed show what text memory then holds, and
whatever it has changed there is displayed. -/
structure VgafbCall.Follows (isBlank : UInt8 → Prop) (b : Bios) (call : VgafbCall) : Prop where
  shown : ∀ (x y : Nat) (s : Shown), shownAt x y (call.run b).2 = some s →
    s.Agrees isBlank ((call.run b).1.cell x y)
  changed : ∀ p, (call.run b).1.vram p ≠ b.vram p →
    ∃ x y, (shownAt x y (call.run b).2).isSome ∧ p ∈ b.cellOffsets x y

/-- The cell that clearing leaves. -/
def CarAttr.cleared (ca : CarAttr) : Cell := ⟨ca.car, ca.clearAttr⟩

/-- For a window that is scrolled down by `n` rows: the rows that are moved are already
clear. Where the window is fewer than `n` rows below the top, the rows that take their
place come from above the screen, and are looked for there. -/
def RowsClear (b : Bios) (win winsize : CursorPos) (n : Nat) (ca : CarAttr) : Prop :=
  ∀ col < winsize.x.toNat, ∀ row : Nat, row + n < winsize.y.toNat →
    if win.y.toNat < n then
      row < n → b.cell (win.x.toNat + col) (win.y.toNat + row - n) = ca.cleared
    else b.cell (win.x.toNat + col) (win.y.toNat + row) = ca.cleared

/-- When a call is mirrored. -/
def VgafbCall.Mirrored (isBlank : UInt8 → Prop) (b : Bios) : VgafbCall → Prop
  | writeChar cp ca => ca.useAttr ∨ ca.attr = (b.cell cp.x.toNat cp.y.toNat).attr
  | scroll win winsize lines ca =>
    winsize.x = 0 ∨ (isBlank ca.car ∧ (ca.useAttr ∨ background ca.attr = 0)) ∧
      (lines < 0 → RowsClear b win winsize lines.natAbs ca)

section
variable {W Z : TextWindow} {b b' : Bios} {ca : CarAttr} {isBlank : UInt8 → Prop}
  {ops : List MirrorOp}

theorem background_clearAttr :
    background ca.clearAttr = background ca.attr ↔ ca.useAttr ∨ background ca.attr = 0 := by
  cases h : ca.useAttr with
  | true => simp [CarAttr.clearAttr, h]
  | false =>
    have hgrey : background 0x07 = 0 := by decide
    simp [CarAttr.clearAttr, h, hgrey, eq_comm]

theorem shows_clearRegion (cx cy cols rows : UInt16) (attr : UInt8) (x y : Nat)
    (hx : Z.x = cx.toNat) (hy : Z.y = cy.toNat) (hw : Z.w = cols.toNat) (hh : Z.h = rows.toNat) :
    (MirrorOp.clearRegion cx cy cols rows attr).shows x y =
      if Z.Covers x y then some (.blank (background attr)) else none := by
  rw [MirrorOp.shows]
  congr 1
  rw [eq_iff_iff, TextWindow.Covers]
  omega

/-- Rows drawn between two times that a part of the window is cleared. -/
theorem shownAt_between {first last : MirrorOp} {rows : List MirrorOp} {x y : Nat} {s t : Shown}
    {drawn : Prop} [Decidable drawn]
    (hfirst : first.shows x y = if Z.Covers x y then some t else none)
    (hrows : shownAt x y rows = if drawn then some s else none)
    (hlast : last.shows x y = if Z.Covers x y then some t else none)
    (hdrawn : ¬ Z.Covers x y → (drawn ↔ W.Covers x y)) :
    shownAt x y ([first] ++ rows ++ [last]) =
      if Z.Covers x y then some t else if W.Covers x y then some s else none := by
  rw [shownAt_append, shownAt_append, hrows]
  simp only [shownAt, hfirst, hlast, Option.none_or]
  by_cases hZ : Z.Covers x y
  · simp only [if_pos hZ, Option.some_or]
  · simp only [if_neg hZ, Option.none_or, Option.or_none, hdrawn hZ]

/-- What is displayed agrees with text memory when the cleared part does and the rows
that were drawn are those that text memory has there. -/
theorem shown_iff {up : Int} (hx : Z.x = W.x) (hw : Z.w = W.w) (hh : 0 < Z.h)
    (hshown : ∀ x y : Nat, shownAt x y ops =
      if Z.Covers x y then some (.blank (background ca.attr))
      else if W.Covers x y then some (.char (b'.cell x (y - up)).ch (b'.cell x (y - up)).attr)
      else none)
    (hclear : ∀ x y, Z.Covers x y → b'.cell x y = ca.cleared) :
    (∀ (x y : Nat) (s : Shown), shownAt x y ops = some s → s.Agrees isBlank (b'.cell x y)) ↔
      (W.w = 0 ∨ isBlank ca.car ∧ (ca.useAttr ∨ background ca.attr = 0)) ∧
        ∀ x y : Nat, W.Covers x y → ¬ Z.Covers x y → b'.cell x y = b'.cell x (y - up) := by
  constructor
  · intro h
    refine ⟨?_, fun x y hW hZ => ?_⟩
    · by_cases hempty : W.w = 0
      · exact .inl hempty
      · -- a corner of the part that is cleared
        have hcorner : Z.Covers Z.x Z.y := ⟨⟨by omega, by omega⟩, by omega, by omega⟩
        have hagrees := h Z.x Z.y _ ((hshown _ _).trans (if_pos hcorner))
        rw [hclear _ _ hcorner] at hagrees
        exact .inr ⟨hagrees.1, background_clearAttr.mp hagrees.2⟩
    · exact h x y _ ((hshown x y).trans ((if_neg hZ).trans (if_pos hW)))
  · rintro ⟨hblank, hrows⟩ x y s hs
    rw [hshown] at hs
    by_cases hZ : Z.Covers x y
    · rw [if_pos hZ] at hs
      cases hs
      rw [hclear x y hZ]
      rcases hblank with hempty | ⟨hcar, hattr⟩
      · obtain ⟨⟨_, _⟩, _⟩ := hZ
        omega
      · exact ⟨hcar, background_clearAttr.mpr hattr⟩
    · rw [if_neg hZ] at hs
      split at hs
      next hW =>
        cases hs
        exact hrows x y hW hZ
      next => cases hs

theorem changed_shown (hcols : W.cols = b.videoCols.toNat)
    (hshown : ∀ x y : Nat, W.Covers x y → (shownAt x y ops).isSome)
    (hother : ∀ p, (∀ r i, W.block.Covers r i → p ≠ offset (r * W.block.stride + i)) →
      b'.vram p = b.vram p) {p : Nat} (hp : b'.vram p ≠ b.vram p) :
    ∃ x y, (shownAt x y ops).isSome ∧ p ∈ b.cellOffsets x y := by
  by_contra hnone
  apply hp
  apply hother
  rintro r i hcovers rfl
  obtain ⟨x, y, hW, rfl, hi⟩ := TextWindow.exists_cell hcovers
  refine hnone ⟨x, y, hshown x y hW, ?_⟩
  rw [Bios.cellOffsets, ← hcols]
  rcases hi with rfl | rfl
  · exact List.mem_cons_self
  · exact List.mem_cons_of_mem _ List.mem_cons_self

/-- A call that changes text memory within a window, clears some rows of it last, and
displays all of it. -/
theorem follows_iff {call : VgafbCall} {up : Int} {m : Mem} (hrun : call.run b = (b', ops))
    (hZ : Z.Rows W) (hcols : W.cols = b.videoCols.toNat) (hcols' : b'.videoCols = b.videoCols)
    (hother : ∀ p, (∀ r i, W.block.Covers r i → p ≠ offset (r * W.block.stride + i)) →
      m p = b.vram p)
    (hvram : b'.vram = Z.block.filled ca.car ca.clearAttr m)
    (hshown : ∀ x y : Nat, shownAt x y ops =
      if Z.Covers x y then some (.blank (background ca.attr))
      else if W.Covers x y then some (.char (b'.cell x (y - up)).ch (b'.cell x (y - up)).attr)
      else none) :
    call.Follows isBlank b ↔
      (W.w = 0 ∨ isBlank ca.car ∧ (ca.useAttr ∨ background ca.attr = 0)) ∧
        ∀ x y : Nat, W.Covers x y → ¬ Z.Covers x y → b'.cell x y = b'.cell x (y - up) := by
  have hclear : ∀ x y, Z.Covers x y → b'.cell x y = ca.cleared := by
    intro x y hcovers
    have hfill := TextWindow.cell_filled ca.car ca.clearAttr m hcovers.near
    rw [if_pos hcovers, TextWindow.cell, hZ.cols, hcols] at hfill
    rw [Bios.cell, hcols', hvram, hfill, CarAttr.cleared]
  rw [← shown_iff hZ.x hZ.w hZ.pos hshown hclear]
  constructor
  · intro h
    have hs := h.shown
    rwa [hrun] at hs
  · intro h
    refine ⟨by rwa [hrun], ?_⟩
    rw [hrun]
    intro p hp
    refine changed_shown hcols ?_ ?_ hp
    · intro x y hW
      rw [hshown]
      split_ifs <;> rfl
    · intro p hout
      have hstride : Z.block.stride = W.block.stride := by
        simp only [TextWindow.block, hZ.cols]
      rw [hvram, Block.filled_other (w := Z.w) rfl (by simp only [TextWindow.block]; omega)
        (by simp only [TextWindow.block]; omega), hother p hout]
      intro r i hcovers
      rw [hstride]
      exact hout r i (hZ.block_covers hcovers)

theorem mirrored_scroll {win winsize : CursorPos} {lines : Int} :
    (VgafbCall.scroll win winsize lines ca).Mirrored isBlank b ↔
      (winsize.x.toNat = 0 ∨ isBlank ca.car ∧ (ca.useAttr ∨ background ca.attr = 0)) ∧
        (lines < 0 → RowsClear b win winsize lines.natAbs ca) := by
  have hzero : winsize.x = 0 ↔ winsize.x.toNat = 0 := by
    rw [← UInt8.toNat_inj, UInt8.toNat_zero]
  rw [VgafbCall.Mirrored, hzero]
  constructor
  · rintro (hempty | ⟨hblank, hclear⟩)
    · exact ⟨.inl hempty, fun _ col hcol => absurd hcol (by omega)⟩
    · exact ⟨.inr hblank, hclear⟩
  · rintro ⟨hempty | hblank, hclear⟩
    · exact .inl hempty
    · exact .inr ⟨hblank, hclear⟩

end

/-! A column of a window that is scrolled down by `n` rows: `f` is what it was, `a` what
moving the rows makes of it, and `s` what it is after the first rows are cleared. -/

section
variable {α : Type*} {f a s : Int → α} {c : α} {top h n : Nat}
  (hs : ∀ y : Int, top ≤ y → y < top + h → s y = if y < top + n then c else a y)
include hs

theorem column_iff (hn : 0 < n) (ha : ∀ y : Int, top ≤ y → y < top + h → a y = f (y - n)) :
    (∀ y : Int, top + n ≤ y → y < top + h → s y = s (y - n)) ↔
      ∀ row : Nat, row + n < h → f (top + row) = c := by
  have hsecond : ∀ row : Nat, row + n < h → s (top + row + n) = f (top + row) := by
    intro row hrow
    rw [hs _ (by omega) (by omega), if_neg (by omega), ha _ (by omega) (by omega),
      add_sub_cancel_right]
  constructor
  · intro hsame row
    -- a row further down holds the clear row that is `n` rows above
    induction row using Nat.strong_induction_on with
    | _ row ih =>
      intro hrow
      have hrows := hsame (top + row + n) (by omega) (by omega)
      rw [hsecond row hrow, add_sub_cancel_right, hs _ (by omega) (by omega)] at hrows
      by_cases hfirst : row < n
      · rw [hrows, if_pos (by omega)]
      · rw [hrows, if_neg (by omega), ha _ (by omega) (by omega)]
        have hprev := ih (row - n) (by omega) (by omega)
        rwa [show (top : Int) + (row - n : Nat) = top + row - n by omega] at hprev
  · intro hclear y hy hy'
    obtain ⟨row, rfl⟩ : ∃ row : Nat, y = top + row + n := ⟨(y - top - n).toNat, by omega⟩
    rw [hsecond row (by omega), add_sub_cancel_right, hs _ (by omega) (by omega),
      hclear row (by omega)]
    by_cases hfirst : row < n
    · rw [if_pos (by omega)]
    · rw [if_neg (by omega), ha _ (by omega) (by omega)]
      have hprev := hclear (row - n) (by omega)
      rw [show (top : Int) + (row - n : Nat) = top + row - n by omega] at hprev
      exact hprev.symm

theorem column_iff_wrapped (ha : ∀ y : Int, top ≤ y → y < top + h → a y = a (y - n))
    (hf : ∀ y : Int, (top : Int) - n ≤ y → y < top → a y = f y) :
    (∀ y : Int, top + n ≤ y → y < top + h → s y = s (y - n)) ↔
      ∀ row : Nat, row + n < h → row < n → f (top + row - n) = c := by
  have hrepeat : ∀ row : Nat, row + n < h → s (top + row + n) = a (top + row) := by
    intro row hrow
    rw [hs _ (by omega) (by omega), if_neg (by omega), ha _ (by omega) (by omega),
      add_sub_cancel_right]
  have habove : ∀ row : Nat, row + n < h → row < n → a (top + row) = f (top + row - n) := by
    intro row hrow hfirst
    rw [ha _ (by omega) (by omega), hf _ (by omega) (by omega)]
  constructor
  · intro hsame row hrow hfirst
    have hrows := hsame (top + row + n) (by omega) (by omega)
    rw [hrepeat row hrow, add_sub_cancel_right, hs _ (by omega) (by omega), if_pos (by omega),
      habove row hrow hfirst] at hrows
    exact hrows
  · intro hclear y hy hy'
    obtain ⟨row, rfl⟩ : ∃ row : Nat, y = top + row + n := ⟨(y - top - n).toNat, by omega⟩
    rw [hrepeat row (by omega), add_sub_cancel_right, hs _ (by omega) (by omega)]
    by_cases hfirst : row < n
    · rw [if_pos (by omega), habove row (by omega) hfirst, hclear row (by omega) hfirst]
    · rw [if_neg (by omega)]

end

section
variable {b : Bios} (hb : b.Fits) (isBlank : UInt8 → Prop)
include hb

theorem follows_writeChar {cp : CursorPos} {ca : CarAttr}
    (hon : (VgafbCall.writeChar cp ca).OnScreen b) :
    (VgafbCall.writeChar cp ca).Follows isBlank b ↔
      (VgafbCall.writeChar cp ca).Mirrored isBlank b := by
  obtain ⟨hpage, hx, hy⟩ := hon
  obtain ⟨hlo, hhi⟩ := Bios.offset_textAddress hb hpage hx (UInt8.le_iff_toNat_le.mp hy)
  have hshown : ∀ x y : Nat, shownAt x y ((VgafbCall.writeChar cp ca).run b).2 =
      if x = cp.x.toNat ∧ y = cp.y.toNat then some (.char ca.car ca.attr) else none := by
    intro x y
    simp [VgafbCall.run, shownAt, MirrorOp.shows]
  have hcell : ((VgafbCall.writeChar cp ca).run b).1.cell cp.x.toNat cp.y.toNat =
      ca.over (b.cell cp.x.toNat cp.y.toNat) := by
    simp only [VgafbCall.run, vgafbWriteChar, Bios.cell, textCell, hlo, hhi, CarAttr.over]
    cases ca.useAttr <;> simp [store, copy, writeByte]
  have hagrees : Shown.Agrees isBlank (ca.over (b.cell cp.x.toNat cp.y.toNat))
      (.char ca.car ca.attr) ↔ (VgafbCall.writeChar cp ca).Mirrored isBlank b := by
    simp only [Shown.Agrees, CarAttr.over, VgafbCall.Mirrored, Cell.mk.injEq, true_and]
    cases ca.useAttr <;> simp [eq_comm]
  rw [← hagrees, ← hcell]
  constructor
  · intro h
    exact h.shown _ _ _ ((hshown _ _).trans (if_pos ⟨rfl, rfl⟩))
  · intro h
    constructor
    · intro x y s hs
      rw [hshown] at hs
      split at hs
      next hat =>
        cases hs
        rw [hat.1, hat.2]
        exact h
      next => cases hs
    · intro p hp
      refine ⟨cp.x.toNat, cp.y.toNat, by rw [hshown, if_pos ⟨rfl, rfl⟩]; rfl, ?_⟩
      rw [Bios.cellOffsets, hlo, hhi]
      by_contra hout
      have hne : p ≠ textAddress b cp ∧ p ≠ textAddress b cp + 1 := by simpa using hout
      apply hp
      have hlen : (if ca.useAttr then [ca.car, ca.attr] else [ca.car]).length ≤ 2 := by
        split <;> simp
      exact store_outside _ _ _ (by omega)

theorem follows_scroll_zero {win winsize : CursorPos} {ca : CarAttr}
    (hon : (VgafbCall.scroll win winsize 0 ca).OnScreen b) :
    (VgafbCall.scroll win winsize 0 ca).Follows isBlank b ↔
      (VgafbCall.scroll win winsize 0 ca).Mirrored isBlank b := by
  obtain ⟨hpage, hx, hy, hlo, hhi⟩ := hon
  let W : TextWindow := Bios.window hb hx hy
  have hrows : W.Rows W := by
    refine ⟨rfl, rfl, rfl, ?_, le_rfl, le_rfl⟩
    change 0 < winsize.y.toNat
    omega
  have hrun : (VgafbCall.scroll win winsize 0 ca).run b = vgafbClearChars b win winsize ca := rfl
  have hvram := Bios.vgafbClearChars_vram (W := W) hpage rfl rfl rfl rfl rfl ca
  have hshown : ∀ x y : Nat, shownAt x y (vgafbClearChars b win winsize ca).2 =
      if W.Covers x y then some (.blank (background ca.attr))
      else if W.Covers x y then
        some (.char ((vgafbClearChars b win winsize ca).1.cell x (y - 0)).ch
          ((vgafbClearChars b win winsize ca).1.cell x (y - 0)).attr)
      else none := by
    intro x y
    have hclear := shows_clearRegion (Z := W) win.x.toUInt16 win.y.toUInt16 winsize.x.toUInt16
      winsize.y.toUInt16 ca.attr x y (UInt8.toNat_toUInt16 _).symm (UInt8.toNat_toUInt16 _).symm
      (UInt8.toNat_toUInt16 _).symm (UInt8.toNat_toUInt16 _).symm
    simp only [vgafbClearChars, shownAt, Option.none_or, hclear]
    split_ifs <;> rfl
  rw [follows_iff hrun hrows rfl rfl (fun _ _ => rfl) hvram hshown, mirrored_scroll]
  exact and_congr_right fun _ =>
    ⟨fun _ hneg => absurd hneg (by omega), fun _ x y hW hout => absurd hW hout⟩

/-- Scrolling in either direction, with the rows that are drawn anew as a list. -/
theorem follows_scrolled {win winsize : CursorPos} {lines up : Int} {y₈ n₈ : UInt8}
    {y₁₆ n₁₆ : UInt16} {rows : List Int} {ca : CarAttr} {Z : TextWindow}
    (hrun : (VgafbCall.scroll win winsize lines ca).run b =
      (scrolled b win winsize lines y₈ n₈ ca, scrollOps (scrolled b win winsize lines y₈ n₈ ca)
        win winsize up rows y₈ n₈ y₁₆ n₁₆ ca.attr))
    (hpage : win.page = 0) (hx : win.x.toNat + winsize.x.toNat ≤ b.videoCols.toNat)
    (hy : win.y.toNat + winsize.y.toNat ≤ b.videoRows.toNat + 1)
    (hZ : Z.Rows (Bios.window hb hx hy))
    (hy₈ : Z.y = y₈.toNat) (hn₈ : Z.h = n₈.toNat) (hy₁₆ : Z.y = y₁₆.toNat) (hn₁₆ : Z.h = n₁₆.toNat)
    (hrows : ∀ row ∈ rows, (0 ≤ win.y.toNat + row ∧ win.y.toNat + row ≤ b.videoRows.toNat) ∧
      0 ≤ win.y.toNat + row - up ∧ win.y.toNat + row - up ≤ b.videoRows.toNat)
    (hdrawn : ∀ x y : Nat, ¬ Z.Covers x y →
      ((win.x.toNat ≤ x ∧ x < win.x.toNat + winsize.x.toNat) ∧ (y : Int) - win.y.toNat ∈ rows ↔
        (Bios.window hb hx hy).Covers x y)) :
    (VgafbCall.scroll win winsize lines ca).Follows isBlank b ↔
      (winsize.x.toNat = 0 ∨ isBlank ca.car ∧ (ca.useAttr ∨ background ca.attr = 0)) ∧
        ∀ x y : Nat, (Bios.window hb hx hy).Covers x y → ¬ Z.Covers x y →
          (scrolled b win winsize lines y₈ n₈ ca).cell x y =
            (scrolled b win winsize lines y₈ n₈ ca).cell x (y - up) := by
  have hZx : Z.x = win.x.toUInt16.toNat := hZ.x.trans (UInt8.toNat_toUInt16 _).symm
  have hZw : Z.w = winsize.x.toUInt16.toNat := hZ.w.trans (UInt8.toNat_toUInt16 _).symm
  have hfits : (scrolled b win winsize lines y₈ n₈ ca).Fits := ⟨hb.cols, hb.size⟩
  refine follows_iff hrun hZ rfl rfl (fun p hp => Block.moved_other lines b.vram hp)
    (scrolled_vram hpage rfl rfl rfl rfl rfl hZ hy₈ hn₈ lines ca) fun x y => ?_
  have hfirst := shows_clearRegion win.x.toUInt16 y₈.toUInt16 winsize.x.toUInt16 n₈.toUInt16
    ca.attr x y hZx (hy₈.trans (UInt8.toNat_toUInt16 _).symm) hZw
    (hn₈.trans (UInt8.toNat_toUInt16 _).symm)
  have hlast := shows_clearRegion win.x.toUInt16 y₁₆ winsize.x.toUInt16 n₁₆ ca.attr x y hZx hy₁₆
    hZw hn₁₆
  exact shownAt_between hfirst (Bios.shownAt_mirrorRows hfits hx hrows x y) hlast (hdrawn x y)

theorem follows_scroll_up {win winsize : CursorPos} {n : Nat} (hn : 0 < n) {ca : CarAttr}
    (hon : (VgafbCall.scroll win winsize n ca).OnScreen b) :
    (VgafbCall.scroll win winsize n ca).Follows isBlank b ↔
      (VgafbCall.scroll win winsize n ca).Mirrored isBlank b := by
  obtain ⟨hpage, hx, hy, hlo, hhi⟩ := hon
  have hh := winsize.y.toNat_lt
  have hrows := b.videoRows.toNat_lt
  -- the last rows of the window are cleared
  have htop : win.y.toNat + winsize.y.toNat - n + n ≤ b.videoRows.toNat + 1 := by omega
  have hZ : (Bios.window hb hx htop).Rows (Bios.window hb hx hy) := by
    refine ⟨rfl, rfl, rfl, hn, ?_, ?_⟩ <;> simp only [Bios.window] <;> omega
  have hy₈ := toNat_ofInt8 (n := win.y.toNat + winsize.y.toNat - n) (by omega)
  have hn₈ := toNat_ofInt8 (n := n) (by omega)
  have hy₁₆ := toNat_ofInt16 (n := win.y.toNat + winsize.y.toNat - n) (by omega)
  have hn₁₆ := toNat_ofInt16 (n := n) (by omega)
  rw [follows_scrolled hb isBlank (run_scroll_up b win winsize (by omega) ca) hpage hx hy hZ,
    mirrored_scroll]
  · refine and_congr_right fun _ => ⟨fun _ hneg => absurd hneg (by omega), fun _ x y _ _ => ?_⟩
    rw [sub_zero]
  all_goals simp only [Bios.window, TextWindow.Covers, Int.mem_range_iff]
  · omega
  · omega
  · omega
  · omega
  · intro row hrow
    omega
  · intro x y hout
    omega

section
variable {win winsize : CursorPos} {n : Nat} {n₈ : UInt8} {ca : CarAttr}
  (hx : win.x.toNat + winsize.x.toNat ≤ b.videoCols.toNat)
  (hy : win.y.toNat + winsize.y.toNat ≤ b.videoRows.toNat + 1)
  (htop : win.y.toNat + n ≤ b.videoRows.toNat + 1)
include hx hy htop

/-- A window that is scrolled down: rows that are moved, and below the first ones clear. -/
theorem cell_scrolled_down (hpage : win.page = 0) (hn₈ : n₈.toNat = n)
    (hZ : (Bios.window hb hx htop).Rows (Bios.window hb hx hy)) {x y : Int}
    (hcovers : (Bios.window hb hx hy).Covers x y) :
    (scrolled b win winsize (-n) win.y n₈ ca).cell x y =
      if y < win.y.toNat + n then ca.cleared
      else (Bios.window hb hx hy).cell ((Bios.window hb hx hy).block.moved (-n) b.vram) x y := by
  have hpart : (Bios.window hb hx htop).Covers x y ↔ y < win.y.toNat + n := by
    simp only [TextWindow.Covers, Bios.window] at hcovers ⊢
    omega
  have hfill := TextWindow.cell_filled (W := Bios.window hb hx htop) ca.car ca.clearAttr
    ((Bios.window hb hx hy).block.moved (-n) b.vram) hcovers.near
  simp only [hpart] at hfill
  rw [Bios.cell, scrolled_vram hpage rfl rfl rfl rfl rfl hZ rfl hn₈.symm (-n) ca]
  exact hfill

/-- The rows below those that are cleared, column by column. -/
theorem columns_iff (P : Int → Int → Prop) :
    (∀ x y : Nat, (Bios.window hb hx hy).Covers x y → ¬ (Bios.window hb hx htop).Covers x y →
      P x y) ↔
      ∀ col : Nat, col < winsize.x.toNat → ∀ y : Int, (win.y.toNat : Int) + n ≤ y →
        y < win.y.toNat + winsize.y.toNat → P (win.x.toNat + col) y := by
  simp only [TextWindow.Covers, Bios.window]
  constructor
  · intro h col hcol y hlo hhi
    have hP := h (win.x.toNat + col) y.toNat (by omega) (by omega)
    rwa [Int.toNat_of_nonneg (by omega), Nat.cast_add] at hP
  · intro h x y hcovers hout
    have hP := h (x - win.x.toNat) (by omega) y (by omega) (by omega)
    rwa [show (win.x.toNat : Int) + (x - win.x.toNat : Nat) = x by omega] at hP

/-- The rows of a window that is scrolled down are drawn as text memory has them just
when the rows that are moved are clear. -/
theorem rowsClear_iff (hpage : win.page = 0) (hn : 0 < n) (hn' : n < winsize.y.toNat)
    (hn₈ : n₈.toNat = n) (hZ : (Bios.window hb hx htop).Rows (Bios.window hb hx hy)) :
    (∀ x y : Nat, (Bios.window hb hx hy).Covers x y → ¬ (Bios.window hb hx htop).Covers x y →
      (scrolled b win winsize (-n) win.y n₈ ca).cell x y =
        (scrolled b win winsize (-n) win.y n₈ ca).cell x (y - n)) ↔
      RowsClear b win winsize n ca := by
  rw [columns_iff hb hx hy htop fun x y => (scrolled b win winsize (-n) win.y n₈ ca).cell x y =
    (scrolled b win winsize (-n) win.y n₈ ca).cell x (y - n), RowsClear]
  refine forall_congr' fun col => imp_congr_right fun hcol => ?_
  have hin : ∀ y : Int, win.y.toNat ≤ y → y < win.y.toNat + winsize.y.toNat →
      (Bios.window hb hx hy).Covers (win.x.toNat + col) y := by
    intro y hlo hhi
    simp only [TextWindow.Covers, Bios.window]
    omega
  have hcell : ∀ y : Int, win.y.toNat ≤ y → y < win.y.toNat + winsize.y.toNat →
      (scrolled b win winsize (-n) win.y n₈ ca).cell (win.x.toNat + col) y =
        if y < win.y.toNat + n then ca.cleared
        else (Bios.window hb hx hy).cell ((Bios.window hb hx hy).block.moved (-n) b.vram)
          (win.x.toNat + col) y := fun y hlo hhi =>
    cell_scrolled_down hb hx hy htop hpage hn₈ hZ (hin y hlo hhi)
  have hbound : -((Bios.window hb hx hy).h : Int) < -n ∧ (-n : Int) < (Bios.window hb hx hy).h := by
    simp only [Bios.window]
    omega
  have hw : 0 < (Bios.window hb hx hy).w := by
    simp only [Bios.window]
    omega
  by_cases hwrap : win.y.toNat < n
  · simp only [if_pos hwrap]
    have hsource : ((Bios.window hb hx hy).y : Int) + -n < 0 := by
      simp only [Bios.window]
      omega
    refine column_iff_wrapped hcell (fun y hlo hhi => ?_) fun y hlo hhi => ?_
    · exact TextWindow.cell_wrapped hbound hw hsource (hin y hlo hhi) b.vram
    · refine TextWindow.cell_wrapped_outside hbound hw hsource ?_ ?_ b.vram
      · simp only [TextWindow.Near, Bios.window]
        omega
      · simp only [TextWindow.Covers, Bios.window]
        omega
  · simp only [if_neg hwrap]
    refine column_iff hcell hn fun y hlo hhi => ?_
    rw [TextWindow.cell_moved hbound (by omega) hw ?_ (hin y hlo hhi).near,
      if_pos (hin y hlo hhi)]
    · rfl
    · simp only [Bios.window]
      omega

end

theorem follows_scroll_down {win winsize : CursorPos} {n : Nat} (hn : 0 < n) {ca : CarAttr}
    (hon : (VgafbCall.scroll win winsize (-n) ca).OnScreen b) :
    (VgafbCall.scroll win winsize (-n) ca).Follows isBlank b ↔
      (VgafbCall.scroll win winsize (-n) ca).Mirrored isBlank b := by
  obtain ⟨hpage, hx, hy, hlo, hhi⟩ := hon
  have hh := winsize.y.toNat_lt
  have hrows := b.videoRows.toNat_lt
  -- the first rows of the window are cleared
  have htop : win.y.toNat + n ≤ b.videoRows.toNat + 1 := by omega
  have hZ : (Bios.window hb hx htop).Rows (Bios.window hb hx hy) := by
    refine ⟨rfl, rfl, rfl, hn, le_rfl, ?_⟩
    simp only [Bios.window]
    omega
  have hn₈ := toNat_ofInt8 (n := n) (by omega)
  have hn₁₆ := toNat_ofInt16 (n := n) (by omega)
  rw [follows_scrolled hb isBlank (run_scroll_down b win winsize (by omega) ca) hpage hx hy hZ,
    mirrored_scroll]
  · refine and_congr_right fun _ => ?_
    rw [rowsClear_iff hb hx hy htop hpage hn (by omega) (by omega) hZ, Int.natAbs_neg,
      Int.natAbs_natCast]
    exact ⟨fun hclear _ => hclear, fun hclear => hclear (by omega)⟩
  all_goals simp only [Bios.window, TextWindow.Covers, List.mem_reverse, Int.mem_range_iff,
    UInt8.toNat_toUInt16]
  · omega
  · omega
  · intro row hrow
    omega
  · intro x y hout
    omega

theorem follows_iff_mirrored (call : VgafbCall) (hon : call.OnScreen b) :
    call.Follows isBlank b ↔ call.Mirrored isBlank b := by
  cases call with
  | writeChar cp ca => exact follows_writeChar hb isBlank hon
  | scroll win winsize lines ca =>
    rcases lt_trichotomy lines 0 with hneg | rfl | hpos
    · obtain ⟨n, rfl⟩ : ∃ n : Nat, lines = -n := ⟨lines.natAbs, by omega⟩
      exact follows_scroll_down hb isBlank (by omega) hon
    · exact follows_scroll_zero hb isBlank hon
    · obtain ⟨n, rfl⟩ : ∃ n : Nat, lines = n := ⟨lines.toNat, by omega⟩
      exact follows_scroll_up hb isBlank (by omega) hon

end

def runCalls (b : Bios) (calls : List VgafbCall) : Bios :=
  calls.foldl (fun b call => (call.run b).1) b

/-- A call leaves the size of the screen as it is. -/
theorem run_geometry (b : Bios) (call : VgafbCall) :
    (call.run b).1.videoCols = b.videoCols ∧ (call.run b).1.videoRows = b.videoRows := by
  cases call with
  | writeChar cp ca => exact ⟨rfl, rfl⟩
  | scroll win winsize lines ca =>
    simp only [VgafbCall.run, vgafbScroll]
    split
    · exact ⟨rfl, rfl⟩
    · split <;> exact ⟨rfl, rfl⟩

theorem runCalls_geometry (b : Bios) (calls : List VgafbCall) :
    (runCalls b calls).videoCols = b.videoCols ∧ (runCalls b calls).videoRows = b.videoRows := by
  induction calls generalizing b with
  | nil => exact ⟨rfl, rfl⟩
  | cons call calls ih =>
    obtain ⟨hcols, hrows⟩ := run_geometry b call
    obtain ⟨hcols', hrows'⟩ := ih (call.run b).1
    exact ⟨hcols'.trans hcols, hrows'.trans hrows⟩

theorem fits_congr {b b' : Bios} (hcols : b'.videoCols = b.videoCols)
    (hrows : b'.videoRows = b.videoRows) (hb : b.Fits) : b'.Fits :=
  ⟨by rw [hcols]; exact hb.cols, by rw [hcols, hrows]; exact hb.size⟩

theorem onScreen_congr {b b' : Bios} (hcols : b'.videoCols = b.videoCols)
    (hrows : b'.videoRows = b.videoRows) (call : VgafbCall) :
    call.OnScreen b' ↔ call.OnScreen b := by
  cases call <;> simp only [VgafbCall.OnScreen, hcols, hrows]

/-- In a run of calls for the first page, all of them follow text memory just when each
meets its condition in the state that it finds. -/
theorem mirror_follows_iff {b : Bios} (hb : b.Fits) (isBlank : UInt8 → Prop)
    {calls : List VgafbCall} (hon : ∀ call ∈ calls, call.OnScreen b) :
    (∀ done call rest, calls = done ++ call :: rest → call.Follows isBlank (runCalls b done)) ↔
      ∀ done call rest, calls = done ++ call :: rest →
        call.Mirrored isBlank (runCalls b done) := by
  have hstep : ∀ done call rest, calls = done ++ call :: rest →
      (call.Follows isBlank (runCalls b done) ↔ call.Mirrored isBlank (runCalls b done)) := by
    intro done call rest hcalls
    obtain ⟨hcols, hrows⟩ := runCalls_geometry b done
    apply follows_iff_mirrored (fits_congr hcols hrows hb)
    apply (onScreen_congr hcols hrows call).mpr
    apply hon
    rw [hcalls]
    exact List.mem_append_right done List.mem_cons_self
  constructor
  · intro h done call rest hcalls
    exact (hstep done call rest hcalls).mp (h done call rest hcalls)
  · intro h done call rest hcalls
    exact (hstep done call rest hcalls).mpr (h done call rest hcalls)

/-- An empty screen of 80 columns and 25 rows, with one letter in its second row. -/
def letterScreen : Bios where
  videoCols := 80
  videoRows := 24
  videoPagesize := 0x1000
  cursorType := 0x0607
  cursorPos := fun _ => 0
  vram := fun p => if p = 160 then 0x41 else if p % 2 = 0 then 0x20 else 0x07

/-- A character with its attribute, and the screen scrolled up by a line. -/
theorem mirror_follows_iff_scrolled_up :
    letterScreen.Fits ∧ ∀ done (call : VgafbCall) rest,
      [.writeChar ⟨3, 4, 0⟩ ⟨0x42, 0x1f, true⟩,
        .scroll ⟨0, 0, 0⟩ ⟨80, 25, 0⟩ 1 ⟨0x20, 0x1f, true⟩] = done ++ call :: rest →
      call.Follows (· = 0x20) (runCalls letterScreen done) := by
  have hfits : letterScreen.Fits := ⟨by decide, by decide⟩
  refine ⟨hfits, (mirror_follows_iff hfits (· = 0x20) ?_).mpr ?_⟩
  · intro call hcall
    simp only [List.mem_cons, List.not_mem_nil, or_false] at hcall
    rcases hcall with rfl | rfl
    · exact ⟨by decide, by decide, by decide⟩
    · exact ⟨by decide, by decide, by decide, by decide, by decide⟩
  · intro done call rest hcalls
    have hmem : call ∈ done ++ call :: rest := List.mem_append_right done List.mem_cons_self
    rw [← hcalls] at hmem
    simp only [List.mem_cons, List.not_mem_nil, or_false] at hmem
    rcases hmem with rfl | rfl
    · exact .inl rfl
    · exact .inr ⟨⟨rfl, .inl rfl⟩, fun hneg => absurd hneg (by decide)⟩

/-- A character without an attribute is displayed with one that text memory does not
hold, and of a window that is scrolled down a row is displayed that text memory has
one row further up. -/
theorem mirror_strays :
    (∀ isBlank, ¬ (VgafbCall.writeChar ⟨0, 0, 0⟩ ⟨0x42, 0x1f, false⟩).Follows isBlank
      letterScreen) ∧
    ∀ isBlank, ¬ (VgafbCall.scroll ⟨0, 1, 0⟩ ⟨1, 2, 0⟩ (-1) ⟨0x20, 0x07, true⟩).Follows isBlank
      letterScreen := by
  constructor
  · intro isBlank h
    have hshown := h.shown 0 0 (.char 0x42 0x1f) (by decide)
    revert hshown
    simp only [Shown.Agrees]
    decide
  · intro isBlank h
    have hshown := h.shown 0 2 (.char 0x20 0x07) (by decide)
    revert hshown
    simp only [Shown.Agrees]
    decide

end CsmWrap.Vga
