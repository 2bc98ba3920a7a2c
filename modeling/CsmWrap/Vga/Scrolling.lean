import CsmWrap.Scrollback
import CsmWrap.Vga.TextScreen

/-!
# Scrolling

The two ways in which text moves up. A guest scrolls a window with AH = 06h, which is
right for as many lines as the window has and not for more. And a line feed in the last
row scrolls the whole screen, so that it stays the end of a terminal that never scrolls.
-/

namespace CsmWrap.Vga
open Memory Sweep Scrollback

def Regs.InWindow (regs : Regs) (p : Int × Int) : Prop :=
  (regs.ch.toNat ≤ p.1 ∧ p.1 ≤ regs.lastRow) ∧ regs.cl.toNat ≤ p.2 ∧ p.2 ≤ regs.lastCol

instance (regs : Regs) (p : Int × Int) : Decidable (regs.InWindow p) :=
  inferInstanceAs (Decidable (_ ∧ _))

/-- What AH = 06h is for: the lines of the window move up by AL, or are cleared if AL is
zero or not less than their number. -/
def windowScrolled (regs : Regs) (buf : Int × Int → Cell) (p : Int × Int) : Cell :=
  if regs.InWindow p then
    if regs.al ≠ 0 ∧ p.1 + regs.al.toNat ≤ regs.lastRow then buf (p.1 + regs.al.toNat, p.2)
    else ⟨0x20, regs.bh⟩
  else buf p

/-- The call does that, and nothing outside `tm_buf` is accessed. -/
def ScrollsWindow (font : Font) (far : Far) (regs : Regs) (t : Text) : Prop :=
  (∀ p ∈ scrollAccesses (scrollLines regs) (scrollWindow regs), InBuf p) ∧
    ∃ regs' u, tmHandleInt10 font far regs t = some (true, regs', u) ∧
      ∀ p, InBuf p → u.buf p = windowScrolled regs t.buf p

/-- The rows above the window that are cleared with it, since no more than the top of the
screen limits the number of lines. -/
def Regs.Above (regs : Regs) (p : Int × Int) : Prop :=
  (regs.lastRow - scrollLines regs < p.1 ∧ p.1 < regs.ch.toNat ∧ p.1 ≤ regs.lastRow) ∧
    regs.cl.toNat ≤ p.2 ∧ p.2 ≤ regs.lastCol

instance (regs : Regs) (p : Int × Int) : Decidable (regs.Above p) :=
  inferInstanceAs (Decidable (_ ∧ _))

/-- There are no columns, or no more lines than rows, or all that is cleared besides is on
the screen and blank already. -/
def WindowHeld (regs : Regs) (buf : Int × Int → Cell) : Prop :=
  regs.lastCol < regs.cl.toNat ∨ scrollLines regs ≤ regs.lastRow - regs.ch.toNat + 1 ∨
    scrollLines regs ≤ regs.lastRow + 1 ∧ ∀ p, regs.Above p → buf p = ⟨0x20, regs.bh⟩

section
variable (regs : Regs)

theorem inWindow_iff {p : Int × Int} :
    regs.InWindow p ↔
      (regs.ch.toNat ≤ p.1 ∧ p.1 ≤ regs.lastRow) ∧ regs.cl.toNat ≤ p.2 ∧ p.2 ≤ regs.lastCol :=
  Iff.rfl

theorem above_iff {p : Int × Int} :
    regs.Above p ↔
      (regs.lastRow - scrollLines regs < p.1 ∧ p.1 < regs.ch.toNat ∧ p.1 ≤ regs.lastRow) ∧
        regs.cl.toNat ≤ p.2 ∧ p.2 ≤ regs.lastCol := Iff.rfl

theorem not_inWindow_of_above {p : Int × Int} (h : regs.Above p) : ¬ regs.InWindow p := by
  rw [above_iff] at h
  rw [inWindow_iff]
  omega

/-- What the call leaves in a cell: what it is for, but for the rows above. -/
theorem scrolled_apply (buf : Int × Int → Cell) (p : Int × Int) :
    tmScrollUp (scrollLines regs) (scrollWindow regs) regs.bh buf p =
      if regs.Above p then ⟨0x20, regs.bh⟩ else windowScrolled regs buf p := by
  have hlast := last_lt regs
  have hpos := scrollLines_pos regs
  have hwin := inWindow_iff regs (p := p)
  have habove := above_iff regs (p := p)
  rw [tmScrollUp_apply hpos, windowScrolled]
  simp only [mem_blanked, mem_moved]
  by_cases hin : regs.InWindow p
  · have hnot : ¬ regs.Above p := fun h => not_inWindow_of_above regs h hin
    rw [if_neg hnot, if_pos hin]
    rw [hwin] at hin
    by_cases hal : regs.al = 0
    · have hlines : scrollLines regs = 25 := if_neg (not_not.mpr hal)
      rw [if_pos (by omega), if_neg fun h => h.1 hal]
    · have hlines : scrollLines regs = regs.al.toNat := if_pos hal
      rw [hlines]
      by_cases hmoved : p.1 + regs.al.toNat ≤ regs.lastRow
      · rw [if_neg (by omega), if_pos (by omega), if_pos ⟨hal, hmoved⟩]
      · rw [if_pos (by omega), if_neg fun h => hmoved h.2]
  · rw [if_neg hin]
    rw [hwin] at hin
    by_cases hup : regs.Above p
    · rw [if_pos hup]
      rw [habove] at hup
      rw [if_pos (by omega)]
    · rw [if_neg hup]
      rw [habove] at hup
      rw [if_neg (by omega), if_neg (by omega)]

end

/-- **A window is scrolled as it should be**, just when it has no columns, or no more lines
are asked for than it has rows, or what is cleared above it is on the screen and blank
already. -/
theorem scrolls_window_iff (font : Font) (far : Far) {regs : Regs} {t : Text}
    (hah : regs.ah = 0x06) (hactive : t.active = true) :
    ScrollsWindow font far regs t ↔ WindowHeld regs t.buf := by
  have hcall := tmHandleInt10_scroll font far (by rw [hah]; rfl) hactive
  have hlast := last_lt regs
  unfold ScrollsWindow WindowHeld
  rw [accesses_inBuf_iff]
  constructor
  · rintro ⟨hacc, regs', u, hu, hcells⟩
    rw [hcall] at hu
    cases hu
    refine hacc.imp_right fun hlines => .inr ⟨hlines, fun p habove => ?_⟩
    have hin : InBuf p := by
      have h := (above_iff regs).mp habove
      unfold InBuf
      omega
    have hcell := (scrolled_apply regs t.buf p).symm.trans (hcells p hin)
    rw [if_pos habove, windowScrolled, if_neg (not_inWindow_of_above regs habove)] at hcell
    exact hcell.symm
  · intro hheld
    refine ⟨by omega, _, _, hcall, fun p _ => (scrolled_apply regs t.buf p).trans ?_⟩
    split
    · next habove =>
      rw [windowScrolled, if_neg (not_inWindow_of_above regs habove)]
      rcases hheld with hcols | hlines | ⟨-, hblank⟩
      · rw [above_iff] at habove
        omega
      · rw [above_iff] at habove
        omega
      · exact (hblank p habove).symm
    · rfl

/-- A call of AH = 06h for all columns, with attribute 07h. -/
def scrollRegs (lines first last : UInt8) : Regs := ⟨lines, 0x06, 0, 0x07, 0, first, 79, last, 0, 0⟩

/-- A screen full of the letter A. -/
def letterText : Text := { blankText with active := true, buf := fun _ => ⟨0x41, 0x07⟩ }

theorem scrolls_window_line :
    ScrollsWindow blankFont (fun _ _ => 0) (scrollRegs 1 0 24) letterText :=
  (scrolls_window_iff blankFont _ rfl rfl).mpr (.inr (.inl (by decide)))

/-- Clearing the window of rows 5 to 10 clears the rows above it, and 14 rows before the
start of `tm_buf`. -/
theorem scrolls_window_clear :
    (-14, 0) ∈ scrollAccesses (scrollLines (scrollRegs 0 5 10)) (scrollWindow (scrollRegs 0 5 10)) ∧
      ∃ regs' u, tmHandleInt10 blankFont (fun _ _ => 0) (scrollRegs 0 5 10) letterText =
          some (true, regs', u) ∧
        u.buf (4, 0) = ⟨0x20, 0x07⟩ ∧ windowScrolled (scrollRegs 0 5 10) letterText.buf (4, 0) =
          ⟨0x41, 0x07⟩ := by
  refine ⟨?_, _, _, tmHandleInt10_scroll blankFont _ rfl rfl, ?_, by decide⟩
  · rw [mem_scrollAccesses, mem_blanked]
    exact .inr (by decide)
  · refine (scrolled_apply (scrollRegs 0 5 10) letterText.buf (4, 0)).trans ?_
    decide

/-! ## The terminal -/

/-- On to a column, or to the start of the next line. -/
def terminalAdvance (s : Sheet Cell) (next : Int) : Sheet Cell :=
  if next ≥ 80 then (s.moveTo 0).lineFeed else s.moveTo next

/-- A character on a terminal of 80 columns whose rows never scroll off. -/
def terminalPutch (s : Sheet Cell) (ch : UInt8) : Sheet Cell :=
  if ch = 0x0d then s.moveTo 0
  else if ch = 0x0a then s.lineFeed
  else if ch = 0x08 then s.moveTo (max 0 (s.col - 1))
  else if ch = 0x09 then terminalAdvance s ((s.col / 8 + 1) * 8)
  else terminalAdvance (s.put ⟨ch, 0x07⟩) (s.col + 1)

/-- The terminal after a string, from a blank one with the cursor in its first cell. -/
def terminal (chars : List UInt8) : Sheet Cell :=
  chars.foldl terminalPutch ⟨fun _ => ⟨0x20, 0x07⟩, 0, 0⟩

def Page.sheet (p : Page) : Sheet Cell := ⟨p.buf, p.row, p.col⟩

/-- The page is the end of the terminal, and is written in its colours. -/
structure Page.EndOf (p : Page) (s : Sheet Cell) : Prop where
  shows : ShowsEnd 25 80 ⟨0x20, 0x07⟩ p.sheet s
  attr : p.attr = 0x07

theorem Page.EndOf.moveTo {p : Page} {s : Sheet Cell} (h : p.EndOf s) {col : Int}
    (hcol : 0 ≤ col ∧ col < 80) : Page.EndOf { p with col := col } (s.moveTo col) :=
  ⟨h.shows.moveTo hcol, h.attr⟩

theorem Page.EndOf.newline {p : Page} {s : Sheet Cell} (h : p.EndOf s) :
    p.newline.EndOf s.lineFeed := by
  have hattr := h.attr
  unfold Page.newline
  split
  · next hlast =>
    refine ⟨h.shows.scroll hlast fun i c hi hc => ?_, hattr⟩
    have hin : InBuf (i, c) := ⟨hi, hc⟩
    refine (scroll_full p.attr p.buf hin).trans ?_
    rw [hattr]
    rfl
  · next hroom => exact ⟨h.shows.lineFeed (not_le.mp hroom), hattr⟩

theorem Page.EndOf.advance {p : Page} {s : Sheet Cell} (h : p.EndOf s) {next : Int}
    (hnext : 0 ≤ next) : (p.advance next).EndOf (terminalAdvance s next) := by
  unfold Page.advance terminalAdvance
  split
  · exact (h.moveTo (by decide)).newline
  · next hfits => exact h.moveTo ⟨hnext, not_le.mp hfits⟩

theorem Page.EndOf.putch {p : Page} {s : Sheet Cell} (h : p.EndOf s) (ch : UInt8) :
    (p.putch ch).EndOf (terminalPutch s ch) := by
  have hcol : p.col = s.col := h.shows.col
  obtain ⟨hlow, hhigh⟩ := h.shows.cols
  unfold Page.putch terminalPutch
  split
  · exact h.moveTo (by decide)
  · split
    · exact h.newline
    · split
      · have hback : (if p.col > 0 then p.col - 1 else p.col) = max 0 (s.col - 1) := by
          split <;> omega
        rw [hback]
        exact h.moveTo (by omega)
      · split
        · rw [hcol]
          exact h.advance (by omega)
        · rw [hcol]
          have hprint : (p.print ch).EndOf (s.put ⟨ch, 0x07⟩) := by
            refine ⟨?_, h.attr⟩
            have hput := h.shows.put ⟨ch, 0x07⟩
            rw [← h.attr] at hput ⊢
            exact hput
          exact hprint.advance (by omega)

theorem Page.EndOf.type {p : Page} {s : Sheet Cell} (h : p.EndOf s) (chars : List UInt8) :
    (p.type chars).EndOf (chars.foldl terminalPutch s) := by
  induction chars generalizing p s with
  | nil => exact h
  | cons ch chars ih => exact ih (h.putch ch)

/-- `tm_enable` leaves the screen as a blank terminal. -/
theorem endOf_enabled (font : Font) (t : Text) : (t.enabled font).toPage.EndOf (terminal []) := by
  refine ⟨⟨le_refl _, by decide, rfl, rfl, fun i c hi hc => ?_, fun _ _ _ => rfl⟩, rfl⟩
  exact tmClear_apply 0x07 t.buf ⟨hi, hc⟩

/-- Calls of AH = 0Eh type their characters. -/
theorem int10s_teletype (font : Font) {t : Text} (h : t.InBounds) (hactive : t.active = true)
    {calls : List Call} (hcalls : ∀ call ∈ calls, call.regs.ah = 0x0e) :
    int10s font t calls = some (t.type font (calls.map fun call => call.regs.al)) := by
  induction calls generalizing t with
  | nil => rfl
  | cons call calls ih =>
    have hon : ¬ t.active = false := by rw [hactive]; decide
    have htyping : typing call.far call.regs t = some (t, [call.regs.al]) := by
      rw [typing, if_neg hon, hcalls call List.mem_cons_self]
      rfl
    have hput := putch_inBounds font h call.regs.al
    have hstill := (putch_setting font t call.regs.al).active.trans hactive
    rw [int10s, List.foldlM_cons, tmHandleInt10_typing font h htyping]
    exact ih hput hstill fun call' hmem => hcalls call' (List.mem_cons_of_mem call hmem)

/-- **The screen is the end of a terminal that never scrolls**, whatever characters are
sent to it with AH = 0Eh after `tm_enable`, and whatever the other registers hold. -/
theorem screen_shows_terminal (font : Font) (t : Text) (calls : List Call)
    (hcalls : ∀ call ∈ calls, call.regs.ah = 0x0e) :
    ∃ t₀ u, tmEnable font t = some t₀ ∧ int10s font t₀ calls = some u ∧
      u.col = (terminal (calls.map fun call => call.regs.al)).col ∧
      u.row = min (terminal (calls.map fun call => call.regs.al)).row 24 ∧
      ∀ i c, InBuf (i, c) →
        u.buf (i, c) = (terminal (calls.map fun call => call.regs.al)).cells
          (i + max 0 ((terminal (calls.map fun call => call.regs.al)).row - 24), c) := by
  have hrun := int10s_teletype font (enabled_inBounds font t) rfl hcalls
  have hend := (endOf_enabled font t).type (calls.map fun call => call.regs.al)
  rw [← toPage_type] at hend
  refine ⟨_, _, tmEnable_eq font t, hrun, hend.shows.col, hend.shows.row, fun i c hin => ?_⟩
  exact hend.shows.shown i c hin.1 hin.2

/-- A call of AH = 0Eh. -/
def teletypeCall (ch : UInt8) : Call := ⟨⟨ch, 0x0e, 0, 0, 0, 0, 0, 0, 0, 0⟩, fun _ _ => 0⟩

/-- A letter, 30 line feeds and another letter. -/
def longString : List UInt8 := 0x41 :: List.replicate 30 0x0a ++ [0x42]

/-- The first letter has scrolled off, and the second one is in the last row. -/
theorem screen_shows_terminal_long :
    ∃ t₀ u, tmEnable blankFont blankText = some t₀ ∧
      int10s blankFont t₀ (longString.map teletypeCall) = some u ∧
      u.row = 24 ∧ u.col = 2 ∧ u.buf (24, 1) = ⟨0x42, 0x07⟩ := by
  obtain ⟨t₀, u, henable, hrun, hcol, hrow, hcells⟩ := screen_shows_terminal blankFont blankText
    (longString.map teletypeCall) (by simp [teletypeCall])
  refine ⟨t₀, u, henable, hrun, hrow.trans (by decide), hcol.trans (by decide), ?_⟩
  exact (hcells 24 1 (by decide)).trans (by decide)

end CsmWrap.Vga
