import CsmWrap.Overwrite
import CsmWrap.Vga.TextPage

/-!
# The text emulator in memory

`tm_buf` does not lie alone: the other variables of `16colorsmode.c` are next to it, where
the linker has put them. AH = 06h with more lines than there are rows down to the end of its
window clears rows in front of `tm_buf`, and so whatever variables are there. A `Layout`
says where they are. The emulator over a layout is that of `TextMode` as long as no call
clears such rows, and then the cursor stays on the screen.
-/

namespace CsmWrap.Vga
open Memory Sweep

/-- The last row and column of the window of AH = 06h. -/
def Regs.lastRow (regs : Regs) : Int := min regs.dh.toNat 24

def Regs.lastCol (regs : Regs) : Int := min regs.dl.toNat 79

theorem scrollLines_pos (regs : Regs) : 0 < scrollLines regs := by
  unfold scrollLines
  split
  · next h =>
    have : regs.al.toNat ≠ 0 := fun e => h (UInt8.toNat_inj.mp e)
    omega
  · decide

theorem clamp_scrollWindow (regs : Regs) :
    (scrollWindow regs).clamp = ⟨regs.ch.toNat, regs.cl.toNat, regs.lastRow, regs.lastCol⟩ := by
  unfold scrollWindow Window.clamp Regs.lastRow Regs.lastCol
  simp only [Window.mk.injEq]
  omega

section
variable (regs : Regs)

theorem mem_blanked {p : Int × Int} :
    p ∈ (scrollWindow regs).clamp.blanked (scrollLines regs) ↔
      (regs.lastRow - scrollLines regs < p.1 ∧ p.1 ≤ regs.lastRow) ∧
        regs.cl.toNat ≤ p.2 ∧ p.2 ≤ regs.lastCol := by
  rw [clamp_scrollWindow, Window.blanked, mem_grid]
  dsimp only
  omega

theorem mem_moved {p : Int × Int} :
    p ∈ (scrollWindow regs).clamp.moved (scrollLines regs) ↔
      (regs.ch.toNat ≤ p.1 ∧ p.1 ≤ regs.lastRow - scrollLines regs) ∧
        regs.cl.toNat ≤ p.2 ∧ p.2 ≤ regs.lastCol := by
  rw [clamp_scrollWindow, Window.moved, mem_grid]

/-- The last row and column are on the screen. -/
theorem last_lt : regs.lastRow ≤ 24 ∧ regs.lastCol ≤ 79 := ⟨min_le_right _ _, min_le_right _ _⟩

theorem mem_scrollAccesses {p : Int × Int} :
    p ∈ scrollAccesses (scrollLines regs) (scrollWindow regs) ↔
      (∃ q ∈ (scrollWindow regs).clamp.moved (scrollLines regs),
        p = q ∨ p = (q.1 + scrollLines regs, q.2)) ∨
      p ∈ (scrollWindow regs).clamp.blanked (scrollLines regs) := by
  have hpos := scrollLines_pos regs
  rw [scrollAccesses, if_neg (by omega), List.mem_append, List.mem_flatMap]
  simp only [List.mem_cons, List.not_mem_nil, or_false]

/-- Accesses are within `tm_buf`, unless more lines are cleared than there are above the
end of the window. -/
theorem accesses_inBuf_iff :
    (∀ p ∈ scrollAccesses (scrollLines regs) (scrollWindow regs), InBuf p) ↔
      regs.lastCol < regs.cl.toNat ∨ scrollLines regs ≤ regs.lastRow + 1 := by
  have hpos := scrollLines_pos regs
  have hlast := last_lt regs
  constructor
  · intro h
    by_contra hcols
    rw [not_or] at hcols
    have hin := h (regs.lastRow - scrollLines regs + 1, regs.cl.toNat)
      ((mem_scrollAccesses regs).mpr (.inr ((mem_blanked regs).mpr ⟨by omega, by omega⟩)))
    unfold InBuf at hin
    omega
  · intro h p hp
    unfold InBuf
    rcases (mem_scrollAccesses regs).mp hp with ⟨q, hq, rfl | rfl⟩ | hp
    · have := (mem_moved regs).mp hq
      omega
    · have := (mem_moved regs).mp hq
      dsimp only
      omega
    · have := (mem_blanked regs).mp hp
      omega

end

/-- The variables of the emulator besides `tm_buf`. -/
inductive Variable where
  | tmRow
  | tmCol
  | tmAttr
  | cursorStart
  | cursorEnd
  | tmActive
  | fbPtr
  | fbW
  | fbH
  | fbPitch
  | fbBpp
  | originX
  | originY
  | rgbCache (i : Fin 16)
  deriving DecidableEq, Repr

/-- The bytes of a variable. -/
def Variable.size : Variable → Nat
  | .tmAttr | .cursorStart | .cursorEnd => 1
  | _ => 4

/-- Where the linker has put the variables, counted in bytes from the start of `tm_buf`.
The 4000 bytes of `tm_buf` itself hold none of them. -/
structure Layout where
  offset : Variable → Int
  outside : ∀ v, offset v + v.size ≤ 0 ∨ 4000 ≤ offset v

/-- What AH = 06h stores at an offset from `tm_buf`, where a row has 160 bytes and a cell
two, the character first. Its first loop stays within `tm_buf`. -/
def blankedByte (regs : Regs) (offset : Int) : Option UInt8 :=
  if (offset / 160, offset % 160 / 2) ∈ (scrollWindow regs).clamp.blanked (scrollLines regs) then
    some (if offset % 2 = 0 then 0x20 else regs.bh)
  else none

namespace Layout

/-- A variable after the stores of AH = 06h. -/
def patch {α : Type} (l : Layout) (regs : Regs) (v : Variable) (encode : α → UInt32)
    (decode : UInt32 → α) (a : α) : α :=
  Overwrite.patch (blankedByte regs) (l.offset v) v.size encode decode a

def overwrite (l : Layout) (regs : Regs) (t : Text) : Text :=
  { t with
    row := l.patch regs .tmRow UInt32.ofInt asInt t.row
    col := l.patch regs .tmCol UInt32.ofInt asInt t.col
    attr := l.patch regs .tmAttr UInt8.toUInt32 UInt32.toUInt8 t.attr
    cursorStart := l.patch regs .cursorStart UInt8.toUInt32 UInt32.toUInt8 t.cursorStart
    cursorEnd := l.patch regs .cursorEnd UInt8.toUInt32 UInt32.toUInt8 t.cursorEnd
    active := l.patch regs .tmActive (fun b => if b then 1 else 0) (· != 0) t.active
    screen :=
      { t.screen with
        fbPtr := l.patch regs .fbPtr id id t.screen.fbPtr
        fbW := l.patch regs .fbW id id t.screen.fbW
        fbH := l.patch regs .fbH id id t.screen.fbH
        fbPitch := l.patch regs .fbPitch id id t.screen.fbPitch
        fbBpp := l.patch regs .fbBpp UInt32.ofNat UInt32.toNat t.screen.fbBpp
        originX := l.patch regs .originX UInt32.ofInt asInt t.screen.originX
        originY := l.patch regs .originY UInt32.ofInt asInt t.screen.originY
        rgbCache := t.screen.rgbCache.mapFinIdx fun i c h =>
          l.patch regs (.rgbCache ⟨i, h⟩) id id c } }

/-- The window as AH = 06h leaves it, and the variables that were in the way. -/
def scrolled (l : Layout) (regs : Regs) (t : Text) : Text :=
  l.overwrite regs
    { t with buf := tmScrollUp (scrollLines regs) (scrollWindow regs) regs.bh t.buf }

/-- `tm_handle_int10` with the variables where the layout has them. The screen is drawn
with the variables as they are after the stores. -/
def tmHandleInt10 (l : Layout) (font : Font) (far : Far) (regs : Regs) (t : Text) :
    Option (Bool × Regs × Text) :=
  if t.active = true ∧ service regs.ah = some .scrollUp then
    (markAllDirty font (l.scrolled regs t)).map fun t => (true, { regs with ah := 0x00 }, t)
  else Vga.tmHandleInt10 font far regs t

def int10s (l : Layout) (font : Font) (t : Text) (calls : List Call) : Option Text :=
  calls.foldlM (fun t call => (l.tmHandleInt10 font call.far call.regs t).map fun r => r.2.2) t

end Layout

/-- AH = 06h has no columns to scroll, or no more lines than there are rows down to the end
of the window. -/
def Regs.ScrollsInside (regs : Regs) : Prop :=
  regs.lastCol < regs.cl.toNat ∨ scrollLines regs ≤ regs.lastRow + 1

instance (regs : Regs) : Decidable regs.ScrollsInside := inferInstanceAs (Decidable (_ ∨ _))

/-- The call stores nothing outside `tm_buf`. -/
def Confined (regs : Regs) (t : Text) : Prop :=
  t.active = true → service regs.ah = some .scrollUp → regs.ScrollsInside

section
variable (l : Layout) {regs : Regs}

theorem blankedByte_of_inside (h : regs.ScrollsInside) {offset : Int}
    (hout : offset < 0 ∨ 4000 ≤ offset) : blankedByte regs offset = none := by
  apply if_neg
  intro hmem
  obtain ⟨⟨hlo, hhi⟩, hcl, hcol⟩ := (mem_blanked regs).mp hmem
  have hlast := last_lt regs
  dsimp only at hlo hhi hcl hcol
  rcases h with hcols | hlines <;> omega

theorem patch_of_inside {α : Type} (h : regs.ScrollsInside) (v : Variable) (encode : α → UInt32)
    (decode : UInt32 → α) (a : α) : l.patch regs v encode decode a = a := by
  have hout := l.outside v
  exact Overwrite.patch_of_untouched (fun i hi => blankedByte_of_inside h (by omega)) ..

theorem overwrite_of_inside (h : regs.ScrollsInside) (t : Text) : l.overwrite regs t = t := by
  have hcache : (t.screen.rgbCache.mapFinIdx fun i c h =>
      l.patch regs (.rgbCache ⟨i, h⟩) id id c) = t.screen.rgbCache := by
    ext i hi
    simp only [Vector.getElem_mapFinIdx, patch_of_inside l h]
  unfold Layout.overwrite
  rw [hcache]
  simp only [patch_of_inside l h]

theorem layout_scroll (font : Font) (far : Far) {t : Text} (hactive : t.active = true)
    (hs : service regs.ah = some .scrollUp) :
    l.tmHandleInt10 font far regs t =
      some (true, { regs with ah := 0x00 }, redraw font (l.scrolled regs t)) := by
  rw [Layout.tmHandleInt10, if_pos ⟨hactive, hs⟩, markAllDirty_eq]
  rfl

/-- A call that stores nothing outside `tm_buf` does what it does with `tm_buf` alone. -/
theorem tmHandleInt10_of_confined (font : Font) (far : Far) {t : Text} (h : Confined regs t) :
    l.tmHandleInt10 font far regs t = tmHandleInt10 font far regs t := by
  unfold Layout.tmHandleInt10
  split
  · next hscroll =>
    obtain ⟨hactive, hs⟩ := hscroll
    rw [Layout.scrolled, overwrite_of_inside l (h hactive hs), markAllDirty_eq,
      tmHandleInt10_scroll font far hs hactive]
    rfl
  · rfl

end

/-- A run without such stores, step by step. -/
theorem layout_int10s_eq (l : Layout) (font : Font) {t : Text} {calls : List Call}
    (h : ∀ call ∈ calls, service call.regs.ah = some .scrollUp → call.regs.ScrollsInside) :
    l.int10s font t calls = int10s font t calls := by
  induction calls generalizing t with
  | nil => rfl
  | cons call calls ih =>
    have hcall : Confined call.regs t := fun _ => h call List.mem_cons_self
    have hrest := fun u : Text => @ih u fun c hc => h c (List.mem_cons_of_mem call hc)
    unfold Layout.int10s int10s at hrest ⊢
    simp only [List.foldlM_cons, tmHandleInt10_of_confined l font call.far hcall, hrest]

/-- The scroll of a line feed accesses the cells of `tm_buf` only. -/
theorem scrollAccesses_full {p : Int × Int} (hp : p ∈ scrollAccesses 1 fullWindow) : InBuf p := by
  have hclamp : fullWindow.clamp = ⟨0, 0, 24, 79⟩ := by decide
  rw [scrollAccesses, if_neg (by decide), hclamp, List.mem_append, List.mem_flatMap] at hp
  rcases hp with ⟨q, hq, hp⟩ | hp
  · rw [Window.moved, mem_grid] at hq
    dsimp only at hq
    rcases List.mem_cons.mp hp with rfl | hp
    · unfold InBuf
      omega
    · rw [List.mem_singleton.mp hp]
      unfold InBuf
      omega
  · rw [Window.blanked, mem_grid] at hp
    dsimp only at hp
    unfold InBuf
    omega

/-- **The cursor stays on the screen** in every run from `tm_enable` on in which AH = 06h
stores nothing outside `tm_buf`, wherever the variables are and whatever else the calls
have in their registers and strings. Every call returns, and the cursor is within the 25
rows and 80 columns after it. So it is after each character of the loops of AH = 09h, 0Ah,
0Eh and 13h: none of them accesses `tm_buf` outside its bounds or needs `tm_putch` to call
itself more than once, and the scroll of a line feed stays within `tm_buf` as well. -/
theorem cursor_in_bounds (l : Layout) (font : Font) (t : Text) (calls : List Call)
    (h : ∀ call ∈ calls, service call.regs.ah = some .scrollUp → call.regs.ScrollsInside) :
    ∃ t₀ u, tmEnable font t = some t₀ ∧ l.int10s font t₀ calls = some u ∧ u.InBounds ∧
      (∀ far regs start chars, typing far regs u = some (start, chars) →
        ∀ n, ∃ v, putchs font start (chars.take n) = some v ∧ v.InBounds) ∧
      ∀ p ∈ scrollAccesses 1 fullWindow, InBuf p := by
  obtain ⟨u, hrun, hu, -⟩ := int10s_inBounds font (enabled_inBounds font t) rfl calls
  refine ⟨t.enabled font, u, tmEnable_eq font t, (layout_int10s_eq l font h).trans hrun, hu, ?_,
    fun p => scrollAccesses_full⟩
  intro far regs start chars htyping n
  have hstart := typing_inBounds hu htyping
  exact ⟨_, putchs_eq font hstart _, type_inBounds font hstart _⟩

/-- The offsets that the compiler's order gives: the variables without an initial value in
front of `tm_buf`, the last one first, and those with one before them. -/
def compiledOffset : Variable → Int
  | .tmRow => -32
  | .tmCol => -36
  | .tmActive => -40
  | .fbPtr => -44
  | .fbW => -48
  | .fbH => -52
  | .fbPitch => -56
  | .originX => -60
  | .originY => -64
  | .rgbCache i => -128 + 4 * i
  | .tmAttr => -138
  | .cursorStart => -139
  | .cursorEnd => -140
  | .fbBpp => -144

theorem compiledOffset_outside (v : Variable) :
    compiledOffset v + v.size ≤ 0 ∨ 4000 ≤ compiledOffset v := by
  cases v with
  | rgbCache i =>
    have := i.isLt
    simp only [compiledOffset, Variable.size]
    omega
  | _ => decide

def compiledLayout : Layout := ⟨compiledOffset, compiledOffset_outside⟩

def blankFont : Font := fun _ _ => 0

/-- A call of AH = 06h for two lines of a window in the first row. -/
def twoLinesRegs (bh cl dl : UInt8) : Regs := ⟨2, 0x06, 0, bh, cl, 0, dl, 0, 0, 0⟩

/-- A call of AH = 06h for one line of the whole screen. -/
def oneLineRegs : Regs := ⟨1, 0x06, 0, 7, 0, 0, 79, 24, 0, 0⟩

theorem cursor_in_bounds_line : ∃ t₀ u, tmEnable blankFont blankText = some t₀ ∧
    compiledLayout.int10s blankFont t₀ [⟨oneLineRegs, fun _ _ => 0⟩] = some u ∧ u.InBounds := by
  obtain ⟨t₀, u, henable, hrun, hu, -⟩ := cursor_in_bounds compiledLayout blankFont blankText
    [⟨oneLineRegs, fun _ _ => 0⟩] fun call hcall _ => by
      rw [List.mem_singleton.mp hcall]
      decide
  exact ⟨t₀, u, henable, hrun, hu⟩

/-- Row -1 of `tm_buf` holds the cursor in columns 62 to 65. Cleared with attribute 7 it
leads the cursor to row and column 0x07200720, where AH = 08h reads outside `tm_buf`. -/
theorem cursor_overwritten : ∃ t₀ regs' u, tmEnable blankFont blankText = some t₀ ∧
    compiledLayout.tmHandleInt10 blankFont (fun _ _ => 0) (twoLinesRegs 7 62 65) t₀ =
      some (true, regs', u) ∧
    u.cursor = (0x07200720, 0x07200720) ∧ ¬ u.InBounds ∧
    compiledLayout.tmHandleInt10 blankFont (fun _ _ => 0) ⟨0, 0x08, 0, 0, 0, 0, 0, 0, 0, 0⟩ u =
      none := by
  let t₀ := blankText.enabled blankFont
  let u := redraw blankFont (compiledLayout.scrolled (twoLinesRegs 7 62 65) t₀)
  have hcursor : u.cursor = (0x07200720, 0x07200720) := by
    change (compiledLayout.patch (twoLinesRegs 7 62 65) .tmRow UInt32.ofInt asInt 0,
      compiledLayout.patch (twoLinesRegs 7 62 65) .tmCol UInt32.ofInt asInt 0) = _
    decide +kernel
  have hactive : u.active = true := by
    change compiledLayout.patch (twoLinesRegs 7 62 65) .tmActive (fun b => if b then 1 else 0)
      (· != 0) true = true
    decide +kernel
  have hout : ¬ InBuf u.cursor := by
    rw [hcursor]
    decide
  refine ⟨t₀, _, u, tmEnable_eq blankFont blankText, layout_scroll _ _ _ rfl rfl, hcursor, hout, ?_⟩
  have hon : ¬ u.active = false := by
    rw [hactive]
    decide
  have hread : u.cell? (u.row, u.col) = none := if_neg hout
  rw [Layout.tmHandleInt10, if_neg fun h => absurd h.2 (by decide), tmHandleInt10,
    if_neg fun h => hon h.1, if_neg hon]
  change (u.cell? (u.row, u.col)).map _ = none
  rw [hread]
  rfl

end CsmWrap.Vga
