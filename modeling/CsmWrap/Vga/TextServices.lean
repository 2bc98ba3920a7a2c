import CsmWrap.Vga.TextPage

/-!
# The services of INT 10h

The emulator takes calls in the place of the handlers of `vgabios.c`. Both are
held against one description of what a service does to cells and cursor: the
handlers meet it in text mode on the first page, and the emulator does in a few
cases only, which are found exactly.
-/

namespace CsmWrap.Vga
open Memory

structure CursorPos where
  x : UInt8
  y : UInt8
  page : UInt8
  deriving DecidableEq, Repr

structure CarAttr where
  car : UInt8
  attr : UInt8
  useAttr : Bool
  deriving DecidableEq, Repr

/-- What the handlers read from the BIOS data area, and the memory of the text. -/
structure Bios where
  videoCols : UInt16
  videoRows : UInt8
  videoPagesize : UInt16
  cursorType : UInt16
  cursorPos : UInt8 → UInt16
  vram : Mem

def textAddress (b : Bios) (cp : CursorPos) : Nat :=
  b.videoPagesize.toNat * cp.page.toNat + cp.y.toNat * (b.videoCols.toNat * 2) + cp.x.toNat * 2

/-- `vgafb_write_char` in a text mode, without the copy into the framebuffer. Text memory is
the 32 KiB at B800h; behind it lies the ROM, and what a store does to the variables there is
said by `RomLayout.overwrite`. -/
def vgafbWriteChar (b : Bios) (cp : CursorPos) (ca : CarAttr) : Bios :=
  { b with
    vram := store b.vram (textAddress b cp) (if ca.useAttr then [ca.car, ca.attr] else [ca.car]) }

def writeChar (cp : CursorPos) (b : Bios) (ca : CarAttr) : CursorPos × Bios :=
  let b := vgafbWriteChar b cp ca
  let cp := { cp with x := cp.x + 1 }
  if cp.x.toUInt16 = b.videoCols then ({ cp with x := 0, y := cp.y + 1 }, b) else (cp, b)

/-- `vgafb_scroll` by `lines` lines up in a text mode: the rows are moved, and the
last ones cleared. -/
def vgafbScrollUp (b : Bios) (win : CursorPos) (cols rows lines : Nat) (ca : CarAttr) : Bios :=
  let stride := b.videoCols.toNat * 2
  let dest := textAddress b win
  let vram := (List.range rows).foldl
    (fun m k => store m (dest + k * stride) (load m (dest + (k + lines) * stride) (cols * 2)))
    b.vram
  let clear := win.y.toNat * stride + (rows - lines) * stride + win.x.toNat * 2
  let blank := (List.replicate cols [ca.car, if ca.useAttr then ca.attr else 0x07]).flatten
  { b with vram := (List.range lines).foldl (fun m k => store m (clear + k * stride) blank) vram }

def writeTeletype (cp : CursorPos) (b : Bios) (ca : CarAttr) : CursorPos × Bios :=
  let (cp, b) :=
    if ca.car = 7 then (cp, b)
    else if ca.car = 8 then (if cp.x > 0 then { cp with x := cp.x - 1 } else cp, b)
    else if ca.car = 0x0d then ({ cp with x := 0 }, b)
    else if ca.car = 0x0a then ({ cp with y := cp.y + 1 }, b)
    else writeChar cp b ca
  if cp.y > b.videoRows then
    ({ cp with y := cp.y - 1 },
      vgafbScrollUp b ⟨0, 0, cp.page⟩ b.videoCols.toUInt8.toNat (b.videoRows + 1).toNat 1
        ⟨0x20, 0, false⟩)
  else (cp, b)

def setCursorPos (b : Bios) (cp : CursorPos) : Bios :=
  if cp.page > 7 then b
  else { b with
    cursorPos := Function.update b.cursorPos cp.page (cp.y.toUInt16 <<< 8 ||| cp.x.toUInt16) }

def getCursorPos (b : Bios) (page : UInt8) : CursorPos :=
  if page > 7 then ⟨0, 0, 0⟩
  else
    let xy := b.cursorPos page
    ⟨xy.toUInt8, (xy >>> 8).toUInt8, page⟩

def handle1001 (b : Bios) (regs : Regs) : Bios :=
  { b with cursorType := regs.ch.toUInt16 <<< 8 ||| regs.cl.toUInt16 }

def handle1003 (b : Bios) (regs : Regs) : Regs :=
  let cp := getCursorPos b regs.bh
  { regs with
    ch := (b.cursorType >>> 8).toUInt8, cl := b.cursorType.toUInt8, dl := cp.x, dh := cp.y }

/-- The loop of `handle_1009` and `handle_100a`. -/
def writeChars (ca : CarAttr) : Nat → CursorPos × Bios → CursorPos × Bios
  | 0, s => s
  | count + 1, s => writeChars ca count (writeChar s.1 s.2 ca)

def handle1009 (b : Bios) (regs : Regs) : Bios :=
  (writeChars ⟨regs.al, regs.bl, true⟩ regs.cx (getCursorPos b regs.bh, b)).2

def handle100a (b : Bios) (regs : Regs) : Bios :=
  (writeChars ⟨regs.al, regs.bl, false⟩ regs.cx (getCursorPos b regs.bh, b)).2

/-- The loop of `handle_1013`; bit 1 of AL asks for attributes within the string. -/
def writeTeletypes (far : Far) (regs : Regs) :
    (count offset : Nat) → (attr : UInt8) → CursorPos × Bios → CursorPos × Bios
  | 0, _, _, s => s
  | count + 1, offset, attr, s =>
    let byteAt (i : Nat) : UInt8 := far regs.es (regs.bp + UInt16.ofNat i)
    if regs.al &&& 2 ≠ 0 then
      writeTeletypes far regs count (offset + 2) (byteAt (offset + 1))
        (writeTeletype s.1 s.2 ⟨byteAt offset, byteAt (offset + 1), true⟩)
    else
      writeTeletypes far regs count (offset + 1) attr
        (writeTeletype s.1 s.2 ⟨byteAt offset, attr, true⟩)

def handle1013 (far : Far) (b : Bios) (regs : Regs) : Bios :=
  let s := writeTeletypes far regs regs.cx 0 regs.bl (⟨regs.dl, regs.dh, regs.bh⟩, b)
  if regs.al &&& 1 ≠ 0 then setCursorPos s.2 s.1 else s.2

/-! ## What a service is to do -/

/-- The `n` cells from the cursor on are rewritten, and nothing else happens. -/
structure WritesCells (p p' : Page) (n : Nat) (wanted : Cell → Cell) : Prop where
  row : p'.row = p.row
  col : p'.col = p.col
  cells : ∀ q, InBuf q → p'.buf q = if NextCells p n q then wanted (p.buf q) else p.buf q

/-- A cell of the text memory. -/
def cellAt (m : Mem) (k : Nat) : Cell := ⟨m (2 * k), m (2 * k + 1)⟩

/-- The first page as a page of text. -/
def Bios.page (b : Bios) : Page where
  buf q := cellAt b.vram (cellIndex q).toNat
  row := (getCursorPos b 0).y.toNat
  col := (getCursorPos b 0).x.toNat
  attr := 0

/-- The cell that a character makes of another one. -/
def CarAttr.over (ca : CarAttr) (cell : Cell) : Cell :=
  ⟨ca.car, if ca.useAttr then ca.attr else cell.attr⟩

theorem cellAt_writeChar {b : Bios} (hcols : b.videoCols = 80) {cp : CursorPos}
    (hpage : cp.page = 0) (ca : CarAttr) (k : Nat) :
    cellAt (vgafbWriteChar b cp ca).vram k =
      if k = 80 * cp.y.toNat + cp.x.toNat then ca.over (cellAt b.vram k) else cellAt b.vram k := by
  have haddr : textAddress b cp = 2 * (80 * cp.y.toNat + cp.x.toNat) := by
    rw [textAddress, hcols, hpage]
    simp only [UInt8.toNat_zero, UInt16.reduceToNat]
    omega
  generalize 80 * cp.y.toNat + cp.x.toNat = i at haddr ⊢
  unfold vgafbWriteChar cellAt CarAttr.over
  dsimp only
  rw [haddr]
  by_cases h : k = i
  · subst h
    cases ca.useAttr <;> simp [store, copy, writeByte]
  · have hlen : (if ca.useAttr then [ca.car, ca.attr] else [ca.car]).length ≤ 2 := by
      split <;> simp
    rw [if_neg h, store_outside _ _ _ (by omega), store_outside _ _ _ (by omega)]

/-- The position of a character that is written, as a number of cells. -/
def CursorPos.index (cp : CursorPos) : Nat := 80 * cp.y.toNat + cp.x.toNat

theorem writeChar_spec {b : Bios} (hcols : b.videoCols = 80) {cp : CursorPos}
    (hpage : cp.page = 0) (hx : cp.x.toNat < 80) (hy : cp.y.toNat < 25) (ca : CarAttr) :
    (writeChar cp b ca).2 = vgafbWriteChar b cp ca ∧ (writeChar cp b ca).1.page = 0 ∧
      (writeChar cp b ca).1.x.toNat < 80 ∧ (writeChar cp b ca).1.index = cp.index + 1 := by
  have hsucc : (cp.x + 1).toNat = cp.x.toNat + 1 := by
    rw [UInt8.toNat_add]
    simp only [UInt8.reduceToNat]
    omega
  have hend : (cp.x + 1).toUInt16 = b.videoCols ↔ cp.x.toNat = 79 := by
    rw [hcols, ← UInt16.toNat_inj, UInt8.toNat_toUInt16, hsucc]
    simp only [UInt16.reduceToNat]
    omega
  have hrow : (cp.y + 1).toNat = cp.y.toNat + 1 := by
    rw [UInt8.toNat_add]
    simp only [UInt8.reduceToNat]
    omega
  unfold writeChar CursorPos.index
  dsimp only
  split
  · next h =>
    have h79 := hend.mp h
    refine ⟨rfl, hpage, by simp, ?_⟩
    simp only [hrow, UInt8.toNat_zero]
    omega
  · next h =>
    have h79 : cp.x.toNat ≠ 79 := fun e => h (hend.mpr e)
    refine ⟨rfl, hpage, ?_, ?_⟩
    · simp only [hsucc]
      omega
    · simp only [hsucc]
      omega

theorem writeChars_spec (ca : CarAttr) (n : Nat) (cp : CursorPos) {b : Bios}
    (hcols : b.videoCols = 80) (hpage : cp.page = 0) (hx : cp.x.toNat < 80)
    (hfit : cp.index + n ≤ 2000) :
    (writeChars ca n (cp, b)).2.cursorPos = b.cursorPos ∧
      ∀ k, cellAt (writeChars ca n (cp, b)).2.vram k =
        if cp.index ≤ k ∧ k < cp.index + n then ca.over (cellAt b.vram k) else cellAt b.vram k := by
  induction n generalizing cp b with
  | zero => exact ⟨rfl, fun k => by rw [if_neg (by omega)]; rfl⟩
  | succ n ih =>
    have hy : cp.y.toNat < 25 := by
      unfold CursorPos.index at hfit
      omega
    obtain ⟨hb, hpage', hx', hindex⟩ := writeChar_spec hcols hpage hx hy ca
    have hcols' : (writeChar cp b ca).2.videoCols = 80 := by rw [hb]; exact hcols
    obtain ⟨hcursor, hcells⟩ := ih (writeChar cp b ca).1 hcols' hpage' hx' (by omega)
    refine ⟨hcursor.trans (by rw [hb]; rfl), fun k => ?_⟩
    refine (hcells k).trans ?_
    rw [hb, cellAt_writeChar hcols hpage, ← CursorPos.index, hindex]
    by_cases hk : k = cp.index
    · rw [if_neg (by omega), if_pos hk, if_pos (by omega)]
    · rw [if_neg hk]
      congr 1
      rw [eq_iff_iff]
      omega

theorem getCursorPos_congr {b b' : Bios} (h : b'.cursorPos = b.cursorPos) (page : UInt8) :
    getCursorPos b' page = getCursorPos b page := by
  unfold getCursorPos
  rw [h]

/-- Text mode with 80 columns and 25 rows, the cursor of the first page within them. -/
structure Bios.TextMode (b : Bios) : Prop where
  cols : b.videoCols = 80
  rows : b.videoRows = 24
  cursor : b.page.InBounds

/-- The handlers that write one character rewrite the cells from the cursor on. -/
theorem writesCells_writeChars {b : Bios} (h : b.TextMode) {n : Nat} (hfit : b.page.pos + n ≤ 2000)
    (ca : CarAttr) :
    WritesCells b.page (writeChars ca n (getCursorPos b 0, b)).2.page n ca.over := by
  have hb := Page.inBounds_iff.mp h.cursor
  simp only [Bios.page] at hb
  have hpos : b.page.pos = (getCursorPos b 0).index := by
    simp only [Page.pos, cellIndex, Page.cursor, Bios.page, CursorPos.index]
    omega
  obtain ⟨hcursor, hcells⟩ := writeChars_spec ca n (getCursorPos b 0) h.cols rfl
    (by omega) (by omega)
  have hpage := getCursorPos_congr hcursor 0
  refine ⟨?_, ?_, fun q hq => ?_⟩
  · simp only [Bios.page, hpage]
  · simp only [Bios.page, hpage]
  · refine (hcells _).trans ?_
    have hq' : (((cellIndex q).toNat : Nat) : Int) = cellIndex q := by
      unfold InBuf at hq
      unfold cellIndex
      omega
    have hiff : (getCursorPos b 0).index ≤ (cellIndex q).toNat ∧
        (cellIndex q).toNat < (getCursorPos b 0).index + n ↔ NextCells b.page n q := by
      rw [nextCells_iff]
      omega
    simp only [hiff]
    rfl

theorem cursorPos_writeChar (cp : CursorPos) (b : Bios) (ca : CarAttr) :
    (writeChar cp b ca).2.cursorPos = b.cursorPos := by
  unfold writeChar
  dsimp only
  split <;> rfl

theorem cursorPos_writeTeletype (cp : CursorPos) (b : Bios) (ca : CarAttr) :
    (writeTeletype cp b ca).2.cursorPos = b.cursorPos := by
  unfold writeTeletype
  generalize hs : (if ca.car = 7 then (cp, b) else _ : CursorPos × Bios) = s
  have hb : s.2.cursorPos = b.cursorPos := by
    rw [← hs]
    split
    · rfl
    · split
      · rfl
      · split
        · rfl
        · split
          · rfl
          · exact cursorPos_writeChar cp b ca
  dsimp only
  split <;> exact hb

theorem cursorPos_writeTeletypes (far : Far) (regs : Regs) (n offset : Nat) (attr : UInt8)
    (s : CursorPos × Bios) :
    (writeTeletypes far regs n offset attr s).2.cursorPos = s.2.cursorPos := by
  induction n generalizing offset attr s with
  | zero => rfl
  | succ n ih =>
    unfold writeTeletypes
    dsimp only
    split <;> exact (ih _ _ _).trans (cursorPos_writeTeletype _ _ _)

/-- Without bit 0 of AL, a string does not move the cursor. -/
theorem cursor_handle1013 (far : Far) (b : Bios) {regs : Regs} (h : regs.al &&& 1 = 0) :
    (handle1013 far b regs).page.cursor = b.page.cursor := by
  unfold handle1013
  dsimp only
  rw [if_neg (not_not_intro h)]
  have hpage := getCursorPos_congr (cursorPos_writeTeletypes far regs regs.cx 0 regs.bl
    (⟨regs.dl, regs.dh, regs.bh⟩, b)) 0
  simp only [Page.cursor, Bios.page, hpage]

theorem toNat_word (h l : UInt8) :
    (h.toUInt16 <<< 8 ||| l.toUInt16).toNat = h.toNat * 256 + l.toNat := by
  have hh := h.toNat_lt
  have hl := l.toNat_lt
  rw [UInt16.toNat_or, UInt16.toNat_shiftLeft, UInt8.toNat_toUInt16, UInt8.toNat_toUInt16]
  simp only [UInt16.reduceToNat, Nat.reduceMod]
  rw [Nat.shiftLeft_eq, Nat.mod_eq_of_lt (by omega), ← Nat.shiftLeft_eq,
    ← Nat.shiftLeft_add_eq_or_of_lt (by omega), Nat.shiftLeft_eq]

/-- The shape of the cursor is returned as it was set. -/
theorem handle1003_handle1001 (b : Bios) (regs regs' : Regs) :
    (handle1003 (handle1001 b regs) regs').ch = regs.ch ∧
      (handle1003 (handle1001 b regs) regs').cl = regs.cl := by
  have hh := regs.ch.toNat_lt
  have hl := regs.cl.toNat_lt
  refine ⟨UInt8.toNat_inj.mp ?_, UInt8.toNat_inj.mp ?_⟩
  · simp only [handle1003, handle1001, UInt16.toNat_toUInt8, UInt16.toNat_shiftRight, toNat_word,
      UInt16.reduceToNat, Nat.reduceMod, Nat.shiftRight_eq_div_pow]
    omega
  · simp only [handle1003, handle1001, UInt16.toNat_toUInt8, toNat_word]
    omega

/-! ## When the emulator meets it -/

/-- The cases in which the emulator writes `n` cells as described, when it types
with attribute `attr`: the character does nothing and the cells are as wanted
already, a line feed scrolls a blank screen, or the last line of a blank screen is
filled with blanks. -/
inductive WritesAnyway (p : Page) (ch : UInt8) (n : Nat) (attr : UInt8) (wanted : Cell → Cell) :
    Prop where
  | nothing (hch : ch = 0x08 ∨ ch = 0x0d) (hcol : p.col = 0)
      (hcells : ∀ q, InBuf q → NextCells p n q → p.buf q = wanted (p.buf q))
  | blank (hch : ch = 0x0a) (hn : n = 0) (hrow : p.row = 24)
      (hcells : ∀ q, InBuf q → p.buf q = ⟨0x20, attr⟩)
  | fill (hch : ch = 0x20) (hn : n = 80) (hcursor : p.cursor = (24, 0))
      (hcells : ∀ q, InBuf q → q.1 < 24 → p.buf q = ⟨0x20, attr⟩)
      (hlast : ∀ q, InBuf q → q.1 = 24 → wanted (p.buf q) = ⟨0x20, attr⟩)

theorem WritesCells.pos_eq {p p' : Page} {n : Nat} {wanted : Cell → Cell}
    (hw : WritesCells p p' n wanted) : p'.pos = p.pos := by
  simp only [Page.pos, Page.cursor, hw.row, hw.col]

/-- The page with the attribute that is typed with. -/
def Page.withAttr (p : Page) (attr : UInt8) : Page := { p with attr := attr }

/-- From the start of the last line, a line of cells is that line. -/
theorem nextCells_lastLine {p : Page} (hrow : p.row = 24) (hcol : p.col = 0) {q : Int × Int}
    (hq : InBuf q) : NextCells p 80 q ↔ q.1 = 24 := by
  have hpos : p.pos = 80 * p.row + p.col := rfl
  unfold InBuf at hq
  rw [nextCells_iff, cellIndex]
  omega

section
variable {p : Page} (h : p.InBounds) {ch : UInt8} {n : Nat} {attr : UInt8} {wanted : Cell → Cell}
include h

theorem writes_back {k : Nat} (hch : ch = 0x08 ∨ ch = 0x0d)
    (hw : WritesCells p ((p.withAttr attr).type (List.replicate (k + 1) ch)) n wanted) :
    WritesAnyway p ch n attr wanted := by
  have hb := Page.inBounds_iff.mp h
  by_cases hcol : p.col = 0
  · refine .nothing hch hcol fun q hq hnext => ?_
    have hcell := hw.cells q hq
    rwa [type_back_margin (p := p.withAttr attr) hcol hch, if_pos hnext] at hcell
  · have hback := type_back_col (p := p.withAttr attr) (by change 0 < p.col; omega) hch k
    rw [hw.col] at hback
    exact absurd hback (lt_irrefl _)

theorem writes_passed {k : Nat} (hch : ch = 0x0a ∨ ch = 0x09) (hn : n = k + 1)
    (hwanted : ∀ cell, (wanted cell).ch = ch)
    (hw : WritesCells p ((p.withAttr attr).type (List.replicate (k + 1) ch)) n wanted) :
    False := by
  have hb := Page.inBounds_iff.mp h
  have hpassed := (passed_type (p := p.withAttr attr) h hch k).moved
  rw [hw.row, hw.col] at hpassed
  rcases hpassed with hrow | hcol | ⟨h24, hblank⟩
  · exact lt_irrefl p.row hrow
  · exact lt_irrefl p.col hcol.2
  · -- the cell under the cursor is blank, and should hold the character
    have hcell := hw.cells p.cursor h
    rw [if_pos (by rw [nextCells_iff, Page.pos]; omega)] at hcell
    have hch' := congrArg Cell.ch hcell
    have hcursor : p.cursor = (24, p.col) := Prod.ext h24 rfl
    rw [hwanted, hcursor, hblank p.col hb.2.1 hb.2.2] at hch'
    rcases hch with rfl | rfl <;> cases hch'

theorem writes_lineFeed
    (hw : WritesCells p ((p.withAttr attr).type [0x0a]) 0 wanted) :
    WritesAnyway p 0x0a 0 attr wanted := by
  have hb := Page.inBounds_iff.mp h
  have htype : (p.withAttr attr).type [0x0a] = (p.withAttr attr).newline := rfl
  rw [htype, Page.newline] at hw
  split at hw
  · next hend =>
    have hrow : p.row = 24 := hw.row.symm
    have hshift : ∀ q, InBuf q →
        (if q.1 = 24 then ⟨0x20, attr⟩ else p.buf (q.1 + 1, q.2)) = p.buf q := by
      intro q hq
      have hcell := hw.cells q hq
      rw [if_neg (by rw [nextCells_iff]; omega)] at hcell
      dsimp only at hcell
      rwa [scroll_full _ _ hq] at hcell
    refine .blank rfl rfl hrow fun q hq => ?_
    obtain ⟨hr, hc⟩ := hq
    refine eq_of_shift (f := fun r => p.buf (r, q.2)) (m := 24) (fun r hr0 hr24 => ?_) ?_ q.1 hr.1
      (by omega)
    · have hcell := hshift (r, q.2) ⟨⟨hr0, by dsimp only; omega⟩, hc⟩
      rw [if_neg (by dsimp only; omega)] at hcell
      exact hcell.symm
    · have hcell := hshift (24, q.2) ⟨⟨by simp, by simp⟩, hc⟩
      rw [if_pos rfl] at hcell
      exact hcell.symm
  · have hrow : p.row + 1 = p.row := hw.row
    omega

theorem writes_tab
    (hw : WritesCells p ((p.withAttr attr).type [0x09]) n wanted) : False := by
  have hb := Page.inBounds_iff.mp h
  have hcursor := cursor_type (p.withAttr attr) [0x09]
  have hmoved : [(0x09 : UInt8)].foldl moved (p.withAttr attr).cursor =
      if (p.col / 8 + 1) * 8 ≥ 80 then (if p.row + 1 ≥ 25 then 24 else p.row + 1, 0)
      else (p.row, (p.col / 8 + 1) * 8) := rfl
  rw [hmoved] at hcursor
  have hcol := congrArg Prod.snd hcursor
  simp only [Page.cursor, hw.col] at hcol
  split at hcol <;> dsimp only at hcol <;> omega

/-- Eighty characters in the last line: they are scrolled up by a line, and have to be
what the line above is supposed to keep. -/
theorem writesCells_lastLine (hrow : p.row = 24) (hcol : p.col = 0) (hch : Printed ch) :
    WritesCells p ((p.withAttr attr).type (List.replicate 80 ch)) 80 wanted ↔
      ∀ q, InBuf q → (if q.1 = 24 then ⟨0x20, attr⟩
        else if q.1 + 1 = 24 then ⟨ch, attr⟩ else p.buf (q.1 + 1, q.2)) =
        if q.1 = 24 then wanted (p.buf q) else p.buf q := by
  have hpos : p.pos = 80 * p.row + p.col := rfl
  obtain ⟨hcursor, hbuf⟩ := type_print_last (p := p.withAttr attr) (n := 79) h hch
    (by change p.pos + _ = _; omega)
  change ((p.withAttr attr).type (List.replicate 80 ch)).cursor = _ at hcursor
  change ∀ q, _ → ((p.withAttr attr).type (List.replicate 80 ch)).buf q = _ at hbuf
  generalize (p.withAttr attr).type (List.replicate 80 ch) = p' at hcursor hbuf ⊢
  have hcells : ∀ q, InBuf q → p'.buf q = if q.1 = 24 then ⟨0x20, attr⟩
      else if q.1 + 1 = 24 then ⟨ch, attr⟩ else p.buf (q.1 + 1, q.2) := by
    intro q hq
    refine (hbuf q hq).trans ?_
    by_cases h24 : q.1 = 24
    · rw [if_pos h24, if_pos h24]
      rfl
    · have hr := hq.1
      have hbelow : InBuf (q.1 + 1, q.2) := ⟨by dsimp only; omega, hq.2⟩
      simp only [if_neg h24, nextCells_lastLine (p := p.withAttr attr) hrow hcol hbelow]
      rfl
  constructor
  · intro hw q hq
    rw [← hcells q hq, hw.cells q hq]
    simp only [nextCells_lastLine hrow hcol hq]
  · intro hsame
    refine ⟨(congrArg Prod.fst hcursor).trans hrow.symm,
      (congrArg Prod.snd hcursor).trans hcol.symm, fun q hq => ?_⟩
    rw [hcells q hq, hsame q hq]
    simp only [nextCells_lastLine hrow hcol hq]

theorem writes_print {k : Nat} (hch : Printed ch) (hk : n = k + 1 ∨ n = 0 ∧ k = 0)
    (hfit : p.pos + n ≤ 2000) (hwanted : ∀ cell, (wanted cell).ch = ch)
    (hw : WritesCells p ((p.withAttr attr).type (List.replicate (k + 1) ch)) n wanted) :
    WritesAnyway p ch n attr wanted := by
  have hb := Page.inBounds_iff.mp h
  have hpos : p.pos = 80 * p.row + p.col := rfl
  by_cases hlast : p.pos + (k + 1 : Nat) < 2000
  · -- the cursor has moved on
    have hmoved := (type_print_fits (p := p.withAttr attr) h hch hlast).2.1
    rw [hw.pos_eq] at hmoved
    change p.pos = p.pos + _ at hmoved
    omega
  · obtain ⟨hcursor, -⟩ := type_print_last (p := p.withAttr attr) (n := k) h hch
      (by change p.pos + _ = _; omega)
    have hrow := hw.row
    have hcol := hw.col
    rw [show Page.row _ = 24 from congrArg Prod.fst hcursor] at hrow
    rw [show Page.col _ = 0 from congrArg Prod.snd hcursor] at hcol
    obtain rfl : n = 80 := by omega
    obtain rfl : k = 79 := by omega
    have hcells := (writesCells_lastLine h hrow.symm hcol.symm hch).mp hw
    have hlastLine : ∀ q, InBuf q → q.1 = 24 → wanted (p.buf q) = ⟨0x20, attr⟩ := by
      intro q hq h24
      have hcell := hcells q hq
      rw [if_pos h24, if_pos h24] at hcell
      exact hcell.symm
    have hblank : ch = 0x20 := by
      have hcell := congrArg Cell.ch (hlastLine (24, 0) (by decide) rfl)
      rwa [hwanted] at hcell
    refine .fill hblank rfl (Prod.ext hrow.symm hcol.symm) (fun q hq h24 => ?_) hlastLine
    obtain ⟨hr, hc⟩ := hq
    refine eq_of_shift (f := fun r => p.buf (r, q.2)) (m := 23) (fun r hr0 hr23 => ?_) ?_ q.1 hr.1
      (by omega)
    · have hcell := hcells (r, q.2) ⟨⟨hr0, by dsimp only; omega⟩, hc⟩
      rw [if_neg (by dsimp only; omega), if_neg (by dsimp only; omega),
        if_neg (by dsimp only; omega)] at hcell
      exact hcell.symm
    · have hcell := hcells (23, q.2) ⟨⟨by simp, by simp⟩, hc⟩
      rw [if_neg (by simp), if_pos (by simp), if_neg (by simp), hblank] at hcell
      exact hcell.symm

theorem writes_of_anyway (hfit : p.pos + n ≤ 2000) (hany : WritesAnyway p ch n attr wanted) :
    WritesCells p
      ((p.withAttr attr).type (List.replicate (if n ≠ 0 then n else 1) ch)) n wanted := by
  cases hany with
  | nothing hch hcol hcells =>
    rw [type_back_margin (p := p.withAttr attr) hcol hch]
    refine ⟨rfl, rfl, fun q hq => ?_⟩
    split
    · next hnext => exact hcells q hq hnext
    · rfl
  | blank hch hn hrow hcells =>
    subst hch hn
    have htype : (p.withAttr attr).type (List.replicate 1 0x0a) = (p.withAttr attr).newline := rfl
    have hend : (p.withAttr attr).row + 1 ≥ 25 := by
      change p.row + 1 ≥ 25
      omega
    rw [if_neg (not_not_intro rfl), htype, Page.newline, if_pos hend]
    refine ⟨hrow.symm, rfl, fun q hq => ?_⟩
    rw [if_neg (by rw [nextCells_iff]; omega)]
    refine (scroll_full attr p.buf hq).trans ?_
    unfold InBuf at hq
    split
    · exact (hcells q hq).symm
    · have hbelow : InBuf (q.1 + 1, q.2) := ⟨⟨by dsimp only; omega, by dsimp only; omega⟩, hq.2⟩
      rw [hcells q hq, hcells _ hbelow]
  | fill hch hn hcursor hcells hlast =>
    subst hch hn
    have hrow : p.row = 24 := congrArg Prod.fst hcursor
    have hcol : p.col = 0 := congrArg Prod.snd hcursor
    rw [if_pos (by decide), writesCells_lastLine h hrow hcol (by decide)]
    intro q hq
    by_cases h24 : q.1 = 24
    · rw [if_pos h24, if_pos h24, hlast q hq h24]
    · have hr := hq.1
      have hbelow : InBuf (q.1 + 1, q.2) := ⟨by dsimp only; omega, hq.2⟩
      rw [if_neg h24, if_neg h24, hcells q hq (by omega)]
      split
      · rfl
      · exact hcells _ hbelow (by dsimp only; omega)

/-- **When one character is written as described.** -/
theorem writesCells_iff (hfit : p.pos + n ≤ 2000) (hwanted : ∀ cell, (wanted cell).ch = ch) :
    WritesCells p
      ((p.withAttr attr).type (List.replicate (if n ≠ 0 then n else 1) ch)) n wanted ↔
    WritesAnyway p ch n attr wanted := by
  refine ⟨fun hw => ?_, writes_of_anyway h hfit⟩
  obtain ⟨k, hcount, hk⟩ : ∃ k, (if n ≠ 0 then n else 1) = k + 1 ∧ (n = k + 1 ∨ n = 0 ∧ k = 0) := by
    by_cases hn : n = 0
    · exact ⟨0, by rw [if_neg (not_not_intro hn)], .inr ⟨hn, rfl⟩⟩
    · exact ⟨n - 1, by rw [if_pos hn]; omega, .inl (by omega)⟩
  rw [hcount] at hw
  by_cases hback : ch = 0x08 ∨ ch = 0x0d
  · exact writes_back h hback hw
  by_cases hpass : ch = 0x0a ∨ ch = 0x09
  · rcases hk with hn | ⟨rfl, rfl⟩
    · exact (writes_passed h hpass hn hwanted hw).elim
    · rcases hpass with rfl | rfl
      · exact writes_lineFeed h hw
      · exact (writes_tab h hw).elim
  · apply writes_print h ?_ hk hfit hwanted hw
    exact ⟨fun e => hback (.inr e), fun e => hpass (.inl e), fun e => hback (.inl e),
      fun e => hpass (.inr e)⟩

end

/-- What the handlers of `vgabios.c` do in text mode, on the first page. -/
structure HandlersMeet (b : Bios) (far : Far) (regs : Regs) : Prop where
  writeCharAttr : b.page.pos + regs.cx ≤ 2000 →
    WritesCells b.page (handle1009 b regs).page regs.cx fun _ => ⟨regs.al, regs.bl⟩
  writeChar : b.page.pos + regs.cx ≤ 2000 →
    WritesCells b.page (handle100a b regs).page regs.cx fun cell => ⟨regs.al, cell.attr⟩
  writeString : regs.al &&& 1 = 0 → (handle1013 far b regs).page.cursor = b.page.cursor
  cursorShape : ∀ regs', (handle1003 (handle1001 b regs) regs').ch = regs.ch ∧
    (handle1003 (handle1001 b regs) regs').cl = regs.cl

theorem handlersMeet {b : Bios} (h : b.TextMode) (far : Far) {regs : Regs} (hbh : regs.bh = 0) :
    HandlersMeet b far regs where
  writeCharAttr hfit := by
    rw [handle1009, hbh]
    exact writesCells_writeChars h hfit ⟨regs.al, regs.bl, true⟩
  writeChar hfit := by
    rw [handle100a, hbh]
    exact writesCells_writeChars h hfit ⟨regs.al, regs.bl, false⟩
  writeString := cursor_handle1013 far b
  cursorShape := handle1003_handle1001 b regs

section
variable (font : Font) {t : Text} (h : t.InBounds) (hactive : t.active = true)
include h hactive

theorem writeCharAttr_iff (far : Far) {regs : Regs} (hah : regs.ah = 0x09)
    (hfit : t.pos + regs.cx ≤ 2000) :
    ∃ regs' v, tmHandleInt10 font far regs t = some (true, regs', v) ∧
      (WritesCells t.toPage v.toPage regs.cx (fun _ => ⟨regs.al, regs.bl⟩) ↔
        WritesAnyway t.toPage regs.al regs.cx (attrOf regs t.toPage)
          fun _ => ⟨regs.al, regs.bl⟩) := by
  have htyping : typing far regs t =
      some ({ t with attr := attrOf regs t.toPage }, repeated regs) := by
    rw [typing, hactive, hah]
    rfl
  refine ⟨_, _, tmHandleInt10_typing font h htyping, ?_⟩
  rw [toPage_type]
  exact writesCells_iff h hfit fun _ => rfl

theorem writeChar_iff (far : Far) {regs : Regs} (hah : regs.ah = 0x0a)
    (hfit : t.pos + regs.cx ≤ 2000) :
    ∃ regs' v, tmHandleInt10 font far regs t = some (true, regs', v) ∧
      (WritesCells t.toPage v.toPage regs.cx (fun cell => ⟨regs.al, cell.attr⟩) ↔
        WritesAnyway t.toPage regs.al regs.cx t.attr fun cell => ⟨regs.al, cell.attr⟩) := by
  have htyping : typing far regs t = some (t, repeated regs) := by
    rw [typing, hactive, hah]
    rfl
  refine ⟨_, _, tmHandleInt10_typing font h htyping, ?_⟩
  rw [toPage_type]
  exact writesCells_iff (p := t.toPage) h hfit fun _ => rfl

/-- The cursor ends where the characters of the string move it. -/
theorem writeString_cursor (far : Far) {regs : Regs} (hah : regs.ah = 0x13) :
    ∃ regs' v, tmHandleInt10 font far regs t = some (true, regs', v) ∧
      v.cursor = (string far regs).foldl moved (rowOf regs.dh, colOf regs.dl) := by
  have htyping : typing far regs t = some (stringStart regs t, string far regs) := by
    rw [typing, hactive, hah]
    rfl
  refine ⟨_, _, tmHandleInt10_typing font h htyping, ?_⟩
  rw [toPage_type, cursor_type]
  rfl

omit h in
/-- The two halves of the shape come back exchanged. -/
theorem cursorShape_swapped (far far' : Far) {regs regs' : Regs} (hah : regs.ah = 0x01)
    (hah' : regs'.ah = 0x03) :
    ∃ regs₁ v regs₂, tmHandleInt10 font far regs t = some (true, regs₁, v) ∧
      tmHandleInt10 font far' regs' v = some (true, regs₂, v) ∧
      regs₂.ch = regs.cl &&& 0x1f ∧ regs₂.cl = regs.ch &&& 0x1f := by
  have hon : ¬ t.active = false := by rw [hactive]; decide
  refine ⟨{ regs with ah := 0x00 },
    { t with cursorStart := regs.ch &&& 0x1f, cursorEnd := regs.cl &&& 0x1f },
    { regs' with
      bh := 0, dh := UInt8.ofInt t.row, dl := UInt8.ofInt t.col, ch := regs.cl &&& 0x1f
      cl := regs.ch &&& 0x1f, ah := 0x00 }, ?_, ?_, ?_⟩
  · unfold tmHandleInt10
    rw [if_neg fun h => hon h.1, if_neg hon, hah]
    rfl
  · unfold tmHandleInt10
    rw [if_neg fun h => hon h.1, if_neg hon, hah']
    rfl
  · exact ⟨rfl, rfl⟩

end

/-- **Where the emulator does what the handlers do.** In every state reached, AH = 09h
and AH = 0Ah write the cells from the cursor on and leave the cursor exactly in the
cases of `WritesAnyway`; AH = 13h without bit 0 of AL leaves the cursor exactly if the
characters of the string move it from the given place to where it was; AH = 03h
returns the shape set by AH = 01h exactly if its two halves are equal. The handlers
of `vgabios.c` do so always. -/
theorem services_meet_iff (font : Font) (t : Text) (calls : List Call) :
    (∃ t₀ u, tmEnable font t = some t₀ ∧ int10s font t₀ calls = some u ∧
      (∀ far regs, regs.ah = 0x09 → u.pos + regs.cx ≤ 2000 →
        ∃ regs' v, tmHandleInt10 font far regs u = some (true, regs', v) ∧
          (WritesCells u.toPage v.toPage regs.cx (fun _ => ⟨regs.al, regs.bl⟩) ↔
            WritesAnyway u.toPage regs.al regs.cx (attrOf regs u.toPage)
              fun _ => ⟨regs.al, regs.bl⟩)) ∧
      (∀ far regs, regs.ah = 0x0a → u.pos + regs.cx ≤ 2000 →
        ∃ regs' v, tmHandleInt10 font far regs u = some (true, regs', v) ∧
          (WritesCells u.toPage v.toPage regs.cx (fun cell => ⟨regs.al, cell.attr⟩) ↔
            WritesAnyway u.toPage regs.al regs.cx u.attr fun cell => ⟨regs.al, cell.attr⟩)) ∧
      (∀ far regs, regs.ah = 0x13 → regs.al &&& 1 = 0 →
        ∃ regs' v, tmHandleInt10 font far regs u = some (true, regs', v) ∧
          (v.cursor = u.cursor ↔
            (string far regs).foldl moved (rowOf regs.dh, colOf regs.dl) = u.cursor)) ∧
      ∀ far far' regs regs', regs.ah = 0x01 → regs'.ah = 0x03 →
        ∃ regs₁ v regs₂, tmHandleInt10 font far regs u = some (true, regs₁, v) ∧
          tmHandleInt10 font far' regs' v = some (true, regs₂, v) ∧
          (regs₂.ch = regs.ch &&& 0x1f ∧ regs₂.cl = regs.cl &&& 0x1f ↔
            regs.ch &&& 0x1f = regs.cl &&& 0x1f)) ∧
    ∀ b : Bios, b.TextMode → ∀ far regs, regs.bh = 0 → HandlersMeet b far regs := by
  refine ⟨?_, fun b hb far regs hbh => handlersMeet hb far hbh⟩
  obtain ⟨u, hrun, hu, hactive⟩ := int10s_inBounds font (enabled_inBounds font t) rfl calls
  refine ⟨t.enabled font, u, tmEnable_eq font t, hrun, ?_, ?_, ?_, ?_⟩
  · exact fun far regs hah hfit => writeCharAttr_iff font hu hactive far hah hfit
  · exact fun far regs hah hfit => writeChar_iff font hu hactive far hah hfit
  · intro far regs hah _
    obtain ⟨regs', v, hcall, hcursor⟩ := writeString_cursor font hu hactive far hah
    exact ⟨regs', v, hcall, by rw [hcursor]⟩
  · intro far far' regs regs' hah hah'
    obtain ⟨regs₁, v, regs₂, hset, hget, hch, hcl⟩ :=
      cursorShape_swapped font hactive far far' hah hah'
    refine ⟨regs₁, v, regs₂, hset, hget, ?_⟩
    rw [hch, hcl]
    exact ⟨fun h => h.1.symm, fun h => ⟨h.symm, h⟩⟩

/-- Registers for a call, the others zero. -/
def sampleRegs (ah al bl : UInt8) (ch cl : UInt8) : Regs :=
  ⟨al, ah, bl, 0, cl, ch, 0, 0, 0, 0⟩

/-- On the screen as it is enabled: writing one A with AH = 09h moves the cursor on,
so does a string of one A with AH = 13h that is to leave it, and the shape 0607h is
returned as 0706h. -/
theorem services_meet_letter :
    ∃ u, tmEnable (fun _ _ => 0) blankText = some u ∧ u.cursor = (0, 0) ∧
      (∃ regs' v, tmHandleInt10 (fun _ _ => 0) (fun _ _ => 0x41) (sampleRegs 0x09 0x41 0x07 0 1) u =
        some (true, regs', v) ∧ v.cursor = (0, 1)) ∧
      (∃ regs' v, tmHandleInt10 (fun _ _ => 0) (fun _ _ => 0x41) (sampleRegs 0x13 0 0x07 0 1) u =
        some (true, regs', v) ∧ v.cursor = (0, 1)) ∧
      ∃ regs₁ v regs₂, tmHandleInt10 (fun _ _ => 0) (fun _ _ => 0) (sampleRegs 0x01 0 0 6 7) u =
          some (true, regs₁, v) ∧
        tmHandleInt10 (fun _ _ => 0) (fun _ _ => 0) (sampleRegs 0x03 0 0 0 0) v =
          some (true, regs₂, v) ∧ regs₂.ch = 7 ∧ regs₂.cl = 6 := by
  have hu := enabled_inBounds (fun _ _ => 0) blankText
  refine ⟨_, tmEnable_eq _ _, rfl, ?_, ?_, ?_⟩
  · have htyping : typing (fun _ _ => 0x41) (sampleRegs 0x09 0x41 0x07 0 1)
        (blankText.enabled fun _ _ => 0) = some (_, _) := rfl
    refine ⟨_, _, tmHandleInt10_typing _ hu htyping, ?_⟩
    rw [toPage_type, cursor_type]
    rfl
  · have hah : (sampleRegs 0x13 0 0x07 0 1).ah = 0x13 := rfl
    obtain ⟨regs', v, hcall, hcursor⟩ :=
      writeString_cursor (fun _ _ => 0) hu rfl (fun _ _ => 0x41) hah
    exact ⟨regs', v, hcall, hcursor⟩
  · exact cursorShape_swapped _ rfl _ _ rfl rfl

end CsmWrap.Vga
