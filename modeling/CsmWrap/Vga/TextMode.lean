import CsmWrap.Sweep
import CsmWrap.Vga.Emulator

/-!
# The text mode emulator

`16colorsmode.c`: an 80 by 25 text screen drawn into the framebuffer, driven by
INT 10h. The model says of every access to `tm_buf` that is made at the cursor or
to draw a cell whether it is in bounds, and bounds the recursion of `tm_putch`;
neither check fails while the cursor is on the screen. AH = 06h can store in front of
`tm_buf`: here that memory is rows with numbers below zero, apart from all variables,
and `TextLayout` puts the variables there.

`font_8x16` is only declared in the source, so everything here holds for any font.
-/

namespace CsmWrap.Vga
open Memory Sweep

/-- `tm_cell_t`. -/
structure Cell where
  ch : UInt8
  attr : UInt8
  deriving DecidableEq, Repr

/-- The rows of a glyph. -/
abbrev Font := UInt8 → Int → UInt8

/-- The framebuffer as `tm_init` finds it, with the masks of `cbvga.c`. -/
structure Screen where
  fbPtr : UInt32
  fbW : UInt32
  fbH : UInt32
  fbPitch : UInt32
  fbBpp : Nat
  originX : Int
  originY : Int
  rgbCache : Vector UInt32 16
  masks : Masks

/-- The text and the cursor. Rows and columns outside `tm_buf` stand for the memory
around it; what variables are in this memory is said by a `Layout`. -/
structure Page where
  buf : Int × Int → Cell
  row : Int
  col : Int
  attr : UInt8

structure Text extends Page where
  cursorStart : UInt8
  cursorEnd : UInt8
  active : Bool
  screen : Screen
  /-- The memory that holds the framebuffer. -/
  fb : Mem

/-- The variables as they are loaded. -/
def blankText : Text where
  buf _ := ⟨0, 0⟩
  row := 0
  col := 0
  attr := 0x07
  cursorStart := 0x0d
  cursorEnd := 0x0f
  active := false
  screen := ⟨0, 0, 0, 0, 32, 0, 0, Vector.replicate 16 0, ⟨0, 0, 0, 0, 0, 0⟩⟩
  fb _ := 0

def InBuf (p : Int × Int) : Prop := (0 ≤ p.1 ∧ p.1 < 25) ∧ 0 ≤ p.2 ∧ p.2 < 80

instance (p : Int × Int) : Decidable (InBuf p) := inferInstanceAs (Decidable (_ ∧ _))

/-- `tm_buf[r][c]`, read. -/
def Text.cell? (t : Text) (p : Int × Int) : Option Cell :=
  if InBuf p then some (t.buf p) else none

/-- `tm_buf[r][c]`, stored to. -/
def Text.store? (t : Text) (p : Int × Int) (cell : Cell) : Option Text :=
  if InBuf p then some { t with buf := Function.update t.buf p cell } else none

/-- Shifts of an `int` take the count modulo 32. -/
def packRgb16 (r g b : UInt8) (m : Masks) : UInt16 :=
  let channel (v size : UInt8) : UInt32 :=
    (v.toUInt32 >>> (8 - size.toUInt32) &&& (1 <<< size.toUInt32) - 1) &&& 0xffff
  (channel r m.redSize <<< m.redPos.toUInt32 ||| channel g m.greenSize <<< m.greenPos.toUInt32 |||
    channel b m.blueSize <<< m.bluePos.toUInt32).toUInt16

def putpx (s : Screen) (x y : Int) (argb : UInt32) (fb : Mem) : Mem :=
  if UInt32.ofInt x ≥ s.fbW ∨ UInt32.ofInt y ≥ s.fbH then fb
  else
    let row := s.fbPtr + UInt32.ofInt y * s.fbPitch
    if s.fbBpp = 32 then store fb (row + UInt32.ofInt x * 4).toNat (leBytes 4 argb.toNat)
    else if s.fbBpp = 24 then
      store fb (row + UInt32.ofInt x * 3).toNat
        [argb.toUInt8, (argb >>> 8).toUInt8, (argb >>> 16).toUInt8]
    else if s.fbBpp = 16 then
      let pixel := packRgb16 (argb >>> 16).toUInt8 (argb >>> 8).toUInt8 argb.toUInt8 s.masks
      store fb (row + UInt32.ofInt x * 2).toNat (leBytes 2 pixel.toNat)
    else fb

/-- A call of `putpx`. -/
structure Pixel where
  x : Int
  y : Int
  argb : UInt32

/-- Calls of `putpx` in order. Kept folded: a whole screen is many. -/
@[irreducible] def paint (s : Screen) (pixels : List Pixel) (fb : Mem) : Mem :=
  pixels.foldl (fun fb p => putpx s p.x p.y p.argb fb) fb

/-- `rgb_cache[i]`. -/
def Screen.rgb (s : Screen) (i : UInt8) : UInt32 := s.rgbCache[i.toNat]?.getD 0

/-- The colour of a pixel of a cell: the glyph in the colours of the attribute. -/
def glyphColour (font : Font) (s : Screen) (cell : Cell) (gx gy : Int) : UInt32 :=
  if font cell.ch gy &&& (0x80 >>> UInt8.ofInt gx) ≠ 0 then s.rgb (cell.attr &&& 0x0f)
  else s.rgb (cell.attr >>> 4 &&& 0x07)

/-- The pixels of the cell at row `r` and column `c`, in the order of the loops. -/
def cellPixels (font : Font) (s : Screen) (cell : Cell) (r c : Int) : List Pixel :=
  (grid 0 15 0 7).map fun (gy, gx) =>
    ⟨s.originX + c * 8 + gx, s.originY + r * 16 + gy, glyphColour font s cell gx gy⟩

def renderCell (font : Font) (t : Text) (r c : Int) : Option Text :=
  (t.cell? (r, c)).map fun cell =>
    { t with fb := paint t.screen (cellPixels font t.screen cell r c) t.fb }

def Text.cursorColour (t : Text) : UInt32 := t.screen.rgb (t.attr &&& 0x0f)

/-- The pixels that `render_cursor` draws. -/
def cursorPixels (t : Text) : List Pixel :=
  let s := t.screen
  let x0 := s.originX + t.col * 8
  let y0 := s.originY + t.row * 16 + t.cursorStart.toNat
  let y1 := s.originY + t.row * 16 + t.cursorEnd.toNat
  let y0 := if y0 < s.originY then s.originY else y0
  let y1 := if y1 ≥ s.originY + 16 then s.originY + 16 - 1 else y1
  (grid y0 y1 x0 (x0 + 8 - 1)).map fun (y, x) => ⟨x, y, t.cursorColour⟩

def renderCursor (t : Text) : Text := { t with fb := paint t.screen (cursorPixels t) t.fb }

def markAllDirty (font : Font) (t : Text) : Option Text :=
  ((grid 0 24 0 79).foldlM (fun t p => renderCell font t p.1 p.2) t).map renderCursor

def tmClear (fillAttr : UInt8) (buf : Int × Int → Cell) : Int × Int → Cell :=
  (grid 0 24 0 79).foldl (fun buf p => Function.update buf p ⟨0x20, fillAttr⟩) buf

/-- A window of rows `r0` to `r1` and columns `c0` to `c1`. -/
structure Window where
  r0 : Int
  c0 : Int
  r1 : Int
  c1 : Int
  deriving DecidableEq, Repr

def Window.clamp (w : Window) : Window where
  r0 := if w.r0 < 0 then 0 else w.r0
  c0 := if w.c0 < 0 then 0 else w.c0
  r1 := if w.r1 ≥ 25 then 25 - 1 else w.r1
  c1 := if w.c1 ≥ 80 then 80 - 1 else w.c1

def Window.moved (w : Window) (lines : Int) : List (Int × Int) :=
  grid w.r0 (w.r1 - lines) w.c0 w.c1

def Window.blanked (w : Window) (lines : Int) : List (Int × Int) :=
  grid (w.r1 - lines + 1) w.r1 w.c0 w.c1

def tmScrollUp (lines : Int) (w : Window) (attr : UInt8) (buf : Int × Int → Cell) :
    Int × Int → Cell :=
  if lines ≤ 0 then buf
  else
    let buf := (w.clamp.moved lines).foldl
      (fun buf p => Function.update buf p (buf (p.1 + lines, p.2))) buf
    (w.clamp.blanked lines).foldl (fun buf p => Function.update buf p ⟨0x20, attr⟩) buf

/-- The cells of `tm_buf` that `tm_scroll_up` reads or stores to. -/
def scrollAccesses (lines : Int) (w : Window) : List (Int × Int) :=
  if lines ≤ 0 then []
  else (w.clamp.moved lines).flatMap (fun p => [p, (p.1 + lines, p.2)]) ++ w.clamp.blanked lines

/-- The whole screen. -/
def fullWindow : Window := ⟨0, 0, 25 - 1, 80 - 1⟩

/-- `depth` is how often `tm_putch` may still call itself. -/
def tmPutch (font : Font) (depth : Nat) (t : Text) (ch : UInt8) : Option Text :=
  if ch = 0x0d then some { t with col := 0 }
  else if ch = 0x0a then
    let t := { t with row := t.row + 1 }
    if t.row ≥ 25 then
      markAllDirty font
        { t with row := 25 - 1, buf := tmScrollUp 1 fullWindow t.attr t.buf }
    else some t
  else if ch = 0x08 then
    if t.col > 0 then some { t with col := t.col - 1 } else some t
  else if ch = 0x09 then
    let next := (t.col / 8 + 1) * 8
    if next ≥ 80 then
      match depth with
      | 0 => none
      | depth + 1 => tmPutch font depth { t with col := 0 } 0x0a
    else some { t with col := next }
  else do
    let t ← t.store? (t.row, t.col) ⟨ch, t.attr⟩
    let t ← renderCell font t t.row t.col
    let t := { t with col := t.col + 1 }
    if t.col ≥ 80 then
      match depth with
      | 0 => none
      | depth + 1 => tmPutch font depth { t with col := 0 } 0x0a
    else some t

/-- `tm_putch` for each character, with one call to itself at most. -/
def putchs (font : Font) (t : Text) (chars : List UInt8) : Option Text :=
  chars.foldlM (tmPutch font 1) t

/-- `cbvga_get_fb`. -/
structure FbInfo where
  base : UInt32
  width : UInt32
  height : UInt32
  pitch : UInt32

def cbvgaGetFb (st : State) : Option FbInfo :=
  if st.vbeFramebuffer = 0 ∨ st.cbModeinfo.width = 0 ∨ st.cbModeinfo.height = 0 then none
  else some ⟨st.vbeFramebuffer, st.cbModeinfo.width.toUInt32, st.cbModeinfo.height.toUInt32,
    st.cbLinelength⟩

/-- Bits per pixel, derived from pitch and width. -/
def deriveBpp (pitch width : UInt32) : Nat :=
  let bytesPerPx := pitch / width
  if bytesPerPx = 4 then 32
  else if bytesPerPx = 3 then 24
  else if bytesPerPx = 2 then 16
  else 32

/-- `(int)(size - text) / 2`. -/
def centred (size text : UInt32) : Int := (asInt (size - text)).tdiv 2

/-- The emulator of the palette and the text. -/
def tmInit (st : State) (e : Emul) (t : Text) : Emul × Text :=
  match cbvgaGetFb st with
  | none => (e, { t with active := false })
  | some info =>
    let e := cbvgaPaletteSetEntries e none 16
    (e, { t with
      active := false
      screen :=
        { fbPtr := info.base
          fbW := info.width
          fbH := info.height
          fbPitch := info.pitch
          fbBpp := deriveBpp info.pitch info.width
          originX := centred info.width (80 * 8)
          originY := centred info.height (25 * 16)
          -- `tm_refresh_palette_cache`
          rgbCache := Vector.ofFn fun i => e.argb[i.val]
          masks := st.masks } })

def tmEnable (font : Font) (t : Text) : Option Text :=
  markAllDirty font
    { t with
      active := true, row := 0, col := 0, attr := 0x07, cursorStart := 0x0d, cursorEnd := 0x0f
      buf := tmClear 0x07 t.buf }

/-! ## INT 10h -/

/-- The registers of `struct bregs` that the handlers use. -/
structure Regs where
  al : UInt8
  ah : UInt8
  bl : UInt8
  bh : UInt8
  cl : UInt8
  ch : UInt8
  dl : UInt8
  dh : UInt8
  bp : UInt16
  es : UInt16
  deriving DecidableEq, Repr

def Regs.cx (regs : Regs) : Nat := regs.ch.toNat * 256 + regs.cl.toNat

/-- What the guest's memory holds at a segment and an offset. -/
abbrev Far := UInt16 → UInt16 → UInt8

/-- The cases of `tm_handle_int10`. -/
inductive Service where
  | setVideoMode
  | setCursorShape
  | setCursorPosition
  | getCursor
  | selectPage
  | scrollUp
  | readChar
  | writeCharAttr
  | writeChar
  | teletype
  | getVideoMode
  | writeString
  deriving DecidableEq, Repr

def service (ah : UInt8) : Option Service :=
  if ah = 0x00 then some .setVideoMode
  else if ah = 0x01 then some .setCursorShape
  else if ah = 0x02 then some .setCursorPosition
  else if ah = 0x03 then some .getCursor
  else if ah = 0x05 then some .selectPage
  else if ah = 0x06 then some .scrollUp
  else if ah = 0x08 then some .readChar
  else if ah = 0x09 then some .writeCharAttr
  else if ah = 0x0a then some .writeChar
  else if ah = 0x0e then some .teletype
  else if ah = 0x0f then some .getVideoMode
  else if ah = 0x13 then some .writeString
  else none

/-- A row and a column, no further than the last ones. -/
def rowOf (dh : UInt8) : Int := if (dh.toNat : Int) < 25 then dh.toNat else 25 - 1

def colOf (dl : UInt8) : Int := if (dl.toNat : Int) < 80 then dl.toNat else 80 - 1

/-- The attribute of AH = 09h and AH = 13h. -/
def attrOf (regs : Regs) (t : Page) : UInt8 := if regs.bl ≠ 0 then regs.bl else t.attr

/-- The lines and the window of AH = 06h. -/
def scrollLines (regs : Regs) : Int := if regs.al ≠ 0 then regs.al.toNat else 25

def scrollWindow (regs : Regs) : Window :=
  ⟨regs.ch.toNat, regs.cl.toNat, regs.dh.toNat, regs.dl.toNat⟩

/-- The character of AH = 09h and AH = 0Ah, as often as it is written. -/
def repeated (regs : Regs) : List UInt8 :=
  List.replicate (if regs.cx ≠ 0 then regs.cx else 1) regs.al

/-- The characters of AH = 13h; the offset wraps at 16 bits. -/
def string (far : Far) (regs : Regs) : List UInt8 :=
  (List.range regs.cx).map fun i => far regs.es (regs.bp + UInt16.ofNat i)

/-- Where the loop of AH = 13h starts. -/
def stringStart (regs : Regs) (t : Text) : Text :=
  { t with row := rowOf regs.dh, col := colOf regs.dl, attr := attrOf regs t.toPage }

/-- Whether the call was handled, the registers and the state. -/
def tmHandleInt10 (font : Font) (far : Far) (regs : Regs) (t : Text) :
    Option (Bool × Regs × Text) :=
  let done (t : Text) : Bool × Regs × Text := (true, { regs with ah := 0x00 }, t)
  if t.active = false ∧ regs.ah = 0x00 ∧ regs.al = 0x03 then (tmEnable font t).map done
  else if t.active = false then some (false, regs, t)
  else match service regs.ah with
    | some .setVideoMode =>
      if regs.al = 0x03 then (tmEnable font t).map done else some (false, regs, t)
    | some .setCursorShape => some (done
        { t with cursorStart := regs.ch &&& 0x1f, cursorEnd := regs.cl &&& 0x1f })
    | some .setCursorPosition => some (done { t with row := rowOf regs.dh, col := colOf regs.dl })
    | some .getCursor => some (true,
        { regs with
          bh := 0, dh := UInt8.ofInt t.row, dl := UInt8.ofInt t.col, ch := t.cursorEnd
          cl := t.cursorStart, ah := 0x00 }, t)
    | some .selectPage => some (done t)
    | some .scrollUp =>
      (markAllDirty font
        { t with buf := tmScrollUp (scrollLines regs) (scrollWindow regs) regs.bh t.buf }).map done
    | some .readChar => (t.cell? (t.row, t.col)).map fun cell =>
        (true, { regs with al := cell.ch, ah := cell.attr }, t)
    | some .writeCharAttr =>
      (putchs font { t with attr := attrOf regs t.toPage } (repeated regs)).map done
    | some .writeChar => (putchs font t (repeated regs)).map done
    | some .teletype => (putchs font t [regs.al]).map done
    | some .getVideoMode => some (true, { regs with al := 0x03, ah := 80, bh := 0 }, t)
    -- without bit 0 of AL, the source leaves the cursor at the end as well
    | some .writeString => (putchs font (stringStart regs t) (string far regs)).map done
    | none => some (false, regs, t)

/-- A call of INT 10h with what the guest's memory holds at the time. -/
structure Call where
  regs : Regs
  far : Far

def int10s (font : Font) (t : Text) (calls : List Call) : Option Text :=
  calls.foldlM (fun t call => (tmHandleInt10 font call.far call.regs t).map fun r => r.2.2) t

/-! ## What drawing does -/

/-- The pixels of the whole screen, and then those of the cursor. -/
def screenPixels (font : Font) (t : Text) : List Pixel :=
  (grid 0 24 0 79).flatMap (fun p => cellPixels font t.screen (t.buf p) p.1 p.2) ++ cursorPixels t

def redraw (font : Font) (t : Text) : Text :=
  { t with fb := paint t.screen (screenPixels font t) t.fb }

theorem paint_append (s : Screen) (l l' : List Pixel) (fb : Mem) :
    paint s (l ++ l') fb = paint s l' (paint s l fb) := by
  unfold paint
  exact List.foldl_append

theorem paint_nil (s : Screen) (fb : Mem) : paint s [] fb = fb := by
  unfold paint
  rfl

theorem cell?_of_inBuf {t : Text} {p : Int × Int} (h : InBuf p) : t.cell? p = some (t.buf p) :=
  if_pos h

theorem renderCell_of_inBuf (font : Font) {t : Text} {r c : Int} (h : InBuf (r, c)) :
    renderCell font t r c = some
      { t with fb := paint t.screen (cellPixels font t.screen (t.buf (r, c)) r c) t.fb } := by
  rw [renderCell, cell?_of_inBuf h]
  rfl

theorem renderCells_eq (font : Font) (t : Text) {ps : List (Int × Int)} (h : ∀ p ∈ ps, InBuf p) :
    ps.foldlM (fun t p => renderCell font t p.1 p.2) t = some
      { t with
        fb := paint t.screen
          (ps.flatMap fun p => cellPixels font t.screen (t.buf p) p.1 p.2) t.fb } := by
  induction ps generalizing t with
  | nil =>
    rw [List.flatMap_nil, paint_nil]
    rfl
  | cons p ps ih =>
    rw [List.foldlM_cons, renderCell_of_inBuf font (h p List.mem_cons_self)]
    rw [Option.bind_eq_bind, Option.bind_some, ih _ fun q hq => h q (List.mem_cons_of_mem p hq),
      List.flatMap_cons, paint_append]

/-- Drawing everything stays within `tm_buf`. -/
theorem markAllDirty_eq (font : Font) (t : Text) : markAllDirty font t = some (redraw font t) := by
  have hin : ∀ p ∈ grid 0 24 0 79, InBuf p := by
    intro p hp
    rw [mem_grid] at hp
    unfold InBuf
    omega
  rw [markAllDirty, renderCells_eq font t hin, Option.map_some, renderCursor, redraw, screenPixels,
    paint_append]
  simp only [cursorPixels, Text.cursorColour]

/-- AH = 06h scrolls its window and draws everything. -/
theorem tmHandleInt10_scroll (font : Font) (far : Far) {regs : Regs} {t : Text}
    (hs : service regs.ah = some .scrollUp) (hactive : t.active = true) :
    tmHandleInt10 font far regs t = some (true, { regs with ah := 0x00 }, redraw font
      { t with buf := tmScrollUp (scrollLines regs) (scrollWindow regs) regs.bh t.buf }) := by
  have hon : ¬ t.active = false := by rw [hactive]; decide
  unfold tmHandleInt10
  rw [if_neg fun h => hon h.1, if_neg hon, hs]
  dsimp only
  rw [markAllDirty_eq]
  rfl

def Page.InBounds (t : Page) : Prop := InBuf (t.row, t.col)

theorem Page.inBounds_iff {t : Page} :
    t.InBounds ↔ (0 ≤ t.row ∧ t.row < 25) ∧ 0 ≤ t.col ∧ t.col < 80 := Iff.rfl

/-- `tm_putch('\n')`. -/
def Text.newline (font : Font) (t : Text) : Text :=
  if t.row + 1 ≥ 25 then
    redraw font { t with row := 24, buf := tmScrollUp 1 fullWindow t.attr t.buf }
  else { t with row := t.row + 1 }

/-- On to column `next`, or to the start of the next line. -/
def Text.advance (font : Font) (t : Text) (next : Int) : Text :=
  if next ≥ 80 then Text.newline font { t with col := 0 } else { t with col := next }

/-- A character at the cursor, drawn. -/
def Text.print (font : Font) (t : Text) (ch : UInt8) : Text :=
  { t with
    buf := Function.update t.buf (t.row, t.col) ⟨ch, t.attr⟩
    fb := paint t.screen (cellPixels font t.screen ⟨ch, t.attr⟩ t.row t.col) t.fb }

/-- The characters that `tm_putch` writes to the screen. -/
def Printed (ch : UInt8) : Prop := ch ≠ 0x0d ∧ ch ≠ 0x0a ∧ ch ≠ 0x08 ∧ ch ≠ 0x09

instance (ch : UInt8) : Decidable (Printed ch) := inferInstanceAs (Decidable (_ ∧ _))

def Text.putch (font : Font) (t : Text) (ch : UInt8) : Text :=
  if ch = 0x0d then { t with col := 0 }
  else if ch = 0x0a then t.newline font
  else if ch = 0x08 then { t with col := if t.col > 0 then t.col - 1 else t.col }
  else if ch = 0x09 then t.advance font ((t.col / 8 + 1) * 8)
  else (t.print font ch).advance font (t.col + 1)

/-- The cases of `tm_putch`. -/
inductive PutchCase (font : Font) (t : Text) : UInt8 → Text → Prop where
  | carriageReturn : PutchCase font t 0x0d { t with col := 0 }
  | lineFeed : PutchCase font t 0x0a (t.newline font)
  | backspace : PutchCase font t 0x08 { t with col := if t.col > 0 then t.col - 1 else t.col }
  | tab : PutchCase font t 0x09 (t.advance font ((t.col / 8 + 1) * 8))
  | print (ch : UInt8) (h : Printed ch) :
      PutchCase font t ch ((t.print font ch).advance font (t.col + 1))

theorem putch_case (font : Font) (t : Text) (ch : UInt8) :
    PutchCase font t ch (t.putch font ch) := by
  unfold Text.putch
  split
  · next h => exact h ▸ .carriageReturn
  · next hcr =>
    split
    · next h => exact h ▸ .lineFeed
    · next hlf =>
      split
      · next h => exact h ▸ .backspace
      · next hbs =>
        split
        · next h => exact h ▸ .tab
        · next htab => exact .print ch ⟨hcr, hlf, hbs, htab⟩

theorem tmPutch_lineFeed (font : Font) (depth : Nat) (t : Text) :
    tmPutch font depth t 0x0a = some (t.newline font) := by
  have hne : ¬ (0x0a : UInt8) = 0x0d := by decide
  unfold tmPutch Text.newline
  rw [if_neg hne, if_pos rfl]
  dsimp only
  split
  · exact markAllDirty_eq font _
  · rfl

/-- One call of `tm_putch` to itself is enough, and `tm_buf` is accessed within its
bounds, if the cursor is. -/
theorem tmPutch_eq (font : Font) (depth : Nat) {t : Text} (h : t.InBounds) (ch : UInt8) :
    tmPutch font (depth + 1) t ch = some (t.putch font ch) := by
  have hcase := putch_case font t ch
  generalize t.putch font ch = u at hcase ⊢
  cases hcase with
  | carriageReturn => rfl
  | lineFeed => exact tmPutch_lineFeed ..
  | backspace =>
    unfold tmPutch
    by_cases hcol : t.col > 0 <;> simp [hcol]
  | tab =>
    unfold tmPutch Text.advance
    by_cases hnext : (t.col / 8 + 1) * 8 ≥ 80 <;> simp [hnext, tmPutch_lineFeed]
  | print ch hch =>
    obtain ⟨hcr, hlf, hbs, htab⟩ := hch
    have hin : InBuf (t.row, t.col) := h
    unfold tmPutch Text.advance Text.print
    rw [if_neg hcr, if_neg hlf, if_neg hbs, if_neg htab]
    simp only [Text.store?, if_pos hin, Option.bind_eq_bind, Option.bind_some,
      renderCell_of_inBuf font hin, Function.update_self, tmPutch_lineFeed]
    by_cases hcol : t.col + 1 ≥ 80 <;> simp [hcol]

theorem newline_inBounds (font : Font) {t : Text} (h : t.InBounds) :
    (t.newline font).InBounds := by
  rw [Page.inBounds_iff] at h
  unfold Text.newline
  split <;> simp only [Page.inBounds_iff, redraw] <;> omega

theorem advance_inBounds (font : Font) {t : Text} (h : t.InBounds) {next : Int} (hnext : 0 ≤ next) :
    (t.advance font next).InBounds := by
  rw [Page.inBounds_iff] at h
  unfold Text.advance
  split
  · apply newline_inBounds
    rw [Page.inBounds_iff]
    dsimp only
    omega
  · rw [Page.inBounds_iff]
    dsimp only
    omega

theorem putch_inBounds (font : Font) {t : Text} (h : t.InBounds) (ch : UInt8) :
    (t.putch font ch).InBounds := by
  have hcase := putch_case font t ch
  have hb := Page.inBounds_iff.mp h
  generalize t.putch font ch = u at hcase ⊢
  cases hcase with
  | carriageReturn =>
    rw [Page.inBounds_iff]
    dsimp only
    omega
  | lineFeed => exact newline_inBounds font h
  | backspace =>
    rw [Page.inBounds_iff]
    dsimp only
    split <;> omega
  | tab => exact advance_inBounds font h (by omega)
  | print ch hch =>
    have hprint : (t.print font ch).InBounds := h
    exact advance_inBounds font hprint (by omega)

/-- All characters of a loop. -/
def Text.type (font : Font) (t : Text) (chars : List UInt8) : Text :=
  chars.foldl (Text.putch font) t

theorem putchs_eq (font : Font) {t : Text} (h : t.InBounds) (chars : List UInt8) :
    putchs font t chars = some (t.type font chars) := by
  induction chars generalizing t with
  | nil => rfl
  | cons ch chars ih =>
    rw [putchs, List.foldlM_cons, tmPutch_eq font 0 h]
    exact ih (putch_inBounds font h ch)

theorem type_inBounds (font : Font) {t : Text} (h : t.InBounds) (chars : List UInt8) :
    (t.type font chars).InBounds := by
  induction chars generalizing t with
  | nil => exact h
  | cons ch chars ih => exact ih (putch_inBounds font h ch)

/-- What no character changes. -/
structure SameSetting (t u : Text) : Prop where
  active : u.active = t.active
  screen : u.screen = t.screen
  cursorStart : u.cursorStart = t.cursorStart
  cursorEnd : u.cursorEnd = t.cursorEnd

theorem newline_setting (font : Font) (t : Text) : SameSetting t (t.newline font) := by
  unfold Text.newline
  split <;> exact ⟨rfl, rfl, rfl, rfl⟩

theorem advance_setting (font : Font) (t : Text) (next : Int) :
    SameSetting t (t.advance font next) := by
  unfold Text.advance
  split
  · obtain ⟨ha, hs, hstart, hend⟩ := newline_setting font { t with col := 0 }
    exact ⟨ha, hs, hstart, hend⟩
  · exact ⟨rfl, rfl, rfl, rfl⟩

theorem putch_setting (font : Font) (t : Text) (ch : UInt8) :
    SameSetting t (t.putch font ch) := by
  have hcase := putch_case font t ch
  generalize t.putch font ch = u at hcase ⊢
  cases hcase with
  | carriageReturn | backspace => exact ⟨rfl, rfl, rfl, rfl⟩
  | lineFeed => exact newline_setting font t
  | tab => exact advance_setting font t _
  | print ch hch =>
    obtain ⟨ha, hs, hstart, hend⟩ := advance_setting font (t.print font ch) (t.col + 1)
    exact ⟨ha, hs, hstart, hend⟩

theorem type_setting (font : Font) (t : Text) (chars : List UInt8) :
    SameSetting t (t.type font chars) := by
  induction chars generalizing t with
  | nil => exact ⟨rfl, rfl, rfl, rfl⟩
  | cons ch chars ih =>
    have h := putch_setting font t ch
    have h' := ih (t.putch font ch)
    exact ⟨h'.active.trans h.active, h'.screen.trans h.screen,
      h'.cursorStart.trans h.cursorStart, h'.cursorEnd.trans h.cursorEnd⟩

def Text.enabled (font : Font) (t : Text) : Text :=
  redraw font
    { t with
      active := true, row := 0, col := 0, attr := 0x07, cursorStart := 0x0d, cursorEnd := 0x0f
      buf := tmClear 0x07 t.buf }

theorem tmEnable_eq (font : Font) (t : Text) : tmEnable font t = some (t.enabled font) :=
  markAllDirty_eq font _

/-- The loops over characters: the state in which they start, and what they write. -/
def typing (far : Far) (regs : Regs) (t : Text) : Option (Text × List UInt8) :=
  if t.active = false then none
  else match service regs.ah with
    | some .writeCharAttr => some ({ t with attr := attrOf regs t.toPage }, repeated regs)
    | some .writeChar => some (t, repeated regs)
    | some .teletype => some (t, [regs.al])
    | some .writeString => some (stringStart regs t, string far regs)
    | _ => none

/-- What a call can do to the state. -/
inductive Int10Case (font : Font) (far : Far) (regs : Regs) (t : Text) : Text → Prop where
  | same : Int10Case font far regs t t
  | enabled : Int10Case font far regs t (t.enabled font)
  | shape (hactive : t.active = true) (hah : service regs.ah = some .setCursorShape) :
      Int10Case font far regs t
        { t with cursorStart := regs.ch &&& 0x1f, cursorEnd := regs.cl &&& 0x1f }
  | position (hactive : t.active = true) (hah : service regs.ah = some .setCursorPosition) :
      Int10Case font far regs t { t with row := rowOf regs.dh, col := colOf regs.dl }
  | scrolled (hactive : t.active = true) (hah : service regs.ah = some .scrollUp) :
      Int10Case font far regs t (redraw font
        { t with buf := tmScrollUp (scrollLines regs) (scrollWindow regs) regs.bh t.buf })
  | typed {start : Text} {chars : List UInt8} (htyping : typing far regs t = some (start, chars)) :
      Int10Case font far regs t (start.type font chars)

theorem rowOf_bounds (dh : UInt8) : 0 ≤ rowOf dh ∧ rowOf dh < 25 := by
  unfold rowOf
  split <;> omega

theorem colOf_bounds (dl : UInt8) : 0 ≤ colOf dl ∧ colOf dl < 80 := by
  unfold colOf
  split <;> omega

theorem typing_inBounds {far : Far} {regs : Regs} {t start : Text} {chars : List UInt8}
    (h : t.InBounds) (htyping : typing far regs t = some (start, chars)) : start.InBounds := by
  unfold typing at htyping
  split at htyping
  · cases htyping
  · split at htyping <;> cases htyping
    · exact h
    · exact h
    · exact h
    · exact ⟨rowOf_bounds regs.dh, colOf_bounds regs.dl⟩

/-- The services that write characters. -/
theorem tmHandleInt10_typing (font : Font) {far : Far} {regs : Regs} {t start : Text}
    {chars : List UInt8} (h : t.InBounds) (htyping : typing far regs t = some (start, chars)) :
    tmHandleInt10 font far regs t =
      some (true, { regs with ah := 0x00 }, start.type font chars) := by
  have hputchs := putchs_eq font (typing_inBounds h htyping) chars
  unfold typing at htyping
  split at htyping
  · cases htyping
  · next hon =>
    unfold tmHandleInt10
    rw [if_neg fun h => hon h.1, if_neg hon]
    split at htyping <;> cases htyping <;> next hs => rw [hs]; dsimp only; rw [hputchs]; rfl

theorem typing_setting {far : Far} {regs : Regs} {t start : Text} {chars : List UInt8}
    (htyping : typing far regs t = some (start, chars)) : SameSetting t start := by
  unfold typing at htyping
  split at htyping
  · cases htyping
  · split at htyping <;> cases htyping <;> exact ⟨rfl, rfl, rfl, rfl⟩

/-- A call always returns, and does one of the cases. -/
theorem int10_case (font : Font) (far : Far) (regs : Regs) {t : Text} (h : t.InBounds) :
    ∃ handled regs' u, tmHandleInt10 font far regs t = some (handled, regs', u) ∧
      Int10Case font far regs t u := by
  by_cases htyping : ∃ start chars, typing far regs t = some (start, chars)
  · obtain ⟨start, chars, htyping⟩ := htyping
    exact ⟨_, _, _, tmHandleInt10_typing font h htyping, .typed htyping⟩
  unfold tmHandleInt10
  by_cases hactive : t.active = true
  · have hon : ¬ t.active = false := by rw [hactive]; decide
    rw [if_neg fun h => hon h.1, if_neg hon]
    cases hs : service regs.ah with
    | none => exact ⟨_, _, _, rfl, .same⟩
    | some s =>
      cases s with
      | setVideoMode =>
        dsimp only
        split
        · rw [tmEnable_eq]
          exact ⟨_, _, _, rfl, .enabled⟩
        · exact ⟨_, _, _, rfl, .same⟩
      | setCursorShape => exact ⟨_, _, _, rfl, .shape hactive hs⟩
      | setCursorPosition => exact ⟨_, _, _, rfl, .position hactive hs⟩
      | getCursor => exact ⟨_, _, _, rfl, .same⟩
      | selectPage => exact ⟨_, _, _, rfl, .same⟩
      | scrollUp =>
        dsimp only
        rw [markAllDirty_eq]
        exact ⟨_, _, _, rfl, .scrolled hactive hs⟩
      | readChar =>
        dsimp only
        rw [cell?_of_inBuf h]
        exact ⟨_, _, _, rfl, .same⟩
      | getVideoMode => exact ⟨_, _, _, rfl, .same⟩
      | writeCharAttr | writeChar | teletype | writeString =>
        rw [typing, if_neg hon, hs] at htyping
        exact absurd ⟨_, _, rfl⟩ htyping
  · have hoff : t.active = false := Bool.not_eq_true _ ▸ hactive
    by_cases hmode : regs.ah = 0x00 ∧ regs.al = 0x03
    · rw [if_pos ⟨hoff, hmode⟩, tmEnable_eq]
      exact ⟨_, _, _, rfl, .enabled⟩
    · rw [if_neg fun h => hmode h.2, if_pos hoff]
      exact ⟨_, _, _, rfl, .same⟩

theorem enabled_inBounds (font : Font) (t : Text) : (t.enabled font).InBounds := by
  change InBuf (0, 0)
  decide

theorem int10Case_inBounds {font : Font} {far : Far} {regs : Regs} {t u : Text} (h : t.InBounds)
    (hcase : Int10Case font far regs t u) : u.InBounds := by
  cases hcase with
  | same => exact h
  | enabled => exact enabled_inBounds font t
  | shape => exact h
  | position => exact ⟨rowOf_bounds regs.dh, colOf_bounds regs.dl⟩
  | scrolled => exact h
  | typed htyping => exact type_inBounds font (typing_inBounds h htyping) _

theorem int10Case_active {font : Font} {far : Far} {regs : Regs} {t u : Text}
    (h : t.active = true) (hcase : Int10Case font far regs t u) : u.active = true := by
  cases hcase with
  | same | shape | position | scrolled => exact h
  | enabled => rfl
  | typed htyping =>
    exact ((type_setting font _ _).active.trans (typing_setting htyping).active).trans h

/-- A run always returns, with the cursor on the screen. -/
theorem int10s_inBounds (font : Font) {t : Text} (h : t.InBounds) (hactive : t.active = true)
    (calls : List Call) :
    ∃ u, int10s font t calls = some u ∧ u.InBounds ∧ u.active = true := by
  induction calls generalizing t with
  | nil => exact ⟨t, rfl, h, hactive⟩
  | cons call calls ih =>
    obtain ⟨handled, regs', u, hcall, hcase⟩ := int10_case font call.far call.regs h
    obtain ⟨v, hrest, hv⟩ := ih (int10Case_inBounds h hcase) (int10Case_active hactive hcase)
    refine ⟨v, ?_, hv⟩
    rw [int10s, List.foldlM_cons, hcall]
    exact hrest

end CsmWrap.Vga
