import CsmWrap.Vga.TextMode

/-!
# Text and cursor

What characters do to the text and to the cursor, without the drawing: the layer
at which the services of INT 10h are specified. `toPage_type` connects it to the
emulator.
-/

namespace CsmWrap.Vga
open Sweep

def Page.newline (p : Page) : Page :=
  if p.row + 1 ≥ 25 then { p with row := 24, buf := tmScrollUp 1 fullWindow p.attr p.buf }
  else { p with row := p.row + 1 }

def Page.advance (p : Page) (next : Int) : Page :=
  if next ≥ 80 then Page.newline { p with col := 0 } else { p with col := next }

def Page.print (p : Page) (ch : UInt8) : Page :=
  { p with buf := Function.update p.buf (p.row, p.col) ⟨ch, p.attr⟩ }

def Page.putch (p : Page) (ch : UInt8) : Page :=
  if ch = 0x0d then { p with col := 0 }
  else if ch = 0x0a then p.newline
  else if ch = 0x08 then { p with col := if p.col > 0 then p.col - 1 else p.col }
  else if ch = 0x09 then p.advance ((p.col / 8 + 1) * 8)
  else (p.print ch).advance (p.col + 1)

def Page.type (p : Page) (chars : List UInt8) : Page := chars.foldl Page.putch p

theorem toPage_newline (font : Font) (t : Text) :
    (t.newline font).toPage = t.toPage.newline := by
  unfold Text.newline Page.newline
  split <;> rfl

theorem toPage_advance (font : Font) (t : Text) (next : Int) :
    (t.advance font next).toPage = t.toPage.advance next := by
  unfold Text.advance Page.advance
  split
  · exact toPage_newline font _
  · rfl

theorem toPage_putch (font : Font) (t : Text) (ch : UInt8) :
    (t.putch font ch).toPage = t.toPage.putch ch := by
  unfold Text.putch Page.putch
  split
  · rfl
  · split
    · exact toPage_newline font t
    · split
      · rfl
      · split <;> exact toPage_advance ..

/-- The emulator writes what the page layer says. -/
theorem toPage_type (font : Font) (t : Text) (chars : List UInt8) :
    (t.type font chars).toPage = t.toPage.type chars := by
  induction chars generalizing t with
  | nil => rfl
  | cons ch chars ih =>
    rw [Text.type, List.foldl_cons, ← Text.type, ih, toPage_putch]
    rfl

theorem putch_carriageReturn (p : Page) : p.putch 0x0d = { p with col := 0 } := rfl

theorem putch_lineFeed (p : Page) : p.putch 0x0a = p.newline := rfl

theorem putch_backspace (p : Page) :
    p.putch 0x08 = { p with col := if p.col > 0 then p.col - 1 else p.col } := rfl

theorem putch_print {p : Page} {ch : UInt8} (h : Printed ch) :
    p.putch ch = (p.print ch).advance (p.col + 1) := by
  obtain ⟨hcr, hlf, hbs, htab⟩ := h
  rw [Page.putch, if_neg hcr, if_neg hlf, if_neg hbs, if_neg htab]

theorem attr_advance (p : Page) (next : Int) : (p.advance next).attr = p.attr := by
  unfold Page.advance Page.newline
  split
  · split <;> rfl
  · rfl

theorem attr_putch (p : Page) (ch : UInt8) : (p.putch ch).attr = p.attr := by
  unfold Page.putch
  split
  · rfl
  · split
    · unfold Page.newline
      split <;> rfl
    · split
      · rfl
      · split <;> exact attr_advance _ _

theorem attr_type (p : Page) (chars : List UInt8) : (p.type chars).attr = p.attr := by
  induction chars generalizing p with
  | nil => rfl
  | cons ch chars ih => exact (ih (p.putch ch)).trans (attr_putch p ch)

theorem tmClear_apply (attr : UInt8) (buf : Int × Int → Cell) {p : Int × Int} (hp : InBuf p) :
    tmClear attr buf p = ⟨0x20, attr⟩ := by
  have hmem : p ∈ grid 0 24 0 79 := by
    unfold InBuf at hp
    rw [mem_grid]
    omega
  have hfill := foldl_fill (fun _ => (⟨0x20, attr⟩ : Cell)) (grid 0 24 0 79) buf p
  rw [if_pos hmem] at hfill
  exact hfill

/-- What a scroll leaves in a cell: the blank lines are filled last. -/
theorem tmScrollUp_apply {lines : Int} (h : 0 < lines) (w : Window) (attr : UInt8)
    (buf : Int × Int → Cell) (p : Int × Int) :
    tmScrollUp lines w attr buf p =
      if p ∈ w.clamp.blanked lines then ⟨0x20, attr⟩
      else if p ∈ w.clamp.moved lines then buf (p.1 + lines, p.2) else buf p := by
  -- rows are stored in order and read from below
  have horder : (w.clamp.moved lines).Pairwise fun p q => p ≠ q ∧ p ≠ (q.1 + lines, q.2) := by
    refine (pairwise_grid _ _ _ _).imp fun {p q} hpq => ⟨?_, ?_⟩
    · rintro rfl
      omega
    · rintro rfl
      dsimp only at hpq
      omega
  have hcopy := foldl_copy (fun p => (p.1 + lines, p.2)) horder buf p
  have hfill := foldl_fill (fun _ => (⟨0x20, attr⟩ : Cell)) (w.clamp.blanked lines)
    ((w.clamp.moved lines).foldl
      (fun buf p => Function.update buf p (buf (p.1 + lines, p.2))) buf) p
  rw [tmScrollUp, if_neg (by omega), hfill, hcopy]
  congr

/-- The scroll of a line feed. -/
theorem scroll_full (attr : UInt8) (buf : Int × Int → Cell) {p : Int × Int} (hp : InBuf p) :
    tmScrollUp 1 fullWindow attr buf p =
      if p.1 = 24 then ⟨0x20, attr⟩ else buf (p.1 + 1, p.2) := by
  have hclamp : fullWindow.clamp = ⟨0, 0, 24, 79⟩ := by decide
  unfold InBuf at hp
  rw [tmScrollUp_apply (by decide), hclamp, Window.blanked, Window.moved]
  simp only [mem_grid]
  by_cases h24 : p.1 = 24
  · rw [if_pos (by omega), if_pos h24]
  · rw [if_neg (by omega), if_neg h24, if_pos (by omega)]

/-- A column that a scroll does not change holds one cell throughout. -/
theorem eq_of_shift {f : Int → Cell} {m : Int} {cell : Cell}
    (hshift : ∀ r, 0 ≤ r → r < m → f r = f (r + 1)) (hlast : f m = cell) :
    ∀ r, 0 ≤ r → r ≤ m → f r = cell := by
  intro r hr hrm
  obtain ⟨n, rfl⟩ : ∃ n : Nat, m = r + n := ⟨(m - r).toNat, by omega⟩
  induction n generalizing r with
  | zero => simpa using hlast
  | succ n ih =>
    rw [hshift r hr (by omega)]
    have hsum : r + 1 + (n : Int) = r + ((n + 1 : Nat) : Int) := by omega
    exact ih (r + 1) (by omega) (by rw [hsum]; exact hshift) (by rw [hsum]; exact hlast) (by omega)

/-- Where a character moves the cursor. -/
def moved (rc : Int × Int) (ch : UInt8) : Int × Int :=
  let newline (r : Int) : Int := if r + 1 ≥ 25 then 24 else r + 1
  let advance (next : Int) : Int × Int := if next ≥ 80 then (newline rc.1, 0) else (rc.1, next)
  if ch = 0x0d then (rc.1, 0)
  else if ch = 0x0a then (newline rc.1, rc.2)
  else if ch = 0x08 then (rc.1, if rc.2 > 0 then rc.2 - 1 else rc.2)
  else if ch = 0x09 then advance ((rc.2 / 8 + 1) * 8)
  else advance (rc.2 + 1)

def Page.cursor (p : Page) : Int × Int := (p.row, p.col)

theorem cursor_newline (p : Page) :
    p.newline.cursor = (if p.row + 1 ≥ 25 then 24 else p.row + 1, p.col) := by
  unfold Page.newline
  split <;> rfl

theorem cursor_advance (p : Page) (next : Int) :
    (p.advance next).cursor =
      if next ≥ 80 then (if p.row + 1 ≥ 25 then 24 else p.row + 1, 0) else (p.row, next) := by
  unfold Page.advance
  split
  · exact cursor_newline _
  · rfl

theorem cursor_putch (p : Page) (ch : UInt8) : (p.putch ch).cursor = moved p.cursor ch := by
  unfold Page.putch moved
  split
  · rfl
  · split
    · exact cursor_newline p
    · split
      · rfl
      · split <;> exact cursor_advance ..

theorem cursor_type (p : Page) (chars : List UInt8) :
    (p.type chars).cursor = chars.foldl moved p.cursor := by
  induction chars generalizing p with
  | nil => rfl
  | cons ch chars ih => rw [List.foldl_cons, ← cursor_putch, ← ih]; rfl

theorem newline_page_inBounds {p : Page} (h : p.InBounds) : p.newline.InBounds := by
  rw [Page.inBounds_iff] at h
  unfold Page.newline
  split <;> simp only [Page.inBounds_iff] <;> omega

theorem type_replicate_succ (p : Page) (n : Nat) (ch : UInt8) :
    p.type (List.replicate (n + 1) ch) = (p.putch ch).type (List.replicate n ch) := rfl

theorem type_append (p : Page) (l l' : List UInt8) : p.type (l ++ l') = (p.type l).type l' :=
  List.foldl_append

/-- At the left margin, going back does nothing. -/
theorem type_back_margin {p : Page} (hcol : p.col = 0) {ch : UInt8} (hch : ch = 0x08 ∨ ch = 0x0d)
    (n : Nat) : p.type (List.replicate n ch) = p := by
  have hputch : p.putch ch = p := by
    rcases hch with rfl | rfl <;> simp [Page.putch, ← hcol]
  induction n with
  | zero => rfl
  | succ n ih => rw [type_replicate_succ, hputch, ih]

/-- Elsewhere, it moves the cursor for good. -/
theorem type_back_col {p : Page} (hcol : 0 < p.col) {ch : UInt8} (hch : ch = 0x08 ∨ ch = 0x0d)
    (n : Nat) : (p.type (List.replicate (n + 1) ch)).col < p.col := by
  have hback : ∀ q : Page, (0 ≤ q.col ∧ q.col < p.col ∨ q.col = p.col) →
      0 ≤ (q.putch ch).col ∧ (q.putch ch).col < p.col := by
    intro q hq
    rcases hch with rfl | rfl
    · rw [putch_backspace]
      dsimp only
      split <;> omega
    · rw [putch_carriageReturn]
      dsimp only
      omega
  have hrun : ∀ n (q : Page), 0 ≤ q.col ∧ q.col < p.col →
      (q.type (List.replicate n ch)).col < p.col := by
    intro n
    induction n with
    | zero => exact fun q hq => hq.2
    | succ n ih => exact fun q hq => ih _ (hback q (.inl hq))
  exact hrun n _ (hback p (.inr rfl))

/-- Line feeds and tabs have moved the cursor on, or blanked the line it is in. -/
structure Passed (p₀ p : Page) : Prop where
  inBounds : p.InBounds
  moved : p₀.row < p.row ∨ p.row = p₀.row ∧ p₀.col < p.col ∨
    p.row = 24 ∧ ∀ c, 0 ≤ c → c < 80 → (p.buf (24, c)).ch = 0x20

theorem passed_newline {p₀ p : Page} (hin : p.InBounds) (hrow : p₀.row ≤ p.row) :
    Passed p₀ p.newline := by
  refine ⟨newline_page_inBounds hin, ?_⟩
  rw [Page.inBounds_iff] at hin
  unfold Page.newline
  split
  · right; right
    refine ⟨rfl, fun c hc hc' => ?_⟩
    dsimp only
    have hlast : InBuf (24, c) := ⟨by simp, hc, hc'⟩
    rw [scroll_full p.attr p.buf hlast, if_pos rfl]
  · left
    dsimp only
    omega

theorem Passed.row_le {p₀ p : Page} (h : Passed p₀ p) (h₀ : p₀.InBounds) : p₀.row ≤ p.row := by
  rw [Page.inBounds_iff] at h₀
  rcases h.moved with h | h | h <;> omega

theorem passed_tab {p₀ p : Page} (h₀ : p₀.InBounds) (hp : p = p₀ ∨ Passed p₀ p)
    (hin : p.InBounds) : Passed p₀ (p.advance ((p.col / 8 + 1) * 8)) := by
  have hrow : p₀.row ≤ p.row := by
    rcases hp with rfl | hp
    · exact le_refl _
    · exact hp.row_le h₀
  have hb := Page.inBounds_iff.mp hin
  unfold Page.advance
  split
  · refine passed_newline ?_ hrow
    rw [Page.inBounds_iff]
    dsimp only
    omega
  · refine ⟨?_, ?_⟩
    · rw [Page.inBounds_iff]
      dsimp only
      omega
    · rcases hp with rfl | hp
      · right; left
        dsimp only
        omega
      · rcases hp.moved with h | h | h
        · exact .inl h
        · right; left
          dsimp only
          omega
        · exact .inr (.inr h)

theorem passed_putch {p₀ p : Page} (h₀ : p₀.InBounds) {ch : UInt8} (hch : ch = 0x0a ∨ ch = 0x09)
    (hp : p = p₀ ∨ Passed p₀ p) : Passed p₀ (p.putch ch) := by
  have hin : p.InBounds := by
    rcases hp with rfl | hp
    · exact h₀
    · exact hp.inBounds
  rcases hch with rfl | rfl
  · rw [putch_lineFeed]
    apply passed_newline hin
    rcases hp with rfl | hp
    · exact le_refl _
    · exact hp.row_le h₀
  · exact passed_tab h₀ hp hin

theorem passed_type {p : Page} (h : p.InBounds) {ch : UInt8} (hch : ch = 0x0a ∨ ch = 0x09)
    (n : Nat) : Passed p (p.type (List.replicate (n + 1) ch)) := by
  have hrun : ∀ n (q : Page), Passed p q → Passed p (q.type (List.replicate n ch)) := by
    intro n
    induction n with
    | zero => exact fun q hq => hq
    | succ n ih => exact fun q hq => ih _ (passed_putch h hch (.inr hq))
  exact hrun n _ (passed_putch h hch (.inl rfl))

/-- The number of cells before a cell. -/
def cellIndex (q : Int × Int) : Int := 80 * q.1 + q.2

def Page.pos (p : Page) : Int := cellIndex p.cursor

/-- The cells from the cursor on. -/
def NextCells (p : Page) (n : Nat) (q : Int × Int) : Prop :=
  p.pos ≤ cellIndex q ∧ cellIndex q < p.pos + n

instance (p : Page) (n : Nat) (q : Int × Int) : Decidable (NextCells p n q) :=
  inferInstanceAs (Decidable (_ ∧ _))

theorem nextCells_iff {p : Page} {n : Nat} {q : Int × Int} :
    NextCells p n q ↔ p.pos ≤ cellIndex q ∧ cellIndex q < p.pos + n := Iff.rfl

theorem cellIndex_inj {p q : Int × Int} (hp : 0 ≤ p.2 ∧ p.2 < 80) (hq : 0 ≤ q.2 ∧ q.2 < 80) :
    cellIndex p = cellIndex q ↔ p = q := by
  unfold cellIndex
  rw [Prod.ext_iff]
  omega

/-- A printed character anywhere but in the last cell. -/
theorem putch_print_fits {p : Page} (h : p.InBounds) {ch : UInt8} (hch : Printed ch)
    (hpos : p.pos + 1 < 2000) :
    (p.putch ch).InBounds ∧ (p.putch ch).pos = p.pos + 1 ∧ (p.putch ch).attr = p.attr ∧
      (p.putch ch).buf = Function.update p.buf p.cursor ⟨ch, p.attr⟩ := by
  rw [Page.inBounds_iff] at h
  unfold Page.pos cellIndex Page.cursor at hpos ⊢
  rw [putch_print hch, Page.advance]
  dsimp only at hpos
  split
  · rw [Page.newline]
    rw [if_neg (by simp only [Page.print]; omega)]
    simp only [Page.inBounds_iff, Page.print, and_true]
    omega
  · simp only [Page.inBounds_iff, Page.print, and_true]
    omega

theorem type_print_fits {p : Page} (h : p.InBounds) {ch : UInt8} (hch : Printed ch) {n : Nat}
    (hpos : p.pos + n < 2000) :
    (p.type (List.replicate n ch)).InBounds ∧ (p.type (List.replicate n ch)).pos = p.pos + n ∧
      (p.type (List.replicate n ch)).attr = p.attr ∧
      ∀ q, InBuf q → (p.type (List.replicate n ch)).buf q =
        if NextCells p n q then ⟨ch, p.attr⟩ else p.buf q := by
  induction n generalizing p with
  | zero =>
    refine ⟨h, by simp [Page.type], rfl, fun q _ => ?_⟩
    rw [if_neg (by rw [nextCells_iff]; omega)]
    rfl
  | succ n ih =>
    obtain ⟨hin, hpos', hattr, hbuf⟩ := putch_print_fits h hch (by omega)
    obtain ⟨hin', hpos'', hattr', hbuf'⟩ := ih hin (by omega)
    rw [type_replicate_succ]
    refine ⟨hin', by omega, hattr'.trans hattr, fun q hq => ?_⟩
    rw [hbuf' q hq, hattr, hbuf]
    have hcursor : cellIndex q = p.pos ↔ q = p.cursor := cellIndex_inj hq.2 h.2
    by_cases hq' : q = p.cursor
    · have hi := hcursor.mpr hq'
      have hold : ¬ NextCells (p.putch ch) n q := by rw [nextCells_iff]; omega
      have hnew : NextCells p (n + 1) q := by rw [nextCells_iff]; omega
      rw [if_neg hold, if_pos hnew, hq', Function.update_self]
    · have hi : cellIndex q ≠ p.pos := fun e => hq' (hcursor.mp e)
      have hiff : NextCells (p.putch ch) n q ↔ NextCells p (n + 1) q := by
        rw [nextCells_iff, nextCells_iff]
        omega
      simp only [Function.update_of_ne hq', hiff]

/-- A run up to the last cell ends with a scroll. -/
theorem type_print_last {p : Page} (h : p.InBounds) {ch : UInt8} (hch : Printed ch) {n : Nat}
    (hpos : p.pos + (n + 1 : Nat) = 2000) :
    (p.type (List.replicate (n + 1) ch)).cursor = (24, 0) ∧
      ∀ q, InBuf q → (p.type (List.replicate (n + 1) ch)).buf q =
        if q.1 = 24 then ⟨0x20, p.attr⟩
        else if NextCells p (n + 1) (q.1 + 1, q.2) then ⟨ch, p.attr⟩ else p.buf (q.1 + 1, q.2) := by
  obtain ⟨hin, hlast, hattr, hbuf⟩ := type_print_fits h hch (n := n) (by omega)
  rw [List.replicate_succ', type_append]
  generalize p.type (List.replicate n ch) = p' at hin hlast hattr hbuf ⊢
  have hcell : p'.row = 24 ∧ p'.col = 79 := by
    rw [Page.inBounds_iff] at hin
    simp only [Page.pos, cellIndex, Page.cursor] at hlast hpos
    omega
  have hputch : p'.type [ch] = { p' with
      row := 24, col := 0
      buf := tmScrollUp 1 fullWindow p'.attr
        (Function.update p'.buf (p'.row, p'.col) ⟨ch, p'.attr⟩) } := by
    change p'.putch ch = _
    rw [putch_print hch, Page.advance, if_pos (by omega), Page.newline,
      if_pos (by simp only [Page.print]; omega)]
    rfl
  rw [hputch]
  refine ⟨rfl, fun q hq => ?_⟩
  dsimp only
  rw [scroll_full _ _ hq, hattr]
  split
  · rfl
  · next hne =>
    have hq' : InBuf (q.1 + 1, q.2) := by
      unfold InBuf at hq ⊢
      dsimp only
      omega
    have hcursor : cellIndex (q.1 + 1, q.2) = p'.pos ↔ (q.1 + 1, q.2) = p'.cursor :=
      cellIndex_inj hq'.2 hin.2
    rw [← Page.cursor]
    by_cases hqc : (q.1 + 1, q.2) = p'.cursor
    · have hi := hcursor.mpr hqc
      have hnew : NextCells p (n + 1) (q.1 + 1, q.2) := by rw [nextCells_iff]; omega
      rw [if_pos hnew, hqc, Function.update_self]
    · have hi : cellIndex (q.1 + 1, q.2) ≠ p'.pos := fun e => hqc (hcursor.mp e)
      have hiff : NextCells p n (q.1 + 1, q.2) ↔ NextCells p (n + 1) (q.1 + 1, q.2) := by
        rw [nextCells_iff, nextCells_iff]
        omega
      rw [Function.update_of_ne hqc, hbuf _ hq']
      simp only [hiff]

end CsmWrap.Vga
