import CsmWrap.Vga.Setup
import CsmWrap.Vga.TextScreen

/-!
# Text on any framebuffer

`tm_init` takes over whatever framebuffer `cbvga_setup` has accepted, of any size and
pitch, and guesses the size of its pixels. Every store of `putpx` is then within a
scanline, as long as AH = 06h leaves the variables alone; whether the guess is the depth
that `cbvga_setup` has chosen is another matter.
-/

namespace CsmWrap.Vga
open Coreboot Memory Sweep

/-- Where a call of `putpx` stores, if it does: within one scanline, and independent of
what is there. -/
def Screen.PutsWithin (s : Screen) (x y : Int) (argb : UInt32) : Prop :=
  (∀ fb, putpx s x y argb fb = fb) ∨
    ∃ addr bytes, (∀ fb, putpx s x y argb fb = store fb addr bytes) ∧
      (UInt32.ofInt y).toNat < s.fbH.toNat ∧
      s.fbPtr.toNat + (UInt32.ofInt y).toNat * s.fbPitch.toNat ≤ addr ∧
      addr + bytes.length ≤ s.fbPtr.toNat + ((UInt32.ofInt y).toNat + 1) * s.fbPitch.toNat

/-- Before `tm_init` the screen has no columns. -/
def Screen.Guarded (s : Screen) : Prop := s.fbW = 0 ∨ s.Linear

theorem ofInt_toNat (x : UInt32) : UInt32.ofInt x.toNat = x := by
  rw [← UInt32.toNat_inj, toNat_ofInt (by omega) (by have := x.toNat_lt; omega)]
  rfl

/-- The guard of `putpx` is on unsigned numbers, so that it holds for every pixel
however far outside. -/
theorem Screen.Guarded.puts {s : Screen} (h : s.Guarded) (x y : Int) (argb : UInt32) :
    s.PutsWithin x y argb := by
  by_cases hguard : UInt32.ofInt x ≥ s.fbW ∨ UInt32.ofInt y ≥ s.fbH
  · exact .inl fun fb => if_pos hguard
  · rw [not_or, ge_iff_le, ge_iff_le, UInt32.not_le, UInt32.not_le, UInt32.lt_iff_toNat_lt,
      UInt32.lt_iff_toNat_lt] at hguard
    obtain ⟨hx, hy⟩ := hguard
    have hlin : s.Linear := by
      refine h.resolve_left fun hzero => ?_
      rw [hzero] at hx
      exact absurd hx (Nat.not_lt_zero _)
    have hinside : s.Inside ((UInt32.ofInt x).toNat, (UInt32.ofInt y).toNat) := by
      unfold Screen.Inside
      dsimp only
      omega
    have hrow := row_le hlin hinside
    refine .inr ⟨s.address ((UInt32.ofInt x).toNat, (UInt32.ofInt y).toNat), s.pixelBytes argb,
      fun fb => ?_, hy, ?_⟩
    · have hput := putpx_eq hlin hinside argb fb
      unfold putpx at hput ⊢
      simp only [ofInt_toNat] at hput
      exact hput
    · rw [length_pixelBytes hlin, Nat.succ_mul]
      unfold Screen.address
      simp only [Int.toNat_natCast] at hrow ⊢
      omega

/-- Memory has changed by calls of `putpx` only. -/
def Text.Paints (t u : Text) : Prop := ∃ pixels, u.fb = paint t.screen pixels t.fb

theorem Text.Paints.same {t u : Text} (h : u.fb = t.fb) : t.Paints u :=
  ⟨[], by rw [paint_nil, h]⟩

theorem Text.Paints.trans {t u v : Text} (h : t.Paints u) (hscreen : u.screen = t.screen)
    (h' : u.Paints v) : t.Paints v := by
  obtain ⟨pixels, hu⟩ := h
  obtain ⟨pixels', hv⟩ := h'
  exact ⟨pixels ++ pixels', by rw [hv, hscreen, hu, paint_append]⟩

theorem paints_newline (font : Font) (t : Text) : t.Paints (t.newline font) := by
  unfold Text.newline
  split
  · exact ⟨_, rfl⟩
  · exact .same rfl

theorem paints_advance (font : Font) (t : Text) (next : Int) : t.Paints (t.advance font next) := by
  unfold Text.advance
  split
  · exact paints_newline font { t with col := 0 }
  · exact .same rfl

theorem paints_putch (font : Font) (t : Text) (ch : UInt8) : t.Paints (t.putch font ch) := by
  have hcase := putch_case font t ch
  generalize t.putch font ch = u at hcase ⊢
  cases hcase with
  | carriageReturn | backspace => exact .same rfl
  | lineFeed => exact paints_newline font t
  | tab => exact paints_advance font t _
  | print ch hch =>
    have hprint : t.Paints (t.print font ch) := ⟨_, rfl⟩
    exact hprint.trans rfl (paints_advance font _ _)

theorem paints_type (font : Font) (t : Text) (chars : List UInt8) :
    t.Paints (t.type font chars) := by
  induction chars generalizing t with
  | nil => exact .same rfl
  | cons ch chars ih =>
    exact (paints_putch font t ch).trans (putch_setting font t ch).screen (ih _)

theorem paints_enabled (font : Font) (t : Text) : t.Paints (t.enabled font) := ⟨_, rfl⟩

theorem paints_call {font : Font} {far : Far} {regs : Regs} {t u : Text}
    (hcase : Int10Case font far regs t u) : t.Paints u := by
  cases hcase with
  | same | shape | position => exact .same rfl
  | enabled => exact paints_enabled font t
  | scrolled => exact ⟨_, rfl⟩
  | typed htyping =>
    have hstart : t.Paints _ := .same (typing_fb htyping).1
    exact hstart.trans (typing_setting htyping).screen (paints_type font _ _)

/-- What the text emulator is asked to do. The palette may be any at each `tm_init`. -/
inductive TextCall where
  | init (e : Emul)
  | enable
  | int10 (call : Call)

def Layout.textCall (l : Layout) (font : Font) (st : State) (t : Text) : TextCall → Option Text
  | .init e => some (tmInit st e t).2
  | .enable => tmEnable font t
  | .int10 call => (l.tmHandleInt10 font call.far call.regs t).map fun r => r.2.2

def Layout.textCalls (l : Layout) (font : Font) (st : State) (t : Text) (calls : List TextCall) :
    Option Text :=
  calls.foldlM (l.textCall font st) t

/-- The call stores nothing outside `tm_buf` and the framebuffer. -/
def TextCall.Confined (t : Text) : TextCall → Prop
  | .int10 call => Vga.Confined call.regs t
  | _ => True

/-- Each call of a run is such a call, in the state that it is made in. -/
def Layout.ConfinedRun (l : Layout) (font : Font) (st : State) : Text → List TextCall → Prop
  | _, [] => True
  | t, call :: calls =>
    call.Confined t ∧ ∀ u, l.textCall font st t call = some u → l.ConfinedRun font st u calls

/-- A pixel of the derived size is no longer than its share of the pitch, if that is at
least two bytes. -/
theorem deriveBpp_row {pitch width : UInt32} (h : width.toNat * 2 ≤ pitch.toNat) :
    (deriveBpp pitch width = 16 ∨ deriveBpp pitch width = 24 ∨ deriveBpp pitch width = 32) ∧
      width.toNat * (deriveBpp pitch width / 8) ≤ pitch.toNat := by
  have hmul : width.toNat * (pitch / width).toNat ≤ pitch.toNat := by
    rw [UInt32.toNat_div]
    exact Nat.mul_div_le _ _
  unfold deriveBpp
  dsimp only
  split
  · next h4 => exact ⟨by simp, by rw [h4] at hmul; exact hmul⟩
  · next h4 =>
    split
    · next h3 => exact ⟨by simp, by rw [h3] at hmul; exact hmul⟩
    · next h3 =>
      split
      · next h2 => exact ⟨by simp, by rw [h2] at hmul; exact hmul⟩
      · next h2 =>
        refine ⟨by simp, ?_⟩
        -- five bytes or more, since it is not one of the others and at least two
        by_cases hzero : width.toNat = 0
        · rw [hzero, Nat.zero_mul]
          exact Nat.zero_le _
        · have hge : 2 ≤ (pitch / width).toNat := by
            rw [UInt32.toNat_div, Nat.le_div_iff_mul_le (Nat.pos_of_ne_zero hzero), Nat.mul_comm]
            exact h
          have hne : ∀ n : UInt32, ¬ pitch / width = n → (pitch / width).toNat ≠ n.toNat :=
            fun n hn e => hn (UInt32.toNat_inj.mp e)
          have h4 := hne 4 h4
          have h3 := hne 3 h3
          have h2 := hne 2 h2
          simp only [UInt32.reduceToNat] at h4 h3 h2
          calc width.toNat * (32 / 8) ≤ width.toNat * (pitch / width).toNat :=
                Nat.mul_le_mul_left _ (by omega)
            _ ≤ pitch.toNat := hmul

/-- What `tm_init` takes over. -/
theorem tmInit_screen {st : State} {info : FbInfo} (h : cbvgaGetFb st = some info) (e : Emul)
    (t : Text) :
    let s := (tmInit st e t).2.screen
    s.fbPtr = info.base ∧ s.fbW = info.width ∧ s.fbH = info.height ∧ s.fbPitch = info.pitch ∧
      s.fbBpp = deriveBpp info.pitch info.width := by
  unfold tmInit
  rw [h]
  exact ⟨rfl, rfl, rfl, rfl, rfl⟩

theorem cbvgaGetFb_facts {st : State} {info : FbInfo} (h : cbvgaGetFb st = some info) :
    info.width ≠ 0 ∧ info = ⟨st.vbeFramebuffer, st.cbModeinfo.width.toUInt32,
      st.cbModeinfo.height.toUInt32, st.cbLinelength⟩ := by
  unfold cbvgaGetFb at h
  split at h
  · cases h
  · next hnot =>
    cases h
    refine ⟨fun hz => hnot (.inr (.inl ?_)), rfl⟩
    rw [← UInt16.toNat_inj, ← UInt16.toNat_toUInt32]
    exact congrArg UInt32.toNat hz

/-- The framebuffer that `cbvga_setup` has validated. -/
theorem linear_tmInit {fb : CbFramebuffer} {st : State} (h : Validated fb st) {info : FbInfo}
    (hinfo : cbvgaGetFb st = some info) (e : Emul) (t : Text) :
    (tmInit st e t).2.screen.Linear := by
  obtain ⟨hptr, hw, hh, hpitch, hbpp⟩ := tmInit_screen hinfo e t
  obtain ⟨-, rfl⟩ := cbvgaGetFb_facts hinfo
  have hrow : st.cbModeinfo.width.toUInt32.toNat * 2 ≤ st.cbLinelength.toNat := by
    refine le_trans (Nat.mul_le_mul_left _ ?_) h.row
    rcases h.depth with hd | hd | hd <;> rw [hd] <;> decide
  obtain ⟨hderived, hfits⟩ := deriveBpp_row hrow
  refine ⟨by rwa [hbpp], by rwa [hbpp, hw, hpitch], ?_⟩
  rw [hptr, hh, hpitch]
  dsimp only
  rw [h.address.1, UInt16.toNat_toUInt32, Nat.mul_comm]
  exact h.below

/-- What every call keeps. -/
structure Text.Drawing (t : Text) : Prop where
  inBounds : t.InBounds
  guarded : t.screen.Guarded

theorem drawing_tmInit {fb : CbFramebuffer} {st : State} (h : Validated fb st) {t : Text}
    (ht : t.Drawing) (e : Emul) : (tmInit st e t).2.Drawing ∧ (tmInit st e t).2.fb = t.fb := by
  cases hinfo : cbvgaGetFb st with
  | none =>
    unfold tmInit
    rw [hinfo]
    exact ⟨⟨ht.inBounds, ht.guarded⟩, rfl⟩
  | some info =>
    have hlin := linear_tmInit h hinfo e t
    revert hlin
    unfold tmInit
    rw [hinfo]
    exact fun hlin => ⟨⟨ht.inBounds, .inr hlin⟩, rfl⟩

/-- Each such call returns, and has only made calls of `putpx` on the screen it started
with. -/
theorem drawing_textCall (l : Layout) (font : Font) {fb : CbFramebuffer} {st : State}
    (h : Validated fb st) {t : Text} (ht : t.Drawing) {call : TextCall}
    (hconfined : call.Confined t) :
    ∃ u, l.textCall font st t call = some u ∧ u.Drawing ∧ t.Paints u := by
  cases call with
  | init e =>
    obtain ⟨hdrawing, hfb⟩ := drawing_tmInit h ht e
    exact ⟨_, rfl, hdrawing, .same hfb⟩
  | enable =>
    refine ⟨_, tmEnable_eq font t, ⟨enabled_inBounds font t, ?_⟩, paints_enabled font t⟩
    rw [enabled_screen]
    exact ht.guarded
  | int10 call =>
    obtain ⟨handled, regs', u, hcall, hcase⟩ := int10_case font call.far call.regs ht.inBounds
    refine ⟨u, ?_, ⟨int10Case_inBounds ht.inBounds hcase, ?_⟩, paints_call hcase⟩
    · rw [Layout.textCall, tmHandleInt10_of_confined l font call.far hconfined, hcall]
      rfl
    · rw [int10Case_screen hcase]
      exact ht.guarded

theorem drawing_textCalls (l : Layout) (font : Font) {fb : CbFramebuffer} {st : State}
    (h : Validated fb st) {t : Text} (ht : t.Drawing) {calls : List TextCall}
    (hconfined : l.ConfinedRun font st t calls) :
    ∃ u, l.textCalls font st t calls = some u ∧ u.Drawing := by
  induction calls generalizing t with
  | nil => exact ⟨t, rfl, ht⟩
  | cons call calls ih =>
    obtain ⟨u, hcall, hu, -⟩ := drawing_textCall l font h ht hconfined.1
    obtain ⟨v, hrest, hv⟩ := ih hu (hconfined.2 u hcall)
    refine ⟨v, ?_, hv⟩
    rw [Layout.textCalls, List.foldlM_cons, hcall]
    exact hrest

/-- **Text stays within the framebuffer.** From when the variables are loaded, whatever is
called in whatever order on a framebuffer that was accepted, fits the fields of a mode
and ends below 4 GiB, as long as no AH = 06h stores outside `tm_buf`: `tm_init` divides by
a width that is not zero, every call returns, all it has done to memory are calls of `putpx`
on the screen it started with, and such a call, whatever its pixel, stores nothing or stores
within one scanline. -/
theorem text_drawing_within {fb : CbFramebuffer} (hv : validFramebuffer fb = true)
    (hfb : Representable fb) {st st' : State} (hsetup : setupFramebuffer st fb = some st')
    (l : Layout) (font : Font) (mem : Mem) (calls : List TextCall)
    (hconfined : l.ConfinedRun font st' { blankText with fb := mem } calls) :
    (∀ info, cbvgaGetFb st' = some info → info.width ≠ 0) ∧
      ∃ t, l.textCalls font st' { blankText with fb := mem } calls = some t ∧
        (∀ call : TextCall, call.Confined t →
          ∃ u, l.textCall font st' t call = some u ∧ t.Paints u) ∧
        ∀ x y argb, t.screen.PutsWithin x y argb := by
  have hvalid := (validated_iff hv hsetup).mpr hfb
  have hblank : Text.Drawing { blankText with fb := mem } := by
    refine ⟨?_, .inl rfl⟩
    change InBuf (0, 0)
    decide
  obtain ⟨t, hrun, ht⟩ := drawing_textCalls l font hvalid hblank hconfined
  refine ⟨fun info hinfo => (cbvgaGetFb_facts hinfo).1, t, hrun, fun call hcall => ?_,
    ht.guarded.puts⟩
  obtain ⟨u, hcall, -, hpaints⟩ := drawing_textCall l font hvalid ht hcall
  exact ⟨u, hcall, hpaints⟩

theorem representable_sample : Representable sampleFramebuffer := by
  constructor <;> decide

/-- Mode 3 and a scroll by one line. -/
def scrollingRun : List TextCall :=
  [.init blankMachine.emul, .enable, .int10 ⟨oneLineRegs, fun _ _ => 0⟩]

theorem confined_scrollingRun (l : Layout) (font : Font) (st : State) (t : Text) :
    l.ConfinedRun font st t scrollingRun := by
  refine ⟨trivial, fun _ _ => ⟨trivial, fun _ _ => ⟨fun _ _ => ?_, fun _ _ => trivial⟩⟩⟩
  decide

theorem text_drawing_sample : ∃ st', setupFramebuffer blankState sampleFramebuffer = some st' ∧
    ∃ t, compiledLayout.textCalls blankFont st' { blankText with fb := fun _ => 0 } scrollingRun =
      some t ∧ ∀ x y argb, t.screen.PutsWithin x y argb := by
  obtain ⟨st', hsetup, -⟩ := accepted_setup blankState sampleFramebuffer (by decide)
  obtain ⟨-, t, hrun, -, hputs⟩ :=
    text_drawing_within (by decide) representable_sample hsetup compiledLayout blankFont
      (fun _ => 0) scrollingRun (confined_scrollingRun _ _ _ _)
  exact ⟨st', hsetup, t, hrun, hputs⟩

/-- The width and the height of the mode, cut to 16 bits, are not zero, so that
`cbvga_get_fb` has a framebuffer to offer. -/
def Offered (fb : CbFramebuffer) : Prop :=
  fb.xResolution.toNat % 65536 ≠ 0 ∧ fb.yResolution.toNat % 65536 ≠ 0

instance (fb : CbFramebuffer) : Decidable (Offered fb) := inferInstanceAs (Decidable (_ ∧ _))

theorem toUInt16_eq_zero (n : UInt32) : n.toUInt16 = 0 ↔ n.toNat % 65536 = 0 := by
  rw [← UInt16.toNat_inj, UInt32.toNat_toUInt16]
  rfl

theorem cbvgaGetFb_accepted {fb : CbFramebuffer} (hv : validFramebuffer fb = true) {st st' : State}
    (hsetup : setupFramebuffer st fb = some st') :
    cbvgaGetFb st' =
      if Offered fb then some ⟨fb.physicalAddress.toUInt32, fb.xResolution.toUInt16.toUInt32,
        fb.yResolution.toUInt16.toUInt32, fb.bytesPerLine⟩
      else none := by
  obtain ⟨st'', hsetup', -, hinfo, hline, haddr, -⟩ := accepted_setup st fb hv
  obtain rfl : st' = st'' := Option.some.inj (hsetup.symm.trans hsetup')
  have hnz := (valid_facts hv).1
  have hiff : (fb.physicalAddress.toUInt32 = 0 ∨ fb.xResolution.toUInt16 = 0 ∨
      fb.yResolution.toUInt16 = 0) ↔ ¬ Offered fb := by
    simp only [hnz, false_or, toUInt16_eq_zero, Offered, ne_eq, not_and_or, not_not]
  unfold cbvgaGetFb
  simp only [hinfo, haddr, hline, hiff, ite_not]

/-- A pixel that is stored behind its scanline. -/
theorem not_putsWithin {s : Screen} {x y : Int} {argb : UInt32} {addr : Nat} {bytes : List UInt8}
    (hput : ∀ fb, putpx s x y argb fb = store fb addr bytes) (hlen : 0 < bytes.length)
    (hout : s.fbPtr.toNat + ((UInt32.ofInt y).toNat + 1) * s.fbPitch.toNat ≤ addr) :
    ¬ s.PutsWithin x y argb := by
  let other : Mem := fun _ => bytes[0] + 1
  have hfirst : putpx s x y argb other addr = bytes[0] := by
    rw [hput]
    exact store_inside other addr bytes hlen
  have hchanged : putpx s x y argb other addr ≠ other addr := by
    rw [hfirst]
    intro heq
    have := congrArg (· - bytes[0]) heq
    simp [other] at this
  rintro (hsame | ⟨addr', bytes', hput', -, -, hend⟩)
  · exact hchanged (congrFun (hsame other) addr)
  · rw [hput'] at hchanged
    exact hchanged (store_outside other addr' bytes' (by omega))

/-- A framebuffer narrower than the text. -/
def narrowFramebuffer : CbFramebuffer :=
  { sampleFramebuffer with xResolution := 320, yResolution := 200, bytesPerLine := 1280 }

/-- The screen that `tm_init` makes of it. -/
def narrowScreen (cache : Vector UInt32 16) (masks : Masks) : Screen :=
  ⟨0xe0000000, 320, 200, 1280, 32, -160, -100, cache, masks⟩

/-- Columns 56 and 57 of row -1 of `tm_buf` hold `fb_w`. -/
theorem scrolled_narrow {t : Text} {cache : Vector UInt32 16} {masks : Masks}
    (hscreen : t.screen = narrowScreen cache masks) :
    let s := (compiledLayout.scrolled (twoLinesRegs 1 56 57) t).screen
    s.fbPtr = 0xe0000000 ∧ s.fbW = 0x01200120 ∧ s.fbH = 200 ∧ s.fbPitch = 1280 ∧ s.fbBpp = 32 ∧
      s.originX = -160 ∧ s.originY = -100 := by
  simp only [Layout.scrolled, Layout.overwrite, hscreen, narrowScreen]
  decide +kernel

/-- Pixel 320 of scanline 12, the first one right of the framebuffer. -/
theorem putpx_narrow {s : Screen} (hptr : s.fbPtr = 0xe0000000) (hw : s.fbW = 0x01200120)
    (hh : s.fbH = 200) (hpitch : s.fbPitch = 1280) (hbpp : s.fbBpp = 32) (argb : UInt32) :
    ¬ s.PutsWithin 320 12 argb := by
  have haddr : ((0xe0000000 : UInt32) + UInt32.ofInt 12 * 1280 + UInt32.ofInt 320 * 4).toNat =
      0xe0004100 := by decide
  have hput : ∀ fb, putpx s 320 12 argb fb = store fb 0xe0004100 (leBytes 4 argb.toNat) := by
    intro fb
    rw [putpx, hptr, hw, hh, hpitch, hbpp, if_neg (by decide), if_pos rfl, haddr]
  refine not_putsWithin hput (by simp) ?_
  rw [hptr, hpitch]
  decide

/-- A call of AH = 06h makes `fb_w` 0x01200120, and then the columns right of the framebuffer
are drawn as well. -/
theorem text_drawing_strays : ∃ st' t u pixels, ∃ p ∈ pixels,
    setupFramebuffer blankState narrowFramebuffer = some st' ∧
      compiledLayout.textCalls blankFont st' blankText [.init blankMachine.emul, .enable] =
        some t ∧
      compiledLayout.textCall blankFont st' t (.int10 ⟨twoLinesRegs 1 56 57, fun _ _ => 0⟩) =
        some u ∧
      u.screen.fbW = 0x01200120 ∧ u.fb = paint u.screen pixels t.fb ∧
      ¬ u.screen.PutsWithin p.x p.y p.argb := by
  obtain ⟨st', hsetup, -⟩ := accepted_setup blankState narrowFramebuffer (by decide)
  have hget := cbvgaGetFb_accepted (by decide) hsetup
  rw [if_pos (by unfold Offered; decide)] at hget
  have hscreen : ∃ cache masks,
      (tmInit st' blankMachine.emul blankText).2.screen = narrowScreen cache masks := by
    unfold tmInit
    rw [hget]
    exact ⟨_, _, rfl⟩
  obtain ⟨cache, masks, hscreen⟩ := hscreen
  have henable := tmEnable_eq blankFont (tmInit st' blankMachine.emul blankText).2
  rw [← enabled_screen blankFont] at hscreen
  have hactive : (Text.enabled blankFont (tmInit st' blankMachine.emul blankText).2).active =
    true := rfl
  generalize Text.enabled blankFont (tmInit st' blankMachine.emul blankText).2 = t
    at hscreen henable hactive
  have hcall := layout_scroll compiledLayout blankFont (fun _ _ => 0) hactive
    (show service (twoLinesRegs 1 56 57).ah = some .scrollUp from rfl)
  have hfb : (compiledLayout.scrolled (twoLinesRegs 1 56 57) t).fb = t.fb := rfl
  obtain ⟨hptr, hw, hh, hpitch, hbpp, hx, hy⟩ := scrolled_narrow hscreen
  generalize compiledLayout.scrolled (twoLinesRegs 1 56 57) t = v at *
  obtain ⟨p, hp, hplace⟩ := cellPixels_hit blankFont v.screen (v.buf (7, 60)) 7 60
    (show InGlyph 0 0 by decide)
  rw [Screen.pixelOf, Prod.mk.injEq, hx, hy] at hplace
  obtain ⟨hpx, hpy⟩ := hplace
  refine ⟨st', t, redraw blankFont v, screenPixels blankFont v, p, ?_, hsetup, ?_, ?_, hw, ?_, ?_⟩
  · refine List.mem_append_left _ (List.mem_flatMap.mpr ⟨(7, 60), ?_, hp⟩)
    rw [mem_grid]
    decide
  · change (tmEnable blankFont (tmInit st' blankMachine.emul blankText).2).bind some = some t
    rw [henable]
    rfl
  · rw [Layout.textCall, hcall]
    rfl
  · rw [redraw, hfb]
  · rw [hpx, hpy]
    exact putpx_narrow hptr hw hh hpitch hbpp p.argb

/-- The bytes that a row of pixels leaves to each, which is all that `tm_init` looks at. -/
def bytesPerPixel (fb : CbFramebuffer) : Nat :=
  fb.bytesPerLine.toNat / (fb.xResolution.toNat % 65536)

/-- The records for which the bytes per pixel tell the depth. -/
def DepthTold (fb : CbFramebuffer) : Prop :=
  effBpp fb = 16 ∧ bytesPerPixel fb = 2 ∨ effBpp fb = 24 ∧ bytesPerPixel fb = 3 ∨
    effBpp fb = 32 ∧ bytesPerPixel fb ≠ 2 ∧ bytesPerPixel fb ≠ 3

/-- **The depth of text is that of the mode**, where there is a framebuffer to draw text on
at all, just for the records whose bytes per pixel tell the depth. -/
theorem text_depth_iff {fb : CbFramebuffer} (hv : validFramebuffer fb = true) {st st' : State}
    (hsetup : setupFramebuffer st fb = some st') (e : Emul) (t : Text) :
    (∀ info, cbvgaGetFb st' = some info →
      (tmInit st' e t).2.screen.fbBpp = st'.cbModeinfo.depth.toNat) ↔
      (Offered fb → DepthTold fb) := by
  have hget := cbvgaGetFb_accepted hv hsetup
  have hdepth : st'.cbModeinfo.depth = effBpp fb := by
    obtain ⟨st'', hsetup', -, hinfo, -⟩ := accepted_setup st fb hv
    obtain rfl : st' = st'' := Option.some.inj (hsetup.symm.trans hsetup')
    rw [hinfo]
  have hbpp := (valid_facts hv).2.1
  by_cases hoffered : Offered fb
  · rw [if_pos hoffered] at hget
    obtain ⟨-, -, -, -, hderived⟩ := tmInit_screen hget e t
    have hquot : fb.bytesPerLine.toNat / fb.xResolution.toUInt16.toUInt32.toNat =
        bytesPerPixel fb := by
      rw [UInt16.toNat_toUInt32, UInt32.toNat_toUInt16]
      rfl
    rw [deriveBpp_toNat, hquot] at hderived
    rw [hderived, hdepth]
    unfold DepthTold
    simp only [hget, hoffered, true_imp_iff, Option.some.injEq, forall_eq']
    rcases hbpp with h | h | h
    all_goals
      rw [h]
      split
      · simp_all
      · split <;> simp_all
  · rw [if_neg hoffered] at hget
    simp [hget, hoffered]

theorem text_depth_sample : ∃ st', setupFramebuffer blankState sampleFramebuffer = some st' ∧
    ∀ e t, (∀ info, cbvgaGetFb st' = some info →
      (tmInit st' e t).2.screen.fbBpp = st'.cbModeinfo.depth.toNat) := by
  obtain ⟨st', hsetup, -⟩ := accepted_setup blankState sampleFramebuffer (by decide)
  exact ⟨st', hsetup, fun e t => (text_depth_iff (by decide) hsetup e t).mpr fun _ =>
    .inr (.inr (by decide))⟩

/-- Pixels of 24 bits that are padded to four bytes: `cbvga_setup` keeps 24 and
`tm_init` takes 32. -/
theorem text_depth_padded : ∃ st',
    setupFramebuffer blankState { sampleFramebuffer with bitsPerPixel := 24 } = some st' ∧
      st'.cbModeinfo.depth = 24 ∧
      (tmInit st' blankMachine.emul blankText).2.screen.fbBpp = 32 := by
  obtain ⟨st', hsetup, -, hinfo, -⟩ := accepted_setup blankState
    { sampleFramebuffer with bitsPerPixel := 24 } (by decide)
  have hget := cbvgaGetFb_accepted (by decide) hsetup
  rw [if_pos (by unfold Offered; decide)] at hget
  obtain ⟨-, -, -, -, hderived⟩ := tmInit_screen hget blankMachine.emul blankText
  refine ⟨st', hsetup, by rw [hinfo]; rfl, hderived.trans (by decide)⟩

end CsmWrap.Vga
