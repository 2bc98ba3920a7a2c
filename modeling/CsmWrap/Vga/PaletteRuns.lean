import CsmWrap.Vga.TextMode

/-!
# The two palettes over whole runs

The DAC `cbvga_palette` and the colours `cbvga_palette_argb` that are looked up from
it, from `cbvga_setup` on. `rebuild_argb_table` makes the second table a copy of the
first one, and every call that changes the DAC ends with it. `cbvga_setup` does not:
it stores sixteen colours of its own, so that the tables differ until something is
stored into the DAC.
-/

namespace CsmWrap.Vga
open Coreboot Memory

/-- What `cbvga_setup` does to the emulator. -/
def emulCbvgaSetup (mem : Mem) (haveRunInit : Bool) (e : Emul) : Emul :=
  if haveRunInit then e
  else
    let cbh := findCbTable mem
    if cbh = 0 then e
    else
      let cbfb := findCbSubtable mem cbh cbTagFramebuffer
      if cbfb = 0 then e else emulSetupFramebuffer e (framebufferAt mem cbfb)

/-- `cbvga_setup` with both parts of the state. -/
def Machine.cbvgaSetup (mem : Mem) (haveRunInit : Bool) (m : Machine) : Option (Int × Machine) :=
  (Vga.cbvgaSetup mem haveRunInit m.cb).map fun (ret, cb) =>
    (ret, { m with cb := cb, emul := emulCbvgaSetup mem haveRunInit m.emul })

/-- Both parts of the state are set up for the framebuffer that csmwrap described. -/
theorem Machine.cbvgaSetup_build (mem : Mem) {videoType : VideoType} (hv : videoType ≠ .oprom)
    (fb : CbFramebuffer)
    (hlow : ∀ addr < cbTableStart, addr % 16 = 0 →
      accepted (buildCorebootTable mem videoType fb) addr = false) (m : Machine) :
    m.cbvgaSetup (buildCorebootTable mem videoType fb) false =
      (m.setupFramebuffer fb).map fun m => (0, m) := by
  obtain ⟨htable, -, hrecord⟩ := findCbTable_build mem hv fb hlow
  have hemul : emulCbvgaSetup (buildCorebootTable mem videoType fb) false m.emul =
      emulSetupFramebuffer m.emul fb := by
    unfold emulCbvgaSetup
    simp only [htable, hrecord, framebufferAt_build mem hv]
    rfl
  unfold Machine.cbvgaSetup Machine.setupFramebuffer
  rw [Vga.cbvgaSetup_build mem hv fb hlow, hemul, Option.map_map, Option.map_map]
  rfl

/-- The calls that have to do with the palette. -/
inductive PaletteCall where
  /-- `cbvga_emul_set_palette`. -/
  | setPalette (start : Nat) (count : Int) (data : Nat → UInt8)
  /-- `cbvga_palette_set_entries`. -/
  | setEntries (entries : Option (Nat → UInt8)) (count : Int)
  /-- `cbvga_emul_set_mode`. -/
  | emulSetMode (vmode : FarMode) (flags : UInt32)
  /-- `cbvga_set_mode`. -/
  | setMode (vmode : VgaMode) (flags : UInt32)
  /-- `tm_init`, with the text emulator as it is then. -/
  | tmInit (t : Text)

def PaletteCall.emul (m : Machine) : PaletteCall → Emul
  | .setPalette start count data => cbvgaEmulSetPalette m.emul start count data
  | .setEntries entries count => cbvgaPaletteSetEntries m.emul entries count
  | .emulSetMode vmode flags => cbvgaEmulSetMode m.emul m.info vmode flags
  | .setMode vmode flags => cbvgaSetMode m.cb m.emul m.info m.low vmode flags
  | .tmInit t => (Vga.tmInit m.cb m.emul t).1

def paletteCalls (m : Machine) (calls : List PaletteCall) : Machine :=
  calls.foldl (fun m call => { m with emul := call.emul m }) m

/-- The calls that rebuild the table of colours. -/
def PaletteCall.Rebuilds (st : State) : PaletteCall → Prop
  | .setPalette .. => True
  | .setEntries .. => True
  | .emulSetMode _ flags => flags &&& mfGraysum ≠ 0
  | .setMode _ flags => flags &&& mfGraysum ≠ 0
  | .tmInit _ => cbvgaGetFb st ≠ none

/-- Each colour is that of its entry in the DAC. -/
def TablesAgree (e : Emul) : Prop := ∀ i (hi : i < 256), e.argb[i] = packDac e.palette[i]

/-- Storing entries changes no colour but theirs. -/
def OthersKept (e : Emul) : Prop := ∀ (start : Nat) (count : Int) data (i : Nat) (hi : i < 256),
  ¬ (start ≤ i ∧ (i : Int) < start + count) →
    (cbvgaEmulSetPalette e start count data).argb[i] = e.argb[i]

/-- The two tables are the same. -/
def SameTables (e e' : Emul) : Prop := e.palette = e'.palette ∧ e.argb = e'.argb

theorem SameTables.agree {e e' : Emul} (h : SameTables e e') (he : TablesAgree e') :
    TablesAgree e := by
  intro i hi
  simp only [h.1, h.2]
  exact he i hi

theorem agree_rebuildArgbTable (e : Emul) : TablesAgree (rebuildArgbTable e) := by
  intro i hi
  simp only [rebuildArgbTable, Vector.getElem_map]

theorem argb_cbvgaEmulSetPalette (e : Emul) (start : Nat) (count : Int) (data : Nat → UInt8)
    {i : Nat} (hi : i < 256) :
    (cbvgaEmulSetPalette e start count data).argb[i] =
      if start ≤ i ∧ (i : Int) < start + count then packDac (rgbAt data (i - start))
      else packDac e.palette[i] := by
  have hiff : start + 0 ≤ i ∧ i < start + 0 + count.toNat ↔
      start ≤ i ∧ (i : Int) < start + count := by omega
  simp only [cbvgaEmulSetPalette, rebuildArgbTable, Vector.getElem_map, getElem_storeRgb, hiff]
  split <;> rfl

theorem packDac_ne_zero (c : Rgb) : packDac c ≠ 0 := by
  intro hzero
  have hbit := congrArg (fun argb => argb.toBitVec.getLsbD 31) hzero
  simp [packDac] at hbit

/-- With tables that agree, the colours of the other entries are recomputed as they were;
and the colours are kept only where the tables agree already. -/
theorem othersKept_iff (e : Emul) : OthersKept e ↔ TablesAgree e := by
  constructor
  · intro hkept i hi
    have hsame := hkept 0 0 (fun _ => 0) i hi (by omega)
    rw [argb_cbvgaEmulSetPalette, if_neg (by omega)] at hsame
    exact hsame.symm
  · intro hagree start count data i hi hout
    rw [argb_cbvgaEmulSetPalette, if_neg hout, hagree i hi]

theorem SameTables.trans {e e' e'' : Emul} (h : SameTables e e') (h' : SameTables e' e'') :
    SameTables e e'' := ⟨h.1.trans h'.1, h.2.trans h'.2⟩

theorem sameTables_cbvgaEmulSetMode (e : Emul) (info : NearInfo) (vmode : FarMode)
    (flags : UInt32) :
    SameTables (cbvgaEmulSetMode e info vmode flags) (initGrayscale e flags) := by
  unfold cbvgaEmulSetMode initGrayscale
  split <;> simp only [cbvgaEmulSetMasks, rebuildArgbTable, SameTables, and_self]

theorem sameTables_cbvgaSetMode (st : State) (e : Emul) (info : NearInfo) (low : FarMode)
    (vmode : VgaMode) (flags : UInt32) :
    SameTables (cbvgaSetMode st e info low vmode flags) (initGrayscale e flags) := by
  unfold cbvgaSetMode
  split
  · exact sameTables_cbvgaEmulSetMode ..
  · refine (sameTables_cbvgaEmulSetMode ..).trans ?_
    unfold initGrayscale
    split <;> simp only [cbvgaEmulSetupModes, rebuildArgbTable, SameTables, and_self]

theorem agree_initGrayscale (e : Emul) {flags : UInt32} (h : flags &&& mfGraysum ≠ 0) :
    TablesAgree (initGrayscale e flags) := by
  rw [initGrayscale, if_pos h]
  exact agree_rebuildArgbTable _

theorem initGrayscale_of_not (e : Emul) {flags : UInt32} (h : ¬ flags &&& mfGraysum ≠ 0) :
    initGrayscale e flags = e := if_neg h

/-- A call that rebuilds the table makes the tables agree, whatever they were. -/
theorem agree_call {m : Machine} {call : PaletteCall} (h : call.Rebuilds m.cb) :
    TablesAgree (call.emul m) := by
  cases call with
  | setPalette start count data => exact agree_rebuildArgbTable _
  | setEntries entries count =>
    cases entries with
    | none => exact agree_rebuildArgbTable _
    | some src => exact agree_rebuildArgbTable _
  | emulSetMode vmode flags =>
    exact (sameTables_cbvgaEmulSetMode ..).agree (agree_initGrayscale _ h)
  | setMode vmode flags =>
    exact (sameTables_cbvgaSetMode ..).agree (agree_initGrayscale _ h)
  | tmInit t =>
    obtain ⟨info, hinfo⟩ := Option.ne_none_iff_exists'.mp h
    simp only [PaletteCall.emul, tmInit, hinfo]
    exact agree_rebuildArgbTable _

/-- The other calls leave both tables alone. -/
theorem sameTables_call {m : Machine} {call : PaletteCall} (h : ¬ call.Rebuilds m.cb) :
    SameTables (call.emul m) m.emul := by
  cases call with
  | setPalette start count data => exact absurd trivial h
  | setEntries entries count => exact absurd trivial h
  | emulSetMode vmode flags =>
    have hsame := sameTables_cbvgaEmulSetMode m.emul m.info vmode flags
    rw [initGrayscale_of_not _ h] at hsame
    exact hsame
  | setMode vmode flags =>
    have hsame := sameTables_cbvgaSetMode m.cb m.emul m.info m.low vmode flags
    rw [initGrayscale_of_not _ h] at hsame
    exact hsame
  | tmInit t =>
    have hnone : cbvgaGetFb m.cb = none := not_not.mp h
    simp only [PaletteCall.emul, tmInit, hnone]
    exact ⟨rfl, rfl⟩

theorem paletteCalls_cons (m : Machine) (call : PaletteCall) (calls : List PaletteCall) :
    paletteCalls m (call :: calls) = paletteCalls { m with emul := call.emul m } calls := rfl

/-- Once the tables agree, they do so for ever. -/
theorem agree_paletteCalls {m : Machine} (h : TablesAgree m.emul) (calls : List PaletteCall) :
    TablesAgree (paletteCalls m calls).emul := by
  induction calls generalizing m with
  | nil => exact h
  | cons call calls ih =>
    rw [paletteCalls_cons]
    apply ih
    by_cases hrebuilds : call.Rebuilds m.cb
    · exact agree_call hrebuilds
    · exact (sameTables_call hrebuilds).agree h

/-- A run from tables that differ ends with tables that agree if and only if a call of
the run rebuilds the table. -/
theorem agree_paletteCalls_iff {m : Machine} (h : ¬ TablesAgree m.emul)
    (calls : List PaletteCall) :
    TablesAgree (paletteCalls m calls).emul ↔ ∃ call ∈ calls, call.Rebuilds m.cb := by
  induction calls generalizing m with
  | nil => simpa [paletteCalls] using h
  | cons call calls ih =>
    rw [paletteCalls_cons, List.exists_mem_cons_iff]
    by_cases hrebuilds : call.Rebuilds m.cb
    · exact iff_of_true (agree_paletteCalls (agree_call hrebuilds) calls) (.inl hrebuilds)
    · have hsame := sameTables_call hrebuilds
      have hdiffer : ¬ TablesAgree (call.emul m) := fun hagree =>
        h (SameTables.agree ⟨hsame.1.symm, hsame.2.symm⟩ hagree)
      rw [ih hdiffer, or_iff_right hrebuilds]

/-! ## From `cbvga_setup` on -/

/-- The tables before anything is stored into them. -/
def TablesBlank (e : Emul) : Prop :=
  e.palette = Vector.replicate 256 ⟨0, 0, 0⟩ ∧ e.argb = Vector.replicate 256 0

theorem argb_emulSetupFramebuffer (e : Emul) (fb : CbFramebuffer) {i : Nat} (hi : i < 256)
    (h16 : 16 ≤ i) : (emulSetupFramebuffer e fb).argb[i] = e.argb[i] := by
  unfold emulSetupFramebuffer
  split
  · simp only [cbvgaInitTextPalette, Vector.getElem_ofFn]
    rw [dif_neg (by omega)]
    rfl
  · rfl

/-- The setup stores at most the first sixteen colours. -/
theorem argb_emulCbvgaSetup (mem : Mem) (haveRunInit : Bool) (e : Emul) {i : Nat} (hi : i < 256)
    (h16 : 16 ≤ i) : (emulCbvgaSetup mem haveRunInit e).argb[i] = e.argb[i] := by
  unfold emulCbvgaSetup
  split
  · rfl
  · dsimp only
    split
    · rfl
    · split
      · rfl
      · exact argb_emulSetupFramebuffer e _ hi h16

theorem differ_emulCbvgaSetup (mem : Mem) (haveRunInit : Bool) {e : Emul} (h : TablesBlank e) :
    ¬ TablesAgree (emulCbvgaSetup mem haveRunInit e) := by
  intro hagree
  have hlast := hagree 255 (by decide)
  rw [argb_emulCbvgaSetup mem haveRunInit e (by decide) (by decide)] at hlast
  simp only [h.2, Vector.getElem_replicate] at hlast
  exact packDac_ne_zero _ hlast.symm

/-- From `cbvga_setup` on, the tables agree, and entries that are stored leave the other
colours alone, from the first call that rebuilds the table, and not before. -/
theorem palettes_agree_iff {m : Machine} (hblank : TablesBlank m.emul) {mem : Mem}
    {haveRunInit : Bool} {ret : Int} {m₀ : Machine}
    (hsetup : m.cbvgaSetup mem haveRunInit = some (ret, m₀)) (calls : List PaletteCall) :
    (TablesAgree (paletteCalls m₀ calls).emul ↔ ∃ call ∈ calls, call.Rebuilds m₀.cb) ∧
      (OthersKept (paletteCalls m₀ calls).emul ↔ ∃ call ∈ calls, call.Rebuilds m₀.cb) := by
  have hdiffer : ¬ TablesAgree m₀.emul := by
    obtain ⟨r, -, hr⟩ := Option.map_eq_some_iff.mp hsetup
    cases hr
    exact differ_emulCbvgaSetup mem haveRunInit hblank
  rw [othersKept_iff]
  exact ⟨agree_paletteCalls_iff hdiffer calls, agree_paletteCalls_iff hdiffer calls⟩

/-- Memory that was all zero, with the table for a framebuffer of 1024 by 768 pixels. -/
def sampleMemory : Mem := buildCorebootTable (fun _ => 0) .seavgabios sampleFramebuffer

theorem cbvgaSetup_sample : ∃ m₀, blankMachine.cbvgaSetup sampleMemory false = some (0, m₀) ∧
    m₀.emul = emulSetupFramebuffer blankMachine.emul sampleFramebuffer := by
  have hsome : (setupFramebuffer blankState sampleFramebuffer).isSome = true := by decide +kernel
  obtain ⟨cb, hcb⟩ := Option.isSome_iff_exists.mp hsome
  unfold sampleMemory
  rw [Machine.cbvgaSetup_build _ (by decide) _ (accepted_build_empty sampleFramebuffer),
    Machine.setupFramebuffer]
  change ∃ m₀, ((setupFramebuffer blankState sampleFramebuffer).map _).map _ = _ ∧ _
  rw [hcb]
  exact ⟨_, rfl, rfl⟩

theorem palettes_agree_sample : ∃ m₀,
    blankMachine.cbvgaSetup sampleMemory false = some (0, m₀) ∧ ∀ calls,
      (TablesAgree (paletteCalls m₀ calls).emul ↔ ∃ call ∈ calls, call.Rebuilds m₀.cb) ∧
      (OthersKept (paletteCalls m₀ calls).emul ↔ ∃ call ∈ calls, call.Rebuilds m₀.cb) := by
  obtain ⟨m₀, hsetup, -⟩ := cbvgaSetup_sample
  exact ⟨m₀, hsetup, palettes_agree_iff ⟨rfl, rfl⟩ hsetup⟩

/-- Right after the setup colour 1 is not that of its black entry, colour 16 is not even
opaque, and storing black into entry 0 changes colour 1. -/
theorem palettes_agree_setup : ∃ m₀,
    blankMachine.cbvgaSetup sampleMemory false = some (0, m₀) ∧
      m₀.emul.argb[1] = 0xff800000 ∧ packDac m₀.emul.palette[1] = 0xff000000 ∧
      m₀.emul.argb[16] = 0 ∧ packDac m₀.emul.palette[16] = 0xff000000 ∧
      (cbvgaEmulSetPalette m₀.emul 0 1 (fun _ => 0)).argb[1] = 0xff000000 := by
  obtain ⟨m₀, hsetup, hemul⟩ := cbvgaSetup_sample
  refine ⟨m₀, hsetup, ?_⟩
  rw [hemul]
  decide +kernel

end CsmWrap.Vga
