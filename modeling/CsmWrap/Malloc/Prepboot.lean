import CsmWrap.Boot.Int15
import CsmWrap.Malloc.Handoff

/-!
# The end of POST

`malloc_prepboot` clears what is left of the option ROM area and of the F segment, and
corrects the E820 map; `startBoot` then clears the low memory of the PMM. Blocks that
are meant to stay, and ROMs, keep their contents.
-/

namespace CsmWrap.Malloc
open Arena Memory
open E820 (e820Ram e820Reserved)

def buildLowramEnd : UInt32 := 0xa0000
def buildBiosAddr : UInt32 := 0xf0000
def buildStackAddr : UInt32 := 0x7000
def buildEbdaMinimum : UInt32 := 0x90000
def pageSize : UInt32 := 4096

/-- The address of `mem_size_kb` in the BIOS data area. -/
def memSizeKbAddr : Nat := 0x413

/-- The option ROM area: what is left of it is cleared, and a header is put before the
memory in use above it. -/
def prepareRoms (mem : Mem) (p : Post) : Mem :=
  let base := romGetMax p
  let mem := clear mem p.romEnd.toNat (base - p.romEnd).toNat
  let mem := store mem base.toNat (leBytes 2 0xaa55)
  let size := (buildBiosAddr - base) / 512
  store mem (base.toNat + 2) [if size > 255 then 255 else size.toUInt8]

/-- The F segment. The source does not ask whether the zone has a node. -/
def clearFSeg (mem : Mem) (h : Heap) : Mem :=
  match allocFindLowest h .fSeg with
  | none => mem
  | some info => clear mem info.rangeStart.toNat (info.rangeEnd - info.rangeStart).toNat

/-- The part of `ZoneHigh` that is given back. -/
def giveback (info : AllocInfo) : UInt32 := alignDown (info.rangeEnd - info.rangeStart) pageSize

/-- The last entries of the map: low memory above `mem_size_kb` is reserved, and unused
memory of `ZoneHigh` given back. -/
def prepareMap (h : Heap) (memSizeKb : UInt16) (t : E820.Table) : E820.Table :=
  let endlow := memSizeKb.toUInt32 * 1024
  let t := E820.e820Add E820.seabios t endlow.toUInt64 (buildLowramEnd - endlow).toUInt64
    e820Reserved
  match allocFindLowest h .high with
  | none => t
  | some info =>
    E820.e820Add E820.seabios t info.rangeStart.toUInt64 (giveback info).toUInt64 e820Ram

/-- `malloc_prepboot`, with the memory it leaves and `LegacyRamSize`. -/
def mallocPrepboot (mem : Mem) (p : Post) : Mem × Post × UInt32 :=
  let mem := prepareRoms mem p
  let e820 := prepareMap p.heap (read16 mem memSizeKbAddr) p.e820
  (clearFSeg mem p.heap, { p with e820 }, Boot.calcRamSize e820.entries)

/-- `startBoot`, up to the call of INT 19h. -/
def startBoot (mem : Mem) : Mem :=
  clear mem buildStackAddr.toNat (buildEbdaMinimum - buildStackAddr).toNat

variable {S : Symbols} {E : Zone → List (Nat × Nat)} {lo : UInt32} {w : World}

/-- The lowest node of a zone uses nothing, so that all of it is free. -/
theorem Sound.lowest {h : Heap} (hs : Sound E h) {z : Zone} {info : AllocInfo}
    (hinfo : allocFindLowest h z = some info) :
    info ∈ h.zone z ∧ info.allocSize = 0 ∧ info.rangeStart.toNat ≤ info.rangeEnd.toNat ∧
      ∃ e ∈ E z, e.1 ≤ info.rangeStart.toNat ∧ info.rangeEnd.toNat ≤ e.2 := by
  have hmem : info ∈ h.zone z := List.mem_of_getLast? hinfo
  have hview : info.chunk ∈ view (h.zone z) := List.mem_map_of_mem hmem
  have hused : info.allocSize.toNat = 0 := by
    refine (hs.tiled.fills z).last_used info.chunk ?_
    rw [view, List.getLast?_map]
    exact congrArg (Option.map AllocInfo.chunk) hinfo
  have hle := (hs.tiled.fills z).used_le _ hview
  exact ⟨hmem, UInt32.toNat_inj.mp hused, Nat.le_of_add_right_le hle,
    (hs.tiled.fills z).mem_range _ hview⟩

theorem Sound.lowest_apart {h : Heap} (hs : Sound E h) {z z' : Zone} {info : AllocInfo}
    (hinfo : allocFindLowest h z = some info) {s : Stub} (hst : s ∈ h.stubs z') (h0 : s.2.2 ≠ 0) :
    Apart (s.2.1.toNat, s.2.1.toNat + s.2.2.toNat)
      (info.rangeStart.toNat, info.rangeEnd.toNat) := by
  obtain ⟨hmem, hused, -, -⟩ := hs.lowest hinfo
  obtain ⟨c, hc, -, hclo, hcu, hcle⟩ := hs.tiled.chunk hst
  have hne : c ≠ info.chunk := by
    rintro rfl
    apply h0
    apply UInt32.toNat_inj.mp
    rw [← hcu]
    exact congrArg UInt32.toNat hused
  have hap := hs.tiled.layout.span_apart hs.tiled.fills hc
    (List.mem_map_of_mem hmem : info.chunk ∈ view (h.zone z)) (.inr hne)
  refine hap.mono ⟨hclo.le, ?_⟩ ⟨Nat.le_refl _, Nat.le_refl _⟩
  rw [← hclo, ← hcu]
  exact hcle

theorem InPost.lowest_apart (hin : InPost S E lo w) {z : Zone} {info : AllocInfo}
    (hinfo : allocFindLowest w.post.heap z = some info) {b : Block} (hb : b ∈ w.books) :
    Apart b.range (info.rangeStart.toNat, info.rangeEnd.toNat) := by
  obtain ⟨h0, -, d, hd, -⟩ := hin.books.live b hb
  exact hin.sound.lowest_apart hinfo hd h0

theorem InPost.base_sub (hin : InPost S E lo w) :
    (romGetMax w.post - w.post.romEnd).toNat =
      (romGetMax w.post).toNat - w.post.romEnd.toNat :=
  UInt32.toNat_sub_of_le _ _ (UInt32.le_iff_toNat_le.mpr hin.romEnd_le)

theorem InPost.prepareRoms_outside (hin : InPost S E lo w) (mem : Mem) {x : Nat}
    (hx : x < w.post.romEnd.toNat ∨ (romGetMax w.post).toNat + 16 ≤ x) :
    prepareRoms mem w.post x = mem x := by
  have hle := hin.romEnd_le
  unfold prepareRoms
  rw [store_outside _ _ _ (by simp only [List.length_singleton]; omega),
    store_outside _ _ _ (by simp only [length_leBytes]; omega),
    clear_outside _ (by rw [hin.base_sub]; omega)]

theorem InPost.prepareRoms_inside (hin : InPost S E lo w) (mem : Mem) {x : Nat}
    (hlo : w.post.romEnd.toNat ≤ x) (hhi : x < (romGetMax w.post).toNat) :
    prepareRoms mem w.post x = 0 := by
  unfold prepareRoms
  rw [store_outside _ _ _ (by omega), store_outside _ _ _ (by omega),
    clear_inside _ hlo (by rw [hin.base_sub]; omega)]

/-- Clearing the free part of the F segment leaves all else. -/
theorem InPost.clearFSeg_outside (hin : InPost S E lo w) (mem : Mem) {x : Nat}
    (hx : ∀ info, allocFindLowest w.post.heap .fSeg = some info →
      x < info.rangeStart.toNat ∨ info.rangeEnd.toNat ≤ x) :
    clearFSeg mem w.post.heap x = mem x := by
  unfold clearFSeg
  cases hinfo : allocFindLowest w.post.heap .fSeg with
  | none => rfl
  | some info =>
    obtain ⟨-, -, hle, -⟩ := hin.sound.lowest hinfo
    have hout := hx info hinfo
    refine clear_outside _ ?_
    rw [UInt32.toNat_sub_of_le _ _ (UInt32.le_iff_toNat_le.mpr hle)]
    omega

/-- The F segment lies above the option ROM area. -/
theorem InPost.clearFSeg_below (hin : InPost S E lo w) {hi : HiPmm}
    (hE : ∀ z, ∀ e ∈ E z, e = zoneHome S hi z) (mem : Mem) {x : Nat}
    (hx : x < S.zonefsegStart.toNat) : clearFSeg mem w.post.heap x = mem x := by
  refine hin.clearFSeg_outside mem fun info hinfo => .inl ?_
  obtain ⟨-, -, -, e, he, hlo, -⟩ := hin.sound.lowest hinfo
  have hhome : S.zonefsegStart.toNat ≤ e.1 := (hin.in_home hE he).1
  omega

theorem startBoot_eq (mem : Mem) (x : Nat) :
    startBoot mem x = if 0x7000 ≤ x ∧ x < 0x90000 then 0 else mem x := by
  have hstart : buildStackAddr.toNat = 0x7000 := rfl
  have hsize : (buildEbdaMinimum - buildStackAddr).toNat = 0x89000 := rfl
  unfold startBoot
  rw [hstart, hsize]
  split_ifs with h
  · exact clear_inside _ h.1 (by omega)
  · exact clear_outside _ (by omega)

/-- It is the low temporary zone that `startBoot` clears. -/
theorem cleared_iff {hi : HiPmm} {z : Zone} {a : Nat} (hlo : (zoneHome S hi z).1 ≤ a)
    (hhi : a < (zoneHome S hi z).2) : (0x7000 ≤ a ∧ a < 0x90000) ↔ z = .tmpLow := by
  have hrom := S.rom_le_zonelow
  have hlow := S.zonelow_lt
  have hvar := S.varlow_lt
  have habove := hi.above
  cases z <;> simp only [zoneHome] at hlo hhi <;> simp <;> omega

/-- When the boot begins, temporary blocks in low memory are cleared, as the PMM promises,
and all other blocks and the ROMs have the contents that they had. -/
theorem boot_keeps_blocks {arch : Arch} {hi : HiPmm} {code : InitCode} {e820 : E820.Table}
    (hw : started S (initCalls arch hi code) e820 = some w) {events : List Event}
    (he : ∀ e ∈ events, e.Proper) (mem : Mem) :
    (∀ b ∈ (w.after S events).books, ∀ a, b.range.1 ≤ a → a < b.range.2 →
      startBoot (mallocPrepboot mem (w.after S events).post).1 a =
        if b.zone = .tmpLow then 0 else mem a) ∧
    (∀ r ∈ (w.after S events).roms, ∀ a, r.1 ≤ a → a < r.2 →
      startBoot (mallocPrepboot mem (w.after S events).post).1 a = mem a) ∧
    ∀ a, (w.after S events).post.romEnd.toNat ≤ a → a < (romGetMax (w.after S events).post).toNat →
      startBoot (mallocPrepboot mem (w.after S events).post).1 a = 0 := by
  obtain ⟨E, lo, hin, hE⟩ := started_home hw
  obtain ⟨lo, hin⟩ := hin.after he
  generalize w.after S events = w at hin ⊢
  have hmem : (mallocPrepboot mem w.post).1 = clearFSeg (prepareRoms mem w.post) w.post.heap := rfl
  have hrom := hin.rom_start
  have hle := hin.romEnd_le
  have hmax : (romGetMax w.post).toNat + 16 ≤ S.finalVarlowStart.toNat := by
    obtain ⟨init, b, -, -, -, hlo, hhi, -, hmax⟩ := hin.romGetMax_spec
    have hbelow := hin.roms_below
    omega
  have hseg := S.varlow_lt
  rw [hmem]
  refine ⟨fun b hb a h1 h2 => ?_, fun r hr a h1 h2 => ?_, fun a h1 h2 => ?_⟩
  · have hkeep : clearFSeg (prepareRoms mem w.post) w.post.heap a = mem a := by
      have haprom := hin.block_apart_roms hb
      rw [hin.clearFSeg_outside, hin.prepareRoms_outside]
      · simp only [Apart] at haprom
        omega
      · intro info hinfo
        have hap := hin.lowest_apart hinfo hb
        simp only [Apart] at hap
        omega
    obtain ⟨h3, h4⟩ := hin.block_in_home hE hb
    rw [startBoot_eq, hkeep]
    exact if_congr (cleared_iff (h3.trans h1) (h2.trans_le h4)) rfl rfl
  · have hin' := hin.roms r hr
    rw [startBoot_eq, if_neg (by omega), hin.clearFSeg_below hE _ (by omega),
      hin.prepareRoms_outside _ (by omega)]
  · rw [startBoot_eq, if_neg (by omega), hin.clearFSeg_below hE _ (by omega),
      hin.prepareRoms_inside _ h1 h2]

theorem boot_keeps_blocks_sample :
    startBoot (mallocPrepboot (fun _ => 7)
      (sampleHandoff.after sampleSymbols sampleEvents).post).1 0xe7ec0 = 7 ∧
    startBoot (mallocPrepboot (fun _ => 7)
      (sampleHandoff.after sampleSymbols sampleEvents).post).1 0xc7fff = 7 ∧
    startBoot (mallocPrepboot (fun _ => 7)
      (sampleHandoff.after sampleSymbols sampleEvents).post).1 0xc8000 = 0 := by
  obtain ⟨hblocks, hroms, hfree⟩ :=
    boot_keeps_blocks sampleHandoff_started sampleEvents_proper fun _ => 7
  obtain ⟨b, hb, hzone, h1, h2⟩ : ∃ b ∈ (sampleHandoff.after sampleSymbols sampleEvents).books,
      b.zone ≠ .tmpLow ∧ b.range.1 ≤ 0xe7ec0 ∧ 0xe7ec0 < b.range.2 := by decide +kernel
  obtain ⟨r, hr, h3, h4⟩ : ∃ r ∈ (sampleHandoff.after sampleSymbols sampleEvents).roms,
      r.1 ≤ 0xc7fff ∧ 0xc7fff < r.2 := by decide +kernel
  exact ⟨(hblocks b hb _ h1 h2).trans (if_neg hzone), hroms r hr _ h3 h4,
    hfree _ (by decide +kernel) (by decide +kernel)⟩

end CsmWrap.Malloc
