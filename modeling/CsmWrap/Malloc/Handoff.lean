import CsmWrap.Boot.Csm
import CsmWrap.E820.Build
import CsmWrap.Malloc.PmmRuns

/-!
# From CSMWrap to SeaBIOS

`efi_main` sets memory aside below 0x80000 and anywhere below 4 GiB and names it in the
init table. `handle_csm_0000` reads the table, gives the memory to the zones, and moves
its own initialisation code there.
-/

namespace CsmWrap.Malloc
open Arena Memory
open E820 (efiPageSize)

def convenEnd : UInt32 := 0x80000
def hipmmSize : UInt32 := 0x400000

/-- `sizeof(EFI_DISPATCH_OPROM_TABLE)` -/
def sizeofOpromTable : Nat := 15

/-- `sizeof(struct low_stub)`: the thunk, the tables, a counter and 128 E820 entries. -/
def sizeofLowStub (arch : Arch) : Nat :=
  Boot.sizeofThunk arch + Boot.sizeofInitTable + Boot.sizeofBootTable + sizeofOpromTable + 4 +
    128 * 20

/-- `mThunkContext.RealModeBuffer` -/
def realModeBuffer (memoryAddress : UInt32) (dataSize : Nat) : UInt32 :=
  memoryAddress + UInt32.ofNat (dataSize / efiPageSize.toNat + 1) * efiPageSize.toUInt32

/-- `LegacyBiosInitializeThunkAndTable`: the first address that is free again. -/
def legacyBiosInitializeThunkAndTable (memoryAddress : UInt32) (dataSize : Nat) : UInt32 :=
  realModeBuffer memoryAddress dataSize + efiPageSize.toUInt32 + efiPageSize.toUInt32

def pmmBase (arch : Arch) : UInt32 :=
  legacyBiosInitializeThunkAndTable Boot.lowStubBase (sizeofLowStub arch)

/-- Offsets in the init table. -/
def biosLessThan1MBOffset : Nat := 0
def thunkStartOffset : Nat := 24
def thunkSizeOffset : Nat := 28
def lowPmmMemoryOffset : Nat := 32
def lowPmmMemorySizeOffset : Nat := 36

/-- `efi_main` fills in the init table. -/
def writeInitTable (arch : Arch) (hiPmm : UInt32) (mem : Mem) : Mem :=
  let table := (Boot.initTable arch).toNat
  let mem := write32 mem (table + biosLessThan1MBOffset) 0x80000
  let mem := write32 mem (table + thunkStartOffset) Boot.lowStubBase
  let mem := write32 mem (table + thunkSizeOffset) (UInt32.ofNat (sizeofLowStub arch))
  let mem := write32 mem (table + lowPmmMemoryOffset) (pmmBase arch)
  let mem := write32 mem (table + lowPmmMemorySizeOffset) (convenEnd - pmmBase arch)
  let mem := write32 mem (table + Boot.hiPmmMemorySizeOffset) hipmmSize
  write32 mem (table + Boot.hiPmmMemoryOffset) hiPmm

/-- The zones that `handle_csm_0000` sets up from the table at `ES:BX`. -/
def csmPreinit (mem : Mem) (regs : Boot.Regs) (h : Heap) : Heap :=
  let table := (Boot.makeFlatptr regs.es regs.bx).toNat
  mallocCsmPreinit h (read32 mem (table + lowPmmMemoryOffset))
    (read32 mem (table + lowPmmMemorySizeOffset)) (read32 mem (table + Boot.hiPmmMemoryOffset))
    (read32 mem (table + Boot.hiPmmMemorySizeOffset))

/-- SeaBIOS reads what CSMWrap wrote. -/
theorem csmPreinit_eq (arch : Arch) (hiPmm : UInt32) (mem : Mem) (h : Heap) :
    csmPreinit (writeInitTable arch hiPmm mem)
        (Boot.farCall Boot.legacy16InitializeYourself (Boot.initTable arch)) h =
      mallocCsmPreinit h (pmmBase arch) (convenEnd - pmmBase arch) hiPmm hipmmSize := by
  have htable : Boot.makeFlatptr (Boot.efiSegment (Boot.initTable arch))
      (Boot.efiOffset (Boot.initTable arch)) = Boot.initTable arch :=
    Boot.makeFlatptr_segment_offset (Boot.tables_low arch).1
  simp only [csmPreinit, Boot.farCall, htable]
  simp only [writeInitTable, biosLessThan1MBOffset, thunkStartOffset, thunkSizeOffset,
    lowPmmMemoryOffset, lowPmmMemorySizeOffset, Boot.hiPmmMemorySizeOffset, Boot.hiPmmMemoryOffset]
  simp only [read32_write32]
  simp (disch := omega) only [read32_write32_of_ne, read32_write32]

/-! ## There is room for the bookkeeping -/

variable {E G : Zone → List (Nat × Nat)} {h : Heap} {n : Nat}

/-- A node of the high temporary zone has `n` bytes free. -/
def Heap.Room (h : Heap) (n : Nat) : Prop := ∃ c ∈ view (h.zone .tmpHigh), n ≤ c.space

theorem Heap.Room.mono {m : Nat} (hr : h.Room n) (hm : m ≤ n) : h.Room m := by
  obtain ⟨c, hc, hroom⟩ := hr
  exact ⟨c, hc, hm.trans hroom⟩

/-- A record takes no more than its size and its alignment. -/
theorem allocNewDetail_room (ht : Tiled E h)
    (hfill : ∀ z, ∀ s ∈ h.stubs z, s.1 ≠ .temp .detailinfo) (hr : h.Room (60 + n)) :
    (allocNewDetail h).1 ≠ 0 ∧ (allocNewDetail h).2.Room n := by
  obtain ⟨c, hc, hroom⟩ := hr
  have h16 : 0 < mallocMinAlign.toNat := by decide
  have h60 : sizeofAllocdetail.toNat + mallocMinAlign.toNat = 60 := rfl
  rw [← h60] at hroom
  rcases allocNew_cases ht request_detail sizeofAllocdetail_ne hfill .tmpHigh with
    ⟨-, hfull⟩ | ⟨d, l, hsome, hd, -, -, -, hcarve⟩
  · obtain ⟨hle, hcut⟩ := Chunk.le_cut h16 hroom
    exact absurd ⟨hle, by omega⟩ (hfull c hc)
  · have hnew : allocNewDetail h = (d, (h.setZone .tmpHigh l).settle d) := by
      simp [allocNewDetail, hsome, hd]
    rw [hnew]
    obtain ⟨c', hc', hspace⟩ := carve_room h16 hcarve hc hroom
    refine ⟨hd, { c' with key := c'.key.settle d }, ?_, hspace⟩
    rw [view_settle]
    refine List.mem_map.mpr ⟨c', ?_, rfl⟩
    simpa [Heap.setZone] using hc'

theorem room_adding {z : Zone} (hz : z ≠ .tmpHigh) (start stop : UInt32) (hr : h.Room n) :
    (h.adding z start stop).Room n := by
  obtain ⟨c, hc, hroom⟩ := hr
  refine ⟨c, ?_, hroom⟩
  simpa [Heap.adding, Heap.setZone, Ne.symm hz] using hc

theorem room_adding_self (h : Heap) (start stop : UInt32) :
    (h.adding .tmpHigh start stop).Room (stop.toNat - start.toNat) := by
  obtain ⟨pre, post, -, he⟩ := hlistAdd_eq ⟨.temp .datainfo, start, stop, 0⟩ (h.zone .tmpHigh)
  refine ⟨⟨.temp .datainfo, start.toNat, stop.toNat, 0⟩, ?_, ?_⟩
  · simp [Heap.adding, Heap.setZone, he, view, AllocInfo.chunk]
  · simp [Chunk.space]

/-- With room for the record, `alloc_add` adds the range. -/
theorem allocAdd_room (hs : Sound E h) (hne : ∀ z, ∀ e ∈ E z, e.1 < e.2) {z : Zone}
    {start stop : UInt32} (hr : NewRange E (start.toNat, stop.toNat))
    (hroom : (h.adding z start stop).Room (60 + n)) :
    (allocAdd h z start stop).Room n ∧
      ∃ d, (.detail d .datainfo, start, 0) ∈ (allocAdd h z start stop).stubs z := by
  obtain ⟨ht, hg⟩ := hs.tiled.add hne z hr (hs.tracked.no_temp .datainfo)
  obtain ⟨hd, hroom'⟩ := allocNewDetail_room ht (hg.no_detailinfo hs.tracked) hroom
  have hadd : allocAdd h z start stop = (allocNewDetail (h.adding z start stop)).2 := if_neg hd
  rcases allocAdd_cases hs hne z hr with ⟨h0, -⟩ | ⟨tz, d, -, hn⟩
  · exact absurd h0 hd
  · rw [hadd] at hn ⊢
    exact ⟨hroom', d, (hn.mem _ _).mpr (.inr (.inl ⟨rfl, rfl⟩))⟩

/-- An allocation from the high temporary zone, with room for block and record. -/
theorem palloc_room (hs : Sound E h) {size align : UInt32} (hr : Request size align)
    (hsize : size ≠ 0) (hroom : h.Room (size.toNat + align.toNat + (60 + n))) :
    (mallocPalloc h .tmpHigh size align).1 ≠ 0 ∧ (mallocPalloc h .tmpHigh size align).2.Room n := by
  obtain ⟨c, hc, hroom⟩ := hroom
  have halign : 0 < align.toNat := by
    obtain ⟨k, hk⟩ := hr.power
    rw [hk]
    exact Nat.two_pow_pos k
  have hfill := hs.tracked.no_temp .datainfo
  rcases allocNew_cases hs.tiled hr hsize hfill .tmpHigh with
    ⟨-, hfull⟩ | ⟨data, l, hsome, hd, -, ht, hg, hcarve⟩
  · obtain ⟨hle, hcut⟩ := Chunk.le_cut halign hroom
    exact absurd ⟨hle, by omega⟩ (hfull c hc)
  · obtain ⟨c', hc', hspace⟩ := carve_room halign hcarve hc hroom
    have hroom' : (h.setZone .tmpHigh l).Room (60 + n) :=
      ⟨c', by simpa [Heap.setZone] using hc', hspace⟩
    obtain ⟨hd', hroom''⟩ := allocNewDetail_room ht (hg.no_detailinfo hs.tracked) hroom'
    have hpalloc : mallocPalloc h .tmpHigh size align =
        (data, (allocNewDetail (h.setZone .tmpHigh l)).2) := by
      simp [mallocPalloc, hsize, hsome, hd, hd']
    rw [hpalloc]
    exact ⟨hd, hroom''⟩

/-- The calls of `malloc_csm_preinit` for memory that holds the high table. -/
def preinitCalls (lowPmm lowPmmSize hiPmm hiPmmSize : UInt32) : List Call :=
  let hiPmmEnd := hiPmm + hiPmmSize
  [.add .tmpHigh hiPmm (hiPmmEnd - buildMinHightable),
    .add .high (hiPmmEnd - buildMinHightable) hiPmmEnd,
    .add .tmpLow lowPmm (lowPmm + lowPmmSize)]

theorem mallocCsmPreinit_eq (lowPmm lowPmmSize hiPmm : UInt32) {hiPmmSize : UInt32}
    (hsize : hiPmmSize > buildMinHightable) :
    mallocCsmPreinit .empty lowPmm lowPmmSize hiPmm hiPmmSize =
      (run (preinitCalls lowPmm lowPmmSize hiPmm hiPmmSize)).heap := by
  simp only [mallocCsmPreinit, if_pos hsize, run, preinitCalls, runFrom, List.foldl_cons,
    List.foldl_nil, Run.step, Call.step]

/-- Where UEFI may have put the high memory: it lies above 1 MiB, and its end below
4 GiB. -/
structure HiPmm where
  base : UInt32
  page : 4096 ∣ base.toNat
  above : 0x100000 ≤ base.toNat
  below : base.toNat + 0x400000 < 2 ^ 32

/-- The code that `reloc_preinit` moves. -/
structure InitCode where
  size : UInt32
  align : UInt32
  request : Request size align
  nonempty : size ≠ 0
  paragraph : mallocMinAlign.toNat ∣ align.toNat
  small : size.toNat + align.toNat ≤ 0x380000

/-- The allocator calls of `handle_csm_0000` up to `malloc_init`. -/
def initCalls (arch : Arch) (hi : HiPmm) (code : InitCode) : List Call :=
  preinitCalls (pmmBase arch) (convenEnd - pmmBase arch) hi.base hipmmSize ++
    [.palloc .tmpHigh code.size code.align]

theorem HiPmm.ends (hi : HiPmm) : (hi.base + hipmmSize).toNat = hi.base.toNat + 0x400000 ∧
    (hi.base + hipmmSize - buildMinHightable).toNat = hi.base.toNat + 0x3c0000 := by
  have h1 : hipmmSize.toNat = 0x400000 := rfl
  have h2 : buildMinHightable.toNat = 0x40000 := rfl
  have hlt := hi.below
  have hend : (hi.base + hipmmSize).toNat = hi.base.toNat + 0x400000 := by
    rw [UInt32.toNat_add, h1, Nat.mod_eq_of_lt (by omega)]
  refine ⟨hend, ?_⟩
  rw [UInt32.toNat_sub_of_le _ _ (UInt32.le_iff_toNat_le.mpr (by omega)), hend, h2]
  omega

theorem pmmBase_toNat (arch : Arch) : (pmmBase arch).toNat = 0x28000 ∧
    (pmmBase arch + (convenEnd - pmmBase arch)).toNat = 0x80000 := by
  cases arch <;> decide

/-- The memory of each zone after these calls. -/
theorem given_initCalls (arch : Arch) (hi : HiPmm) (code : InitCode) {z : Zone}
    {g : Nat × Nat} : g ∈ given noRanges (initCalls arch hi code) z ↔
      (z = .tmpHigh ∧ g = (hi.base.toNat, hi.base.toNat + 0x3c0000)) ∨
      (z = .high ∧ g = (hi.base.toNat + 0x3c0000, hi.base.toNat + 0x400000)) ∨
      (z = .tmpLow ∧ g = (0x28000, 0x80000)) := by
  obtain ⟨hend, htable⟩ := hi.ends
  obtain ⟨hlow, hlowEnd⟩ := pmmBase_toNat arch
  simp only [initCalls, preinitCalls, List.cons_append, List.nil_append, given, List.foldl_cons,
    List.foldl_nil, Call.give, mem_addRange, noRanges, List.not_mem_nil, false_or, hend, htable,
    hlow, hlowEnd, or_assoc]

theorem preinit_initCalls (arch : Arch) (hi : HiPmm) (code : InitCode) :
    Preinit (initCalls arch hi code) := by
  obtain ⟨hend, htable⟩ := hi.ends
  obtain ⟨hlow, hlowEnd⟩ := pmmBase_toNat arch
  have h1 := hi.above
  have h2 := hi.page
  have h16 : mallocMinAlign.toNat = 16 := rfl
  refine ⟨⟨?_, ?_, ?_, code.request, trivial⟩, ?_, ?_, ?_⟩
  · refine ⟨by simp only; omega, by simp only; omega, ?_⟩
    simp [noRanges]
  · refine ⟨by simp only; omega, by simp only; omega, fun z e he => ?_⟩
    simp only [Call.give, mem_addRange, noRanges, List.not_mem_nil, false_or] at he
    obtain ⟨-, rfl⟩ := he
    simp only [Apart]
    omega
  · refine ⟨by simp only; omega, by simp only; omega, fun z e he => ?_⟩
    simp only [Call.give, mem_addRange, noRanges, List.not_mem_nil, false_or] at he
    obtain ⟨-, rfl⟩ | ⟨-, rfl⟩ := he
    · simp only [Apart]
      omega
    · simp only [Apart]
      omega
  · simp only [initCalls, preinitCalls, List.cons_append, List.nil_append, List.forall_mem_cons,
      Call.Paragraph, hend, htable, hlowEnd, h16]
    exact ⟨by omega, by omega, by decide, code.paragraph, by simp⟩
  · intro z g hg
    rcases (given_initCalls arch hi code).mp hg with ⟨-, rfl⟩ | ⟨-, rfl⟩ | ⟨-, rfl⟩
    · exact .inr h1
    · exact .inr (Nat.le_add_right_of_le h1)
    · exact .inl (by decide)
  · refine List.eq_nil_iff_forall_not_mem.mpr fun g hg => ?_
    rcases (given_initCalls arch hi code).mp hg with ⟨hz, -⟩ | ⟨hz, -⟩ | ⟨hz, -⟩ <;> cases hz

/-- The zone has the node of a range. -/
def Heap.Based (h : Heap) (z : Zone) : Prop := ∃ p a, (p, a, 0) ∈ h.stubs z

theorem Heap.Based.ne_nil {z : Zone} (hb : h.Based z) : h.zone z ≠ [] := by
  obtain ⟨p, a, hmem⟩ := hb
  intro hnil
  rw [Heap.stubs, hnil] at hmem
  cases hmem

theorem Reached.based_step {r : Run} (hr : Reached G r) {c : Call} (hc : c.Proper G) {z : Zone}
    (hb : r.heap.Based z) : (r.step c).heap.Based z := by
  obtain ⟨E, hE, hs, hbooks⟩ := hr
  obtain ⟨p, a, hmem⟩ := hb
  by_cases hadd : ∃ z start stop, c = .add z start stop
  · obtain ⟨z', start, stop, rfl⟩ := hadd
    change (allocAdd r.heap z' start stop).Based z
    rcases allocAdd_cases hs (fun z e he => (hE z e he).2) z' (hc.mono hE) with
      ⟨-, hsame⟩ | ⟨tz, d, -, hn⟩
    · rw [hsame]
      exact ⟨p, a, hmem⟩
    · exact ⟨p, a, (hn.mem z _).mpr (.inl hmem)⟩
  · have hkeep := (sound_step hs hbooks hc fun z start stop he => hadd ⟨z, start, stop, he⟩).2.2
    exact ⟨p, a, hkeep z _ hmem rfl⟩

theorem Reached.add_room {r : Run} (hr : Reached G r) {z : Zone} {start stop : UInt32}
    (hnew : NewRange G (start.toNat, stop.toNat))
    (hroom : (r.heap.adding z start stop).Room (60 + n)) :
    (r.step (.add z start stop)).heap.Room n ∧ (r.step (.add z start stop)).heap.Based z := by
  obtain ⟨E, hE, hs, -⟩ := hr
  obtain ⟨hroom', d, hmem⟩ := allocAdd_room hs (fun z e he => (hE z e he).2) (hnew.mono hE) hroom
  exact ⟨hroom', _, _, hmem⟩

/-- One call after the other, 60 bytes each. -/
theorem Reached.adds_room {r : Run} {calls : List Call} (hr : Reached G r)
    (hc : Proper G calls) (hadd : ∀ c ∈ calls, ∃ z start stop, z ≠ .tmpHigh ∧ c = .add z start stop)
    (hroom : r.heap.Room (60 * calls.length + n)) :
    (runFrom r calls).heap.Room n ∧
    ∀ z, (r.heap.Based z ∨ ∃ start stop, .add z start stop ∈ calls) →
      (runFrom r calls).heap.Based z := by
  induction calls generalizing r G with
  | nil => exact ⟨hroom.mono (by simp), fun z hz => hz.elim id (by simp)⟩
  | cons c calls ih =>
    obtain ⟨⟨z, start, stop, hz, rfl⟩, hrest⟩ := List.forall_mem_cons.mp hadd
    obtain ⟨hroom', hbased⟩ := hr.add_room (n := 60 * calls.length + n) hc.1
      ((room_adding hz _ _ hroom).mono (by simp only [List.length_cons]; omega))
    obtain ⟨h1, h2⟩ := ih (reached_step hr _ hc.1) hc.2 hrest hroom'
    refine ⟨h1, fun z' hz' => h2 z' ?_⟩
    rcases hz' with hz' | ⟨a, b, hz'⟩
    · exact .inl (hr.based_step hc.1 hz')
    · rcases List.mem_cons.mp hz' with heq | hz'
      · obtain ⟨rfl, -, -⟩ : z' = z ∧ a = start ∧ b = stop := by simpa using heq
        exact .inl hbased
      · exact .inr ⟨a, b, hz'⟩

/-- The ranges of `malloc_csm_preinit`, from an empty heap. -/
theorem preinitCalls_room {lowPmm lowPmmSize hiPmm hiPmmSize : UInt32}
    (hc : Proper noRanges (preinitCalls lowPmm lowPmmSize hiPmm hiPmmSize))
    (hroom : hiPmm.toNat + 180 + n ≤ (hiPmm + hiPmmSize - buildMinHightable).toNat) :
    (run (preinitCalls lowPmm lowPmmSize hiPmm hiPmmSize)).heap.Room n ∧
    ∀ z, z ≠ .low → z ≠ .fSeg →
      (run (preinitCalls lowPmm lowPmmSize hiPmm hiPmmSize)).heap.Based z := by
  simp only [preinitCalls, run, runFrom, List.foldl_cons, List.foldl_nil] at hc ⊢
  obtain ⟨hp1, hp2, hp3, -⟩ := hc
  have hr1 := reached_step reached_empty _ hp1
  obtain ⟨hroom1, hbased1⟩ := reached_empty.add_room (n := 120 + n) hp1
    ((room_adding_self _ _ _).mono (by omega))
  have hp23 : Proper _ [.add .high _ _, .add .tmpLow _ _] := ⟨hp2, hp3, trivial⟩
  obtain ⟨hroom3, hbased3⟩ := hr1.adds_room (n := n) hp23 (by simp) (hroom1.mono (by simp))
  refine ⟨hroom3, fun z h1 h2 => ?_⟩
  cases z with
  | tmpLow => exact hbased3 .tmpLow (.inr ⟨_, _, .tail _ (.head _)⟩)
  | low => exact absurd rfl h1
  | fSeg => exact absurd rfl h2
  | tmpHigh => exact hbased3 .tmpHigh (.inl hbased1)
  | high => exact hbased3 .high (.inr ⟨_, _, .head _⟩)

/-- The code finds its new place, and there is still room. -/
theorem initCalls_room (arch : Arch) (hi : HiPmm) (code : InitCode) :
    (mallocPalloc (run (preinitCalls (pmmBase arch) (convenEnd - pmmBase arch) hi.base
      hipmmSize)).heap .tmpHigh code.size code.align).1 ≠ 0 ∧
    (run (initCalls arch hi code)).heap.Room 120 ∧
    ∀ z, z ≠ .low → z ≠ .fSeg → (run (initCalls arch hi code)).heap.Based z := by
  have hend := hi.ends.2
  have hsmall := code.small
  obtain ⟨hpre, hcode⟩ := proper_append.mp (preinit_initCalls arch hi code).proper
  have hr := reached_run hpre
  obtain ⟨hroom, hbased⟩ := preinitCalls_room (n := 0x380000 + 180) hpre (by omega)
  rw [initCalls, run_append]
  generalize run (preinitCalls (pmmBase arch) (convenEnd - pmmBase arch) hi.base hipmmSize) = r
    at hr hroom hbased
  have hstep := fun z h1 h2 => hr.based_step hcode.1 (hbased z h1 h2)
  obtain ⟨E, -, hs, -⟩ := hr
  obtain ⟨hok, hroom'⟩ := palloc_room (n := 120) hs code.request code.nonempty
    (hroom.mono (by omega))
  exact ⟨hok, hroom', hstep⟩

/-- `malloc_init` adds two ranges of its own. -/
theorem Preinit.newFSeg {calls : List Call} (hc : Preinit calls) (S : Symbols) :
    NewRange (addRange (given noRanges calls) .low ((S.zonelowBase + opromHeaderReserve).toNat,
      S.finalVarlowStart.toNat)) (S.zonefsegStart.toNat, S.zonefsegEnd.toNat) := by
  have h1 := S.varlow_lt
  have h2 := S.zonefseg_le
  have h3 := S.zonelow_lt
  have h4 := S.rom_le_zonelow
  refine ⟨by simp only; omega, S.zonefseg_lt, fun z e he => ?_⟩
  rcases mem_addRange.mp he with he | ⟨-, rfl⟩
  · have := hc.memory z e he
    simp only [Apart]
    omega
  · exact .inr h1.le

/-- `malloc_init` with room for two records: there is a `RomBase`, and every zone has
memory. -/
theorem mallocInit_based {S : Symbols} {calls : List Call} (hc : Preinit calls)
    (hroom : (run calls).heap.Room 120)
    (hbased : ∀ z, z ≠ .low → z ≠ .fSeg → (run calls).heap.Based z) (e820 : E820.Table) :
    ∃ post, mallocInit S ⟨(run calls).heap, e820⟩ = some post ∧ ∀ z, post.heap.Based z := by
  have hr := reached_run hc.proper
  have hnew := hc.newLow S fun _ _ he => he
  have hr1 := reached_step hr (.add .low _ _) hnew
  obtain ⟨hroom1, hlow⟩ := hr.add_room (n := 60) hnew
    ((room_adding (z := .low) (by simp) _ _ hroom).mono (by omega))
  obtain ⟨-, hfseg⟩ := hr1.add_room (n := 0) (hc.newFSeg S)
    (room_adding (z := .fSeg) (by simp) _ _ hroom1)
  have hkeep := fun z => hr.based_step (c := .add .low _ _) (z := z) hnew
  have hkeep1 := fun z => hr1.based_step (c := .add .fSeg _ _) (z := z) (hc.newFSeg S)
  simp only [Run.heap_add] at hlow hfseg hkeep hkeep1
  have hlast : (allocFindLowest (addZoneLow S (run calls).heap) .low).isSome := by
    rw [allocFindLowest, List.getLast?_isSome]
    exact hlow.ne_nil
  obtain ⟨info, hinfo⟩ := Option.isSome_iff_exists.mp hlast
  have hall : ∀ z, (addZoneFSeg S (addZoneLow S (run calls).heap)).Based z := by
    intro z
    by_cases hz : z = .fSeg
    · subst hz
      exact hfseg
    · refine hkeep1 z ?_
      by_cases hz' : z = .low
      · subst hz'
        exact hlow
      · exact hkeep z (hbased z hz' hz)
  generalize hheap : addZoneFSeg S (addZoneLow S (run calls).heap) = h at hall
  simp only [mallocInit, hinfo, hheap]
  exact ⟨_, rfl, hall⟩

/-- Wherever UEFI puts the high memory, `handle_csm_0000` comes through: SeaBIOS reads in
the init table what CSMWrap wrote there, finds a place for its code, and then has memory
in all five zones. -/
theorem handoff_succeeds (S : Symbols) (arch : Arch) (hi : HiPmm) (code : InitCode)
    (mem : Mem) (e820 : E820.Table) :
    csmPreinit (writeInitTable arch hi.base mem)
      (Boot.farCall Boot.legacy16InitializeYourself (Boot.initTable arch)) .empty =
        mallocCsmPreinit .empty (pmmBase arch) (convenEnd - pmmBase arch) hi.base hipmmSize ∧
    (mallocPalloc (csmPreinit (writeInitTable arch hi.base mem)
      (Boot.farCall Boot.legacy16InitializeYourself (Boot.initTable arch)) .empty) .tmpHigh
        code.size code.align).1 ≠ 0 ∧
    ∃ post, mallocInit S ⟨(mallocPalloc (csmPreinit (writeInitTable arch hi.base mem)
      (Boot.farCall Boot.legacy16InitializeYourself (Boot.initTable arch)) .empty) .tmpHigh
        code.size code.align).2, e820⟩ = some post ∧ ∀ z, post.heap.zone z ≠ [] := by
  rw [csmPreinit_eq]
  refine ⟨rfl, ?_⟩
  rw [mallocCsmPreinit_eq _ _ _ (by decide)]
  obtain ⟨hok, hroom, hbased⟩ := initCalls_room arch hi code
  obtain ⟨post, hpost, hall⟩ := mallocInit_based (S := S) (preinit_initCalls arch hi code) hroom
    hbased e820
  refine ⟨hok, post, ?_, fun z => (hall z).ne_nil⟩
  rw [initCalls, run_append] at hpost
  exact hpost

/-- The memory of each zone. -/
def zoneHome (S : Symbols) (hi : HiPmm) : Zone → Nat × Nat
  | .tmpLow => (0x28000, 0x80000)
  | .low => (S.zonelowBase.toNat + 16, S.finalVarlowStart.toNat)
  | .fSeg => (S.zonefsegStart.toNat, S.zonefsegEnd.toNat)
  | .tmpHigh => (hi.base.toNat, hi.base.toNat + 0x3c0000)
  | .high => (hi.base.toNat + 0x3c0000, hi.base.toNat + 0x400000)

theorem started_home {S : Symbols} {arch : Arch} {hi : HiPmm} {code : InitCode}
    {e820 : E820.Table} {w : World} (hw : started S (initCalls arch hi code) e820 = some w) :
    ∃ E lo, InPost S E lo w ∧ ∀ z, ∀ e ∈ E z, e = zoneHome S hi z := by
  obtain ⟨E, lo, hin, hE⟩ := started_ranges (preinit_initCalls arch hi code) hw
  refine ⟨E, lo, hin, fun z e he => ?_⟩
  by_cases hz : z = .low
  · subst hz
    rw [hin.mapped.low] at he
    exact List.mem_singleton.mp he
  · rcases hE z hz e he with hg | ⟨rfl, rfl⟩
    · rcases (given_initCalls arch hi code).mp hg with ⟨rfl, rfl⟩ | ⟨rfl, rfl⟩ | ⟨rfl, rfl⟩ <;> rfl
    · rfl

theorem InPost.in_home {S : Symbols} {E : Zone → List (Nat × Nat)} {lo : UInt32} {w : World}
    {hi : HiPmm} (hin : InPost S E lo w) (hE : ∀ z, ∀ e ∈ E z, e = zoneHome S hi z) {z : Zone}
    {e : Nat × Nat} (he : e ∈ lowFrom S E lo z) :
    (zoneHome S hi z).1 ≤ e.1 ∧ e.2 ≤ (zoneHome S hi z).2 := by
  rcases mem_lowFrom.mp he with ⟨rfl, rfl⟩ | ⟨-, he⟩
  · exact ⟨hin.zonelow, Nat.le_refl _⟩
  · rw [hE z e he]
    exact ⟨Nat.le_refl _, Nat.le_refl _⟩

theorem InPost.block_in_home {S : Symbols} {E : Zone → List (Nat × Nat)} {lo : UInt32} {w : World}
    {hi : HiPmm} (hin : InPost S E lo w) (hE : ∀ z, ∀ e ∈ E z, e = zoneHome S hi z) {b : Block}
    (hb : b ∈ w.books) :
    (zoneHome S hi b.zone).1 ≤ b.range.1 ∧ b.range.2 ≤ (zoneHome S hi b.zone).2 := by
  obtain ⟨e, he, h1, h2⟩ := hin.books.in_zone hin.sound.tiled hb
  obtain ⟨h3, h4⟩ := hin.in_home hE he
  exact ⟨h3.trans h1, h2.trans h4⟩

/-- Blocks come from the memory that CSMWrap set aside, from `ZoneLow` and from the F
segment. So nothing that SeaBIOS or an option ROM writes into its blocks reaches the
tables, the stack and the buffer of CSMWrap below 0x28000, or the memory from 0x80000 to
the option ROMs. -/
theorem handoff_blocks {S : Symbols} (arch : Arch) (hi : HiPmm) (code : InitCode)
    {e820 : E820.Table} {w : World} (hw : started S (initCalls arch hi code) e820 = some w)
    {events : List Event} (he : ∀ e ∈ events, e.Proper) :
    ∀ b ∈ (w.after S events).books,
      (zoneHome S hi b.zone).1 ≤ b.range.1 ∧ b.range.2 ≤ (zoneHome S hi b.zone).2 := by
  obtain ⟨E, lo, hin, hE⟩ := started_home hw
  obtain ⟨lo', hin⟩ := hin.after he
  exact fun b hb => hin.block_in_home hE hb

def sampleHiPmm : HiPmm := ⟨0x7f000000, by decide, by decide, by decide⟩

def sampleInitCode : InitCode :=
  ⟨0x20000, 32, ⟨⟨5, rfl⟩, by decide⟩, by decide, by decide, by decide⟩

def sampleHandoff : World :=
  (started sampleSymbols (initCalls .x86_64 sampleHiPmm sampleInitCode) .empty).get
    (by decide +kernel)

theorem sampleHandoff_started :
    started sampleSymbols (initCalls .x86_64 sampleHiPmm sampleInitCode) .empty =
      some sampleHandoff := (Option.some_get _).symm

theorem handoff_blocks_sample :
    (sampleHandoff.after sampleSymbols sampleEvents).books.map Block.range =
      [(0x7f3fffc0, 0x7f400000), (0xe7ec0, 0xe7f00), (0x7f39ff60, 0x7f3bff60)] ∧
    ∀ b ∈ (sampleHandoff.after sampleSymbols sampleEvents).books,
      (zoneHome sampleSymbols sampleHiPmm b.zone).1 ≤ b.range.1 ∧
        b.range.2 ≤ (zoneHome sampleSymbols sampleHiPmm b.zone).2 :=
  ⟨by decide +kernel, handoff_blocks .x86_64 sampleHiPmm sampleInitCode sampleHandoff_started
    sampleEvents_proper⟩

end CsmWrap.Malloc
