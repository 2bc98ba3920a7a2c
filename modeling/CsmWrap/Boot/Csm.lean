import CsmWrap.BitField
import CsmWrap.E820.Replay
import CsmWrap.Malloc.Zones

/-!
# The numbered calls into the Csm16

`efi_main` calls the Csm16 four times, with a function number in `AX` and a table
in `ES:BX`; `handle_csm` serves the calls. SeaBIOS keeps the two table pointers
between calls, each latched by a call of its own.
-/

namespace CsmWrap.Boot
open Memory E820
open Malloc (Zone buildMinHightable mallocMinAlign)

/-- `EFI_SEGMENT` -/
def efiSegment (adr : UInt32) : UInt16 := (adr >>> 4).toUInt16 &&& 0xf000

/-- `EFI_OFFSET` -/
def efiOffset (adr : UInt32) : UInt16 := adr.toUInt16 &&& 0xffff

/-- `MAKE_FLATPTR` -/
def makeFlatptr (seg off : UInt16) : UInt32 := (seg.toUInt32 <<< 4) + off.toUInt32

theorem and_top_nibble (n : Nat) : n &&& 0xf000 = n / 4096 % 16 * 4096 := by
  have hfield := BitField.shiftLeft_field n 12 4
  rw [Nat.shiftLeft_eq] at hfield
  exact hfield.symm

/-- Below 1 MiB the two encodings are inverse. -/
theorem makeFlatptr_segment_offset {adr : UInt32} (h : adr.toNat < 0x100000) :
    makeFlatptr (efiSegment adr) (efiOffset adr) = adr := by
  apply UInt32.toNat_inj.mp
  have hseg : (efiSegment adr).toNat = adr.toNat / 65536 * 4096 := by
    simp only [efiSegment, UInt16.toNat_and, UInt32.toNat_toUInt16, UInt32.toNat_shiftRight,
      UInt16.reduceToNat, UInt32.reduceToNat, Nat.reduceMod, Nat.shiftRight_eq_div_pow,
      Nat.reducePow, and_top_nibble]
    omega
  have hoff : (efiOffset adr).toNat = adr.toNat % 65536 := by
    have hmask : (UInt16.toNat 0xffff) = 2 ^ 16 - 1 := rfl
    simp only [efiOffset, UInt16.toNat_and, UInt32.toNat_toUInt16, hmask,
      Nat.and_two_pow_sub_one_eq_mod]
    omega
  simp only [makeFlatptr, UInt32.toNat_add, UInt32.toNat_shiftLeft, UInt16.toNat_toUInt32, hseg,
    hoff, UInt32.reduceToNat, Nat.reduceMod, Nat.shiftLeft_eq, Nat.reducePow]
  omega

/-- `sizeof(LOW_MEMORY_THUNK)`: the code, two 64-bit descriptors, `X64Ss`, `X64Esp`
and `RealStack`, two 32-bit descriptors, the GDT, `PageMapLevel4` and the stack. -/
def sizeofThunk (arch : Arch) : Nat :=
  4096 + 2 * 10 + 3 * sizeofUintptr arch + 2 * 6 + 8 * 8 + 8 + 8 * 1024

/-- `sizeof(EFI_TO_COMPATIBILITY16_INIT_TABLE)` -/
def sizeofInitTable : Nat := 40

/-- `sizeof(EFI_TO_COMPATIBILITY16_BOOT_TABLE)`: the versions and the ACPI and SMBIOS
fields, `SioData`, three counters, `HddInfo` and the five last fields. -/
def sizeofBootTable : Nat := 16 + 41 + 8 + 8 * 1045 + 5 * 4

def lowStubBase : UInt32 := 0x20000

def initTable (arch : Arch) : UInt32 := lowStubBase + UInt32.ofNat (sizeofThunk arch)

def bootTable (arch : Arch) : UInt32 := initTable arch + UInt32.ofNat sizeofInitTable

def vgaOpromTable (arch : Arch) : UInt32 := bootTable arch + UInt32.ofNat sizeofBootTable

/-- Offsets of `HiPmmMemory` and `HiPmmMemorySizeInBytes` in the init table. -/
def hiPmmMemoryOffset : Nat := 4
def hiPmmMemorySizeOffset : Nat := 8

/-- Offset of `SmbiosTable` in the boot table. -/
def smbiosTableOffset : Nat := 8

def legacy16InitializeYourself : UInt16 := 0
def legacy16UpdateBbs : UInt16 := 1
def legacy16PrepareToBoot : UInt16 := 2
def legacy16Boot : UInt16 := 3
def legacy16DispatchOprom : UInt16 := 5

/-- The registers that carry arguments and results. -/
structure Regs where
  ax : UInt16
  bx : UInt16
  cx : UInt16
  dx : UInt16
  ds : UInt16
  es : UInt16
  deriving DecidableEq, Repr

/-- What SeaBIOS keeps between calls. `smbios` is the argument of the last
`copy_smbios_21`. -/
structure Csm where
  csmInitTable : UInt32
  csmBootTable : UInt32
  compat : Compatibility16Table
  e820 : Table
  smbios : Option UInt32
  deriving DecidableEq, Repr

/-- Legacy16InitializeYourself -/
def handleCsm0000 (c : Csm) (regs : Regs) : Csm × Regs :=
  ({ c with csmInitTable := makeFlatptr regs.es regs.bx }, { regs with ax := 0 })

/-- Legacy16UpdateBbs -/
def handleCsm0001 (c : Csm) (regs : Regs) : Csm × Regs :=
  ({ c with csmBootTable := makeFlatptr regs.es regs.bx }, { regs with ax := 0 })

/-- `csm_boot_table->SmbiosTable` -/
def Csm.smbiosTable (c : Csm) (mem : Mem) : UInt32 :=
  read32 mem (c.csmBootTable.toNat + smbiosTableOffset)

/-- The end of the high PMM memory becomes reserved when it is large enough. -/
def reserveHighTable (c : Csm) (mem : Mem) (t : Table) : Table :=
  let size := read32 mem (c.csmInitTable.toNat + hiPmmMemorySizeOffset)
  if size > buildMinHightable then
    let hiPmmEnd := read32 mem (c.csmInitTable.toNat + hiPmmMemoryOffset) + size
    e820Add seabios t (hiPmmEnd - buildMinHightable).toUInt64 buildMinHightable.toUInt64
      e820Reserved
  else t

/-- PrepareToBoot. `ES:BX` is printed and not used. -/
def handleCsm0002 (mem : Mem) (c : Csm) (regs : Regs) : Csm × Regs :=
  let e820 := reserveHighTable c mem (replayE820 mem c.compat c.e820)
  let smbios := if c.smbiosTable mem ≠ 0 then some (c.smbiosTable mem) else c.smbios
  ({ c with e820 := e820, smbios := smbios }, { regs with ax := 0 })

/-- Boot, in the case that `startBoot` returns. -/
def handleCsm0003 (c : Csm) (regs : Regs) : Csm × Regs := (c, { regs with ax := 1 })

/-- Legacy16DispatchOprom. What the option ROM does is in the memory of later calls. -/
def handleCsm0005 (c : Csm) (regs : Regs) : Csm × Regs := (c, { regs with bx := 0, ax := 0 })

/-- The lowest set bit of a non-zero `align`, at least `MALLOC_MIN_ALIGN`. -/
def tableAlign (align : UInt16) : UInt16 :=
  let minAlign := mallocMinAlign.toUInt16
  if align ≠ 0 then max (align &&& (0 - align)) minAlign else minAlign

/-- Legacy16GetTableAddress. `malloc` returns 0 when the zone has no room. -/
def handleCsm0006 (malloc : Zone → UInt16 → UInt16 → UInt32) (c : Csm) (regs : Regs) :
    Csm × Regs :=
  let size := regs.cx
  let align := tableAlign regs.dx
  let region := if regs.bx = 0 then 3 else regs.bx
  let chunk := if region &&& 2 ≠ 0 then malloc .low size align else 0
  let chunk := if chunk = 0 ∧ region &&& 1 ≠ 0 then malloc .fSeg size align else chunk
  (c,
    if chunk ≠ 0 then
      { regs with ds := (chunk >>> 4).toUInt16, bx := (chunk &&& 0xf).toUInt16, ax := 0 }
    else { regs with ax := 1 })

/-- The dispatch. Functions 4, 7 and 8 are commented out in the source. -/
def handleCsm (malloc : Zone → UInt16 → UInt16 → UInt32) (mem : Mem) (c : Csm) (regs : Regs) :
    Csm × Regs :=
  match regs.ax.toNat with
  | 0 => handleCsm0000 c regs
  | 1 => handleCsm0001 c regs
  | 2 => handleCsm0002 mem c regs
  | 3 => handleCsm0003 c regs
  | 5 => handleCsm0005 c regs
  | 6 => handleCsm0006 malloc c regs
  | _ => (c, { regs with ax := (regs.ax &&& 0xff00) ||| 1 })

/-- A run of calls, each with the memory it finds. `efi_main` clears its registers
before every call, so nothing but `Csm` carries over. -/
def runCsm (malloc : Zone → UInt16 → UInt16 → UInt32) (c : Csm) (calls : List (Mem × Regs)) : Csm :=
  calls.foldl (fun c call => (handleCsm malloc call.1 c call.2).1) c

/-! ## Which call latches which table -/

/-- A pointer that call number `n` sets to its `ES:BX`. -/
def latch (n : UInt16) (p : UInt32) (regs : Regs) : UInt32 :=
  if regs.ax = n then makeFlatptr regs.es regs.bx else p

section
variable (malloc : Zone → UInt16 → UInt16 → UInt32)

/-- **One step.** Call 0 latches the init table, call 1 the boot table, and no call
does anything else to either. -/
theorem handleCsm_tables (mem : Mem) (c : Csm) (regs : Regs) :
    (handleCsm malloc mem c regs).1.csmInitTable =
        latch legacy16InitializeYourself c.csmInitTable regs ∧
      (handleCsm malloc mem c regs).1.csmBootTable =
        latch legacy16UpdateBbs c.csmBootTable regs := by
  have hne {n : UInt16} {k : Nat} (h : regs.ax.toNat = k) (hk : k ≠ n.toNat) : regs.ax ≠ n := by
    intro e
    rw [e] at h
    exact hk h.symm
  unfold handleCsm latch
  split
  case h_1 h =>
    rw [if_pos (UInt16.toNat_inj.mp h), if_neg (hne h (by decide))]
    exact ⟨rfl, rfl⟩
  case h_2 h =>
    rw [if_neg (hne h (by decide)), if_pos (UInt16.toNat_inj.mp h)]
    exact ⟨rfl, rfl⟩
  case h_3 h | h_4 h | h_5 h | h_6 h =>
    rw [if_neg (hne h (by decide)), if_neg (hne h (by decide))]
    exact ⟨rfl, rfl⟩
  case h_7 h0 h1 _ _ _ _ =>
    rw [if_neg fun e => h0 (by rw [e]; rfl), if_neg fun e => h1 (by rw [e]; rfl)]
    exact ⟨rfl, rfl⟩

/-- **A whole run.** Each pointer is the `ES:BX` of the last call of its number. -/
theorem runCsm_tables (c : Csm) (calls : List (Mem × Regs)) :
    (runCsm malloc c calls).csmInitTable =
        (calls.map Prod.snd).foldl (latch legacy16InitializeYourself) c.csmInitTable ∧
      (runCsm malloc c calls).csmBootTable =
        (calls.map Prod.snd).foldl (latch legacy16UpdateBbs) c.csmBootTable := by
  induction calls generalizing c with
  | nil => exact ⟨rfl, rfl⟩
  | cons call calls ih =>
    obtain ⟨hinit, hboot⟩ := handleCsm_tables malloc call.1 c call.2
    have h := ih (handleCsm malloc call.1 c call.2).1
    rwa [hinit, hboot] at h

end

theorem foldl_latch_other {n : UInt16} {p : UInt32} {calls : List Regs}
    (h : ∀ regs ∈ calls, regs.ax ≠ n) : calls.foldl (latch n) p = p := by
  induction calls with
  | nil => rfl
  | cons regs calls ih =>
    have hhead : latch n p regs = p := if_neg (h regs List.mem_cons_self)
    rw [List.foldl_cons, hhead]
    exact ih fun r hr => h r (List.mem_cons_of_mem _ hr)

/-- The cleared registers with a function number and a table in `ES:BX`. -/
def farCall (ax : UInt16) (table : UInt32) : Regs :=
  ⟨ax, efiOffset table, 0, 0, 0, efiSegment table⟩

def efiMainCalls (arch : Arch) : List Regs :=
  [farCall legacy16InitializeYourself (initTable arch),
    farCall legacy16DispatchOprom (vgaOpromTable arch),
    farCall legacy16PrepareToBoot (bootTable arch),
    ⟨legacy16Boot, 0, 0, 0, 0, 0⟩]

/-- The calls made before PrepareToBoot. -/
def beforePrepareToBoot (arch : Arch) : List Regs :=
  (efiMainCalls arch).takeWhile fun regs => regs.ax ≠ legacy16PrepareToBoot

theorem beforePrepareToBoot_eq (arch : Arch) :
    beforePrepareToBoot arch = [farCall legacy16InitializeYourself (initTable arch),
      farCall legacy16DispatchOprom (vgaOpromTable arch)] := by
  cases arch <;> rfl

theorem latch_farCall (n : UInt16) (p : UInt32) {table : UInt32} (h : table.toNat < 0x100000) :
    latch n p (farCall n table) = table := by
  unfold latch
  rw [if_pos (show (farCall n table).ax = n from rfl)]
  exact makeFlatptr_segment_offset h

theorem tables_low (arch : Arch) :
    (initTable arch).toNat < 0x100000 ∧ (bootTable arch).toNat < 0x100000 ∧ bootTable arch ≠ 0 := by
  cases arch <;> decide

/-- PrepareToBoot finds the boot table of `efi_main` and reads the address in it. -/
def SmbiosReaches (arch : Arch) (mem : Mem) (c : Csm) (smbios : UInt32) : Prop :=
  c.csmBootTable = bootTable arch ∧ c.smbiosTable mem = smbios

/-- One call of Legacy16UpdateBbs before PrepareToBoot would be enough. -/
theorem smbios_reaches_of_updateBbs (malloc : Zone → UInt16 → UInt16 → UInt32) (arch : Arch)
    (c : Csm) (before : List (Mem × Regs)) (mem₀ : Mem) {later : List (Mem × Regs)}
    (hlater : ∀ regs ∈ later.map Prod.snd, regs.ax ≠ legacy16UpdateBbs) {mem : Mem}
    {smbios : UInt32}
    (hstored : read32 mem ((bootTable arch).toNat + smbiosTableOffset) = smbios) :
    SmbiosReaches arch mem
      (runCsm malloc c (before ++ (mem₀, farCall legacy16UpdateBbs (bootTable arch)) :: later))
      smbios := by
  obtain ⟨-, hb⟩ := runCsm_tables malloc c
    (before ++ (mem₀, farCall legacy16UpdateBbs (bootTable arch)) :: later)
  obtain ⟨-, hlow, -⟩ := tables_low arch
  rw [List.map_append, List.map_cons, List.foldl_append, List.foldl_cons, latch_farCall _ _ hlow,
    foldl_latch_other hlater] at hb
  refine ⟨hb, ?_⟩
  unfold Csm.smbiosTable
  rw [hb]
  exact hstored

/-- **The boot table is never latched.** Whatever the memory at each call, PrepareToBoot
runs with the init table in place and the boot table still NULL, so `SmbiosTable` is
read at flat address 8 and not in the table that `ES:BX` points to. -/
theorem smbios_never_reaches (malloc : Zone → UInt16 → UInt16 → UInt32) (arch : Arch) {c : Csm}
    (hnull : c.csmBootTable = 0) {calls : List (Mem × Regs)}
    (hcalls : calls.map Prod.snd = beforePrepareToBoot arch) (mem : Mem) (smbios : UInt32) :
    (runCsm malloc c calls).csmInitTable = initTable arch ∧
      (runCsm malloc c calls).csmBootTable = 0 ∧
      (runCsm malloc c calls).smbiosTable mem = read32 mem smbiosTableOffset ∧
      ¬ SmbiosReaches arch mem (runCsm malloc c calls) smbios := by
  obtain ⟨hi, hb⟩ := runCsm_tables malloc c calls
  obtain ⟨hlow, -, hne⟩ := tables_low arch
  rw [hcalls, beforePrepareToBoot_eq] at hi hb
  have hstill : (runCsm malloc c calls).csmBootTable = 0 := by
    rw [hb, hnull]
    apply foldl_latch_other
    intro regs hr
    rcases List.mem_pair.mp hr with rfl | rfl
    · exact show legacy16InitializeYourself ≠ legacy16UpdateBbs by decide
    · exact show legacy16DispatchOprom ≠ legacy16UpdateBbs by decide
  refine ⟨?_, hstill, ?_, ?_⟩
  · rw [hi, List.foldl_cons, latch_farCall _ _ hlow]
    apply foldl_latch_other
    intro regs hr
    rw [List.mem_singleton.mp hr]
    exact show legacy16DispatchOprom ≠ legacy16InitializeYourself by decide
  · unfold Csm.smbiosTable
    rw [hstill]
    exact congrArg (read32 mem) (Nat.zero_add _)
  · intro h
    unfold SmbiosReaches at h
    rw [hstill] at h
    exact hne h.1.symm

/-- SeaBIOS as it is loaded, before any call. -/
def freshCsm : Csm := ⟨0, 0, ⟨0, 0⟩, Table.empty, none⟩

/-- Cleared memory with an SMBIOS table at 0xf0000 named in the boot table. -/
def smbiosMemory : Mem :=
  write32 (fun _ => 0) ((bootTable .x86_64).toNat + smbiosTableOffset) 0xf0000

theorem smbios_never_reaches_x86_64 :
    (runCsm (fun _ _ _ => 0) freshCsm
        ((beforePrepareToBoot .x86_64).map fun regs => (smbiosMemory, regs))).csmBootTable = 0 ∧
      ¬ SmbiosReaches .x86_64 smbiosMemory
        (runCsm (fun _ _ _ => 0) freshCsm
          ((beforePrepareToBoot .x86_64).map fun regs => (smbiosMemory, regs))) 0xf0000 := by
  have hcalls : ((beforePrepareToBoot .x86_64).map fun regs => (smbiosMemory, regs)).map Prod.snd =
      beforePrepareToBoot .x86_64 := rfl
  have h := smbios_never_reaches (fun _ _ _ => 0) .x86_64 (c := freshCsm) rfl hcalls
    smbiosMemory 0xf0000
  exact ⟨h.2.1, h.2.2.2⟩

/-- With 0xf0000 stored in the boot table, the calls of `efi_main` copy no SMBIOS table. -/
theorem smbios_never_reaches_lost :
    read32 smbiosMemory ((bootTable .x86_64).toNat + smbiosTableOffset) = 0xf0000 ∧
      (runCsm (fun _ _ _ => 0) freshCsm
        ((efiMainCalls .x86_64).map fun regs => (smbiosMemory, regs))).smbios = none := by
  refine ⟨read32_write32 _ _ _, ?_⟩
  decide +kernel

end CsmWrap.Boot
