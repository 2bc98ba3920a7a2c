import CsmWrap.Memory

/-!
# The BIOS region and the images copied into it

`unlock_bios_region` makes the memory below 1 MiB writable and probes it dword
by dword; `efi_main` later copies the Csm16 image to its end and the VBIOS to its
start. The probe covers less than the copies write.
-/

namespace CsmWrap.Boot
open Memory

def vgabiosStart : Nat := 0xc0000
def vgabiosEnd : Nat := 0xc8000
def biosromStart : Nat := vgabiosEnd
def biosromEnd : Nat := 0x100000

/-- Memory, and which of its dwords are RAM that takes writes. -/
structure Platform where
  mem : Mem
  ram : Nat → Bool

/-- The dword at index `i`, that is at address `4 * i`. -/
def readl (p : Platform) (i : Nat) : UInt32 := read32 p.mem (4 * i)

def writel (p : Platform) (i : Nat) (val : UInt32) : Platform :=
  if p.ram i then { p with mem := write32 p.mem (4 * i) val } else p

/-- The loop of `test_bios_region_rw` over the next `n` dwords. -/
def probe (p : Platform) : Nat → Nat → Bool × Platform
  | 0, _ => (true, p)
  | n + 1, i =>
    let val := readl p i
    let q := writel p i (~~~val)
    if readl q i ≠ ~~~val then (false, q) else probe (writel q i val) n (i + 1)

def testBiosRegionRw (p : Platform) : Bool × Platform :=
  probe p ((biosromEnd - biosromStart) / 4) (biosromStart / 4)

theorem not_ne_self (x : UInt32) : x ≠ ~~~x := by
  intro h
  have e := congrArg UInt32.toNat h
  have hx := x.toNat_lt
  rw [UInt32.toNat_not] at e
  simp only [UInt32.size] at e
  omega

/-- One round on a dword of RAM puts back what it found. -/
theorem probe_ram {p : Platform} {i : Nat} (h : p.ram i = true) (v : UInt32) :
    readl (writel p i v) i = v ∧ writel (writel p i v) i (readl p i) = p := by
  have hw : writel p i v = { p with mem := write32 p.mem (4 * i) v } := if_pos h
  constructor
  · rw [hw]
    exact read32_write32 p.mem (4 * i) v
  · have hmem : write32 (write32 p.mem (4 * i) v) (4 * i) (readl p i) = p.mem :=
      write32_restore p.mem (4 * i) v
    rw [hw, writel, if_pos h, hmem]

/-- The probe succeeds just when every dword is RAM, and leaves no trace. -/
theorem probe_eq (p : Platform) (n i : Nat) : probe p n i = ((List.range' i n).all p.ram, p) := by
  induction n generalizing i with
  | zero => rfl
  | succ n ih =>
    rw [List.range'_succ, List.all_cons, probe]
    cases h : p.ram i with
    | true =>
      obtain ⟨hread, hrestore⟩ := probe_ram h (~~~readl p i)
      rw [if_neg (not_not.mpr hread), hrestore, ih]
      rfl
    | false =>
      have hw : writel p i (~~~readl p i) = p := if_neg (by rw [h]; decide)
      rw [hw, if_pos (not_ne_self _)]
      rfl

theorem testBiosRegionRw_eq (p : Platform) :
    testBiosRegionRw p = ((List.range' 0x32000 0xe000).all p.ram, p) :=
  probe_eq p 0xe000 0x32000

/-- The chipset-specific methods. -/
inductive Method where
  | piix4Pam
  | q35Pam
  | skylakePam
  | amdMtrr
  deriving DecidableEq, Repr

/-- What the machine and its firmware do on each request: whether there is a
Legacy Region 2 protocol, what its unlocking does, the host bridge, and what each
method does; a `true` is a status of success. -/
structure Machine where
  hasProtocol : Platform → Bool
  unlockLegacyRegionProtocol : Platform → Bool × Platform
  hostBridgeId : Platform → UInt32
  unlock : Method → Platform → Bool × Platform

def intelVendorId : UInt16 := 0x8086
def amdVendorId : UInt16 := 0x1022

def chipsetMethod (hostBridgeId : UInt32) : Option Method :=
  let vendorId := (hostBridgeId &&& 0xffff).toUInt16
  let deviceId := ((hostBridgeId >>> 16) &&& 0xffff).toUInt16
  if vendorId = intelVendorId then
    if deviceId ∈ [0x1237, 0x7190, 0x71a0, 0x7194, 0x7180] then some .piix4Pam
    else if deviceId ∈ [0x29c0, 0x29e0] then some .q35Pam
    else some .skylakePam
  else if vendorId = amdVendorId then some .amdMtrr
  else none

/-- A step that reports success, and then the probe. -/
def tryUnlock (step : Bool × Platform) : Bool × Platform :=
  if step.1 then testBiosRegionRw step.2 else (false, step.2)

def tryProtocol (machine : Machine) (p : Platform) : Bool × Platform :=
  if machine.hasProtocol p then tryUnlock (machine.unlockLegacyRegionProtocol p) else (false, p)

def tryChipset (machine : Machine) (p : Platform) : Bool × Platform :=
  match chipsetMethod (machine.hostBridgeId p) with
  | some method => tryUnlock (machine.unlock method p)
  | none => (false, p)

def unlockBiosRegion (machine : Machine) (p : Platform) : Int × Platform :=
  match testBiosRegionRw p with
  | (true, p) => (0, p)
  | (false, p) =>
    match tryProtocol machine p with
    | (true, p) => (0, p)
    | (false, p) =>
      match tryChipset machine p with
      | (true, p) => (0, p)
      | (false, p) => (-1, p)

def RegionWritable (ram : Nat → Bool) : Prop :=
  ∀ a, biosromStart ≤ a → a < biosromEnd → ram (a / 4) = true

theorem regionWritable_iff_all {ram : Nat → Bool} :
    RegionWritable ram ↔ (List.range' 0x32000 0xe000).all ram = true := by
  simp only [RegionWritable, biosromStart, vgabiosEnd, biosromEnd]
  constructor
  · intro h
    apply List.all_eq_true.mpr
    intro i hi
    have hrange := List.mem_range'_1.mp hi
    have hram := h (4 * i) (by omega) (by omega)
    rwa [Nat.mul_div_cancel_left _ (by decide)] at hram
  · intro h a hlo hhi
    apply List.all_eq_true.mp h
    apply List.mem_range'_1.mpr
    omega

/-- **The probe is accurate and leaves no trace.** It succeeds just when all of the
region is RAM, and whichever dword it stops at, memory is what it was before. -/
theorem probe_accurate (p : Platform) :
    ((testBiosRegionRw p).1 = true ↔ RegionWritable p.ram) ∧
      (∀ i, readl (testBiosRegionRw p).2 i = readl p i) ∧ (testBiosRegionRw p).2 = p := by
  rw [testBiosRegionRw_eq, regionWritable_iff_all]
  exact ⟨Iff.rfl, fun _ => rfl, rfl⟩

theorem testBiosRegionRw_writable {p q : Platform} (h : testBiosRegionRw p = (true, q)) :
    RegionWritable q.ram := by
  rw [testBiosRegionRw_eq, Prod.mk.injEq] at h
  obtain ⟨hall, rfl⟩ := h
  exact regionWritable_iff_all.mpr hall

theorem tryUnlock_writable {step : Bool × Platform} {q : Platform}
    (h : tryUnlock step = (true, q)) : RegionWritable q.ram := by
  unfold tryUnlock at h
  split at h
  · exact testBiosRegionRw_writable h
  · cases h

theorem tryProtocol_writable {machine : Machine} {p q : Platform}
    (h : tryProtocol machine p = (true, q)) : RegionWritable q.ram := by
  unfold tryProtocol at h
  split at h
  · exact tryUnlock_writable h
  · cases h

theorem tryChipset_writable {machine : Machine} {p q : Platform}
    (h : tryChipset machine p = (true, q)) : RegionWritable q.ram := by
  unfold tryChipset at h
  split at h
  · exact tryUnlock_writable h
  · cases h

/-- However the region was unlocked, the last thing done before returning 0 is a
probe that succeeded. -/
theorem unlock_writable {machine : Machine} {p q : Platform}
    (h : unlockBiosRegion machine p = (0, q)) : RegionWritable q.ram := by
  unfold unlockBiosRegion at h
  split at h
  · next hfirst => cases h; exact testBiosRegionRw_writable hfirst
  · split at h
    · next hprotocol => cases h; exact tryProtocol_writable hprotocol
    · split at h
      · next hchipset => cases h; exact tryChipset_writable hchipset
      · cases h

theorem unlock_of_writable (machine : Machine) {p : Platform} (h : RegionWritable p.ram) :
    unlockBiosRegion machine p = (0, p) := by
  have hall := regionWritable_iff_all.mp h
  unfold unlockBiosRegion
  rw [testBiosRegionRw_eq, hall]

def csmBinBase (csm16 : List UInt8) : Nat := biosromEnd - csm16.length

/-- The two `memcpy` calls of `efi_main`: the Csm16 image, then the VBIOS. -/
def copyImages (ram : Nat → Bool) (mem : Mem) (csm16 vbios : List UInt8) : Mem :=
  let writable := fun a => ram (a / 4)
  let mem := copy writable mem (csmBinBase csm16) csm16
  copy writable mem vgabiosStart vbios

/-- The bytes in the place of an image are the image. -/
def Holds (mem : Mem) (a : Nat) (image : List UInt8) : Prop :=
  ∀ i, (hi : i < image.length) → mem (a + i) = image[i]

/-- No byte of the VBIOS overwrites a different byte of the Csm16 image. -/
def Compatible (csm16 vbios : List UInt8) : Prop :=
  ∀ i j, (hi : i < csm16.length) → (hj : j < vbios.length) →
    csmBinBase csm16 + i = vgabiosStart + j → csm16[i] = vbios[j]

/-- The bytes of the VBIOS that the copy cannot write are there already. -/
def Present (ram : Nat → Bool) (mem : Mem) (vbios : List UInt8) : Prop :=
  ∀ i, (hi : i < vbios.length) → ram ((vgabiosStart + i) / 4) = false →
    mem (vgabiosStart + i) = vbios[i]

section
variable {ram : Nat → Bool} (hram : RegionWritable ram) (mem : Mem) {csm16 : List UInt8}
  (hbase : vgabiosEnd ≤ csmBinBase csm16) (hsize : csm16.length ≤ biosromEnd)
  (vbios : List UInt8)
include hram hbase hsize

theorem csm_writable {i : Nat} (hi : i < csm16.length) :
    ram ((csmBinBase csm16 + i) / 4) = true := by
  apply hram
  · unfold biosromStart
    omega
  · unfold csmBinBase
    omega

/-- The Csm16 image survives where the VBIOS does not reach or agrees. -/
theorem holds_csm_iff :
    Holds (copyImages ram mem csm16 vbios) (csmBinBase csm16) csm16 ↔ Compatible csm16 vbios := by
  constructor
  · intro h i j hi hj he
    have hw := csm_writable hram hbase hsize hi
    rw [← h i hi, copyImages, he]
    rw [he] at hw
    exact copy_inside _ _ _ hj hw
  · intro h i hi
    have hw := csm_writable hram hbase hsize hi
    unfold copyImages
    by_cases hout : csmBinBase csm16 + i < vgabiosStart + vbios.length
    · have hge : vgabiosStart ≤ csmBinBase csm16 + i := by
        simp only [vgabiosEnd, vgabiosStart] at hbase ⊢
        omega
      obtain ⟨j, hj⟩ : ∃ j, csmBinBase csm16 + i = vgabiosStart + j :=
        ⟨csmBinBase csm16 + i - vgabiosStart, by omega⟩
      rw [h i j hi (by omega) hj]
      rw [hj] at hw ⊢
      exact copy_inside _ _ _ (by omega) hw
    · rw [copy_outside _ _ _ _ (.inr (by omega))]
      exact copy_inside _ _ _ hi hw

end

/-- The VBIOS survives where it can be written or is there already. -/
theorem holds_vbios_iff (ram : Nat → Bool) (mem : Mem) (csm16 vbios : List UInt8) :
    Holds (copyImages ram mem csm16 vbios) vgabiosStart vbios ↔ Present ram mem vbios := by
  have readonly : ∀ i, ram ((vgabiosStart + i) / 4) = false →
      copyImages ram mem csm16 vbios (vgabiosStart + i) = mem (vgabiosStart + i) := by
    intro i hro
    unfold copyImages
    exact (copy_readonly (fun a => ram (a / 4)) _ _ _ hro).trans
      (copy_readonly (fun a => ram (a / 4)) _ _ _ hro)
  constructor
  · intro h i hi hro
    rw [← readonly i hro]
    exact h i hi
  · intro h i hi
    cases hw : ram ((vgabiosStart + i) / 4) with
    | false => rw [readonly i hw]; exact h i hi hw
    | true => exact copy_inside _ _ _ hi hw

/-- **When both images survive the copies.** After a successful unlocking that is
exactly when the VBIOS does not overwrite the Csm16 image with other bytes, and
each of its bytes that falls on read-only memory is there already. -/
theorem images_survive_iff (machine : Machine) (p q : Platform)
    (hunlock : unlockBiosRegion machine p = (0, q)) (mem : Mem) (csm16 vbios : List UInt8)
    (hsize : csm16.length ≤ biosromEnd) (hbase : vgabiosEnd ≤ csmBinBase csm16) :
    (Holds (copyImages q.ram mem csm16 vbios) (csmBinBase csm16) csm16 ∧
      Holds (copyImages q.ram mem csm16 vbios) vgabiosStart vbios) ↔
    Compatible csm16 vbios ∧ Present q.ram mem vbios := by
  have hram := unlock_writable hunlock
  rw [holds_csm_iff hram mem hbase hsize, holds_vbios_iff]

/-- A machine that can do nothing about its memory. -/
def fixedMachine : Machine where
  hasProtocol := fun _ => false
  unlockLegacyRegionProtocol := fun p => (false, p)
  hostBridgeId := fun _ => 0
  unlock := fun _ p => (false, p)

theorem images_survive_small :
    Holds (copyImages (fun _ => true) (fun _ => 0) [1, 2, 3, 4] [0x55, 0xaa])
      (csmBinBase [1, 2, 3, 4]) [1, 2, 3, 4] ∧
    Holds (copyImages (fun _ => true) (fun _ => 0) [1, 2, 3, 4] [0x55, 0xaa]) vgabiosStart
      [0x55, 0xaa] := by
  refine (images_survive_iff fixedMachine ⟨fun _ => 0, fun _ => true⟩ ⟨fun _ => 0, fun _ => true⟩
    (unlock_of_writable _ fun _ _ _ => rfl) (fun _ => 0) [1, 2, 3, 4] [0x55, 0xaa] (by decide)
    (by decide)).mpr ⟨?_, ?_⟩
  · intro i j hi hj he
    simp only [csmBinBase, biosromEnd, vgabiosStart, List.length_cons, List.length_nil] at hi hj he
    omega
  · intro i hi hro
    cases hro

/-- Two ways to lose an image although the region was unlocked. The dword at
0xc0000, which the probe does not look at, is read-only; or the VBIOS is a file of
256 KiB, whose end replaces the last byte of the Csm16 image. -/
theorem images_survive_lost :
    (unlockBiosRegion fixedMachine ⟨fun _ => 0, fun i => i ≠ 0x30000⟩ =
        (0, ⟨fun _ => 0, fun i => i ≠ 0x30000⟩) ∧
      ¬ Holds (copyImages (fun i => i ≠ 0x30000) (fun _ => 0) [1, 2, 3, 4] [0x55, 0xaa])
        vgabiosStart [0x55, 0xaa]) ∧
    (unlockBiosRegion fixedMachine ⟨fun _ => 0, fun _ => true⟩ = (0, ⟨fun _ => 0, fun _ => true⟩) ∧
      (List.replicate (256 * 1024) (0xaa : UInt8)).length = 256 * 1024 ∧
      ¬ Holds (copyImages (fun _ => true) (fun _ => 0) [1, 2, 3, 4]
        (List.replicate (256 * 1024) 0xaa)) (csmBinBase [1, 2, 3, 4]) [1, 2, 3, 4]) := by
  refine ⟨⟨unlock_of_writable _ ?_, ?_⟩, unlock_of_writable _ fun _ _ _ => rfl,
    List.length_replicate, ?_⟩
  · intro a hlo _
    simp only [biosromStart, vgabiosEnd] at hlo
    simp only [ne_eq, decide_not, Bool.not_eq_true', decide_eq_false_iff_not]
    omega
  · rw [holds_vbios_iff]
    intro h
    have h0 := h 0 (by decide) (by decide)
    revert h0
    decide
  · rw [holds_csm_iff (fun _ _ _ => rfl) _ (by decide) (by decide)]
    intro h
    have h0 := h 0 (0x3fffc) (by decide) (by rw [List.length_replicate]; decide) (by decide)
    rw [List.getElem_replicate] at h0
    revert h0
    decide

end CsmWrap.Boot
