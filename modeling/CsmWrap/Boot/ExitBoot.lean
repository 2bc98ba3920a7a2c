import CsmWrap.E820.Build

/-!
# Leaving boot services

The end of `efi_main` is a protocol with the firmware: csmwrap asks for the memory map,
and leaves boot services with the key of the map it got. The firmware may change the map
at any time in between, and refuses a key that is not current. csmwrap then tries again,
up to 128 times, with the key and the map that it has.
-/

namespace CsmWrap.Boot
open E820

/-- A memory map and its key. -/
structure Snapshot where
  map : List MemoryDescriptor
  key : UInt64
  deriving DecidableEq

/-- The firmware, as the calls of `efi_main` meet it. `ExitBootServices` may itself change
the map before it looks at the key. -/
structure Firmware where
  descriptorSize : Nat
  /-- Whether `AllocatePool` succeeds. -/
  allocatePool : Bool
  /-- The current map at the first call of `GetMemoryMap`, which is for its size. -/
  probed : Snapshot
  /-- The current map at the second call of `GetMemoryMap`. -/
  taken : Snapshot
  /-- The current map when the `i`-th call of `ExitBootServices` looks at the key. -/
  current : Nat → Snapshot

namespace Firmware
variable (fw : Firmware)

def mapSize (s : Snapshot) : Nat := fw.descriptorSize * s.map.length

/-- The second call of `GetMemoryMap`, with a buffer of a size. -/
def getMemoryMap (size : Nat) : Option Snapshot :=
  if fw.mapSize fw.taken ≤ size then some fw.taken else none

/-- The `i`-th call of `ExitBootServices` succeeds. -/
def exitBootServices (i : Nat) (key : UInt64) : Bool := key = (fw.current i).key

/-- The loop over the calls from the `i`-th on, with `n` left: the call that succeeds. -/
def exitLoop (key : UInt64) : Nat → Nat → Option Nat
  | 0, _ => none
  | n + 1, i => if fw.exitBootServices i key then some i else exitLoop key n (i + 1)

end Firmware

/-- How `efi_main` ends, or goes on to `build_e820_map`: after which call and with which
map. -/
inductive Exit where
  | allocatePoolFailed
  | getMemoryMapFailed
  | exitBootServicesFailed
  | exited (call : Nat) (map : List MemoryDescriptor)
  deriving DecidableEq

def efiMainExit (fw : Firmware) : Exit :=
  let efiMmapSize := fw.mapSize fw.probed + 4096
  if fw.allocatePool = false then .allocatePoolFailed
  else match fw.getMemoryMap efiMmapSize with
    | none => .getMemoryMapFailed
    | some efiMmap =>
      match fw.exitLoop efiMmap.key 128 0 with
      | none => .exitBootServicesFailed
      | some call => .exited call efiMmap.map

/-- `efi_main` comes to the loop. -/
structure Firmware.ReachesLoop (fw : Firmware) : Prop where
  allocatePool : fw.allocatePool = true
  room : fw.mapSize fw.taken ≤ fw.mapSize fw.probed + 4096

/-- Boot services are left, and the map that is used is current at the call that succeeds. -/
def ExitsCurrent (fw : Firmware) : Prop :=
  ∃ call, efiMainExit fw = .exited call (fw.current call).map

theorem exitLoop_eq_some (fw : Firmware) (key : UInt64) (n i call : Nat) :
    fw.exitLoop key n i = some call ↔
      (i ≤ call ∧ call < i + n) ∧ (fw.current call).key = key ∧
        ∀ j, i ≤ j → j < call → (fw.current j).key ≠ key := by
  induction n generalizing i with
  | zero =>
    refine iff_of_false (fun h => by cases h) ?_
    rintro ⟨hrange, -⟩
    omega
  | succ n ih =>
    simp only [Firmware.exitLoop, Firmware.exitBootServices, decide_eq_true_eq]
    split
    · next hkey =>
      rw [Option.some_inj]
      constructor
      · rintro rfl
        exact ⟨⟨le_refl _, by omega⟩, hkey.symm, fun j hij hji => by omega⟩
      · rintro ⟨⟨hle, -⟩, -, hbefore⟩
        by_contra hne
        exact hbefore i (le_refl _) (by omega) hkey.symm
    · next hkey =>
      rw [ih (i + 1)]
      constructor
      · rintro ⟨hrange, hcall, hbefore⟩
        refine ⟨by omega, hcall, fun j hij hji => ?_⟩
        rcases Nat.eq_or_lt_of_le hij with rfl | hij
        · exact fun h => hkey h.symm
        · exact hbefore j hij hji
      · rintro ⟨hrange, hcall, hbefore⟩
        have hne : i ≠ call := by
          rintro rfl
          exact hkey hcall.symm
        exact ⟨by omega, hcall, fun j hij => hbefore j (by omega)⟩

theorem efiMainExit_eq {fw : Firmware} (h : fw.ReachesLoop) :
    efiMainExit fw = match fw.exitLoop fw.taken.key 128 0 with
      | none => .exitBootServicesFailed
      | some call => .exited call fw.taken.map := by
  have hon : ¬ fw.allocatePool = false := by rw [h.allocatePool]; decide
  have hmap : fw.getMemoryMap (fw.mapSize fw.probed + 4096) = some fw.taken := if_pos h.room
  unfold efiMainExit
  dsimp only
  rw [if_neg hon, hmap]

/-- **Leaving boot services works**, with the map that is then current, just when some one
of the 128 calls still meets the key that `GetMemoryMap` gave, and the first such call the
map as well. In particular when nothing has changed before the first call; but a key that
is refused is never replaced. -/
theorem exits_current_iff {fw : Firmware} (h : fw.ReachesLoop) :
    ExitsCurrent fw ↔
      ∃ call < 128, (fw.current call).key = fw.taken.key ∧
        (∀ j < call, (fw.current j).key ≠ fw.taken.key) ∧
        (fw.current call).map = fw.taken.map := by
  have hloop := exitLoop_eq_some fw fw.taken.key 128 0
  unfold ExitsCurrent
  rw [efiMainExit_eq h]
  constructor
  · rintro ⟨call, hexit⟩
    cases hrun : fw.exitLoop fw.taken.key 128 0 with
    | none =>
      rw [hrun] at hexit
      cases hexit
    | some call' =>
      rw [hrun] at hexit
      obtain ⟨rfl, hmap⟩ := Exit.exited.inj hexit
      obtain ⟨⟨-, hlt⟩, hkey, hbefore⟩ := (hloop call').mp hrun
      exact ⟨call', by omega, hkey, fun j hj => hbefore j (Nat.zero_le j) hj, hmap.symm⟩
  · rintro ⟨call, hlt, hkey, hbefore, hmap⟩
    have hrun := (hloop call).mpr ⟨⟨Nat.zero_le _, by omega⟩, hkey, fun j _ => hbefore j⟩
    refine ⟨call, ?_⟩
    rw [hrun, hmap]

/-- One descriptor, of a megabyte of conventional memory. -/
def megabyte : MemoryDescriptor := ⟨efiConventionalMemory, 0x100000, 256⟩

/-- Firmware in which nothing changes. -/
def steadyFirmware : Firmware where
  descriptorSize := 48
  allocatePool := true
  probed := ⟨[megabyte], 1⟩
  taken := ⟨[megabyte], 1⟩
  current _ := ⟨[megabyte], 1⟩

theorem exits_current_steady : ExitsCurrent steadyFirmware :=
  (exits_current_iff ⟨rfl, by decide⟩).mpr ⟨0, by decide, rfl, fun _ h => absurd h (by omega), rfl⟩

/-- Firmware in which the first call of `ExitBootServices` frees a page, and no later one
anything. -/
def freeingFirmware : Firmware :=
  { steadyFirmware with current := fun _ => ⟨[{ megabyte with numberOfPages := 257 }], 2⟩ }

/-- The map has changed once and for all, and all 128 calls are refused. -/
theorem exits_current_freed :
    freeingFirmware.ReachesLoop ∧ (∀ i, freeingFirmware.current i = freeingFirmware.current 0) ∧
      efiMainExit freeingFirmware = .exitBootServicesFailed :=
  ⟨⟨rfl, by decide⟩, fun _ => rfl, by decide⟩

end CsmWrap.Boot
