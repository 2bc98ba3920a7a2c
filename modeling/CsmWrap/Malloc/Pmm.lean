import CsmWrap.E820.Runs
import CsmWrap.Malloc.Space

/-!
# The POST memory manager

`handle_pmm` gives option ROMs access to the zones. Its three functions allocate, find
and release blocks; each is a few calls of the allocator (`pmmCalls`), so what holds of
runs of the allocator holds of runs of PMM calls.
-/

namespace CsmWrap.Malloc
open Arena E820

/-- The words of a call, as the caller pushed them. -/
abbrev Args := Nat → UInt16

/-- `*(u32*)&args[i]` -/
def Args.u32 (args : Args) (i : Nat) : UInt32 :=
  (args i).toUInt32 ||| ((args (i + 1)).toUInt32 <<< 16)

/-- What PMM calls change. -/
structure Pmm where
  heap : Heap
  e820 : Table

def pmmFunctionNotSupported : UInt32 := 0xffffffff

/-- `__ffs`: the lowest set bit of a word other than 0. -/
def ffs (word : UInt32) : Nat := ((List.range 32).find? word.toNat.testBit).getD 0

/-- `align` of `handle_pmm00`. -/
def pmmAlign (flags : UInt16) (size : UInt32) : UInt32 :=
  if flags &&& 4 ≠ 0 then
    let align := 1 <<< UInt32.ofNat (ffs size)
    if align < mallocMinAlign then mallocMinAlign else align
  else mallocMinAlign

def lowZone (flags : UInt16) : Zone := if flags &&& 8 ≠ 0 then .low else .tmpLow

def highZone (flags : UInt16) : Zone := if flags &&& 8 ≠ 0 then .high else .tmpHigh

/-- The memory size request of `handle_pmm00`. -/
def pmmSpace (h : Heap) (flags : UInt16) : UInt32 :=
  match (flags &&& 3).toNat with
  | 1 => mallocGetspace h (lowZone flags)
  | 2 => mallocGetspace h (highZone flags)
  | 3 =>
    let spacelow := mallocGetspace h (lowZone flags)
    let spacehigh := mallocGetspace h (highZone flags)
    if spacelow > spacehigh then spacelow else spacehigh
  | _ => 0

def Pmm.palloc (p : Pmm) (z : Zone) (size align : UInt32) : UInt32 × Pmm :=
  let found := mallocPalloc p.heap z size align
  (found.1, { p with heap := found.2 })

/-- The allocation of `handle_pmm00`. -/
def pmmAlloc (p : Pmm) (flags : UInt16) (size align : UInt32) : UInt32 × Pmm :=
  match (flags &&& 3).toNat with
  | 1 => p.palloc (lowZone flags) size align
  | 2 =>
    let found := p.palloc (highZone flags) size align
    if found.1 = 0 ∧ flags &&& 8 ≠ 0 then
      -- a big permanent block comes from the big temporary zone and stays reserved
      let found := found.2.palloc .tmpHigh size align
      if found.1 ≠ 0 then
        (found.1, { found.2 with
          e820 := e820Add seabios found.2.e820 found.1.toUInt64 size.toUInt64 e820Reserved })
      else found
    else found
  | 3 =>
    let found := p.palloc (lowZone flags) size align
    if found.1 = 0 then found.2.palloc (highZone flags) size align else found
  | _ => (0, p)

/-- `handle_pmm00`: allocate. -/
def handlePmm00 (p : Pmm) (args : Args) : UInt32 × Pmm :=
  let length := args.u32 1
  let handle := args.u32 3
  let flags := args 5
  if length = 0 then (pmmSpace p.heap flags, p)
  else
    let size := length * 16
    -- `(s32)size <= 0`
    if size = 0 ∨ size ≥ 0x80000000 then (0, p)
    else
      let found := pmmAlloc p flags size (pmmAlign flags size)
      if found.1 ≠ 0 ∧ handle ≠ mallocDefaultHandle then
        (found.1, { found.2 with heap := mallocSethandle found.2.heap found.1 handle })
      else found

/-- `handle_pmm01`: find. -/
def handlePmm01 (p : Pmm) (args : Args) : UInt32 :=
  let handle := args.u32 1
  if handle = mallocDefaultHandle then 0 else mallocFindhandle p.heap handle

/-- `handle_pmm02`: deallocate. -/
def handlePmm02 (p : Pmm) (args : Args) : UInt32 × Pmm :=
  match mallocPfree p.heap (args.u32 1) with
  | none => (1, p)
  | some heap => (0, { p with heap })

/-- `handle_pmm` -/
def handlePmm (p : Pmm) (args : Args) : UInt32 × Pmm :=
  match (args 0).toNat with
  | 0 => handlePmm00 p args
  | 1 => (handlePmm01 p args, p)
  | 2 => handlePmm02 p args
  | _ => (pmmFunctionNotSupported, p)

/-- The zones that `handle_pmm00` tries, up to the one that serves it. -/
def pmmZones (p : Pmm) (flags : UInt16) (size align : UInt32) : List Zone :=
  match (flags &&& 3).toNat with
  | 1 => [lowZone flags]
  | 2 =>
    if (p.palloc (highZone flags) size align).1 = 0 ∧ flags &&& 8 ≠ 0 then
      [highZone flags, .tmpHigh]
    else [highZone flags]
  | 3 =>
    if (p.palloc (lowZone flags) size align).1 = 0 then [lowZone flags, highZone flags]
    else [lowZone flags]
  | _ => []

def pmm00Calls (p : Pmm) (args : Args) : List Call :=
  let size := args.u32 1 * 16
  let align := pmmAlign (args 5) size
  if args.u32 1 = 0 ∨ size = 0 ∨ size ≥ 0x80000000 then []
  else
    let found := (pmmAlloc p (args 5) size align).1
    (pmmZones p (args 5) size align).map (.palloc · size align) ++
      if found ≠ 0 ∧ args.u32 3 ≠ mallocDefaultHandle then [.sethandle found (args.u32 3)] else []

def pmmCalls (p : Pmm) (args : Args) : List Call :=
  match (args 0).toNat with
  | 0 => pmm00Calls p args
  | 2 => [.pfree (args.u32 1)]
  | _ => []

theorem pmmAlloc_heap (p : Pmm) (flags : UInt16) (size align : UInt32) (books : List Block) :
    (runFrom ⟨p.heap, books⟩ ((pmmZones p flags size align).map (.palloc · size align))).heap =
      (pmmAlloc p flags size align).2.heap := by
  simp only [pmmZones, pmmAlloc]
  split
  · rfl
  · by_cases hfull : (p.palloc (highZone flags) size align).1 = 0 ∧ flags &&& 8 ≠ 0
    · rw [if_pos hfull, if_pos hfull]
      split <;> rfl
    · rw [if_neg hfull, if_neg hfull]
      rfl
  · by_cases hfull : (p.palloc (lowZone flags) size align).1 = 0
    · rw [if_pos hfull, if_pos hfull]
      rfl
    · rw [if_neg hfull, if_neg hfull]
      rfl
  · rfl

theorem handlePmm00_heap (p : Pmm) (args : Args) (books : List Block) :
    (runFrom ⟨p.heap, books⟩ (pmm00Calls p args)).heap = (handlePmm00 p args).2.heap := by
  simp only [pmm00Calls, handlePmm00]
  by_cases hlen : args.u32 1 = 0
  · rw [if_pos (.inl hlen), if_pos hlen]
    rfl
  by_cases hsize : args.u32 1 * 16 = 0 ∨ args.u32 1 * 16 ≥ 0x80000000
  · rw [if_pos (.inr hsize), if_neg hlen, if_pos hsize]
    rfl
  · rw [if_neg (not_or.mpr ⟨hlen, hsize⟩), if_neg hlen, if_neg hsize, runFrom, List.foldl_append]
    have hheap := pmmAlloc_heap p (args 5) (args.u32 1 * 16)
      (pmmAlign (args 5) (args.u32 1 * 16)) books
    rw [runFrom] at hheap
    split
    · exact congrArg (fun h => mallocSethandle h _ _) hheap
    · exact hheap

/-- A PMM call does to the heap what its allocator calls do. -/
theorem handlePmm_heap (p : Pmm) (args : Args) (books : List Block) :
    (runFrom ⟨p.heap, books⟩ (pmmCalls p args)).heap = (handlePmm p args).2.heap := by
  unfold pmmCalls
  split
  · next h0 =>
    simp only [handlePmm, h0]
    exact handlePmm00_heap p args books
  · next h2 =>
    simp only [handlePmm, h2, handlePmm02, runFrom, List.foldl_cons, List.foldl_nil, Run.step,
      Call.step]
    cases mallocPfree p.heap (args.u32 1) <;> rfl
  · next h0 h2 =>
    unfold handlePmm
    split
    · next h => exact absurd h h0
    · rfl
    · next h => exact absurd h h2
    · rfl

theorem ffs_spec {word : UInt32} (h : word ≠ 0) :
    ffs word < 32 ∧ word.toNat.testBit (ffs word) = true ∧
      ∀ i, i < ffs word → word.toNat.testBit i = false := by
  obtain ⟨i, hi⟩ := Nat.exists_testBit_of_ne_zero fun h0 => h (UInt32.toNat_inj.mp h0)
  have hi32 : i < 32 := by
    by_contra hge
    have hlt : word.toNat < 2 ^ i :=
      Nat.lt_of_lt_of_le word.toNat_lt (Nat.pow_le_pow_right (by omega) (by omega))
    rw [Nat.testBit_lt_two_pow hlt] at hi
    cases hi
  obtain ⟨k, hk⟩ : ∃ k, (List.range 32).find? word.toNat.testBit = some k := by
    rw [← Option.isSome_iff_exists, List.find?_isSome]
    exact ⟨i, List.mem_range.mpr hi32, hi⟩
  have hffs : ffs word = k := by simp [ffs, hk]
  obtain ⟨hbit, hmem, hlow⟩ := List.find?_range_eq_some.mp hk
  rw [hffs]
  exact ⟨List.mem_range.mp hmem, hbit, fun j hj => by simpa using hlow j hj⟩

theorem one_shiftLeft_toNat {k : Nat} (hk : k < 32) :
    ((1 : UInt32) <<< UInt32.ofNat k).toNat = 2 ^ k := by
  have hpow : 2 ^ k < 2 ^ 32 := Nat.pow_lt_pow_right (by omega) hk
  rw [UInt32.toNat_shiftLeft, UInt32.toNat_ofNat_of_lt' (by simp [UInt32.size]; omega),
    Nat.mod_eq_of_lt hk, Nat.shiftLeft_eq]
  simpa using hpow

/-- Every alignment that `handle_pmm00` asks for can be met. -/
theorem request_pmmAlign (flags : UInt16) {size : UInt32} (h0 : size ≠ 0)
    (hsize : size < 0x80000000) : Request size (pmmAlign flags size) ∧
      mallocMinAlign.toNat ∣ (pmmAlign flags size).toNat := by
  have h16 : mallocMinAlign.toNat = 2 ^ 4 := rfl
  have hlt := UInt32.lt_iff_toNat_lt.mp hsize
  have h31 : (0x80000000 : UInt32).toNat = 2 ^ 31 := rfl
  have hmin : Request size mallocMinAlign := ⟨⟨4, h16⟩, by rw [h16]; omega⟩
  unfold pmmAlign
  split
  · obtain ⟨hk, hbit, -⟩ := ffs_spec h0
    have hpow := one_shiftLeft_toNat hk
    have hle : 2 ^ ffs size ≤ size.toNat := Nat.ge_two_pow_of_testBit hbit
    simp only
    split
    · exact ⟨hmin, Nat.dvd_refl _⟩
    · next hge =>
      refine ⟨⟨⟨_, hpow⟩, by rw [hpow]; omega⟩, ?_⟩
      rw [hpow, h16]
      have hge := mt UInt32.lt_iff_toNat_lt.mpr hge
      rw [hpow, h16, Nat.pow_lt_pow_iff_right (by omega)] at hge
      exact Nat.pow_dvd_pow 2 (by omega)
  · exact ⟨hmin, Nat.dvd_refl _⟩

/-- Whatever an option ROM asks for, no call adds memory or asks for the impossible. -/
theorem plain_pmmCalls (p : Pmm) (args : Args) : ∀ c ∈ pmmCalls p args, c.Plain := by
  intro c hc
  unfold pmmCalls at hc
  split at hc
  · simp only [pmm00Calls] at hc
    split at hc
    · cases hc
    · next hsize =>
      obtain ⟨-, hsize⟩ := not_or.mp hsize
      obtain ⟨h0, hlt⟩ := not_or.mp hsize
      rcases List.mem_append.mp hc with hc | hc
      · obtain ⟨z, -, rfl⟩ := List.mem_map.mp hc
        exact request_pmmAlign (args 5) h0 (UInt32.not_le.mp hlt)
      · split at hc
        · obtain rfl := List.mem_singleton.mp hc
          trivial
        · cases hc
  · obtain rfl := List.mem_singleton.mp hc
    trivial
  · cases hc

end CsmWrap.Malloc
