import Mathlib.Data.UInt
import Mathlib.Tactic.Basic

/-!
# The E820 table and `e820_add`

csmwrap (`src/e820.c`) and SeaBIOS (`seabios/src/e820map.c`) each carry a copy
of the same table code. The copies differ in the type of the `type` argument,
in the value that marks a hole and in their limit; `Variant` holds these, and
`e820Add` is the code common to both.
-/

namespace CsmWrap.E820

/-- `EFI_E820_ENTRY64` of csmwrap and `struct e820entry` of SeaBIOS. `Type` is
a 32-bit field in both. -/
structure Entry where
  baseAddr : UInt64
  length : UInt64
  type : UInt32
  deriving DecidableEq, Repr

/-- `e_end`, with the wrap of the 64-bit addition. -/
def Entry.eEnd (e : Entry) : UInt64 := e.baseAddr + e.length

/-- The used part of the array with its count, and how many insertions were
turned away so far ("e820_map overflow" in csmwrap, `warn_noalloc` in SeaBIOS). -/
@[ext] structure Table where
  entries : List Entry
  refused : Nat
  deriving DecidableEq, Repr

def Table.empty : Table := ⟨[], 0⟩

/-- Where the two copies differ. `store` is the conversion of a `type` argument
to the entry's field, `load` the conversion back in `type == e->Type`. -/
structure Variant (τ : Type) where
  maxEntries : Nat
  hole : τ
  store : τ → UInt32
  load : UInt32 → τ
  store_load : ∀ x, store (load x) = x
  load_store_ne : ∀ t, t ≠ hole → load (store t) ≠ hole

/-- csmwrap's copy first checks the index and leaves the table alone when it is
out of range, as `eraseIdx` does; SeaBIOS's copy has no check. -/
def removeE820 (t : Table) (i : Nat) : Table := { t with entries := t.entries.eraseIdx i }

/-- The variables that the two loops of `e820_add` change. -/
structure Scan where
  table : Table
  i : Nat
  start : UInt64
  size : UInt64

section
variable {τ : Type} (v : Variant τ)

def insertE820 (t : Table) (i : Nat) (start size : UInt64) (type : τ) : Table :=
  if t.entries.length ≥ v.maxEntries then { t with refused := t.refused + 1 }
  else { t with entries := t.entries.insertIdx i ⟨start, size, v.store type⟩ }

variable [DecidableEq τ]

/-- The first loop: find the position of the new item, splitting an existing
item if needed. -/
def splitExisting (t : Table) (start size stop : UInt64) (type : τ) : Scan :=
  let i := t.entries.findIdx fun e => !decide (start > e.eEnd)
  match t.entries[i]? with
  | none => ⟨t, i, start, size⟩
  | some e =>
    if start > e.baseAddr then
      if type = v.load e.type then
        -- Same type: merge them.
        ⟨t, i, e.baseAddr, size + (start - e.baseAddr)⟩
      else
        let cut := { t with entries := t.entries.set i { e with length := start - e.baseAddr } }
        if e.eEnd > stop then
          ⟨insertE820 v cut (i + 1) stop (e.eEnd - stop) (v.load e.type), i + 1, start, size⟩
        else ⟨cut, i + 1, start, size⟩
    else ⟨t, i, start, size⟩

/-- The second loop: remove or adjust the items that the new one overlaps. Each
round but the last removes an entry, so the entry count is fuel enough. -/
def absorbOverlapping (stop : UInt64) (type : τ) : Nat → Scan → Scan
  | 0, s => s
  | fuel + 1, s =>
    match s.table.entries[s.i]? with
    | none => s
    | some e =>
      if stop < e.baseAddr then s
      else if stop ≥ e.eEnd then
        absorbOverlapping stop type fuel { s with table := removeE820 s.table s.i }
      else
        let e' : Entry := { e with baseAddr := stop, length := e.eEnd - stop }
        let adjusted := { s.table with entries := s.table.entries.set s.i e' }
        if type = v.load e'.type then
          { s with table := removeE820 adjusted s.i, size := s.size + e'.length }
        else { s with table := adjusted }

def e820Add (t : Table) (start size : UInt64) (type : τ) : Table :=
  if size = 0 then t
  else
    let stop := start + size
    let s := splitExisting v t start size stop type
    let s := absorbOverlapping v stop type s.table.entries.length s
    if type ≠ v.hole then insertE820 v s.table s.i s.start s.size type else s.table

/-- Remove any definitions in a memory range. -/
def e820Remove (t : Table) (start size : UInt64) : Table := e820Add v t start size v.hole

end

/-- `EfiAcpiAddressRangeHole`, which is `-1UL`, on x86_64. On ia32 it has 32 bits, like the
types that are stored. -/
def efiAcpiAddressRangeHole : UInt64 := 0xffffffffffffffff

def e820MaxEntries : Nat := 128

/-- csmwrap on x86_64: `type` is a `uint64_t`, cut to 32 bits when stored and extended
again when compared. -/
def csmwrap : Variant UInt64 where
  maxEntries := e820MaxEntries
  hole := efiAcpiAddressRangeHole
  store := UInt64.toUInt32
  load := UInt32.toUInt64
  store_load x := by simp
  load_store_ne t _ h := by
    have := congrArg UInt64.toNat h
    have hlt := t.toUInt32.toNat_lt
    simp [efiAcpiAddressRangeHole] at this
    omega

/-- `BUILD_MAX_E820`. -/
def buildMaxE820 : Nat := 128

def e820Ram : UInt32 := 1
def e820Reserved : UInt32 := 2
def e820Acpi : UInt32 := 3

/-- `E820_HOLE`, `((u32)-1)`. -/
def e820Hole : UInt32 := 0xffffffff

/-- SeaBIOS: `type` is a `u32` throughout. -/
def seabios : Variant UInt32 where
  maxEntries := buildMaxE820
  hole := e820Hole
  store := id
  load := id
  store_load _ := rfl
  load_store_ne _ h := h

/-- `EFI_ACPI_MEMORY_TYPE`. -/
def efiAcpiAddressRangeMemory : UInt32 := 1
def efiAcpiAddressRangeReserved : UInt32 := 2
def efiAcpiAddressRangeACPI : UInt32 := 3
def efiAcpiAddressRangeNVS : UInt32 := 4

end CsmWrap.E820
