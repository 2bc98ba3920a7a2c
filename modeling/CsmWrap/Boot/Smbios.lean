import CsmWrap.Boot.Csm
import Mathlib.Data.List.Basic

/-!
# Publishing the SMBIOS table

`set_smbios_table` looks through the UEFI configuration tables for an SMBIOS entry,
then for an SMBIOS 3 entry, and stores the address in the boot table. The Csm16 is
32-bit code, so only a table below 4 GiB is of use to it.
-/

namespace CsmWrap.Boot
open Memory

structure EfiGuid where
  data1 : UInt32
  data2 : UInt16
  data3 : UInt16
  data4 : Vector UInt8 8
  deriving DecidableEq

/-- `SMBIOS_TABLE_GUID` -/
def smbiosTableGuid : EfiGuid :=
  ⟨0xeb9d2d31, 0x2d88, 0x11d3, #v[0x9a, 0x16, 0x0, 0x90, 0x27, 0x3f, 0xc1, 0x4d]⟩

/-- `SMBIOS3_TABLE_GUID` -/
def smbios3TableGuid : EfiGuid :=
  ⟨0xf2fd1544, 0x9794, 0x4a2c, #v[0x99, 0x2e, 0xe5, 0xbb, 0xcf, 0x20, 0xe3, 0x94]⟩

/-- `EFI_CONFIGURATION_TABLE` -/
structure ConfigurationTable where
  vendorGuid : EfiGuid
  vendorTable : UInt64
  deriving DecidableEq

/-- One of the two loops, entered with `table_addr`. It stops at the first entry
with the GUID, and the guard is on the address from before. -/
def searchTables (guid : EfiGuid) (tableAddr : UInt64) : List ConfigurationTable → UInt64
  | [] => tableAddr
  | table :: tables =>
    if table.vendorGuid = guid then
      if tableAddr < 0x100000000 then table.vendorTable else tableAddr
    else searchTables guid tableAddr tables

/-- Where `boot_table.SmbiosTable` is. -/
def smbiosTableField : Nat := (bootTable .x86_64).toNat + smbiosTableOffset

/-- The value returned and the memory. -/
def setSmbiosTable (mem : Mem) (tables : List ConfigurationTable) : Int × Mem :=
  let tableAddr := searchTables smbiosTableGuid 0 tables
  let tableAddr :=
    if tableAddr = 0 then searchTables smbios3TableGuid tableAddr tables else tableAddr
  if tableAddr ≠ 0 then (0, write32 mem smbiosTableField tableAddr.toUInt32) else (-1, mem)

def Usable (addr : UInt64) : Prop := addr ≠ 0 ∧ addr < 0x100000000

instance (addr : UInt64) : Decidable (Usable addr) := inferInstanceAs (Decidable (_ ∧ _))

/-- The addresses of the entries with a GUID, in order. -/
def addresses (guid : EfiGuid) (tables : List ConfigurationTable) : List UInt64 :=
  (tables.filter fun table => table.vendorGuid = guid).map ConfigurationTable.vendorTable

/-- The first usable SMBIOS entry, or else the first usable SMBIOS 3 entry. -/
def firstUsable (tables : List ConfigurationTable) : Option UInt64 :=
  ((addresses smbiosTableGuid tables).find? fun addr => Usable addr).or
    ((addresses smbios3TableGuid tables).find? fun addr => Usable addr)

/-- The address in the first SMBIOS entry, or, when there is none or it is null, in
the first SMBIOS 3 entry. -/
def leading (tables : List ConfigurationTable) : Option UInt64 :=
  ((addresses smbiosTableGuid tables).head?.filter fun addr => addr ≠ 0).or
    ((addresses smbios3TableGuid tables).head?.filter fun addr => addr ≠ 0)

/-- Success just when there is a usable entry, whose address is then stored in full;
no change otherwise. -/
structure PublishesUsable (mem : Mem) (tables : List ConfigurationTable) : Prop where
  success : (setSmbiosTable mem tables).1 = 0 ↔
    ∃ table ∈ tables, (table.vendorGuid = smbiosTableGuid ∨ table.vendorGuid = smbios3TableGuid) ∧
      Usable table.vendorTable
  address : ∀ addr, firstUsable tables = some addr →
    (read32 (setSmbiosTable mem tables).2 smbiosTableField).toNat = addr.toNat
  unchanged : (setSmbiosTable mem tables).1 = -1 →
    read32 (setSmbiosTable mem tables).2 smbiosTableField = read32 mem smbiosTableField

theorem searchTables_eq (guid : EfiGuid) (tables : List ConfigurationTable) :
    searchTables guid 0 tables = (addresses guid tables).head?.getD 0 := by
  induction tables with
  | nil => rfl
  | cons table tables ih =>
    unfold searchTables addresses
    by_cases h : table.vendorGuid = guid
    · simp [h]
    · rw [if_neg h, ih, List.filter_cons_of_neg (by simpa using h)]
      rfl

theorem setSmbiosTable_eq (mem : Mem) (tables : List ConfigurationTable) :
    setSmbiosTable mem tables =
      match leading tables with
      | some addr => (0, write32 mem smbiosTableField addr.toUInt32)
      | none => (-1, mem) := by
  have hfilter : ∀ l : List UInt64, l.head?.filter (fun addr => addr ≠ 0) =
      if l.head?.getD 0 = 0 then none else some (l.head?.getD 0) := by
    intro l
    cases l with
    | nil => rfl
    | cons addr l => by_cases h : addr = 0 <;> simp [Option.filter, h]
  unfold setSmbiosTable leading
  simp only [searchTables_eq, hfilter]
  by_cases h2 : (addresses smbiosTableGuid tables).head?.getD 0 = 0
  · simp only [h2, if_true, searchTables_eq, Option.none_or]
    by_cases h3 : (addresses smbios3TableGuid tables).head?.getD 0 = 0 <;> simp [h3]
  · simp [h2]

theorem mem_addresses {guid : EfiGuid} {tables : List ConfigurationTable} {addr : UInt64} :
    addr ∈ addresses guid tables ↔
      ∃ table ∈ tables, table.vendorGuid = guid ∧ table.vendorTable = addr := by
  simp [addresses, and_assoc]

theorem firstUsable_isSome (tables : List ConfigurationTable) :
    (firstUsable tables).isSome ↔
      ∃ table ∈ tables, (table.vendorGuid = smbiosTableGuid ∨ table.vendorGuid = smbios3TableGuid) ∧
        Usable table.vendorTable := by
  unfold firstUsable
  simp only [Option.isSome_or, Bool.or_eq_true, List.find?_isSome, mem_addresses,
    decide_eq_true_eq]
  constructor
  · rintro (⟨_, ⟨table, hmem, hguid, rfl⟩, husable⟩ | ⟨_, ⟨table, hmem, hguid, rfl⟩, husable⟩)
    · exact ⟨table, hmem, .inl hguid, husable⟩
    · exact ⟨table, hmem, .inr hguid, husable⟩
  · rintro ⟨table, hmem, hguid | hguid, husable⟩
    · exact .inl ⟨_, ⟨table, hmem, hguid, rfl⟩, husable⟩
    · exact .inr ⟨_, ⟨table, hmem, hguid, rfl⟩, husable⟩

theorem usable_of_firstUsable {tables : List ConfigurationTable} {addr : UInt64}
    (h : firstUsable tables = some addr) : Usable addr := by
  unfold firstUsable at h
  rcases Option.or_eq_some_iff.mp h with h | ⟨-, h⟩
  all_goals simpa using List.find?_some h

theorem toNat_toUInt32_of_usable {addr : UInt64} (h : Usable addr) :
    addr.toUInt32.toNat = addr.toNat := by
  have hlt : addr.toNat < 0x100000000 := UInt64.lt_iff_toNat_lt.mp h.2
  rw [UInt64.toNat_toUInt32, Nat.mod_eq_of_lt hlt]

section
variable (mem : Mem) {tables : List ConfigurationTable}

theorem setSmbiosTable_none (h : leading tables = none) :
    setSmbiosTable mem tables = (-1, mem) := by
  rw [setSmbiosTable_eq, h]

theorem setSmbiosTable_some {addr : UInt64} (h : leading tables = some addr) :
    (setSmbiosTable mem tables).1 = 0 ∧
      read32 (setSmbiosTable mem tables).2 smbiosTableField = addr.toUInt32 := by
  rw [setSmbiosTable_eq, h]
  exact ⟨rfl, read32_write32 _ _ _⟩

theorem publishes_of_none (h : leading tables = none) :
    PublishesUsable mem tables ↔ firstUsable tables = none := by
  have hset := setSmbiosTable_none mem h
  constructor
  · rintro ⟨hsuccess, -, -⟩
    rw [← firstUsable_isSome, hset] at hsuccess
    cases hf : firstUsable tables with
    | none => rfl
    | some addr =>
      rw [hf] at hsuccess
      cases hsuccess.mpr rfl
  · intro hf
    constructor
    · rw [← firstUsable_isSome, hset, hf]
      exact iff_of_false nofun nofun
    · intro addr haddr
      rw [hf] at haddr
      cases haddr
    · intro _
      rw [hset]

theorem publishes_of_some {addr : UInt64} (h : leading tables = some addr) :
    PublishesUsable mem tables ↔ (firstUsable tables).map UInt64.toUInt32 = some addr.toUInt32 := by
  obtain ⟨hzero, hread⟩ := setSmbiosTable_some mem h
  rw [Option.map_eq_some_iff]
  constructor
  · rintro ⟨hsuccess, haddress, -⟩
    obtain ⟨usable, hf⟩ := Option.isSome_iff_exists.mp
      ((firstUsable_isSome tables).mpr (hsuccess.mp hzero))
    have hstored := haddress usable hf
    rw [hread, ← toNat_toUInt32_of_usable (usable_of_firstUsable hf)] at hstored
    exact ⟨usable, hf, (UInt32.toNat_inj.mp hstored).symm⟩
  · rintro ⟨usable, hf, hlow⟩
    constructor
    · rw [← firstUsable_isSome, hf]
      exact iff_of_true hzero rfl
    · intro addr' haddr
      rw [hf] at haddr
      cases haddr
      rw [hread, ← hlow, toNat_toUInt32_of_usable (usable_of_firstUsable hf)]
    · intro hfailed
      rw [hzero] at hfailed
      cases hfailed

end

/-- **When `set_smbios_table` publishes a usable table.** It takes the leading entry
unchecked, so its low 32 bits have to be the address of the first usable entry. -/
theorem publishes_usable_iff (mem : Mem) (tables : List ConfigurationTable) :
    PublishesUsable mem tables ↔
      (leading tables).map UInt64.toUInt32 = (firstUsable tables).map UInt64.toUInt32 := by
  cases h : leading tables with
  | none => rw [publishes_of_none mem h, Option.map_none, ← Option.map_eq_none_iff, eq_comm]
  | some addr => rw [publishes_of_some mem h, Option.map_some, eq_comm]

/-- An SMBIOS 3 table above 4 GiB is the only one, and the low half of its address
is published. -/
theorem publishes_usable_high :
    (setSmbiosTable (fun _ => 0) [⟨smbios3TableGuid, 0x1000f0000⟩]).1 = 0 ∧
      read32 (setSmbiosTable (fun _ => 0) [⟨smbios3TableGuid, 0x1000f0000⟩]).2 smbiosTableField =
        0xf0000 ∧
      ¬ PublishesUsable (fun _ => 0) [⟨smbios3TableGuid, 0x1000f0000⟩] := by
  have hset := setSmbiosTable_eq (fun _ => 0) [⟨smbios3TableGuid, 0x1000f0000⟩]
  have hlead : leading [⟨smbios3TableGuid, 0x1000f0000⟩] = some 0x1000f0000 := by decide
  have hnone : ¬ (firstUsable [⟨smbios3TableGuid, 0x1000f0000⟩]).isSome := by decide
  rw [hlead] at hset
  refine ⟨by rw [hset], ?_, ?_⟩
  · rw [hset]
    exact read32_write32 _ _ _
  · intro h
    apply hnone
    rw [firstUsable_isSome, ← h.success, hset]

end CsmWrap.Boot
