import CsmWrap.E820.Report

/-!
# `build_e820_map`

The map handed to the legacy OS: the UEFI memory map converted descriptor by
descriptor, then the first megabyte laid out anew.
-/

namespace CsmWrap.E820
open Regions

/-- The fields of `EFI_MEMORY_DESCRIPTOR` that `build_e820_map` reads. -/
structure MemoryDescriptor where
  type : UInt32
  physicalStart : UInt64
  numberOfPages : UInt64
  deriving DecidableEq, Repr

def efiLoaderCode : UInt32 := 1
def efiLoaderData : UInt32 := 2
def efiBootServicesCode : UInt32 := 3
def efiBootServicesData : UInt32 := 4
def efiConventionalMemory : UInt32 := 7
def efiACPIReclaimMemory : UInt32 := 9
def efiACPIMemoryNVS : UInt32 := 10

/-- The remaining cases of the source's `switch` are those of its `default`. -/
def convertMemoryType (type : UInt32) : UInt32 :=
  if type = efiConventionalMemory ∨ type = efiLoaderCode ∨ type = efiLoaderData ∨
      type = efiBootServicesCode ∨ type = efiBootServicesData then
    efiAcpiAddressRangeMemory
  else if type = efiACPIReclaimMemory then efiAcpiAddressRangeACPI
  else if type = efiACPIMemoryNVS then efiAcpiAddressRangeNVS
  else efiAcpiAddressRangeReserved

def efiPageSize : UInt64 := 4096

/-- One round of the loop over the descriptors. -/
def addDescriptor (t : Table) (d : MemoryDescriptor) : Table :=
  let start := d.physicalStart
  let stop := start + d.numberOfPages * efiPageSize
  let type := convertMemoryType d.type
  if start = stop then t
  else if type = 0 then t
  else e820Add csmwrap t start (stop - start) type.toUInt64

/-- `EBDA_BASE`, which is `CONVEN_END`. -/
def ebdaBase : UInt64 := 0x80000

def buildE820Map (t : Table) (memoryMap : List MemoryDescriptor) : Table :=
  let t := memoryMap.foldl addDescriptor t
  -- Remove whole 1MB, we are going to fix it later.
  let t := e820Remove csmwrap t 0 0x100000
  -- Add all low memory as usable.
  let t := e820Add csmwrap t 0 0x80000 efiAcpiAddressRangeMemory.toUInt64
  -- Reserve EBDA.
  let t := e820Add csmwrap t ebdaBase 0x20000 efiAcpiAddressRangeReserved.toUInt64
  -- Reserve Expansion BIOS.
  e820Add csmwrap t 0xa0000 (0x100000 - 0xa0000) efiAcpiAddressRangeReserved.toUInt64

def MemoryDescriptor.size (d : MemoryDescriptor) : Nat := d.numberOfPages.toNat * 4096

def MemoryDescriptor.NonWrapping (d : MemoryDescriptor) : Prop :=
  d.physicalStart.toNat + d.size < 2 ^ 64

def MemoryDescriptor.Contains (d : MemoryDescriptor) (a : Nat) : Prop :=
  d.physicalStart.toNat ≤ a ∧ a < d.physicalStart.toNat + d.size

instance (d : MemoryDescriptor) (a : Nat) : Decidable (d.Contains a) :=
  inferInstanceAs (Decidable (_ ∧ _))

instance (d : MemoryDescriptor) : Decidable d.NonWrapping := inferInstanceAs (Decidable (_ < _))

/-- No address is in both. -/
def MemoryDescriptor.Disjoint (d d' : MemoryDescriptor) : Prop :=
  ∀ a, ¬ (d.Contains a ∧ d'.Contains a)

def MemoryDescriptor.call (d : MemoryDescriptor) : Call UInt64 :=
  .add d.physicalStart (d.numberOfPages * efiPageSize) (convertMemoryType d.type).toUInt64

def fixups : List (Call UInt64) :=
  [.remove 0 0x100000, .add 0 0x80000 efiAcpiAddressRangeMemory.toUInt64,
    .add ebdaBase 0x20000 efiAcpiAddressRangeReserved.toUInt64,
    .add 0xa0000 (0x100000 - 0xa0000) efiAcpiAddressRangeReserved.toUInt64]

theorem convertMemoryType_cases (type : UInt32) :
    convertMemoryType type = efiAcpiAddressRangeMemory ∨
    convertMemoryType type = efiAcpiAddressRangeACPI ∨
    convertMemoryType type = efiAcpiAddressRangeNVS ∨
    convertMemoryType type = efiAcpiAddressRangeReserved := by
  unfold convertMemoryType
  split
  · exact .inl rfl
  split
  · exact .inr (.inl rfl)
  split
  · exact .inr (.inr (.inl rfl))
  · exact .inr (.inr (.inr rfl))

theorem convertMemoryType_ne_zero (type : UInt32) : convertMemoryType type ≠ 0 := by
  rcases convertMemoryType_cases type with h | h | h | h <;> rw [h] <;> decide

theorem pages_toNat {d : MemoryDescriptor} (hn : d.NonWrapping) :
    (d.numberOfPages * efiPageSize).toNat = d.size := by
  have hp : efiPageSize.toNat = 4096 := rfl
  rw [UInt64.toNat_mul, hp]
  apply Nat.mod_eq_of_lt
  simp only [MemoryDescriptor.NonWrapping, MemoryDescriptor.size] at hn
  omega

theorem call_nonWrapping {d : MemoryDescriptor} (hn : d.NonWrapping) : d.call.NonWrapping := by
  simp only [MemoryDescriptor.call, Call.NonWrapping, Call.start, Call.size, pages_toNat hn]
  exact hn

theorem call_contains_iff {d : MemoryDescriptor} (hn : d.NonWrapping) (a : Nat) :
    d.call.Contains a ↔ d.Contains a := by
  simp only [MemoryDescriptor.call, Call.Contains, Call.start, Call.size, pages_toNat hn,
    MemoryDescriptor.Contains]

theorem addDescriptor_eq_step (t : Table) (d : MemoryDescriptor) :
    addDescriptor t d = d.call.step csmwrap t := by
  have hsub : d.physicalStart + d.numberOfPages * efiPageSize - d.physicalStart =
      d.numberOfPages * efiPageSize := by
    rw [UInt64.add_comm]
    exact UInt64.add_sub_cancel _ _
  simp only [addDescriptor, MemoryDescriptor.call, Call.step, hsub,
    if_neg (convertMemoryType_ne_zero d.type)]
  by_cases hzero : d.numberOfPages * efiPageSize = 0
  · simp [hzero, e820Add]
  · rw [if_neg]
    intro h
    apply hzero
    have := congrArg (· - d.physicalStart) h
    simpa [hsub] using this.symm

theorem buildE820Map_eq_run (t : Table) (ds : List MemoryDescriptor) :
    buildE820Map t ds = runFrom csmwrap t (ds.map MemoryDescriptor.call ++ fixups) := by
  have hfold : ∀ t, ds.foldl addDescriptor t =
      (ds.map MemoryDescriptor.call).foldl (Call.step csmwrap) t := by
    intro t
    induction ds generalizing t with
    | nil => rfl
    | cons d ds ih =>
      rw [List.foldl_cons, List.map_cons, List.foldl_cons, addDescriptor_eq_step]
      exact ih _
  simp only [runFrom, List.foldl_append, ← hfold, buildE820Map, fixups, List.foldl_cons,
    List.foldl_nil, Call.step]

theorem build_nonWrapping {ds : List MemoryDescriptor} (hn : ∀ d ∈ ds, d.NonWrapping) :
    ∀ c ∈ ds.map MemoryDescriptor.call ++ fixups, c.NonWrapping := by
  have hfix : ∀ c ∈ fixups, c.NonWrapping := by decide
  intro c hc
  cases List.mem_append.mp hc with
  | inl hc =>
    obtain ⟨d, hd, rfl⟩ := List.mem_map.mp hc
    exact call_nonWrapping (hn d hd)
  | inr hc => exact hfix c hc

/-! ## What the map should say -/

/-- The purpose of the map: the layout of the first megabyte, and above it the
converted type of the descriptor an address is in. -/
def intended (ds : List MemoryDescriptor) (a : Nat) : Option UInt32 :=
  if a < 0x80000 then some efiAcpiAddressRangeMemory
  else if a < 0x100000 then some efiAcpiAddressRangeReserved
  else (ds.find? fun d => decide (d.Contains a)).map fun d => convertMemoryType d.type

theorem call_gives (d : MemoryDescriptor) :
    (d.call.gives csmwrap).map csmwrap.store = some (convertMemoryType d.type) := by
  have hne : (convertMemoryType d.type).toUInt64 ≠ csmwrap.hole := csmwrap_load_ne_hole _
  simp only [MemoryDescriptor.call, Call.gives, if_neg hne, Option.map_some]
  exact congrArg some (csmwrap.store_load _)

/-- Painting disjoint descriptors, in whatever order they come. -/
theorem paint_descriptors {ds : List MemoryDescriptor} (hn : ∀ d ∈ ds, d.NonWrapping)
    (hd : ds.Pairwise MemoryDescriptor.Disjoint) (f : Coverage Nat UInt32) (a : Nat) :
    (ds.map MemoryDescriptor.call).foldl (Call.paint csmwrap) f a =
      ((ds.find? fun d => decide (d.Contains a)).map fun d => convertMemoryType d.type).or
        (f a) := by
  induction ds generalizing f with
  | nil => rfl
  | cons d ds ih =>
    have hdn := hn d (by simp)
    obtain ⟨hhead, htail⟩ := List.pairwise_cons.mp hd
    rw [List.map_cons, List.foldl_cons, ih (fun d' hd' => hn d' (by simp [hd'])) htail,
      Call.paint, call_gives, List.find?_cons]
    by_cases hc : d.Contains a
    · have hnone : (ds.find? fun d => decide (d.Contains a)) = none := by
        apply List.find?_eq_none.mpr
        intro d' hd' hc'
        exact hhead d' hd' a ⟨hc, of_decide_eq_true hc'⟩
      rw [hnone, paint_inside ((call_contains_iff hdn a).mpr hc)]
      simp [hc]
    · rw [paint_outside fun h => hc ((call_contains_iff hdn a).mp h)]
      simp [hc]

/-- The fixups decide the first megabyte and nothing above it. -/
theorem paint_fixups (f : Coverage Nat UInt32) (a : Nat) :
    fixups.foldl (Call.paint csmwrap) f a =
      if a < 0x80000 then some efiAcpiAddressRangeMemory
      else if a < 0x100000 then some efiAcpiAddressRangeReserved else f a := by
  have r : efiAcpiAddressRangeReserved.toUInt64 ≠ csmwrap.hole := by decide
  have m : efiAcpiAddressRangeMemory.toUInt64 ≠ csmwrap.hole := by decide
  simp only [fixups, List.foldl_cons, List.foldl_nil, Call.paint, Call.start, Call.size, Call.gives,
    Regions.paint, if_neg r, if_neg m, Option.map_some, Option.map_none, ebdaBase,
    UInt64.reduceToNat, UInt64.reduceSub]
  split_ifs <;> first | rfl | omega

theorem build_paint {ds : List MemoryDescriptor} (hn : ∀ d ∈ ds, d.NonWrapping)
    (hd : ds.Pairwise MemoryDescriptor.Disjoint) (a : Nat) :
    (ds.map MemoryDescriptor.call ++ fixups).foldl (Call.paint csmwrap) (fun _ => none) a =
      intended ds a := by
  rw [List.foldl_append, paint_fixups, intended, paint_descriptors hn hd, Option.or_none]

theorem fresh_fixups (f : Coverage Nat UInt32) : Fresh csmwrap f fixups := by
  refine ⟨fun _ => .inr rfl, fun _ => .inr rfl, fun _ => .inl ?_, fun _ => .inl ?_, trivial⟩
  · rfl
  · rfl

theorem fresh_build {ds : List MemoryDescriptor} {f : Coverage Nat UInt32}
    (hn : ∀ d ∈ ds, d.NonWrapping) (hd : ds.Pairwise MemoryDescriptor.Disjoint)
    (hf : ∀ d ∈ ds, ∀ a, d.Contains a → f a = none) :
    Fresh csmwrap f (ds.map MemoryDescriptor.call ++ fixups) := by
  induction ds generalizing f with
  | nil => exact fresh_fixups f
  | cons d ds ih =>
    have hdn := hn d (by simp)
    obtain ⟨hhead, htail⟩ := List.pairwise_cons.mp hd
    refine ⟨fun hsize => .inl ?_, ih (fun d' hd' => hn d' (by simp [hd'])) htail ?_⟩
    · apply hf d (by simp)
      have hpos : 0 < d.size := by
        rw [← pages_toNat hdn]
        exact Nat.pos_of_ne_zero fun h => hsize (UInt64.toNat_inj.mp h)
      exact ⟨Nat.le_refl _, Nat.lt_add_of_pos_right hpos⟩
    · intro d' hd' a ha
      have hout : ¬ d.call.Contains a := fun h =>
        hhead d' hd' a ⟨(call_contains_iff hdn a).mp h, ha⟩
      unfold Call.paint
      rw [paint_outside hout]
      exact hf d' (by simp [hd']) a ha

theorem build_sound {t : Table} {ds : List MemoryDescriptor} (hs : Sound csmwrap t.entries)
    (hn : ∀ d ∈ ds, d.NonWrapping) : Sound csmwrap (buildE820Map t ds).entries := by
  rw [buildE820Map_eq_run]
  exact run_sound hs (build_nonWrapping hn)

/-- **The built map is right wherever it says anything**, and it says all it
should when no insertion was refused. The table is large enough for that when
there are at most 124 descriptors. -/
theorem build_reports_intended (ds : List MemoryDescriptor)
    (hd : ds.Pairwise MemoryDescriptor.Disjoint) (hn : ∀ d ∈ ds, d.NonWrapping) :
    (∀ a t, Reports (buildE820Map .empty ds).entries a t → intended ds a = some t) ∧
    ((buildE820Map .empty ds).refused = 0 →
      ∀ a t, Reports (buildE820Map .empty ds).entries a t ↔ intended ds a = some t) ∧
    (ds.length ≤ 124 → (buildE820Map .empty ds).refused = 0) := by
  have hs : Sound csmwrap (buildE820Map .empty ds).entries := build_sound Sound.nil hn
  have hc := build_nonWrapping hn
  refine ⟨fun a t ht => ?_, fun hr a t => ?_, fun hlen => ?_⟩
  · rw [reports_iff hs, buildE820Map_eq_run] at ht
    rw [← build_paint hn hd]
    cases run_within Sound.nil hc (.refl (lookup (view Table.empty.entries))) a with
    | inl h => rw [h] at ht; cases ht
    | inr h => rw [h] at ht; exact ht
  · rw [buildE820Map_eq_run] at hr
    have hl := run_lookup Sound.nil hc hr
    rw [reports_iff hs, buildE820Map_eq_run, hl, ← build_paint hn hd]
    rfl
  · rw [buildE820Map_eq_run]
    apply run_room Sound.nil hc (.refl _) (fresh_build hn hd fun _ _ _ _ => rfl)
    simp only [Table.empty, List.length_append, List.length_map, List.length_nil, fixups,
      List.length_cons, csmwrap, e820MaxEntries]
    omega

theorem build_reports_intended_small :
    Reports (buildE820Map .empty [⟨7, 0, 0x200⟩, ⟨10, 0x200000, 1⟩]).entries 0x200000
        efiAcpiAddressRangeNVS ∧
      ¬ Reports (buildE820Map .empty [⟨7, 0, 0x200⟩, ⟨10, 0x200000, 1⟩]).entries 0x201000
        efiAcpiAddressRangeNVS := by
  have h := build_reports_intended [⟨7, 0, 0x200⟩, ⟨10, 0x200000, 1⟩]
    (by
      apply List.pairwise_pair.mpr
      intro a h
      simp only [MemoryDescriptor.Contains, MemoryDescriptor.size, UInt64.reduceToNat] at h
      omega)
    (by decide)
  have hall := h.2.1 (h.2.2 (by decide))
  constructor
  · exact (hall _ _).mpr (by decide)
  · exact fun hr => absurd ((hall _ _).mp hr) (by decide)

/-- A firmware map of 128 single pages of RAM above the first megabyte, no two
of them adjacent. -/
def fragmented : List MemoryDescriptor :=
  (List.range 128).map fun k => ⟨7, UInt64.ofNat (0x100000 + 0x2000 * (127 - k)), 1⟩

theorem fragmented_start {k : Nat} :
    (UInt64.ofNat (0x100000 + 0x2000 * (127 - k))).toNat = 0x100000 + 0x2000 * (127 - k) := by
  rw [UInt64.toNat_ofNat']
  apply Nat.mod_eq_of_lt
  omega

theorem fragmented_disjoint : fragmented.Pairwise MemoryDescriptor.Disjoint := by
  apply List.pairwise_map.mpr
  apply (List.pairwise_lt_range (n := 128)).imp_of_mem
  intro k l hk hl hlt a h
  have := List.mem_range.mp hl
  simp only [MemoryDescriptor.Contains, MemoryDescriptor.size, fragmented_start,
    UInt64.reduceToNat] at h
  omega

/-- The pages of `fragmented` fill the table, and the low memory that is added
last is not reported at all. -/
theorem build_reports_intended_fragmented :
    ¬ ∀ ds : List MemoryDescriptor, ds.Pairwise MemoryDescriptor.Disjoint →
      (∀ d ∈ ds, d.physicalStart.toNat % 4096 = 0) → (∀ d ∈ ds, d.NonWrapping) →
      ∀ a t, Reports (buildE820Map .empty ds).entries a t ↔ intended ds a = some t := by
  intro h
  have lost : ¬ Reports (buildE820Map .empty fragmented).entries 0 efiAcpiAddressRangeMemory := by
    decide +kernel
  refine lost ((h fragmented fragmented_disjoint ?_ ?_ 0 _).mpr rfl)
  · intro d hd
    obtain ⟨k, -, rfl⟩ := List.mem_map.mp hd
    simp only [fragmented_start]
    omega
  · intro d hd
    obtain ⟨k, -, rfl⟩ := List.mem_map.mp hd
    simp only [MemoryDescriptor.NonWrapping, MemoryDescriptor.size, fragmented_start,
      UInt64.reduceToNat]
    omega

/-! ## The order of the descriptors -/

instance : Std.Symm MemoryDescriptor.Disjoint :=
  ⟨fun _ _ h a ha => h a ha.symm⟩

theorem find?_perm {ds ds' : List MemoryDescriptor} (hp : ds.Perm ds')
    (hd : ds.Pairwise MemoryDescriptor.Disjoint) (a : Nat) :
    (ds.find? fun d => decide (d.Contains a)) = ds'.find? fun d => decide (d.Contains a) := by
  have only : ∀ d ∈ ds, ∀ d' ∈ ds, d.Contains a → d'.Contains a → d = d' := by
    intro d hd1 d' hd2 hc hc'
    by_contra hne
    exact hd.forall hd1 hd2 hne a ⟨hc, hc'⟩
  cases h : ds.find? fun d => decide (d.Contains a) with
  | none =>
    symm
    apply List.find?_eq_none.mpr
    intro d hd'
    exact List.find?_eq_none.mp h d (hp.mem_iff.mpr hd')
  | some d =>
    have hm := List.mem_of_find?_eq_some h
    have hc : d.Contains a := by simpa using List.find?_some h
    cases h' : ds'.find? fun d => decide (d.Contains a) with
    | none => exact absurd (by simpa using hc) (List.find?_eq_none.mp h' d (hp.mem_iff.mp hm))
    | some d' =>
      have hm' := hp.mem_iff.mpr (List.mem_of_find?_eq_some h')
      rw [only d hm d' hm' hc (by simpa using List.find?_some h')]

theorem build_fits (ds : List MemoryDescriptor) :
    ∀ c ∈ ds.map MemoryDescriptor.call ++ fixups, c.Fits csmwrap := by
  have stored : ∀ x : UInt32, csmwrap.Fits x.toUInt64 := fun x =>
    .inr (congrArg csmwrap.load (csmwrap.store_load x))
  intro c hc
  cases List.mem_append.mp hc with
  | inl hc =>
    obtain ⟨d, -, rfl⟩ := List.mem_map.mp hc
    exact stored _
  | inr hc =>
    simp only [fixups, List.mem_cons, List.not_mem_nil, or_false] at hc
    rcases hc with rfl | rfl | rfl | rfl
    · trivial
    all_goals exact stored _

theorem build_canonical {t : Table} {ds : List MemoryDescriptor} (hc : CanonicalMap t.entries)
    (hw : NonWrappingMap t.entries) (hn : ∀ d ∈ ds, d.NonWrapping) :
    Canonical (view (buildE820Map t ds).entries) := by
  rw [buildE820Map_eq_run]
  have hs := hc.sound hw
  have hcalls := build_nonWrapping hn
  exact ⟨(run_sound hs hcalls).ordered, run_merged hs hcalls (build_fits ds) hc.regions⟩

theorem build_lookup {t : Table} {ds : List MemoryDescriptor} (hc : CanonicalMap t.entries)
    (hw : NonWrappingMap t.entries) (hd : ds.Pairwise MemoryDescriptor.Disjoint)
    (hn : ∀ d ∈ ds, d.NonWrapping) (hr : (buildE820Map t ds).refused = t.refused) (a : Nat) :
    lookup (view (buildE820Map t ds).entries) a =
      if a < 0x80000 then some efiAcpiAddressRangeMemory
      else if a < 0x100000 then some efiAcpiAddressRangeReserved
      else ((ds.find? fun d => decide (d.Contains a)).map fun d => convertMemoryType d.type).or
        (lookup (view t.entries) a) := by
  rw [buildE820Map_eq_run] at hr ⊢
  rw [run_lookup (hc.sound hw) (build_nonWrapping hn) hr, List.foldl_append, paint_fixups,
    paint_descriptors hn hd]

/-- **The order of the descriptors does not matter.** Two runs over the same
descriptors that refuse no insertion leave the same entries in the same order,
from an empty map and from any other canonical one. -/
theorem build_order_irrelevant (t : Table) (hc : CanonicalMap t.entries)
    (hw : NonWrappingMap t.entries) (ds ds' : List MemoryDescriptor) (hp : ds.Perm ds')
    (hd : ds.Pairwise MemoryDescriptor.Disjoint) (hn : ∀ d ∈ ds, d.NonWrapping)
    (hr : (buildE820Map t ds).refused = t.refused)
    (hr' : (buildE820Map t ds').refused = t.refused) :
    buildE820Map t ds = buildE820Map t ds' := by
  have hn' : ∀ d ∈ ds', d.NonWrapping := fun d h => hn d (hp.mem_iff.mpr h)
  have hd' : ds'.Pairwise MemoryDescriptor.Disjoint := hp.pairwise hd fun h => symm h
  have hlook : lookup (view (buildE820Map t ds).entries) =
      lookup (view (buildE820Map t ds').entries) := by
    funext a
    rw [build_lookup hc hw hd hn hr, build_lookup hc hw hd' hn' hr', find?_perm hp hd]
  have hentries : (buildE820Map t ds).entries = (buildE820Map t ds').entries :=
    view_inj (canonical_ext (build_canonical hc hw hn) (build_canonical hc hw hn') hlook)
  exact Table.ext hentries (hr.trans hr'.symm)

theorem build_order_irrelevant_pair :
    buildE820Map .empty [⟨7, 0, 0x200⟩, ⟨10, 0x200000, 1⟩] =
      buildE820Map .empty [⟨10, 0x200000, 1⟩, ⟨7, 0, 0x200⟩] :=
  build_order_irrelevant .empty (by decide) (by simp [NonWrappingMap, Table.empty]) _ _
    (List.Perm.swap _ _ _)
    (by
      apply List.pairwise_pair.mpr
      intro a h
      simp only [MemoryDescriptor.Contains, MemoryDescriptor.size, UInt64.reduceToNat] at h
      omega)
    (by decide) (by decide) (by decide)

end CsmWrap.E820
