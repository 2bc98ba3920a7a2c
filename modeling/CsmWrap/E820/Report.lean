import CsmWrap.E820.Runs

/-!
# What csmwrap's table reports

The runs of `E820.Runs` for csmwrap's copy of the table, and the canonical form
its tables keep. A `type` argument of 2^32 or more does not survive being
stored in the 32-bit `Type` field; every caller passes an
`EFI_ACPI_MEMORY_TYPE` or the hole.
-/

namespace CsmWrap.E820
open Regions

theorem csmwrap_load_ne_hole (x : UInt32) : csmwrap.load x ≠ csmwrap.hole := by
  intro h
  have e := congrArg UInt64.toNat h
  have hlt := x.toNat_lt
  simp only [csmwrap, efiAcpiAddressRangeHole, UInt32.toNat_toUInt64, UInt64.reduceToNat] at e
  omega

/-- The values of a `type` argument that the `Type` field can hold, and the hole. -/
theorem csmwrap_fits_iff (type : UInt64) :
    csmwrap.Fits type ↔ type = efiAcpiAddressRangeHole ∨ type.toNat < 2 ^ 32 := by
  have key : csmwrap.load (csmwrap.store type) = type ↔ type.toNat < 2 ^ 32 := by
    rw [← UInt64.toNat_inj]
    simp only [csmwrap, UInt32.toNat_toUInt64, UInt64.toNat_toUInt32]
    omega
  unfold Variant.Fits
  rw [key]
  rfl

/-- csmwrap's calls from an empty map. -/
def run (calls : List (Call UInt64)) : Table := runFrom csmwrap .empty calls

theorem run_reports_iff {calls : List (Call UInt64)} (hn : ∀ c ∈ calls, c.NonWrapping) {a : Nat}
    {t : UInt32} :
    Reports (run calls).entries a t ↔ lookup (view (run calls).entries) a = some t :=
  reports_iff (run_sound Sound.nil hn)

theorem map_store_eq_iff {calls : List (Call UInt64)}
    (hf : ∀ c ∈ calls, ∀ t, c.gives csmwrap = some t → t.toNat < 2 ^ 32) (a : Nat) (t : UInt32) :
    (lastType csmwrap calls a).map UInt64.toUInt32 = some t ↔
      lastType csmwrap calls a = some t.toUInt64 := by
  cases h : lastType csmwrap calls a with
  | none => simp
  | some ty =>
    have hlt : ty.toNat < 2 ^ 32 := by
      obtain ⟨c, hc, hg⟩ := Option.bind_eq_some_iff.mp h
      exact hf c (List.mem_reverse.mp (List.mem_of_find?_eq_some hc)) ty hg
    simp only [Option.map_some, Option.some.injEq, ← UInt64.toNat_inj, ← UInt32.toNat_inj,
      UInt64.toNat_toUInt32, UInt32.toNat_toUInt64]
    omega

/-- **The last writer wins.** In a run without a refused insertion every
address is reported with what the type of the last call there becomes in the
`Type` field, and not at all when there is no such call or it made a hole. With
types that fit the field, the type reported is the very type of that call. -/
theorem last_writer_wins (calls : List (Call UInt64)) (hn : ∀ c ∈ calls, c.NonWrapping)
    (hr : (run calls).refused = 0) :
    (∀ a t, Reports (run calls).entries a t ↔
      (lastType csmwrap calls a).map UInt64.toUInt32 = some t) ∧
    ((∀ c ∈ calls, ∀ t, c.gives csmwrap = some t → t.toNat < 2 ^ 32) →
      ∀ a t, Reports (run calls).entries a t ↔ lastType csmwrap calls a = some t.toUInt64) := by
  have exactly : ∀ a t, Reports (run calls).entries a t ↔
      (lastType csmwrap calls a).map UInt64.toUInt32 = some t := by
    intro a t
    have hl := run_lookup (v := csmwrap) (t := .empty) Sound.nil hn hr
    have hp := paint_lastType (v := csmwrap) calls a
    rw [run_reports_iff hn, run, hl]
    exact iff_of_eq (congrArg (· = some t) hp)
  refine ⟨exactly, fun hf a t => ?_⟩
  rw [exactly, map_store_eq_iff hf]

theorem last_writer_wins_split :
    (∀ a t, Reports (run [.add 0 0x3000 1, .add 0x1000 0x1000 2]).entries a t ↔
      (lastType csmwrap [.add 0 0x3000 1, .add 0x1000 0x1000 2] a).map UInt64.toUInt32 =
        some t) ∧
    Reports (run [.add 0 0x3000 1, .add 0x1000 0x1000 2]).entries 0x1fff 2 :=
  ⟨(last_writer_wins [.add 0 0x3000 1, .add 0x1000 0x1000 2] (by decide) (by decide)).1,
    by decide⟩

/-- A type of 2^32 + 1 is reported as 1, so the type reported is not the type
of the call. -/
theorem last_writer_wins_wide :
    ¬ ∀ calls : List (Call UInt64), (∀ c ∈ calls, c.NonWrapping) → (run calls).refused = 0 →
      ∀ a t, Reports (run calls).entries a t ↔ lastType csmwrap calls a = some t.toUInt64 := by
  intro h
  have := h [.add 0 0x1000 0x100000001] (by decide) (by decide) 0 1
  revert this
  decide

/-- **Overflow loses addresses but never reports a wrong type.** In any run the
map stays within its limit, and an address is reported with what the last call
there gave it or not at all. In particular an address that was last made
anything but RAM is not reported as RAM. -/
theorem overflow_fail_safe (calls : List (Call UInt64)) (hn : ∀ c ∈ calls, c.NonWrapping) :
    (run calls).entries.length ≤ e820MaxEntries ∧
    (∀ a, (∀ t, ¬ Reports (run calls).entries a t) ∨
      ∀ t, Reports (run calls).entries a t ↔
        (lastType csmwrap calls a).map UInt64.toUInt32 = some t) ∧
    (∀ a, (lastType csmwrap calls a).map UInt64.toUInt32 ≠ some efiAcpiAddressRangeMemory →
      ¬ Reports (run calls).entries a efiAcpiAddressRangeMemory) ∧
    ((∀ c ∈ calls, ∀ t, c.gives csmwrap = some t → t.toNat < 2 ^ 32) →
      ∀ a t, Reports (run calls).entries a t → lastType csmwrap calls a = some t.toUInt64) := by
  have within : ∀ a, (∀ t, ¬ Reports (run calls).entries a t) ∨
      ∀ t, Reports (run calls).entries a t ↔
        (lastType csmwrap calls a).map UInt64.toUInt32 = some t := by
    intro a
    cases run_empty_within (v := csmwrap) hn a with
    | inl h =>
      left
      intro t ht
      rw [run_reports_iff hn, run, h] at ht
      cases ht
    | inr h =>
      right
      intro t
      rw [run_reports_iff hn, run, h]
      rfl
  have gave : ∀ a t, Reports (run calls).entries a t →
      (lastType csmwrap calls a).map UInt64.toUInt32 = some t := by
    intro a t ht
    cases within a with
    | inl h => exact absurd ht (h t)
    | inr h => exact (h t).mp ht
  refine ⟨?_, within, fun a h ht => h (gave a _ ht), fun hf a t ht => ?_⟩
  · exact (run_counters (v := csmwrap) (t := .empty) Sound.nil hn).2
  · exact (map_store_eq_iff hf a t).mp (gave a t ht)

/-- 128 regions with gaps between them fill the map; the tail of the region that is then
split has no room. -/
def fullCalls : List (Call UInt64) :=
  (List.range 128).map (fun i => .add (UInt64.ofNat (0x2000 * i)) 0x1000 2) ++
    [.remove 0x800 0x100]

theorem overflow_fail_safe_full :
    (run fullCalls).refused = 1 ∧ (run fullCalls).entries.length ≤ e820MaxEntries ∧
    (∀ t, ¬ Reports (run fullCalls).entries 0x900 t) ∧
    ¬ Reports (run fullCalls).entries 0x900 efiAcpiAddressRangeMemory := by
  obtain ⟨count, -, ram, -⟩ := overflow_fail_safe fullCalls (by decide +kernel)
  obtain ⟨refused, lost⟩ : (run fullCalls).refused = 1 ∧ ∀ e ∈ (run fullCalls).entries,
      ¬ (e.baseAddr.toNat ≤ 0x900 ∧ 0x900 < e.baseAddr.toNat + e.length.toNat) := by
    decide +kernel
  refine ⟨refused, count, ?_, ram 0x900 (by decide +kernel)⟩
  rintro t ⟨e, he, hin, -⟩
  exact lost e he hin

/-- A type of 2^32 + 1 makes its range RAM. -/
theorem overflow_fail_safe_wide :
    ¬ ∀ calls : List (Call UInt64), (∀ c ∈ calls, c.NonWrapping) →
      (run calls).entries.length ≤ e820MaxEntries ∧
      ∀ a t, Reports (run calls).entries a t → lastType csmwrap calls a = some t.toUInt64 := by
  intro h
  have := (h [.add 0 0x1000 0x100000001] (by decide)).2 0 1
  revert this
  decide

/-- At most `E820_MAX_ENTRIES` entries, none empty, sorted by `BaseAddr`,
pairwise disjoint, and neighbours that touch have different types. -/
structure CanonicalMap (l : List Entry) : Prop where
  count : l.length ≤ e820MaxEntries
  nonempty : ∀ e ∈ l, 0 < e.length
  sorted : l.Pairwise fun e f => e.baseAddr ≤ f.baseAddr
  disjoint : l.Pairwise fun e f => e.region.hi ≤ f.region.lo ∨ f.region.hi ≤ e.region.lo
  merged : l.IsChain fun e f => e.region.hi = f.region.lo → e.type ≠ f.type

instance (l : List Entry) : Decidable (CanonicalMap l) :=
  decidable_of_iff
    (l.length ≤ e820MaxEntries ∧ (∀ e ∈ l, 0 < e.length) ∧
      (l.Pairwise fun e f => e.baseAddr ≤ f.baseAddr) ∧
      (l.Pairwise fun e f => e.region.hi ≤ f.region.lo ∨ f.region.hi ≤ e.region.lo) ∧
      l.IsChain fun e f => e.region.hi = f.region.lo → e.type ≠ f.type)
    ⟨fun ⟨a, b, c, d, e⟩ => ⟨a, b, c, d, e⟩, fun ⟨a, b, c, d, e⟩ => ⟨a, b, c, d, e⟩⟩

/-- No entry reaches the top of the address space. -/
def NonWrappingMap (l : List Entry) : Prop := ∀ e ∈ l, e.region.hi < 2 ^ 64

theorem region_lt_iff (e : Entry) : e.region.lo < e.region.hi ↔ 0 < e.length := by
  simp only [Entry.region, UInt64.lt_iff_toNat_lt, UInt64.reduceToNat]
  omega

/-- Sorted, disjoint and not empty is the same as in order. -/
theorem ordered_iff (l : List Entry) :
    Ordered (view l) ↔ (∀ e ∈ l, 0 < e.length) ∧
      (l.Pairwise fun e f => e.baseAddr ≤ f.baseAddr) ∧
      l.Pairwise fun e f => e.region.hi ≤ f.region.lo ∨ f.region.hi ≤ e.region.lo := by
  constructor
  · rintro ⟨hne, hs⟩
    have hlen : ∀ e ∈ l, 0 < e.length := fun e he =>
      (region_lt_iff e).mp (hne _ (List.mem_map_of_mem he))
    have hs' := List.pairwise_map.mp hs
    refine ⟨hlen, hs'.imp fun h => ?_, hs'.imp .inl⟩
    simp only [Entry.region, UInt64.le_iff_toNat_le] at h ⊢
    omega
  · rintro ⟨hlen, hs, hd⟩
    refine ⟨forall_view.mpr fun e he => (region_lt_iff e).mpr (hlen e he), ?_⟩
    apply List.pairwise_map.mpr
    apply (hs.and hd).imp_of_mem
    rintro e f he hf ⟨hle, h | h⟩
    · exact h
    · -- The second would have to lie below the first.
      have := (region_lt_iff f).mpr (hlen f hf)
      simp only [Entry.region, UInt64.le_iff_toNat_le] at hle h this ⊢
      omega

theorem CanonicalMap.sound {l : List Entry} (hc : CanonicalMap l) (hw : NonWrappingMap l) :
    Sound csmwrap l :=
  ⟨(ordered_iff l).mpr ⟨hc.nonempty, hc.sorted, hc.disjoint⟩, hw,
    fun e _ => csmwrap_load_ne_hole e.type⟩

theorem CanonicalMap.regions {l : List Entry} (hc : CanonicalMap l) : Merged (view l) := by
  have ho := (ordered_iff l).mpr ⟨hc.nonempty, hc.sorted, hc.disjoint⟩
  exact merged_of_isChain ho ((List.isChain_map Entry.region).mpr hc.merged)

theorem canonicalMap_of {l : List Entry} (hl : l.length ≤ e820MaxEntries) (ho : Ordered (view l))
    (hm : Merged (view l)) : CanonicalMap l := by
  obtain ⟨h1, h2, h3⟩ := (ordered_iff l).mp ho
  exact ⟨hl, h1, h2, h3, (List.isChain_map Entry.region).mp hm.isChain⟩

/-- **Every call keeps the canonical form**, refused insertions included, on
maps that do not wrap and with types that fit the `Type` field. A type that does
not fit keeps all of it except that the new entry, the one that holds the range of
the call, may touch a neighbour of its own `Type`. -/
theorem call_keeps_canonical (t : Table) (hc : CanonicalMap t.entries)
    (hw : NonWrappingMap t.entries) (start size : UInt64)
    (hn : start.toNat + size.toNat < 2 ^ 64) :
    (∀ type, type = efiAcpiAddressRangeHole ∨ type.toNat < 2 ^ 32 →
      CanonicalMap (e820Add csmwrap t start size type).entries) ∧
    (∀ type, (e820Add csmwrap t start size type).entries.length ≤ e820MaxEntries ∧
      Ordered (view (e820Add csmwrap t start size type).entries) ∧
      NonWrappingMap (e820Add csmwrap t start size type).entries ∧
      (e820Add csmwrap t start size type).entries.Pairwise fun f g =>
        f.region.hi = g.region.lo → f.type = g.type → ∃ e, (e = f ∨ e = g) ∧ size ≠ 0 ∧
          e.type = type.toUInt32 ∧ e.region.lo ≤ start.toNat ∧
          start.toNat + size.toNat ≤ e.region.hi) ∧
    CanonicalMap (e820Remove csmwrap t start size).entries := by
  have hs := hc.sound hw
  have sound : ∀ type, Sound csmwrap (e820Add csmwrap t start size type).entries :=
    fun type => e820Add_sound hs hn
  have count : ∀ type, (e820Add csmwrap t start size type).entries.length ≤ e820MaxEntries := by
    intro type
    have hl := (step_counters (c := .add start size type) hs hn).2
    exact hl.trans (Nat.max_le.mpr ⟨hc.count, Nat.le_refl _⟩)
  have canonical : ∀ type, type = efiAcpiAddressRangeHole ∨ type.toNat < 2 ^ 32 →
      CanonicalMap (e820Add csmwrap t start size type).entries := by
    intro type hty
    exact canonicalMap_of (count type) (sound type).ordered
      (e820Add_merged hs hn ((csmwrap_fits_iff type).mpr hty) hc.regions)
  refine ⟨canonical, fun type => ?_, canonical efiAcpiAddressRangeHole (.inl rfl)⟩
  exact ⟨count type, (sound type).ordered, (sound type).bounded,
    e820Add_merged_old hs hn hc.regions⟩

theorem call_keeps_canonical_split :
    CanonicalMap (e820Add csmwrap ⟨[⟨0, 0x3000, 1⟩], 0⟩ 0x1000 0x1000 2).entries :=
  (call_keeps_canonical ⟨[⟨0, 0x3000, 1⟩], 0⟩ (by decide) (by unfold NonWrappingMap; decide)
    0x1000 0x1000 (by decide)).1 2 (.inr (by decide))

/-- Two ways out of the canonical form. An entry that ends at 2^64 has an
`e_end` of 0, so a lower item is put after it; and a type of 2^32 + 1 is not
merged with RAM but stored as RAM. -/
theorem call_keeps_canonical_limits :
    (CanonicalMap [⟨0xfffffffffffff000, 0x1000, 1⟩] ∧
      ¬ CanonicalMap
        (e820Add csmwrap ⟨[⟨0xfffffffffffff000, 0x1000, 1⟩], 0⟩ 0x1000 0x1000 2).entries) ∧
    (CanonicalMap [⟨0, 0x1000, 1⟩] ∧
      ¬ CanonicalMap
        (e820Add csmwrap ⟨[⟨0, 0x1000, 1⟩], 0⟩ 0x1000 0x1000 0x100000001).entries) := by
  decide

end CsmWrap.E820
