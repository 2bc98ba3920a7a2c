import CsmWrap.E820.Report
import CsmWrap.Memory

/-!
# The hand-off of the map to SeaBIOS

`efi_main` leaves the address and the length of its `e820_map` in the
`EFI_COMPATIBILITY16_TABLE`; `handle_csm_0002` reads the array from memory and
adds its entries to SeaBIOS's own table one by one.
-/

namespace CsmWrap.E820
open Memory Regions

/-- `sizeof(EFI_E820_ENTRY64)`, which is packed, and of SeaBIOS's
`struct e820entry` as laid out on i386. -/
def sizeofEntry : Nat := 20

def Entry.bytes (e : Entry) : List UInt8 :=
  leBytes 8 e.baseAddr.toNat ++ (leBytes 8 e.length.toNat ++ leBytes 4 e.type.toNat)

def entryAt (mem : Mem) (p : Nat) : Entry :=
  ⟨read64 mem p, read64 mem (p + 8), read32 mem (p + 16)⟩

def storeMap (mem : Mem) (e820Map : Nat) (entries : List Entry) : Mem :=
  store mem e820Map (entries.flatMap Entry.bytes)

@[simp] theorem length_bytes (e : Entry) : e.bytes.length = sizeofEntry := by
  simp [Entry.bytes, sizeofEntry]

theorem entryAt_of_load {mem : Mem} {p : Nat} {e : Entry}
    (h : load mem p sizeofEntry = e.bytes) : entryAt mem p = e := by
  have hb : load mem p 8 = leBytes 8 e.baseAddr.toNat := by
    have := load_sub mem p (i := 0) (n := 8) (k := sizeofEntry) (by decide)
    rwa [h, Entry.bytes, List.drop_zero, List.take_left' (length_leBytes 8 _)] at this
  have hl : load mem (p + 8) 8 = leBytes 8 e.length.toNat := by
    have := load_sub mem p (i := 8) (n := 8) (k := sizeofEntry) (by decide)
    rwa [h, Entry.bytes, List.drop_left' (length_leBytes 8 _),
      List.take_left' (length_leBytes 8 _)] at this
  have ht : load mem (p + 16) 4 = leBytes 4 e.type.toNat := by
    have := load_sub mem p (i := 16) (n := 4) (k := sizeofEntry) (by decide)
    rwa [h, Entry.bytes, ← List.append_assoc, List.drop_left' (by simp),
      List.take_of_length_le (by simp)] at this
  unfold entryAt
  rw [read64_of_load hb, read64_of_load hl, read32_of_load ht]

theorem entryAt_storeMap (mem : Mem) (p : Nat) (l : List Entry) {i : Nat} (hi : i < l.length) :
    entryAt (storeMap mem p l) (p + sizeofEntry * i) = l[i] := by
  have h := load_record length_bytes mem p l [] hi
  rw [List.append_nil] at h
  exact entryAt_of_load h

/-- The fields of `EFI_COMPATIBILITY16_TABLE` that carry the map. -/
structure Compatibility16Table where
  e820Pointer : UInt32
  e820Length : UInt32
  deriving DecidableEq, Repr

/-- What `efi_main` writes after `build_e820_map`. -/
def publishE820 (e820Low : UInt64) (t : Table) : Compatibility16Table where
  e820Pointer := e820Low.toUInt32
  e820Length := UInt32.ofNat (sizeofEntry * t.entries.length)

/-- The loop of `handle_csm_0002`. -/
def replayE820 (mem : Mem) (compat : Compatibility16Table) (t : Table) : Table :=
  (List.range (compat.e820Length.toNat / sizeofEntry)).foldl
    (fun t i =>
      let p := entryAt mem (compat.e820Pointer.toNat + sizeofEntry * i)
      e820Add seabios t p.baseAddr p.length p.type) t

def Entry.call (e : Entry) : Call UInt32 := .add e.baseAddr e.length e.type

theorem foldl_range_getElem {α β : Type*} (l : List α) (f : β → α → β) (g : β → Nat → β)
    (h : ∀ b i, (hi : i < l.length) → g b i = f b l[i]) (b : β) :
    (List.range l.length).foldl g b = l.foldl f b := by
  induction l using List.reverseRecOn generalizing b with
  | nil => rfl
  | append_singleton l e ih =>
    have hinit : (List.range l.length).foldl g b = l.foldl f b := by
      apply ih
      intro b i hi
      rw [h b i (by simp; omega), List.getElem_append_left hi]
    rw [List.length_append, List.length_singleton, List.range_succ, List.foldl_append, hinit,
      List.foldl_append, List.foldl_cons, List.foldl_nil, List.foldl_cons, List.foldl_nil,
      h _ _ (by simp)]
    simp

theorem replay_eq_run (mem : Mem) {e820Low : UInt64} {t : Table} (t' : Table)
    (hlow : e820Low.toNat + sizeofEntry * t.entries.length < 2 ^ 32) :
    replayE820 (storeMap mem e820Low.toNat t.entries) (publishE820 e820Low t) t' =
      runFrom seabios t' (t.entries.map Entry.call) := by
  have hp : (publishE820 e820Low t).e820Pointer.toNat = e820Low.toNat := by
    unfold publishE820
    rw [UInt64.toNat_toUInt32]
    omega
  have hl : (publishE820 e820Low t).e820Length.toNat / sizeofEntry = t.entries.length := by
    simp only [publishE820, sizeofEntry, UInt32.toNat_ofNat'] at hlow ⊢
    omega
  unfold replayE820
  rw [hp, hl, runFrom, List.foldl_map]
  apply foldl_range_getElem
  intro b i hi
  rw [entryAt_storeMap mem _ _ hi]
  rfl

theorem call_gives_type {e : Entry} (h : e.type ≠ e820Hole) : e.call.gives seabios = some e.type :=
  if_neg h

theorem paint_entries {l : List Entry} (ho : Ordered (view l)) (hh : ∀ e ∈ l, e.type ≠ e820Hole)
    (f : Coverage Nat UInt32) (a : Nat) :
    (l.map Entry.call).foldl (Call.paint seabios) f a = (lookup (view l) a).or (f a) := by
  induction l generalizing f with
  | nil => rfl
  | cons e l ih =>
    have hp : e.call.paint seabios f =
        Regions.paint f e.region.lo e.region.hi (some e.type) := by
      unfold Call.paint
      rw [call_gives_type (hh e (by simp))]
      rfl
    rw [List.map_cons, List.foldl_cons, ih ho.tail fun d hd => hh d (by simp [hd]), hp, view_cons,
      lookup_cons]
    by_cases hc : e.region.Covers a
    · have hlater : lookup (view l) a = none :=
        lookup_of_lt_lo fun r hr => hc.2.trans_le (ho.head_le r hr)
      rw [hlater, paint_inside hc, if_pos hc]
      rfl
    · rw [paint_outside hc, if_neg hc]

theorem fresh_entries {l : List Entry} (ho : Ordered (view l)) {f : Coverage Nat UInt32}
    (hf : ∀ e ∈ l, f e.baseAddr.toNat = none) : Fresh seabios f (l.map Entry.call) := by
  induction l generalizing f with
  | nil => trivial
  | cons e l ih =>
    refine ⟨fun _ => .inl (hf e (by simp)), ih ho.tail fun d hd => ?_⟩
    have hle := ho.head_le d.region (List.mem_map_of_mem hd)
    have hout : ¬ e.call.Contains d.baseAddr.toNat := fun h => absurd h.2 (Nat.not_lt.mpr hle)
    unfold Call.paint
    rw [paint_outside hout]
    exact hf d (by simp [hd])

theorem seabios_fits (c : Call UInt32) : c.Fits seabios := by
  cases c with
  | add => exact .inr rfl
  | remove => trivial

/-- A canonical map rebuilds itself: no entry straddles a later one, so nothing
is refused, and the result reports the same and is canonical as well. -/
theorem run_entries {l : List Entry} (hc : CanonicalMap l) (hw : NonWrappingMap l)
    (hh : ∀ e ∈ l, e.type ≠ e820Hole) :
    runFrom seabios .empty (l.map Entry.call) = ⟨l, 0⟩ := by
  have ho : Ordered (view l) := (hc.sound hw).ordered
  have hn : ∀ c ∈ l.map Entry.call, c.NonWrapping := by
    intro c hmem
    obtain ⟨e, he, rfl⟩ := List.mem_map.mp hmem
    exact hw e he
  have hr : (runFrom seabios .empty (l.map Entry.call)).refused = 0 := by
    apply run_room Sound.nil hn (.refl _) (fresh_entries ho fun _ _ => rfl)
    rw [List.length_map]
    exact (Nat.zero_add _).trans_le hc.count
  have hlook : lookup (view (runFrom seabios .empty (l.map Entry.call)).entries) =
      lookup (view l) := by
    funext a
    rw [run_lookup Sound.nil hn hr, paint_entries ho hh]
    exact Option.or_none
  have hcan : Canonical (view (runFrom seabios .empty (l.map Entry.call)).entries) :=
    ⟨(run_sound Sound.nil hn).ordered,
      run_merged Sound.nil hn (fun c _ => seabios_fits c) .nil⟩
  exact Table.ext (view_inj (canonical_ext hcan ⟨ho, hc.regions⟩ hlook)) hr

/-- **The hand-off loses nothing.** SeaBIOS's table after the replay has the
entries of csmwrap's map, in the same order, for every canonical map without an
entry of the type that SeaBIOS reads as a hole. -/
theorem handoff_loses_nothing (mem : Mem) (e820Low : UInt64) (t : Table)
    (hlow : e820Low.toNat + sizeofEntry * t.entries.length < 2 ^ 32)
    (hc : CanonicalMap t.entries) (hw : NonWrappingMap t.entries)
    (hh : ∀ e ∈ t.entries, e.type ≠ e820Hole) :
    replayE820 (storeMap mem e820Low.toNat t.entries) (publishE820 e820Low t) .empty =
      ⟨t.entries, 0⟩ := by
  rw [replay_eq_run mem .empty hlow]
  exact run_entries hc hw hh

theorem handoff_loses_nothing_touching :
    replayE820 (storeMap (fun _ => 0) 0x24000 [⟨0, 0x1000, 1⟩, ⟨0x1000, 0x1000, 2⟩])
      (publishE820 0x24000 ⟨[⟨0, 0x1000, 1⟩, ⟨0x1000, 0x1000, 2⟩], 0⟩) .empty =
      ⟨[⟨0, 0x1000, 1⟩, ⟨0x1000, 0x1000, 2⟩], 0⟩ :=
  handoff_loses_nothing (fun _ => 0) 0x24000 ⟨[⟨0, 0x1000, 1⟩, ⟨0x1000, 0x1000, 2⟩], 0⟩
    (by decide) (by decide) (by unfold NonWrappingMap; decide) (by decide)

/-- An entry of type 0xffffffff, which csmwrap stores like any other, is
`E820_HOLE` to SeaBIOS and disappears. -/
theorem handoff_loses_nothing_hole :
    CanonicalMap [⟨0, 0x1000, 0xffffffff⟩] ∧ NonWrappingMap [⟨0, 0x1000, 0xffffffff⟩] ∧
    replayE820 (storeMap (fun _ => 0) 0x24000 [⟨0, 0x1000, 0xffffffff⟩])
      (publishE820 0x24000 ⟨[⟨0, 0x1000, 0xffffffff⟩], 0⟩) .empty = ⟨[], 0⟩ :=
  ⟨by decide, by unfold NonWrappingMap; decide, by decide⟩

end CsmWrap.E820
