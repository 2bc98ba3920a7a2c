import CsmWrap.E820.Build
import CsmWrap.E820.Shift
import CsmWrap.Malloc.Prepboot

/-!
# The memory map of the operating system

The map that an operating system reads with INT 15h has passed through many hands: built
by CSMWrap from the map of UEFI, replayed by SeaBIOS over what it had reserved before, and
corrected once more before the boot. In the end a byte is usable if CSMWrap said so or if
SeaBIOS gave it back, and no byte of a block that stays is.
-/

namespace CsmWrap.Malloc
open Arena Memory
open E820 (e820Ram e820Reserved)

variable {S : Symbols} {E : Zone → List (Nat × Nat)} {lo : UInt32} {w : World}

/-- The arguments of SeaBIOS's own calls are 32-bit addresses and sizes. -/
def add32 (start size type : UInt32) : E820.Call UInt32 :=
  .add start.toUInt64 size.toUInt64 type

theorem step_add32 (t : E820.Table) (start size type : UInt32) :
    (add32 start size type).step E820.seabios t =
      E820.e820Add E820.seabios t start.toUInt64 size.toUInt64 type := by
  rw [add32, E820.Call.step]

/-- A reservation of memory of the high temporary zone. -/
def Reserves (E : Zone → List (Nat × Nat)) (c : E820.Call UInt32) : Prop :=
  ∃ data size : UInt32, c = add32 data size e820Reserved ∧
    ∃ e ∈ E .tmpHigh, e.1 ≤ data.toNat ∧ data.toNat + size.toNat ≤ e.2

/-- The map is `t` with some such reservations. -/
def Reserving (E : Zone → List (Nat × Nat)) (t t' : E820.Table) : Prop :=
  ∃ calls, t' = E820.runFrom E820.seabios t calls ∧ ∀ c ∈ calls, Reserves E c

theorem Reserving.refl (E : Zone → List (Nat × Nat)) (t : E820.Table) : Reserving E t t :=
  ⟨[], rfl, by simp⟩

theorem Reserving.trans {t t' t'' : E820.Table} (h : Reserving E t t') (h' : Reserving E t' t'') :
    Reserving E t t'' := by
  obtain ⟨calls, rfl, hc⟩ := h
  obtain ⟨calls', rfl, hc'⟩ := h'
  refine ⟨calls ++ calls', List.foldl_append.symm, fun c hmem => ?_⟩
  exact (List.mem_append.mp hmem).elim (hc c) (hc' c)

theorem mallocPalloc_in_zone {h : Heap} (hs : Sound E h) {size align : UInt32}
    (hr : Request size align) (z : Zone) (h0 : (mallocPalloc h z size align).1 ≠ 0) :
    ∃ e ∈ E z, e.1 ≤ (mallocPalloc h z size align).1.toNat ∧
      (mallocPalloc h z size align).1.toNat + size.toNat ≤ e.2 := by
  rcases mallocPalloc_cases hs hr z with hsame | ⟨data, tz, d, h', he, -, -, -, hs', hn⟩
  · rw [hsame] at h0
    exact absurd rfl h0
  · obtain ⟨c, hc, -, hlo, hu, hle⟩ := hs'.tiled.chunk ((hn.mem z _).mpr (.inr (.inl ⟨rfl, rfl⟩)))
    obtain ⟨e, hmem, h1, h2⟩ := (hs'.tiled.fills z).mem_range c hc
    simp only at hlo hu
    rw [he]
    exact ⟨e, hmem, by simp only; omega, by simp only; omega⟩

theorem pmmAlloc_reserving {p : Pmm} (hs : Sound E p.heap) (flags : UInt16) {size align : UInt32}
    (hr : Request size align) : Reserving E p.e820 (pmmAlloc p flags size align).2.e820 := by
  unfold pmmAlloc
  split
  · exact .refl ..
  · by_cases hfull : (p.palloc (highZone flags) size align).1 = 0 ∧ flags &&& 8 ≠ 0
    · rw [if_pos hfull]
      have hsame : p.palloc (highZone flags) size align = (0, p) := by
        rcases Pmm.palloc_cases hs hr (highZone flags) [] with ⟨hfail, -⟩ | ⟨hok, -⟩
        · exact hfail
        · exact absurd hfull.1 hok
      rw [hsame]
      by_cases hok : (p.palloc .tmpHigh size align).1 ≠ 0
      · simp only [if_pos hok]
        refine ⟨[_], rfl, List.forall_mem_singleton.mpr ⟨_, size, rfl, ?_⟩⟩
        exact mallocPalloc_in_zone hs hr .tmpHigh hok
      · simp only [if_neg hok]
        exact .refl ..
    · rw [if_neg hfull]
      exact .refl ..
  · dsimp only
    split <;> exact .refl ..
  · exact .refl ..

theorem handlePmm_reserving {p : Pmm} (hs : Sound E p.heap) (args : Args) :
    Reserving E p.e820 (handlePmm p args).2.e820 := by
  unfold handlePmm
  split
  · unfold handlePmm00
    dsimp only
    split
    · exact .refl ..
    split
    · exact .refl ..
    next hsize =>
      obtain ⟨hs0, hs1⟩ := not_or.mp hsize
      have hr := (request_pmmAlign (args 5) hs0 (UInt32.not_le.mp hs1)).1
      split <;> exact pmmAlloc_reserving hs (args 5) hr
  · exact .refl ..
  · unfold handlePmm02
    split <;> exact .refl ..
  · exact .refl ..

theorem InPost.step_reserving (hin : InPost S E lo w) (e : Event) :
    Reserving E w.post.e820 (w.step S e).post.e820 := by
  cases e with
  | call c => exact .refl ..
  | pmm args =>
    obtain ⟨calls, he, hc⟩ := handlePmm_reserving hin.sound args
    refine ⟨calls, he, fun c hmem => ?_⟩
    obtain ⟨data, size, rfl, e, hmem, hin⟩ := hc c hmem
    exact ⟨data, size, rfl, e, ((mem_lowFrom.mp hmem).resolve_left (by simp)).2, hin⟩
  | romReserve size =>
    simp only [World.step, romReserve]
    split <;> exact .refl ..
  | romConfirm size =>
    simp only [World.step, romConfirm, romReserve]
    split_ifs <;> exact .refl ..

/-- During POST the map changes in no other way. -/
theorem InPost.after_reserving (hin : InPost S E lo w) {events : List Event}
    (he : ∀ e ∈ events, e.Proper) : Reserving E w.post.e820 (w.after S events).post.e820 := by
  induction events generalizing w lo with
  | nil => exact .refl ..
  | cons e events ih =>
    obtain ⟨hp, hrest⟩ := List.forall_mem_cons.mp he
    obtain ⟨lo', hin'⟩ := hin.step hp
    exact (hin.step_reserving e).trans (ih hin' hrest)

/-- Where CSMWrap puts the map: `e820_map` is the last field of `struct low_stub`. -/
def e820Map (arch : Arch) : UInt32 :=
  Boot.lowStubBase + UInt32.ofNat (sizeofLowStub arch - 128 * E820.sizeofEntry)

/-- The entry that `bda_init` adds, for an EBDA of 1 KiB. -/
def bdaInit (t : E820.Table) : E820.Table :=
  E820.e820Add E820.seabios t 0x9fc00 (0xa0000 - 0x9fc00) e820Reserved

/-- `handle_csm_0002`, as far as it changes the map. -/
def World.replay (w : World) (mem : Mem) (c : Boot.Csm) : World :=
  { w with post.e820 :=
      Boot.reserveHighTable c mem (E820.replayE820 mem c.compat w.post.e820) }

theorem InPost.replay (hin : InPost S E lo w) (mem : Mem) (c : Boot.Csm) :
    InPost S E lo (w.replay mem c) := by
  unfold World.replay
  exact { hin with }

/-- The memory below 0x28000 that is CSMWrap's own is as `efi_main` left it. -/
structure LowStub (arch : Arch) (hi : HiPmm) (t : E820.Table) (mem : Mem) : Prop where
  kept : ∃ mem₀, ∀ a, 0x20000 ≤ a → a < 0x28000 →
    mem a = E820.storeMap (writeInitTable arch hi.base mem₀) (e820Map arch).toNat t.entries a

theorem e820Map_le (arch : Arch) {n : Nat} (hn : n ≤ 128) :
    (Boot.initTable arch).toNat + 40 ≤ (e820Map arch).toNat ∧
      0x20000 ≤ (Boot.initTable arch).toNat ∧
      (e820Map arch).toNat + E820.sizeofEntry * n ≤ 0x28000 := by
  have hsize : E820.sizeofEntry = 20 := rfl
  have h : (Boot.initTable arch).toNat + 40 ≤ (e820Map arch).toNat ∧
      0x20000 ≤ (Boot.initTable arch).toNat ∧ (e820Map arch).toNat + 20 * 128 ≤ 0x28000 := by
    cases arch <;> decide
  rw [hsize]
  omega

theorem replayE820_congr {mem mem' : Mem} {compat : E820.Compatibility16Table}
    (h : ∀ a, compat.e820Pointer.toNat ≤ a →
      a < compat.e820Pointer.toNat + compat.e820Length.toNat → mem a = mem' a) (t : E820.Table) :
    E820.replayE820 mem compat t = E820.replayE820 mem' compat t := by
  have hsize : E820.sizeofEntry = 20 := rfl
  refine List.foldl_ext _ _ _ fun t i hi => ?_
  rw [List.mem_range, hsize] at hi
  have hentry : E820.entryAt mem (compat.e820Pointer.toNat + E820.sizeofEntry * i) =
      E820.entryAt mem' (compat.e820Pointer.toNat + E820.sizeofEntry * i) := by
    refine E820.entryAt_congr fun j hj => ?_
    rw [hsize] at hj ⊢
    exact h _ (by omega) (by omega)
  rw [hentry]

/-- SeaBIOS replays the entries that CSMWrap built. -/
theorem LowStub.replay {arch : Arch} {hi : HiPmm} {t : E820.Table} {mem : Mem}
    (hm : LowStub arch hi t mem) (hlen : t.entries.length ≤ 128) (t' : E820.Table) :
    E820.replayE820 mem (E820.publishE820 (e820Map arch).toUInt64 t) t' =
      E820.runFrom E820.seabios t' (t.entries.map E820.Entry.call) := by
  obtain ⟨mem₀, hkept⟩ := hm.kept
  obtain ⟨hbelow, htable, htop⟩ := e820Map_le arch hlen
  have hmap : (e820Map arch).toUInt64.toNat = (e820Map arch).toNat := UInt32.toNat_toUInt64 _
  have hp : (E820.publishE820 (e820Map arch).toUInt64 t).e820Pointer.toNat =
      (e820Map arch).toNat := by simp [E820.publishE820]
  have hl : (E820.publishE820 (e820Map arch).toUInt64 t).e820Length.toNat =
      E820.sizeofEntry * t.entries.length := by
    simp only [E820.publishE820, UInt32.toNat_ofNat']
    omega
  rw [replayE820_congr fun a h1 h2 => hkept a (by omega) (by omega), ← hmap]
  exact E820.replay_eq_run _ t' (by omega)

theorem LowStub.read32_initTable {arch : Arch} {hi : HiPmm} {t : E820.Table} {mem : Mem}
    (hm : LowStub arch hi t mem) {o : Nat} (ho : o + 4 ≤ 40) : ∃ mem₀,
      read32 mem ((Boot.initTable arch).toNat + o) =
        read32 (writeInitTable arch hi.base mem₀) ((Boot.initTable arch).toNat + o) := by
  obtain ⟨mem₀, hkept⟩ := hm.kept
  obtain ⟨hbelow, htable, htop⟩ := e820Map_le arch (Nat.zero_le 128)
  refine ⟨mem₀, ?_⟩
  unfold read32
  rw [load_congr fun i hi => hkept _ (by omega) (by omega), E820.storeMap,
    load_store_outside _ _ (.inl (by omega))]

/-- And it reserves the end of the high memory. -/
theorem LowStub.reserveHighTable {arch : Arch} {hi : HiPmm} {t : E820.Table} {mem : Mem}
    (hm : LowStub arch hi t mem) {c : Boot.Csm} (hc : c.csmInitTable = Boot.initTable arch)
    (t' : E820.Table) :
    Boot.reserveHighTable c mem t' = E820.e820Add E820.seabios t'
      (hi.base + hipmmSize - buildMinHightable).toUInt64 buildMinHightable.toUInt64
      e820Reserved := by
  obtain ⟨mem₁, hsize⟩ := hm.read32_initTable (o := Boot.hiPmmMemorySizeOffset) (by decide)
  obtain ⟨mem₂, hbase⟩ := hm.read32_initTable (o := Boot.hiPmmMemoryOffset) (by decide)
  have hsize' : read32 (writeInitTable arch hi.base mem₁)
      ((Boot.initTable arch).toNat + Boot.hiPmmMemorySizeOffset) = hipmmSize := by
    simp only [writeInitTable, Boot.hiPmmMemorySizeOffset, Boot.hiPmmMemoryOffset]
    simp (disch := omega) only [read32_write32_of_ne, read32_write32]
  have hbase' : read32 (writeInitTable arch hi.base mem₂)
      ((Boot.initTable arch).toNat + Boot.hiPmmMemoryOffset) = hi.base := by
    simp only [writeInitTable, read32_write32]
  have hbig : hipmmSize > buildMinHightable := by decide
  simp only [Boot.reserveHighTable, hc, hsize, hsize', hbase, hbase', if_pos hbig]

/-- The entry that SeaBIOS reserves for `ZoneHigh`. -/
def highTableCall (hi : HiPmm) : E820.Call UInt32 :=
  add32 (hi.base + hipmmSize - buildMinHightable) buildMinHightable e820Reserved

/-- The last entries, from `malloc_prepboot`. -/
def lowCall (memSizeKb : UInt16) : E820.Call UInt32 :=
  add32 (memSizeKb.toUInt32 * 1024) (buildLowramEnd - memSizeKb.toUInt32 * 1024) e820Reserved

def givebackCalls (h : Heap) : List (E820.Call UInt32) :=
  (allocFindLowest h .high).toList.map fun info =>
    add32 info.rangeStart (giveback info) e820Ram

theorem prepareMap_eq (h : Heap) (memSizeKb : UInt16) (t : E820.Table) :
    prepareMap h memSizeKb t =
      E820.runFrom E820.seabios t (lowCall memSizeKb :: givebackCalls h) := by
  unfold prepareMap givebackCalls
  rw [lowCall, E820.runFrom, List.foldl_cons, step_add32]
  cases allocFindLowest h .high with
  | none => rw [Option.toList_none, List.map_nil, List.foldl_nil]
  | some info =>
    rw [Option.toList_some, List.map_singleton, List.foldl_cons, List.foldl_nil, step_add32]

/-- The life of the map, from `bda_init` to the boot. -/
theorem boot_e820 {arch : Arch} {hi : HiPmm} (hin : InPost S E lo w)
    (hstart : w.post.e820 = bdaInit .empty) {events later : List Event}
    (he : ∀ e ∈ events, e.Proper) (hl : ∀ e ∈ later, e.Proper) {t : E820.Table}
    (hlen : t.entries.length ≤ 128) {mem : Mem} (hm : LowStub arch hi t mem) {c : Boot.Csm}
    (hinit : c.csmInitTable = Boot.initTable arch)
    (hcompat : c.compat = E820.publishE820 (e820Map arch).toUInt64 t) (mem' : Mem) {w' : World}
    (hw' : ((w.after S events).replay mem c).after S later = w') :
    ∃ before after, (∀ c ∈ before, Reserves E c) ∧ (∀ c ∈ after, Reserves E c) ∧
      (mallocPrepboot mem' w'.post).2.1.e820 = E820.runFrom E820.seabios .empty
        (add32 0x9fc00 0x400 e820Reserved :: before ++ t.entries.map E820.Entry.call ++
          highTableCall hi :: after ++
          lowCall (read16 (prepareRoms mem' w'.post) memSizeKbAddr) ::
          givebackCalls w'.post.heap) := by
  obtain ⟨before, hbefore, hb⟩ := hin.after_reserving he
  obtain ⟨lo', hin'⟩ := hin.after he
  have hin'' := hin'.replay mem c
  obtain ⟨after, hafter, ha⟩ := hin''.after_reserving hl
  rw [hw'] at hafter
  refine ⟨before, after, hb, ha, ?_⟩
  have hreplay : ((w.after S events).replay mem c).post.e820 =
      E820.runFrom E820.seabios .empty (add32 0x9fc00 0x400 e820Reserved :: before ++
        t.entries.map E820.Entry.call ++ [highTableCall hi]) := by
    have hrep : ((w.after S events).replay mem c).post.e820 =
        Boot.reserveHighTable c mem (E820.replayE820 mem c.compat (w.after S events).post.e820) :=
      rfl
    rw [hrep, hm.reserveHighTable hinit, hcompat, hm.replay hlen, hbefore, hstart]
    simp only [E820.runFrom, List.cons_append, List.foldl_cons, List.foldl_append, List.foldl_nil]
    rfl
  have hmap : ∀ p, (mallocPrepboot mem' p).2.1.e820 =
      prepareMap p.heap (read16 (prepareRoms mem' p) memSizeKbAddr) p.e820 := fun _ => rfl
  rw [hmap, prepareMap_eq, hafter, hreplay]
  simp only [E820.runFrom, List.cons_append, List.foldl_cons, List.foldl_append, List.foldl_nil,
    List.append_assoc]

theorem add32_nonWrapping (start size type : UInt32) : (add32 start size type).NonWrapping := by
  have h1 := start.toNat_lt
  have h2 := size.toNat_lt
  simp only [add32, E820.Call.NonWrapping, E820.Call.start, E820.Call.size,
    UInt32.toNat_toUInt64]
  omega

theorem add32_contains {start size type : UInt32} {x : Nat} :
    (add32 start size type).Contains x ↔ start.toNat ≤ x ∧ x < start.toNat + size.toNat := by
  simp only [add32, E820.Call.Contains, E820.Call.start, E820.Call.size, UInt32.toNat_toUInt64]

theorem paint_add32 {start size type : UInt32} (ht : type ≠ E820.seabios.hole)
    (f : Regions.Coverage Nat UInt32) (x : Nat) :
    (add32 start size type).paint E820.seabios f x =
      if (add32 start size type).Contains x then some type else f x := by
  have hgives : ((add32 start size type).gives E820.seabios).map E820.seabios.store =
      some type := by
    rw [add32, E820.Call.gives, if_neg ht]
    rfl
  rw [E820.Call.paint, hgives]
  rfl

/-- A reservation takes memory away. -/
theorem paint_reserved (start size : UInt32) (f : Regions.Coverage Nat UInt32) (x : Nat) :
    (add32 start size e820Reserved).paint E820.seabios f x = some e820Ram ↔
      f x = some e820Ram ∧ ¬ (add32 start size e820Reserved).Contains x := by
  have hne : e820Reserved ≠ e820Ram := by decide
  rw [paint_add32 (by decide)]
  split_ifs with h
  · simp [h, hne]
  · simp [h]

theorem paint_reserves {calls : List (E820.Call UInt32)} (hc : ∀ c ∈ calls, Reserves E c)
    (f : Regions.Coverage Nat UInt32) (x : Nat) :
    calls.foldl (E820.Call.paint E820.seabios) f x = some e820Ram ↔
      f x = some e820Ram ∧ ∀ c ∈ calls, ¬ c.Contains x := by
  induction calls generalizing f with
  | nil => simp
  | cons c calls ih =>
    obtain ⟨⟨data, size, rfl, -⟩, hrest⟩ := List.forall_mem_cons.mp hc
    rw [List.foldl_cons, ih hrest, List.forall_mem_cons, paint_reserved, and_assoc]

theorem paint_giveback (h : Heap) (f : Regions.Coverage Nat UInt32) (x : Nat) :
    (givebackCalls h).foldl (E820.Call.paint E820.seabios) f x = some e820Ram ↔
      f x = some e820Ram ∨ ∃ info, allocFindLowest h .high = some info ∧
        info.rangeStart.toNat ≤ x ∧ x < info.rangeStart.toNat + (giveback info).toNat := by
  unfold givebackCalls
  cases allocFindLowest h .high with
  | none => simp
  | some info =>
    rw [Option.toList_some, List.map_singleton, List.foldl_cons, List.foldl_nil,
      paint_add32 (by decide)]
    split_ifs with hc
    · exact iff_of_true rfl (.inr ⟨info, rfl, add32_contains.mp hc⟩)
    · refine ⟨.inl, ?_⟩
      rintro (hf | ⟨_, ⟨⟩, hin⟩)
      · exact hf
      · exact absurd (add32_contains.mpr hin) hc

/-- All the calls of `boot_e820` together. The high memory is CSMWrap's, so that what
SeaBIOS reserves of it was not usable anyway. -/
theorem paint_boot {before after : List (E820.Call UInt32)} (hb : ∀ c ∈ before, Reserves E c)
    (ha : ∀ c ∈ after, Reserves E c) {hi : HiPmm}
    (hE : ∀ e ∈ E .tmpHigh, e = zoneHome S hi .tmpHigh) {t : E820.Table}
    (ho : Regions.Ordered (E820.view t.entries)) (hh : ∀ e ∈ t.entries, e.type ≠ E820.e820Hole)
    (hhi : ∀ x, hi.base.toNat ≤ x → x < hi.base.toNat + 0x400000 →
      Regions.lookup (E820.view t.entries) x ≠ some e820Ram)
    (memSizeKb : UInt16) (h : Heap) (x : Nat) :
    (add32 0x9fc00 0x400 e820Reserved :: before ++ t.entries.map E820.Entry.call ++
        highTableCall hi :: after ++ lowCall memSizeKb :: givebackCalls h).foldl
      (E820.Call.paint E820.seabios) (fun _ => none) x = some e820Ram ↔
    (Regions.lookup (E820.view t.entries) x = some e820Ram ∧ ¬ (lowCall memSizeKb).Contains x) ∨
      ∃ info, allocFindLowest h .high = some info ∧
        info.rangeStart.toNat ≤ x ∧ x < info.rangeStart.toNat + (giveback info).toNat := by
  have hfirst : (add32 0x9fc00 0x400 e820Reserved :: before).foldl
      (E820.Call.paint E820.seabios) (fun _ => none) x ≠ some e820Ram := by
    rw [List.foldl_cons, Ne, paint_reserves hb, paint_reserved]
    simp
  have hreplay : ∀ f : Regions.Coverage Nat UInt32, f x ≠ some e820Ram →
      ((t.entries.map E820.Entry.call).foldl (E820.Call.paint E820.seabios) f x = some e820Ram ↔
        Regions.lookup (E820.view t.entries) x = some e820Ram) := by
    intro f hf
    rw [E820.paint_entries ho hh]
    cases Regions.lookup (E820.view t.entries) x with
    | none => simpa using hf
    | some type => simp
  -- where CSMWrap's map has usable memory, SeaBIOS reserves nothing
  have hfree : Regions.lookup (E820.view t.entries) x = some e820Ram →
      ¬ (highTableCall hi).Contains x ∧ ∀ c ∈ after, ¬ c.Contains x := by
    intro hram
    have hout : ¬ (hi.base.toNat ≤ x ∧ x < hi.base.toNat + 0x400000) :=
      fun hx => hhi x hx.1 hx.2 hram
    obtain ⟨-, htable⟩ := hi.ends
    have hsize : buildMinHightable.toNat = 0x40000 := rfl
    constructor
    · rw [highTableCall, add32_contains, htable, hsize]
      omega
    · intro c hc
      obtain ⟨data, size, rfl, e, he, h1, h2⟩ := ha c hc
      rw [hE e he] at h1 h2
      simp only [zoneHome] at h1 h2
      rw [add32_contains]
      omega
  rw [List.foldl_append, List.foldl_cons, paint_giveback, lowCall, paint_reserved,
    List.foldl_append, List.foldl_cons, paint_reserves ha, highTableCall, paint_reserved,
    List.foldl_append, hreplay _ hfirst]
  constructor
  · rintro (⟨⟨⟨hram, -⟩, -⟩, hlow⟩ | hgive)
    · exact .inl ⟨hram, hlow⟩
    · exact .inr hgive
  · rintro (⟨hram, hlow⟩ | hgive)
    · exact .inl ⟨⟨⟨hram, (hfree hram).1⟩, (hfree hram).2⟩, hlow⟩
    · exact .inr hgive

section
variable {ds : List E820.MemoryDescriptor}

theorem build_within (hn : ∀ d ∈ ds, d.NonWrapping)
    (hd : ds.Pairwise E820.MemoryDescriptor.Disjoint) (a : Nat) :
    Regions.lookup (E820.view (E820.buildE820Map .empty ds).entries) a = none ∨
      Regions.lookup (E820.view (E820.buildE820Map .empty ds).entries) a = E820.intended ds a := by
  rw [← E820.build_paint hn hd, E820.buildE820Map_eq_run]
  exact E820.run_within E820.Sound.nil (E820.build_nonWrapping hn) (.refl _) a

theorem build_exact (hn : ∀ d ∈ ds, d.NonWrapping)
    (hd : ds.Pairwise E820.MemoryDescriptor.Disjoint)
    (hr : (E820.buildE820Map .empty ds).refused = 0) (a : Nat) :
    Regions.lookup (E820.view (E820.buildE820Map .empty ds).entries) a = E820.intended ds a := by
  rw [E820.buildE820Map_eq_run] at hr ⊢
  rw [E820.run_lookup E820.Sound.nil (E820.build_nonWrapping hn) hr, ← E820.build_paint hn hd]
  rfl

theorem intended_ne_hole {a : Nat} {t : UInt32} (h : E820.intended ds a = some t) :
    t ≠ E820.e820Hole := by
  unfold E820.intended at h
  split_ifs at h
  · cases h
    decide
  · cases h
    decide
  · obtain ⟨d, -, rfl⟩ := Option.map_eq_some_iff.mp h
    rcases E820.convertMemoryType_cases d.type with h | h | h | h <;> rw [h] <;> decide

/-- SeaBIOS takes every entry of the built map for what it is. -/
theorem build_ne_hole (hn : ∀ d ∈ ds, d.NonWrapping)
    (hd : ds.Pairwise E820.MemoryDescriptor.Disjoint) :
    ∀ e ∈ (E820.buildE820Map .empty ds).entries, e.type ≠ E820.e820Hole := by
  intro e he
  have hs : E820.Sound E820.csmwrap (E820.buildE820Map .empty ds).entries :=
    E820.build_sound E820.Sound.nil hn
  have hmem : e.region ∈ E820.view (E820.buildE820Map .empty ds).entries := List.mem_map_of_mem he
  have hlook := Regions.lookup_of_mem hs.ordered hmem
    ⟨Nat.le_refl _, hs.ordered.nonempty _ hmem⟩
  rcases build_within hn hd e.region.lo with hnone | hsome
  · rw [hnone] at hlook
    cases hlook
  · exact intended_ne_hole (hsome.symm.trans hlook)

theorem build_length (hn : ∀ d ∈ ds, d.NonWrapping) :
    (E820.buildE820Map .empty ds).entries.length ≤ 128 := by
  rw [E820.buildE820Map_eq_run]
  exact (E820.run_counters E820.Sound.nil (E820.build_nonWrapping hn)).2

end

/-! ## A whole boot -/

theorem started_e820 {calls : List Call} {e820 : E820.Table}
    (hw : started S calls e820 = some w) : w.post.e820 = e820 := by
  obtain ⟨post, hinit, rfl⟩ := Option.map_eq_some_iff.mp hw
  simp only [mallocInit] at hinit
  split at hinit
  · cases hinit
  · exact (congrArg (fun p => p.toPmm.e820) (Option.some.inj hinit)).symm

theorem Reserves.nonWrapping {c : E820.Call UInt32} (hc : Reserves E c) : c.NonWrapping := by
  obtain ⟨data, size, rfl, -⟩ := hc
  exact add32_nonWrapping ..

def efiRuntimeServicesData : UInt32 := 6

/-- A boot: the map of UEFI, in which the high memory is allocated for CSMWrap, what
happens during POST before and after PrepareToBoot, and the memory that PrepareToBoot and
`malloc_prepboot` find. -/
structure Course (S : Symbols) where
  arch : Arch
  hi : HiPmm
  code : InitCode
  memoryMap : List E820.MemoryDescriptor
  disjoint : memoryMap.Pairwise E820.MemoryDescriptor.Disjoint
  nonWrapping : ∀ d ∈ memoryMap, d.NonWrapping
  allocated : ∀ a, hi.base.toNat ≤ a → a < hi.base.toNat + 0x400000 →
    ∃ d ∈ memoryMap, d.type = efiRuntimeServicesData ∧ d.Contains a
  first : World
  starts : started S (initCalls arch hi code) (bdaInit .empty) = some first
  events : List Event
  proper : ∀ e ∈ events, e.Proper
  mem : Mem
  lowStub : LowStub arch hi (E820.buildE820Map .empty memoryMap) mem
  csm : Boot.Csm
  initTable : csm.csmInitTable = Boot.initTable arch
  compat : csm.compat =
    E820.publishE820 (e820Map arch).toUInt64 (E820.buildE820Map .empty memoryMap)
  later : List Event
  later_proper : ∀ e ∈ later, e.Proper
  lastMem : Mem
  conventional : (read16 lastMem memSizeKbAddr).toNat ≤ 640

/-- No more is given back than is free. -/
theorem giveback_le {info : AllocInfo} (hle : info.rangeStart.toNat ≤ info.rangeEnd.toNat) :
    info.rangeStart.toNat + (giveback info).toNat ≤ info.rangeEnd.toNat := by
  have hpage : pageSize.toNat = 2 ^ 12 := rfl
  rw [giveback, alignDown_toNat hpage,
    UInt32.toNat_sub_of_le _ _ (UInt32.le_iff_toNat_le.mpr hle)]
  have hdiv := Nat.div_mul_le_self (info.rangeEnd.toNat - info.rangeStart.toNat) pageSize.toNat
  omega

namespace Course
variable (r : Course S)

/-- POST at its end. -/
def last : World := ((r.first.after S r.events).replay r.mem r.csm).after S r.later

/-- The map that is left for the operating system. -/
def map : E820.Table := (mallocPrepboot r.lastMem r.last.post).2.1.e820

def legacyRamSize : UInt32 := (mallocPrepboot r.lastMem r.last.post).2.2

/-- The map as an operating system reads it into a buffer at `ES:DI`. -/
def osMap (es di : UInt16) (mem : Mem) : List E820.Entry :=
  Boot.readMap r.map.entries r.legacyRamSize es di r.map.entries.length mem 0

/-- Memory of `ZoneHigh` that SeaBIOS gives back. -/
def GivenBack (a : Nat) : Prop :=
  ∃ info, allocFindLowest r.last.post.heap .high = some info ∧
    info.rangeStart.toNat ≤ a ∧ a < info.rangeStart.toNat + (giveback info).toNat

/-- What CSMWrap makes of the map of UEFI, without the low memory above
`mem_size_kb`. -/
def FromUefi (a : Nat) : Prop :=
  E820.intended r.memoryMap a = some e820Ram ∧
    ¬ ((read16 r.lastMem memSizeKbAddr).toNat * 1024 ≤ a ∧ a < 0xa0000)

theorem inPost : ∃ E lo, InPost S E lo r.last ∧ ∀ z, ∀ e ∈ E z, e = zoneHome S r.hi z := by
  obtain ⟨E, lo, hin, hE⟩ := started_home r.starts
  obtain ⟨lo₁, hin₁⟩ := hin.after r.proper
  obtain ⟨lo₂, hin₂⟩ := (hin₁.replay r.mem r.csm).after r.later_proper
  exact ⟨E, lo₂, hin₂, hE⟩

/-- The high memory is not usable in CSMWrap's map. -/
theorem intended_hi {a : Nat} (h1 : r.hi.base.toNat ≤ a) (h2 : a < r.hi.base.toNat + 0x400000) :
    E820.intended r.memoryMap a ≠ some e820Ram := by
  obtain ⟨d, hd, htype, hc⟩ := r.allocated a h1 h2
  have habove := r.hi.above
  have hfind : (r.memoryMap.find? fun d => decide (d.Contains a)) = some d := by
    obtain ⟨d', hd'⟩ : ∃ d', (r.memoryMap.find? fun d => decide (d.Contains a)) = some d' := by
      rw [← Option.isSome_iff_exists, List.find?_isSome]
      exact ⟨d, hd, decide_eq_true hc⟩
    have hc' : d'.Contains a := by simpa using List.find?_some hd'
    have : Std.Symm E820.MemoryDescriptor.Disjoint := ⟨fun _ _ h a ha => h a ha.symm⟩
    by_contra hne
    refine r.disjoint.forall (List.mem_of_find?_eq_some hd') hd ?_ a ⟨hc', hc⟩
    rintro rfl
    exact hne hd'
  rw [E820.intended, if_neg (by omega), if_neg (by omega), hfind, Option.map_some, htype]
  decide

theorem memSizeKb_eq : read16 (prepareRoms r.lastMem r.last.post) memSizeKbAddr =
    read16 r.lastMem memSizeKbAddr := by
  obtain ⟨E, lo, hin, -⟩ := r.inPost
  have hrom := hin.rom_start
  unfold read16
  rw [load_congr fun i hi => hin.prepareRoms_outside _ (.inl (by simp only [memSizeKbAddr]; omega))]

theorem map_eq : r.map = prepareMap r.last.post.heap (read16 r.lastMem memSizeKbAddr)
    r.last.post.e820 := by
  rw [← r.memSizeKb_eq]
  rfl

theorem lowCall_contains {a : Nat} :
    (lowCall (read16 r.lastMem memSizeKbAddr)).Contains a ↔
      (read16 r.lastMem memSizeKbAddr).toNat * 1024 ≤ a ∧ a < 0xa0000 := by
  have hkb := r.conventional
  generalize read16 r.lastMem memSizeKbAddr = kb at hkb
  have h1024 : (1024 : UInt32).toNat = 1024 := rfl
  have hend : buildLowramEnd.toNat = 0xa0000 := rfl
  have hmul : (kb.toUInt32 * 1024).toNat = kb.toNat * 1024 := by
    rw [UInt32.toNat_mul, UInt16.toNat_toUInt32, h1024, Nat.mod_eq_of_lt (by omega)]
  have hsub : (buildLowramEnd - kb.toUInt32 * 1024).toNat = 0xa0000 - kb.toNat * 1024 := by
    rw [UInt32.toNat_sub_of_le _ _ (UInt32.le_iff_toNat_le.mpr (by omega)), hend, hmul]
  rw [lowCall, add32_contains, hmul, hsub]
  omega

/-- The whole history of the map. -/
theorem map_run : ∃ calls, r.map = E820.runFrom E820.seabios .empty calls ∧
    (∀ c ∈ calls, c.NonWrapping) ∧
    ∀ a, calls.foldl (E820.Call.paint E820.seabios) (fun _ => none) a = some e820Ram ↔
      (Regions.lookup (E820.view (E820.buildE820Map .empty r.memoryMap).entries) a =
          some e820Ram ∧
        ¬ ((read16 r.lastMem memSizeKbAddr).toNat * 1024 ≤ a ∧ a < 0xa0000)) ∨
      r.GivenBack a := by
  obtain ⟨E, lo, hin, hE⟩ := started_home r.starts
  have hs : E820.Sound E820.csmwrap (E820.buildE820Map .empty r.memoryMap).entries :=
    E820.build_sound E820.Sound.nil r.nonWrapping
  have hlast : ((r.first.after S r.events).replay r.mem r.csm).after S r.later = r.last := rfl
  obtain ⟨before, after, hb, ha, hmap⟩ := boot_e820 hin (started_e820 r.starts) r.proper
    r.later_proper (build_length r.nonWrapping) r.lowStub r.initTable r.compat r.lastMem hlast
  refine ⟨_, hmap, ?_, fun a => ?_⟩
  · simp only [List.forall_mem_append, List.forall_mem_cons, List.forall_mem_map]
    refine ⟨⟨⟨⟨add32_nonWrapping .., fun c hc => (hb c hc).nonWrapping⟩, hs.bounded⟩,
      add32_nonWrapping .., fun c hc => (ha c hc).nonWrapping⟩, add32_nonWrapping .., ?_⟩
    intro c hc
    obtain ⟨info, -, rfl⟩ := List.mem_map.mp hc
    exact add32_nonWrapping ..
  · have hhi : ∀ x, r.hi.base.toNat ≤ x → x < r.hi.base.toNat + 0x400000 →
        Regions.lookup (E820.view (E820.buildE820Map .empty r.memoryMap).entries) x ≠
          some e820Ram := by
      intro x h1 h2 hram
      rcases build_within r.nonWrapping r.disjoint x with h | h
      · rw [h] at hram
        cases hram
      · exact r.intended_hi h1 h2 (h ▸ hram)
    refine (paint_boot hb ha (hE .tmpHigh) hs.ordered
      (build_ne_hole r.nonWrapping r.disjoint) hhi
      (read16 (prepareRoms r.lastMem r.last.post) memSizeKbAddr) r.last.post.heap a).trans ?_
    rw [r.memSizeKb_eq, r.lowCall_contains]
    rfl

theorem map_sound : E820.Sound E820.seabios r.map.entries ∧ r.map.entries.length ≤ 128 := by
  obtain ⟨calls, hmap, hn, -⟩ := r.map_run
  rw [hmap]
  exact ⟨E820.run_sound E820.Sound.nil hn, (E820.run_counters E820.Sound.nil hn).2⟩

/-- The operating system gets all of the map. -/
theorem osMap_eq {es di : UInt16} (hdi : di.toNat + E820.sizeofEntry ≤ 2 ^ 16) (mem : Mem) :
    r.osMap es di mem = r.map.entries :=
  Boot.os_reads_map _ _ es di mem (r.map_sound.2.trans (by decide)) hdi

theorem map_usable {a : Nat} (h : E820.Reports r.map.entries a e820Ram) :
    r.FromUefi a ∨ r.GivenBack a := by
  obtain ⟨calls, hmap, hn, hpaint⟩ := r.map_run
  rw [E820.reports_iff r.map_sound.1, hmap] at h
  have hram : calls.foldl (E820.Call.paint E820.seabios) (fun _ => none) a = some e820Ram := by
    rcases E820.run_within E820.Sound.nil hn
      (.refl (Regions.lookup (E820.view E820.Table.empty.entries))) a with h' | h'
    · rw [h'] at h
      cases h
    · exact h'.symm.trans h
  refine ((hpaint a).mp hram).imp_left fun ⟨hlook, hlow⟩ => ⟨?_, hlow⟩
  rcases build_within r.nonWrapping r.disjoint a with h' | h'
  · rw [h'] at hlook
    cases hlook
  · exact h'.symm.trans hlook

/-- What is given back lies in `ZoneHigh` and in none of its blocks. -/
theorem givenBack_free {a : Nat} (h : r.GivenBack a) :
    0x100000 ≤ a ∧ ∀ b ∈ r.last.books, ¬ (b.range.1 ≤ a ∧ a < b.range.2) := by
  obtain ⟨info, hinfo, h1, h2⟩ := h
  obtain ⟨E, lo, hin, hE⟩ := r.inPost
  obtain ⟨-, -, hle, e, he, hlo, -⟩ := hin.sound.lowest hinfo
  have hback := giveback_le hle
  have habove := r.hi.above
  refine ⟨?_, fun b hb hin' => ?_⟩
  · have hhome := (hin.in_home hE he).1
    simp only [zoneHome] at hhome
    omega
  · have hap := hin.lowest_apart hinfo hb
    simp only [Apart] at hap
    omega

/-- Memory from 0xc0000 to 1 MiB, or allocated by CSMWrap, is not usable. -/
theorem not_usable {es di : UInt16} (hdi : di.toNat + E820.sizeofEntry ≤ 2 ^ 16) (mem : Mem)
    {a : Nat} (ha : 0x80000 ≤ a ∧ a < 0x100000 ∨
      r.hi.base.toNat ≤ a ∧ a < r.hi.base.toNat + 0x400000)
    (hback : ¬ r.GivenBack a) : ¬ E820.Reports (r.osMap es di mem) a e820Ram := by
  rw [r.osMap_eq hdi]
  intro h
  rcases r.map_usable h with ⟨hint, -⟩ | hgiven
  · rcases ha with ⟨h1, h2⟩ | ⟨h1, h2⟩
    · rw [E820.intended, if_neg (by omega), if_pos h2] at hint
      exact absurd hint (by decide)
    · exact r.intended_hi h1 h2 hint
  · exact hback hgiven

end Course

/-- From UEFI to the operating system: a byte that is reported as usable is one that
CSMWrap makes usable from UEFI's map, below `mem_size_kb` or above the first 640 KiB, or
one that SeaBIOS gives back. All such bytes are reported, unless one of the two tables
has turned an entry away. -/
theorem os_map_usable (r : Course S) (es : UInt16) {di : UInt16}
    (hdi : di.toNat + E820.sizeofEntry ≤ 2 ^ 16) (mem : Mem) :
    (∀ a, E820.Reports (r.osMap es di mem) a e820Ram → r.FromUefi a ∨ r.GivenBack a) ∧
    ((E820.buildE820Map .empty r.memoryMap).refused = 0 → r.map.refused = 0 →
      ∀ a, r.FromUefi a ∨ r.GivenBack a → E820.Reports (r.osMap es di mem) a e820Ram) := by
  rw [r.osMap_eq hdi]
  refine ⟨fun a => r.map_usable, fun hbuilt hfinal a ha => ?_⟩
  obtain ⟨calls, hmap, hn, hpaint⟩ := r.map_run
  rw [E820.reports_iff r.map_sound.1]
  rw [hmap] at hfinal ⊢
  rw [E820.run_lookup E820.Sound.nil hn hfinal]
  refine (hpaint a).mpr (ha.imp_left fun ⟨hint, hlow⟩ => ⟨?_, hlow⟩)
  rw [build_exact r.nonWrapping r.disjoint hbuilt]
  exact hint

/-- 2 GiB with the high memory at the end. -/
def sampleMap : List E820.MemoryDescriptor := [⟨7, 0x100000, 0x7ef00⟩, ⟨6, 0x7f000000, 0x400⟩]

theorem sampleMap_disjoint : sampleMap.Pairwise E820.MemoryDescriptor.Disjoint := by
  apply List.pairwise_pair.mpr
  intro a h
  simp only [E820.MemoryDescriptor.Contains, E820.MemoryDescriptor.size, UInt64.reduceToNat] at h
  omega

theorem sampleMap_nonWrapping : ∀ d ∈ sampleMap, d.NonWrapping := by decide

theorem sampleMap_allocated (a : Nat) (h1 : sampleHiPmm.base.toNat ≤ a)
    (h2 : a < sampleHiPmm.base.toNat + 0x400000) :
    ∃ d ∈ sampleMap, d.type = efiRuntimeServicesData ∧ d.Contains a := by
  refine ⟨_, .tail _ (.head _), rfl, ?_⟩
  simp only [sampleHiPmm, UInt32.reduceToNat] at h1 h2
  simp only [E820.MemoryDescriptor.Contains, E820.MemoryDescriptor.size, UInt64.reduceToNat]
  omega

theorem sampleFirst_isSome : (started sampleSymbols
    (initCalls .x86_64 sampleHiPmm sampleInitCode) (bdaInit .empty)).isSome := by
  decide +kernel

def sampleFirst : World :=
  (started sampleSymbols (initCalls .x86_64 sampleHiPmm sampleInitCode) (bdaInit .empty)).get
    sampleFirst_isSome

theorem sampleFirst_started :
    started sampleSymbols (initCalls .x86_64 sampleHiPmm sampleInitCode) (bdaInit .empty) =
      some sampleFirst := (Option.some_get _).symm

theorem noEvents_proper : ∀ e ∈ ([] : List Event), e.Proper := by simp

/-- The memory that CSMWrap leaves for PrepareToBoot. -/
def sampleMem : Mem :=
  E820.storeMap (writeInitTable .x86_64 sampleHiPmm.base fun _ => 0) (e820Map .x86_64).toNat
    (E820.buildE820Map .empty sampleMap).entries

theorem sampleMem_lowStub :
    LowStub .x86_64 sampleHiPmm (E820.buildE820Map .empty sampleMap) sampleMem :=
  ⟨_, fun _ _ _ => rfl⟩

def sampleCsm : Boot.Csm :=
  ⟨Boot.initTable .x86_64, 0, E820.publishE820 (e820Map .x86_64).toUInt64
    (E820.buildE820Map .empty sampleMap), .empty, none⟩

theorem sampleCsm_initTable : sampleCsm.csmInitTable = Boot.initTable .x86_64 := rfl

theorem sampleCsm_compat : sampleCsm.compat = E820.publishE820 (e820Map .x86_64).toUInt64
    (E820.buildE820Map .empty sampleMap) := rfl

/-- 639 KiB of low memory, as `bda_init` leaves it. -/
def sampleLastMem : Mem := store (fun _ => 0) memSizeKbAddr (leBytes 2 639)

theorem sampleLastMem_conventional : (read16 sampleLastMem memSizeKbAddr).toNat ≤ 640 := by
  decide +kernel

def sampleCourse : Course sampleSymbols where
  arch := .x86_64
  hi := sampleHiPmm
  code := sampleInitCode
  memoryMap := sampleMap
  disjoint := sampleMap_disjoint
  nonWrapping := sampleMap_nonWrapping
  allocated := sampleMap_allocated
  first := sampleFirst
  starts := sampleFirst_started
  events := []
  proper := noEvents_proper
  mem := sampleMem
  lowStub := sampleMem_lowStub
  csm := sampleCsm
  initTable := sampleCsm_initTable
  compat := sampleCsm_compat
  later := sampleEvents
  later_proper := sampleEvents_proper
  lastMem := sampleLastMem
  conventional := sampleLastMem_conventional

theorem os_map_usable_sample :
    E820.Reports (sampleCourse.osMap 0x9000 0 fun _ => 0) 0x200000 e820Ram ∧
    ¬ E820.Reports (sampleCourse.osMap 0x9000 0 fun _ => 0) 0x7f000000 e820Ram := by
  have hdi : (0 : UInt16).toNat + E820.sizeofEntry ≤ 2 ^ 16 := by decide
  obtain ⟨honly, hall⟩ := os_map_usable sampleCourse 0x9000 hdi fun _ => 0
  constructor
  · refine hall (by decide +kernel) ?_ _ (.inl ⟨by decide, by decide +kernel⟩)
    rw [sampleCourse.map_eq]
    decide +kernel
  · intro h
    rcases honly _ h with ⟨h, -⟩ | ⟨info, hinfo, h, -⟩
    · exact absurd h (by decide)
    · have hstart : (allocFindLowest sampleCourse.last.post.heap .high).all
          (0x7f000000 < ·.rangeStart.toNat) = true := by decide +kernel
      rw [hinfo] at hstart
      exact absurd h (not_le.mpr (by simpa using hstart))

/-- No byte of a block that is meant to stay, and none of a ROM, is reported as usable. -/
theorem os_map_spares (r : Course S) (es : UInt16) {di : UInt16}
    (hdi : di.toNat + E820.sizeofEntry ≤ 2 ^ 16) (mem : Mem) :
    (∀ b ∈ r.last.books, b.zone ≠ .tmpLow → ∀ a, b.range.1 ≤ a → a < b.range.2 →
      ¬ E820.Reports (r.osMap es di mem) a e820Ram) ∧
    ∀ rom ∈ r.last.roms, ∀ a, rom.1 ≤ a → a < rom.2 →
      ¬ E820.Reports (r.osMap es di mem) a e820Ram := by
  obtain ⟨E, lo, hin, hE⟩ := r.inPost
  have hrom := S.rom_le_zonelow
  have hlow := S.zonelow_lt
  have hvar := S.varlow_lt
  have hseg := S.zonefseg_lt
  have hend := S.zonefseg_le
  refine ⟨fun b hb hz a h1 h2 => r.not_usable hdi mem ?_ fun hg =>
    (r.givenBack_free hg).2 b hb ⟨h1, h2⟩, fun rom hr a h1 h2 => r.not_usable hdi mem (.inl ?_)
      fun hg => ?_⟩
  · obtain ⟨h3, h4⟩ := hin.block_in_home hE hb
    cases hzone : b.zone <;> rw [hzone] at h3 h4 hz <;> simp only [zoneHome] at h3 h4
    · exact absurd rfl hz
    all_goals omega
  all_goals
    have hin' := hin.roms rom hr
    have hmax := hin.romEnd_le
    obtain ⟨init, b, -, -, -, -, hhi, -, hbase⟩ := hin.romGetMax_spec
  · omega
  · have hback := (r.givenBack_free hg).1
    omega

theorem os_map_spares_sample :
    sampleCourse.last.books.map Block.range =
      [(0x7f3fffc0, 0x7f400000), (0xe7ec0, 0xe7f00), (0x7f39ff60, 0x7f3bff60)] ∧
    ¬ E820.Reports (sampleCourse.osMap 0x9000 0 fun _ => 0) 0x7f3fffc0 e820Ram := by
  have hbooks : sampleCourse.last.books.map Block.range =
      [(0x7f3fffc0, 0x7f400000), (0xe7ec0, 0xe7f00), (0x7f39ff60, 0x7f3bff60)] := by
    decide +kernel
  obtain ⟨b, hb, hzone, h1, h2⟩ : ∃ b ∈ sampleCourse.last.books,
      b.zone ≠ .tmpLow ∧ b.range.1 ≤ 0x7f3fffc0 ∧ 0x7f3fffc0 < b.range.2 := by decide +kernel
  exact ⟨hbooks, (os_map_spares sampleCourse 0x9000 (by decide) _).1 b hb hzone _ h1 h2⟩

end CsmWrap.Malloc
