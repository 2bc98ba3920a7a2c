import CsmWrap.Malloc.Arenas

/-!
# What every heap keeps

`Tiled` says that the nodes of each zone fill the memory given to it. `Sound` adds
what holds between two calls: every node is part of an `allocdetail_s` that lies in a
temporary zone, where it has a node of its own.

An allocation adds two nodes and a release takes two out (`Tracks`, `mallocPalloc_cases`,
`mallocPfree_cases`). Everything else in this directory follows from these.
-/

namespace CsmWrap.Malloc
open Arena

abbrev Stub := Place × UInt32 × UInt32

/-- The nodes of a zone without their ends. -/
def Heap.stubs (h : Heap) (z : Zone) : List Stub := Malloc.stubs (h.zone z)

/-- The nodes fill the ranges of addresses that the zones were given. -/
structure Tiled (E : Zone → List (Nat × Nat)) (h : Heap) : Prop where
  layout : Layout E
  positive : ∀ z, ∀ e ∈ E z, 0 < e.1
  fills : ∀ z, Fills (view (h.zone z)) (E z)
  nodup : ∀ z, ((view (h.zone z)).map Chunk.key).Nodup
  once : ∀ z z', ∀ s ∈ h.stubs z, ∀ t ∈ h.stubs z', s.1 = t.1 → z = z'

variable {E : Zone → List (Nat × Nat)} {h h' : Heap}

theorem mem_stubs {l : List AllocInfo} {s : Stub} :
    s ∈ stubs l ↔ ∃ c ∈ view l, c.stub = natStub s := by
  rw [← List.mem_map_of_injective natStub_injective, ← List.mem_map, view_stubs]

theorem key_mem_iff {l : List AllocInfo} {p : Place} :
    p ∈ (view l).map Chunk.key ↔ ∃ s ∈ stubs l, s.1 = p := by
  simp [view, stubs, AllocInfo.chunk, AllocInfo.stub]

/-- The chunk of a stub in use. -/
theorem Tiled.chunk (ht : Tiled E h) {z : Zone} {s : Stub} (hs : s ∈ h.stubs z) :
    ∃ c ∈ view (h.zone z), c.key = s.1 ∧ c.lo = s.2.1.toNat ∧ c.used = s.2.2.toNat ∧
      c.lo + c.used ≤ c.hi := by
  obtain ⟨c, hc, e⟩ := mem_stubs.mp hs
  simp only [Chunk.stub, natStub, Prod.mk.injEq] at e
  exact ⟨c, hc, e.1, e.2.1, e.2.2, (ht.fills z).used_le c hc⟩

/-- A place holds one node only. -/
theorem Tiled.stub_eq (ht : Tiled E h) {z z' : Zone} {s t : Stub} (hs : s ∈ h.stubs z)
    (hst : t ∈ h.stubs z') (he : s.1 = t.1) : z = z' ∧ s = t := by
  obtain rfl := ht.once z z' s hs t hst he
  refine ⟨rfl, natStub_injective ?_⟩
  obtain ⟨c, hc, ec⟩ := mem_stubs.mp hs
  obtain ⟨d, hd, ed⟩ := mem_stubs.mp hst
  have hkey : c.key = d.key := by
    have h1 := congrArg Prod.fst ec
    have h2 := congrArg Prod.fst ed
    exact h1.trans (he.trans h2.symm)
  rw [← ec, ← ed, List.inj_on_of_nodup_map (ht.nodup z) hc hd hkey]

theorem mem_nodes {info : AllocInfo} : info ∈ h.nodes ↔ ∃ z, info ∈ h.zone z := by
  simp [Heap.nodes, mem_zones]

/-- A pointer to a node reads that node. -/
theorem Tiled.node_eq (ht : Tiled E h) {z : Zone} {info : AllocInfo} (hinfo : info ∈ h.zone z) :
    h.node info.place = some info := by
  have hfound : (h.nodes.find? fun n => n.place = info.place).isSome := by
    rw [List.find?_isSome]
    exact ⟨info, mem_nodes.mpr ⟨z, hinfo⟩, by simp⟩
  obtain ⟨n, hn⟩ := Option.isSome_iff_exists.mp hfound
  obtain ⟨z', hz'⟩ := mem_nodes.mp (List.mem_of_find?_eq_some hn)
  have hplace : n.place = info.place := by simpa using List.find?_some hn
  obtain rfl := ht.once z' z _ (List.mem_map_of_mem hz') _ (List.mem_map_of_mem hinfo) hplace
  have hchunk : n.chunk = info.chunk :=
    List.inj_on_of_nodup_map (ht.nodup z') (List.mem_map_of_mem hz') (List.mem_map_of_mem hinfo)
      hplace
  rw [Heap.node, hn, chunk_injective hchunk]

/-- The bytes of two nodes never overlap. -/
theorem Tiled.apart (ht : Tiled E h) {z z' : Zone} {s t : Stub} (hs : s ∈ h.stubs z)
    (hst : t ∈ h.stubs z') (he : s.1 ≠ t.1) :
    Apart (s.2.1.toNat, s.2.1.toNat + s.2.2.toNat) (t.2.1.toNat, t.2.1.toNat + t.2.2.toNat) := by
  obtain ⟨c, hc, hck, hclo, hcu, hcle⟩ := ht.chunk hs
  obtain ⟨d, hd, hdk, hdlo, hdu, hdle⟩ := ht.chunk hst
  have hap := ht.layout.span_apart ht.fills hc hd (.inr fun hcd => he (by rw [← hck, ← hdk, hcd]))
  rw [← hclo, ← hcu, ← hdlo, ← hdu]
  exact hap.mono ⟨Nat.le_refl _, hcle⟩ ⟨Nat.le_refl _, hdle⟩

/-- Two nodes in use never begin at the same address. -/
theorem Tiled.place_eq (ht : Tiled E h) {z z' : Zone} {s t : Stub} (hs : s ∈ h.stubs z)
    (hst : t ∈ h.stubs z') (hs0 : s.2.2 ≠ 0) (ht0 : t.2.2 ≠ 0) (he : s.2.1 = t.2.1) :
    s.1 = t.1 := by
  by_contra hne
  have hap := ht.apart hs hst hne
  have h1 : 0 < s.2.2.toNat := Nat.pos_of_ne_zero fun h0 => hs0 (UInt32.toNat_inj.mp h0)
  have h2 : 0 < t.2.2.toNat := Nat.pos_of_ne_zero fun h0 => ht0 (UInt32.toNat_inj.mp h0)
  simp only [Apart, he] at hap
  omega

/-- `h'` has the nodes of `h` and one more, at its own place in the order. -/
structure Gains (h h' : Heap) (z : Zone) (s : Stub) : Prop where
  mem : ∀ z' t, t ∈ h'.stubs z' ↔ t ∈ h.stubs z' ∨ z' = z ∧ t = s
  kept : ∀ z', (h'.stubs z').filter (·.1 ≠ s.1) = h.stubs z'

theorem stubs_setZone (h : Heap) (z z' : Zone) (l : List AllocInfo) :
    (h.setZone z l).stubs z' = if z' = z then stubs l else h.stubs z' := by
  simp only [Heap.stubs, Heap.setZone, Function.update_apply]
  split <;> rfl

theorem setZone_self (h : Heap) (z : Zone) : h.setZone z (h.zone z) = h := by
  simp [Heap.setZone]

theorem filter_stubs {l l' : List AllocInfo} {p : Place}
    (h : ((view l').map Chunk.stub).filter (·.1 ≠ p) = (view l).map Chunk.stub) :
    (stubs l').filter (·.1 ≠ p) = stubs l := by
  rw [view_stubs, view_stubs, List.filter_map] at h
  exact List.map_injective_iff.mpr natStub_injective h

/-- A zone with one node more, and the other zones as they were. -/
theorem Tiled.gain {E' : Zone → List (Nat × Nat)} (ht : Tiled E h) {z : Zone}
    {l : List AllocInfo} {s : Stub} (hlayout : Layout E') (hpos : ∀ z, ∀ e ∈ E' z, 0 < e.1)
    (hE : ∀ z', z' ≠ z → E' z' = E z') (hs : ∀ z, ∀ t ∈ h.stubs z, t.1 ≠ s.1)
    (hfills : Fills (view l) (E' z)) (hnodup : ((view l).map Chunk.key).Nodup)
    (hmem : ∀ t, t ∈ stubs l ↔ t = s ∨ t ∈ h.stubs z)
    (hkept : (stubs l).filter (·.1 ≠ s.1) = h.stubs z) :
    Tiled E' (h.setZone z l) ∧ Gains h (h.setZone z l) z s := by
  have hgains : Gains h (h.setZone z l) z s := by
    constructor
    · intro z' t
      rw [stubs_setZone]
      split
      · subst z'
        simp [hmem t, or_comm]
      · simp [*]
    · intro z'
      rw [stubs_setZone]
      split
      · subst z'
        exact hkept
      · exact List.filter_eq_self.mpr fun t ht => decide_eq_true (hs z' t ht)
  refine ⟨⟨hlayout, hpos, fun z' => ?_, fun z' => ?_, ?_⟩, hgains⟩
  · by_cases hz : z' = z
    · subst hz; simpa [Heap.setZone] using hfills
    · simpa [Heap.setZone, hz, hE z' hz] using ht.fills z'
  · by_cases hz : z' = z
    · subst hz; simpa [Heap.setZone] using hnodup
    · simpa [Heap.setZone, hz] using ht.nodup z'
  · intro z₁ z₂ t ht₁ u hu he
    rcases (hgains.mem _ _).mp ht₁ with old | ⟨rfl, rfl⟩ <;>
      rcases (hgains.mem _ _).mp hu with old' | ⟨rfl, rfl⟩
    · exact ht.once _ _ t old u old' he
    · exact absurd he (hs _ t old)
    · exact absurd he.symm (hs _ u old')
    · rfl

/-- `alloc_new` finds nothing, or adds one node to the zone. -/
theorem allocNew_cases (ht : Tiled E h) {size align : UInt32} (hr : Request size align)
    (hsize : size ≠ 0) {fill : Place} (hfill : ∀ z, ∀ s ∈ h.stubs z, s.1 ≠ fill) (z : Zone) :
    (allocNew size align fill (h.zone z) = (0, h.zone z) ∧
      ∀ c ∈ view (h.zone z), ¬ c.Fits size.toNat align.toNat) ∨
    ∃ data l, allocNew size align fill (h.zone z) = (data, l) ∧ data ≠ 0 ∧
      align.toNat ∣ data.toNat ∧ Tiled E (h.setZone z l) ∧
      Gains h (h.setZone z l) z (fill, data, size) ∧
      carve fill size.toNat align.toNat (view (h.zone z)) = some (data.toNat, view l) := by
  have href := allocNew_refines hr (ht.fills z).used_le fill
  have hkey : fill ∉ (view (h.zone z)).map Chunk.key := by
    rw [key_mem_iff]
    rintro ⟨s, hs, he⟩
    exact hfill z s hs he
  cases hc : carve fill size.toNat align.toNat (view (h.zone z)) with
  | none =>
    rw [hc] at href
    exact .inl ⟨href, carve_eq_none.mp hc⟩
  | some r =>
    obtain ⟨a, l'⟩ := r
    rw [hc] at href
    obtain ⟨hdata, hl⟩ := href
    generalize allocNew size align fill (h.zone z) = found at hdata hl ⊢
    obtain ⟨data, l⟩ := found
    simp only at hdata hl
    subst hdata hl
    have hpos : 0 < size.toNat := Nat.pos_of_ne_zero fun h0 => hsize (UInt32.toNat_inj.mp h0)
    have hne : data ≠ 0 := by
      obtain ⟨pre, c, post, hl, hfit, hcut, -⟩ := carve_eq_some hc
      obtain ⟨e, he, hlo, -⟩ := (ht.fills z).mem_range c (by rw [hl]; simp)
      have := ht.positive z e he
      have := hfit.2
      rintro rfl
      rw [← hcut] at this
      simp at this
      omega
    have hmem : ∀ t, t ∈ stubs l ↔ t = (fill, data, size) ∨ t ∈ h.stubs z := by
      intro t
      have hnat : natStub (fill, data, size) = (fill, data.toNat, size.toNat) := rfl
      rw [← List.mem_map_of_injective natStub_injective, ← view_stubs, mem_carve_stubs hc, ← hnat,
        natStub_injective.eq_iff, view_stubs, List.mem_map_of_injective natStub_injective]
      rfl
    obtain ⟨htiled, hgains⟩ := ht.gain (s := (fill, data, size)) ht.layout ht.positive
      (fun _ _ => rfl) hfill (fills_carve (ht.fills z) hpos hc)
      (carve_nodup hc (ht.nodup z) hkey) hmem (filter_stubs (carve_stubs_filter hc hkey))
    exact .inr ⟨data, l, rfl, hne, dvd_carve hc, htiled, hgains, rfl⟩

/-- `alloc_free` takes one node out of its zone. -/
theorem Tiled.free (ht : Tiled E h) {z : Zone} {s : Stub} (hs : s ∈ h.stubs z)
    (hused : s.2.2 ≠ 0) :
    Tiled E (h.mapZones (allocFree s.1)) ∧
      ∀ z', (h.mapZones (allocFree s.1)).stubs z' = (h.stubs z').filter (·.1 ≠ s.1) := by
  obtain ⟨c, hc, hkey, -, hcu, -⟩ := ht.chunk hs
  have hpos : 0 < c.used := by
    rw [hcu]
    exact Nat.pos_of_ne_zero fun h0 => hused (UInt32.toNat_inj.mp h0)
  have hother : ∀ z', z' ≠ z → view (allocFree s.1 (h.zone z')) = view (h.zone z') := by
    intro z' hz'
    rw [allocFree_view, release_absent]
    intro d hd he
    obtain ⟨t, ht', hte⟩ := key_mem_iff.mp (List.mem_map_of_mem hd)
    exact hz' (ht.once z' z t ht' s hs (hte.trans he))
  have hself : view (allocFree s.1 (h.zone z)) = release c.key (view (h.zone z)) := by
    rw [allocFree_view, hkey]
  have hstubs : ∀ z', (h.mapZones (allocFree s.1)).stubs z' = (h.stubs z').filter (·.1 ≠ s.1) := by
    intro z'
    by_cases hz' : z' = z
    · subst hz'
      have hrel := release_stubs (ht.fills z') (ht.nodup z') hc hpos
      rw [← hself, hkey] at hrel
      exact (filter_stubs hrel.symm).symm
    · have hl : allocFree s.1 (h.zone z') = h.zone z' :=
        List.map_injective_iff.mpr chunk_injective (hother z' hz')
      refine (congrArg stubs hl).trans (List.filter_eq_self.mpr fun t ht' => ?_).symm
      exact decide_eq_true fun he => hz' (ht.once z' z t ht' s hs he)
  refine ⟨⟨ht.layout, ht.positive, fun z' => ?_, fun z' => ?_, ?_⟩, hstubs⟩
  · by_cases hz' : z' = z
    · subst hz'
      exact hself ▸ fills_release (ht.fills z') (ht.nodup z') hc hpos
    · exact (hother z' hz').symm ▸ ht.fills z'
  · by_cases hz' : z' = z
    · subst hz'
      exact hself ▸ release_nodup (ht.fills z') (ht.nodup z') hc hpos
    · exact (hother z' hz').symm ▸ ht.nodup z'
  · intro z₁ z₂ t ht₁ u hu
    rw [hstubs] at ht₁ hu
    exact ht.once z₁ z₂ t (List.mem_filter.mp ht₁).1 u (List.mem_filter.mp hu).1

/-- The zones follow from the memory they were given and from where the nodes begin. -/
theorem Tiled.zone_eq (ht : Tiled E h) (ht' : Tiled E h') (hs : ∀ z, h.stubs z = h'.stubs z) :
    h.zone = h'.zone :=
  funext fun z => zone_ext (ht.fills z) (ht'.fills z) (hs z)

/-! ## Bookkeeping -/

/-- Between two calls every node belongs to an `allocdetail_s`, and the memory of each
`allocdetail_s` has a node of its own in a temporary zone. -/
structure Tracked (h : Heap) : Prop where
  settled : ∀ z, ∀ s ∈ h.stubs z, ∃ a p, s.1 = .detail a p
  home : ∀ z, ∀ s ∈ h.stubs z, ∀ a, s.1 = .detail a .detailinfo →
    (z = .tmpHigh ∨ z = .tmpLow) ∧ s.2 = (a, sizeofAllocdetail)
  aligned : ∀ z, ∀ s ∈ h.stubs z, ∀ a p, s.1 = .detail a p → mallocMinAlign.toNat ∣ a.toNat
  paired : ∀ a, (∃ z, ∃ s ∈ h.stubs z, s.1 = .detail a .datainfo) ↔
    ∃ z, ∃ s ∈ h.stubs z, s.1 = .detail a .detailinfo

structure Sound (E : Zone → List (Nat × Nat)) (h : Heap) : Prop where
  tiled : Tiled E h
  tracked : Tracked h

theorem Tracked.no_temp (ht : Tracked h) (p : Part) : ∀ z, ∀ s ∈ h.stubs z, s.1 ≠ .temp p := by
  intro z s hs he
  obtain ⟨a, q, hq⟩ := ht.settled z s hs
  exact absurd (hq.symm.trans he) (by simp)

/-- `h'` is `h` with an `allocdetail_s` at `d`, which lies in `tz` and describes `size`
bytes at `data` in `z`. -/
structure Tracks (h h' : Heap) (z : Zone) (data size : UInt32) (tz : Zone) (d : UInt32) :
    Prop where
  home : tz = .tmpHigh ∨ tz = .tmpLow
  aligned : mallocMinAlign.toNat ∣ d.toNat
  fresh : ∀ z, ∀ s ∈ h.stubs z, ∀ p, s.1 ≠ .detail d p
  mem : ∀ z' t, t ∈ h'.stubs z' ↔ t ∈ h.stubs z' ∨ z' = z ∧ t = (.detail d .datainfo, data, size) ∨
    z' = tz ∧ t = (.detail d .detailinfo, d, sizeofAllocdetail)
  kept : ∀ z', (h'.stubs z').filter (fun s => s.1 ≠ .detail d .datainfo ∧
    s.1 ≠ .detail d .detailinfo) = h.stubs z'
  handle : h'.handle = Function.update h.handle d mallocDefaultHandle

theorem Tracked.of_tracks {z tz : Zone} {data size d : UInt32} (ht : Tracked h)
    (hn : Tracks h h' z data size tz d) : Tracked h' := by
  refine ⟨fun z' s hs => ?_, fun z' s hs a ha => ?_, fun z' s hs a p ha => ?_, fun a => ?_⟩
  · rcases (hn.mem _ _).mp hs with hs | ⟨-, rfl⟩ | ⟨-, rfl⟩
    · exact ht.settled z' s hs
    · exact ⟨_, _, rfl⟩
    · exact ⟨_, _, rfl⟩
  · rcases (hn.mem _ _).mp hs with hs | ⟨-, rfl⟩ | ⟨rfl, rfl⟩
    · exact ht.home z' s hs a ha
    · simp at ha
    · obtain rfl : d = a := by simpa using ha
      exact ⟨hn.home, rfl⟩
  · rcases (hn.mem _ _).mp hs with hs | ⟨-, rfl⟩ | ⟨-, rfl⟩
    · exact ht.aligned z' s hs a p ha
    · exact (Place.detail.inj ha).1 ▸ hn.aligned
    · exact (Place.detail.inj ha).1 ▸ hn.aligned
  · by_cases had : a = d
    · subst had
      refine iff_of_true ⟨z, _, (hn.mem _ _).mpr (.inr (.inl ⟨rfl, rfl⟩)), rfl⟩
        ⟨tz, _, (hn.mem _ _).mpr (.inr (.inr ⟨rfl, rfl⟩)), rfl⟩
    · have hold : ∀ p, (∃ z, ∃ s ∈ h'.stubs z, s.1 = .detail a p) ↔
          ∃ z, ∃ s ∈ h.stubs z, s.1 = .detail a p := by
        intro p
        constructor
        · rintro ⟨z', s, hs, he⟩
          rcases (hn.mem _ _).mp hs with hs | ⟨-, rfl⟩ | ⟨-, rfl⟩
          · exact ⟨z', s, hs, he⟩
          · simp [Ne.symm had] at he
          · simp [Ne.symm had] at he
        · rintro ⟨z', s, hs, he⟩
          exact ⟨z', s, (hn.mem _ _).mpr (.inl hs), he⟩
      rw [hold, hold]
      exact ht.paired a

theorem Tracked.of_filter {d : UInt32} (ht : Tracked h)
    (hd : ∀ z, h'.stubs z = (h.stubs z).filter fun s => s.1 ≠ .detail d .datainfo ∧
      s.1 ≠ .detail d .detailinfo) : Tracked h' := by
  have hmem : ∀ {z s}, s ∈ h'.stubs z ↔ s ∈ h.stubs z ∧ s.1 ≠ .detail d .datainfo ∧
      s.1 ≠ .detail d .detailinfo := by simp [hd, List.mem_filter]
  refine ⟨fun z s hs => ht.settled z s (hmem.mp hs).1,
    fun z s hs => ht.home z s (hmem.mp hs).1, fun z s hs => ht.aligned z s (hmem.mp hs).1,
    fun a => ?_⟩
  by_cases had : a = d
  · subst had
    refine iff_of_false ?_ ?_
    · rintro ⟨z, s, hs, he⟩
      exact (hmem.mp hs).2.1 he
    · rintro ⟨z, s, hs, he⟩
      exact (hmem.mp hs).2.2 he
  · have hold : ∀ p, (∃ z, ∃ s ∈ h'.stubs z, s.1 = .detail a p) ↔
        ∃ z, ∃ s ∈ h.stubs z, s.1 = .detail a p := by
      intro p
      constructor
      · rintro ⟨z, s, hs, he⟩
        exact ⟨z, s, (hmem.mp hs).1, he⟩
      · rintro ⟨z, s, hs, he⟩
        exact ⟨z, s, hmem.mpr ⟨hs, by simp [he, had], by simp [he, had]⟩, he⟩
    rw [hold, hold]
    exact ht.paired a

/-! ## Moving `tempdetail` to its place -/

theorem stubs_settle (h : Heap) (d : UInt32) (z : Zone) :
    (h.settle d).stubs z = (h.stubs z).map fun s => (s.1.settle d, s.2) := by
  simp [Heap.stubs, Heap.settle, stubs, AllocInfo.settle, AllocInfo.stub]

theorem view_settle (h : Heap) (d : UInt32) (z : Zone) :
    view ((h.settle d).zone z) =
      (view (h.zone z)).map fun c => { c with key := c.key.settle d } := by
  simp [Heap.settle, view, AllocInfo.settle, AllocInfo.chunk]

theorem settle_injOn {d : UInt32} {p q : Place} (hp : ∀ r, p ≠ .detail d r)
    (hq : ∀ r, q ≠ .detail d r) (he : p.settle d = q.settle d) : p = q := by
  cases p with
  | temp r =>
    cases q with
    | temp r' => simpa [Place.settle] using he
    | detail a r' =>
      simp only [Place.settle, Place.detail.injEq] at he
      exact absurd (by rw [he.1]) (hq r')
  | detail a r =>
    cases q with
    | temp r' =>
      simp only [Place.settle, Place.detail.injEq] at he
      exact absurd (by rw [he.1]) (hp r)
    | detail a' r' => simpa [Place.settle] using he

/-- Leaving out the two nodes of the new `allocdetail_s` is leaving out `tempdetail`. -/
theorem filter_settle {d : UInt32} {L : List Stub} (hL : ∀ s ∈ L, ∀ p, s.1 ≠ .detail d p) :
    (L.map fun s => (s.1.settle d, s.2)).filter (fun s => s.1 ≠ .detail d .datainfo ∧
        s.1 ≠ .detail d .detailinfo) =
      L.filter fun s => s.1 ≠ .temp .datainfo ∧ s.1 ≠ .temp .detailinfo := by
  induction L with
  | nil => rfl
  | cons s L ih =>
    obtain ⟨hs, hrest⟩ := List.forall_mem_cons.mp hL
    obtain ⟨p, s⟩ := s
    rw [List.map_cons, List.filter_cons, List.filter_cons, ih hrest]
    cases p with
    | temp part => cases part <;> simp [Place.settle]
    | detail a part =>
      have ha : a ≠ d := fun ha => hs part (by rw [ha])
      simp [Place.settle, ha]

theorem Tiled.settle (ht : Tiled E h) {d : UInt32}
    (hd : ∀ z, ∀ s ∈ h.stubs z, ∀ p, s.1 ≠ .detail d p) : Tiled E (h.settle d) := by
  refine ⟨ht.layout, ht.positive, fun z => ?_, fun z => ?_, ?_⟩
  · rw [view_settle]
    exact fills_relabel (ht.fills z) _
  · rw [view_settle, List.map_map]
    have e : (view (h.zone z)).map (Chunk.key ∘ fun c => { c with key := c.key.settle d }) =
        ((view (h.zone z)).map Chunk.key).map (Place.settle d) := by simp
    rw [e]
    refine (ht.nodup z).map_on fun p hp q hq he => ?_
    obtain ⟨s, hs, rfl⟩ := key_mem_iff.mp hp
    obtain ⟨t, ht, rfl⟩ := key_mem_iff.mp hq
    exact settle_injOn (hd z s hs) (hd z t ht) he
  · intro z z' s hs t hst he
    rw [stubs_settle] at hs hst
    obtain ⟨s, hs₀, rfl⟩ := List.mem_map.mp hs
    obtain ⟨t, ht₀, rfl⟩ := List.mem_map.mp hst
    exact ht.once z z' s hs₀ t ht₀ (settle_injOn (hd z s hs₀) (hd z' t ht₀) he)

theorem sizeofAllocdetail_ne : sizeofAllocdetail ≠ 0 := by decide

theorem request_detail : Request sizeofAllocdetail mallocMinAlign :=
  ⟨⟨4, by decide⟩, by decide⟩

/-- `alloc_new_detail` finds nothing, or one node for the memory of `tempdetail`. -/
theorem allocNewDetail_cases (ht : Tiled E h)
    (hfill : ∀ z, ∀ s ∈ h.stubs z, s.1 ≠ .temp .detailinfo) :
    (allocNewDetail h = (0, h) ∧ ∀ tz, tz = .tmpHigh ∨ tz = .tmpLow →
      ∀ c ∈ view (h.zone tz), ¬ c.Fits sizeofAllocdetail.toNat mallocMinAlign.toNat) ∨
    ∃ d tz l, d ≠ 0 ∧ mallocMinAlign.toNat ∣ d.toNat ∧ (tz = .tmpHigh ∨ tz = .tmpLow) ∧
      allocNewDetail h = (d, (h.setZone tz l).settle d) ∧ Tiled E (h.setZone tz l) ∧
      Gains h (h.setZone tz l) tz (.temp .detailinfo, d, sizeofAllocdetail) := by
  have cases := allocNew_cases ht request_detail sizeofAllocdetail_ne hfill
  rcases cases .tmpHigh with ⟨hhigh, hfull⟩ | ⟨d, l, hhigh, hd, hal, htiled, hgains, -⟩
  · rcases cases .tmpLow with ⟨hlow, hfull'⟩ | ⟨d, l, hlow, hd, hal, htiled, hgains, -⟩
    · refine .inl ⟨by simp [allocNewDetail, hhigh, hlow, setZone_self], ?_⟩
      rintro tz (rfl | rfl)
      · exact hfull
      · exact hfull'
    · refine .inr ⟨d, .tmpLow, l, hd, hal, .inr rfl, ?_, htiled, hgains⟩
      simp [allocNewDetail, hhigh, hlow, setZone_self, hd]
  · refine .inr ⟨d, .tmpHigh, l, hd, hal, .inl rfl, ?_, htiled, hgains⟩
    simp [allocNewDetail, hhigh, hd]

theorem settle_of_settled {d : UInt32} {p : Place} (hp : ∃ a r, p = .detail a r) :
    p.settle d = p := by
  obtain ⟨a, r, rfl⟩ := hp
  rfl

theorem Gains.no_detailinfo {h₁ : Heap} {z : Zone} {data size : UInt32}
    (hg : Gains h h₁ z (.temp .datainfo, data, size)) (ht : Tracked h) :
    ∀ z', ∀ s ∈ h₁.stubs z', s.1 ≠ .temp .detailinfo := by
  intro z' s hs he
  rcases (hg.mem _ _).mp hs with hs | ⟨-, rfl⟩
  · exact ht.no_temp .detailinfo z' s hs he
  · simp at he

/-- A node that still lies in `tempdetail` gets its `allocdetail_s`. -/
theorem allocNewDetail_tracks {h₁ : Heap} {z : Zone} {data size : UInt32} (ht : Tracked h)
    (hg : Gains h h₁ z (.temp .datainfo, data, size)) (ht₁ : Tiled E h₁)
    (hh : h₁.handle = h.handle) :
    (allocNewDetail h₁ = (0, h₁) ∧ ∀ tz, tz = .tmpHigh ∨ tz = .tmpLow →
      ∀ c ∈ view (h₁.zone tz), ¬ c.Fits sizeofAllocdetail.toNat mallocMinAlign.toNat) ∨
    ∃ d tz h₂, d ≠ 0 ∧ allocNewDetail h₁ = (d, h₂) ∧ Tiled E h₂ ∧
      Tracks h h₂ z data size tz d := by
  have hfill := hg.no_detailinfo ht
  rcases allocNewDetail_cases ht₁ hfill with hnone | ⟨d, tz, l, hd, hal, htz, he, ht₂, hg₂⟩
  · exact .inl hnone
  have hmem : ∀ z' t, t ∈ (h₁.setZone tz l).stubs z' ↔ t ∈ h.stubs z' ∨
      z' = z ∧ t = (.temp .datainfo, data, size) ∨
      z' = tz ∧ t = (.temp .detailinfo, d, sizeofAllocdetail) := by
    intro z' t
    rw [hg₂.mem, hg.mem, or_assoc]
  -- an `allocdetail_s` that was there before would share its first byte with the new one
  have hfresh : ∀ z', ∀ s ∈ h.stubs z', ∀ p, s.1 ≠ .detail d p := by
    intro z' s hs p hp
    obtain ⟨z₁, s₁, hs₁, hp₁⟩ : ∃ z, ∃ s ∈ h.stubs z, s.1 = .detail d .detailinfo := by
      cases p with
      | detailinfo => exact ⟨z', s, hs, hp⟩
      | datainfo => exact (ht.paired d).mp ⟨z', s, hs, hp⟩
    obtain ⟨-, hs₁d⟩ := ht.home z₁ s₁ hs₁ d hp₁
    have := ht₂.place_eq ((hmem _ _).mpr (.inl hs₁)) ((hmem _ _).mpr (.inr (.inr ⟨rfl, rfl⟩)))
      (by rw [hs₁d]; exact sizeofAllocdetail_ne) sizeofAllocdetail_ne (by rw [hs₁d])
    rw [hp₁] at this
    simp at this
  have hfresh₂ : ∀ z', ∀ s ∈ (h₁.setZone tz l).stubs z', ∀ p, s.1 ≠ .detail d p := by
    intro z' s hs p
    rcases (hmem _ _).mp hs with hs | ⟨-, rfl⟩ | ⟨-, rfl⟩
    · exact hfresh z' s hs p
    · simp
    · simp
  refine .inr ⟨d, tz, _, hd, he, ht₂.settle hfresh₂, htz, hal, hfresh, fun z' t => ?_,
    fun z' => ?_, ?_⟩
  · rw [stubs_settle, List.mem_map]
    constructor
    · rintro ⟨s, hs, rfl⟩
      rcases (hmem _ _).mp hs with hs | ⟨rfl, rfl⟩ | ⟨rfl, rfl⟩
      · rw [settle_of_settled (ht.settled z' s hs)]
        exact .inl hs
      · exact .inr (.inl ⟨rfl, rfl⟩)
      · exact .inr (.inr ⟨rfl, rfl⟩)
    · rintro (hs | ⟨rfl, rfl⟩ | ⟨rfl, rfl⟩)
      · exact ⟨t, (hmem _ _).mpr (.inl hs), by rw [settle_of_settled (ht.settled z' t hs)]⟩
      · exact ⟨_, (hmem _ _).mpr (.inr (.inl ⟨rfl, rfl⟩)), rfl⟩
      · exact ⟨_, (hmem _ _).mpr (.inr (.inr ⟨rfl, rfl⟩)), rfl⟩
  · rw [stubs_settle, filter_settle (hfresh₂ z'), ← hg.kept, ← hg₂.kept, List.filter_filter]
    exact List.filter_congr fun s _ => by simp
  · simp [Heap.settle, Heap.setZone, hh]

/-- A failed allocation changes nothing; another adds the nodes of one `allocdetail_s`. -/
theorem mallocPalloc_cases (hs : Sound E h) {size align : UInt32} (hr : Request size align)
    (z : Zone) :
    mallocPalloc h z size align = (0, h) ∨
    ∃ data tz d h', mallocPalloc h z size align = (data, h') ∧ data ≠ 0 ∧ size ≠ 0 ∧
      align.toNat ∣ data.toNat ∧ Sound E h' ∧ Tracks h h' z data size tz d := by
  by_cases hsize : size = 0
  · exact .inl (by simp [mallocPalloc, hsize])
  have hfill := hs.tracked.no_temp .datainfo
  rcases allocNew_cases hs.tiled hr hsize hfill z with
    ⟨hnone, -⟩ | ⟨data, l, hsome, hd, hal, ht, hg, -⟩
  · left
    simp [mallocPalloc, hsize, hnone, setZone_self]
  rcases allocNewDetail_tracks hs.tracked hg ht rfl with
    ⟨hnone, -⟩ | ⟨d, tz, h₂, hd₂, he, ht₂, htr⟩
  · -- no memory for the bookkeeping: the node leaves the zone again
    left
    have hmem : (.temp .datainfo, data, size) ∈ (h.setZone z l).stubs z :=
      (hg.mem _ _).mpr (.inr ⟨rfl, rfl⟩)
    obtain ⟨hfree, hstubs⟩ := ht.free hmem hsize
    have hback : (h.setZone z l).mapZones (allocFree (.temp .datainfo)) = h := by
      have hzone := hfree.zone_eq hs.tiled fun z' => by rw [hstubs, hg.kept]
      exact congrArg (fun f => Heap.mk f h.handle) hzone
    simp [mallocPalloc, hsize, hsome, hd, hnone, hback]
  · refine .inr ⟨data, tz, d, h₂, ?_, hd, hsize, hal, ⟨ht₂, hs.tracked.of_tracks htr⟩, htr⟩
    simp [mallocPalloc, hsize, hsome, hd, he, hd₂]

/-- Between which nodes `alloc_add` puts the new one. -/
theorem hlistAdd_eq (node : AllocInfo) (l : List AllocInfo) :
    ∃ pre post, l = pre ++ post ∧ hlistAdd node l = pre ++ node :: post := by
  induction l with
  | nil => exact ⟨[], [], rfl, rfl⟩
  | cons info l ih =>
    obtain ⟨pre, post, hl, hadd⟩ := ih
    rw [hlistAdd]
    split
    · exact ⟨[], info :: l, rfl, rfl⟩
    · exact ⟨info :: pre, post, by rw [hl]; rfl, by rw [hadd]; rfl⟩

section
variable (node : AllocInfo) {l : List AllocInfo}

theorem mem_hlistAdd (t : Stub) : t ∈ stubs (hlistAdd node l) ↔ t = node.stub ∨ t ∈ stubs l := by
  obtain ⟨pre, post, rfl, hadd⟩ := hlistAdd_eq node l
  rw [hadd]
  simp only [stubs, List.map_append, List.map_cons, List.mem_append, List.mem_cons]
  exact or_left_comm

theorem hlistDel_absent {p : Place} (hl : ∀ s ∈ stubs l, s.1 ≠ p) : hlistDel p l = l := by
  refine List.filter_eq_self.mpr fun info hinfo => decide_eq_true ?_
  exact hl _ (List.mem_map_of_mem hinfo)

theorem hlistDel_hlistAdd (hl : ∀ s ∈ stubs l, s.1 ≠ node.place) :
    hlistDel node.place (hlistAdd node l) = l := by
  have hback := hlistDel_absent hl
  obtain ⟨pre, post, rfl, hadd⟩ := hlistAdd_eq node l
  rw [hadd, hlistDel, List.filter_append, List.filter_cons_of_neg (by simp), ← List.filter_append]
  exact hback

theorem filter_hlistAdd (hl : ∀ s ∈ stubs l, s.1 ≠ node.place) :
    (stubs (hlistAdd node l)).filter (·.1 ≠ node.place) = stubs l := by
  conv_rhs => rw [← hlistDel_hlistAdd node hl]
  simp only [stubs, hlistDel, List.filter_map]
  rfl

theorem nodup_hlistAdd (hl : ∀ s ∈ stubs l, s.1 ≠ node.place)
    (hn : ((view l).map Chunk.key).Nodup) : ((view (hlistAdd node l)).map Chunk.key).Nodup := by
  have hfree : node.place ∉ (view l).map Chunk.key := by
    rw [key_mem_iff]
    rintro ⟨s, hs, he⟩
    exact hl s hs he
  obtain ⟨pre, post, rfl, hadd⟩ := hlistAdd_eq node l
  rw [view, List.map_append, List.map_append] at hn hfree
  rw [hadd, view, List.map_append, List.map_cons, List.map_append, List.map_cons,
    List.nodup_middle, List.nodup_cons]
  exact ⟨hfree, hn⟩

end

/-- A new range that shares no address with the ones the zones have. -/
structure NewRange (E : Zone → List (Nat × Nat)) (r : Nat × Nat) : Prop where
  positive : 0 < r.1
  nonempty : r.1 < r.2
  apart : ∀ z, ∀ e ∈ E z, Apart r e

/-- The ranges after `alloc_add`. -/
def addRange (E : Zone → List (Nat × Nat)) (z : Zone) (r : Nat × Nat) :
    Zone → List (Nat × Nat) :=
  Function.update E z (insertAbove Prod.fst r (E z))

theorem mem_addRange {z z' : Zone} {r e : Nat × Nat} :
    e ∈ addRange E z r z' ↔ e ∈ E z' ∨ z' = z ∧ e = r := by
  by_cases hz : z' = z
  · subst hz
    simp [addRange, mem_insertAbove, or_comm]
  · simp [addRange, hz]

theorem NewRange.start_ne {r e : Nat × Nat} {z : Zone} (hr : NewRange E r) (he : e ∈ E z)
    (hne : e.1 < e.2) : e.1 ≠ r.1 := by
  have hap := hr.apart z e he
  have hr' := hr.nonempty
  simp only [Apart] at hap
  omega

theorem layout_addRange (hE : Layout E) (hpos : ∀ z, ∀ e ∈ E z, e.1 < e.2) {z : Zone}
    {r : Nat × Nat} (hr : NewRange E r) : Layout (addRange E z r) := by
  refine ⟨fun z' => ?_, fun z₁ z₂ hne e he f hf => ?_, fun z₁ z₂ hne e he f hf => ?_⟩
  · by_cases hz : z' = z
    · subst hz
      simpa [addRange] using
        descending_insertAbove (hE.descending z') (hpos z') hr.nonempty (hr.apart z')
    · simpa [addRange, hz] using hE.descending z'
  · rcases mem_addRange.mp he with old | ⟨rfl, rfl⟩ <;>
      rcases mem_addRange.mp hf with old' | ⟨rfl, rfl⟩
    · exact hE.apart z₁ z₂ hne e old f old'
    · exact (hr.apart z₁ e old).symm
    · exact hr.apart z₂ f old'
    · exact absurd rfl hne
  · rcases mem_addRange.mp he with old | ⟨rfl, rfl⟩ <;>
      rcases mem_addRange.mp hf with old' | ⟨rfl, rfl⟩
    · exact hE.starts z₁ z₂ hne e old f old'
    · exact hr.start_ne old (hpos z₁ e old)
    · exact (hr.start_ne old' (hpos z₂ f old')).symm
    · exact absurd rfl hne

/-- The new range while its node still lies in `tempdetail`. -/
theorem Tiled.add (ht : Tiled E h) (hne : ∀ z, ∀ e ∈ E z, e.1 < e.2) (z : Zone)
    {start stop : UInt32} (hr : NewRange E (start.toNat, stop.toNat))
    (hfill : ∀ z, ∀ s ∈ h.stubs z, s.1 ≠ .temp .datainfo) :
    let l := hlistAdd ⟨.temp .datainfo, start, stop, 0⟩ (h.zone z)
    Tiled (addRange E z (start.toNat, stop.toNat)) (h.setZone z l) ∧
      Gains h (h.setZone z l) z (.temp .datainfo, start, 0) := by
  intro l
  have hpos : ∀ z', ∀ e ∈ addRange E z (start.toNat, stop.toNat) z', 0 < e.1 := by
    intro z' e he
    rcases mem_addRange.mp he with he | ⟨-, rfl⟩
    · exact ht.positive z' e he
    · exact hr.positive
  have hfills : Fills (view l) (addRange E z (start.toNat, stop.toNat) z) := by
    rw [hlistAdd_view, addRange, Function.update_self]
    refine fills_insertAbove (ht.fills z) rfl hr.nonempty.le fun e he => ?_
    have hap := hr.apart z e he
    have hlt := hr.nonempty
    simp only [Apart, AllocInfo.chunk] at hap hlt ⊢
    omega
  have hkept : (stubs l).filter (·.1 ≠ .temp .datainfo) = h.stubs z :=
    filter_hlistAdd ⟨.temp .datainfo, start, stop, 0⟩ (hfill z)
  exact ht.gain (layout_addRange ht.layout hne hr) hpos (fun z' hz => by simp [addRange, hz])
    hfill hfills (nodup_hlistAdd _ (hfill z) (ht.nodup z)) (mem_hlistAdd _) hkept

/-- The zones while `alloc_add` looks for memory for the bookkeeping. -/
def Heap.adding (h : Heap) (z : Zone) (start stop : UInt32) : Heap :=
  h.setZone z (hlistAdd ⟨.temp .datainfo, start, stop, 0⟩ (h.zone z))

/-- Without that memory, a range is not added. -/
theorem allocAdd_cases (hs : Sound E h) (hne : ∀ z, ∀ e ∈ E z, e.1 < e.2) (z : Zone)
    {start stop : UInt32} (hr : NewRange E (start.toNat, stop.toNat)) :
    ((allocNewDetail (h.adding z start stop)).1 = 0 ∧ allocAdd h z start stop = h) ∨
    ∃ tz d, Sound (addRange E z (start.toNat, stop.toNat)) (allocAdd h z start stop) ∧
      Tracks h (allocAdd h z start stop) z start 0 tz d := by
  have hfill := hs.tracked.no_temp .datainfo
  obtain ⟨ht, hg⟩ := hs.tiled.add hne z hr hfill
  rcases allocNewDetail_tracks hs.tracked hg ht rfl with
    ⟨hnone, -⟩ | ⟨d, tz, h₂, hd, he, ht₂, htr⟩
  · refine .inl ⟨congrArg Prod.fst hnone, ?_⟩
    have hzone : (fun z' => hlistDel (.temp .datainfo) ((h.setZone z
        (hlistAdd ⟨.temp .datainfo, start, stop, 0⟩ (h.zone z))).zone z')) = h.zone := by
      funext z'
      by_cases hz : z' = z
      · subst hz
        simpa [Heap.setZone] using
          hlistDel_hlistAdd ⟨.temp .datainfo, start, stop, 0⟩ (hfill z')
      · simpa [Heap.setZone, hz] using hlistDel_absent (hfill z')
    simp only [allocAdd, hnone, ↓reduceIte, Heap.mapZones, hzone]
    rfl
  · have hadd : allocAdd h z start stop = h₂ := by simp [allocAdd, he, hd]
    rw [hadd]
    exact .inr ⟨tz, d, ⟨ht₂, hs.tracked.of_tracks htr⟩, htr⟩

/-- The memory a caller holds: `size` bytes at `data` in `z`. -/
def Heap.Live (h : Heap) (z : Zone) (data size : UInt32) : Prop :=
  size ≠ 0 ∧ ∃ d, (.detail d .datainfo, data, size) ∈ h.stubs z

/-- `alloc_find` in the arenas. -/
theorem allocFind_view (h : Heap) (data : UInt32) :
    (allocFind h data).map AllocInfo.chunk =
      (zones.flatMap fun z => view (h.zone z)).find? fun c => c.lo = data.toNat := by
  have hnodes : (zones.flatMap fun z => view (h.zone z)) = h.nodes.map AllocInfo.chunk := by
    rw [Heap.nodes, List.map_flatMap]
    rfl
  rw [hnodes, List.find?_map, allocFind]
  congr 2
  funext info
  simp [AllocInfo.chunk, UInt32.toNat_inj]

theorem allocFind_of_mem (ht : Tiled E h) {z : Zone} {s : Stub} (hs : s ∈ h.stubs z)
    (hused : s.2.2 ≠ 0) : ∃ info, allocFind h s.2.1 = some info ∧ info.stub = s := by
  obtain ⟨c, hc, hcs⟩ := mem_stubs.mp hs
  have hlo : c.lo = s.2.1.toNat := congrArg (fun t => t.2.1) hcs
  have hpos : 0 < c.used := by
    rw [show c.used = s.2.2.toNat from congrArg (fun t => t.2.2) hcs]
    exact Nat.pos_of_ne_zero fun h0 => hused (UInt32.toNat_inj.mp h0)
  have hfind := ht.layout.find_lo ht.fills (mem_zones z) hc hpos
  rw [hlo, ← allocFind_view] at hfind
  obtain ⟨info, hinfo, rfl⟩ := Option.map_eq_some_iff.mp hfind
  exact ⟨info, hinfo, natStub_injective hcs⟩

theorem allocFind_mem {data : UInt32} {info : AllocInfo} (hf : allocFind h data = some info) :
    info.rangeStart = data ∧ ∃ z, info.stub ∈ h.stubs z := by
  have hmem := List.mem_of_find?_eq_some hf
  obtain ⟨z, -, hz⟩ := List.mem_flatMap.mp hmem
  exact ⟨by simpa using List.find?_some hf, z, List.mem_map_of_mem hz⟩

/-- No memory begins at its own node, since the node lies inside bookkeeping memory. -/
theorem Sound.start_ne_phys (hs : Sound E h) {z : Zone} {data size d : UInt32}
    (hmem : (.detail d .datainfo, data, size) ∈ h.stubs z) : data ≠ d + sizeofAllocinfo := by
  rintro rfl
  obtain ⟨z', s, hs', hp⟩ := (hs.tracked.paired d).mp ⟨z, _, hmem, rfl⟩
  obtain ⟨-, hd⟩ := hs.tracked.home z' s hs' d hp
  obtain ⟨c, hc, -, hlo, hu, hle⟩ := hs.tiled.chunk hs'
  obtain ⟨info, -, rfl⟩ := List.mem_map.mp hc
  have hlt := info.rangeEnd.toNat_lt
  have hap := hs.tiled.apart hmem hs' (by rw [hp]; simp)
  have h20 : sizeofAllocinfo.toNat = 20 := rfl
  have h44 : sizeofAllocdetail.toNat = 44 := rfl
  rw [hd] at hlo hu hap
  simp only [Apart, AllocInfo.chunk, UInt32.toNat_add, h20, h44] at hap hlo hu hle
  omega

/-- The two functions that look for an allocation find every live one. -/
theorem findDetail_of_mem (hs : Sound E h) {z : Zone} {data size d : UInt32}
    (hmem : (.detail d .datainfo, data, size) ∈ h.stubs z) (hsize : size ≠ 0) :
    ∃ info, findDetail h data = some (info, d) ∧ info.place = .detail d .datainfo := by
  obtain ⟨info, hfind, hstub⟩ := allocFind_of_mem hs.tiled hmem hsize
  simp only [AllocInfo.stub, Prod.mk.injEq] at hstub
  obtain ⟨hplace, hstart, hsz⟩ := hstub
  have hne := hs.start_ne_phys hmem
  refine ⟨info, ?_, hplace⟩
  simp [findDetail, hfind, hplace, Place.phys, hne, hsz, hsize]

/-- And nothing else. -/
theorem live_of_findDetail (hs : Sound E h) {data d : UInt32} {info : AllocInfo}
    (hf : findDetail h data = some (info, d)) :
    ∃ z, (.detail d .datainfo, data, info.allocSize) ∈ h.stubs z ∧ info.allocSize ≠ 0 := by
  unfold findDetail at hf
  cases hfind : allocFind h data with
  | none => simp [hfind] at hf
  | some info' =>
    obtain ⟨hstart, z, hz⟩ := allocFind_mem hfind
    obtain ⟨a, p, hp⟩ := hs.tracked.settled z _ hz
    have hp : info'.place = .detail a p := hp
    cases p with
    | detailinfo =>
      -- `data == virt_to_phys(info)`
      obtain ⟨-, h2⟩ := hs.tracked.home z _ hz a hp
      have ha : info'.rangeStart = a := congrArg Prod.fst h2
      have hdata : data = a := hstart.symm.trans ha
      simp only [hfind, hp, Place.phys] at hf
      simp [hdata] at hf
    | datainfo =>
      simp only [hfind, hp, Place.phys] at hf
      split at hf
      · cases hf
      · rename_i hcond
        simp only [Option.some.injEq, Prod.mk.injEq, UInt32.add_sub_cancel] at hf
        obtain ⟨rfl, rfl⟩ := hf
        refine ⟨z, ?_, fun h0 => hcond (.inr h0)⟩
        simpa [AllocInfo.stub, hp, hstart] using hz

/-- A block is released if it is live, and nothing else is ever released. -/
theorem mallocPfree_cases (hs : Sound E h) (data : UInt32) :
    (mallocPfree h data = none ∧ ∀ z size, ¬ h.Live z data size) ∨
    ∃ z size d h', size ≠ 0 ∧ (.detail d .datainfo, data, size) ∈ h.stubs z ∧
      mallocPfree h data = some h' ∧ Sound E h' ∧ h'.handle = h.handle ∧
      ∀ z, h'.stubs z = (h.stubs z).filter fun s => s.1 ≠ .detail d .datainfo ∧
        s.1 ≠ .detail d .detailinfo := by
  cases hf : findDetail h data with
  | none =>
    refine .inl ⟨by simp [mallocPfree, hf], ?_⟩
    rintro z size ⟨hsize, d, hmem⟩
    obtain ⟨info, hinfo, -⟩ := findDetail_of_mem hs hmem hsize
    simp [hf] at hinfo
  | some r =>
    obtain ⟨info, d⟩ := r
    obtain ⟨z, hmem, hsize⟩ := live_of_findDetail hs hf
    obtain ⟨info', hinfo', hplace⟩ := findDetail_of_mem hs hmem hsize
    obtain rfl : info = info' := by
      rw [hf] at hinfo'
      exact (Prod.mk.inj (Option.some.inj hinfo')).1
    obtain ⟨ht₁, hs₁⟩ := hs.tiled.free hmem hsize
    obtain ⟨z', s, hs', hp⟩ := (hs.tracked.paired d).mp ⟨z, _, hmem, rfl⟩
    obtain ⟨-, hd⟩ := hs.tracked.home z' s hs' d hp
    have hmem₂ : s ∈ (h.mapZones (allocFree (.detail d .datainfo))).stubs z' := by
      rw [hs₁]
      exact List.mem_filter.mpr ⟨hs', by simp [hp]⟩
    obtain ⟨ht₂, hs₂⟩ := ht₁.free hmem₂ (by rw [hd]; exact sizeofAllocdetail_ne)
    rw [hp] at ht₂ hs₂
    have hstubs : ∀ z, ((h.mapZones (allocFree (.detail d .datainfo))).mapZones
        (allocFree (.detail d .detailinfo))).stubs z =
        (h.stubs z).filter fun s => s.1 ≠ .detail d .datainfo ∧ s.1 ≠ .detail d .detailinfo := by
      intro z
      rw [hs₂, hs₁, List.filter_filter]
      exact List.filter_congr fun t _ => by rw [Bool.decide_and, Bool.and_comm]
    refine .inr ⟨z, info.allocSize, d, _, hsize, hmem, ?_, ⟨ht₂, ?_⟩, rfl, hstubs⟩
    · simp only [mallocPfree, hf, hplace]
    · exact hs.tracked.of_filter hstubs

end CsmWrap.Malloc
