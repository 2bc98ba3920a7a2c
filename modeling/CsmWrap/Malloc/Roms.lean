import CsmWrap.Malloc.Pmm

/-!
# The area of option ROMs

Option ROMs grow from 0xc0000 up and the blocks of `ZoneLow` from the variables of
SeaBIOS down. Between the two is the free space of the lowest node of `ZoneLow`, whose
`range_start` `rom_reserve` moves.
-/

namespace CsmWrap.Malloc
open Arena

/-- Addresses that the link step fixes, and what `layoutrom.py` sees to. -/
structure Symbols where
  zonelowBase : UInt32
  finalVarlowStart : UInt32
  zonefsegStart : UInt32
  zonefsegEnd : UInt32
  zonelow_aligned : 2048 ∣ zonelowBase.toNat
  rom_le_zonelow : 0xc0000 ≤ zonelowBase.toNat
  zonelow_lt : zonelowBase.toNat + 16 < finalVarlowStart.toNat
  varlow_lt : finalVarlowStart.toNat < zonefsegStart.toNat
  zonefseg_lt : zonefsegStart.toNat < zonefsegEnd.toNat
  zonefseg_le : zonefsegEnd.toNat ≤ 0x100000
  varlow_paragraph : mallocMinAlign.toNat ∣ finalVarlowStart.toNat
  zonefseg_paragraph : mallocMinAlign.toNat ∣ zonefsegEnd.toNat

def buildRomStart : UInt32 := 0xc0000
def opromHeaderReserve : UInt32 := 16
def optionRomAlign : UInt32 := 2048

/-- What SeaBIOS keeps during POST. -/
structure Post extends Pmm where
  romBase : Place
  romEnd : UInt32

/-- Memory for `ZoneLow`, in `malloc_init`. -/
def addZoneLow (S : Symbols) (h : Heap) : Heap :=
  allocAdd h .low (S.zonelowBase + opromHeaderReserve) S.finalVarlowStart

/-- Memory for `ZoneFSeg`, in `malloc_init`. -/
def addZoneFSeg (S : Symbols) (h : Heap) : Heap :=
  allocAdd h .fSeg S.zonefsegStart S.zonefsegEnd

/-- `malloc_init`. There is no `RomBase` to go on with where no memory could be had
for the node of `ZoneLow`. -/
def mallocInit (S : Symbols) (p : Pmm) : Option Post :=
  let h := addZoneLow S p.heap
  match allocFindLowest h .low with
  | none => none
  | some info =>
    some { p with
      heap := addZoneFSeg S h
      romBase := info.place
      romEnd := buildRomStart }

/-- `rom_get_max` -/
def romGetMax (p : Post) : UInt32 :=
  match p.heap.node p.romBase with
  | none => 0
  | some info => alignDown (info.rangeEnd - opromHeaderReserve) optionRomAlign

/-- `info->range_start = start` -/
def Heap.setStart (h : Heap) (place : Place) (start : UInt32) : Heap :=
  h.mapZones fun l => l.map fun info =>
    if info.place = place then { info with rangeStart := start } else info

/-- `rom_reserve`, with 0 for `NULL`. -/
def romReserve (S : Symbols) (p : Post) (size : UInt32) : UInt32 × Post :=
  let newend := align (p.romEnd + size) optionRomAlign
  if newend > romGetMax p then (0, p)
  else
    let newend := if newend < S.zonelowBase then S.zonelowBase else newend
    (p.romEnd, { p with heap := p.heap.setStart p.romBase (newend + opromHeaderReserve) })

/-- `rom_confirm`, with the value it returns. -/
def romConfirm (S : Symbols) (p : Post) (size : UInt32) : Int × Post :=
  let new := romReserve S p size
  if new.1 = 0 then (-1, p)
  else (0, { new.2 with romEnd := align (p.romEnd + size) optionRomAlign })

variable {E : Zone → List (Nat × Nat)} {h : Heap} {books : List Block} {p : Place}
  {lo : UInt32} {top : Nat}

/-- The node of `ZoneLow` that uses nothing is the last one, and may begin anywhere up
to its end. -/
theorem base_node (ht : Tiled E h) (hE : E .low = [(lo.toNat, top)])
    (hbase : (p, lo, 0) ∈ h.stubs .low) :
    ∃ init b, h.zone .low = init ++ [b] ∧ b.place = p ∧ b.rangeStart = lo ∧ b.allocSize = 0 ∧
      lo.toNat ≤ b.rangeEnd.toNat ∧ b.rangeEnd.toNat ≤ top ∧
      (∀ info ∈ init, info.allocSize ≠ 0 ∧ b.rangeEnd.toNat ≤ info.rangeStart.toNat) ∧
      ∀ start : UInt32, start.toNat ≤ b.rangeEnd.toNat →
        Fills (view (init ++ [{ b with rangeStart := start }])) [(start.toNat, top)] := by
  have hfills := ht.fills .low
  rw [hE] at hfills
  obtain ⟨init', b', hview, hb0, hblo, hle, hinit, hre⟩ := hfills.single
  obtain ⟨init, last, hl, rfl, hlast⟩ := List.map_eq_append_iff.mp hview
  obtain ⟨b, rfl, rfl⟩ := List.map_eq_singleton_iff.mp hlast
  have hsize : b.allocSize = 0 := UInt32.toNat_inj.mp hb0
  have hused : ∀ info ∈ init, info.allocSize ≠ 0 ∧ b.rangeEnd.toNat ≤ info.rangeStart.toNat := by
    intro info hinfo
    obtain ⟨hu, hhi⟩ := hinit _ (List.mem_map_of_mem hinfo)
    refine ⟨fun h0 => ?_, hhi⟩
    simp [AllocInfo.chunk, h0] at hu
  have hplace : b.place = p := by
    obtain ⟨info, hinfo, he⟩ := List.mem_map.mp hbase
    rw [hl] at hinfo
    rcases List.mem_append.mp hinfo with hinfo | hinfo
    · exact absurd (congrArg (fun t => t.2.2) he) (hused info hinfo).1
    · rw [← List.mem_singleton.mp hinfo]
      exact congrArg Prod.fst he
  have htop : b.rangeEnd.toNat ≤ top := by
    obtain ⟨e, he, -, hhi⟩ := hfills.mem_range b.chunk (List.mem_map_of_mem (by rw [hl]; simp))
    rw [List.mem_singleton.mp he] at hhi
    exact hhi
  refine ⟨init, b, hl, hplace, UInt32.toNat_inj.mp hblo, hsize, hle, htop, hused,
    fun start hstart => ?_⟩
  have hfill := hre start.toNat hstart
  simpa [view, AllocInfo.chunk] using hfill

theorem stubs_setStart (h : Heap) (p : Place) (start : UInt32) (z : Zone) :
    (h.setStart p start).stubs z =
      (h.stubs z).map fun s => if s.1 = p then (s.1, start, s.2.2) else s := by
  simp only [Heap.stubs, Heap.setStart, Heap.mapZones, stubs, List.map_map]
  refine List.map_congr_left fun info _ => ?_
  by_cases hp : info.place = p <;> simp [AllocInfo.stub, hp]

theorem zone_setStart (ht : Tiled E h) {init : List AllocInfo} {b : AllocInfo}
    (hl : h.zone .low = init ++ [b]) (start : UInt32) (z : Zone) :
    (h.setStart b.place start).zone z =
      if z = .low then init ++ [{ b with rangeStart := start }] else h.zone z := by
  have hb : b ∈ h.zone .low := by rw [hl]; simp
  have hsame : ∀ {l : List AllocInfo}, (∀ info ∈ l, info.place ≠ b.place) →
      (l.map fun info => if info.place = b.place then { info with rangeStart := start } else info)
        = l := by
    intro l hne
    rw [List.map_congr_left fun info hinfo => if_neg (hne info hinfo), List.map_id']
  change (h.zone z).map _ = _
  split
  · subst z
    have hnodup := ht.nodup .low
    rw [hl, view, List.map_append, List.map_append] at hnodup
    have hdisj := (List.nodup_append.mp hnodup).2.2
    rw [hl, List.map_append, hsame fun info hinfo hp => hdisj _ ?_ _ ?_ hp]
    · simp
    · exact List.mem_map_of_mem (List.mem_map_of_mem hinfo)
    · exact List.mem_singleton.mpr rfl
  · next hz =>
    refine hsame fun info hinfo hp => hz ?_
    exact ht.once z .low _ (List.mem_map_of_mem hinfo) _ (List.mem_map_of_mem hb) hp

theorem mem_setStart {start : UInt32} {z : Zone} {s : Stub} :
    s ∈ (h.setStart p start).stubs z ↔
      s.1 ≠ p ∧ s ∈ h.stubs z ∨ s.1 = p ∧ s.2.1 = start ∧ ∃ a, (p, a, s.2.2) ∈ h.stubs z := by
  rw [stubs_setStart, List.mem_map]
  constructor
  · rintro ⟨t, ht, rfl⟩
    by_cases hp : t.1 = p
    · refine .inr ⟨by simp [hp], by simp [hp], t.2.1, ?_⟩
      rw [if_pos hp, ← hp]
      exact ht
    · exact .inl ⟨by simp [hp], by simpa [hp] using ht⟩
  · rintro (⟨hp, ht⟩ | ⟨rfl, rfl, a, ht⟩)
    · exact ⟨s, ht, if_neg hp⟩
    · exact ⟨_, ht, if_pos rfl⟩

theorem Tiled.rebase (ht : Tiled E h) (hE : E .low = [(lo.toNat, top)])
    (hbase : (p, lo, 0) ∈ h.stubs .low) {start : UInt32}
    (hstart : ∀ info, h.node p = some info → start.toNat ≤ info.rangeEnd.toNat)
    (hlayout : Layout (Function.update E .low [(start.toNat, top)])) (hpos : 0 < start.toNat) :
    Tiled (Function.update E .low [(start.toNat, top)]) (h.setStart p start) := by
  obtain ⟨init, b, hl, rfl, -, -, -, -, -, hfill⟩ := base_node ht hE hbase
  have hzone := zone_setStart ht hl start
  have hend := hstart b (ht.node_eq (z := .low) (by rw [hl]; simp))
  refine ⟨hlayout, fun z e he => ?_, fun z => ?_, fun z => ?_, fun z z' s hs t hst he => ?_⟩
  · by_cases hz : z = .low
    · subst hz
      obtain rfl : e = (start.toNat, top) := by simpa using he
      exact hpos
    · exact ht.positive z e (by simpa [hz] using he)
  · rw [hzone]
    by_cases hz : z = .low
    · subst hz
      simpa using hfill start hend
    · simpa [hz] using ht.fills z
  · rw [hzone]
    by_cases hz : z = .low
    · subst hz
      simpa [hl, view, AllocInfo.chunk] using ht.nodup .low
    · simpa [hz] using ht.nodup z
  · have hplace : ∀ {z s}, s ∈ (h.setStart b.place start).stubs z →
        ∃ t ∈ h.stubs z, t.1 = s.1 := by
      intro z s hs
      rcases mem_setStart.mp hs with ⟨-, hs⟩ | ⟨hp, -, a, hs⟩
      · exact ⟨s, hs, rfl⟩
      · exact ⟨_, hs, hp.symm⟩
    obtain ⟨s', hs', hss⟩ := hplace hs
    obtain ⟨t', ht', htt⟩ := hplace hst
    exact ht.once z z' s' hs' t' ht' (hss.trans (he.trans htt.symm))

theorem Tracked.rebase (ht : Tracked h) (hp : ∀ a, p ≠ .detail a .detailinfo) (start : UInt32) :
    Tracked (h.setStart p start) := by
  have hplaces : ∀ q, (∃ z, ∃ s ∈ (h.setStart p start).stubs z, s.1 = q) ↔
      ∃ z, ∃ s ∈ h.stubs z, s.1 = q := by
    intro q
    constructor
    · rintro ⟨z, s, hs, rfl⟩
      rcases mem_setStart.mp hs with ⟨-, hs⟩ | ⟨hsp, -, a, hs⟩
      · exact ⟨z, s, hs, rfl⟩
      · exact ⟨z, _, hs, hsp.symm⟩
    · rintro ⟨z, s, hs, rfl⟩
      by_cases hsp : s.1 = p
      · refine ⟨z, (p, start, s.2.2), mem_setStart.mpr (.inr ⟨rfl, rfl, s.2.1, ?_⟩), hsp.symm⟩
        rw [← hsp]
        exact hs
      · exact ⟨z, s, mem_setStart.mpr (.inl ⟨hsp, hs⟩), rfl⟩
  refine ⟨fun z s hs => ?_, fun z s hs a ha => ?_, fun z s hs a q ha => ?_, fun a => ?_⟩
  · obtain ⟨z', t, ht', he⟩ := (hplaces s.1).mp ⟨z, s, hs, rfl⟩
    exact he ▸ ht.settled z' t ht'
  · rcases mem_setStart.mp hs with ⟨-, hs⟩ | ⟨hsp, -⟩
    · exact ht.home z s hs a ha
    · exact absurd (hsp.symm.trans ha) (hp a)
  · obtain ⟨z', t, ht', he⟩ := (hplaces s.1).mp ⟨z, s, hs, rfl⟩
    exact ht.aligned z' t ht' a q (he.trans ha)
  · rw [hplaces, hplaces]
    exact ht.paired a

theorem Books.rebase (hb : Books h books) (ht : Tiled E h) (hbase : (p, lo, 0) ∈ h.stubs .low)
    (start : UInt32) : Books (h.setStart p start) books := by
  have hused : ∀ {z} {s : Stub}, s ∈ h.stubs z → s.2.2 ≠ 0 → s.1 ≠ p := by
    intro z s hs h0 hp
    obtain ⟨-, rfl⟩ := ht.stub_eq hs hbase hp
    exact h0 rfl
  refine ⟨fun b hbm => ?_, fun z d a n hmem hn0 => ?_, hb.unique, fun z d a hmem => ?_⟩
  · obtain ⟨h0, hal, d, hd, hh⟩ := hb.live b hbm
    exact ⟨h0, hal, d, mem_setStart.mpr (.inl ⟨hused hd h0, hd⟩), hh⟩
  · rcases mem_setStart.mp hmem with ⟨-, hmem⟩ | ⟨-, -, a', hmem⟩
    · exact hb.complete z d a n hmem hn0
    · exact absurd rfl (hused hmem hn0)
  · rcases mem_setStart.mp hmem with ⟨-, hmem⟩ | ⟨hp, -, a', hmem⟩
    · exact hb.unnamed z d a hmem
    · obtain rfl : .detail d .datainfo = p := hp
      exact hb.unnamed z d a' hmem

/-- The heap with another beginning of `ZoneLow`. -/
theorem Sound.rebase (hs : Sound E h) (hE : E .low = [(lo.toNat, top)])
    (hbase : (p, lo, 0) ∈ h.stubs .low) {start : UInt32}
    (hstart : ∀ info, h.node p = some info → start.toNat ≤ info.rangeEnd.toNat)
    (hlayout : Layout (Function.update E .low [(start.toNat, top)])) (hpos : 0 < start.toNat) :
    Sound (Function.update E .low [(start.toNat, top)]) (h.setStart p start) := by
  refine ⟨hs.tiled.rebase hE hbase hstart hlayout hpos, hs.tracked.rebase (fun a ha => ?_) start⟩
  rcases (hs.tracked.home .low _ hbase a ha).1 with hz | hz <;> cases hz

end CsmWrap.Malloc
