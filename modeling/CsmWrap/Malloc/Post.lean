import CsmWrap.Malloc.Roms

/-!
# POST

From `malloc_init` to the boot, option ROMs call the PMM services while SeaBIOS
allocates and deploys ROMs. `InPost` holds between any two of these events, in
whatever order they come.
-/

namespace CsmWrap.Malloc
open Arena

inductive Event
  | call (c : Call)
  | pmm (args : Args)
  | romReserve (size : UInt32)
  | romConfirm (size : UInt32)

/-- SeaBIOS, the blocks in the hands of its callers, and the memory of the ROMs that
were confirmed. -/
structure World where
  post : Post
  books : List Block
  roms : List (Nat × Nat)

def World.run (w : World) : Run := ⟨w.post.heap, w.books⟩

/-- The allocator calls of an event. -/
def Event.calls (w : World) : Event → List Call
  | .call c => [c]
  | .pmm args => pmmCalls w.post.toPmm args
  | _ => []

def World.step (S : Symbols) (w : World) (e : Event) : World where
  post :=
    match e with
    | .call c => { w.post with heap := (c.step w.post.heap).2 }
    | .pmm args => { w.post with toPmm := (handlePmm w.post.toPmm args).2 }
    | .romReserve size => (Malloc.romReserve S w.post size).2
    | .romConfirm size => (Malloc.romConfirm S w.post size).2
  books := (runFrom w.run (e.calls w)).books
  roms :=
    match e with
    | .romConfirm size =>
      if (Malloc.romConfirm S w.post size).1 = 0 then
        (w.post.romEnd.toNat, w.post.romEnd.toNat + size.toNat) :: w.roms
      else w.roms
    | _ => w.roms

def World.after (S : Symbols) (w : World) (events : List Event) : World :=
  events.foldl (World.step S) w

/-- The size of a ROM is a byte, in units of 512 bytes. Option ROMs may pass anything to
the PMM services. -/
def Event.Proper : Event → Prop
  | .call c => c.Plain
  | .pmm _ => True
  | .romReserve size => size.toNat ≤ 255 * 512
  | .romConfirm size => size.toNat ≤ 255 * 512

/-- The memory of the zones as `malloc_init` leaves it. -/
structure Mapped (S : Symbols) (E : Zone → List (Nat × Nat)) : Prop where
  layout : Layout E
  positive : ∀ z, ∀ e ∈ E z, 0 < e.1
  nonempty : ∀ z, ∀ e ∈ E z, e.1 < e.2
  low : E .low = [(S.zonelowBase.toNat + 16, S.finalVarlowStart.toNat)]
  outside : ∀ z, z ≠ .low → ∀ e ∈ E z, e.2 ≤ 0xc0000 ∨ S.finalVarlowStart.toNat < e.1
  paragraph : ∀ z, ∀ e ∈ E z, mallocMinAlign.toNat ∣ e.2

/-- The same, with another beginning of `ZoneLow`. -/
def lowFrom (S : Symbols) (E : Zone → List (Nat × Nat)) (lo : UInt32) : Zone → List (Nat × Nat) :=
  Function.update E .low [(lo.toNat, S.finalVarlowStart.toNat)]

/-- `ZoneLow` begins at `lo`, past the ROMs. -/
structure InPost (S : Symbols) (E : Zone → List (Nat × Nat)) (lo : UInt32) (w : World) :
    Prop where
  mapped : Mapped S E
  sound : Sound (lowFrom S E lo) w.post.heap
  books : Books w.post.heap w.books
  paragraph : ∀ b ∈ w.books, mallocMinAlign.toNat ∣ b.align.toNat
  base : (w.post.romBase, lo, 0) ∈ w.post.heap.stubs .low
  zonelow : S.zonelowBase.toNat + 16 ≤ lo.toNat
  roms_below : w.post.romEnd.toNat + 16 ≤ lo.toNat
  aligned : 2048 ∣ w.post.romEnd.toNat
  rom_start : 0xc0000 ≤ w.post.romEnd.toNat
  roms : ∀ r ∈ w.roms, 0xc0000 ≤ r.1 ∧ r.2 ≤ w.post.romEnd.toNat
  roms_apart : w.roms.Pairwise Apart

variable {S : Symbols} {E : Zone → List (Nat × Nat)} {lo : UInt32} {w : World}

theorem lowFrom_low (S : Symbols) (E : Zone → List (Nat × Nat)) (lo : UInt32) :
    lowFrom S E lo .low = [(lo.toNat, S.finalVarlowStart.toNat)] := by
  simp [lowFrom]

theorem mem_lowFrom {z : Zone} {e : Nat × Nat} : e ∈ lowFrom S E lo z ↔
    z = .low ∧ e = (lo.toNat, S.finalVarlowStart.toNat) ∨ z ≠ .low ∧ e ∈ E z := by
  by_cases hz : z = .low
  · subst hz
    simp [lowFrom]
  · simp [lowFrom, hz]

theorem layout_lowFrom (hm : Mapped S E) (hlo : S.zonelowBase.toNat + 16 ≤ lo.toNat)
    (hhi : lo.toNat ≤ S.finalVarlowStart.toNat) : Layout (lowFrom S E lo) := by
  have hrom := S.rom_le_zonelow
  -- a range of another zone lies below the ROMs or above the variables
  have hout : ∀ {z}, z ≠ .low → ∀ e ∈ E z,
      Apart e (lo.toNat, S.finalVarlowStart.toNat) ∧ e.1 ≠ lo.toNat := by
    intro z hz e he
    have hlt := hm.nonempty z e he
    have hout := hm.outside z hz e he
    simp only [Apart]
    omega
  refine ⟨fun z => ?_, fun z z' hne e he f hf => ?_, fun z z' hne e he f hf => ?_⟩
  · by_cases hz : z = .low
    · subst hz
      simp [lowFrom, Descending]
    · simpa [lowFrom, hz] using hm.layout.descending z
  · rcases mem_lowFrom.mp he with ⟨rfl, rfl⟩ | ⟨hz, he⟩
    · obtain ⟨hz', hf⟩ := (mem_lowFrom.mp hf).resolve_left fun h => hne h.1.symm
      exact (hout hz' f hf).1.symm
    · rcases mem_lowFrom.mp hf with ⟨rfl, rfl⟩ | ⟨hz', hf⟩
      · exact (hout hz e he).1
      · exact hm.layout.apart z z' hne e he f hf
  · rcases mem_lowFrom.mp he with ⟨rfl, rfl⟩ | ⟨hz, he⟩
    · obtain ⟨hz', hf⟩ := (mem_lowFrom.mp hf).resolve_left fun h => hne h.1.symm
      exact (hout hz' f hf).2.symm
    · rcases mem_lowFrom.mp hf with ⟨rfl, rfl⟩ | ⟨hz', hf⟩
      · exact (hout hz e he).2
      · exact hm.layout.starts z z' hne e he f hf

theorem InPost.call (hw : InPost S E lo w) {c : Call} (hc : c.Plain) :
    InPost S E lo { w with
      post := { w.post with heap := (w.run.step c).heap }, books := (w.run.step c).books } := by
  obtain ⟨hp, hpar, hadd⟩ := hc.proper noRanges
  obtain ⟨hs, hb, hbase⟩ := sound_step (r := w.run) hw.sound hw.books hp hadd
  have hone : ∀ b ∈ (runFrom w.run [c]).books, mallocMinAlign.toNat ∣ b.align.toNat :=
    books_paragraph (by simpa using hpar) hw.paragraph
  exact { hw with
    sound := hs
    books := hb
    paragraph := hone
    base := hbase .low _ hw.base rfl }

theorem InPost.calls (hw : InPost S E lo w) {calls : List Call} (hc : ∀ c ∈ calls, c.Plain) :
    InPost S E lo { w with
      post := { w.post with heap := (runFrom w.run calls).heap },
      books := (runFrom w.run calls).books } := by
  induction calls generalizing w with
  | nil => exact hw
  | cons c calls ih =>
    obtain ⟨hc, hrest⟩ := List.forall_mem_cons.mp hc
    exact ih (hw.call hc) hrest

/-- The events that leave the ROMs alone. -/
def Event.noRom : Event → Bool
  | .call _ => true
  | .pmm _ => true
  | _ => false

theorem World.step_noRom (S : Symbols) (w : World) {e : Event} (he : e.noRom) :
    (w.step S e).post.heap = (runFrom w.run (e.calls w)).heap ∧
      (w.step S e).post.romBase = w.post.romBase ∧ (w.step S e).post.romEnd = w.post.romEnd ∧
      (w.step S e).roms = w.roms := by
  cases e with
  | call c => exact ⟨rfl, rfl, rfl, rfl⟩
  | pmm args => exact ⟨(handlePmm_heap w.post.toPmm args w.books).symm, rfl, rfl, rfl⟩
  | romReserve | romConfirm => cases he

/-- They keep the beginning of `ZoneLow` too. -/
theorem InPost.step_noRom (hw : InPost S E lo w) {e : Event} (he : e.Proper) (hn : e.noRom) :
    InPost S E lo (w.step S e) := by
  have hplain : ∀ c ∈ e.calls w, c.Plain := by
    cases e with
    | call c => exact List.forall_mem_singleton.mpr he
    | pmm args => exact plain_pmmCalls w.post.toPmm args
    | romReserve | romConfirm => cases hn
  obtain ⟨hheap, hbase, hend, hroms⟩ := World.step_noRom S w hn
  have hcalls := hw.calls hplain
  exact {
    mapped := hw.mapped
    sound := hheap ▸ hcalls.sound
    books := hheap ▸ hcalls.books
    paragraph := hcalls.paragraph
    base := by rw [hheap, hbase]; exact hcalls.base
    zonelow := hw.zonelow
    roms_below := hend ▸ hw.roms_below
    aligned := hend ▸ hw.aligned
    rom_start := hend ▸ hw.rom_start
    roms := by rw [hroms, hend]; exact hw.roms
    roms_apart := hroms ▸ hw.roms_apart }

theorem InPost.after_noRom (hw : InPost S E lo w) {events : List Event}
    (he : ∀ e ∈ events, e.Proper ∧ e.noRom) :
    InPost S E lo (w.after S events) ∧ (w.after S events).post.romEnd = w.post.romEnd := by
  induction events generalizing w with
  | nil => exact ⟨hw, rfl⟩
  | cons e events ih =>
    obtain ⟨⟨hp, hn⟩, hrest⟩ := List.forall_mem_cons.mp he
    obtain ⟨h1, h2⟩ := ih (hw.step_noRom hp hn) hrest
    exact ⟨h1, h2.trans (World.step_noRom S w hn).2.2.1⟩

theorem optionRomAlign_toNat : optionRomAlign.toNat = 2 ^ 11 := rfl

theorem align_rom_toNat {x : UInt32} (hx : x.toNat + 2047 < 2 ^ 32) :
    (align x optionRomAlign).toNat = (x.toNat + 2047) / 2048 * 2048 := by
  have hmask : (optionRomAlign - 1).toNat = 2047 := rfl
  change (alignDown (x + (optionRomAlign - 1)) optionRomAlign).toNat = _
  rw [alignDown_toNat optionRomAlign_toNat, UInt32.toNat_add, hmask, Nat.mod_eq_of_lt hx]
  rfl

/-- The lowest node of `ZoneLow`, and the highest end that ROMs may have. -/
theorem InPost.romGetMax_spec (hw : InPost S E lo w) :
    ∃ init b, w.post.heap.zone .low = init ++ [b] ∧ w.post.heap.node w.post.romBase = some b ∧
      b.allocSize = 0 ∧ lo.toNat ≤ b.rangeEnd.toNat ∧
      b.rangeEnd.toNat ≤ S.finalVarlowStart.toNat ∧
      (∀ info ∈ init, b.rangeEnd.toNat ≤ info.rangeStart.toNat) ∧
      (romGetMax w.post).toNat = (b.rangeEnd.toNat - 16) / 2048 * 2048 := by
  obtain ⟨init, b, hl, hp, -, hsize, hlo, hhi, hinit, -⟩ :=
    base_node hw.sound.tiled (lowFrom_low S E lo) hw.base
  have hnode : w.post.heap.node w.post.romBase = some b :=
    hp ▸ hw.sound.tiled.node_eq (z := .low) (by rw [hl]; simp)
  have h16 : opromHeaderReserve.toNat = 16 := rfl
  have hle : opromHeaderReserve ≤ b.rangeEnd := by
    have := hw.zonelow
    rw [UInt32.le_iff_toNat_le, h16]
    omega
  refine ⟨init, b, hl, hnode, hsize, hlo, hhi, fun info hinfo => (hinit info hinfo).2, ?_⟩
  rw [romGetMax, hnode]
  simp only
  rw [alignDown_toNat optionRomAlign_toNat, UInt32.toNat_sub_of_le _ _ hle]
  rfl

/-- A ROM of `size` bytes ends here. -/
def romNewEnd (w : World) (size : UInt32) : Nat :=
  (w.post.romEnd.toNat + size.toNat + 2047) / 2048 * 2048

/-- `rom_reserve` refuses, or moves the beginning of `ZoneLow` past the ROM. -/
theorem InPost.romReserve_cases (hw : InPost S E lo w) {size : UInt32}
    (hsize : size.toNat ≤ 255 * 512) :
    ((romGetMax w.post).toNat < romNewEnd w size ∧ romReserve S w.post size = (0, w.post)) ∨
    (romNewEnd w size ≤ (romGetMax w.post).toNat ∧
      (align (w.post.romEnd + size) optionRomAlign).toNat = romNewEnd w size ∧
      (romReserve S w.post size).1 = w.post.romEnd ∧
      (romReserve S w.post size).2.romEnd = w.post.romEnd ∧
      ∃ lo' : UInt32, romNewEnd w size + 16 ≤ lo'.toNat ∧
        InPost S E lo' { w with post := (romReserve S w.post size).2 }) := by
  obtain ⟨init, b, -, hnode, -, hlo, hhi, -, hmax⟩ := hw.romGetMax_spec
  have htop : S.finalVarlowStart.toNat < 0x100000 := by
    have h1 := S.varlow_lt
    have h2 := S.zonefseg_lt
    have h3 := S.zonefseg_le
    omega
  have hz := hw.zonelow
  have hbelow := hw.roms_below
  have hadd : (w.post.romEnd + size).toNat = w.post.romEnd.toNat + size.toNat := by
    rw [UInt32.toNat_add, Nat.mod_eq_of_lt (by omega)]
  have hnew : (align (w.post.romEnd + size) optionRomAlign).toNat = romNewEnd w size := by
    rw [align_rom_toNat (by omega), hadd, romNewEnd]
  by_cases hgt : align (w.post.romEnd + size) optionRomAlign > romGetMax w.post
  · refine .inl ⟨?_, by simp only [romReserve, if_pos hgt]⟩
    rw [← hnew]
    exact UInt32.lt_iff_toNat_lt.mp hgt
  · have hle : romNewEnd w size ≤ (romGetMax w.post).toNat := by
      rw [← hnew]
      exact UInt32.le_iff_toNat_le.mp (UInt32.not_lt.mp hgt)
    -- where `ZoneLow` begins now
    obtain ⟨newend, hne, hn1, hn2, hn3⟩ : ∃ newend : UInt32,
        (if align (w.post.romEnd + size) optionRomAlign < S.zonelowBase then S.zonelowBase
          else align (w.post.romEnd + size) optionRomAlign) = newend ∧
        S.zonelowBase.toNat ≤ newend.toNat ∧ romNewEnd w size ≤ newend.toNat ∧
        newend.toNat + 16 ≤ b.rangeEnd.toNat := by
      have hdvd := S.zonelow_aligned
      split
      · next hlt =>
        have hlt := UInt32.lt_iff_toNat_lt.mp hlt
        rw [hnew] at hlt
        exact ⟨_, rfl, Nat.le_refl _, by omega, by omega⟩
      · next hge =>
        have hge := UInt32.le_iff_toNat_le.mp (UInt32.not_lt.mp hge)
        rw [hnew] at hge
        exact ⟨_, rfl, by omega, by omega, by omega⟩
    have hlo' : (newend + opromHeaderReserve).toNat = newend.toNat + 16 := by
      rw [UInt32.toNat_add, Nat.mod_eq_of_lt]
      · rfl
      · have : opromHeaderReserve.toNat = 16 := rfl
        omega
    have hres : romReserve S w.post size = (w.post.romEnd, { w.post with
        heap := w.post.heap.setStart w.post.romBase (newend + opromHeaderReserve) }) := by
      simp only [romReserve, if_neg hgt, hne]
    refine .inr ⟨hle, hnew, by rw [hres], by rw [hres], newend + opromHeaderReserve, by omega, ?_⟩
    have hupd : Function.update (lowFrom S E lo) Zone.low
        [((newend + opromHeaderReserve).toNat, S.finalVarlowStart.toNat)] =
          lowFrom S E (newend + opromHeaderReserve) := Function.update_idem ..
    have hsound : Sound (lowFrom S E (newend + opromHeaderReserve))
        (w.post.heap.setStart w.post.romBase (newend + opromHeaderReserve)) := by
      rw [← hupd]
      refine hw.sound.rebase (lowFrom_low S E lo) hw.base (fun info hinfo => ?_) ?_ (by omega)
      · obtain rfl : b = info := by simpa [hnode] using hinfo
        omega
      · rw [hupd]
        exact layout_lowFrom hw.mapped (by omega) (by omega)
    rw [hres]
    exact { hw with
      sound := hsound
      books := hw.books.rebase hw.sound.tiled hw.base _
      base := mem_setStart.mpr (.inr ⟨rfl, rfl, lo, hw.base⟩)
      zonelow := by omega
      roms_below := by
        have : w.post.romEnd.toNat ≤ romNewEnd w size := by
          have := hw.aligned
          simp only [romNewEnd]
          omega
        simp only
        omega }

/-- A confirmed ROM lies between the earlier ones and `ZoneLow`. -/
theorem InPost.romConfirm_cases (hw : InPost S E lo w) {size : UInt32}
    (hsize : size.toNat ≤ 255 * 512) :
    ((romGetMax w.post).toNat < romNewEnd w size ∧ romConfirm S w.post size = (-1, w.post)) ∨
    (romNewEnd w size ≤ (romGetMax w.post).toNat ∧ (romConfirm S w.post size).1 = 0 ∧
      (romConfirm S w.post size).2.romEnd.toNat = romNewEnd w size ∧
      ∃ lo', InPost S E lo' (w.step S (.romConfirm size))) := by
  have hstart := hw.rom_start
  have hal := hw.aligned
  rcases hw.romReserve_cases hsize with ⟨hlt, hres⟩ | ⟨hle, hnew, h1, h2, lo', hlo', hw'⟩
  · exact .inl ⟨hlt, by simp [romConfirm, hres]⟩
  · have hne : w.post.romEnd ≠ 0 := by
      intro h0
      simp [h0] at hstart
    have hconf : romConfirm S w.post size = (0, { (romReserve S w.post size).2 with
        romEnd := align (w.post.romEnd + size) optionRomAlign }) := by
      simp [romConfirm, h1, hne]
    have hend : w.post.romEnd.toNat + size.toNat ≤ romNewEnd w size := by
      simp only [romNewEnd]
      omega
    refine .inr ⟨hle, by rw [hconf], by rw [hconf]; exact hnew, lo', ?_⟩
    have hstep : w.step S (.romConfirm size) = { w with
        post := { (romReserve S w.post size).2 with
          romEnd := align (w.post.romEnd + size) optionRomAlign },
        roms := (w.post.romEnd.toNat, w.post.romEnd.toNat + size.toNat) :: w.roms } := by
      simp [World.step, hconf, Event.calls, runFrom, World.run]
    rw [hstep]
    exact { hw' with
      roms_below := by
        simp only [hnew]
        exact hlo'
      aligned := by
        simp only [hnew]
        exact Nat.dvd_mul_left ..
      rom_start := by
        simp only [hnew]
        omega
      roms := by
        simp only [hnew, List.mem_cons, forall_eq_or_imp]
        refine ⟨⟨hstart, hend⟩, fun r hr => ?_⟩
        obtain ⟨hr1, hr2⟩ := hw.roms r hr
        exact ⟨hr1, by omega⟩
      roms_apart :=
        List.pairwise_cons.mpr ⟨fun r hr => .inr (hw.roms r hr).2, hw.roms_apart⟩ }

theorem InPost.step (hw : InPost S E lo w) {e : Event} (he : e.Proper) :
    ∃ lo', InPost S E lo' (w.step S e) := by
  cases e with
  | call c => exact ⟨lo, hw.step_noRom he rfl⟩
  | pmm args => exact ⟨lo, hw.step_noRom he rfl⟩
  | romReserve size =>
    rcases hw.romReserve_cases he with ⟨-, hres⟩ | ⟨-, -, -, -, lo', -, hw'⟩
    · refine ⟨lo, ?_⟩
      have hstep : w.step S (.romReserve size) = w := by
        simp [World.step, hres, Event.calls, runFrom, World.run]
      rwa [hstep]
    · exact ⟨lo', hw'⟩
  | romConfirm size =>
    rcases hw.romConfirm_cases he with ⟨-, hconf⟩ | ⟨-, -, -, lo', hw'⟩
    · refine ⟨lo, ?_⟩
      have hstep : w.step S (.romConfirm size) = w := by
        simp [World.step, hconf, Event.calls, runFrom, World.run]
      rwa [hstep]
    · exact ⟨lo', hw'⟩

theorem InPost.after (hw : InPost S E lo w) {events : List Event} (he : ∀ e ∈ events, e.Proper) :
    ∃ lo', InPost S E lo' (w.after S events) := by
  induction events generalizing w lo with
  | nil => exact ⟨lo, hw⟩
  | cons e events ih =>
    obtain ⟨hp, hrest⟩ := List.forall_mem_cons.mp he
    obtain ⟨lo', hw'⟩ := hw.step hp
    exact ih hw' hrest

/-! ## The beginning -/

/-- Calls before `malloc_init`, such as those of `malloc_csm_preinit`: they add memory
below the video memory or above 1 MiB, and none to `ZoneLow`. -/
structure Preinit (calls : List Call) : Prop where
  proper : Proper noRanges calls
  paragraph : ∀ c ∈ calls, c.Paragraph
  memory : ∀ z, ∀ g ∈ given noRanges calls z, g.2 ≤ 0xa0000 ∨ 0x100000 ≤ g.1
  no_low : given noRanges calls .low = []

/-- POST, once `malloc_init` has run. -/
def started (S : Symbols) (calls : List Call) (e820 : E820.Table) : Option World :=
  (mallocInit S ⟨(run calls).heap, e820⟩).map fun post => ⟨post, (run calls).books, []⟩

theorem zonelow_start (S : Symbols) :
    (S.zonelowBase + opromHeaderReserve).toNat = S.zonelowBase.toNat + 16 := by
  have h16 : opromHeaderReserve.toNat = 16 := rfl
  have hlt := S.zonelow_lt
  have htop := S.finalVarlowStart.toNat_lt
  rw [UInt32.toNat_add, h16, Nat.mod_eq_of_lt (by omega)]

/-- Memory that nobody uses may be added after `malloc_init` has added `ZoneLow`. -/
theorem Mapped.add (hm : Mapped S E) {z : Zone} (hz : z ≠ .low) {r : Nat × Nat}
    (hr : NewRange E r) (hout : S.finalVarlowStart.toNat < r.1)
    (hpar : mallocMinAlign.toNat ∣ r.2) : Mapped S (addRange E z r) := by
  refine ⟨layout_addRange hm.layout hm.nonempty hr, fun z' e he => ?_, fun z' e he => ?_, ?_,
    fun z' hz' e he => ?_, fun z' e he => ?_⟩
  · rcases mem_addRange.mp he with he | ⟨-, rfl⟩
    · exact hm.positive z' e he
    · exact hr.positive
  · rcases mem_addRange.mp he with he | ⟨-, rfl⟩
    · exact hm.nonempty z' e he
    · exact hr.nonempty
  · rw [addRange, Function.update_of_ne (Ne.symm hz)]
    exact hm.low
  · rcases mem_addRange.mp he with he | ⟨-, rfl⟩
    · exact hm.outside z' hz' e he
    · exact .inr hout
  · rcases mem_addRange.mp he with he | ⟨-, rfl⟩
    · exact hm.paragraph z' e he
    · exact hpar

theorem Preinit.newLow {calls : List Call} (hc : Preinit calls) (S : Symbols)
    (hE : ∀ z, ∀ e ∈ E z, e ∈ given noRanges calls z) :
    NewRange E ((S.zonelowBase + opromHeaderReserve).toNat, S.finalVarlowStart.toNat) := by
  have hstart := zonelow_start S
  have h1 := S.rom_le_zonelow
  have h2 := S.zonelow_lt
  have h3 := S.varlow_lt
  have h4 := S.zonefseg_lt
  have h5 := S.zonefseg_le
  refine ⟨by simp only; omega, by simp only; omega, fun z e he => ?_⟩
  have := hc.memory z e (hE z e he)
  simp only [Apart]
  omega

/-- `ZoneLow` after `malloc_init`, over what was there before. -/
theorem Preinit.addZoneLow {calls : List Call} (hc : Preinit calls) (S : Symbols)
    {info : AllocInfo}
    (hinfo : allocFindLowest (addZoneLow S (run calls).heap) .low = some info) :
    ∃ E, Mapped S E ∧ (∀ z, z ≠ .low → ∀ e ∈ E z, e ∈ given noRanges calls z) ∧
      Sound E (addZoneLow S (run calls).heap) ∧
      Books (addZoneLow S (run calls).heap) (run calls).books ∧
      (info.place, S.zonelowBase + opromHeaderReserve, 0) ∈
        (addZoneLow S (run calls).heap).stubs .low := by
  obtain ⟨E, hE, hs, hb⟩ := reached_run hc.proper
  have hlow : E .low = [] := List.eq_nil_iff_forall_not_mem.mpr fun e he => by
    have := (hE .low e he).1
    rw [hc.no_low] at this
    cases this
  have hr := hc.newLow S fun z e he => (hE z e he).1
  rcases allocAdd_cases hs (fun z e he => (hE z e he).2) .low hr with ⟨-, hsame⟩ | ⟨tz, d, hs', hn⟩
  · -- no memory for the node: the zone is still empty
    have hfills := hs.tiled.fills .low
    rw [hlow] at hfills
    have hnil : (run calls).heap.zone .low = [] := by
      cases hz : (run calls).heap.zone .low with
      | nil => rfl
      | cons info rest =>
        rw [hz] at hfills
        cases hfills
    rw [Malloc.addZoneLow, hsame, allocFindLowest, hnil] at hinfo
    cases hinfo
  · have hnew : addRange E .low ((S.zonelowBase + opromHeaderReserve).toNat,
        S.finalVarlowStart.toNat) .low =
          [((S.zonelowBase + opromHeaderReserve).toNat, S.finalVarlowStart.toNat)] := by
      simp [addRange, hlow, insertAbove]
    have hbase := (hn.mem .low _).mpr (.inr (.inl ⟨rfl, rfl⟩))
    obtain ⟨init, b, hl, hp, -⟩ := base_node hs'.tiled hnew hbase
    have hb' : info = b := by simpa [Malloc.addZoneLow, allocFindLowest, hl, eq_comm] using hinfo
    subst hb'
    have hother : ∀ z, z ≠ .low → ∀ e ∈ addRange E .low ((S.zonelowBase + opromHeaderReserve).toNat,
        S.finalVarlowStart.toNat) z, e ∈ given noRanges calls z := fun z hz e he =>
      (hE z e ((mem_addRange.mp he).resolve_right fun h => hz h.1)).1
    refine ⟨_, ⟨hs'.tiled.layout, hs'.tiled.positive, fun z e he => ?_, by rw [hnew, zonelow_start],
      fun z hz e he => ?_, fun z e he => ?_⟩, hother, hs', hb.add hn, hp ▸ hbase⟩
    · rcases mem_addRange.mp he with he | ⟨-, rfl⟩
      · exact (hE z e he).2
      · exact hr.nonempty
    · have := hc.memory z e (hother z hz e he)
      have := S.varlow_lt
      have := S.zonefseg_lt
      have := S.zonefseg_le
      omega
    · rcases mem_addRange.mp he with he | ⟨-, rfl⟩
      · exact given_paragraph hc.paragraph (by simp [noRanges]) z e (hE z e he).1
      · exact S.varlow_paragraph

theorem Mapped.newFSeg (hm : Mapped S E)
    (hmem : ∀ z, z ≠ .low → ∀ e ∈ E z, e.2 ≤ 0xa0000 ∨ 0x100000 ≤ e.1) :
    NewRange E (S.zonefsegStart.toNat, S.zonefsegEnd.toNat) := by
  have h1 := S.varlow_lt
  have h2 := S.zonefseg_le
  have h3 := S.rom_le_zonelow
  have h4 := S.zonelow_lt
  refine ⟨by simp only; omega, S.zonefseg_lt, fun z e he => ?_⟩
  by_cases hz : z = .low
  · subst hz
    rw [hm.low] at he
    obtain rfl := List.mem_singleton.mp he
    exact .inr h1.le
  · have := hmem z hz e he
    simp only [Apart]
    omega

/-- No ROM has been deployed yet. -/
theorem inPost_start (hm : Mapped S E) {p : Post} {books : List Block} (hs : Sound E p.heap)
    (hb : Books p.heap books) (hpar : ∀ b ∈ books, mallocMinAlign.toNat ∣ b.align.toNat)
    (hbase : (p.romBase, S.zonelowBase + opromHeaderReserve, 0) ∈ p.heap.stubs .low)
    (hend : p.romEnd = buildRomStart) :
    InPost S E (S.zonelowBase + opromHeaderReserve) ⟨p, books, []⟩ := by
  have hstart := zonelow_start S
  have hrom : p.romEnd.toNat = 0xc0000 := hend ▸ rfl
  have h1 := S.rom_le_zonelow
  have hsame : lowFrom S E (S.zonelowBase + opromHeaderReserve) = E := by
    rw [lowFrom, hstart, ← hm.low, Function.update_eq_self]
  exact {
    mapped := hm
    sound := by rw [hsame]; exact hs
    books := hb
    paragraph := hpar
    base := hbase
    zonelow := hstart.ge
    roms_below := by simp only; omega
    aligned := by simp only [hrom]; decide
    rom_start := by simp only; omega
    roms := by simp
    roms_apart := .nil }

/-- Besides `ZoneLow` and the F segment there is only the memory added before. -/
theorem started_ranges {calls : List Call} (hc : Preinit calls) {e820 : E820.Table}
    (hw : started S calls e820 = some w) : ∃ E lo, InPost S E lo w ∧
      ∀ z, z ≠ .low → ∀ e ∈ E z, e ∈ given noRanges calls z ∨
        z = .fSeg ∧ e = (S.zonefsegStart.toNat, S.zonefsegEnd.toNat) := by
  obtain ⟨post, hinit, rfl⟩ := Option.map_eq_some_iff.mp hw
  simp only [mallocInit] at hinit
  split at hinit
  · cases hinit
  next info hinfo =>
    obtain ⟨E, hm, hmem, hs, hb, hbase⟩ := hc.addZoneLow S hinfo
    obtain rfl := Option.some.inj hinit
    have hpar := books_paragraph hc.paragraph (r := ⟨.empty, []⟩) (by simp)
    have hr := hm.newFSeg fun z hz e he => hc.memory z e (hmem z hz e he)
    have hadd : addZoneFSeg S (addZoneLow S (run calls).heap) = addZoneLow S (run calls).heap ∨
        ∃ tz d, Sound (addRange E .fSeg (S.zonefsegStart.toNat, S.zonefsegEnd.toNat))
          (addZoneFSeg S (addZoneLow S (run calls).heap)) ∧
        Tracks (addZoneLow S (run calls).heap) (addZoneFSeg S (addZoneLow S (run calls).heap)) .fSeg
          S.zonefsegStart 0 tz d := (allocAdd_cases hs hm.nonempty .fSeg hr).imp_left And.right
    generalize addZoneFSeg S (addZoneLow S (run calls).heap) = h at hadd
    rcases hadd with rfl | ⟨tz, d, hs', hn⟩
    · exact ⟨E, _, inPost_start hm hs hb hpar hbase rfl, fun z hz e he => .inl (hmem z hz e he)⟩
    · have hm' := hm.add (z := .fSeg) (by simp) hr S.varlow_lt S.zonefseg_paragraph
      exact ⟨_, _, inPost_start hm' hs' (hb.add hn) hpar ((hn.mem .low _).mpr (.inl hbase)) rfl,
        fun z hz e he => (mem_addRange.mp he).imp_left (hmem z hz e)⟩

theorem started_inPost {calls : List Call} (hc : Preinit calls) {e820 : E820.Table}
    (hw : started S calls e820 = some w) : ∃ E lo, InPost S E lo w := by
  obtain ⟨E, lo, hin, -⟩ := started_ranges hc hw
  exact ⟨E, lo, hin⟩

/-- All nodes end on paragraphs. -/
theorem InPost.ends (hw : InPost S E lo w) :
    ∀ z, ∀ c ∈ view (w.post.heap.zone z), mallocMinAlign.toNat ∣ c.hi := by
  refine hw.sound.ends hw.books (fun z e he => ?_) hw.paragraph
  rcases mem_lowFrom.mp he with ⟨-, rfl⟩ | ⟨-, he⟩
  · exact S.varlow_paragraph
  · exact hw.mapped.paragraph z e he

/-! ## ROMs and blocks stay apart -/

/-- What a node uses lies outside the area of the ROMs, up to the header that
`malloc_prepboot` puts at the end of it. -/
theorem InPost.apart_roms (hw : InPost S E lo w) {z : Zone} {s : Stub}
    (hs : s ∈ w.post.heap.stubs z) (h0 : s.2.2 ≠ 0) :
    Apart (s.2.1.toNat, s.2.1.toNat + s.2.2.toNat) (0xc0000, (romGetMax w.post).toNat + 16) := by
  obtain ⟨init, b, hl, -, hsize, hlo, hhi, hinit, hmax⟩ := hw.romGetMax_spec
  have hz16 := hw.zonelow
  by_cases hz : z = .low
  · subst hz
    obtain ⟨info, hinfo, rfl⟩ := List.mem_map.mp hs
    rw [hl] at hinfo
    rcases List.mem_append.mp hinfo with hinfo | hinfo
    · have := hinit info hinfo
      simp only [Apart, AllocInfo.stub]
      omega
    · rw [List.mem_singleton.mp hinfo] at h0
      exact absurd hsize h0
  · obtain ⟨c, hc, -, hclo, hcu, hcle⟩ := hw.sound.tiled.chunk hs
    obtain ⟨e, he, h1, h2⟩ := (hw.sound.tiled.fills z).mem_range c hc
    obtain ⟨-, he⟩ := (mem_lowFrom.mp he).resolve_left fun h => hz h.1
    have hout := hw.mapped.outside z hz e he
    simp only [Apart]
    omega

theorem InPost.romEnd_le (hw : InPost S E lo w) :
    w.post.romEnd.toNat ≤ (romGetMax w.post).toNat := by
  obtain ⟨init, b, -, -, -, hlo, -, -, hmax⟩ := hw.romGetMax_spec
  have hbelow := hw.roms_below
  have hal := hw.aligned
  omega

theorem InPost.block_apart_roms (hw : InPost S E lo w) {b : Block} (hb : b ∈ w.books) :
    Apart b.range (0xc0000, (romGetMax w.post).toNat + 16) := by
  obtain ⟨h0, -, d, hd, -⟩ := hw.books.live b hb
  exact hw.apart_roms hd h0

theorem InPost.detail_apart_roms (hw : InPost S E lo w) {z : Zone} {info : AllocInfo}
    (hinfo : info ∈ w.post.heap.zone z) {d : UInt32} {q : Part}
    (hq : info.place = .detail d q) :
    Apart (detailRange d) (0xc0000, (romGetMax w.post).toNat + 16) := by
  obtain ⟨z', s, hs, -, hsd⟩ := hw.sound.detail_stub hinfo hq
  have hap := hw.apart_roms hs (by rw [hsd]; exact sizeofAllocdetail_ne)
  rw [hsd] at hap
  exact hap

/-- In whatever order SeaBIOS allocates and deploys ROMs, and whatever option ROMs ask of
the PMM services: blocks, the records of the allocator and ROMs never overlap. The
memory that `malloc_prepboot` clears and marks, from the last ROM to the first block of
`ZoneLow`, belongs to none of them. -/
theorem post_disjoint {calls : List Call} (hc : Preinit calls) {e820 : E820.Table}
    (hw : started S calls e820 = some w) {events : List Event} (he : ∀ e ∈ events, e.Proper) :
    ((w.after S events).books.Pairwise fun b c => Apart b.range c.range) ∧
    (w.after S events).roms.Pairwise Apart ∧
    (∀ r ∈ (w.after S events).roms, 0xc0000 ≤ r.1 ∧ r.2 ≤ (w.after S events).post.romEnd.toNat) ∧
    (w.after S events).post.romEnd.toNat ≤ (romGetMax (w.after S events).post).toNat ∧
    (∀ b ∈ (w.after S events).books,
      Apart b.range (0xc0000, (romGetMax (w.after S events).post).toNat + 16)) ∧
    ∀ z, ∀ info ∈ (w.after S events).post.heap.zone z, ∀ d q, info.place = .detail d q →
      Apart (detailRange d) (0xc0000, (romGetMax (w.after S events).post).toNat + 16) ∧
      (∀ b ∈ (w.after S events).books, Apart b.range (detailRange d)) ∧
      ∀ z', ∀ info' ∈ (w.after S events).post.heap.zone z', ∀ d' q', info'.place = .detail d' q' →
        d ≠ d' → Apart (detailRange d) (detailRange d') := by
  obtain ⟨E, lo, hin⟩ := started_inPost hc hw
  obtain ⟨lo', hin⟩ := hin.after he
  refine ⟨hin.books.apart hin.sound.tiled, hin.roms_apart, hin.roms, hin.romEnd_le,
    fun b hb => hin.block_apart_roms hb, fun z info hinfo d q hq => ⟨?_, ?_, ?_⟩⟩
  · exact hin.detail_apart_roms hinfo hq
  · exact fun b hb => hin.books.apart_detail hin.sound hb hinfo hq
  · exact fun z' info' hinfo' d' q' hq' hne => hin.sound.details_apart hinfo hinfo' hq hq' hne

def sampleSymbols : Symbols where
  zonelowBase := 0xd8000
  finalVarlowStart := 0xe7f00
  zonefsegStart := 0xf0000
  zonefsegEnd := 0xf8000
  zonelow_aligned := by decide
  rom_le_zonelow := by decide
  zonelow_lt := by decide
  varlow_lt := by decide
  zonefseg_lt := by decide
  zonefseg_le := by decide
  varlow_paragraph := by decide
  zonefseg_paragraph := by decide

def sampleCalls : List Call := [.add .tmpHigh 0x100000 0x110000]

theorem sampleCalls_preinit : Preinit sampleCalls where
  proper := ⟨⟨by decide, by decide, by simp [noRanges]⟩, trivial⟩
  paragraph := by simp [sampleCalls, Call.Paragraph]; decide
  memory z g hg := by
    simp only [sampleCalls, given, List.foldl_cons, List.foldl_nil, Call.give, mem_addRange,
      noRanges, List.not_mem_nil, false_or] at hg
    rw [hg.2]
    decide
  no_low := rfl

def sampleWorld : World := (started sampleSymbols sampleCalls .empty).get (by decide +kernel)

theorem sampleWorld_started : started sampleSymbols sampleCalls .empty = some sampleWorld :=
  (Option.some_get _).symm

/-- A block of SeaBIOS, a ROM of 32 KiB, and a block the ROM asks for. -/
def sampleEvents : List Event :=
  [.call (.palloc .low 64 16), .romReserve 0x8000,
    .pmm fun i => [0, 4, 0, 0x4142, 0x4344, 10].getD i 0, .romConfirm 0x8000]

theorem sampleEvents_proper : ∀ e ∈ sampleEvents, e.Proper := by
  simp only [sampleEvents, List.forall_mem_cons]
  exact ⟨⟨⟨⟨4, rfl⟩, by decide⟩, by decide⟩, by simp [Event.Proper], trivial,
    by simp [Event.Proper], by simp⟩

theorem post_disjoint_sample :
    (sampleWorld.after sampleSymbols sampleEvents).roms = [(0xc0000, 0xc8000)] ∧
    (sampleWorld.after sampleSymbols sampleEvents).books.map Block.range =
      [(0x10ff00, 0x10ff40), (0xe7ec0, 0xe7f00)] ∧
    (sampleWorld.after sampleSymbols sampleEvents).books.Pairwise fun b c =>
      Apart b.range c.range :=
  ⟨by decide +kernel, by decide +kernel,
    (post_disjoint sampleCalls_preinit sampleWorld_started sampleEvents_proper).1⟩

/-- `rom_reserve` keeps its word: while the ROM is copied and run, whatever is allocated
meanwhile, no block comes into the memory that was reserved, and a ROM that is no larger
than announced is confirmed. -/
theorem reserve_confirm {calls : List Call} (hc : Preinit calls) {e820 : E820.Table}
    (hw : started S calls e820 = some w) {events later : List Event}
    (he : ∀ e ∈ events, e.Proper) (hl : ∀ e ∈ later, e.Proper ∧ e.noRom) {size size' : UInt32}
    (hsize : size.toNat ≤ 255 * 512) (hsize' : size' ≤ size)
    (hres : (romReserve S (w.after S events).post size).1 ≠ 0) :
    (∀ b ∈ (((w.after S events).step S (.romReserve size)).after S later).books,
      Apart b.range ((w.after S events).post.romEnd.toNat,
        (w.after S events).post.romEnd.toNat + size.toNat)) ∧
    (romConfirm S (((w.after S events).step S (.romReserve size)).after S later).post
      size').1 = 0 := by
  obtain ⟨E, lo, hin⟩ := started_inPost hc hw
  obtain ⟨lo, hin⟩ := hin.after he
  generalize w.after S events = w at hin hres
  have hle := UInt32.le_iff_toNat_le.mp hsize'
  rcases hin.romReserve_cases hsize with ⟨-, hnone⟩ | ⟨-, -, -, hend, lo', hlo', hin'⟩
  · rw [hnone] at hres
    exact absurd rfl hres
  · have hstep : w.step S (.romReserve size) =
        { w with post := (romReserve S w.post size).2 } := rfl
    rw [← hstep] at hin'
    obtain ⟨hin'', hend'⟩ := hin'.after_noRom hl
    replace hend' := hend'.trans hend
    generalize (w.step S (.romReserve size)).after S later = w' at hin'' hend'
    obtain ⟨init, b, -, -, -, hlob, -, -, hmax⟩ := hin''.romGetMax_spec
    have hnew : romNewEnd w size ≤ (romGetMax w'.post).toNat := by
      rw [hmax]
      exact Nat.mul_le_mul_right _ ((Nat.le_div_iff_mul_le (by omega)).mpr (Nat.le_sub_of_add_le
        (hlo'.trans hlob)))
    constructor
    · intro c hc'
      have hap := hin''.block_apart_roms hc'
      have hstart := hin.rom_start
      refine hap.mono ⟨Nat.le_refl _, Nat.le_refl _⟩ ⟨hstart, ?_⟩
      simp only [romNewEnd] at hnew ⊢
      omega
    · rcases hin''.romConfirm_cases (hle.trans hsize) with ⟨hlt, -⟩ | ⟨-, hok, -⟩
      · simp only [romNewEnd, hend'] at hlt hnew
        omega
      · exact hok

theorem reserve_confirm_sample :
    (romReserve sampleSymbols (sampleWorld.after sampleSymbols sampleEvents).post 0x6000).1 =
      0xc8000 ∧
    (romConfirm sampleSymbols (((sampleWorld.after sampleSymbols sampleEvents).step sampleSymbols
      (.romReserve 0x6000)).after sampleSymbols [.call (.palloc .low 0x800 16)]).post
        0x5000).1 = 0 := by
  refine ⟨by decide +kernel, (reserve_confirm sampleCalls_preinit sampleWorld_started
    sampleEvents_proper ?_ (by decide) (by decide) (by decide +kernel)).2⟩
  exact List.forall_mem_singleton.mpr ⟨⟨⟨⟨4, rfl⟩, by decide⟩, by decide⟩, rfl⟩

end CsmWrap.Malloc
