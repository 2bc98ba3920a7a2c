import CsmWrap.Malloc.Post

/-!
# What option ROMs can rely on

The PMM services in any state that POST can reach: an allocation is all or nothing, a
size that was announced can be had, and a handle finds its block until the block is
released.
-/

namespace CsmWrap.Malloc
open Arena

variable {S : Symbols} {E : Zone → List (Nat × Nat)} {lo : UInt32} {w : World}

theorem Pmm.palloc_cases {p : Pmm} (hs : Sound E p.heap) {size align : UInt32}
    (hr : Request size align) (z : Zone) (books : List Block) :
    (p.palloc z size align = (0, p) ∧
      Run.step ⟨p.heap, books⟩ (.palloc z size align) = ⟨p.heap, books⟩) ∨
    ((p.palloc z size align).1 ≠ 0 ∧ (Run.step ⟨p.heap, books⟩ (.palloc z size align)).books =
      ⟨z, (p.palloc z size align).1, size, align, mallocDefaultHandle⟩ :: books) := by
  rcases mallocPalloc_cases hs hr z with hsame | ⟨data, tz, d, h', he, hd, -⟩
  · refine .inl ⟨by simp [Pmm.palloc, hsame], ?_⟩
    rw [Run.step_eq (r := ⟨p.heap, books⟩) (c := .palloc z size align) hsame, Call.book, if_pos rfl]
  · have hdata : (p.palloc z size align).1 = data := by simp [Pmm.palloc, he]
    rw [hdata]
    refine .inr ⟨hd, ?_⟩
    rw [Run.step_eq (r := ⟨p.heap, books⟩) (c := .palloc z size align) he, Call.book, if_neg hd]

/-- Failed attempts leave no trace, and the block of a successful one is entered in the
books. -/
theorem pmmAlloc_cases {p : Pmm} (hs : Sound E p.heap) (flags : UInt16) {size align : UInt32}
    (hr : Request size align) (books : List Block) :
    (pmmAlloc p flags size align = (0, p) ∧
      (runFrom ⟨p.heap, books⟩ ((pmmZones p flags size align).map (.palloc · size align))).books =
        books) ∨
    ((pmmAlloc p flags size align).1 ≠ 0 ∧ ∃ z,
      (runFrom ⟨p.heap, books⟩ ((pmmZones p flags size align).map (.palloc · size align))).books =
        ⟨z, (pmmAlloc p flags size align).1, size, align, mallocDefaultHandle⟩ :: books) := by
  have hone := fun z => Pmm.palloc_cases hs hr z books
  simp only [pmmZones, pmmAlloc]
  split
  · rcases hone (lowZone flags) with ⟨hfail, hstep⟩ | ⟨hok, hstep⟩
    · exact .inl ⟨hfail, congrArg Run.books hstep⟩
    · exact .inr ⟨hok, _, hstep⟩
  · rcases hone (highZone flags) with ⟨hfail, hstep⟩ | ⟨hok, hstep⟩
    · by_cases hperm : flags &&& 8 ≠ 0
      · have hfull : (p.palloc (highZone flags) size align).1 = 0 ∧ flags &&& 8 ≠ 0 :=
          ⟨congrArg Prod.fst hfail, hperm⟩
        rw [if_pos hfull, if_pos hfull, hfail, List.map_cons, List.map_singleton, runFrom,
          List.foldl_cons, hstep]
        rcases hone .tmpHigh with ⟨hfail, hstep⟩ | ⟨hok, hstep⟩
        · refine .inl ⟨by simp [hfail], congrArg Run.books hstep⟩
        · rw [if_pos hok]
          exact .inr ⟨hok, _, hstep⟩
      · rw [if_neg fun h => hperm h.2, if_neg fun h => hperm h.2]
        exact .inl ⟨hfail, congrArg Run.books hstep⟩
    · rw [if_neg fun h => hok h.1, if_neg fun h => hok h.1]
      exact .inr ⟨hok, _, hstep⟩
  · rcases hone (lowZone flags) with ⟨hfail, hstep⟩ | ⟨hok, hstep⟩
    · have hfull : (p.palloc (lowZone flags) size align).1 = 0 := congrArg Prod.fst hfail
      rw [if_pos hfull, if_pos hfull, hfail, List.map_cons, List.map_singleton, runFrom,
        List.foldl_cons, hstep]
      rcases hone (highZone flags) with ⟨hfail, hstep⟩ | ⟨hok, hstep⟩
      · exact .inl ⟨hfail, congrArg Run.books hstep⟩
      · exact .inr ⟨hok, _, hstep⟩
    · rw [if_neg hok, if_neg hok]
      exact .inr ⟨hok, _, hstep⟩
  · exact .inl ⟨rfl, rfl⟩

/-- Naming the newest block changes no other entry. -/
theorem book_sethandle {books : List Block} {b : Block}
    (hu : (b :: books).Pairwise (·.start ≠ ·.start)) (handle : UInt32) :
    Call.book (b :: books) 0 (.sethandle b.start handle) = { b with handle } :: books := by
  obtain ⟨hne, -⟩ := List.pairwise_cons.mp hu
  simp only [Call.book, List.map_cons, ↓reduceIte, List.cons.injEq, true_and]
  rw [List.map_congr_left fun c hc => if_neg (Ne.symm (hne c hc)), List.map_id']

theorem InPost.pmm00_cases (hw : InPost S E lo w) {args : Args} (hlen : args.u32 1 ≠ 0) :
    (handlePmm00 w.post.toPmm args = (0, w.post.toPmm) ∧
      (runFrom w.run (pmm00Calls w.post.toPmm args)).books = w.books) ∨
    ((handlePmm00 w.post.toPmm args).1 ≠ 0 ∧ ∃ z,
      (runFrom w.run (pmm00Calls w.post.toPmm args)).books =
        ⟨z, (handlePmm00 w.post.toPmm args).1, args.u32 1 * 16,
          pmmAlign (args 5) (args.u32 1 * 16), args.u32 3⟩ :: w.books) := by
  simp only [handlePmm00, pmm00Calls, hlen, false_or, ↓reduceIte]
  generalize args.u32 1 * 16 = size
  by_cases hsize : size = 0 ∨ size ≥ 0x80000000
  · rw [if_pos hsize, if_pos hsize]
    exact .inl ⟨rfl, rfl⟩
  rw [if_neg hsize, if_neg hsize]
  obtain ⟨hs0, hs1⟩ := not_or.mp hsize
  obtain ⟨hr, hpar⟩ := request_pmmAlign (args 5) hs0 (UInt32.not_le.mp hs1)
  generalize pmmAlign (args 5) size = align at hr hpar
  have hplain : ∀ c ∈ (pmmZones w.post.toPmm (args 5) size align).map (Call.palloc · size align),
      c.Plain := by
    intro c hc
    obtain ⟨z, -, rfl⟩ := List.mem_map.mp hc
    exact ⟨hr, hpar⟩
  have hunique := (hw.calls hplain).books.unique
  rcases pmmAlloc_cases hw.sound (args 5) hr w.books with ⟨hfail, hbooks⟩ | ⟨hok, z, hbooks⟩
  · have hzero : ¬ ((pmmAlloc w.post.toPmm (args 5) size align).1 ≠ 0 ∧
        args.u32 3 ≠ mallocDefaultHandle) := fun h => h.1 (congrArg Prod.fst hfail)
    rw [if_neg hzero, if_neg hzero, List.append_nil]
    exact .inl ⟨hfail, hbooks⟩
  · simp only [World.run, hbooks] at hunique
    right
    by_cases hh : args.u32 3 = mallocDefaultHandle
    · rw [if_neg fun h => h.2 hh, if_neg fun h => h.2 hh, List.append_nil, hh]
      exact ⟨hok, z, hbooks⟩
    · rw [if_pos ⟨hok, hh⟩, if_pos ⟨hok, hh⟩]
      refine ⟨hok, z, ?_⟩
      rw [← book_sethandle hunique, ← hbooks, runFrom, List.foldl_append]
      rfl

theorem handlePmm_allocate (p : Pmm) {args : Args} (h0 : args 0 = 0) :
    handlePmm p args = handlePmm00 p args := by
  simp [handlePmm, h0]

theorem pmmCalls_allocate (p : Pmm) {args : Args} (h0 : args 0 = 0) :
    pmmCalls p args = pmm00Calls p args := by
  simp [pmmCalls, h0]

theorem World.books_allocate (S : Symbols) (w : World) {args : Args} (h0 : args 0 = 0) :
    (w.step S (.pmm args)).books = (runFrom w.run (pmm00Calls w.post.toPmm args)).books :=
  congrArg (fun calls => (runFrom w.run calls).books) (pmmCalls_allocate _ h0)

/-- An allocation is all or nothing. It fails and nothing has changed, or the caller has
a block more, at an address of the alignment it asked for, and the allocator has a node
for the block under the handle it asked for. The size in bytes is computed in 32 bits: a
length of 2^28 paragraphs or more is not refused as such, and the block is then that much
smaller than the caller thinks. -/
theorem pmm_allocates {calls : List Call} (hc : Preinit calls) {e820 : E820.Table}
    (hw : started S calls e820 = some w) {events : List Event} (he : ∀ e ∈ events, e.Proper)
    {args : Args} (h0 : args 0 = 0) (hlen : args.u32 1 ≠ 0) :
    ((handlePmm (w.after S events).post.toPmm args).1 = 0 ∧
      (w.after S events).step S (.pmm args) = w.after S events) ∨
    ((handlePmm (w.after S events).post.toPmm args).1 ≠ 0 ∧ ∃ b,
      ((w.after S events).step S (.pmm args)).books = b :: (w.after S events).books ∧
      b.start = (handlePmm (w.after S events).post.toPmm args).1 ∧
      b.size.toNat = 16 * (args.u32 1).toNat % 2 ^ 32 ∧
      b.align = pmmAlign (args 5) b.size ∧ b.align.toNat ∣ b.start.toNat ∧
      b.handle = args.u32 3 ∧ ∃ d,
        (.detail d .datainfo, b.start, b.size) ∈
          ((w.after S events).step S (.pmm args)).post.heap.stubs b.zone ∧
        ((w.after S events).step S (.pmm args)).post.heap.handle d = b.handle) := by
  obtain ⟨E, lo, hin⟩ := started_inPost hc hw
  obtain ⟨lo, hin⟩ := hin.after he
  generalize w.after S events = w at hin
  obtain ⟨lo', hin'⟩ := hin.step (e := .pmm args) trivial
  rw [handlePmm_allocate _ h0]
  rcases hin.pmm00_cases hlen with ⟨hfail, hbooks⟩ | ⟨hok, z, hbooks⟩
  · refine .inl ⟨by rw [hfail], ?_⟩
    simp only [World.step, handlePmm_allocate _ h0, hfail, Event.calls, pmmCalls_allocate _ h0,
      hbooks]
  · have hnew := (w.books_allocate S h0).trans hbooks
    obtain ⟨-, hal, hnode⟩ := hin'.books.live _ (hnew ▸ List.mem_cons_self)
    refine .inr ⟨hok, _, hnew, rfl, ?_, rfl, hal, rfl, hnode⟩
    rw [UInt32.toNat_mul, Nat.mul_comm]
    rfl

/-- 64 bytes of temporary high memory, with a handle. -/
def sampleRequest : Args := fun i => [0, 4, 0, 7, 0, 2].getD i 0

theorem pmm_allocates_sample : ∃ b,
    ((sampleWorld.after sampleSymbols sampleEvents).step sampleSymbols
      (.pmm sampleRequest)).books = b :: (sampleWorld.after sampleSymbols sampleEvents).books ∧
    b.size.toNat = 64 ∧ b.handle = 7 := by
  have h0 : sampleRequest 0 = 0 := rfl
  rcases pmm_allocates sampleCalls_preinit sampleWorld_started sampleEvents_proper h0 (by decide)
    with ⟨h, -⟩ | ⟨-, b, hbooks, -, hsize, -, -, hhandle, -⟩
  · exact absurd h (by decide +kernel)
  · exact ⟨b, hbooks, hsize, hhandle⟩

/-- The block at `data` is the one with that handle. -/
def Named (data handle : UInt32) (books : List Block) : Prop :=
  (∃ b ∈ books, b.start = data ∧ b.handle = handle) ∧
    ∀ b ∈ books, b.handle = handle → b.start = data

/-- The event neither releases the block at `data` nor gives a name in its place. -/
def Event.Spares (data handle : UInt32) : Event → Prop
  | .call (.pfree d) => d ≠ data
  | .call (.sethandle d h) => d ≠ data ∧ h ≠ handle
  | .pmm args => (args 0 = 0 → args.u32 3 ≠ handle) ∧ (args 0 = 2 → args.u32 1 ≠ data)
  | _ => True

theorem Named.cons {data handle : UInt32} {books : List Block} (hn : Named data handle books)
    {b : Block} (hb : b.handle ≠ handle) : Named data handle (b :: books) := by
  obtain ⟨⟨c, hc, hcn⟩, hall⟩ := hn
  exact ⟨⟨c, List.mem_cons_of_mem _ hc, hcn⟩,
    List.forall_mem_cons.mpr ⟨fun h => absurd h hb, hall⟩⟩

theorem Named.filter {data handle d : UInt32} {books : List Block}
    (hn : Named data handle books) (hd : d ≠ data) :
    Named data handle (books.filter (·.start ≠ d)) := by
  obtain ⟨⟨c, hc, hcs, hch⟩, hall⟩ := hn
  refine ⟨⟨c, List.mem_filter.mpr ⟨hc, ?_⟩, hcs, hch⟩,
    fun b hb => hall b (List.mem_filter.mp hb).1⟩
  exact decide_eq_true (hcs ▸ Ne.symm hd)

theorem Named.rename {data handle d h : UInt32} {books : List Block}
    (hn : Named data handle books) (hd : d ≠ data) (hh : h ≠ handle) :
    Named data handle (books.map fun b => if b.start = d then { b with handle := h } else b) := by
  obtain ⟨⟨c, hc, hcs, hch⟩, hall⟩ := hn
  refine ⟨⟨c, List.mem_map.mpr ⟨c, hc, if_neg (hcs ▸ Ne.symm hd)⟩, hcs, hch⟩, fun b hb hbh => ?_⟩
  obtain ⟨b, hold, rfl⟩ := List.mem_map.mp hb
  by_cases hbd : b.start = d
  · rw [if_pos hbd] at hbh
    exact absurd hbh hh
  · rw [if_neg hbd] at hbh ⊢
    exact hall b hold hbh

theorem Named.palloc {data handle : UInt32} {r : Run} (hn : Named data handle r.books)
    (hh : handle ≠ mallocDefaultHandle) (z : Zone) (size align : UInt32) :
    Named data handle (r.step (.palloc z size align)).books := by
  simp only [Run.step, Call.book]
  split
  · exact hn
  · exact hn.cons (Ne.symm hh)

theorem Named.pfree {data handle d : UInt32} {r : Run} (hn : Named data handle r.books)
    (hd : d ≠ data) : Named data handle (r.step (.pfree d)).books := by
  simp only [Run.step, Call.book]
  split
  · exact hn.filter hd
  · exact hn

theorem InPost.named_step (hw : InPost S E lo w) {data handle : UInt32} {e : Event}
    (hh : handle ≠ mallocDefaultHandle) (hs : e.Spares data handle)
    (hn : Named data handle w.books) : Named data handle (w.step S e).books := by
  cases e with
  | call c =>
    cases c with
    | add z start stop => exact hn
    | palloc z size align => exact hn.palloc (r := w.run) hh z size align
    | pfree d => exact hn.pfree (r := w.run) hs
    | sethandle d h => exact hn.rename hs.1 hs.2
  | pmm args =>
    change Named _ _ (runFrom w.run (pmmCalls w.post.toPmm args)).books
    unfold pmmCalls
    split
    · next h0 =>
      have h0 : args 0 = 0 := UInt16.toNat_inj.mp h0
      by_cases hlen : args.u32 1 = 0
      · rw [pmm00Calls, if_pos (.inl hlen)]
        exact hn
      · rcases hw.pmm00_cases hlen with ⟨-, hbooks⟩ | ⟨-, z, hbooks⟩
        · rwa [hbooks]
        · rw [hbooks]
          exact hn.cons (hs.1 h0)
    · next h2 => exact hn.pfree (r := w.run) (hs.2 (UInt16.toNat_inj.mp h2))
    · exact hn
  | romReserve size => exact hn
  | romConfirm size => exact hn

theorem InPost.named_after (hw : InPost S E lo w) {data handle : UInt32} {events : List Event}
    (hh : handle ≠ mallocDefaultHandle) (he : ∀ e ∈ events, e.Proper ∧ e.Spares data handle)
    (hn : Named data handle w.books) : Named data handle (w.after S events).books := by
  induction events generalizing w lo with
  | nil => exact hn
  | cons e events ih =>
    obtain ⟨⟨hp, hs⟩, hrest⟩ := List.forall_mem_cons.mp he
    obtain ⟨lo', hw'⟩ := hw.step hp
    exact ih hw' hrest (hw.named_step hh hs hn)

theorem handlePmm_find (p : Pmm) {args : Args} (h1 : args 0 = 1)
    (hh : args.u32 1 ≠ mallocDefaultHandle) :
    (handlePmm p args).1 = mallocFindhandle p.heap (args.u32 1) := by
  simp [handlePmm, h1, handlePmm01, hh]

/-- A block that was allocated under a new handle is found by it, whatever the others
allocate, release, name or deploy in the meantime. -/
theorem pmm_finds {calls : List Call} (hc : Preinit calls) {e820 : E820.Table}
    (hw : started S calls e820 = some w) {events later : List Event}
    (he : ∀ e ∈ events, e.Proper) {args find : Args} (h0 : args 0 = 0) (hlen : args.u32 1 ≠ 0)
    (hhandle : args.u32 3 ≠ mallocDefaultHandle) (h1 : find 0 = 1)
    (hfind : find.u32 1 = args.u32 3)
    (hnew : (handlePmm (w.after S events).post.toPmm find).1 = 0)
    (hok : (handlePmm (w.after S events).post.toPmm args).1 ≠ 0)
    (hl : ∀ e ∈ later, e.Proper ∧
      e.Spares (handlePmm (w.after S events).post.toPmm args).1 (args.u32 3)) :
    (handlePmm (((w.after S events).step S (.pmm args)).after S later).post.toPmm find).1 =
      (handlePmm (w.after S events).post.toPmm args).1 := by
  obtain ⟨E, lo, hin⟩ := started_inPost hc hw
  obtain ⟨lo, hin⟩ := hin.after he
  generalize w.after S events = w at hin hnew hok hl ⊢
  have hfh : find.u32 1 ≠ mallocDefaultHandle := hfind ▸ hhandle
  obtain ⟨lo', hin'⟩ := hin.step (e := .pmm args) trivial
  obtain ⟨lo'', hin''⟩ := hin'.after fun e he => (hl e he).1
  rw [handlePmm_find _ h1 hfh, hfind] at hnew ⊢
  have hunused := (findhandle_spec hin.sound hin.books hhandle).1.mp hnew
  have hnamed : Named (handlePmm w.post.toPmm args).1 (args.u32 3)
      (w.step S (.pmm args)).books := by
    rw [handlePmm_allocate _ h0] at hok ⊢
    rcases hin.pmm00_cases hlen with ⟨hfail, -⟩ | ⟨-, z, hcons⟩
    · exact absurd (congrArg Prod.fst hfail) hok
    · rw [w.books_allocate S h0, hcons]
      refine ⟨⟨_, List.mem_cons_self, rfl, rfl⟩, List.forall_mem_cons.mpr ⟨fun _ => rfl, ?_⟩⟩
      exact fun b hb hbh => absurd hbh (hunused b hb)
  obtain ⟨⟨b, hb, hbs, hbh⟩, hall⟩ := hin'.named_after hhandle hl hnamed
  have hspec := findhandle_spec hin''.sound hin''.books hhandle
  obtain ⟨c, hc', hch, hcs⟩ := hspec.2 fun h => hspec.1.mp h b hb hbh
  rw [← hcs]
  exact hall c hc' hch

def sampleFind : Args := fun i => [1, 7, 0].getD i 0

theorem pmm_finds_sample :
    (handlePmm (((sampleWorld.after sampleSymbols sampleEvents).step sampleSymbols
      (.pmm sampleRequest)).after sampleSymbols
        [.romReserve 0x800, .call (.palloc .tmpHigh 0x100 16)]).post.toPmm sampleFind).1 =
      0x10fe90 := by
  have h1 : sampleFind 0 = 1 := rfl
  have h0 : sampleRequest 0 = 0 := rfl
  rw [pmm_finds sampleCalls_preinit sampleWorld_started sampleEvents_proper h0 (by decide)
    (by decide) h1 (by decide) (by decide +kernel) (by decide +kernel)]
  · decide +kernel
  · simp only [List.forall_mem_cons]
    exact ⟨⟨by simp [Event.Proper], trivial⟩, ⟨⟨⟨⟨4, rfl⟩, by decide⟩, by decide⟩, trivial⟩,
      by simp⟩

/-! ## Memory size requests -/

/-- Naming a block does not change which block it is. -/
theorem handlePmm00_fst (p : Pmm) {args : Args} (hlen : args.u32 1 ≠ 0)
    (hsize : ¬ (args.u32 1 * 16 = 0 ∨ args.u32 1 * 16 ≥ 0x80000000)) :
    (handlePmm00 p args).1 =
      (pmmAlloc p (args 5) (args.u32 1 * 16) (pmmAlign (args 5) (args.u32 1 * 16))).1 := by
  simp only [handlePmm00, if_neg hlen, if_neg hsize]
  split <;> rfl

/-- What `malloc_getspace` announces, in the zones of a request. -/
theorem pmmAlloc_of_space {p : Pmm} (hs : Sound E p.heap)
    (hends : ∀ z, ∀ c ∈ view (p.heap.zone z), mallocMinAlign.toNat ∣ c.hi) {flags : UInt16}
    {size : UInt32} (h0 : size ≠ 0) (hpar : mallocMinAlign.toNat ∣ size.toNat)
    (hle : size ≤ pmmSpace p.heap flags)
    (hdetail : flags &&& 8 ≠ 0 →
      ∃ tz, (tz = .tmpHigh ∨ tz = .tmpLow) ∧ mallocGetspace p.heap tz ≠ 0) :
    (pmmAlloc p flags size mallocMinAlign).1 ≠ 0 := by
  have hpalloc : ∀ z, z = lowZone flags ∨ z = highZone flags → size ≤ mallocGetspace p.heap z →
      (p.palloc z size mallocMinAlign).1 ≠ 0 := by
    intro z hz hle
    refine palloc_of_getspace hs hends h0 hpar hle ?_
    by_cases hperm : flags &&& 8 ≠ 0
    · obtain ⟨tz, htz, hne⟩ := hdetail hperm
      exact ⟨tz, htz, .inr hne⟩
    · refine ⟨z, ?_, .inl rfl⟩
      rw [lowZone, highZone, if_neg hperm, if_neg hperm] at hz
      exact hz.symm
  have hr : Request size mallocMinAlign := by
    have h16 : mallocMinAlign.toNat = 16 := rfl
    have hlt := size.toNat_lt
    rw [h16] at hpar
    exact ⟨⟨4, rfl⟩, by rw [h16]; omega⟩
  simp only [pmmAlloc, pmmSpace] at hle ⊢
  split at hle
  · exact hpalloc _ (.inl rfl) hle
  · have hok := hpalloc _ (.inr rfl) hle
    rw [if_neg fun h => hok h.1]
    exact hok
  · rcases Pmm.palloc_cases hs hr (lowZone flags) [] with ⟨hfail, -⟩ | ⟨hok, -⟩
    · have hlow : (p.palloc (lowZone flags) size mallocMinAlign).1 = 0 := congrArg Prod.fst hfail
      rw [if_pos hlow, hfail]
      split at hle
      · exact absurd hlow (hpalloc _ (.inl rfl) hle)
      · exact hpalloc _ (.inr rfl) hle
    · rw [if_neg hok]
      exact hok
  · exact absurd (UInt32.le_zero_iff.mp hle) h0

/-- No more is ever handed out, except that a permanent request above 1 MiB goes on to
the temporary zone. -/
theorem le_space_of_pmmAlloc {p : Pmm} (hs : Sound E p.heap) {flags : UInt16}
    {size align : UInt32} (hr : Request size align)
    (hflags : ¬ ((flags &&& 3).toNat = 2 ∧ flags &&& 8 ≠ 0))
    (hok : (pmmAlloc p flags size align).1 ≠ 0) :
    size.toNat ≤ (pmmSpace p.heap flags).toNat + 48 := by
  have hpalloc : ∀ z, (p.palloc z size align).1 ≠ 0 →
      size.toNat ≤ (mallocGetspace p.heap z).toNat + 48 := by
    intro z hz
    have hle := le_getspace_of_palloc hs hr hz
    have : reserve z ≤ 48 := by
      rw [reserve]
      split <;> omega
    omega
  simp only [pmmAlloc, pmmSpace] at hok ⊢
  split at hok
  · exact hpalloc _ hok
  · next h2 =>
    rw [if_neg fun h => hflags ⟨h2, h.2⟩] at hok
    exact hpalloc _ hok
  · rcases Pmm.palloc_cases hs hr (lowZone flags) [] with ⟨hfail, -⟩ | ⟨hlow, -⟩
    · rw [if_pos (congrArg Prod.fst hfail), hfail] at hok
      have hle := hpalloc _ hok
      split
      · next hgt =>
        have := UInt32.lt_iff_toNat_lt.mp hgt
        omega
      · exact hle
    · have hle := hpalloc _ hlow
      split
      · exact hle
      · next hgt =>
        have := UInt32.le_iff_toNat_le.mp (UInt32.not_lt.mp hgt)
        omega
  · exact absurd rfl hok

/-- A memory size request tells the truth: a block of that many bytes can be had, as
long as there is memory for its record, and no block of more than 48 bytes above that
can. The 48 bytes are those set aside in the temporary zones. -/
theorem pmm_query {calls : List Call} (hc : Preinit calls) {e820 : E820.Table}
    (hw : started S calls e820 = some w) {events : List Event} (he : ∀ e ∈ events, e.Proper)
    {query request : Args} (hq : query 0 = 0) (hq1 : query.u32 1 = 0) (hr : request 0 = 0)
    (hlen : request.u32 1 ≠ 0) (hflags : request 5 = query 5) (hal : query 5 &&& 4 = 0)
    (hsmall : 16 * (request.u32 1).toNat < 2 ^ 31) :
    (16 * (request.u32 1).toNat ≤ (handlePmm (w.after S events).post.toPmm query).1.toNat →
      (query 5 &&& 8 ≠ 0 → ∃ z, (z = .tmpHigh ∨ z = .tmpLow) ∧
        mallocGetspace (w.after S events).post.heap z ≠ 0) →
      (handlePmm (w.after S events).post.toPmm request).1 ≠ 0) ∧
    ((handlePmm (w.after S events).post.toPmm query).1.toNat + 48 <
        16 * (request.u32 1).toNat →
      ¬ ((query 5 &&& 3).toNat = 2 ∧ query 5 &&& 8 ≠ 0) →
      (handlePmm (w.after S events).post.toPmm request).1 = 0) := by
  obtain ⟨E, lo, hin⟩ := started_inPost hc hw
  obtain ⟨lo, hin⟩ := hin.after he
  generalize w.after S events = w at hin ⊢
  have hpos : 0 < (request.u32 1).toNat :=
    Nat.pos_of_ne_zero fun h => hlen (UInt32.toNat_inj.mp h)
  have hsize : (request.u32 1 * 16).toNat = 16 * (request.u32 1).toNat := by
    have h16 : (16 : UInt32).toNat = 16 := rfl
    rw [UInt32.toNat_mul, h16, Nat.mod_eq_of_lt (by omega), Nat.mul_comm]
  have hbad : ¬ (request.u32 1 * 16 = 0 ∨ request.u32 1 * 16 ≥ 0x80000000) := by
    rintro (h | h)
    · rw [h] at hsize
      simp at hsize
      omega
    · have h := UInt32.le_iff_toNat_le.mp h
      rw [hsize] at h
      have : (0x80000000 : UInt32).toNat = 2 ^ 31 := rfl
      omega
  have halign : pmmAlign (request 5) (request.u32 1 * 16) = mallocMinAlign := by
    rw [pmmAlign, hflags, if_neg (by simpa using hal)]
  have hquery : (handlePmm w.post.toPmm query).1 = pmmSpace w.post.heap (query 5) := by
    rw [handlePmm_allocate _ hq]
    simp only [handlePmm00, if_pos hq1]
  rw [handlePmm_allocate _ hr, handlePmm00_fst _ hlen hbad, halign, hquery, hflags]
  obtain ⟨h0, h31⟩ := not_or.mp hbad
  constructor
  · intro hle hdetail
    refine pmmAlloc_of_space hin.sound hin.ends h0 ?_ (UInt32.le_iff_toNat_le.mpr ?_) hdetail
    · rw [hsize]
      exact Nat.dvd_mul_right 16 _
    · rw [hsize]
      exact hle
  · intro hlt hnot
    by_contra hok
    have hreq := (request_pmmAlign (request 5) h0 (UInt32.not_le.mp h31)).1
    rw [halign] at hreq
    have hle := le_space_of_pmmAlloc hin.sound hreq hnot hok
    omega

def sampleQuery : Args := fun i => [0, 0, 0, 0, 0, 2].getD i 0

theorem pmm_query_sample :
    (handlePmm (sampleWorld.after sampleSymbols sampleEvents).post.toPmm sampleQuery).1.toNat =
      65184 ∧
    (handlePmm (sampleWorld.after sampleSymbols sampleEvents).post.toPmm sampleRequest).1 ≠ 0 := by
  have hq : sampleQuery 0 = 0 := rfl
  have hr : sampleRequest 0 = 0 := rfl
  refine ⟨by decide +kernel, (pmm_query sampleCalls_preinit sampleWorld_started sampleEvents_proper
    hq (by decide) hr (by decide) rfl (by decide) (by decide)).1 (by decide +kernel) ?_⟩
  exact fun h => absurd h (by decide)

end CsmWrap.Malloc
