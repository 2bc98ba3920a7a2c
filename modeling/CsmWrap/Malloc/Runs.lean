import CsmWrap.Malloc.Sound

/-!
# Runs of the allocator

A caller who notes which blocks it was given, and strikes out those it gave back,
has at every moment of every run a list of blocks that share no byte with one
another, with the bookkeeping or with memory that was not given to their zone.
The list is also what the allocator goes by: `malloc_pfree` succeeds on its blocks
and on nothing else, and `malloc_findhandle` finds its handles.
-/

namespace CsmWrap.Malloc
open Arena

inductive Call
  | add (z : Zone) (start stop : UInt32)
  | palloc (z : Zone) (size align : UInt32)
  | pfree (data : UInt32)
  | sethandle (data handle : UInt32)
  deriving DecidableEq, Repr

/-- A call, and the value it returns (0 where it returns none). -/
def Call.step (h : Heap) : Call → UInt32 × Heap
  | .add z start stop => (0, allocAdd h z start stop)
  | .palloc z size align => mallocPalloc h z size align
  | .pfree data =>
    match mallocPfree h data with
    | none => (0xffffffff, h)
    | some h => (0, h)
  | .sethandle data handle => (0, mallocSethandle h data handle)

/-- What the caller knows of a block. -/
structure Block where
  zone : Zone
  start : UInt32
  size : UInt32
  align : UInt32
  handle : UInt32
  deriving DecidableEq, Repr

def Block.range (b : Block) : Nat × Nat := (b.start.toNat, b.start.toNat + b.size.toNat)

/-- The caller's books after a call that returned `result`. -/
def Call.book (books : List Block) (result : UInt32) : Call → List Block
  | .add .. => books
  | .palloc z size align =>
    if result = 0 then books else ⟨z, result, size, align, mallocDefaultHandle⟩ :: books
  | .pfree data => if result = 0 then books.filter (·.start ≠ data) else books
  | .sethandle data handle =>
    books.map fun b => if b.start = data then { b with handle } else b

structure Run where
  heap : Heap
  books : List Block

def Run.step (r : Run) (c : Call) : Run :=
  let after := c.step r.heap
  ⟨after.2, c.book r.books after.1⟩

@[simp] theorem Run.heap_add (r : Run) (z : Zone) (start stop : UInt32) :
    (r.step (.add z start stop)).heap = allocAdd r.heap z start stop := rfl

def runFrom (r : Run) (calls : List Call) : Run := calls.foldl Run.step r

def run (calls : List Call) : Run := runFrom ⟨.empty, []⟩ calls

/-- The ranges given to each zone, with those of a call. -/
def Call.give (G : Zone → List (Nat × Nat)) : Call → Zone → List (Nat × Nat)
  | .add z start stop => addRange G z (start.toNat, stop.toNat)
  | _ => G

def given (G : Zone → List (Nat × Nat)) (calls : List Call) : Zone → List (Nat × Nat) :=
  calls.foldl Call.give G

def noRanges : Zone → List (Nat × Nat) := fun _ => []

/-- What the callers keep to: new memory is new, and a request can be met at all. -/
def Call.Proper (G : Zone → List (Nat × Nat)) : Call → Prop
  | .add _ start stop => NewRange G (start.toNat, stop.toNat)
  | .palloc _ size align => Request size align
  | _ => True

def Proper : (Zone → List (Nat × Nat)) → List Call → Prop
  | _, [] => True
  | G, c :: calls => c.Proper G ∧ Proper (c.give G) calls

/-- The books agree with the heap. -/
structure Books (h : Heap) (books : List Block) : Prop where
  live : ∀ b ∈ books, b.size ≠ 0 ∧ b.align.toNat ∣ b.start.toNat ∧
    ∃ d, (.detail d .datainfo, b.start, b.size) ∈ h.stubs b.zone ∧ h.handle d = b.handle
  complete : ∀ z d data size, (.detail d .datainfo, data, size) ∈ h.stubs z → size ≠ 0 →
    ∃ b ∈ books, b.zone = z ∧ b.start = data ∧ b.size = size
  unique : books.Pairwise (·.start ≠ ·.start)
  unnamed : ∀ z d data, (.detail d .datainfo, data, 0) ∈ h.stubs z →
    h.handle d = mallocDefaultHandle

variable {E G : Zone → List (Nat × Nat)} {h h' : Heap} {books : List Block}

/-- The handles of the allocations that were there before. -/
theorem Tracks.handle_eq {z tz z' : Zone} {data size d d' a n : UInt32}
    (hn : Tracks h h' z data size tz d) (hmem : (.detail d' .datainfo, a, n) ∈ h.stubs z') :
    h'.handle d' = h.handle d' := by
  have hne : d' ≠ d := fun he => hn.fresh z' _ hmem .datainfo (by rw [he])
  simp [hn.handle, hne]

theorem Books.palloc (hb : Books h books) (ht : Tiled E h') {z tz : Zone}
    {data size align d : UInt32} (hn : Tracks h h' z data size tz d) (hsize : size ≠ 0)
    (hal : align.toNat ∣ data.toNat) :
    Books h' (⟨z, data, size, align, mallocDefaultHandle⟩ :: books) := by
  have hnew : (.detail d .datainfo, data, size) ∈ h'.stubs z :=
    (hn.mem _ _).mpr (.inr (.inl ⟨rfl, rfl⟩))
  refine ⟨List.forall_mem_cons.mpr ⟨⟨hsize, hal, d, hnew, by simp [hn.handle]⟩, fun b hmem => ?_⟩,
    fun z' d' a n hmem hn0 => ?_, List.pairwise_cons.mpr ⟨fun b hmem => ?_, hb.unique⟩,
    fun z' d' a hmem => ?_⟩
  · obtain ⟨h0, hal', d', hd', hh⟩ := hb.live b hmem
    exact ⟨h0, hal', d', (hn.mem _ _).mpr (.inl hd'), (hn.handle_eq hd').trans hh⟩
  · rcases (hn.mem _ _).mp hmem with hold | ⟨rfl, he⟩ | ⟨-, he⟩
    · obtain ⟨b, hb', hfields⟩ := hb.complete z' d' a n hold hn0
      exact ⟨b, List.mem_cons_of_mem _ hb', hfields⟩
    · obtain ⟨-, rfl, rfl⟩ : d' = d ∧ a = data ∧ n = size := by simpa using he
      exact ⟨_, List.mem_cons_self, rfl, rfl, rfl⟩
    · simp at he
  · obtain ⟨h0, -, d', hd', -⟩ := hb.live b hmem
    intro he
    have hplace := ht.place_eq hnew ((hn.mem _ _).mpr (.inl hd')) hsize h0 he
    exact hn.fresh _ _ hd' .datainfo hplace.symm
  · rcases (hn.mem _ _).mp hmem with hold | ⟨-, he⟩ | ⟨-, he⟩
    · rw [hn.handle_eq hold]
      exact hb.unnamed z' d' a hold
    · exact absurd (congrArg (fun t => t.2.2) he).symm hsize
    · simp at he

/-- New memory is not a block of anybody's. -/
theorem Books.add (hb : Books h books) {z tz : Zone} {start d : UInt32}
    (hn : Tracks h h' z start 0 tz d) : Books h' books := by
  refine ⟨fun b hmem => ?_, fun z' d' a n hmem hn0 => ?_, hb.unique, fun z' d' a hmem => ?_⟩
  · obtain ⟨h0, hal, d', hd', hh⟩ := hb.live b hmem
    exact ⟨h0, hal, d', (hn.mem _ _).mpr (.inl hd'), (hn.handle_eq hd').trans hh⟩
  · rcases (hn.mem _ _).mp hmem with hold | ⟨-, he⟩ | ⟨-, he⟩
    · exact hb.complete z' d' a n hold hn0
    · exact absurd (congrArg (fun t => t.2.2) he) hn0
    · simp at he
  · rcases (hn.mem _ _).mp hmem with hold | ⟨-, he⟩ | ⟨-, he⟩
    · rw [hn.handle_eq hold]
      exact hb.unnamed z' d' a hold
    · obtain ⟨rfl, -⟩ : d' = d ∧ a = start := by simpa using he
      simp [hn.handle]
    · simp at he

theorem Books.pfree (hb : Books h books) (ht : Tiled E h) {z : Zone} {data size d : UInt32}
    (hsize : size ≠ 0) (hmem : (.detail d .datainfo, data, size) ∈ h.stubs z)
    (hh : h'.handle = h.handle)
    (hs : ∀ z, h'.stubs z = (h.stubs z).filter fun s => s.1 ≠ .detail d .datainfo ∧
      s.1 ≠ .detail d .detailinfo) : Books h' (books.filter (·.start ≠ data)) := by
  have hold : ∀ {z' d' a n}, (.detail d' .datainfo, a, n) ∈ h'.stubs z' ↔
      (.detail d' .datainfo, a, n) ∈ h.stubs z' ∧ d' ≠ d := by simp [hs, List.mem_filter]
  refine ⟨fun b hb' => ?_, fun z' d' a n hmem' hn0 => ?_, hb.unique.filter _,
    fun z' d' a hmem' => ?_⟩
  · obtain ⟨hb', hne⟩ := List.mem_filter.mp hb'
    obtain ⟨h0, hal, d', hd', hh'⟩ := hb.live b hb'
    refine ⟨h0, hal, d', hold.mpr ⟨hd', ?_⟩, hh ▸ hh'⟩
    rintro rfl
    have he := (ht.stub_eq hd' hmem rfl).2
    simp only [Prod.mk.injEq, true_and] at he
    simp [he.1] at hne
  · obtain ⟨hmem', hd'⟩ := hold.mp hmem'
    obtain ⟨b, hb', rfl, rfl, rfl⟩ := hb.complete z' d' a n hmem' hn0
    refine ⟨b, List.mem_filter.mpr ⟨hb', decide_eq_true fun he => hd' ?_⟩, rfl, rfl, rfl⟩
    simpa using ht.place_eq hmem' hmem hn0 hsize he
  · rw [hh]
    exact hb.unnamed z' d' a (hold.mp hmem').1

theorem stubs_mallocSethandle (data handle : UInt32) (z : Zone) :
    (mallocSethandle h data handle).stubs z = h.stubs z := by
  unfold mallocSethandle
  split <;> rfl

/-- `malloc_sethandle` changes the handle of the allocation at `data` only. -/
theorem handle_mallocSethandle (hs : Sound E h) (data handle : UInt32) {z : Zone}
    {d a n : UInt32} (hmem : (.detail d .datainfo, a, n) ∈ h.stubs z) :
    (mallocSethandle h data handle).handle d =
      if a = data ∧ n ≠ 0 then handle else h.handle d := by
  cases hf : findDetail h data with
  | none =>
    have hne : ¬ (a = data ∧ n ≠ 0) := by
      rintro ⟨rfl, hn0⟩
      obtain ⟨info, hinfo, -⟩ := findDetail_of_mem hs hmem hn0
      simp [hf] at hinfo
    simp only [mallocSethandle, hf, if_neg hne]
  | some r =>
    obtain ⟨info, d'⟩ := r
    obtain ⟨z', hmem', h0⟩ := live_of_findDetail hs hf
    by_cases hd : d = d'
    · subst hd
      obtain ⟨rfl, rfl⟩ : a = data ∧ n = info.allocSize := by
        simpa using (hs.tiled.stub_eq hmem hmem' rfl).2
      simp [mallocSethandle, hf, h0]
    · have hne : ¬ (a = data ∧ n ≠ 0) := by
        rintro ⟨rfl, hn0⟩
        exact hd (by simpa using hs.tiled.place_eq hmem hmem' hn0 h0 rfl)
      simp [mallocSethandle, hf, hne, hd]

theorem Books.sethandle (hb : Books h books) (hs : Sound E h) (data handle : UInt32) :
    Books (mallocSethandle h data handle)
      (books.map fun b => if b.start = data then { b with handle } else b) := by
  refine ⟨fun b' hb' => ?_, fun z d a n hmem hn0 => ?_, ?_, fun z d a hmem => ?_⟩
  · obtain ⟨b, hbooks, rfl⟩ := List.mem_map.mp hb'
    obtain ⟨h0, hal, d, hd, hh⟩ := hb.live b hbooks
    have hd' := handle_mallocSethandle hs data handle hd
    by_cases he : b.start = data
    · rw [if_pos he]
      exact ⟨h0, hal, d, by rw [stubs_mallocSethandle]; exact hd, by simpa [he, h0] using hd'⟩
    · rw [if_neg he]
      exact ⟨h0, hal, d, by rw [stubs_mallocSethandle]; exact hd, by simpa [he, hh] using hd'⟩
  · rw [stubs_mallocSethandle] at hmem
    obtain ⟨b, hb', rfl, rfl, rfl⟩ := hb.complete z d a n hmem hn0
    exact ⟨_, List.mem_map_of_mem hb', by split <;> exact ⟨rfl, rfl, rfl⟩⟩
  · rw [List.pairwise_map]
    refine hb.unique.imp fun {b c} hne => ?_
    split <;> split <;> exact hne
  · rw [stubs_mallocSethandle] at hmem
    rw [handle_mallocSethandle hs data handle hmem, if_neg (by simp)]
    exact hb.unnamed z d a hmem

/-! ## Whole runs -/

/-- Holds between any two calls: the zones have ranges from those given to them, the
heap is sound over these, and the books agree with it. -/
def Reached (G : Zone → List (Nat × Nat)) (r : Run) : Prop :=
  ∃ E, (∀ z, ∀ e ∈ E z, e ∈ G z ∧ e.1 < e.2) ∧ Sound E r.heap ∧ Books r.heap r.books

theorem NewRange.mono {r : Nat × Nat} (hr : NewRange G r)
    (hE : ∀ z, ∀ e ∈ E z, e ∈ G z ∧ e.1 < e.2) : NewRange E r :=
  ⟨hr.positive, hr.nonempty, fun z e he => hr.apart z e (hE z e he).1⟩

theorem Sound.sethandle (hs : Sound E h) (data handle : UInt32) :
    Sound E (mallocSethandle h data handle) := by
  unfold mallocSethandle
  split
  · exact hs
  · exact ⟨⟨hs.tiled.layout, hs.tiled.positive, hs.tiled.fills, hs.tiled.nodup, hs.tiled.once⟩,
      ⟨hs.tracked.settled, hs.tracked.home, hs.tracked.aligned, hs.tracked.paired⟩⟩

theorem Run.step_eq {r : Run} {c : Call} {v : UInt32} (he : c.step r.heap = (v, h')) :
    r.step c = ⟨h', c.book r.books v⟩ := by
  rw [Run.step, he]

/-- A call that adds no memory: the ranges stay, and so do their bases. -/
theorem sound_step {r : Run} (hs : Sound E r.heap) (hb : Books r.heap r.books) {c : Call}
    (hc : c.Proper G) (hadd : ∀ z start stop, c ≠ .add z start stop) :
    Sound E (r.step c).heap ∧ Books (r.step c).heap (r.step c).books ∧
      ∀ z, ∀ s ∈ r.heap.stubs z, s.2.2 = 0 → s ∈ (r.step c).heap.stubs z := by
  cases c with
  | add z start stop => exact absurd rfl (hadd z start stop)
  | palloc z size align =>
    rcases mallocPalloc_cases hs hc z with hsame | ⟨data, tz, d, h', he, hd, hsize, hal, hs', hn⟩
    · rw [Run.step_eq (c := .palloc z size align) hsame]
      exact ⟨hs, hb, fun _ _ hmem _ => hmem⟩
    · rw [Run.step_eq (c := .palloc z size align) he, Call.book, if_neg hd]
      exact ⟨hs', hb.palloc hs'.tiled hn hsize hal,
        fun z' s hmem _ => (hn.mem z' s).mpr (.inl hmem)⟩
  | pfree data =>
    rcases mallocPfree_cases hs data with ⟨hnone, -⟩ | ⟨z, size, d, h', h0, hmem, he, hs', hh, hst⟩
    · rw [Run.step_eq (by rw [Call.step, hnone])]
      exact ⟨hs, hb, fun _ _ hmem _ => hmem⟩
    · rw [Run.step_eq (by rw [Call.step, he])]
      refine ⟨hs', hb.pfree hs.tiled h0 hmem hh hst, fun z' s hs₀ hs0 => ?_⟩
      rw [hst]
      refine List.mem_filter.mpr ⟨hs₀, decide_eq_true ⟨fun hp => ?_, fun hp => ?_⟩⟩
      · obtain ⟨-, rfl⟩ := hs.tiled.stub_eq hs₀ hmem hp
        exact h0 hs0
      · have hsize := (hs.tracked.home z' s hs₀ d hp).2
        rw [hsize] at hs0
        exact sizeofAllocdetail_ne hs0
  | sethandle data handle =>
    exact ⟨hs.sethandle data handle, hb.sethandle hs data handle,
      fun z s hmem _ => by rwa [show (r.step (.sethandle data handle)).heap.stubs z = r.heap.stubs z
        from stubs_mallocSethandle data handle z]⟩

theorem reached_step {r : Run} (hr : Reached G r) (c : Call) (hc : c.Proper G) :
    Reached (c.give G) (r.step c) := by
  obtain ⟨E, hE, hs, hb⟩ := hr
  have hkeeps := fun hadd => sound_step hs hb hc hadd
  cases c with
  | add z start stop =>
    have hold : ∀ z', ∀ e ∈ E z', e ∈ addRange G z (start.toNat, stop.toNat) z' ∧ e.1 < e.2 :=
      fun z' e he => ⟨mem_addRange.mpr (.inl (hE z' e he).1), (hE z' e he).2⟩
    change Reached _ ⟨allocAdd r.heap z start stop, r.books⟩
    rcases allocAdd_cases hs (fun z e he => (hE z e he).2) z (hc.mono hE) with
      ⟨-, hsame⟩ | ⟨tz, d, hs', hn⟩
    · rw [hsame]
      exact ⟨E, hold, hs, hb⟩
    · refine ⟨_, fun z' e he => ?_, hs', hb.add hn⟩
      rcases mem_addRange.mp he with he | he
      · exact hold z' e he
      · exact ⟨mem_addRange.mpr (.inr he), he.2 ▸ hc.nonempty⟩
  | palloc => exact ⟨E, hE, (hkeeps (by simp)).1, (hkeeps (by simp)).2.1⟩
  | pfree => exact ⟨E, hE, (hkeeps (by simp)).1, (hkeeps (by simp)).2.1⟩
  | sethandle => exact ⟨E, hE, (hkeeps (by simp)).1, (hkeeps (by simp)).2.1⟩

theorem reached_runFrom {r : Run} (hr : Reached G r) {calls : List Call} (hc : Proper G calls) :
    Reached (given G calls) (runFrom r calls) := by
  induction calls generalizing G r with
  | nil => exact hr
  | cons c calls ih => exact ih (reached_step hr c hc.1) hc.2

theorem reached_empty : Reached noRanges ⟨.empty, []⟩ := by
  refine ⟨noRanges, by simp [noRanges], ⟨⟨⟨?_, ?_, ?_⟩, ?_, ?_, ?_, ?_⟩, ?_, ?_, ?_, ?_⟩,
    ?_, ?_, ?_, ?_⟩
  all_goals simp [noRanges, Descending, Heap.empty, Heap.stubs, stubs, view, Fills.nil]

theorem reached_run {calls : List Call} (hc : Proper noRanges calls) :
    Reached (given noRanges calls) (run calls) :=
  reached_runFrom reached_empty hc

/-- Two blocks share no byte. -/
theorem Books.apart (hb : Books h books) (ht : Tiled E h) :
    books.Pairwise fun b c => Apart b.range c.range := by
  refine hb.unique.imp_of_mem fun {b c} hbm hcm hne => ?_
  obtain ⟨-, -, d, hd, -⟩ := hb.live b hbm
  obtain ⟨-, -, d', hd', -⟩ := hb.live c hcm
  refine ht.apart hd hd' fun he => hne ?_
  exact congrArg (fun t => t.2.1) (ht.stub_eq hd hd' he).2

theorem Books.in_zone (hb : Books h books) (ht : Tiled E h) {b : Block} (hbm : b ∈ books) :
    ∃ e ∈ E b.zone, e.1 ≤ b.range.1 ∧ b.range.2 ≤ e.2 := by
  obtain ⟨-, -, d, hd, -⟩ := hb.live b hbm
  obtain ⟨c, hc, -, hlo, hu, hle⟩ := ht.chunk hd
  obtain ⟨e, he, h1, h2⟩ := (ht.fills b.zone).mem_range c hc
  simp only at hlo hu
  refine ⟨e, he, ?_, ?_⟩ <;> simp only [Block.range] <;> omega

/-- The memory of an `allocdetail_s`. -/
def detailRange (d : UInt32) : Nat × Nat := (d.toNat, d.toNat + sizeofAllocdetail.toNat)

/-- Every `allocdetail_s` in use is itself a piece of allocated memory. -/
theorem Sound.detail_stub (hs : Sound E h) {z : Zone} {info : AllocInfo}
    (hinfo : info ∈ h.zone z) {d : UInt32} {p : Part} (hp : info.place = .detail d p) :
    ∃ z', ∃ s ∈ h.stubs z', s.1 = .detail d .detailinfo ∧ s.2 = (d, sizeofAllocdetail) := by
  obtain ⟨z', s, hs', hps⟩ : ∃ z, ∃ s ∈ h.stubs z, s.1 = .detail d .detailinfo := by
    cases p with
    | detailinfo => exact ⟨z, _, List.mem_map_of_mem hinfo, hp⟩
    | datainfo => exact (hs.tracked.paired d).mp ⟨z, _, List.mem_map_of_mem hinfo, hp⟩
  obtain ⟨-, hsd⟩ := hs.tracked.home z' s hs' d hps
  exact ⟨z', s, hs', hps, hsd⟩

theorem Books.apart_detail (hb : Books h books) (hs : Sound E h) {b : Block} (hbm : b ∈ books)
    {z : Zone} {info : AllocInfo} (hinfo : info ∈ h.zone z) {d : UInt32} {p : Part}
    (hp : info.place = .detail d p) : Apart b.range (detailRange d) := by
  obtain ⟨-, -, d', hd', -⟩ := hb.live b hbm
  obtain ⟨z', s, hs', hps, hsd⟩ := hs.detail_stub hinfo hp
  have hap := hs.tiled.apart hd' hs' (by rw [hps]; simp)
  rw [hsd] at hap
  exact hap

/-- Two records share no byte. -/
theorem Sound.details_apart (hs : Sound E h) {z z' : Zone} {info info' : AllocInfo}
    (hinfo : info ∈ h.zone z) (hinfo' : info' ∈ h.zone z') {d d' : UInt32} {p p' : Part}
    (hp : info.place = .detail d p) (hp' : info'.place = .detail d' p') (hne : d ≠ d') :
    Apart (detailRange d) (detailRange d') := by
  obtain ⟨y, s, hmem, hps, hsd⟩ := hs.detail_stub hinfo hp
  obtain ⟨y', s', hmem', hps', hsd'⟩ := hs.detail_stub hinfo' hp'
  have hap := hs.tiled.apart hmem hmem' (by rw [hps, hps']; simpa using hne)
  rw [hsd, hsd'] at hap
  exact hap

/-- Whatever was allocated, released and added before: the blocks in the caller's
hands are aligned as asked, lie in memory given to their zone, and overlap neither
one another nor the records the allocator keeps. -/
theorem run_blocks {calls : List Call} (hc : Proper noRanges calls) :
    ((run calls).books.Pairwise fun b c => Apart b.range c.range) ∧
    (∀ b ∈ (run calls).books, b.align.toNat ∣ b.start.toNat ∧
      ∃ g ∈ given noRanges calls b.zone, g.1 ≤ b.range.1 ∧ b.range.2 ≤ g.2) ∧
    ∀ b ∈ (run calls).books, ∀ z, ∀ info ∈ (run calls).heap.zone z, ∀ d p,
      info.place = .detail d p → Apart b.range (detailRange d) := by
  obtain ⟨E, hE, hs, hb⟩ := reached_run hc
  refine ⟨hb.apart hs.tiled, fun b hbm => ⟨(hb.live b hbm).2.1, ?_⟩, ?_⟩
  · obtain ⟨e, he, hin⟩ := hb.in_zone hs.tiled hbm
    exact ⟨e, (hE _ e he).1, hin⟩
  · intro b hbm z info hinfo d p hp
    exact hb.apart_detail hs hbm hinfo hp

def twoBlocks : List Call :=
  [.add .tmpHigh 0x100000 0x110000, .palloc .tmpHigh 64 4096, .palloc .tmpHigh 256 16]

theorem twoBlocks_proper : Proper noRanges twoBlocks :=
  ⟨⟨by decide, by decide, by simp [noRanges]⟩, ⟨⟨12, rfl⟩, by decide⟩, ⟨⟨4, rfl⟩, by decide⟩,
    trivial⟩

theorem run_blocks_two :
    (run twoBlocks).books.map Block.range = [(0x10fea0, 0x10ffa0), (0x10f000, 0x10f040)] ∧
    ((run twoBlocks).books.Pairwise fun b c => Apart b.range c.range) :=
  ⟨by decide +kernel, (run_blocks twoBlocks_proper).1⟩

/-- `malloc_pfree` succeeds exactly on the blocks in the caller's hands, and a call
that fails leaves the heap as it was. -/
theorem run_failures {calls : List Call} (hc : Proper noRanges calls) :
    (∀ data, (mallocPfree (run calls).heap data).isSome ↔
      ∃ b ∈ (run calls).books, b.start = data) ∧
    ∀ z size align, Request size align → (mallocPalloc (run calls).heap z size align).1 = 0 →
      (mallocPalloc (run calls).heap z size align).2 = (run calls).heap := by
  obtain ⟨E, hE, hs, hb⟩ := reached_run hc
  constructor
  · intro data
    rcases mallocPfree_cases hs data with ⟨hnone, hdead⟩ | ⟨z, size, d, h', h0, hmem, he, -⟩
    · refine iff_of_false (by simp [hnone]) ?_
      rintro ⟨b, hbm, rfl⟩
      obtain ⟨hb0, -, d, hd, -⟩ := hb.live b hbm
      exact hdead b.zone b.size ⟨hb0, d, hd⟩
    · refine iff_of_true (by simp [he]) ?_
      obtain ⟨b, hbm, -, hstart, -⟩ := hb.complete z d data size hmem h0
      exact ⟨b, hbm, hstart⟩
  · intro z size align hr h0
    rcases mallocPalloc_cases hs hr z with hsame | ⟨data, tz, d, h', he, hd, -⟩
    · rw [hsame]
    · rw [he] at h0
      exact absurd h0 hd

theorem run_failures_two :
    (mallocPfree (run twoBlocks).heap 0x10f000).isSome ∧
    ¬ (mallocPfree (run twoBlocks).heap 0x10f010).isSome :=
  ⟨((run_failures twoBlocks_proper).1 _).mpr (by decide +kernel),
    fun h => absurd (((run_failures twoBlocks_proper).1 _).mp h) (by decide +kernel)⟩

/-- `malloc_findhandle` looks at the nodes of bookkeeping memory only. -/
theorem Sound.detailinfo_of_phys (hs : Sound E h) {z : Zone} {info : AllocInfo}
    (hinfo : info ∈ h.zone z) (hp : info.place.phys = some info.rangeStart) :
    info.place = .detail info.rangeStart .detailinfo := by
  have hmem : info.stub ∈ h.stubs z := List.mem_map_of_mem hinfo
  obtain ⟨d, p, hd⟩ := hs.tracked.settled z _ hmem
  have hd : info.place = .detail d p := hd
  cases p with
  | detailinfo => simpa [hd, Place.phys, eq_comm] using hp
  | datainfo =>
    have hstart : d + sizeofAllocinfo = info.rangeStart := by simpa [hd, Place.phys] using hp
    rw [AllocInfo.stub, hd] at hmem
    exact absurd hstart.symm (hs.start_ne_phys hmem)

theorem dataStart_eq (ht : Tiled E h) {z : Zone} {d data size : UInt32}
    (hmem : (.detail d .datainfo, data, size) ∈ h.stubs z) : h.dataStart d = data := by
  obtain ⟨info, hinfo, he⟩ := List.mem_map.mp hmem
  have hplace : info.place = .detail d .datainfo := congrArg Prod.fst he
  rw [Heap.dataStart, ← hplace, ht.node_eq hinfo]
  exact congrArg (fun t => t.2.1) he

theorem Sound.start_ne_zero (ht : Tiled E h) {z : Zone} {s : Stub} (hs : s ∈ h.stubs z) :
    s.2.1 ≠ 0 := by
  obtain ⟨c, hc, -, hlo, -⟩ := ht.chunk hs
  obtain ⟨e, he, hle, -⟩ := (ht.fills z).mem_range c hc
  have hpos := ht.positive z e he
  intro h0
  rw [h0] at hlo
  simp only [UInt32.toNat_zero] at hlo
  omega

/-- The block of the books with a given `allocdetail_s`. -/
theorem Books.of_handle (hb : Books h books) (hs : Sound E h) {z : Zone} {d : UInt32} {s : Stub}
    (hmem : s ∈ h.stubs z) (hp : s.1 = .detail d .detailinfo)
    (hh : h.handle d ≠ mallocDefaultHandle) :
    ∃ b ∈ books, b.handle = h.handle d ∧ h.dataStart d = b.start := by
  obtain ⟨z', ⟨p, data, size⟩, hdata, rfl⟩ := (hs.tracked.paired d).mpr ⟨z, s, hmem, hp⟩
  have hsize : size ≠ 0 := by
    rintro rfl
    exact hh (hb.unnamed z' d data hdata)
  obtain ⟨b, hbm, rfl, rfl, rfl⟩ := hb.complete z' d data size hdata hsize
  obtain ⟨h0, -, d', hd', hhd'⟩ := hb.live b hbm
  obtain rfl : d' = d := by simpa using hs.tiled.place_eq hd' hdata h0 hsize rfl
  exact ⟨b, hbm, hhd'.symm, dataStart_eq hs.tiled hdata⟩

/-- A handle other than the default one finds a block that carries it, as long as
there is one. -/
theorem findhandle_spec (hs : Sound E h) (hb : Books h books) {handle : UInt32}
    (hh : handle ≠ mallocDefaultHandle) :
    (mallocFindhandle h handle = 0 ↔ ∀ b ∈ books, b.handle ≠ handle) ∧
    (mallocFindhandle h handle ≠ 0 →
      ∃ b ∈ books, b.handle = handle ∧ b.start = mallocFindhandle h handle) := by
  unfold mallocFindhandle
  cases hf : h.nodes.find? fun info =>
      info.place.phys = some info.rangeStart ∧ h.handle info.rangeStart = handle with
  | none =>
    refine ⟨iff_of_true rfl fun b hbm he => ?_, fun h0 => absurd rfl h0⟩
    obtain ⟨-, -, d, hd, hhd⟩ := hb.live b hbm
    obtain ⟨z, s, hs', hp⟩ := (hs.tracked.paired d).mp ⟨_, _, hd, rfl⟩
    obtain ⟨-, hsd⟩ := hs.tracked.home z s hs' d hp
    obtain ⟨info, hinfo, rfl⟩ := List.mem_map.mp hs'
    have hplace : info.place = .detail d .detailinfo := hp
    have hstart : info.rangeStart = d := congrArg Prod.fst hsd
    have := List.find?_eq_none.mp hf info (mem_nodes.mpr ⟨z, hinfo⟩)
    simp [hplace, hstart, Place.phys, hhd, he] at this
  | some info =>
    obtain ⟨z, hz⟩ := mem_nodes.mp (List.mem_of_find?_eq_some hf)
    obtain ⟨hphys, hhandle⟩ : info.place.phys = some info.rangeStart ∧
        h.handle info.rangeStart = handle := by simpa using List.find?_some hf
    have hplace := hs.detailinfo_of_phys hz hphys
    obtain ⟨b, hbm, hbh, hstart⟩ := hb.of_handle hs (List.mem_map_of_mem hz) hplace
      (by rw [hhandle]; exact hh)
    obtain ⟨-, -, d, hd, -⟩ := hb.live b hbm
    have hne : h.dataStart info.rangeStart ≠ 0 := hstart ▸ Sound.start_ne_zero hs.tiled hd
    refine ⟨iff_of_false hne ?_, fun _ => ⟨b, hbm, hbh.trans hhandle, hstart.symm⟩⟩
    intro hall
    exact hall b hbm (hbh.trans hhandle)

/-! ## Nothing is left behind -/

/-- Whether a node was in the heap. -/
def Heap.has (h : Heap) (p : Place) : Bool := zones.any fun z => (h.stubs z).any (·.1 = p)

theorem has_iff {p : Place} : h.has p = true ↔ ∃ z, ∃ s ∈ h.stubs z, s.1 = p := by
  simp [Heap.has, mem_zones]

/-- `h'` still has the nodes of `h`, in their order, and no other base. -/
structure Keeps (h h' : Heap) : Prop where
  kept : ∀ z, (h'.stubs z).filter (fun s => h.has s.1) = h.stubs z
  bases : ∀ z, ∀ s ∈ h'.stubs z, s.2.2 = 0 → s ∈ h.stubs z

theorem Keeps.mem {z : Zone} {s : Stub} (hk : Keeps h h') (hs : s ∈ h.stubs z) :
    s ∈ h'.stubs z := by
  rw [← hk.kept] at hs
  exact (List.mem_filter.mp hs).1

/-- Nodes that were not there before come and go without a trace. -/
theorem filter_has {L : List Stub} {d : UInt32} (hd : ∀ p, h.has (.detail d p) = false) :
    (L.filter fun s => s.1 ≠ .detail d .datainfo ∧ s.1 ≠ .detail d .detailinfo).filter
      (fun s => h.has s.1) = L.filter fun s => h.has s.1 := by
  rw [List.filter_filter]
  refine List.filter_congr fun s _ => ?_
  cases hs : h.has s.1 with
  | false => rfl
  | true =>
    have hne : ∀ p, s.1 ≠ .detail d p := by
      intro p he
      rw [he, hd p] at hs
      cases hs
    simp [hne]

theorem Keeps.palloc {h₀ : Heap} {z tz : Zone} {data size d : UInt32} (hk : Keeps h₀ h)
    (hn : Tracks h h' z data size tz d) (hsize : size ≠ 0) : Keeps h₀ h' := by
  have hnew : ∀ p, h₀.has (.detail d p) = false := by
    intro p
    rw [Bool.eq_false_iff]
    intro hp
    obtain ⟨z', s, hs, he⟩ := has_iff.mp hp
    exact hn.fresh z' s (hk.mem hs) p he
  refine ⟨fun z' => ?_, fun z' s hs h0 => ?_⟩
  · rw [← filter_has hnew, hn.kept, hk.kept]
  · rcases (hn.mem _ _).mp hs with hs | ⟨-, rfl⟩ | ⟨-, rfl⟩
    · exact hk.bases z' s hs h0
    · exact absurd h0 hsize
    · exact absurd h0 sizeofAllocdetail_ne

theorem Keeps.pfree {h₀ : Heap} {d : UInt32} (hk : Keeps h₀ h)
    (hnew : ∀ p, h₀.has (.detail d p) = false)
    (hs : ∀ z, h'.stubs z = (h.stubs z).filter fun s => s.1 ≠ .detail d .datainfo ∧
      s.1 ≠ .detail d .detailinfo) : Keeps h₀ h' := by
  refine ⟨fun z => ?_, fun z s hmem h0 => ?_⟩
  · rw [hs, filter_has hnew, hk.kept]
  · rw [hs] at hmem
    exact hk.bases z s (List.mem_filter.mp hmem).1 h0

theorem run_append (calls calls' : List Call) :
    run (calls ++ calls') = runFrom (run calls) calls' := List.foldl_append

theorem proper_append {calls calls' : List Call} :
    Proper G (calls ++ calls') ↔ Proper G calls ∧ Proper (given G calls) calls' := by
  induction calls generalizing G with
  | nil => simp [Proper, given]
  | cons c calls ih => simp [Proper, ih, given, and_assoc]

/-- Calls that add no memory and release no block of the start keep its nodes. -/
theorem keeps_runFrom {h₀ : Heap} {r : Run} {calls : List Call} (hp : Tracked h₀)
    (hk : Keeps h₀ r.heap) (hs : Sound E r.heap) (hc : Proper G calls)
    (hadd : ∀ z start stop, .add z start stop ∉ calls)
    (hfree : ∀ data, .pfree data ∈ calls → ∀ z size, ¬ h₀.Live z data size) :
    Keeps h₀ (runFrom r calls).heap ∧ Sound E (runFrom r calls).heap := by
  induction calls generalizing r G with
  | nil => exact ⟨hk, hs⟩
  | cons c calls ih =>
    suffices hstep : Keeps h₀ (r.step c).heap ∧ Sound E (r.step c).heap from
      ih hstep.1 hstep.2 hc.2 (fun z a b hm => hadd z a b (List.mem_cons_of_mem _ hm))
        fun data hm => hfree data (List.mem_cons_of_mem _ hm)
    cases c with
    | add z start stop => exact absurd List.mem_cons_self (hadd z start stop)
    | palloc z size align =>
      rcases mallocPalloc_cases hs hc.1 z with hsame | ⟨data, tz, d, h', he, hd, h0, -, hs', hn⟩
      · rw [Run.step_eq (c := .palloc z size align) hsame]
        exact ⟨hk, hs⟩
      · rw [Run.step_eq (c := .palloc z size align) he]
        exact ⟨hk.palloc hn h0, hs'⟩
    | pfree data =>
      rcases mallocPfree_cases hs data with ⟨hnone, -⟩ | ⟨z, size, d, h', h0, hmem, he, hs', -, hst⟩
      · rw [Run.step_eq (by rw [Call.step, hnone])]
        exact ⟨hk, hs⟩
      · rw [Run.step_eq (by rw [Call.step, he])]
        refine ⟨hk.pfree (fun p => ?_) hst, hs'⟩
        rw [Bool.eq_false_iff]
        intro hhas
        obtain ⟨z', s, hs₀, hp₀⟩ : ∃ z, ∃ s ∈ h₀.stubs z, s.1 = .detail d .datainfo := by
          cases p with
          | datainfo => exact has_iff.mp hhas
          | detailinfo => exact (hp.paired d).mpr (has_iff.mp hhas)
        obtain ⟨rfl, rfl⟩ := hs.tiled.stub_eq (hk.mem hs₀) hmem hp₀
        exact hfree data List.mem_cons_self _ _ ⟨h0, d, hs₀⟩
    | sethandle data handle =>
      refine ⟨⟨fun z => ?_, fun z => ?_⟩, hs.sethandle data handle⟩
      · exact (congrArg _ (stubs_mallocSethandle data handle z)).trans (hk.kept z)
      · intro s hmem
        rw [show (r.step (.sethandle data handle)).heap.stubs z = r.heap.stubs z from
          stubs_mallocSethandle data handle z] at hmem
        exact hk.bases z s hmem

/-- Once every block that was allocated since is released again, in whatever order,
the zones are node for node what they were: nothing leaks, and no free range stays
cut in two. -/
theorem run_restores {before calls : List Call} (hc : Proper noRanges (before ++ calls))
    (hadd : ∀ z start stop, .add z start stop ∉ calls)
    (hfree : ∀ data, .pfree data ∈ calls → ∀ b ∈ (run before).books, b.start ≠ data)
    (hdone : ∀ b ∈ (run (before ++ calls)).books, ∃ b₀ ∈ (run before).books,
      b₀.start = b.start) :
    (run (before ++ calls)).heap.zone = (run before).heap.zone := by
  obtain ⟨hc₀, hc₁⟩ := proper_append.mp hc
  obtain ⟨E, -, hs₀, hb₀⟩ := reached_run hc₀
  obtain ⟨-, -, -, hb₁⟩ := reached_run hc
  have hself : Keeps (run before).heap (run before).heap :=
    ⟨fun z => List.filter_eq_self.mpr fun s hs => has_iff.mpr ⟨z, s, hs, rfl⟩, fun _ _ hs _ => hs⟩
  obtain ⟨hk, hs₁⟩ := keeps_runFrom hs₀.tracked hself hs₀ hc₁ hadd fun data hm z size hlive => by
    obtain ⟨h0, d, hd⟩ := hlive
    obtain ⟨b, hbm, -, hstart, -⟩ := hb₀.complete z d data size hd h0
    exact hfree data hm b hbm hstart
  rw [← run_append] at hk hs₁
  refine hs₁.tiled.zone_eq hs₀.tiled fun z => ?_
  rw [← hk.kept z]
  refine (List.filter_eq_self.mpr fun s hs => has_iff.mpr ?_).symm
  -- an `allocdetail_s` of the end was there at the start
  obtain ⟨d, p, hp⟩ := hs₁.tracked.settled z s hs
  obtain ⟨z', ⟨q, data, size⟩, hdata, rfl⟩ :
      ∃ z, ∃ s ∈ (run (before ++ calls)).heap.stubs z, s.1 = .detail d .datainfo := by
    cases p with
    | datainfo => exact ⟨z, s, hs, hp⟩
    | detailinfo => exact (hs₁.tracked.paired d).mpr ⟨z, s, hs, hp⟩
  have hold : ∃ z, ∃ s ∈ (run before).heap.stubs z, s.1 = .detail d .datainfo := by
    by_cases h0 : size = 0
    · subst h0
      exact ⟨z', _, hk.bases z' _ hdata rfl, rfl⟩
    · obtain ⟨b, hbm, -, hstart, -⟩ := hb₁.complete z' d data size hdata h0
      obtain ⟨b₀, hbm₀, hstart₀⟩ := hdone b hbm
      obtain ⟨h0', -, d₀, hd₀, -⟩ := hb₀.live b₀ hbm₀
      have hplace := hs₁.tiled.place_eq (hk.mem hd₀) hdata h0' h0 (hstart₀.trans hstart)
      exact ⟨_, _, hd₀, hplace⟩
  cases p with
  | datainfo => exact hp ▸ hold
  | detailinfo => exact hp ▸ (hs₀.tracked.paired d).mp hold

theorem run_restores_two :
    (run (twoBlocks ++ [.palloc .tmpHigh 32 16, .pfree 0x10fe50])).heap.zone =
      (run twoBlocks).heap.zone := by
  refine run_restores ?_ (by simp) ?_ (by decide +kernel)
  · exact proper_append.mpr ⟨twoBlocks_proper, ⟨⟨4, rfl⟩, by decide⟩, trivial, trivial⟩
  · intro data hd
    obtain rfl : data = 0x10fe50 := by simpa using hd
    decide +kernel

end CsmWrap.Malloc
