import CsmWrap.Malloc.Runs

/-!
# How much memory can be had

`malloc_getspace` answers before an allocation what the allocation will get. The
answer is right because every node ends on a paragraph: then an allocation of whole
paragraphs loses nothing to alignment, and the 48 bytes set aside in a temporary zone
are enough for the bookkeeping.
-/

namespace CsmWrap.Malloc
open Arena

variable {E G : Zone → List (Nat × Nat)} {h : Heap}

/-- Calls as SeaBIOS makes them: ranges end on paragraphs, and no block is aligned to
less than a paragraph. -/
def Call.Paragraph : Call → Prop
  | .add _ _ stop => mallocMinAlign.toNat ∣ stop.toNat
  | .palloc _ _ align => mallocMinAlign.toNat ∣ align.toNat
  | _ => True

/-- The calls once all memory has been added. -/
def Call.Plain : Call → Prop
  | .add .. => False
  | .palloc _ size align => Request size align ∧ mallocMinAlign.toNat ∣ align.toNat
  | _ => True

theorem Call.Plain.proper {c : Call} (hc : c.Plain) (G : Zone → List (Nat × Nat)) :
    c.Proper G ∧ c.Paragraph ∧ ∀ z start stop, c ≠ .add z start stop := by
  cases c with
  | add => cases hc
  | palloc => exact ⟨hc.1, hc.2, by simp⟩
  | pfree => exact ⟨trivial, trivial, by simp⟩
  | sethandle => exact ⟨trivial, trivial, by simp⟩

theorem books_paragraph {r : Run} {calls : List Call} (hp : ∀ c ∈ calls, c.Paragraph)
    (hr : ∀ b ∈ r.books, mallocMinAlign.toNat ∣ b.align.toNat) :
    ∀ b ∈ (runFrom r calls).books, mallocMinAlign.toNat ∣ b.align.toNat := by
  induction calls generalizing r with
  | nil => exact hr
  | cons c calls ih =>
    obtain ⟨hc, hp⟩ := List.forall_mem_cons.mp hp
    refine ih hp ?_
    rw [Run.step]
    intro b hb
    cases c with
    | add z start stop => exact hr b hb
    | palloc z size align =>
      simp only [Call.book] at hb
      split at hb
      · exact hr b hb
      · obtain rfl | hb := List.mem_cons.mp hb
        · exact hc
        · exact hr b hb
    | pfree data =>
      simp only [Call.book] at hb
      split at hb
      · exact hr b (List.mem_filter.mp hb).1
      · exact hr b hb
    | sethandle data handle =>
      obtain ⟨b, hold, rfl⟩ := List.mem_map.mp hb
      split <;> exact hr b hold

theorem given_paragraph {calls : List Call} (hp : ∀ c ∈ calls, c.Paragraph)
    (hG : ∀ z, ∀ e ∈ G z, mallocMinAlign.toNat ∣ e.2) :
    ∀ z, ∀ e ∈ given G calls z, mallocMinAlign.toNat ∣ e.2 := by
  induction calls generalizing G with
  | nil => exact hG
  | cons c calls ih =>
    obtain ⟨hc, hp⟩ := List.forall_mem_cons.mp hp
    refine ih hp fun z e he => ?_
    cases c with
    | add z' start stop =>
      rcases mem_addRange.mp he with he | ⟨-, rfl⟩
      · exact hG z e he
      · exact hc
    | _ => exact hG z e he

/-- Ends of nodes are ends of ranges or beginnings of blocks and records. -/
theorem Sound.ends (hs : Sound E h) {books : List Block} (hb : Books h books)
    (hE : ∀ z, ∀ e ∈ E z, mallocMinAlign.toNat ∣ e.2)
    (hbooks : ∀ b ∈ books, mallocMinAlign.toNat ∣ b.align.toNat) (z : Zone) :
    ∀ c ∈ view (h.zone z), mallocMinAlign.toNat ∣ c.hi := by
  intro c hc
  rcases (hs.tiled.fills z).hi_cases c hc with ⟨e, he, hhi⟩ | ⟨d, hd, hdu, hhi⟩
  · exact hhi ▸ hE z e he
  · rw [hhi]
    obtain ⟨info, hinfo, rfl⟩ := List.mem_map.mp hd
    have hmem : info.stub ∈ h.stubs z := List.mem_map_of_mem hinfo
    obtain ⟨a, p, hp⟩ := hs.tracked.settled z _ hmem
    cases p with
    | detailinfo =>
      have hstart : info.rangeStart = a := congrArg Prod.fst (hs.tracked.home z _ hmem a hp).2
      have hal := hs.tracked.aligned z _ hmem a _ hp
      rwa [← hstart] at hal
    | datainfo =>
      have hp : info.place = .detail a .datainfo := hp
      rw [AllocInfo.stub, hp] at hmem
      have hsize : info.allocSize ≠ 0 := by
        intro h0
        simp [AllocInfo.chunk, h0] at hdu
      obtain ⟨b, hbm, -, hstart, -⟩ := hb.complete z a _ _ hmem hsize
      have hal := (hbooks b hbm).trans (hb.live b hbm).2.1
      rwa [hstart] at hal

theorem space_toNat {info : AllocInfo}
    (hinfo : info.chunk.lo + info.chunk.used ≤ info.chunk.hi) :
    info.space.toNat = info.chunk.space := by
  simp only [AllocInfo.space, AllocInfo.chunk, Chunk.space] at hinfo ⊢
  have h1 : info.rangeStart ≤ info.rangeEnd := UInt32.le_iff_toNat_le.mpr (by omega)
  have h2 : (info.rangeEnd - info.rangeStart).toNat =
      info.rangeEnd.toNat - info.rangeStart.toNat := UInt32.toNat_sub_of_le _ _ h1
  rw [UInt32.toNat_sub_of_le _ _ (UInt32.le_iff_toNat_le.mpr (by omega)), h2]
  omega

/-- The loop returns the largest free space of a node. -/
theorem maxSpace_spec {l : List AllocInfo} (hl : ∀ c ∈ view l, c.lo + c.used ≤ c.hi)
    (m : UInt32) : m ≤ maxSpace l m ∧ (∀ c ∈ view l, c.space ≤ (maxSpace l m).toNat) ∧
    (maxSpace l m = m ∨ ∃ c ∈ view l, c.space = (maxSpace l m).toNat) := by
  induction l generalizing m with
  | nil => exact ⟨UInt32.le_refl m, by simp [view], .inl rfl⟩
  | cons info l ih =>
    obtain ⟨hinfo, hl⟩ := List.forall_mem_cons.mp hl
    have hspace := space_toNat hinfo
    simp only [view, List.map_cons, List.forall_mem_cons, UInt32.le_iff_toNat_le] at ih ⊢
    by_cases hgt : info.space > m
    · have e : maxSpace (info :: l) m = maxSpace l info.space := by simp [maxSpace, hgt]
      obtain ⟨h1, h2, h3⟩ := ih hl info.space
      have hlt := UInt32.lt_iff_toNat_lt.mp hgt
      rw [e]
      refine ⟨by omega, ⟨by omega, h2⟩, .inr ?_⟩
      rcases h3 with h3 | ⟨c, hc, h3⟩
      · exact ⟨_, List.mem_cons_self, by rw [h3, hspace]⟩
      · exact ⟨c, List.mem_cons_of_mem _ hc, h3⟩
    · have e : maxSpace (info :: l) m = maxSpace l m := by simp [maxSpace, hgt]
      obtain ⟨h1, h2, h3⟩ := ih hl m
      have hle := mt UInt32.lt_iff_toNat_lt.mpr hgt
      rw [e]
      refine ⟨h1, ⟨by omega, h2⟩, h3.imp_right ?_⟩
      rintro ⟨c, hc, h3⟩
      exact ⟨c, List.mem_cons_of_mem _ hc, h3⟩

/-- The bytes `malloc_getspace` sets aside for bookkeeping. -/
def reserve (z : Zone) : Nat := if z = .tmpHigh ∨ z = .tmpLow then 48 else 0

theorem mallocGetspace_toNat (h : Heap) (z : Zone) :
    (mallocGetspace h z).toNat = (maxSpace (h.zone z) 0).toNat - reserve z := by
  have h48 : align sizeofAllocdetail mallocMinAlign = 48 := by decide
  simp only [mallocGetspace, h48, reserve]
  generalize maxSpace (h.zone z) 0 = m
  by_cases hz : z = .tmpHigh ∨ z = .tmpLow
  · rw [if_neg (by rw [← not_or]; exact fun h => h hz), if_pos hz]
    split
    · next hle =>
      have := UInt32.le_iff_toNat_le.mp hle
      simp at this ⊢
      omega
    · next hle =>
      exact UInt32.toNat_sub_of_le _ _ (UInt32.le_of_lt (UInt32.not_le.mp hle))
  · rw [if_pos (not_or.mp hz), if_neg hz]
    simp

/-- Three paragraphs hold an `allocdetail_s`. -/
theorem fits_detail {c : Chunk Place} (hhi : mallocMinAlign.toNat ∣ c.hi) (hc : 48 ≤ c.space) :
    c.Fits sizeofAllocdetail.toNat mallocMinAlign.toNat := by
  have h16 : mallocMinAlign.toNat = 16 := rfl
  have h44 : sizeofAllocdetail.toNat = 44 := rfl
  rw [h16] at hhi
  simp only [Chunk.space, Chunk.Fits, Chunk.cut, h16, h44] at hc ⊢
  omega

/-- With that much free space in one node, an allocation of whole paragraphs succeeds. -/
theorem palloc_of_space (hs : Sound E h) {z : Zone} {size : UInt32}
    (hends : ∀ z, ∀ c ∈ view (h.zone z), mallocMinAlign.toNat ∣ c.hi) (hsize : size ≠ 0)
    (hpar : mallocMinAlign.toNat ∣ size.toNat)
    (hroom : ∃ c ∈ view (h.zone z), size.toNat + reserve z ≤ c.space)
    (hdetail : ∃ tz, (tz = .tmpHigh ∨ tz = .tmpLow) ∧
      (tz = z ∨ ∃ c ∈ view (h.zone tz), 48 ≤ c.space)) :
    (mallocPalloc h z size mallocMinAlign).1 ≠ 0 := by
  have hpos : 0 < size.toNat := Nat.pos_of_ne_zero fun h0 => hsize (UInt32.toNat_inj.mp h0)
  obtain ⟨c, hc, hspace⟩ := hroom
  have hr : Request size mallocMinAlign := by
    refine ⟨⟨4, by decide⟩, ?_⟩
    obtain ⟨info, -, rfl⟩ := List.mem_map.mp hc
    have := info.rangeEnd.toNat_lt
    have h16 : mallocMinAlign.toNat = 16 := rfl
    rw [h16] at hpar ⊢
    simp only [Chunk.space, AllocInfo.chunk] at hspace
    omega
  have hfill := hs.tracked.no_temp .datainfo
  rcases allocNew_cases hs.tiled hr hsize hfill z with
    ⟨-, hfull⟩ | ⟨data, l, hsome, hd, hal, ht, hg, hcarve⟩
  · exact absurd (c.fits_of_space (hends z c hc) hpar hpos (by omega)) (hfull c hc)
  rcases allocNewDetail_tracks hs.tracked hg ht rfl with
    ⟨hnone, hfull⟩ | ⟨d, tz, h₂, hd₂, he, -⟩
  · -- the zone of the block keeps the reserve, and another zone all it has
    exfalso
    obtain ⟨tz, htz, hother⟩ := hdetail
    by_cases hz : tz = z
    · subst hz
      have hself : (h.setZone tz l).zone tz = l := by simp [Heap.setZone]
      rw [reserve, if_pos htz] at hspace
      obtain ⟨c', hc', h48⟩ := carve_space hcarve hc (hends tz c hc) hpar hspace
      have hends' := carve_ends hcarve (hends tz) hal
      rw [← hself] at hc'
      exact hfull tz htz c' hc' (fits_detail (hends' c' (hself ▸ hc')) h48)
    · have hsame : (h.setZone z l).zone tz = h.zone tz := by simp [Heap.setZone, hz]
      obtain ⟨c', hc', h48⟩ := hother.resolve_left hz
      exact hfull tz htz c' (hsame ▸ hc') (fits_detail (hends tz c' hc') h48)
  · simp [mallocPalloc, hsize, hsome, hd, he, hd₂]

/-- No allocation gets more than the largest free space. -/
theorem le_space_of_palloc (hs : Sound E h) {z : Zone} {size align : UInt32}
    (hr : Request size align) (hd : (mallocPalloc h z size align).1 ≠ 0) :
    size.toNat ≤ (maxSpace (h.zone z) 0).toNat := by
  have hsize : size ≠ 0 := by
    rintro rfl
    simp [mallocPalloc] at hd
  rcases allocNew_cases hs.tiled hr hsize (hs.tracked.no_temp .datainfo) z with
    ⟨hnone, -⟩ | ⟨data, l, -, -, -, -, -, hcarve⟩
  · simp [mallocPalloc, hsize, hnone] at hd
  · obtain ⟨pre, c, post, hl, hfit, -, -⟩ := carve_eq_some hcarve
    have hmax := (maxSpace_spec (hs.tiled.fills z).used_le 0).2.1 c (by rw [hl]; simp)
    exact hfit.le_space.trans hmax

/-- The node behind an answer of `malloc_getspace`. -/
theorem exists_space (hs : Sound E h) {z : Zone} (hz : mallocGetspace h z ≠ 0) :
    ∃ c ∈ view (h.zone z), (mallocGetspace h z).toNat + reserve z = c.space := by
  have hpos : 0 < (mallocGetspace h z).toNat :=
    Nat.pos_of_ne_zero fun h0 => hz (UInt32.toNat_inj.mp h0)
  rw [mallocGetspace_toNat] at hpos ⊢
  rcases (maxSpace_spec (hs.tiled.fills z).used_le 0).2.2 with hmax | ⟨c, hc, hmax⟩
  · rw [hmax] at hpos
    simp at hpos
  · exact ⟨c, hc, by omega⟩

/-- What `malloc_getspace` answers can be had at once, in whole paragraphs. Outside the
temporary zones the bookkeeping needs some space in one of these. -/
theorem palloc_of_getspace (hs : Sound E h)
    (hends : ∀ z, ∀ c ∈ view (h.zone z), mallocMinAlign.toNat ∣ c.hi) {z : Zone} {size : UInt32}
    (h0 : size ≠ 0) (hpar : mallocMinAlign.toNat ∣ size.toNat) (hle : size ≤ mallocGetspace h z)
    (hdetail : ∃ tz, (tz = .tmpHigh ∨ tz = .tmpLow) ∧ (tz = z ∨ mallocGetspace h tz ≠ 0)) :
    (mallocPalloc h z size mallocMinAlign).1 ≠ 0 := by
  have hle := UInt32.le_iff_toNat_le.mp hle
  have hpos : 0 < size.toNat := Nat.pos_of_ne_zero fun h => h0 (UInt32.toNat_inj.mp h)
  have hne : mallocGetspace h z ≠ 0 := by
    intro he
    rw [he] at hle
    simp at hle
    omega
  refine palloc_of_space hs hends h0 hpar ?_ ?_
  · obtain ⟨c, hc, hcs⟩ := exists_space hs hne
    exact ⟨c, hc, by omega⟩
  · obtain ⟨tz, htz, hor⟩ := hdetail
    refine ⟨tz, htz, hor.imp_right fun hne => ?_⟩
    obtain ⟨c, hc, hcs⟩ := exists_space hs hne
    rw [reserve, if_pos htz] at hcs
    exact ⟨c, hc, by omega⟩

/-- And no allocation gets more than that and the reserve of a temporary zone. -/
theorem le_getspace_of_palloc (hs : Sound E h) {z : Zone} {size align : UInt32}
    (hr : Request size align) (hd : (mallocPalloc h z size align).1 ≠ 0) :
    size.toNat ≤ (mallocGetspace h z).toNat + reserve z := by
  have hle := le_space_of_palloc hs hr hd
  rw [mallocGetspace_toNat]
  omega

end CsmWrap.Malloc
