import CsmWrap.BitField
import CsmWrap.Malloc.Zones

/-!
# Zones as arenas

Read as natural numbers, the nodes of a zone are the chunks of an arena, and
`alloc_new`, `alloc_free` and the loop of `alloc_add` are the operations of arenas.
The one difference is the subtraction in `alloc_new`, which can wrap; it does no harm
where the size and the alignment together do not pass 4 GiB.
-/

namespace CsmWrap.Malloc
open Arena

/-- What callers ask of an allocation: a power of two to align to, and no more in all
than the 32-bit addresses allow. -/
structure Request (size align : UInt32) : Prop where
  power : ∃ k, align.toNat = 2 ^ k
  fits : size.toNat + align.toNat ≤ 2 ^ 32

theorem and_not_mask {x k : Nat} (hx : x < 2 ^ 32) (hk : k ≤ 32) :
    x &&& (2 ^ 32 - 1 - (2 ^ k - 1)) = x / 2 ^ k * 2 ^ k := by
  have hpos : 0 < 2 ^ k := Nat.two_pow_pos k
  have hsplit : 2 ^ (32 - k) * 2 ^ k = 2 ^ 32 := by rw [← Nat.pow_add, Nat.sub_add_cancel hk]
  have hmask : 2 ^ 32 - 1 - (2 ^ k - 1) = BitField.mask k (32 - k) := by
    rw [BitField.mask, Nat.shiftLeft_eq, Nat.sub_mul, hsplit]
    omega
  have hfield : BitField.field x k (32 - k) = x / 2 ^ k :=
    Nat.mod_eq_of_lt (Nat.div_lt_of_lt_mul (by rwa [Nat.mul_comm, hsplit]))
  rw [hmask, ← BitField.shiftLeft_field, hfield, Nat.shiftLeft_eq]

theorem alignDown_toNat {x align : UInt32} {k : Nat} (h : align.toNat = 2 ^ k) :
    (alignDown x align).toNat = x.toNat / align.toNat * align.toNat := by
  have hlt := align.toNat_lt
  have hk : k < 32 := by
    rw [h] at hlt
    exact (Nat.pow_lt_pow_iff_right (by omega)).mp hlt
  have hone : (1 : UInt32) ≤ align := by
    rw [UInt32.le_iff_toNat_le, h]
    exact Nat.one_le_two_pow
  rw [alignDown, UInt32.toNat_and, UInt32.toNat_not, UInt32.toNat_sub_of_le _ _ hone, h]
  exact and_not_mask x.toNat_lt hk.le

def AllocInfo.chunk (info : AllocInfo) : Chunk Place :=
  ⟨info.place, info.rangeStart.toNat, info.rangeEnd.toNat, info.allocSize.toNat⟩

/-- A zone as an arena. -/
def view (l : List AllocInfo) : List (Chunk Place) := l.map AllocInfo.chunk

theorem chunk_injective : Function.Injective AllocInfo.chunk := by
  rintro ⟨p, s, e, n⟩ ⟨p', s', e', n'⟩ h
  simpa [AllocInfo.chunk, UInt32.toNat_inj] using h

/-- A node without its end. -/
def AllocInfo.stub (info : AllocInfo) : Place × UInt32 × UInt32 :=
  (info.place, info.rangeStart, info.allocSize)

def stubs (l : List AllocInfo) : List (Place × UInt32 × UInt32) := l.map AllocInfo.stub

/-- The same in natural numbers. -/
def natStub (s : Place × UInt32 × UInt32) : Place × Nat × Nat := (s.1, s.2.1.toNat, s.2.2.toNat)

theorem natStub_injective : Function.Injective natStub := by
  rintro ⟨p, a, n⟩ ⟨p', a', n'⟩ h
  simpa [natStub, UInt32.toNat_inj] using h

theorem view_stubs (l : List AllocInfo) : (view l).map Chunk.stub = (stubs l).map natStub := by
  simp [view, stubs, natStub, AllocInfo.chunk, AllocInfo.stub, Chunk.stub]

/-- Nodes over the same ranges that begin alike also end alike. -/
theorem zone_ext {l l' : List AllocInfo} {E : List (Nat × Nat)} (h : Fills (view l) E)
    (h' : Fills (view l') E) (hs : stubs l = stubs l') : l = l' := by
  have hview : view l = view l' := fills_ext h h' (by rw [view_stubs, view_stubs, hs])
  exact List.map_injective_iff.mpr chunk_injective hview

theorem alloc_end_toNat {info : AllocInfo}
    (hinfo : info.chunk.lo + info.chunk.used ≤ info.chunk.hi) :
    (info.rangeStart + info.allocSize).toNat = info.chunk.lo + info.chunk.used := by
  have hlt := info.rangeEnd.toNat_lt
  simp only [AllocInfo.chunk] at hinfo ⊢
  rw [UInt32.toNat_add, Nat.mod_eq_of_lt (by omega)]

/-- Where the size is no more than the end of the node, the difference does not wrap. -/
theorem cut_toNat {info : AllocInfo} {size align : UInt32} (hr : Request size align)
    (hsize : size.toNat ≤ info.chunk.hi) :
    (alignDown (info.rangeEnd - size) align).toNat = info.chunk.cut size.toNat align.toNat := by
  obtain ⟨k, hk⟩ := hr.power
  rw [alignDown_toNat hk, Chunk.cut, UInt32.toNat_sub_of_le]
  · rfl
  · exact UInt32.le_iff_toNat_le.mpr hsize

/-- Where it wraps, the result lies above the node. -/
theorem lt_of_wraps {info : AllocInfo} {size align : UInt32} (hr : Request size align)
    (hsize : info.chunk.hi < size.toNat) :
    info.rangeEnd.toNat < (alignDown (info.rangeEnd - size) align).toNat := by
  obtain ⟨k, hk⟩ := hr.power
  have hfits := hr.fits
  have hend := info.rangeEnd.toNat_lt
  have hpos : 0 < align.toNat := hk ▸ Nat.two_pow_pos k
  have hsub : (info.rangeEnd - size).toNat = 2 ^ 32 - size.toNat + info.rangeEnd.toNat := by
    rw [UInt32.toNat_sub]
    simp only [AllocInfo.chunk] at hsize
    omega
  have hdiv := Nat.lt_div_mul_add (a := (info.rangeEnd - size).toNat) hpos
  rw [alignDown_toNat hk]
  omega

/-- The wrapped difference is never taken for a place in the node. -/
theorem fits_iff {info : AllocInfo} {size align : UInt32} (hr : Request size align)
    (hinfo : info.chunk.lo + info.chunk.used ≤ info.chunk.hi) :
    (alignDown (info.rangeEnd - size) align ≥ info.rangeStart + info.allocSize ∧
        alignDown (info.rangeEnd - size) align ≤ info.rangeEnd) ↔
      info.chunk.Fits size.toNat align.toNat := by
  simp only [ge_iff_le, UInt32.le_iff_toNat_le, alloc_end_toNat hinfo, Chunk.Fits]
  by_cases hsize : size.toNat ≤ info.chunk.hi
  · have hcut : info.chunk.cut size.toNat align.toNat ≤ info.chunk.hi - size.toNat :=
      Nat.div_mul_le_self _ _
    rw [cut_toNat hr hsize]
    simp only [AllocInfo.chunk] at *
    omega
  · have := lt_of_wraps hr (Nat.lt_of_not_le hsize)
    omega

theorem allocNew_refines {l : List AllocInfo} {size align : UInt32} (hr : Request size align)
    (hl : ∀ c ∈ view l, c.lo + c.used ≤ c.hi) (fill : Place) :
    match carve fill size.toNat align.toNat (view l) with
    | none => allocNew size align fill l = (0, l)
    | some (a, l') => (allocNew size align fill l).1.toNat = a ∧
        view (allocNew size align fill l).2 = l' := by
  induction l with
  | nil => rfl
  | cons info l ih =>
    obtain ⟨hinfo, hl⟩ := List.forall_mem_cons.mp hl
    have hfits := fits_iff hr hinfo
    simp only [view, List.map_cons, carve, allocNew] at hfits ⊢
    by_cases hf : info.chunk.Fits size.toNat align.toNat
    · simp only [hf, ↓reduceIte, hfits.mpr hf]
      have hcut := cut_toNat hr hf.1
      refine ⟨hcut, ?_⟩
      simp [AllocInfo.chunk, hcut]
    · simp only [hf, ↓reduceIte, mt hfits.mp hf]
      have ih := ih hl
      simp only [view] at ih
      cases hc : carve fill size.toNat align.toNat (l.map AllocInfo.chunk) with
      | none => simp only [hc, Option.map_none] at ih ⊢; rw [ih]
      | some r =>
        simpa only [hc, Option.map_some, List.map_cons, List.cons.injEq, true_and] using ih

theorem allocFree_view (place : Place) (l : List AllocInfo) :
    view (allocFree place l) = release place (view l) := by
  induction l with
  | nil => rfl
  | cons info l ih =>
    by_cases hp : info.place = place
    · cases l with
      | nil => simp [view, allocFree, release, AllocInfo.chunk, hp]
      | cons next l =>
        by_cases hend : next.rangeEnd = info.rangeStart
        · simp [view, allocFree, release, AllocInfo.chunk, hp, hend]
        · have hend' : next.rangeEnd.toNat ≠ info.rangeStart.toNat :=
            fun h => hend (UInt32.toNat_inj.mp h)
          simp [view, allocFree, release, AllocInfo.chunk, hp, hend, hend']
    · have hp' : info.chunk.key ≠ place := hp
      have hfree : allocFree place (info :: l) = info :: allocFree place l := by
        simp [allocFree, hp]
      rw [hfree]
      simp only [view, List.map_cons] at ih ⊢
      rw [release_cons_ne hp', ih]

theorem hlistAdd_view (node : AllocInfo) (l : List AllocInfo) :
    view (hlistAdd node l) = insertAbove Chunk.lo node.chunk (view l) := by
  induction l with
  | nil => rfl
  | cons info l ih =>
    simp only [view] at ih
    by_cases hlt : info.rangeStart < node.rangeStart
    · have hlt' : info.chunk.lo < node.chunk.lo := UInt32.lt_iff_toNat_lt.mp hlt
      simp [view, hlistAdd, insertAbove, hlt, hlt']
    · have hlt' : ¬ info.chunk.lo < node.chunk.lo := mt UInt32.lt_iff_toNat_lt.mpr hlt
      simp [view, hlistAdd, insertAbove, hlt, hlt', ih]

end CsmWrap.Malloc
