import CsmWrap.E820.Replay
import CsmWrap.Sweep

/-!
# The array behind the table

`insert_e820` and `remove_e820` shift the tail of `e820_map` by one entry with the
`memmove` of `libc.c`. That function is modelled byte by byte, in the order in
which the source moves the bytes; the array in memory then follows the list of
`Table` through insertions and removals.
-/

namespace CsmWrap.E820
open Memory Sweep

/-- `pdest[i] = psrc[i]`. -/
def moveByte (dest src : UInt64) (m : Mem) (i : Nat) : Mem :=
  Function.update m (dest + UInt64.ofNat i).toNat (m (src + UInt64.ofNat i).toNat)

/-- The second loop counts from `n` down to 1 and moves the byte before its index. -/
def memmove (m : Mem) (dest src n : UInt64) : Mem :=
  if src > dest then (List.range n.toNat).foldl (moveByte dest src) m
  else if src < dest then (List.range n.toNat).reverse.foldl (moveByte dest src) m
  else m

theorem toNat_add_ofNat {p : UInt64} {i : Nat} (h : p.toNat + i < 2 ^ 64) :
    (p + UInt64.ofNat i).toNat = p.toNat + i := by
  rw [UInt64.toNat_add, UInt64.toNat_ofNat', Nat.mod_eq_of_lt (show i < 2 ^ 64 by omega),
    Nat.mod_eq_of_lt h]

section
variable {dest src : UInt64} {n : Nat} (hd : dest.toNat + n ≤ 2 ^ 64)
  (hs : src.toNat + n ≤ 2 ^ 64)
include hd hs

/-- A loop over the indices below `n` in an order in which no byte is stored to
before it is read. -/
theorem foldl_moveByte {l : List Nat} (hmem : ∀ i, i ∈ l ↔ i < n)
    (hl : l.Pairwise fun i j => i ≠ j ∧ dest.toNat + i ≠ src.toNat + j) (m : Mem) (a : Nat) :
    l.foldl (moveByte dest src) m a =
      if dest.toNat ≤ a ∧ a < dest.toNat + n then m (src.toNat + (a - dest.toNat)) else m a := by
  have hfold : l.foldl (moveByte dest src) m =
      (l.map (dest.toNat + ·)).foldl
        (fun f p => Function.update f p (f (src.toNat + (p - dest.toNat)))) m := by
    rw [List.foldl_map]
    apply List.foldl_ext
    intro m i hi
    have hlt := (hmem i).mp hi
    rw [moveByte, toNat_add_ofNat (by omega), toNat_add_ofNat (by omega), Nat.add_sub_cancel_left]
  have hpair : (l.map (dest.toNat + ·)).Pairwise
      fun p q => p ≠ q ∧ p ≠ src.toNat + (q - dest.toNat) := by
    rw [List.pairwise_map]
    apply hl.imp
    intro i j h
    omega
  have hin : a ∈ l.map (dest.toNat + ·) ↔ dest.toNat ≤ a ∧ a < dest.toNat + n := by
    rw [List.mem_map]
    constructor
    · rintro ⟨i, hi, rfl⟩
      have := (hmem i).mp hi
      omega
    · intro h
      exact ⟨a - dest.toNat, (hmem _).mpr (by omega), by omega⟩
  rw [hfold, foldl_copy _ hpair]
  simp only [hin]

end

/-- What `memmove` leaves at an address, whichever way the ranges overlap. -/
theorem memmove_apply (m : Mem) {dest src n : UInt64} (hd : dest.toNat + n.toNat ≤ 2 ^ 64)
    (hs : src.toNat + n.toNat ≤ 2 ^ 64) (a : Nat) :
    memmove m dest src n a =
      if dest.toNat ≤ a ∧ a < dest.toNat + n.toNat then m (src.toNat + (a - dest.toNat))
      else m a := by
  unfold memmove
  split
  · next hgt =>
    -- Upwards, each byte is stored below everything that is still to be read.
    rw [gt_iff_lt, UInt64.lt_iff_toNat_lt] at hgt
    apply foldl_moveByte hd hs fun i => List.mem_range
    apply List.pairwise_lt_range.imp
    intro i j h
    omega
  · split
    · next hlt =>
      rw [UInt64.lt_iff_toNat_lt] at hlt
      apply foldl_moveByte hd hs fun i => List.mem_reverse.trans List.mem_range
      rw [List.pairwise_reverse]
      apply List.pairwise_lt_range.imp
      intro i j h
      omega
    · next hgt hlt =>
      have he : src.toNat = dest.toNat := by
        rw [gt_iff_lt, UInt64.lt_iff_toNat_lt] at hgt
        rw [UInt64.lt_iff_toNat_lt] at hlt
        omega
      split
      · next hin => rw [he, Nat.add_sub_cancel' hin.1]
      · rfl

theorem load_memmove (m : Mem) {dest src n : UInt64} (hd : dest.toNat + n.toNat ≤ 2 ^ 64)
    (hs : src.toNat + n.toNat ≤ 2 ^ 64) :
    load (memmove m dest src n) dest.toNat n.toNat = load m src.toNat n.toNat := by
  apply List.map_congr_left
  intro i hi
  have hlt := List.mem_range.mp hi
  rw [memmove_apply m hd hs, if_pos (by omega), Nat.add_sub_cancel_left]

theorem memmove_outside (m : Mem) {dest src n : UInt64} (hd : dest.toNat + n.toNat ≤ 2 ^ 64)
    (hs : src.toNat + n.toNat ≤ 2 ^ 64) {a : Nat}
    (h : a < dest.toNat ∨ dest.toNat + n.toNat ≤ a) : memmove m dest src n a = m a := by
  rw [memmove_apply m hd hs, if_neg (by omega)]

/-- `&e820_map[i]`. -/
def slot (e820Map : UInt64) (i : Nat) : UInt64 := e820Map + UInt64.ofNat (sizeofEntry * i)

/-- The `memmove` of `insert_e820`. -/
def shiftUp (m : Mem) (e820Map : UInt64) (i count : Nat) : Mem :=
  memmove m (slot e820Map (i + 1)) (slot e820Map i) (UInt64.ofNat (sizeofEntry * (count - i)))

/-- The `memmove` of `remove_e820`, where `count` is the count after the decrement. -/
def shiftDown (m : Mem) (e820Map : UInt64) (i count : Nat) : Mem :=
  memmove m (slot e820Map i) (slot e820Map (i + 1)) (UInt64.ofNat (sizeofEntry * (count - i)))

theorem entryAt_congr {m m' : Mem} {p q : Nat}
    (h : ∀ k < sizeofEntry, m (p + k) = m' (q + k)) : entryAt m p = entryAt m' q := by
  have hload : ∀ k n, k + n ≤ sizeofEntry → load m (p + k) n = load m' (q + k) n := by
    intro k n hkn
    apply List.map_congr_left
    intro i hi
    have hlt := List.mem_range.mp hi
    rw [Nat.add_assoc, Nat.add_assoc]
    exact h (k + i) (by omega)
  have hbase := hload 0 8 (by decide)
  have hlength := hload 8 8 (by decide)
  have htype := hload 16 4 (by decide)
  simp only [Nat.add_zero] at hbase
  simp only [entryAt, read64, read32, hbase, hlength, htype]

section
variable {e820Map : UInt64} {count : Nat}
  (hfit : e820Map.toNat + sizeofEntry * (count + 1) < 2 ^ 64)
include hfit

theorem toNat_slot {j : Nat} (hj : j ≤ count + 1) :
    (slot e820Map j).toNat = e820Map.toNat + sizeofEntry * j := by
  apply toNat_add_ofNat
  have := Nat.mul_le_mul_left sizeofEntry hj
  omega

/-- Moving `k` entries from slot `s` to slot `d`, in bytes and addresses. -/
theorem memmove_slots (m : Mem) {d s k : Nat} (hd : d + k ≤ count + 1) (hs : s + k ≤ count + 1)
    (a : Nat) :
    memmove m (slot e820Map d) (slot e820Map s) (UInt64.ofNat (sizeofEntry * k)) a =
      if e820Map.toNat + sizeofEntry * d ≤ a ∧ a < e820Map.toNat + sizeofEntry * (d + k) then
        m (a + sizeofEntry * s - sizeofEntry * d)
      else m a := by
  have hdest := toNat_slot hfit (Nat.le_of_add_right_le hd)
  have hsrc := toNat_slot hfit (Nat.le_of_add_right_le hs)
  simp only [sizeofEntry] at hfit hdest hsrc ⊢
  have hsize : (UInt64.ofNat (20 * k)).toNat = 20 * k := by
    rw [UInt64.toNat_ofNat', Nat.mod_eq_of_lt (by omega)]
  rw [memmove_apply m (by omega) (by omega)]
  simp only [hdest, hsrc, hsize, Nat.mul_add, Nat.add_assoc]
  split
  · congr 1
    omega
  · rfl

theorem entryAt_moved (m : Mem) {d s k j : Nat} (hd : d + k ≤ count + 1) (hs : s + k ≤ count + 1)
    (hj : j < k) :
    entryAt (memmove m (slot e820Map d) (slot e820Map s) (UInt64.ofNat (sizeofEntry * k)))
        (slot e820Map (d + j)).toNat = entryAt m (slot e820Map (s + j)).toNat := by
  rw [toNat_slot hfit (by omega), toNat_slot hfit (by omega)]
  apply entryAt_congr
  intro b hb
  rw [memmove_slots hfit m hd hs, if_pos (by simp only [sizeofEntry] at hb ⊢; omega)]
  congr 1
  simp only [sizeofEntry]
  omega

theorem entryAt_kept (m : Mem) {d s k j : Nat} (hd : d + k ≤ count + 1) (hs : s + k ≤ count + 1)
    (hj : j ≤ count) (hout : j < d ∨ d + k ≤ j) :
    entryAt (memmove m (slot e820Map d) (slot e820Map s) (UInt64.ofNat (sizeofEntry * k)))
        (slot e820Map j).toNat = entryAt m (slot e820Map j).toNat := by
  rw [toNat_slot hfit (by omega)]
  apply entryAt_congr
  intro b hb
  rw [memmove_slots hfit m hd hs, if_neg (by simp only [sizeofEntry] at hb ⊢; omega)]

/-- Up by one entry: the entries from `i` on are found one slot later. -/
theorem entryAt_shiftUp (m : Mem) {i j : Nat} (hi : i ≤ count) (hj : j < count) :
    entryAt (shiftUp m e820Map i count) (slot e820Map (if j < i then j else j + 1)).toNat =
      entryAt m (slot e820Map j).toNat := by
  unfold shiftUp
  split
  · exact entryAt_kept hfit m (by omega) (by omega) (by omega) (by omega)
  · have h := entryAt_moved hfit m (d := i + 1) (s := i) (k := count - i) (j := j - i)
      (by omega) (by omega) (by omega)
    rwa [show i + 1 + (j - i) = j + 1 by omega, show i + (j - i) = j by omega] at h

/-- Down by one entry: the entries after `i` are found one slot earlier. -/
theorem entryAt_shiftDown (m : Mem) {i j : Nat} (hi : i ≤ count) (hj : j ≤ count) (hne : j ≠ i) :
    entryAt (shiftDown m e820Map i count) (slot e820Map (if j < i then j else j - 1)).toNat =
      entryAt m (slot e820Map j).toNat := by
  unfold shiftDown
  split
  · exact entryAt_kept hfit m (by omega) (by omega) (by omega) (by omega)
  · have h := entryAt_moved hfit m (d := i) (s := i + 1) (k := count - i) (j := j - 1 - i)
      (by omega) (by omega) (by omega)
    rwa [show i + (j - 1 - i) = j - 1 by omega, show i + 1 + (j - 1 - i) = j by omega] at h

end

/-- **`memmove` is right for every overlap.** The bytes at the destination are
those that were at the source and nothing else changes; in particular every entry
of a tail of `e820_map` that is shifted by one slot arrives as it was. -/
theorem memmove_moves (m : Mem) :
    (∀ dest src n : UInt64, dest.toNat + n.toNat ≤ 2 ^ 64 → src.toNat + n.toNat ≤ 2 ^ 64 →
      load (memmove m dest src n) dest.toNat n.toNat = load m src.toNat n.toNat ∧
        ∀ a, a < dest.toNat ∨ dest.toNat + n.toNat ≤ a → memmove m dest src n a = m a) ∧
    ∀ (e820Map : UInt64) (i count : Nat), i ≤ count →
      e820Map.toNat + sizeofEntry * (count + 1) < 2 ^ 64 →
      (∀ j < count,
        entryAt (shiftUp m e820Map i count) (slot e820Map (if j < i then j else j + 1)).toNat =
          entryAt m (slot e820Map j).toNat) ∧
      ∀ j ≤ count, j ≠ i →
        entryAt (shiftDown m e820Map i count) (slot e820Map (if j < i then j else j - 1)).toNat =
          entryAt m (slot e820Map j).toNat := by
  constructor
  · intro dest src n hd hs
    exact ⟨load_memmove m hd hs, fun a ha => memmove_outside m hd hs ha⟩
  · intro e820Map i count hi hfit
    exact ⟨fun j hj => entryAt_shiftUp hfit m hi hj,
      fun j hj hne => entryAt_shiftDown hfit m hi hj hne⟩

/-- Three bytes, moved up and down over each other. -/
theorem memmove_moves_overlapping :
    load (memmove (fun a => UInt8.ofNat a) 101 100 3) 101 3 = [100, 101, 102] ∧
      load (memmove (fun a => UInt8.ofNat a) 99 100 3) 99 3 = [100, 101, 102] :=
  ⟨((memmove_moves fun a => UInt8.ofNat a).1 101 100 3 (by decide) (by decide)).1.trans (by decide),
    ((memmove_moves fun a => UInt8.ofNat a).1 99 100 3 (by decide) (by decide)).1.trans (by decide)⟩

/-! ## The array follows the list -/

/-- The array holds the entries of a list, from its first slot on. -/
def Represents (m : Mem) (e820Map : UInt64) (entries : List Entry) : Prop :=
  ∀ j, (hj : j < entries.length) → entryAt m (slot e820Map j).toNat = entries[j]

/-- `remove_e820` on the array; the result is the memory and the count. -/
def removeEntry (m : Mem) (e820Map : UInt64) (count i : Nat) : Mem × Nat :=
  if i ≥ count then (m, count) else (shiftDown m e820Map i (count - 1), count - 1)

/-- `insert_e820` on the array. -/
def insertEntry (m : Mem) (e820Map : UInt64) (count i : Nat) (e : Entry) : Mem × Nat :=
  if count ≥ e820MaxEntries then (m, count)
  else (store (shiftUp m e820Map i count) (slot e820Map i).toNat e.bytes, count + 1)

theorem entryAt_store_self (m : Mem) (p : Nat) (e : Entry) : entryAt (store m p e.bytes) p = e := by
  apply entryAt_of_load
  have h := load_store m p e.bytes
  rwa [length_bytes] at h

theorem entryAt_store_other (m : Mem) {p q : Nat} (e : Entry)
    (h : q + sizeofEntry ≤ p ∨ p + sizeofEntry ≤ q) :
    entryAt (store m p e.bytes) q = entryAt m q := by
  apply entryAt_congr
  intro k hk
  apply store_outside
  rw [length_bytes]
  omega

/-- Removing from the array removes from the list. -/
theorem represents_remove {m : Mem} {e820Map : UInt64} {t : Table}
    (hfit : e820Map.toNat + sizeofEntry * (t.entries.length + 1) < 2 ^ 64)
    (h : Represents m e820Map t.entries) (i : Nat) :
    (removeEntry m e820Map t.entries.length i).2 = (removeE820 t i).entries.length ∧
      Represents (removeEntry m e820Map t.entries.length i).1 e820Map (removeE820 t i).entries := by
  unfold removeEntry removeE820
  by_cases hi : i ≥ t.entries.length
  · rw [if_pos hi]
    simp only [List.eraseIdx_of_length_le hi, true_and]
    exact h
  · rw [if_neg hi]
    refine ⟨(List.length_eraseIdx_of_lt (by omega)).symm, ?_⟩
    intro j hj
    dsimp only at hj ⊢
    rw [List.length_eraseIdx_of_lt (by omega)] at hj
    have hfit' : e820Map.toNat + sizeofEntry * (t.entries.length - 1 + 1) < 2 ^ 64 := by
      simp only [sizeofEntry] at hfit ⊢
      omega
    rw [List.getElem_eraseIdx]
    split
    · next hlt =>
      have hshift := entryAt_shiftDown hfit' m (i := i) (j := j) (by omega) (by omega) (by omega)
      rw [if_pos hlt] at hshift
      rw [hshift]
      exact h j (by omega)
    · next hge =>
      have hshift := entryAt_shiftDown hfit' m (i := i) (j := j + 1) (by omega) (by omega)
        (by omega)
      rw [if_neg (by omega), Nat.add_sub_cancel] at hshift
      rw [hshift]
      exact h (j + 1) (by omega)

/-- Inserting into the array inserts into the list. -/
theorem represents_insert {m : Mem} {e820Map : UInt64} {t : Table}
    (hfit : e820Map.toNat + sizeofEntry * (t.entries.length + 1) < 2 ^ 64)
    (h : Represents m e820Map t.entries) {i : Nat} (hi : i ≤ t.entries.length)
    (start size type : UInt64) :
    let inserted := insertEntry m e820Map t.entries.length i ⟨start, size, type.toUInt32⟩
    let t' := insertE820 csmwrap t i start size type
    inserted.2 = t'.entries.length ∧ Represents inserted.1 e820Map t'.entries := by
  unfold insertEntry insertE820
  by_cases hfull : t.entries.length ≥ e820MaxEntries
  · have hfull' : t.entries.length ≥ csmwrap.maxEntries := hfull
    simp only [if_pos hfull, if_pos hfull', true_and]
    exact h
  · have hfull' : ¬ t.entries.length ≥ csmwrap.maxEntries := hfull
    simp only [if_neg hfull, if_neg hfull']
    refine ⟨(List.length_insertIdx_of_le_length hi _).symm, ?_⟩
    intro j hj
    rw [List.length_insertIdx_of_le_length hi] at hj
    have hto := toNat_slot hfit (by omega : j ≤ t.entries.length + 1)
    have hat := toNat_slot hfit (by omega : i ≤ t.entries.length + 1)
    have hother : j ≠ i →
        (slot e820Map j).toNat + sizeofEntry ≤ (slot e820Map i).toNat ∨
          (slot e820Map i).toNat + sizeofEntry ≤ (slot e820Map j).toNat := by
      intro hne
      rw [hto, hat]
      simp only [sizeofEntry]
      omega
    rcases lt_trichotomy j i with hlt | rfl | hgt
    · rw [entryAt_store_other _ _ (hother (by omega)), List.getElem_insertIdx_of_lt hlt]
      have hshift := entryAt_shiftUp hfit m hi (j := j) (by omega)
      rw [if_pos hlt] at hshift
      rw [hshift]
      exact h j (by omega)
    · rw [entryAt_store_self, List.getElem_insertIdx_self]
      rfl
    · rw [entryAt_store_other _ _ (hother (by omega)), List.getElem_insertIdx_of_gt hgt]
      have hshift := entryAt_shiftUp hfit m hi (j := j - 1) (by omega)
      rw [if_neg (by omega), Nat.sub_add_cancel (by omega)] at hshift
      rw [hshift]
      exact h (j - 1) (by omega)

end CsmWrap.E820
