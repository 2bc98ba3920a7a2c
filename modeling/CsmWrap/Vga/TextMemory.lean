import CsmWrap.Sweep
import CsmWrap.Vga.TextServices
import Mathlib.Tactic.Linarith

/-!
# Rows of text memory

Text memory is a segment, and the string instructions that move and clear rows of
it wrap within the segment. A pointer of the caller does not: a source that lies
before the segment is a large unsigned number, and `memmove_stride` then takes the
rows in an order that reads what it has already overwritten.
-/

namespace CsmWrap.Vga
open Memory Sweep

/-- The offset in SI or DI for a pointer. -/
def offset (p : Int) : Nat := (p % 0x10000).toNat

/-- `rep movsb`. -/
def memcpyFar (m : Mem) (dst src : Int) (len : Nat) : Mem :=
  (List.range len).foldl
    (fun m (i : Nat) => Function.update m (offset (dst + i)) (m (offset (src + i)))) m

/-- `rep stosw`, with the two bytes of AX. -/
def memset16Far (m : Mem) (dst : Int) (lo hi : UInt8) (len : Nat) : Mem :=
  (List.range (len / 2)).foldl
    (fun m (i : Nat) => Function.update (Function.update m (offset (dst + 2 * i)) lo)
      (offset (dst + (2 * i + 1))) hi) m

/-- The loop of `memmove_stride`. -/
def moveLines (copylen : Nat) (stride : Int) : (lines : Nat) → (dst src : Int) → Mem → Mem
  | 0, _, _, m => m
  | lines + 1, dst, src, m =>
    moveLines copylen stride lines (dst + stride) (src + stride) (memcpyFar m dst src copylen)

/-- The two pointers are compared as unsigned numbers of 32 bits. -/
def memmoveStride (m : Mem) (dst src : Int) (copylen : Nat) (stride : Int) (lines : Nat) : Mem :=
  if src % 0x100000000 < dst % 0x100000000 then
    moveLines copylen (-stride) lines (dst + stride * (lines - 1)) (src + stride * (lines - 1)) m
  else moveLines copylen stride lines dst src m

def memset16Stride (lo hi : UInt8) (setlen : Nat) (stride : Int) :
    (lines : Nat) → (dst : Int) → Mem → Mem
  | 0, _, m => m
  | lines + 1, dst, m =>
    memset16Stride lo hi setlen stride lines (dst + stride) (memset16Far m dst lo hi setlen)

theorem offset_natCast (n : Nat) (h : n < 0x10000) : offset n = n := by
  simp only [offset]
  omega

theorem offset_offset_add (p d : Int) : offset (offset p + d) = offset (p + d) := by
  simp only [offset]
  omega

theorem offset_mod_two (p : Int) : (offset p : Int) % 2 = p % 2 := by
  simp only [offset]
  omega

/-- The bytes of one row. -/
def rowOffsets (dst : Int) (len : Nat) : List Nat :=
  (List.range len).map fun (i : Nat) => offset (dst + i)

/-- The bytes of rows that are taken in turn. -/
def rowsOffsets (stride : Int) (len lines : Nat) (dst : Int) : List Nat :=
  (List.range lines).flatMap fun (k : Nat) => rowOffsets (dst + k * stride) len

theorem rowsOffsets_succ (stride : Int) (len lines : Nat) (dst : Int) :
    rowsOffsets stride len (lines + 1) dst =
      rowOffsets dst len ++ rowsOffsets stride len lines (dst + stride) := by
  rw [rowsOffsets, List.range_succ_eq_map, List.flatMap_cons, List.flatMap_map, rowsOffsets]
  have hnext : ∀ k : Nat, dst + ((k + 1 : Nat) : Int) * stride = dst + stride + k * stride := by
    intro k
    push_cast
    linarith [add_mul (k : Int) 1 stride]
  simp only [Nat.succ_eq_add_one, hnext, Int.natCast_zero, zero_mul, add_zero]

/-- A byte is copied from the one at a fixed distance. -/
def copyFrom (d : Int) (m : Mem) (p : Nat) : Mem := Function.update m p (m (offset (p + d)))

theorem memcpyFar_eq (m : Mem) (dst d : Int) (len : Nat) :
    memcpyFar m dst (dst + d) len = (rowOffsets dst len).foldl (copyFrom d) m := by
  rw [memcpyFar, rowOffsets, List.foldl_map]
  congr 1
  funext m i
  rw [copyFrom, offset_offset_add, add_right_comm]

theorem moveLines_eq (copylen lines : Nat) (stride dst d : Int) (m : Mem) :
    moveLines copylen stride lines dst (dst + d) m =
      (rowsOffsets stride copylen lines dst).foldl (copyFrom d) m := by
  induction lines generalizing dst m with
  | zero => rfl
  | succ lines ih =>
    rw [moveLines, add_right_comm, ih, rowsOffsets_succ, List.foldl_append, memcpyFar_eq]

/-- The byte that a fill with a word leaves, when it starts at an even offset. -/
def wordByte (lo hi : UInt8) (p : Nat) : UInt8 := if p % 2 = 0 then lo else hi

theorem memset16Far_eq (m : Mem) {dst : Int} (hdst : dst % 2 = 0) (lo hi : UInt8) (w : Nat) :
    memset16Far m dst lo hi (w * 2) =
      (rowOffsets dst (w * 2)).foldl (fun m p => Function.update m p (wordByte lo hi p)) m := by
  rw [memset16Far, Nat.mul_div_cancel w two_pos, rowOffsets, List.foldl_map]
  induction w with
  | zero => rfl
  | succ w ih =>
    have hlo : wordByte lo hi (offset (dst + (w * 2 : Nat))) = lo := by
      have := offset_mod_two (dst + (w * 2 : Nat))
      exact if_pos (by omega)
    have hhi : wordByte lo hi (offset (dst + (w * 2 + 1 : Nat))) = hi := by
      have := offset_mod_two (dst + (w * 2 + 1 : Nat))
      exact if_neg (by omega)
    rw [List.range_succ, List.foldl_append, ih, show (w + 1) * 2 = w * 2 + 1 + 1 by omega,
      List.range_succ, List.range_succ, List.foldl_append, List.foldl_append]
    simp only [List.foldl_cons, List.foldl_nil, hlo, hhi]
    push_cast
    simp only [mul_comm]

theorem memset16Stride_eq (lo hi : UInt8) (w lines : Nat) {stride : Int} (hstride : stride % 2 = 0)
    {dst : Int} (hdst : dst % 2 = 0) (m : Mem) :
    memset16Stride lo hi (w * 2) stride lines dst m =
      (rowsOffsets stride (w * 2) lines dst).foldl
        (fun m p => Function.update m p (wordByte lo hi p)) m := by
  induction lines generalizing dst m with
  | zero => rfl
  | succ lines ih =>
    rw [memset16Stride, ih (by omega), rowsOffsets_succ, List.foldl_append, memset16Far_eq m hdst]

theorem mem_rowsOffsets {stride dst : Int} {len lines a : Nat} :
    a ∈ rowsOffsets stride len lines dst ↔
      ∃ k < lines, ∃ i < len, offset (dst + k * stride + i) = a := by
  simp only [rowsOffsets, rowOffsets, List.mem_flatMap, List.mem_map, List.mem_range]

/-- The byte `a` is not one of the rows. -/
def RowsMiss (stride dst : Int) (len lines a : Nat) : Prop :=
  ∀ k < lines, ∀ i < len, offset (dst + k * stride + i) ≠ a

theorem RowsMiss.not_mem {stride dst : Int} {len lines a : Nat}
    (h : RowsMiss stride dst len lines a) : a ∉ rowsOffsets stride len lines dst := by
  rw [mem_rowsOffsets]
  rintro ⟨k, hk, i, hi, he⟩
  exact h k hk i hi he

theorem moveLines_outside {stride dst : Int} {len lines a : Nat}
    (h : RowsMiss stride dst len lines a) (src : Int) (m : Mem) :
    moveLines len stride lines dst src m a = m a := by
  have hmove := moveLines_eq len lines stride dst (src - dst) m
  rw [add_sub_cancel] at hmove
  rw [hmove]
  exact foldl_outside _ h.not_mem m

/-- The rows are the same in either order. -/
theorem memmoveStride_outside {stride dst : Int} {len lines a : Nat}
    (h : RowsMiss stride dst len lines a) (src : Int) (m : Mem) :
    memmoveStride m dst src len stride lines a = m a := by
  unfold memmoveStride
  split
  · apply moveLines_outside
    intro k hk i hi
    have hrow := h (lines - 1 - k) (by omega) i hi
    have hcast : ((lines - 1 - k : Nat) : Int) = lines - 1 - k := by omega
    rw [hcast] at hrow
    rwa [show dst + stride * (lines - 1) + k * -stride + i =
      dst + (lines - 1 - k) * stride + i by ring]
  · exact moveLines_outside h src m

theorem memset16Far_outside {dst : Int} {len a : Nat} (h : ∀ i < len, offset (dst + (i : Nat)) ≠ a)
    (lo hi : UInt8) (m : Mem) : memset16Far m dst lo hi len a = m a := by
  have hloop : ∀ (l : List Nat), (∀ i ∈ l, 2 * i + 1 < len) → ∀ m : Mem,
      l.foldl (fun m (i : Nat) => Function.update (Function.update m (offset (dst + 2 * i)) lo)
        (offset (dst + (2 * i + 1))) hi) m a = m a := by
    intro l hl
    induction l with
    | nil => intro m; rfl
    | cons i l ih =>
      intro m
      have hi := hl i List.mem_cons_self
      have hlo := h (2 * i) (by omega)
      have hhi := h (2 * i + 1) hi
      push_cast at hlo hhi
      rw [List.foldl_cons, ih fun j hj => hl j (List.mem_cons_of_mem i hj),
        Function.update_of_ne (Ne.symm hhi), Function.update_of_ne (Ne.symm hlo)]
  apply hloop
  intro i hi
  have := List.mem_range.mp hi
  omega

theorem memset16Stride_outside {stride dst : Int} {len lines a : Nat}
    (h : RowsMiss stride dst len lines a) (lo hi : UInt8) (m : Mem) :
    memset16Stride lo hi len stride lines dst m a = m a := by
  induction lines generalizing dst m with
  | zero => rfl
  | succ lines ih =>
    rw [memset16Stride, ih, memset16Far_outside]
    · intro i hi
      simpa using h 0 (Nat.succ_pos lines) i hi
    · intro k hk i hi
      have hrow := h (k + 1) (by omega) i hi
      push_cast at hrow
      rwa [show dst + ((k : Int) + 1) * stride + i = dst + stride + k * stride + i by ring] at hrow

theorem store_singleton (m : Mem) (a : Nat) (v : UInt8) :
    store m a [v] = Function.update m a v := by
  funext x
  by_cases hx : x = a
  · subst hx
    simp [store, copy, writeByte]
  · simp [store, copy, writeByte, hx]

/-- Bytes that are copied upwards, to where none of them is read again. -/
theorem memcpyFar_eq_store (m : Mem) {dst src len : Nat} (hdst : dst + len ≤ src)
    (hsrc : src + len ≤ 0x10000) : memcpyFar m dst src len = store m dst (load m src len) := by
  induction len with
  | zero => rfl
  | succ len ih =>
    have hlast : load m src (len + 1) = load m src len ++ [m (src + len)] := by
      simp only [load, List.range_succ, List.map_append, List.map_cons, List.map_nil]
    have hd : offset (dst + (len : Int)) = dst + len := offset_natCast (dst + len) (by omega)
    have hs : offset (src + (len : Int)) = src + len := offset_natCast (src + len) (by omega)
    have hread : store m dst (load m src len) (src + len) = m (src + len) :=
      store_outside _ _ _ (by rw [length_load]; omega)
    have hih := ih (by omega) (by omega)
    rw [memcpyFar] at hih
    rw [memcpyFar, List.range_succ, List.foldl_append, hih, hlast, ← store_append, length_load,
      store_singleton]
    simp only [List.foldl_cons, List.foldl_nil, hd, hs, hread]

theorem memset16Far_eq_store (m : Mem) {dst w : Nat} (h : dst + w * 2 ≤ 0x10000) (lo hi : UInt8) :
    memset16Far m dst lo hi (w * 2) = store m dst (List.replicate w [lo, hi]).flatten := by
  rw [memset16Far, Nat.mul_div_cancel w two_pos]
  induction w with
  | zero => rfl
  | succ w ih =>
    have hlen : (List.replicate w [lo, hi]).flatten.length = w * 2 := by simp
    have h₀ : offset (dst + 2 * (w : Int)) = dst + w * 2 := by
      have := offset_natCast (dst + w * 2) (by omega)
      push_cast at this
      rwa [mul_comm] at this
    have h₁ : offset (dst + (2 * (w : Int) + 1)) = dst + w * 2 + 1 := by
      have := offset_natCast (dst + w * 2 + 1) (by omega)
      push_cast at this
      rwa [mul_comm, add_assoc] at this
    rw [List.range_succ, List.foldl_append, ih (by omega), List.replicate_succ',
      List.flatten_append, ← store_append, hlen]
    simp only [List.foldl_cons, List.foldl_nil, h₀, h₁, List.flatten_cons, List.flatten_nil,
      List.append_nil]
    rw [show [lo, hi] = [lo] ++ [hi] from rfl, ← store_append, store_singleton, store_singleton]
    rfl

/-- Rows that are moved up, and those that are cleared, as one store each. -/
theorem moveLines_eq_stores (len stride lines : Nat) {dst src : Nat} (hdst : dst + len ≤ src)
    (hsrc : ∀ k < lines, src + k * stride + len ≤ 0x10000) (m : Mem) :
    moveLines len stride lines dst src m = (List.range lines).foldl
      (fun m k => store m (dst + k * stride) (load m (src + k * stride) len)) m := by
  induction lines generalizing dst src m with
  | zero => rfl
  | succ lines ih =>
    have hfirst := hsrc 0 (by omega)
    have hrest : ∀ k < lines, src + stride + k * stride + len ≤ 0x10000 := by
      intro k hk
      have := hsrc (k + 1) (by omega)
      rw [add_mul, one_mul] at this
      omega
    rw [moveLines, memcpyFar_eq_store m hdst (by omega), ← Nat.cast_add, ← Nat.cast_add,
      ih (by omega) hrest, List.range_succ_eq_map, List.foldl_cons, List.foldl_map]
    simp only [Nat.succ_eq_add_one, zero_mul, add_zero, add_mul, one_mul, add_assoc,
      add_comm stride]

theorem memset16Stride_eq_stores (lo hi : UInt8) (w stride lines : Nat) {dst : Nat}
    (hdst : ∀ k < lines, dst + k * stride + w * 2 ≤ 0x10000) (m : Mem) :
    memset16Stride lo hi (w * 2) stride lines dst m = (List.range lines).foldl
      (fun m k => store m (dst + k * stride) (List.replicate w [lo, hi]).flatten) m := by
  induction lines generalizing dst m with
  | zero => rfl
  | succ lines ih =>
    have hfirst := hdst 0 (by omega)
    have hrest : ∀ k < lines, dst + stride + k * stride + w * 2 ≤ 0x10000 := by
      intro k hk
      have := hdst (k + 1) (by omega)
      rw [add_mul, one_mul] at this
      omega
    rw [memset16Stride, memset16Far_eq_store m (by omega), ← Nat.cast_add, ih hrest,
      List.range_succ_eq_map, List.foldl_cons, List.foldl_map]
    simp only [Nat.succ_eq_add_one, zero_mul, add_zero, add_mul, one_mul, add_assoc,
      add_comm stride]

/-! ## Blocks of a screen -/

/-- Bytes of one screen of rows do not share an offset with bytes of the next screen. -/
theorem offset_row_inj {stride n r s i j : Int} (hfit : n * stride ≤ 0x10000)
    (hrs : r - s < n) (hsr : s - r < n) (hi : 0 ≤ i) (hi' : i < stride) (hj : 0 ≤ j)
    (hj' : j < stride) : offset (r * stride + i) = offset (s * stride + j) ↔ r = s ∧ i = j := by
  constructor
  · intro h
    have hmod : (r * stride + i) % 0x10000 = (s * stride + j) % 0x10000 := by
      simp only [offset] at h
      omega
    have hle : (r - s) * stride ≤ (n - 1) * stride := by
      apply mul_le_mul_of_nonneg_right <;> omega
    have hge : (s - r) * stride ≤ (n - 1) * stride := by
      apply mul_le_mul_of_nonneg_right <;> omega
    simp only [sub_mul, one_mul] at hle hge
    have heq : r * stride + i = s * stride + j := by omega
    have hrow : r = s := by
      have hdiv := congrArg (· / stride) heq
      simpa only [Int.add_comm (_ * stride), Int.add_mul_ediv_right _ _ (show stride ≠ 0 by omega),
        Int.ediv_eq_zero_of_lt hi hi', Int.ediv_eq_zero_of_lt hj hj', zero_add] using hdiv
    subst hrow
    exact ⟨rfl, by omega⟩
  · rintro ⟨rfl, rfl⟩
    rfl

/-- Columns of bytes in some rows of a screen that takes at most half the segment. -/
structure Block where
  stride : Int
  rows : Int
  y : Int
  x : Int
  lines : Nat
  len : Nat
  fits : 2 * rows * stride ≤ 0x10000
  y_nonneg : 0 ≤ y
  y_le : y + lines ≤ rows
  x_nonneg : 0 ≤ x
  x_le : x + len ≤ stride

namespace Block
variable (B : Block)

/-- The byte of a row, which may be as far as one screen before or after this one. -/
def byteAt (m : Mem) (r i : Int) : UInt8 := m (offset (r * B.stride + i))

def Near (r i : Int) : Prop := (-B.rows ≤ r ∧ r < 2 * B.rows) ∧ 0 ≤ i ∧ i < B.stride

def Covers (r i : Int) : Prop := (B.y ≤ r ∧ r < B.y + B.lines) ∧ B.x ≤ i ∧ i < B.x + B.len

instance (r i : Int) : Decidable (B.Covers r i) := by unfold Covers; infer_instance

/-- The offsets of some of the rows, in the order given. -/
def offsets (ks : List Nat) : List Nat :=
  ks.flatMap fun (k : Nat) => rowOffsets ((B.y + k) * B.stride + B.x) B.len

theorem mem_offsets {ks : List Nat} {p : Nat} :
    p ∈ B.offsets ks ↔
      ∃ k ∈ ks, ∃ i < B.len, p = offset ((B.y + (k : Nat)) * B.stride + (B.x + (i : Nat))) := by
  simp only [offsets, rowOffsets, List.mem_flatMap, List.mem_map, List.mem_range, add_assoc,
    eq_comm]

/-- All rows of the block, in either order. -/
def Order (ks : List Nat) : Prop := ∀ k, k ∈ ks ↔ k < B.lines

variable {B}

theorem Covers.exists {r i : Int} (h : B.Covers r i) :
    ∃ k < B.lines, ∃ j < B.len, r = B.y + (k : Nat) ∧ i = B.x + (j : Nat) := by
  obtain ⟨⟨hr, hr'⟩, hi, hi'⟩ := h
  exact ⟨(r - B.y).toNat, by omega, (i - B.x).toNat, by omega, by omega, by omega⟩

theorem Covers.near {r i : Int} (h : B.Covers r i) : B.Near r i := by
  obtain ⟨⟨hr, hr'⟩, hi, hi'⟩ := h
  have := B.y_nonneg
  have := B.y_le
  have := B.x_nonneg
  have := B.x_le
  exact ⟨⟨by omega, by omega⟩, by omega, by omega⟩

theorem offset_mem {ks : List Nat} (hks : B.Order ks) {r i : Int} (h : B.Near r i) :
    offset (r * B.stride + i) ∈ B.offsets ks ↔ B.Covers r i := by
  obtain ⟨⟨hr, hr'⟩, hi, hi'⟩ := h
  have := B.y_nonneg
  have := B.y_le
  have := B.x_nonneg
  have := B.x_le
  rw [mem_offsets]
  constructor
  · rintro ⟨k, hk, j, hj, h⟩
    have hk := (hks k).mp hk
    obtain ⟨rfl, rfl⟩ := (offset_row_inj B.fits (by omega) (by omega) hi hi' (by omega)
      (by omega)).mp h
    exact ⟨⟨by omega, by omega⟩, by omega, by omega⟩
  · intro h
    obtain ⟨k, hk, j, hj, rfl, rfl⟩ := h.exists
    exact ⟨k, (hks k).mpr hk, j, hj, rfl⟩

/-- A condition on the offsets visited one after the other, from one on the rows. -/
theorem pairwise_offsets {ks : List Nat} {R : Nat → Nat → Prop}
    (hrow : ∀ k ∈ ks, ∀ i j : Nat, i < j → j < B.len →
      R (offset ((B.y + k) * B.stride + (B.x + i))) (offset ((B.y + k) * B.stride + (B.x + j))))
    (hrows : ks.Pairwise fun (a b : Nat) => ∀ i j : Nat, i < B.len → j < B.len →
      R (offset ((B.y + a) * B.stride + (B.x + i))) (offset ((B.y + b) * B.stride + (B.x + j)))) :
    (B.offsets ks).Pairwise R := by
  rw [offsets, List.pairwise_flatMap]
  constructor
  · intro k hk
    rw [rowOffsets, List.pairwise_map]
    refine List.pairwise_lt_range.imp_of_mem fun {i j} _ hj hij => ?_
    simpa only [add_assoc] using hrow k hk i j hij (List.mem_range.mp hj)
  · refine hrows.imp fun {a b} h p hp q hq => ?_
    obtain ⟨i, hi, rfl⟩ := List.mem_map.mp hp
    obtain ⟨j, hj, rfl⟩ := List.mem_map.mp hq
    simpa only [add_assoc] using h i j (List.mem_range.mp hi) (List.mem_range.mp hj)

theorem byteAt_fill {ks : List Nat} (hks : B.Order ks) {r i : Int} (h : B.Near r i)
    (v : Nat → UInt8) (m : Mem) :
    B.byteAt ((B.offsets ks).foldl (fun m p => Function.update m p (v p)) m) r i =
      if B.Covers r i then v (offset (r * B.stride + i)) else B.byteAt m r i := by
  rw [byteAt, foldl_fill]
  simp only [offset_mem hks h, byteAt]

/-- The offset that a byte is copied from, when rows are moved by `n`. -/
def source (B : Block) (n : Int) (p : Nat) : Nat := offset (p + n * B.stride)

theorem source_offset (r n i : Int) :
    B.source n (offset (r * B.stride + i)) = offset ((r + n) * B.stride + i) := by
  rw [source, offset_offset_add, add_mul, add_right_comm]

theorem offset_ne {r s : Int} {i j : Nat} (hi : i < B.len) (hj : j < B.len)
    (hrs : r - s < 2 * B.rows) (hsr : s - r < 2 * B.rows) (h : r ≠ s ∨ i ≠ j) :
    offset (r * B.stride + (B.x + i)) ≠ offset (s * B.stride + (B.x + j)) := by
  have := B.x_nonneg
  have := B.x_le
  intro heq
  have := (offset_row_inj B.fits hrs hsr (by omega) (by omega) (by omega) (by omega)).mp heq
  omega

theorem source_zero {ks : List Nat} {p : Nat} (hp : p ∈ B.offsets ks) : B.source 0 p = p := by
  rw [mem_offsets] at hp
  obtain ⟨k, -, j, -, rfl⟩ := hp
  rw [source_offset, add_zero]

/-- Bytes `s` rows and `t` rows from those that are visited do not meet when the rows do
not. -/
theorem pairwise_source {ks : List Nat} (hks : B.Order ks) {s t : Int} (hst : s - t < B.lines)
    (hts : t - s < B.lines) (horder : ks.Pairwise fun (a b : Nat) => (a : Int) + s ≠ b + t) :
    (B.offsets ks).Pairwise fun p q => B.source s p ≠ B.source t q := by
  have := B.y_nonneg
  have := B.y_le
  apply pairwise_offsets
  · intro k hk i j hij hj
    have hk := (hks k).mp hk
    rw [source_offset, source_offset]
    exact offset_ne (by omega) hj (by omega) (by omega) (by omega)
  · refine horder.imp_of_mem fun {a b} ha hb hab i j hi hj => ?_
    have ha := (hks a).mp ha
    have hb := (hks b).mp hb
    rw [source_offset, source_offset]
    exact offset_ne hi hj (by omega) (by omega) (by omega)

theorem pairwise_ne {ks : List Nat} (hks : B.Order ks) (hlines : 0 < B.lines)
    (horder : ks.Pairwise (· ≠ ·)) : (B.offsets ks).Pairwise (· ≠ ·) := by
  have hrows := pairwise_source (s := 0) (t := 0) hks (by omega) (by omega)
    (horder.imp fun hab => by omega)
  refine hrows.imp_of_mem fun {p q} hp hq h => ?_
  rwa [source_zero hp, source_zero hq] at h

/-- Rows moved in an order in which no row is written before it is read. -/
theorem byteAt_copy {ks : List Nat} (hks : B.Order ks) {n : Int}
    (hn : -B.lines < n ∧ n < B.lines)
    (horder : ks.Pairwise fun (a b : Nat) => a ≠ b ∧ (a : Int) ≠ b + n)
    {r i : Int} (h : B.Near r i) (m : Mem) :
    B.byteAt ((B.offsets ks).foldl (copyFrom (n * B.stride)) m) r i =
      if B.Covers r i then B.byteAt m (r + n) i else B.byteAt m r i := by
  have hne := pairwise_ne hks (by omega) (horder.imp And.left)
  have hread := pairwise_source (s := 0) (t := n) hks (by omega) (by omega)
    (horder.imp fun hab => by omega)
  have hpair : (B.offsets ks).Pairwise fun p q => p ≠ q ∧ p ≠ B.source n q := by
    refine (hne.and hread).imp_of_mem fun {p q} hp _ h => ?_
    rwa [source_zero hp] at h
  have hcopy := foldl_copy (B.source n) hpair m (offset (r * B.stride + i))
  simp only [offset_mem hks h, source_offset] at hcopy
  exact hcopy

/-- Rows moved in an order in which no row is written after it is read. -/
theorem byteAt_smear {ks : List Nat} (hks : B.Order ks) {n : Int}
    (hn : -B.lines < n ∧ n < B.lines)
    (horder : ks.Pairwise fun (a b : Nat) => a ≠ b ∧ (a : Int) + n ≠ b)
    {r i : Int} (h : B.Covers r i) (m : Mem) :
    B.byteAt ((B.offsets ks).foldl (copyFrom (n * B.stride)) m) r i =
      B.byteAt ((B.offsets ks).foldl (copyFrom (n * B.stride)) m) (r + n) i := by
  have hne := pairwise_ne hks (by omega) (horder.imp And.left)
  have hread := pairwise_source (s := n) (t := 0) hks (by omega) (by omega)
    (horder.imp fun hab => by omega)
  have hpair : (B.offsets ks).Pairwise fun p q => p ≠ q ∧ B.source n p ≠ q := by
    refine (hne.and hread).imp_of_mem fun {p q} _ hq h => ?_
    rwa [source_zero hq] at h
  have hsmear := foldl_smear (B.source n) hpair m ((offset_mem hks h.near).mpr h)
  rw [source_offset] at hsmear
  exact hsmear

/-- Bytes outside the block stay, in whatever order the rows are moved. -/
theorem byteAt_outside {ks : List Nat} (hks : B.Order ks) (d : Int) {r i : Int}
    (h : B.Near r i) (hout : ¬ B.Covers r i) (m : Mem) :
    B.byteAt ((B.offsets ks).foldl (copyFrom d) m) r i = B.byteAt m r i :=
  foldl_outside (fun m p => m (offset (p + d))) (mt (offset_mem hks h).mp hout) m

theorem order_range : B.Order (List.range B.lines) := fun _ => List.mem_range

theorem order_reverse : B.Order (List.range B.lines).reverse := fun _ => by
  rw [List.mem_reverse, List.mem_range]

theorem rowsOffsets_forward :
    rowsOffsets B.stride B.len B.lines (B.y * B.stride + B.x) = B.offsets (List.range B.lines) := by
  simp only [rowsOffsets, offsets, add_mul, add_right_comm]

theorem rowsOffsets_backward :
    rowsOffsets (-B.stride) B.len B.lines (B.y * B.stride + B.x + B.stride * (B.lines - 1)) =
      B.offsets (List.range B.lines).reverse := by
  have hreverse : (List.range B.lines).reverse = (List.range B.lines).map (B.lines - 1 - ·) := by
    rw [List.range_eq_range', List.reverse_range', List.range_eq_range', zero_add]
  rw [hreverse, offsets, List.flatMap_map, rowsOffsets]
  apply List.flatMap_congr
  intro k hk
  have hcast : ((B.lines - 1 - k : Nat) : Int) = B.lines - 1 - k := by
    have := List.mem_range.mp hk
    omega
  rw [hcast]
  congr 1
  linarith [mul_comm B.stride (B.lines - 1), add_mul B.y (B.lines - 1 - k) B.stride,
    sub_mul (B.lines - 1 : Int) k B.stride]

/-- `memmove_stride` on the block, from the rows `n` further down. -/
def moved (B : Block) (n : Int) (m : Mem) : Mem :=
  memmoveStride m (B.y * B.stride + B.x) (B.y * B.stride + B.x + n * B.stride) B.len B.stride
    B.lines

theorem moved_forward {n : Int} (m : Mem) (h : ¬ (B.y * B.stride + B.x + n * B.stride) % 0x100000000
    < (B.y * B.stride + B.x) % 0x100000000) :
    B.moved n m = (B.offsets (List.range B.lines)).foldl (copyFrom (n * B.stride)) m := by
  rw [moved, memmoveStride, if_neg h, moveLines_eq, rowsOffsets_forward]

theorem moved_backward {n : Int} (m : Mem) (h : (B.y * B.stride + B.x + n * B.stride) % 0x100000000
    < (B.y * B.stride + B.x) % 0x100000000) :
    B.moved n m = (B.offsets (List.range B.lines).reverse).foldl (copyFrom (n * B.stride)) m := by
  rw [moved, memmoveStride, if_pos h, add_right_comm (B.y * B.stride + B.x), moveLines_eq,
    rowsOffsets_backward]

/-- The first byte of a row of this screen or of the next one. -/
theorem row_bounds {r : Int} (hr : 0 ≤ r) (hr' : r < 2 * B.rows) :
    0 ≤ r * B.stride + B.x ∧ r * B.stride + B.x ≤ 0x10000 := by
  have := B.x_nonneg
  have := B.x_le
  have hstride : 0 ≤ B.stride := by omega
  have hnext : (r + 1) * B.stride ≤ 2 * B.rows * B.stride :=
    mul_le_mul_of_nonneg_right (by omega) hstride
  rw [add_mul, one_mul] at hnext
  have := mul_nonneg hr hstride
  have := B.fits
  omega

/-- Rows that are moved within the screen. -/
theorem byteAt_moved {n : Int} (hn : -B.lines < n ∧ n < B.lines) (hn₀ : n ≠ 0) (hlen : 0 < B.len)
    (hsource : 0 ≤ B.y + n) {r i : Int} (h : B.Near r i) (m : Mem) :
    B.byteAt (B.moved n m) r i = if B.Covers r i then B.byteAt m (r + n) i else B.byteAt m r i := by
  have := B.y_nonneg
  have := B.y_le
  have hstride : 0 < B.stride := by
    have := B.x_nonneg
    have := B.x_le
    omega
  have hdst := row_bounds (B := B) (r := B.y) (by omega) (by omega)
  have hsrc := row_bounds (B := B) (r := B.y + n) (by omega) (by omega)
  rw [add_mul] at hsrc
  rcases lt_or_gt_of_ne hn₀ with hneg | hpos
  · have := mul_neg_of_neg_of_pos hneg hstride
    rw [moved_backward m (by omega)]
    refine byteAt_copy order_reverse hn ?_ h m
    rw [List.pairwise_reverse]
    exact List.pairwise_lt_range.imp fun hab => ⟨by omega, by omega⟩
  · have := mul_pos hpos hstride
    rw [moved_forward m (by omega)]
    exact byteAt_copy order_range hn (List.pairwise_lt_range.imp fun hab => ⟨by omega, by omega⟩)
      h m

section
variable {n : Int} (hn : -B.lines < n ∧ n < B.lines) (hlen : 0 < B.len) (hsource : B.y + n < 0)
include hn hlen hsource

/-- A source that lies before the segment is above the destination, as an unsigned number. -/
theorem moved_wrapped (m : Mem) :
    B.moved n m = (B.offsets (List.range B.lines)).foldl (copyFrom (n * B.stride)) m := by
  have := B.y_nonneg
  have := B.y_le
  have := B.x_nonneg
  have := B.x_le
  have hdst := row_bounds (B := B) (r := B.y) (by omega) (by omega)
  have hrow : (B.y + n) * B.stride ≤ -1 * B.stride :=
    mul_le_mul_of_nonneg_right (by omega) (by omega)
  have hfar : -B.rows * B.stride ≤ (B.y + n) * B.stride :=
    mul_le_mul_of_nonneg_right (by omega) (by omega)
  have := B.fits
  rw [mul_assoc] at this
  rw [neg_mul] at hfar
  rw [add_mul] at hrow hfar
  exact moved_forward m (by omega)

theorem byteAt_wrapped {r i : Int} (h : B.Covers r i) (m : Mem) :
    B.byteAt (B.moved n m) r i = B.byteAt (B.moved n m) (r + n) i := by
  have := B.y_nonneg
  rw [moved_wrapped hn hlen hsource]
  exact byteAt_smear order_range hn
    (List.pairwise_lt_range.imp fun hab => ⟨by omega, by omega⟩) h m

theorem byteAt_wrapped_outside {r i : Int} (h : B.Near r i) (hout : ¬ B.Covers r i) (m : Mem) :
    B.byteAt (B.moved n m) r i = B.byteAt m r i := by
  rw [moved_wrapped hn hlen hsource]
  exact byteAt_outside order_range _ h hout m

end

/-- An offset that is not one of the block's is in no list of its rows. -/
theorem not_mem_offsets {ks : List Nat} (hks : B.Order ks) {p : Nat}
    (hp : ∀ r i, B.Covers r i → p ≠ offset (r * B.stride + i)) : p ∉ B.offsets ks := by
  intro hmem
  obtain ⟨k, hk, i, hi, rfl⟩ := B.mem_offsets.mp hmem
  have := (hks k).mp hk
  exact hp _ _ ⟨⟨by omega, by omega⟩, by omega, by omega⟩ rfl

/-- Only bytes of the block are stored to, in whatever order the rows are moved. -/
theorem moved_other (n : Int) (m : Mem) {p : Nat}
    (hp : ∀ r i, B.Covers r i → p ≠ offset (r * B.stride + i)) : B.moved n m p = m p := by
  by_cases h : (B.y * B.stride + B.x + n * B.stride) % 0x100000000
      < (B.y * B.stride + B.x) % 0x100000000
  · rw [moved_backward m h]
    exact foldl_outside _ (not_mem_offsets order_reverse hp) m
  · rw [moved_forward m h]
    exact foldl_outside _ (not_mem_offsets order_range hp) m

/-- `memset16_stride` on the block. -/
def filled (B : Block) (lo hi : UInt8) (m : Mem) : Mem :=
  memset16Stride lo hi B.len B.stride B.lines (B.y * B.stride + B.x) m

section
variable {w : Nat} (hlen : B.len = w * 2) (hstride : B.stride % 2 = 0) (hx : B.x % 2 = 0)
include hlen hstride hx

theorem filled_eq (lo hi : UInt8) (m : Mem) :
    B.filled lo hi m = (B.offsets (List.range B.lines)).foldl
      (fun m p => Function.update m p (wordByte lo hi p)) m := by
  have hdst : (B.y * B.stride + B.x) % 2 = 0 := by
    rw [Int.add_emod, Int.mul_emod, hstride, hx, mul_zero]
    rfl
  rw [filled, hlen, memset16Stride_eq lo hi w B.lines hstride hdst, ← hlen, rowsOffsets_forward]

theorem byteAt_filled (lo hi : UInt8) (m : Mem) {r i : Int} (h : B.Near r i) :
    B.byteAt (B.filled lo hi m) r i =
      if B.Covers r i then if i % 2 = 0 then lo else hi else B.byteAt m r i := by
  have hparity : (offset (r * B.stride + i) : Int) % 2 = i % 2 := by
    rw [offset_mod_two, Int.add_emod, Int.mul_emod, hstride]
    omega
  have hword : wordByte lo hi (offset (r * B.stride + i)) = if i % 2 = 0 then lo else hi := by
    rw [wordByte]
    congr 1
    rw [eq_iff_iff]
    omega
  rw [filled_eq hlen hstride hx, byteAt_fill order_range h, hword]

theorem filled_other (lo hi : UInt8) (m : Mem) {p : Nat}
    (hp : ∀ r i, B.Covers r i → p ≠ offset (r * B.stride + i)) : B.filled lo hi m p = m p := by
  rw [filled_eq hlen hstride hx]
  exact foldl_outside _ (not_mem_offsets order_range hp) m

end

end Block

end CsmWrap.Vga
