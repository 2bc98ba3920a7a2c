import Mathlib.Data.List.Basic
import Mathlib.Data.UInt
import Mathlib.Tactic.Ring

/-!
# Byte memory

Physical memory as a function from addresses to bytes:

* `copy`: bytes written one after the other, where a write to a byte that is
  not writable is dropped; `store` is the copy into plain RAM, and `storeFar` the one
  through a segment of real mode;
* `load`: the bytes of a range, with `load_store` and `load_sub` to read back
  parts of what was stored, and `store_patch` to overwrite a part;
* `leBytes`, `ofLeBytes`: little-endian numbers, and the reads and writes of
  machine words built on them;
* arrays of records of one size, as `flatMap` of their bytes.
-/

namespace CsmWrap.Memory

/-- What a program is built for. -/
inductive Arch
  | x86_64
  | ia32
  deriving DecidableEq, Repr

/-- The size of a pointer. -/
def sizeofUintptr : Arch → Nat
  | .x86_64 => 8
  | .ia32 => 4

abbrev Mem := Nat → UInt8

def writeByte (writable : Nat → Bool) (m : Mem) (a : Nat) (b : UInt8) : Mem :=
  fun x => if x = a ∧ writable a = true then b else m x

/-- Write `bytes` upwards from `a`. -/
def copy (writable : Nat → Bool) (m : Mem) (a : Nat) : List UInt8 → Mem
  | [] => m
  | b :: bytes => copy writable (writeByte writable m a b) (a + 1) bytes

def store (m : Mem) (a : Nat) (bytes : List UInt8) : Mem := copy (fun _ => true) m a bytes

theorem copy_outside (writable : Nat → Bool) (m : Mem) (a : Nat) (bytes : List UInt8) {x : Nat}
    (h : x < a ∨ a + bytes.length ≤ x) : copy writable m a bytes x = m x := by
  induction bytes generalizing m a with
  | nil => rfl
  | cons b bytes ih =>
    rw [List.length_cons] at h
    rw [copy, ih _ _ (by omega), writeByte, if_neg (by omega)]

theorem copy_readonly (writable : Nat → Bool) (m : Mem) (a : Nat) (bytes : List UInt8) {x : Nat}
    (h : writable x = false) : copy writable m a bytes x = m x := by
  induction bytes generalizing m a with
  | nil => rfl
  | cons b bytes ih =>
    rw [copy, ih, writeByte, if_neg]
    rintro ⟨rfl, hw⟩
    rw [h] at hw
    cases hw

theorem copy_inside {writable : Nat → Bool} (m : Mem) (a : Nat) (bytes : List UInt8) {i : Nat}
    (hi : i < bytes.length) (hw : writable (a + i) = true) :
    copy writable m a bytes (a + i) = bytes[i] := by
  induction bytes generalizing m a i with
  | nil => simp at hi
  | cons b bytes ih =>
    cases i with
    | zero => rw [copy, copy_outside _ _ _ _ (by omega), writeByte, if_pos ⟨rfl, hw⟩]; rfl
    | succ i =>
      have e : a + (i + 1) = a + 1 + i := by omega
      rw [e] at hw
      rw [copy, e, ih _ _ (by simpa using hi) hw]
      rfl

theorem store_outside (m : Mem) (a : Nat) (bytes : List UInt8) {x : Nat}
    (h : x < a ∨ a + bytes.length ≤ x) : store m a bytes x = m x :=
  copy_outside _ m a bytes h

theorem store_inside (m : Mem) (a : Nat) (bytes : List UInt8) {i : Nat} (hi : i < bytes.length) :
    store m a bytes (a + i) = bytes[i] :=
  copy_inside m a bytes hi rfl

/-- Write `n` zero bytes from `a` on. -/
def clear (m : Mem) (a n : Nat) : Mem := store m a (List.replicate n 0)

theorem clear_outside (m : Mem) {a n x : Nat} (h : x < a ∨ a + n ≤ x) : clear m a n x = m x :=
  store_outside m a _ (by simpa using h)

theorem clear_inside (m : Mem) {a n x : Nat} (h : a ≤ x) (h' : x < a + n) : clear m a n x = 0 := by
  obtain ⟨i, rfl⟩ := Nat.exists_eq_add_of_le h
  unfold clear
  rw [store_inside m a _ (by simp; omega), List.getElem_replicate]

/-- Two stores side by side are one store. -/
theorem store_append (m : Mem) (a : Nat) (p q : List UInt8) :
    store (store m a p) (a + p.length) q = store m a (p ++ q) := by
  induction p generalizing m a with
  | nil => rfl
  | cons b p ih =>
    have h := ih (writeByte (fun _ => true) m a b) (a + 1)
    rw [Nat.add_assoc, Nat.add_comm 1] at h
    exact h

/-- A store hides what an earlier store left in the same place. -/
theorem store_overwrite (m : Mem) (a : Nat) {q q' : List UInt8} (h : q'.length = q.length) :
    store (store m a q) a q' = store m a q' := by
  funext x
  by_cases hx : x < a ∨ a + q'.length ≤ x
  · rw [store_outside _ _ _ hx, store_outside _ _ _ hx, store_outside _ _ _ (h ▸ hx)]
  · obtain ⟨i, rfl⟩ : ∃ i, x = a + i := ⟨x - a, by omega⟩
    rw [store_inside _ _ _ (by omega), store_inside _ _ _ (by omega)]

theorem store_comm (m : Mem) {a b : Nat} {p q : List UInt8} (h : a + p.length ≤ b) :
    store (store m b q) a p = store (store m a p) b q := by
  funext x
  by_cases hx : x < a ∨ a + p.length ≤ x
  · rw [store_outside _ a _ hx]
    by_cases hy : x < b ∨ b + q.length ≤ x
    · rw [store_outside _ b _ hy, store_outside _ b _ hy, store_outside _ a _ hx]
    · obtain ⟨i, rfl⟩ : ∃ i, x = b + i := ⟨x - b, by omega⟩
      rw [store_inside _ _ _ (by omega), store_inside _ _ _ (by omega)]
  · rw [store_outside _ b _ (by omega)]
    obtain ⟨i, rfl⟩ : ∃ i, x = a + i := ⟨x - a, by omega⟩
    rw [store_inside _ _ _ (by omega), store_inside _ _ _ (by omega)]

/-- Overwriting a part of what was stored. -/
theorem store_patch (m : Mem) (a : Nat) (p : List UInt8) {q q' : List UInt8} (r : List UInt8)
    (h : q'.length = q.length) :
    store (store m a (p ++ (q ++ r))) (a + p.length) q' = store m a (p ++ (q' ++ r)) := by
  rw [← store_append, ← store_append, store_comm _ (by omega), store_overwrite _ _ h, ← h,
    store_append, store_append]

/-- A byte of a segment of real mode. Offsets wrap. -/
def farAddr (seg : UInt16) (offset : Nat) : Nat := 16 * seg.toNat + offset % 0x10000

/-- Write `bytes` upwards from an offset in a segment. -/
def storeFar (m : Mem) (seg : UInt16) (offset : Nat) : List UInt8 → Mem
  | [] => m
  | b :: bytes => storeFar (store m (farAddr seg offset) [b]) seg (offset + 1) bytes

theorem storeFar_outside (m : Mem) (seg : UInt16) (offset : Nat) (bytes : List UInt8) {a : Nat}
    (h : ∀ i < bytes.length, a ≠ farAddr seg (offset + i)) :
    storeFar m seg offset bytes a = m a := by
  induction bytes generalizing m offset with
  | nil => rfl
  | cons b bytes ih =>
    have hrest : ∀ i < bytes.length, a ≠ farAddr seg (offset + 1 + i) := by
      intro i hi
      rw [Nat.add_assoc, Nat.add_comm 1]
      exact h (i + 1) (Nat.succ_lt_succ hi)
    have hfirst : a ≠ farAddr seg offset := h 0 (Nat.succ_pos _)
    rw [storeFar, ih _ _ hrest]
    exact store_outside m _ [b] (by rw [List.length_singleton]; omega)

/-- Bytes that stay in their segment. -/
theorem storeFar_eq_store (m : Mem) (seg : UInt16) {offset : Nat} {bytes : List UInt8}
    (h : offset + bytes.length ≤ 0x10000) :
    storeFar m seg offset bytes = store m (16 * seg.toNat + offset) bytes := by
  induction bytes generalizing m offset with
  | nil => rfl
  | cons b bytes ih =>
    rw [List.length_cons] at h
    have haddr : farAddr seg offset = 16 * seg.toNat + offset := by
      unfold farAddr
      omega
    rw [storeFar, ih _ (by omega), haddr, ← Nat.add_assoc]
    exact store_append m _ [b] bytes

def load (m : Mem) (a n : Nat) : List UInt8 := (List.range n).map fun i => m (a + i)

@[simp] theorem length_load (m : Mem) (a n : Nat) : (load m a n).length = n := by simp [load]

theorem getElem_load (m : Mem) (a n : Nat) {i : Nat} (h : i < (load m a n).length) :
    (load m a n)[i] = m (a + i) := by simp [load]

theorem load_congr {m m' : Mem} {a n : Nat} (h : ∀ i < n, m (a + i) = m' (a + i)) :
    load m a n = load m' a n :=
  List.map_congr_left fun i hi => h i (List.mem_range.mp hi)

theorem load_store (m : Mem) (a : Nat) (bytes : List UInt8) :
    load (store m a bytes) a bytes.length = bytes := by
  apply List.ext_getElem (by simp)
  intro i h h'
  rw [getElem_load, store_inside m a bytes h']

theorem load_store_outside (m : Mem) {a : Nat} (bytes : List UInt8) {b n : Nat}
    (h : b + n ≤ a ∨ a + bytes.length ≤ b) : load (store m a bytes) b n = load m b n := by
  apply load_congr
  intro i hi
  exact store_outside m a bytes (by omega)

/-- Storing what is there changes nothing. -/
theorem store_load (m : Mem) (a n : Nat) : store m a (load m a n) = m := by
  funext x
  by_cases hx : x < a ∨ a + (load m a n).length ≤ x
  · exact store_outside _ _ _ hx
  · obtain ⟨i, rfl⟩ : ∃ i, x = a + i := ⟨x - a, by omega⟩
    rw [store_inside _ _ _ (by omega), getElem_load]

/-- A part of a range, cut out of the whole. -/
theorem load_sub (m : Mem) (a : Nat) {i n k : Nat} (h : i + n ≤ k) :
    load m (a + i) n = ((load m a k).drop i).take n := by
  apply List.ext_getElem
  · simp only [length_load, List.length_take, List.length_drop]
    omega
  · intro j hj hj'
    rw [List.getElem_take, List.getElem_drop, getElem_load, getElem_load, Nat.add_assoc]

/-- The middle part of what was stored. -/
theorem load_store_mid (m : Mem) (a : Nat) (p q r : List UInt8) :
    load (store m a (p ++ (q ++ r))) (a + p.length) q.length = q := by
  rw [load_sub (k := (p ++ (q ++ r)).length) _ a (by simp only [List.length_append]; omega),
    load_store, List.drop_left, List.take_left]

def leBytes : Nat → Nat → List UInt8
  | 0, _ => []
  | n + 1, v => UInt8.ofNat v :: leBytes n (v / 256)

def ofLeBytes : List UInt8 → Nat
  | [] => 0
  | b :: bytes => b.toNat + 256 * ofLeBytes bytes

@[simp] theorem length_leBytes (n v : Nat) : (leBytes n v).length = n := by
  induction n generalizing v with
  | zero => rfl
  | succ n ih => simp [leBytes, ih]

theorem ofLeBytes_leBytes (n v : Nat) : ofLeBytes (leBytes n v) = v % 256 ^ n := by
  induction n generalizing v with
  | zero => simp [leBytes, ofLeBytes, Nat.mod_one]
  | succ n ih =>
    have hb : (UInt8.ofNat v).toNat = v % 256 := by simp
    rw [leBytes, ofLeBytes, ih, hb, Nat.pow_succ, Nat.mul_comm (256 ^ n) 256, Nat.mod_mul]

theorem leBytes_inj {n v w : Nat} (hv : v < 256 ^ n) (hw : w < 256 ^ n) :
    leBytes n v = leBytes n w ↔ v = w := by
  constructor
  · intro h
    have h' := congrArg ofLeBytes h
    rwa [ofLeBytes_leBytes, ofLeBytes_leBytes, Nat.mod_eq_of_lt hv, Nat.mod_eq_of_lt hw] at h'
  · rintro rfl
    rfl

theorem leBytes_ofLeBytes (bytes : List UInt8) :
    leBytes bytes.length (ofLeBytes bytes) = bytes := by
  induction bytes with
  | nil => rfl
  | cons b bytes ih =>
    have hb := b.toNat_lt
    have hlow : UInt8.ofNat (b.toNat + 256 * ofLeBytes bytes) = b := by
      rw [← UInt8.toNat_inj, UInt8.toNat_ofNat']
      omega
    have hhigh : (b.toNat + 256 * ofLeBytes bytes) / 256 = ofLeBytes bytes := by omega
    rw [ofLeBytes, List.length_cons, leBytes, hlow, hhigh, ih]

theorem ofLeBytes_lt (bytes : List UInt8) : ofLeBytes bytes < 256 ^ bytes.length := by
  induction bytes with
  | nil => exact Nat.one_pos
  | cons b bytes ih =>
    have hb := b.toNat_lt
    rw [ofLeBytes, List.length_cons, Nat.pow_succ]
    omega

def read16 (m : Mem) (a : Nat) : UInt16 := UInt16.ofNat (ofLeBytes (load m a 2))

def read32 (m : Mem) (a : Nat) : UInt32 := UInt32.ofNat (ofLeBytes (load m a 4))

def read64 (m : Mem) (a : Nat) : UInt64 := UInt64.ofNat (ofLeBytes (load m a 8))

def write32 (m : Mem) (a : Nat) (v : UInt32) : Mem := store m a (leBytes 4 v.toNat)

theorem read32_of_load {m : Mem} {a : Nat} {v : UInt32} (h : load m a 4 = leBytes 4 v.toNat) :
    read32 m a = v := by
  have hv := v.toNat_lt
  unfold read32
  rw [h, ofLeBytes_leBytes, Nat.mod_eq_of_lt (by omega), UInt32.ofNat_toNat]

theorem leBytes_read32 (m : Mem) (a : Nat) : leBytes 4 (read32 m a).toNat = load m a 4 := by
  have hlt := ofLeBytes_lt (load m a 4)
  have hle := leBytes_ofLeBytes (load m a 4)
  rw [length_load] at hlt hle
  unfold read32
  rw [UInt32.toNat_ofNat', Nat.mod_eq_of_lt (by omega), hle]

theorem read32_write32 (m : Mem) (a : Nat) (v : UInt32) : read32 (write32 m a v) a = v := by
  have h := load_store m a (leBytes 4 v.toNat)
  rw [length_leBytes] at h
  exact read32_of_load h

theorem read32_write32_of_ne (m : Mem) {a b : Nat} (v : UInt32) (h : b + 4 ≤ a ∨ a + 4 ≤ b) :
    read32 (write32 m a v) b = read32 m b := by
  have hload : load (write32 m a v) b 4 = load m b 4 :=
    load_congr fun i hi => store_outside m a _ (by rw [length_leBytes]; omega)
  rw [read32, hload, read32]

/-- Writing a word and then the word that was there. -/
theorem write32_restore (m : Mem) (a : Nat) (v : UInt32) :
    write32 (write32 m a v) a (read32 m a) = m := by
  rw [write32, write32, store_overwrite _ _ (by simp), leBytes_read32, store_load]

theorem read64_of_load {m : Mem} {a : Nat} {v : UInt64} (h : load m a 8 = leBytes 8 v.toNat) :
    read64 m a = v := by
  have hv := v.toNat_lt
  unfold read64
  rw [h, ofLeBytes_leBytes, Nat.mod_eq_of_lt (by omega), UInt64.ofNat_toNat]

section
variable {α : Type*} {f : α → List UInt8} {n : Nat}

theorem length_records (hf : ∀ x, (f x).length = n) (l : List α) :
    (l.flatMap f).length = n * l.length := by
  induction l with
  | nil => rfl
  | cons x l ih =>
    rw [List.flatMap_cons, List.length_append, hf, ih, List.length_cons, Nat.mul_succ,
      Nat.add_comm]

/-- The records before, at and after an index. -/
theorem records_split (f : α → List UInt8) (l : List α) {i : Nat} (hi : i < l.length) :
    l.flatMap f = (l.take i).flatMap f ++ (f l[i] ++ (l.drop (i + 1)).flatMap f) := by
  rw [← List.flatMap_cons, ← List.flatMap_append, ← List.drop_eq_getElem_cons hi,
    List.take_append_drop]

theorem length_records_take (hf : ∀ x, (f x).length = n) (l : List α) {i : Nat}
    (hi : i < l.length) : ((l.take i).flatMap f).length = n * i := by
  rw [length_records hf, List.length_take, Nat.min_eq_left hi.le]

/-- Record `i` of an array is where C's indexing looks for it. -/
theorem load_record (hf : ∀ x, (f x).length = n) (m : Mem) (a : Nat) (l : List α)
    (rest : List UInt8) {i : Nat} (hi : i < l.length) :
    load (store m a (l.flatMap f ++ rest)) (a + n * i) n = f l[i] := by
  have h := load_store_mid m a ((l.take i).flatMap f) (f l[i])
    ((l.drop (i + 1)).flatMap f ++ rest)
  rwa [length_records_take hf l hi, ← List.append_assoc (f l[i]), ← List.append_assoc,
    ← records_split f l hi, hf] at h

/-- Writing a record over record `i` of an array. -/
theorem store_record (hf : ∀ x, (f x).length = n) (m : Mem) (a : Nat) (l : List α)
    (rest : List UInt8) {i : Nat} (hi : i < l.length) (x : α) :
    store (store m a (l.flatMap f ++ rest)) (a + n * i) (f x) =
      store m a ((l.set i x).flatMap f ++ rest) := by
  rw [List.set_eq_take_append_cons_drop, if_pos hi]
  have h := store_patch m a ((l.take i).flatMap f) ((l.drop (i + 1)).flatMap f ++ rest)
    ((hf x).trans (hf l[i]).symm)
  rwa [length_records_take hf l hi, ← List.append_assoc (f l[i]), ← List.append_assoc,
    ← records_split f l hi, ← List.append_assoc (f x), ← List.append_assoc, ← List.flatMap_cons,
    ← List.flatMap_append] at h

end

def word (w : UInt32) : List UInt8 := leBytes 4 w.toNat

def wordBytes (words : List UInt32) : List UInt8 := words.flatMap word

theorem length_word (w : UInt32) : (word w).length = 4 := length_leBytes 4 w.toNat

@[simp] theorem length_wordBytes (words : List UInt32) :
    (wordBytes words).length = 4 * words.length :=
  length_records length_word words

theorem read32_word (m : Mem) (a : Nat) (words : List UInt32) (rest : List UInt8) {i : Nat}
    (hi : i < words.length) : read32 (store m a (wordBytes words ++ rest)) (a + 4 * i) = words[i] :=
  read32_of_load (load_record length_word m a words rest hi)

theorem write32_word (m : Mem) (a : Nat) (words : List UInt32) (rest : List UInt8) {i : Nat}
    (hi : i < words.length) (v : UInt32) :
    write32 (store m a (wordBytes words ++ rest)) (a + 4 * i) v =
      store m a (wordBytes (words.set i v) ++ rest) :=
  store_record length_word m a words rest hi v

end CsmWrap.Memory
