import Mathlib.Data.List.Nodup
import Mathlib.Data.List.Pairwise
import Mathlib.Logic.Function.Basic

/-!
# Arenas

Memory handed out from the top of free ranges. A list of chunks, highest first,
describes some ranges of addresses: each chunk uses its first bytes and leaves
the rest of it free.

* `Fills`: the chunks fill the ranges without gaps. The lowest chunk of a range
  uses nothing; it is never released and takes back the space above it.
* `carve`: the first chunk with enough free space gives the top of it to a new one.
* `release`: a chunk leaves the list and the next one below takes its space.
* `fills_ext`: where each chunk ends follows from the ranges and from where the
  chunks begin, so the list does not remember in which order it was made.
-/

namespace CsmWrap.Arena

/-- The addresses `[lo, hi)`, of which the first `used` are in use. -/
structure Chunk (κ : Type*) where
  key : κ
  lo : Nat
  hi : Nat
  used : Nat
  deriving DecidableEq, Repr

section
variable {κ : Type*}

/-- Two ranges that share no address, and no inner point where one is empty. -/
def Apart (r s : Nat × Nat) : Prop := r.2 ≤ s.1 ∨ s.2 ≤ r.1

theorem Apart.symm {r s : Nat × Nat} (h : Apart r s) : Apart s r := Or.symm h

theorem Apart.mono {r s r' s' : Nat × Nat} (h : Apart r s) (hr : r.1 ≤ r'.1 ∧ r'.2 ≤ r.2)
    (hs : s.1 ≤ s'.1 ∧ s'.2 ≤ s.2) : Apart r' s' := by
  simp only [Apart] at h ⊢
  omega

/-- The chunks fill the ranges from the top down. In each range the chunks in use
lie on one another, and the lowest of them on a chunk that uses nothing. -/
inductive Fills : List (Chunk κ) → List (Nat × Nat) → Prop
  | nil : Fills [] []
  | base {c : Chunk κ} {l : List (Chunk κ)} {E : List (Nat × Nat)} :
      c.used = 0 → c.lo ≤ c.hi → Fills l E → Fills (c :: l) ((c.lo, c.hi) :: E)
  | block {c : Chunk κ} {l : List (Chunk κ)} {E : List (Nat × Nat)} {lo : Nat} :
      0 < c.used → c.lo + c.used ≤ c.hi → Fills l ((lo, c.lo) :: E) →
      Fills (c :: l) ((lo, c.hi) :: E)

theorem fills_cons {c : Chunk κ} {l : List (Chunk κ)} {E : List (Nat × Nat)} :
    Fills (c :: l) E ↔
      (c.used = 0 ∧ c.lo ≤ c.hi ∧ ∃ E', E = (c.lo, c.hi) :: E' ∧ Fills l E') ∨
      (0 < c.used ∧ c.lo + c.used ≤ c.hi ∧
        ∃ lo E', E = (lo, c.hi) :: E' ∧ Fills l ((lo, c.lo) :: E')) := by
  constructor
  · intro h
    cases h with
    | base hu hle hl => exact .inl ⟨hu, hle, _, rfl, hl⟩
    | block hu hle hl => exact .inr ⟨hu, hle, _, _, rfl, hl⟩
  · rintro (⟨hu, hle, E', rfl, hl⟩ | ⟨hu, hle, lo, E', rfl, hl⟩)
    · exact .base hu hle hl
    · exact .block hu hle hl

/-- The bytes of a chunk that are in use. -/
def Chunk.taken (c : Chunk κ) : Nat × Nat := (c.lo, c.lo + c.used)

/-- All the bytes of a chunk. -/
def Chunk.span (c : Chunk κ) : Nat × Nat := (c.lo, c.hi)

theorem Fills.used_le {l : List (Chunk κ)} {E : List (Nat × Nat)} (h : Fills l E) :
    ∀ c ∈ l, c.lo + c.used ≤ c.hi := by
  induction h with
  | nil => simp
  | base hu hle _ ih => simpa [hu, hle] using ih
  | block _ hle _ ih => simpa [hle] using ih

theorem Fills.range_le {l : List (Chunk κ)} {E : List (Nat × Nat)} (h : Fills l E) :
    ∀ e ∈ E, e.1 ≤ e.2 := by
  induction h with
  | nil => simp
  | base _ hle _ ih => simpa [hle] using ih
  | block _ hle _ ih =>
    simp only [List.mem_cons, forall_eq_or_imp] at ih ⊢
    exact ⟨by omega, ih.2⟩

theorem Fills.mem_range {l : List (Chunk κ)} {E : List (Nat × Nat)} (h : Fills l E) :
    ∀ c ∈ l, ∃ e ∈ E, e.1 ≤ c.lo ∧ c.hi ≤ e.2 := by
  induction h with
  | nil => simp
  | @base c l E hu hle _ ih =>
    intro d hd
    obtain rfl | hd := List.mem_cons.mp hd
    · exact ⟨_, List.mem_cons_self, Nat.le_refl _, Nat.le_refl _⟩
    · obtain ⟨e, he, hin⟩ := ih d hd
      exact ⟨e, List.mem_cons_of_mem _ he, hin⟩
  | @block c l E lo hu hle hl ih =>
    have hlo : lo ≤ c.lo := hl.range_le _ List.mem_cons_self
    intro d hd
    obtain rfl | hd := List.mem_cons.mp hd
    · exact ⟨_, List.mem_cons_self, hlo, Nat.le_refl _⟩
    · obtain ⟨e, he, hin⟩ := ih d hd
      obtain rfl | he := List.mem_cons.mp he
      · -- below the new chunk, in the range that it heightens
        exact ⟨_, List.mem_cons_self, hin.1, by simp only at hin ⊢; omega⟩
      · exact ⟨e, List.mem_cons_of_mem _ he, hin⟩

/-- Ranges listed from the highest to the lowest. -/
def Descending (E : List (Nat × Nat)) : Prop := E.Pairwise fun e f => f.2 ≤ e.1

theorem Fills.descending {l : List (Chunk κ)} {E : List (Nat × Nat)} (h : Fills l E)
    (hE : Descending E) : l.Pairwise fun c d => d.hi ≤ c.lo := by
  induction h with
  | nil => exact .nil
  | @base c l E _ _ hl ih =>
    obtain ⟨hhead, htail⟩ := List.pairwise_cons.mp hE
    refine List.pairwise_cons.mpr ⟨fun d hd => ?_, ih htail⟩
    obtain ⟨e, he, -, hhi⟩ := hl.mem_range d hd
    exact Nat.le_trans hhi (hhead e he)
  | @block c l E lo _ _ hl ih =>
    obtain ⟨hhead, htail⟩ := List.pairwise_cons.mp hE
    have hlo : lo ≤ c.lo := hl.range_le _ List.mem_cons_self
    refine List.pairwise_cons.mpr ⟨fun d hd => ?_, ih (List.pairwise_cons.mpr ⟨hhead, htail⟩)⟩
    obtain ⟨e, he, -, hhi⟩ := hl.mem_range d hd
    obtain rfl | he := List.mem_cons.mp he
    · exact hhi
    · exact Nat.le_trans hhi (Nat.le_trans (hhead e he) hlo)

/-- The lowest chunk of each range may be empty, but another chunk in its place
would have to be empty too. -/
theorem Fills.apart {l : List (Chunk κ)} {E : List (Nat × Nat)} (h : Fills l E)
    (hE : Descending E) {c d : Chunk κ} (hc : c ∈ l) (hd : d ∈ l) (hne : c ≠ d) :
    Apart c.span d.span := by
  have hp : l.Pairwise fun c d => Apart c.span d.span :=
    (h.descending hE).imp fun h => .inr h
  have : Std.Symm fun c d : Chunk κ => Apart c.span d.span := ⟨fun _ _ => Apart.symm⟩
  exact hp.forall hc hd hne

/-! ## The list is determined by where its chunks begin -/

/-- A chunk without its end. -/
def Chunk.stub (c : Chunk κ) : κ × Nat × Nat := (c.key, c.lo, c.used)

theorem fills_ext {l l' : List (Chunk κ)} {E : List (Nat × Nat)} (h : Fills l E)
    (h' : Fills l' E) (hs : l.map Chunk.stub = l'.map Chunk.stub) : l = l' := by
  induction l generalizing l' E with
  | nil => exact (List.map_eq_nil_iff.mp hs.symm).symm
  | cons c l ih =>
    obtain ⟨c', l', rfl, hc, hl⟩ := List.map_eq_cons_iff.mp hs.symm
    simp only [Chunk.stub, Prod.mk.injEq] at hc
    obtain ⟨hkey, hlo, hused⟩ := hc
    obtain ⟨hu, -, E₁, rfl, ht⟩ | ⟨hu, -, lo, E₁, rfl, ht⟩ := fills_cons.mp h
    · obtain ⟨-, -, E₂, hE, ht'⟩ | ⟨hu', -⟩ := fills_cons.mp h'
      · obtain ⟨⟨-, hhi⟩, rfl⟩ := by simpa using hE
        rw [ih ht ht' hl.symm, show c = c' by cases c; cases c'; simp_all]
      · omega
    · obtain ⟨hu', -⟩ | ⟨-, -, lo', E₂, hE, ht'⟩ := fills_cons.mp h'
      · omega
      · obtain ⟨⟨rfl, hhi⟩, rfl⟩ := by simpa using hE
        rw [hlo] at ht'
        rw [ih ht ht' hl.symm, show c = c' by cases c; cases c'; simp_all]

/-- The address `align` allows for `size` bytes at the top of a chunk. -/
def Chunk.cut (c : Chunk κ) (size align : Nat) : Nat := (c.hi - size) / align * align

def Chunk.Fits (c : Chunk κ) (size align : Nat) : Prop :=
  size ≤ c.hi ∧ c.lo + c.used ≤ c.cut size align

instance (c : Chunk κ) (size align : Nat) : Decidable (c.Fits size align) :=
  inferInstanceAs (Decidable (_ ∧ _))

theorem Chunk.Fits.cut_add_le {c : Chunk κ} {size align : Nat} (h : c.Fits size align) :
    c.cut size align + size ≤ c.hi := by
  have hle : c.cut size align ≤ c.hi - size := Nat.div_mul_le_self _ _
  have := h.1
  omega

/-- The first chunk that fits gives its top to a new one. -/
def carve (key : κ) (size align : Nat) : List (Chunk κ) → Option (Nat × List (Chunk κ))
  | [] => none
  | c :: l =>
    if c.Fits size align then
      let cut := c.cut size align
      some (cut, ⟨key, cut, c.hi, size⟩ :: { c with hi := cut } :: l)
    else (carve key size align l).map fun r => (r.1, c :: r.2)

/-- A chunk leaves the list and the one below takes its space. -/
def release [DecidableEq κ] (key : κ) : List (Chunk κ) → List (Chunk κ)
  | [] => []
  | c :: l =>
    if c.key = key then
      match l with
      | [] => []
      | d :: l => (if d.hi = c.lo then { d with hi := c.hi } else d) :: l
    else c :: release key l

theorem carve_eq_none {key : κ} {size align : Nat} {l : List (Chunk κ)} :
    carve key size align l = none ↔ ∀ c ∈ l, ¬ c.Fits size align := by
  induction l with
  | nil => simp [carve]
  | cons c l ih =>
    by_cases hc : c.Fits size align
    · simp [carve, hc]
    · simp [carve, hc, ih]

theorem carve_eq_some {key : κ} {size align a : Nat} {l l' : List (Chunk κ)}
    (h : carve key size align l = some (a, l')) :
    ∃ pre c post, l = pre ++ c :: post ∧ c.Fits size align ∧ a = c.cut size align ∧
      l' = pre ++ ⟨key, a, c.hi, size⟩ :: { c with hi := a } :: post := by
  induction l generalizing l' with
  | nil => simp [carve] at h
  | cons c l ih =>
    by_cases hc : c.Fits size align
    · simp only [carve, hc, ↓reduceIte, Option.some.injEq, Prod.mk.injEq] at h
      obtain ⟨rfl, rfl⟩ := h
      exact ⟨[], c, l, rfl, hc, rfl, rfl⟩
    · simp only [carve, hc, ↓reduceIte, Option.map_eq_some_iff, Prod.mk.injEq] at h
      obtain ⟨⟨b, l₁⟩, h, rfl, rfl⟩ := h
      obtain ⟨pre, d, post, rfl, hfit, ha, hl⟩ := ih h
      exact ⟨c :: pre, d, post, rfl, hfit, ha, congrArg (c :: ·) hl⟩

/-- What stands at the end of the list may be exchanged for what fills the same ranges. -/
theorem Fills.exchange {pre l l' : List (Chunk κ)} {E : List (Nat × Nat)}
    (h : Fills (pre ++ l) E) (hl : ∀ F, Fills l F → Fills l' F) : Fills (pre ++ l') E := by
  induction pre generalizing E with
  | nil => exact hl E h
  | cons c pre ih =>
    obtain ⟨hu, hle, E, rfl, ht⟩ | ⟨hu, hle, lo, E, rfl, ht⟩ := fills_cons.mp h
    · exact .base hu hle (ih ht)
    · exact .block hu hle (ih ht)

theorem Fills.suffix {pre l : List (Chunk κ)} {E : List (Nat × Nat)} (h : Fills (pre ++ l) E) :
    ∃ F, Fills l F := by
  induction pre generalizing E with
  | nil => exact ⟨E, h⟩
  | cons c pre ih =>
    obtain ⟨-, -, E, rfl, ht⟩ | ⟨-, -, lo, E, rfl, ht⟩ := fills_cons.mp h <;> exact ih ht

/-- The top chunk of a range may end anywhere above what it uses. -/
theorem Fills.set_top {c : Chunk κ} {l : List (Chunk κ)} {E : List (Nat × Nat)}
    (h : Fills (c :: l) E) (hi : Nat) (hle : c.lo + c.used ≤ hi) :
    ∃ lo E', E = (lo, c.hi) :: E' ∧ Fills ({ c with hi } :: l) ((lo, hi) :: E') := by
  obtain ⟨hu, -, E, rfl, ht⟩ | ⟨hu, -, lo, E, rfl, ht⟩ := fills_cons.mp h
  · exact ⟨_, _, rfl, .base hu (show c.lo ≤ hi by omega) ht⟩
  · exact ⟨_, _, rfl, .block hu hle ht⟩

theorem fills_carve {key : κ} {size align a : Nat} {l l' : List (Chunk κ)}
    {E : List (Nat × Nat)} (hl : Fills l E) (hsize : 0 < size)
    (h : carve key size align l = some (a, l')) : Fills l' E := by
  obtain ⟨pre, c, post, rfl, hfit, rfl, rfl⟩ := carve_eq_some h
  refine hl.exchange fun F hF => ?_
  obtain ⟨lo, F, rfl, hcut⟩ := hF.set_top _ hfit.2
  exact .block hsize hfit.cut_add_le hcut

/-- A chunk in use has one below it, which ends where it begins. -/
theorem Fills.exists_below {c : Chunk κ} {l : List (Chunk κ)} {E : List (Nat × Nat)}
    (h : Fills (c :: l) E) (hc : 0 < c.used) :
    ∃ d post, l = d :: post ∧ d.hi = c.lo ∧ Fills ({ d with hi := c.hi } :: post) E := by
  obtain ⟨hu, -⟩ | ⟨-, hle, lo, E, rfl, ht⟩ := fills_cons.mp h
  · omega
  · cases l with
    | nil => cases ht
    | cons d post =>
      have hd := ht.used_le d List.mem_cons_self
      obtain ⟨lo', E', hE, -⟩ := ht.set_top _ hd
      obtain ⟨⟨rfl, htop⟩, rfl⟩ := by simpa using hE
      obtain ⟨lo'', E'', hE, hset⟩ := ht.set_top c.hi (by omega)
      obtain ⟨⟨rfl, -⟩, rfl⟩ := by simpa using hE
      exact ⟨d, post, rfl, htop.symm, hset⟩

section
variable [DecidableEq κ]

theorem release_cons_self {c : Chunk κ} {d : Chunk κ} {l : List (Chunk κ)} (h : d.hi = c.lo) :
    release c.key (c :: d :: l) = { d with hi := c.hi } :: l := by
  simp [release, h]

theorem release_cons_ne {key : κ} {c : Chunk κ} (h : c.key ≠ key) (l : List (Chunk κ)) :
    release key (c :: l) = c :: release key l := by
  simp [release, h]

theorem release_append {key : κ} {pre : List (Chunk κ)} (hpre : ∀ d ∈ pre, d.key ≠ key)
    (l : List (Chunk κ)) : release key (pre ++ l) = pre ++ release key l := by
  induction pre with
  | nil => rfl
  | cons c pre ih =>
    rw [List.cons_append, release_cons_ne (hpre c (by simp)),
      ih fun d hd => hpre d (by simp [hd])]
    rfl

theorem release_absent {key : κ} {l : List (Chunk κ)} (hl : ∀ d ∈ l, d.key ≠ key) :
    release key l = l := by
  simpa [release] using release_append hl []

/-- Where a chunk in use stands, and what its release leaves there. -/
theorem release_eq {l : List (Chunk κ)} {E : List (Nat × Nat)} (hl : Fills l E)
    (hkeys : (l.map Chunk.key).Nodup) {c : Chunk κ} (hc : c ∈ l) (hused : 0 < c.used) :
    ∃ pre d post, l = pre ++ c :: d :: post ∧ d.hi = c.lo ∧
      release c.key l = pre ++ { d with hi := c.hi } :: post := by
  obtain ⟨pre, post, rfl⟩ := List.append_of_mem hc
  have hfree : ∀ d ∈ pre, d.key ≠ c.key := by
    intro d hd he
    rw [List.map_append, List.nodup_append] at hkeys
    exact hkeys.2.2 _ (List.mem_map_of_mem hd) _ (List.mem_map_of_mem List.mem_cons_self) he
  have htail : ∃ F, Fills (c :: post) F := hl.suffix
  obtain ⟨F, hF⟩ := htail
  obtain ⟨d, post, rfl, hhi, -⟩ := hF.exists_below hused
  exact ⟨pre, d, post, rfl, hhi, by rw [release_append hfree, release_cons_self hhi]⟩

/-- Releasing a chunk in use keeps the ranges filled. -/
theorem fills_release {l : List (Chunk κ)} {E : List (Nat × Nat)} (hl : Fills l E)
    (hkeys : (l.map Chunk.key).Nodup) {c : Chunk κ} (hc : c ∈ l) (hused : 0 < c.used) :
    Fills (release c.key l) E := by
  obtain ⟨pre, d, post, rfl, hhi, e⟩ := release_eq hl hkeys hc hused
  rw [e]
  refine hl.exchange fun F hF => ?_
  obtain ⟨d', post', hpost, -, h⟩ := hF.exists_below hused
  obtain ⟨rfl, rfl⟩ := by simpa using hpost
  exact h

/-- It takes only its own stub out. -/
theorem release_stubs {l : List (Chunk κ)} {E : List (Nat × Nat)} (hl : Fills l E)
    (hkeys : (l.map Chunk.key).Nodup) {c : Chunk κ} (hc : c ∈ l) (hused : 0 < c.used) :
    (release c.key l).map Chunk.stub = (l.map Chunk.stub).filter (·.1 ≠ c.key) := by
  obtain ⟨pre, d, post, rfl, hhi, e⟩ := release_eq hl hkeys hc hused
  have hstay : ∀ s ∈ pre.map Chunk.stub ++ (d :: post).map Chunk.stub, s.1 ≠ c.key := by
    rw [List.map_append, List.map_cons, List.nodup_middle, List.nodup_cons] at hkeys
    rw [← List.map_append]
    intro s hs he
    obtain ⟨x, hx, rfl⟩ := List.mem_map.mp hs
    exact hkeys.1 (by rw [← List.map_append]; exact List.mem_map.mpr ⟨x, hx, he⟩)
  rw [e, List.map_append, List.map_append, List.map_cons (l := d :: post), List.filter_append,
    List.filter_cons_of_neg (by simp [Chunk.stub]), ← List.filter_append,
    List.filter_eq_self.mpr fun s hs => decide_eq_true (hstay s hs)]
  rfl

theorem release_nodup {l : List (Chunk κ)} {E : List (Nat × Nat)} (hl : Fills l E)
    (hkeys : (l.map Chunk.key).Nodup) {c : Chunk κ} (hc : c ∈ l) (hused : 0 < c.used) :
    ((release c.key l).map Chunk.key).Nodup := by
  have e : ∀ l : List (Chunk κ), l.map Chunk.key = (l.map Chunk.stub).map Prod.fst := by
    simp [Chunk.stub]
  rw [e, release_stubs hl hkeys hc hused]
  rw [e] at hkeys
  exact hkeys.sublist (List.filter_sublist.map _)

/-- Carving only adds a stub, so leaving it out again gives the old ones. -/
theorem carve_stubs_filter {key : κ} {size align a : Nat} {l l' : List (Chunk κ)}
    (h : carve key size align l = some (a, l')) (hkey : key ∉ l.map Chunk.key) :
    (l'.map Chunk.stub).filter (·.1 ≠ key) = l.map Chunk.stub := by
  obtain ⟨pre, c, post, rfl, -, -, rfl⟩ := carve_eq_some h
  have hstay : ∀ s ∈ (pre ++ c :: post).map Chunk.stub, s.1 ≠ key := by
    rintro s hs rfl
    obtain ⟨x, hx, rfl⟩ := List.mem_map.mp hs
    exact hkey (List.mem_map.mpr ⟨x, hx, rfl⟩)
  have hsame : pre.map Chunk.stub ++ ({ c with hi := a } :: post).map Chunk.stub =
      (pre ++ c :: post).map Chunk.stub := by simp [Chunk.stub]
  rw [List.map_append, List.map_cons, List.filter_append,
    List.filter_cons_of_neg (by simp [Chunk.stub]), ← List.filter_append, hsame]
  exact List.filter_eq_self.mpr fun s hs => decide_eq_true (hstay s hs)

end

theorem mem_carve_stubs {key : κ} {size align a : Nat} {l l' : List (Chunk κ)}
    (h : carve key size align l = some (a, l')) (s : κ × Nat × Nat) :
    s ∈ l'.map Chunk.stub ↔ s = (key, a, size) ∨ s ∈ l.map Chunk.stub := by
  obtain ⟨pre, c, post, rfl, -, -, rfl⟩ := carve_eq_some h
  simp only [List.map_append, List.map_cons, List.mem_append, List.mem_cons, Chunk.stub]
  exact or_left_comm

theorem carve_nodup {key : κ} {size align a : Nat} {l l' : List (Chunk κ)}
    (h : carve key size align l = some (a, l')) (hl : (l.map Chunk.key).Nodup)
    (hkey : key ∉ l.map Chunk.key) : (l'.map Chunk.key).Nodup := by
  obtain ⟨pre, c, post, rfl, -, -, rfl⟩ := carve_eq_some h
  rw [List.map_append, List.map_cons, List.nodup_middle, List.nodup_cons]
  rw [List.map_append] at hl hkey
  exact ⟨hkey, hl⟩

theorem dvd_carve {key : κ} {size align a : Nat} {l l' : List (Chunk κ)}
    (h : carve key size align l = some (a, l')) : align ∣ a := by
  obtain ⟨pre, c, post, -, -, rfl, -⟩ := carve_eq_some h
  exact Nat.dvd_mul_left _ _

/-- The free bytes of a chunk. -/
def Chunk.space (c : Chunk κ) : Nat := c.hi - (c.lo + c.used)

/-- Where a chunk ends, its range ends or a chunk in use begins. -/
theorem Fills.hi_cases {l : List (Chunk κ)} {E : List (Nat × Nat)} (h : Fills l E) :
    ∀ c ∈ l, (∃ e ∈ E, c.hi = e.2) ∨ ∃ d ∈ l, 0 < d.used ∧ c.hi = d.lo := by
  induction h with
  | nil => simp
  | @base c l E _ _ _ ih =>
    intro d hd
    obtain rfl | hd := List.mem_cons.mp hd
    · exact .inl ⟨_, List.mem_cons_self, rfl⟩
    · rcases ih d hd with ⟨e, he, hhi⟩ | ⟨f, hf, hfu, hhi⟩
      · exact .inl ⟨e, List.mem_cons_of_mem _ he, hhi⟩
      · exact .inr ⟨f, List.mem_cons_of_mem _ hf, hfu, hhi⟩
  | @block c l E lo hu _ _ ih =>
    intro d hd
    obtain rfl | hd := List.mem_cons.mp hd
    · exact .inl ⟨_, List.mem_cons_self, rfl⟩
    · rcases ih d hd with ⟨e, he, hhi⟩ | ⟨f, hf, hfu, hhi⟩
      · obtain rfl | he := List.mem_cons.mp he
        · exact .inr ⟨c, List.mem_cons_self, hu, hhi⟩
        · exact .inl ⟨e, List.mem_cons_of_mem _ he, hhi⟩
      · exact .inr ⟨f, List.mem_cons_of_mem _ hf, hfu, hhi⟩

/-- Where ends and sizes are aligned, all the free space can be had. -/
theorem Chunk.fits_of_space {c : Chunk κ} {size align : Nat} (hhi : align ∣ c.hi)
    (hsize : align ∣ size) (hpos : 0 < size) (h : size ≤ c.space) : c.Fits size align := by
  have hcut : c.cut size align = c.hi - size := Nat.div_mul_cancel (Nat.dvd_sub hhi hsize)
  rw [Chunk.space] at h
  rw [Chunk.Fits, hcut]
  omega

/-- A chunk never gives more than it has. -/
theorem Chunk.Fits.le_space {c : Chunk κ} {size align : Nat} (h : c.Fits size align) :
    size ≤ c.space := by
  have hcut := h.cut_add_le
  have hle := h.2
  rw [Chunk.space]
  omega

/-- An allocation shortens one chunk and leaves the others alone. -/
theorem carve_keeps {key : κ} {size align a : Nat} {l l' : List (Chunk κ)}
    (h : carve key size align l = some (a, l')) {c : Chunk κ} (hc : c ∈ l) :
    c ∈ l' ∨ { c with hi := c.cut size align } ∈ l' := by
  obtain ⟨pre, d, post, rfl, -, rfl, rfl⟩ := carve_eq_some h
  simp only [List.mem_append, List.mem_cons] at hc ⊢
  rcases hc with hc | rfl | hc
  · exact .inl (.inl hc)
  · exact .inr (.inr (.inr (.inl rfl)))
  · exact .inl (.inr (.inr (.inr hc)))

/-- A chunk with room to spare still has it after an allocation, from itself or from another. -/
theorem carve_space {key : κ} {size align a n : Nat} {l l' : List (Chunk κ)}
    (h : carve key size align l = some (a, l')) {c : Chunk κ} (hc : c ∈ l) (hhi : align ∣ c.hi)
    (hsize : align ∣ size) (hroom : size + n ≤ c.space) : ∃ d ∈ l', n ≤ d.space := by
  rcases carve_keeps h hc with hc | hc
  · exact ⟨c, hc, by omega⟩
  · refine ⟨_, hc, ?_⟩
    have hcut : c.cut size align = c.hi - size := Nat.div_mul_cancel (Nat.dvd_sub hhi hsize)
    simp only [Chunk.space] at hroom ⊢
    omega

/-- Rounding costs less than `align` bytes. -/
theorem Chunk.le_cut {c : Chunk κ} {size align n : Nat} (ha : 0 < align)
    (hroom : size + align + n ≤ c.space) :
    size ≤ c.hi ∧ c.lo + c.used + n ≤ c.cut size align := by
  have hmod := Nat.mod_add_div (c.hi - size) align
  have hlt := Nat.mod_lt (c.hi - size) ha
  have hcut : c.cut size align = c.hi - size - (c.hi - size) % align := by
    rw [Chunk.cut, Nat.mul_comm]
    omega
  simp only [Chunk.space] at hroom
  omega

/-- The same where the ends are not known to be aligned. -/
theorem carve_room {key : κ} {size align a n : Nat} {l l' : List (Chunk κ)} (ha : 0 < align)
    (h : carve key size align l = some (a, l')) {c : Chunk κ} (hc : c ∈ l)
    (hroom : size + align + n ≤ c.space) : ∃ d ∈ l', n ≤ d.space := by
  rcases carve_keeps h hc with hc | hc
  · exact ⟨c, hc, by omega⟩
  · refine ⟨_, hc, ?_⟩
    have := (Chunk.le_cut ha hroom).2
    simp only [Chunk.space]
    omega

theorem carve_ends {key : κ} {size align a n : Nat} {l l' : List (Chunk κ)}
    (h : carve key size align l = some (a, l')) (hl : ∀ c ∈ l, n ∣ c.hi) (ha : n ∣ a) :
    ∀ c ∈ l', n ∣ c.hi := by
  obtain ⟨pre, c, post, rfl, -, -, rfl⟩ := carve_eq_some h
  simp only [List.forall_mem_append, List.forall_mem_cons] at hl ⊢
  exact ⟨hl.1, hl.2.1, ha, hl.2.2⟩

/-! ## Adding a range -/

/-- `x` before the first element that lies lower. -/
def insertAbove {α : Type*} (lo : α → Nat) (x : α) : List α → List α
  | [] => [x]
  | y :: l => if lo y < lo x then x :: y :: l else y :: insertAbove lo x l

theorem mem_insertAbove {α : Type*} {lo : α → Nat} {x y : α} {l : List α} :
    y ∈ insertAbove lo x l ↔ y = x ∨ y ∈ l := by
  induction l with
  | nil => simp [insertAbove]
  | cons z l ih =>
    rw [insertAbove]
    split
    · simp
    · simp only [List.mem_cons, ih]
      exact or_left_comm

theorem descending_insertAbove {E : List (Nat × Nat)} {r : Nat × Nat} (hE : Descending E)
    (hne : ∀ e ∈ E, e.1 < e.2) (hr : r.1 < r.2) (hapart : ∀ e ∈ E, Apart r e) :
    Descending (insertAbove Prod.fst r E) := by
  induction E with
  | nil => exact List.pairwise_singleton _ _
  | cons e E ih =>
    obtain ⟨hhead, htail⟩ := List.pairwise_cons.mp hE
    obtain ⟨hr', hrest⟩ := List.forall_mem_cons.mp hapart
    obtain ⟨he, hne⟩ := List.forall_mem_cons.mp hne
    rw [insertAbove]
    simp only [Apart] at hr'
    split
    · -- the new range is the highest of those that follow
      refine List.pairwise_cons.mpr ⟨List.forall_mem_cons.mpr ⟨by omega, fun f hf => ?_⟩, hE⟩
      have := hhead f hf
      omega
    · refine List.pairwise_cons.mpr ⟨fun f hf => ?_, ih htail hne hrest⟩
      obtain rfl | hf := mem_insertAbove.mp hf
      · omega
      · exact hhead f hf

/-- A range that nothing overlaps comes between two others, never inside one. -/
theorem fills_insertAbove {l : List (Chunk κ)} {E : List (Nat × Nat)} {c : Chunk κ}
    (hl : Fills l E) (hused : c.used = 0) (hc : c.lo ≤ c.hi)
    (hin : ∀ e ∈ E, e.2 ≤ c.lo ∨ c.lo ≤ e.1) :
    Fills (insertAbove Chunk.lo c l) (insertAbove Prod.fst (c.lo, c.hi) E) := by
  induction hl with
  | nil => exact .base hused hc .nil
  | @base d l E hu hle hl ih =>
    obtain ⟨-, hrest⟩ := List.forall_mem_cons.mp hin
    simp only [insertAbove]
    split
    · exact .base hused hc (.base hu hle hl)
    · exact .base hu hle (ih hrest)
  | @block d l E lo hu hle hl ih =>
    obtain ⟨hhead, hrest⟩ := List.forall_mem_cons.mp hin
    have hlo : lo ≤ d.lo := hl.range_le _ List.mem_cons_self
    simp only [insertAbove] at ih hhead ⊢
    by_cases hlow : lo < c.lo
    · rw [if_pos (by omega), if_pos hlow]
      exact .base hused hc (.block hu hle hl)
    · have ih := ih (List.forall_mem_cons.mpr ⟨by omega, hrest⟩)
      rw [if_neg hlow] at ih ⊢
      rw [if_neg (by omega)]
      exact .block hu hle ih

theorem fills_relabel {l : List (Chunk κ)} {E : List (Nat × Nat)} (hl : Fills l E)
    (f : κ → κ) : Fills (l.map fun c => { c with key := f c.key }) E := by
  induction hl with
  | nil => exact .nil
  | base hu hle _ ih => exact .base hu hle ih
  | block hu hle _ ih => exact .block hu hle ih

theorem Fills.base_range {l : List (Chunk κ)} {E : List (Nat × Nat)} (h : Fills l E) :
    ∀ c ∈ l, c.used = 0 → ∃ e ∈ E, e.1 = c.lo := by
  induction h with
  | nil => simp
  | @base c l E hu hle _ ih =>
    intro d hd hused
    obtain rfl | hd := List.mem_cons.mp hd
    · exact ⟨_, List.mem_cons_self, rfl⟩
    · obtain ⟨e, he, hlo⟩ := ih d hd hused
      exact ⟨e, List.mem_cons_of_mem _ he, hlo⟩
  | @block c l E lo hu hle _ ih =>
    intro d hd hused
    obtain rfl | hd := List.mem_cons.mp hd
    · omega
    · obtain ⟨e, he, hlo⟩ := ih d hd hused
      obtain rfl | he := List.mem_cons.mp he
      · exact ⟨_, List.mem_cons_self, hlo⟩
      · exact ⟨e, List.mem_cons_of_mem _ he, hlo⟩

/-- At the very bottom lies a chunk that uses nothing. -/
theorem Fills.last_used {l : List (Chunk κ)} {E : List (Nat × Nat)} (h : Fills l E) :
    ∀ b, l.getLast? = some b → b.used = 0 := by
  induction h with
  | nil => simp
  | @base c l E hu _ _ ih =>
    intro b hb
    cases l with
    | nil =>
      obtain rfl : c = b := by simpa using hb
      exact hu
    | cons d l =>
      rw [List.getLast?_cons_cons] at hb
      exact ih b hb
  | @block c l E lo _ _ hl ih =>
    intro b hb
    cases l with
    | nil => cases hl
    | cons d l =>
      rw [List.getLast?_cons_cons] at hb
      exact ih b hb

/-- The chunks of one range, whose lowest chunk may be made to begin elsewhere, up to
the end of it. -/
theorem Fills.single {l : List (Chunk κ)} {lo hi : Nat} (h : Fills l [(lo, hi)]) :
    ∃ init b, l = init ++ [b] ∧ b.used = 0 ∧ b.lo = lo ∧ lo ≤ b.hi ∧
      (∀ c ∈ init, 0 < c.used ∧ b.hi ≤ c.lo) ∧
      ∀ lo', lo' ≤ b.hi → Fills (init ++ [{ b with lo := lo' }]) [(lo', hi)] := by
  induction l generalizing hi with
  | nil => cases h
  | cons c l ih =>
    rcases fills_cons.mp h with ⟨hu, hle, E, hE, hl⟩ | ⟨hu, hle, lo', E, hE, hl⟩
    · obtain ⟨⟨rfl, rfl⟩, rfl⟩ : (lo = c.lo ∧ hi = c.hi) ∧ E = [] := by simpa [eq_comm] using hE
      cases hl
      exact ⟨[], c, rfl, hu, rfl, hle, by simp, fun lo' hlo' => .base hu hlo' .nil⟩
    · obtain ⟨⟨rfl, rfl⟩, rfl⟩ : (lo = lo' ∧ hi = c.hi) ∧ E = [] := by simpa [eq_comm] using hE
      obtain ⟨init, b, rfl, hb0, hblo, hlob, hinit, hre⟩ := ih hl
      have hbc : b.hi ≤ c.lo := by
        obtain ⟨e, he, -, hhi⟩ := hl.mem_range b (by simp)
        rw [List.mem_singleton.mp he] at hhi
        exact hhi
      refine ⟨c :: init, b, rfl, hb0, hblo, hlob, ?_, fun lo' hlo' => .block hu hle (hre lo' hlo')⟩
      exact List.forall_mem_cons.mpr ⟨⟨hu, hbc⟩, hinit⟩

end

/-! ## Several arenas side by side -/

section
variable {ζ κ : Type*}

/-- Ranges for several arenas: no two share an address or begin at the same one. -/
structure Layout (E : ζ → List (Nat × Nat)) : Prop where
  descending : ∀ z, Descending (E z)
  apart : ∀ z z', z ≠ z' → ∀ e ∈ E z, ∀ f ∈ E z', Apart e f
  starts : ∀ z z', z ≠ z' → ∀ e ∈ E z, ∀ f ∈ E z', e.1 ≠ f.1

variable {A : ζ → List (Chunk κ)} {E : ζ → List (Nat × Nat)}

theorem Layout.span_apart (hE : Layout E) (hA : ∀ z, Fills (A z) (E z)) {z z' : ζ}
    {c d : Chunk κ} (hc : c ∈ A z) (hd : d ∈ A z') (hne : z ≠ z' ∨ c ≠ d) :
    Apart c.span d.span := by
  by_cases hz : z = z'
  · subst hz
    exact (hA z).apart (hE.descending z) hc hd (hne.resolve_left (by simp))
  · obtain ⟨e, he, hce⟩ := (hA z).mem_range c hc
    obtain ⟨f, hf, hdf⟩ := (hA z').mem_range d hd
    exact (hE.apart z z' hz e he f hf).mono hce hdf

/-- The address where a chunk in use begins finds that chunk first, although the
empty rest of its range may begin there too. -/
theorem Layout.find_lo (hE : Layout E) (hA : ∀ z, Fills (A z) (E z)) {zs : List ζ} {z : ζ}
    (hz : z ∈ zs) {c : Chunk κ} (hc : c ∈ A z) (hused : 0 < c.used) :
    (zs.flatMap A).find? (fun d => d.lo = c.lo) = some c := by
  have hle := (hA z).used_le c hc
  obtain ⟨d, hd⟩ : ∃ d, (zs.flatMap A).find? (fun d => d.lo = c.lo) = some d := by
    rw [← Option.isSome_iff_exists, List.find?_isSome]
    exact ⟨c, List.mem_flatMap.mpr ⟨z, hz, hc⟩, by simp⟩
  have hlo : d.lo = c.lo := by simpa using List.find?_some hd
  rw [hd, Option.some.injEq]
  rw [List.find?_flatMap] at hd
  obtain ⟨z', -, hd⟩ := List.exists_of_findSome?_eq_some hd
  have hmem : d ∈ A z' := List.mem_of_find?_eq_some hd
  have hdle := (hA z').used_le d hmem
  by_contra hne
  have hap := hE.span_apart hA hc hmem (.inr (Ne.symm hne))
  simp only [Apart, Chunk.span] at hap
  have hd0 : d.used = 0 := by omega
  obtain ⟨f, hf, hf0⟩ := (hA z').base_range d hmem hd0
  obtain ⟨e, he, hce⟩ := (hA z).mem_range c hc
  by_cases hzz : z = z'
  · -- in the same arena the chunk in use comes first
    subst hzz
    obtain ⟨-, pre, post, hl, hpre⟩ := List.find?_eq_some_iff_append.mp hd
    have hdesc := (hA z).descending (hE.descending z)
    rw [hl] at hc hdesc
    have hpost : c ∈ post := by
      rcases List.mem_append.mp hc with hc | hc
      · exact absurd (hpre c hc) (by simp)
      · exact (List.mem_cons.mp hc).resolve_left (Ne.symm hne)
    have := (List.pairwise_cons.mp (List.pairwise_append.mp hdesc).2.1).1 c hpost
    omega
  · have h := hE.apart z z' hzz e he f hf
    have hstart := hE.starts z z' hzz e he f hf
    have hfle := (hA z').range_le f hf
    simp only [Apart] at h
    omega

end

end CsmWrap.Arena
