import Mathlib.Data.Int.Range
import Mathlib.Data.List.Pairwise
import Mathlib.Logic.Function.Basic

/-!
# Loops over a grid

Two nested counting loops as the list of the index pairs they visit, and what a
fold of stores over such a list leaves: a fill, a copy from cells that are stored
to later or from cells stored to earlier, and a fill seen through a view of the
state.
-/

namespace CsmWrap.Sweep

/-- `for (i = i0; i <= i1; i++) for (j = j0; j <= j1; j++)`. Kept folded, since the
loops of interest are long. -/
@[irreducible] def grid (i₀ i₁ j₀ j₁ : Int) : List (Int × Int) :=
  (Int.range i₀ (i₁ + 1)).flatMap fun i => (Int.range j₀ (j₁ + 1)).map fun j => (i, j)

@[simp] theorem mem_grid {i₀ i₁ j₀ j₁ : Int} {p : Int × Int} :
    p ∈ grid i₀ i₁ j₀ j₁ ↔ (i₀ ≤ p.1 ∧ p.1 ≤ i₁) ∧ j₀ ≤ p.2 ∧ p.2 ≤ j₁ := by
  obtain ⟨i, j⟩ := p
  simp only [grid, List.mem_flatMap, List.mem_map, Int.mem_range_iff, Prod.mk.injEq,
    Int.lt_add_one_iff]
  constructor
  · rintro ⟨i', hi, j', hj, rfl, rfl⟩
    exact ⟨hi, hj⟩
  · rintro ⟨hi, hj⟩
    exact ⟨i, hi, j, hj, rfl, rfl⟩

theorem pairwise_range (m n : Int) : (Int.range m n).Pairwise (· < ·) := by
  rw [Int.range, List.pairwise_map]
  exact List.pairwise_lt_range.imp fun h => by omega

/-- The outer index never goes back, and the inner one only where the outer advances. -/
theorem pairwise_grid (i₀ i₁ j₀ j₁ : Int) :
    (grid i₀ i₁ j₀ j₁).Pairwise fun p q => p.1 < q.1 ∨ p.1 = q.1 ∧ p.2 < q.2 := by
  rw [grid, List.pairwise_flatMap]
  constructor
  · intro i _
    rw [List.pairwise_map]
    exact (pairwise_range j₀ (j₁ + 1)).imp fun h => .inr ⟨rfl, h⟩
  · refine (pairwise_range i₀ (i₁ + 1)).imp fun {a b} h p hp q hq => .inl ?_
    obtain ⟨_, _, rfl⟩ := List.mem_map.mp hp
    obtain ⟨_, _, rfl⟩ := List.mem_map.mp hq
    exact h

section
variable {ι α : Type*} [DecidableEq ι]

theorem foldl_fill (v : ι → α) (l : List ι) (f : ι → α) (q : ι) :
    l.foldl (fun f p => Function.update f p (v p)) f q = if q ∈ l then v q else f q := by
  induction l generalizing f with
  | nil => simp
  | cons p l ih =>
    rw [List.foldl_cons, ih]
    by_cases hq : q ∈ l
    · simp [hq]
    · by_cases hqp : q = p
      · subst hqp
        simp [hq]
      · simp [hq, hqp]

/-- A cell that is not stored to. -/
theorem foldl_outside (v : (ι → α) → ι → α) {l : List ι} {q : ι} (hq : q ∉ l) (f : ι → α) :
    l.foldl (fun f p => Function.update f p (v f p)) f q = f q := by
  induction l generalizing f with
  | nil => rfl
  | cons p l ih =>
    rw [List.mem_cons, not_or] at hq
    rw [List.foldl_cons, ih hq.2, Function.update_of_ne hq.1]

/-- A copy in which no cell is stored to before it is read. -/
theorem foldl_copy (src : ι → ι) {l : List ι} (hl : l.Pairwise fun p q => p ≠ q ∧ p ≠ src q)
    (f : ι → α) (q : ι) :
    l.foldl (fun f p => Function.update f p (f (src p))) f q =
      if q ∈ l then f (src q) else f q := by
  induction l generalizing f with
  | nil => simp
  | cons p l ih =>
    obtain ⟨hp, hl⟩ := List.pairwise_cons.mp hl
    rw [List.foldl_cons, ih hl]
    by_cases hq : q ∈ l
    · rw [if_pos hq, if_pos (List.mem_cons_of_mem p hq),
        Function.update_of_ne (hp q hq).2.symm]
    · rw [if_neg hq]
      by_cases hqp : q = p
      · subst hqp
        simp
      · simp [hq, hqp]

/-- A copy in which no cell is stored to after it has been read: in the end each cell
agrees with the one it was copied from. -/
theorem foldl_smear (src : ι → ι) {l : List ι} (hl : l.Pairwise fun p q => p ≠ q ∧ src p ≠ q)
    (f : ι → α) {q : ι} (hq : q ∈ l) :
    l.foldl (fun f p => Function.update f p (f (src p))) f q =
      l.foldl (fun f p => Function.update f p (f (src p))) f (src q) := by
  induction l generalizing f with
  | nil => cases hq
  | cons p l ih =>
    obtain ⟨hp, hl⟩ := List.pairwise_cons.mp hl
    rw [List.foldl_cons]
    rcases List.mem_cons.mp hq with rfl | hmem
    · -- neither the cell nor the one it was read from is stored to again
      rw [foldl_outside (fun f p => f (src p)) fun h => (hp q h).1 rfl,
        foldl_outside (fun f p => f (src p)) fun h => (hp (src q) h).2 rfl, Function.update_self]
      by_cases hself : src q = q
      · rw [hself, Function.update_self]
      · rw [Function.update_of_ne hself]
    · exact ih hl _ hmem

end

/-- A fold of stores, seen through a view: where some store hits, the value that
all stores agree on there, and elsewhere what was there. -/
theorem foldl_view {σ ι κ β : Type*} (view : σ → κ → β) (step : σ → ι → σ) (hits : ι → κ → Prop)
    [∀ i k, Decidable (hits i k)] (value : κ → β) {l : List ι}
    (hstep : ∀ i ∈ l, ∀ s k, view (step s i) k = if hits i k then value k else view s k)
    (s : σ) (k : κ) :
    view (l.foldl step s) k = if ∃ i ∈ l, hits i k then value k else view s k := by
  induction l generalizing s with
  | nil => simp
  | cons i l ih =>
    rw [List.foldl_cons, ih fun j hj => hstep j (List.mem_cons_of_mem i hj)]
    by_cases hl : ∃ j ∈ l, hits j k
    · rw [if_pos hl, if_pos]
      obtain ⟨j, hj, hjk⟩ := hl
      exact ⟨j, List.mem_cons_of_mem i hj, hjk⟩
    · rw [if_neg hl, hstep i List.mem_cons_self]
      congr 1
      simp only [List.mem_cons, exists_eq_or_imp, hl, or_false]

end CsmWrap.Sweep
