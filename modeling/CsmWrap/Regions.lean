import Mathlib.Order.Basic
import Mathlib.Order.Lattice
import Mathlib.Data.List.Pairwise
import Mathlib.Data.List.Chain

/-!
# Tagged regions of a linear order

Half-open regions that carry a tag, kept in a list:

* `lookup`: the partial function a list of regions stands for;
* `Ordered`, `Merged`, `Canonical`: no region is empty, they come in order
  without overlap, and two that touch have different tags;
* `canonical_ext`: a canonical list is determined by its `lookup`;
* `paint`: writing a tag, or nothing, over a range of such a function;
* `Within`: a function that may have lost values but never has a wrong one.
-/

namespace CsmWrap.Regions

/-- The half-open range `[lo, hi)` with a tag. -/
structure Region (α τ : Type*) where
  lo : α
  hi : α
  tag : τ
  deriving DecidableEq, Repr

/-- What is known of each address: its tag, or nothing. -/
abbrev Coverage (α τ : Type*) := α → Option τ

section
variable {α τ : Type*} [LinearOrder α]

def Region.Covers (r : Region α τ) (a : α) : Prop := r.lo ≤ a ∧ a < r.hi

instance (r : Region α τ) (a : α) : Decidable (r.Covers a) :=
  inferInstanceAs (Decidable (_ ∧ _))

/-- The tag of the first region that covers an address. -/
def lookup : List (Region α τ) → Coverage α τ
  | [], _ => none
  | r :: l, a => if r.Covers a then some r.tag else lookup l a

/-- No region is empty and each ends before the later ones begin. -/
structure Ordered (l : List (Region α τ)) : Prop where
  nonempty : ∀ r ∈ l, r.lo < r.hi
  sorted : l.Pairwise fun r s => r.hi ≤ s.lo

/-- Regions that touch have different tags. -/
def Merged (l : List (Region α τ)) : Prop := l.Pairwise fun r s => r.hi = s.lo → r.tag ≠ s.tag

structure Canonical (l : List (Region α τ)) : Prop extends Ordered l where
  merged : Merged l

@[simp] theorem lookup_nil (a : α) : lookup ([] : List (Region α τ)) a = none := rfl

theorem lookup_cons (r : Region α τ) (l : List (Region α τ)) (a : α) :
    lookup (r :: l) a = if r.Covers a then some r.tag else lookup l a := rfl

theorem lookup_append (l l' : List (Region α τ)) (a : α) :
    lookup (l ++ l') a = (lookup l a).or (lookup l' a) := by
  induction l with
  | nil => rfl
  | cons r l ih =>
    simp only [List.cons_append, lookup_cons, ih]
    split <;> rfl

theorem lookup_eq_none {l : List (Region α τ)} {a : α} (h : ∀ r ∈ l, ¬ r.Covers a) :
    lookup l a = none := by
  induction l with
  | nil => rfl
  | cons r l ih =>
    rw [lookup_cons, if_neg (h r (by simp))]
    exact ih fun s hs => h s (by simp [hs])

theorem lookup_of_hi_le {l : List (Region α τ)} {a : α} (h : ∀ r ∈ l, r.hi ≤ a) :
    lookup l a = none :=
  lookup_eq_none fun r hr hc => absurd (h r hr) (not_le.mpr hc.2)

theorem lookup_of_lt_lo {l : List (Region α τ)} {a : α} (h : ∀ r ∈ l, a < r.lo) :
    lookup l a = none :=
  lookup_eq_none fun r hr hc => absurd (h r hr) (not_lt.mpr hc.1)

theorem mem_of_lookup {l : List (Region α τ)} {a : α} {t : τ} (h : lookup l a = some t) :
    ∃ r ∈ l, r.Covers a ∧ r.tag = t := by
  induction l with
  | nil => simp at h
  | cons r l ih =>
    rw [lookup_cons] at h
    split at h
    · exact ⟨r, by simp, by assumption, by simpa using h⟩
    · obtain ⟨s, hs, hc⟩ := ih h
      exact ⟨s, by simp [hs], hc⟩

theorem Ordered.tail {r : Region α τ} {l : List (Region α τ)} (h : Ordered (r :: l)) : Ordered l :=
  ⟨fun s hs => h.nonempty s (by simp [hs]), h.sorted.tail⟩

theorem Ordered.head_le {r : Region α τ} {l : List (Region α τ)} (h : Ordered (r :: l)) :
    ∀ s ∈ l, r.hi ≤ s.lo :=
  (List.pairwise_cons.mp h.sorted).1

theorem Canonical.tail {r : Region α τ} {l : List (Region α τ)} (h : Canonical (r :: l)) :
    Canonical l :=
  ⟨h.toOrdered.tail, List.Pairwise.tail h.merged⟩

/-- In an ordered list the tag found is that of any region covering the address. -/
theorem lookup_of_mem {l : List (Region α τ)} (ho : Ordered l) {r : Region α τ} (hr : r ∈ l)
    {a : α} (hc : r.Covers a) : lookup l a = some r.tag := by
  induction l with
  | nil => simp at hr
  | cons s l ih =>
    rcases List.mem_cons.mp hr with rfl | hr
    · rw [lookup_cons, if_pos hc]
    · have hs : ¬ s.Covers a := fun hs =>
        absurd (lt_of_lt_of_le hs.2 (ho.head_le r hr)) (not_lt.mpr hc.1)
      rw [lookup_cons, if_neg hs, ih ho.tail hr]

theorem lookup_eq_some_iff {l : List (Region α τ)} (ho : Ordered l) {a : α} {t : τ} :
    lookup l a = some t ↔ ∃ r ∈ l, r.Covers a ∧ r.tag = t := by
  constructor
  · exact mem_of_lookup
  · rintro ⟨r, hr, hc, rfl⟩; exact lookup_of_mem ho hr hc

/-- In order, only neighbours can touch. -/
theorem merged_of_isChain {l : List (Region α τ)} (ho : Ordered l)
    (h : l.IsChain fun r s => r.hi = s.lo → r.tag ≠ s.tag) : Merged l := by
  induction l with
  | nil => exact List.Pairwise.nil
  | cons r l ih =>
    refine List.pairwise_cons.mpr ⟨?_, ih ho.tail h.tail⟩
    intro s hs touch
    cases l with
    | nil => simp at hs
    | cons n l =>
      rcases List.mem_cons.mp hs with rfl | hs
      · exact (List.isChain_cons_cons.mp h).1 touch
      · have hn : r.hi ≤ n.lo := ho.head_le n (by simp)
        have hlt : n.lo < n.hi := ho.nonempty n (by simp)
        have hle : n.hi ≤ s.lo := ho.tail.head_le s hs
        exact absurd (hn.trans_lt (hlt.trans_le hle)) (by rw [touch]; exact lt_irrefl _)

/-! ## A canonical list is determined by its function -/

theorem lookup_before_head {r : Region α τ} {l : List (Region α τ)} (ho : Ordered (r :: l)) {a : α}
    (ha : a < r.lo) : lookup (r :: l) a = none := by
  apply lookup_of_lt_lo
  intro s hs
  rcases List.mem_cons.mp hs with rfl | hs
  · exact ha
  · exact ha.trans ((ho.nonempty r (by simp)).trans_le (ho.head_le s hs))

theorem lookup_head {r : Region α τ} {l : List (Region α τ)} (ho : Ordered (r :: l)) :
    lookup (r :: l) r.lo = some r.tag :=
  lookup_of_mem ho (by simp) ⟨le_rfl, ho.nonempty r (by simp)⟩

/-- Right after its first region a canonical list says something else. -/
theorem lookup_hi_ne {r : Region α τ} {l : List (Region α τ)} (hc : Canonical (r :: l)) :
    lookup (r :: l) r.hi ≠ some r.tag := by
  intro h
  rw [lookup_cons, if_neg fun hr => lt_irrefl _ hr.2] at h
  obtain ⟨s, hs, hcov, htag⟩ := mem_of_lookup h
  have touch : r.hi = s.lo := le_antisymm (hc.head_le s hs) hcov.1
  exact (List.pairwise_cons.mp hc.merged).1 s hs touch htag.symm

theorem head_lo_le {r s : Region α τ} {l k : List (Region α τ)} (hr : Ordered (r :: l))
    (hs : Ordered (s :: k)) (h : lookup (r :: l) = lookup (s :: k)) : r.lo ≤ s.lo := by
  by_contra hlt
  have a := lookup_before_head hr (not_le.mp hlt)
  rw [h, lookup_head hs] at a
  cases a

theorem head_hi_le {r s : Region α τ} {l k : List (Region α τ)} (hr : Canonical (r :: l))
    (hs : Canonical (s :: k)) (h : lookup (r :: l) = lookup (s :: k)) (hlo : r.lo = s.lo)
    (htag : r.tag = s.tag) : r.hi ≤ s.hi := by
  by_contra hlt
  have hcov : r.Covers s.hi :=
    ⟨hlo ▸ (hs.nonempty s (by simp)).le, not_le.mp hlt⟩
  have a := lookup_hi_ne hs
  rw [← h, lookup_of_mem hr.toOrdered (by simp) hcov, htag] at a
  exact a rfl

/-- **The canonical form is unique.** Two canonical lists that say the same of
every address are the same list. -/
theorem canonical_ext {l k : List (Region α τ)} (hl : Canonical l) (hk : Canonical k)
    (h : lookup l = lookup k) : l = k := by
  induction l generalizing k with
  | nil =>
    cases k with
    | nil => rfl
    | cons s k =>
      have a := lookup_head hk.toOrdered
      rw [← h] at a
      cases a
  | cons r l ih =>
    cases k with
    | nil =>
      have a := lookup_head hl.toOrdered
      rw [h] at a
      cases a
    | cons s k =>
      have hlo : r.lo = s.lo :=
        le_antisymm (head_lo_le hl.toOrdered hk.toOrdered h)
          (head_lo_le hk.toOrdered hl.toOrdered h.symm)
      have htag : r.tag = s.tag := by
        have a := lookup_head hl.toOrdered
        rw [h, hlo, lookup_head hk.toOrdered] at a
        exact (Option.some.inj a).symm
      have hhi : r.hi = s.hi :=
        le_antisymm (head_hi_le hl hk h hlo htag) (head_hi_le hk hl h.symm hlo.symm htag.symm)
      have e : r = s := by
        cases r; cases s; simp_all
      subst e
      have ht : lookup l = lookup k := by
        funext a
        by_cases hc : r.Covers a
        · have quiet : ∀ {m : List (Region α τ)}, Ordered (r :: m) → lookup m a = none :=
            fun hm => lookup_of_lt_lo fun s hs => hc.2.trans_le (hm.head_le s hs)
          rw [quiet hl.toOrdered, quiet hk.toOrdered]
        · have a := congrFun h a
          simpa only [lookup_cons, if_neg hc] using a
      rw [ih hl.tail hk.tail ht]

/-- `f` with `[lo, hi)` set to `t`; `none` makes a hole. -/
def paint (f : Coverage α τ) (lo hi : α) (t : Option τ) : Coverage α τ :=
  fun a => if lo ≤ a ∧ a < hi then t else f a

theorem paint_inside {f : Coverage α τ} {lo hi a : α} {t : Option τ} (h : lo ≤ a ∧ a < hi) :
    paint f lo hi t a = t := if_pos h

theorem paint_outside {f : Coverage α τ} {lo hi a : α} {t : Option τ} (h : ¬ (lo ≤ a ∧ a < hi)) :
    paint f lo hi t a = f a := if_neg h

/-- A region placed between regions that end before it and regions that begin
after it. -/
theorem lookup_around {pre post : List (Region α τ)} {lo hi : α} {t : τ}
    (hpre : ∀ r ∈ pre, r.hi ≤ lo) (hpost : ∀ r ∈ post, hi ≤ r.lo) (hlt : lo < hi) (a : α) :
    lookup (pre ++ ⟨lo, hi, t⟩ :: post) a =
      if a < lo then lookup pre a else if a < hi then some t else lookup post a := by
  rw [lookup_append, lookup_cons]
  by_cases hlo : a < lo
  · have hn : ¬ Region.Covers ⟨lo, hi, t⟩ a := fun hc => absurd hlo (not_lt.mpr hc.1)
    have hp : lookup post a = none :=
      lookup_of_lt_lo fun r hr => (hlo.trans hlt).trans_le (hpost r hr)
    rw [if_neg hn, if_pos hlo, hp, Option.or_none]
  · have hp : lookup pre a = none :=
      lookup_of_hi_le fun r hr => (hpre r hr).trans (not_lt.mp hlo)
    rw [hp, if_neg hlo, Option.none_or]
    by_cases hhi : a < hi
    · rw [if_pos ⟨not_lt.mp hlo, hhi⟩, if_pos hhi]
    · rw [if_neg fun hc : Region.Covers ⟨lo, hi, t⟩ a => hhi hc.2, if_neg hhi]

/-- The same with a gap in place of the region. -/
theorem lookup_gap {pre post : List (Region α τ)} {lo hi : α}
    (hpre : ∀ r ∈ pre, r.hi ≤ lo) (hpost : ∀ r ∈ post, hi ≤ r.lo) (hlt : lo < hi) (a : α) :
    lookup (pre ++ post) a =
      if a < lo then lookup pre a else if a < hi then none else lookup post a := by
  rw [lookup_append]
  by_cases hlo : a < lo
  · have hp : lookup post a = none :=
      lookup_of_lt_lo fun r hr => (hlo.trans hlt).trans_le (hpost r hr)
    rw [if_pos hlo, hp, Option.or_none]
  · have hp : lookup pre a = none :=
      lookup_of_hi_le fun r hr => (hpre r hr).trans (not_lt.mp hlo)
    rw [hp, if_neg hlo, Option.none_or]
    by_cases hhi : a < hi
    · rw [if_pos hhi]
      exact lookup_of_lt_lo fun r hr => hhi.trans_le (hpost r hr)
    · rw [if_neg hhi]

/-- `g` says of each address what `f` says, or nothing. -/
def Within (g f : Coverage α τ) : Prop := ∀ a, g a = none ∨ g a = f a

omit [LinearOrder α] in
theorem Within.refl (f : Coverage α τ) : Within f f := fun _ => .inr rfl

omit [LinearOrder α] in
theorem Within.trans {f g h : Coverage α τ} (hfg : Within f g) (hgh : Within g h) : Within f h := by
  intro a
  cases hfg a with
  | inl e => exact .inl e
  | inr e => rw [e]; exact hgh a

theorem Within.paint {f g : Coverage α τ} (h : Within g f) (lo hi : α) (t : Option τ) :
    Within (paint g lo hi t) (Regions.paint f lo hi t) := by
  intro a
  by_cases hc : lo ≤ a ∧ a < hi
  · right; rw [paint_inside hc, paint_inside hc]
  · rw [paint_outside hc, paint_outside hc]; exact h a

end

end CsmWrap.Regions
