import CsmWrap.Regions
import CsmWrap.E820.Table

/-!
# The two loops of `e820_add`

What each loop of `e820_add` leaves behind, in terms of the regions its table
stands for: `Placed` for the first loop and `Absorbed` for the second.
-/

namespace CsmWrap.E820
open Regions

/-- The addresses an entry describes, with no wrap. -/
def Entry.region (e : Entry) : Region Nat UInt32 :=
  ⟨e.baseAddr.toNat, e.baseAddr.toNat + e.length.toNat, e.type⟩

def view (l : List Entry) : List (Region Nat UInt32) := l.map Entry.region

@[simp] theorem view_nil : view [] = [] := rfl

@[simp] theorem view_cons (e : Entry) (l : List Entry) : view (e :: l) = e.region :: view l := rfl

@[simp] theorem view_append (l k : List Entry) : view (l ++ k) = view l ++ view k :=
  List.map_append

theorem forall_view {l : List Entry} {p : Region Nat UInt32 → Prop} :
    (∀ r ∈ view l, p r) ↔ ∀ e ∈ l, p e.region := List.forall_mem_map

theorem region_inj {e f : Entry} (h : e.region = f.region) : e = f := by
  obtain ⟨b, l, t⟩ := e
  obtain ⟨b', l', t'⟩ := f
  simp only [Entry.region, Region.mk.injEq] at h
  obtain ⟨hb, hl, rfl⟩ := h
  have hb' : b = b' := UInt64.toNat_inj.mp hb
  have hl' : l = l' := UInt64.toNat_inj.mp (by omega)
  rw [hb', hl']

theorem view_inj {l k : List Entry} (h : view l = view k) : l = k :=
  List.map_injective_iff.mpr (fun _ _ => region_inj) h

theorem eEnd_toNat {e : Entry} (h : e.region.hi < 2 ^ 64) : e.eEnd.toNat = e.region.hi := by
  simp only [Entry.eEnd, Entry.region, UInt64.toNat_add] at h ⊢
  exact Nat.mod_eq_of_lt h

theorem region_shorten {e : Entry} {start : UInt64} (h : e.baseAddr ≤ start) :
    Entry.region { e with length := start - e.baseAddr } =
      ⟨e.region.lo, start.toNat, e.type⟩ := by
  have hle := UInt64.le_iff_toNat_le.mp h
  simp only [Entry.region, UInt64.toNat_sub_of_le _ _ h, Region.mk.injEq, true_and, and_true]
  omega

theorem region_tail {e : Entry} {stop : UInt64} (type : UInt32) (hb : e.region.hi < 2 ^ 64)
    (h : stop ≤ e.eEnd) :
    Entry.region ⟨stop, e.eEnd - stop, type⟩ = ⟨stop.toNat, e.region.hi, type⟩ := by
  have hle := UInt64.le_iff_toNat_le.mp h
  have he := eEnd_toNat hb
  simp only [Entry.region, UInt64.toNat_sub_of_le _ _ h, Region.mk.injEq, true_and,
    and_true] at he ⊢
  omega

section
variable {τ : Type} {v : Variant τ}

/-- A table both loops can work on: in order, nothing wrapping, and no entry of
the type that marks holes. -/
structure Sound (v : Variant τ) (l : List Entry) : Prop where
  ordered : Ordered (view l)
  bounded : ∀ e ∈ l, e.region.hi < 2 ^ 64
  noHole : ∀ e ∈ l, v.load e.type ≠ v.hole

theorem Sound.nil : Sound v [] := ⟨⟨by simp, by simp⟩, by simp, by simp⟩

theorem Sound.tail {e : Entry} {l : List Entry} (h : Sound v (e :: l)) : Sound v l :=
  ⟨h.ordered.tail, fun f hf => h.bounded f (by simp [hf]), fun f hf => h.noHole f (by simp [hf])⟩

theorem Sound.head_le {e : Entry} {l : List Entry} (h : Sound v (e :: l)) :
    ∀ f ∈ l, e.region.hi ≤ f.region.lo :=
  forall_view.mp h.ordered.head_le

theorem Sound.left {l k : List Entry} (h : Sound v (l ++ k)) : Sound v l := by
  refine ⟨⟨fun r hr => h.ordered.nonempty r (by simp [hr]), ?_⟩,
    fun f hf => h.bounded f (by simp [hf]), fun f hf => h.noHole f (by simp [hf])⟩
  have hs := h.ordered.sorted
  rw [view_append, List.pairwise_append] at hs
  exact hs.1

theorem Sound.right {l k : List Entry} (h : Sound v (l ++ k)) : Sound v k := by
  refine ⟨⟨fun r hr => h.ordered.nonempty r (by simp [hr]), ?_⟩,
    fun f hf => h.bounded f (by simp [hf]), fun f hf => h.noHole f (by simp [hf])⟩
  have hs := h.ordered.sorted
  rw [view_append, List.pairwise_append] at hs
  exact hs.2.1

theorem Sound.cross {l k : List Entry} (h : Sound v (l ++ k)) :
    ∀ e ∈ l, ∀ f ∈ k, e.region.hi ≤ f.region.lo := by
  have hs := h.ordered.sorted
  rw [view_append, List.pairwise_append] at hs
  intro e he f hf
  exact hs.2.2 _ (List.mem_map_of_mem he) _ (List.mem_map_of_mem hf)

/-- Two sound parts make a sound whole when every entry of the first ends
before the second part begins. -/
theorem Sound.append {l k : List Entry} (hl : Sound v l) (hk : Sound v k)
    (h : ∀ e ∈ l, ∀ f ∈ k, e.region.hi ≤ f.region.lo) : Sound v (l ++ k) := by
  refine ⟨⟨?_, ?_⟩, ?_, ?_⟩
  · intro r hr
    rw [view_append, List.mem_append] at hr
    exact hr.elim (hl.ordered.nonempty r) (hk.ordered.nonempty r)
  · rw [view_append, List.pairwise_append]
    refine ⟨hl.ordered.sorted, hk.ordered.sorted, ?_⟩
    rw [forall_view]
    intro e he
    rw [forall_view]
    exact h e he
  · intro e he
    exact (List.mem_append.mp he).elim (hl.bounded e) (hk.bounded e)
  · intro e he
    exact (List.mem_append.mp he).elim (hl.noHole e) (hk.noHole e)

theorem Sound.cons {e : Entry} {k : List Entry} (hne : e.region.lo < e.region.hi)
    (hb : e.region.hi < 2 ^ 64) (hh : v.load e.type ≠ v.hole) (hk : Sound v k)
    (h : ∀ f ∈ k, e.region.hi ≤ f.region.lo) : Sound v (e :: k) := by
  have one : Sound v [e] := ⟨⟨by simpa using hne, by simp⟩, by simpa using hb, by simpa using hh⟩
  exact one.append hk (by simpa using h)

/-- The part of an entry that is left above the new item. -/
theorem tail_spec {e f : Entry} {rest : List Entry} {hi : Nat} (hs : Sound v (e :: rest))
    (hf : f.region = ⟨hi, e.region.hi, e.type⟩) (hlo : e.region.lo ≤ hi)
    (hhi : hi < e.region.hi) :
    Sound v (f :: rest) ∧ (Merged (view (e :: rest)) → Merged (view (f :: rest))) ∧
      ∀ a, hi ≤ a → lookup (view (f :: rest)) a = lookup (view (e :: rest)) a := by
  have htype : f.type = e.type := congrArg Region.tag hf
  refine ⟨.cons ?_ ?_ ?_ hs.tail ?_, ?_, ?_⟩
  · rw [hf]; exact hhi
  · rw [hf]; exact hs.bounded e (by simp)
  · rw [htype]; exact hs.noHole e (by simp)
  · rw [hf]; exact hs.head_le
  · intro hm
    rw [view_cons, hf]
    exact List.pairwise_cons.mpr (List.pairwise_cons.mp hm)
  · intro a ha
    rw [view_cons, view_cons, lookup_cons, lookup_cons, hf]
    by_cases hc : a < e.region.hi
    · rw [if_pos ⟨ha, hc⟩, if_pos ⟨by omega, hc⟩]; rfl
    · rw [if_neg fun h => hc h.2, if_neg fun h => hc h.2]

/-! ## The second loop -/

/-- The entries `post` from the new item's place on have become `post'`, and
the end of the new item has moved from `hi` to `hi'`. -/
structure Absorbed (v : Variant τ) (post : List Entry) (hi : Nat) (type : τ)
    (post' : List Entry) (hi' : Nat) : Prop where
  sound : Sound v post'
  le : hi ≤ hi'
  lt : hi' < 2 ^ 64
  after : ∀ e ∈ post', hi' ≤ e.region.lo
  keeps : ∀ a, hi' ≤ a → lookup (view post') a = lookup (view post) a
  grown : ∀ a, hi ≤ a → a < hi' → lookup (view post) a = some (v.store type)
  hole : type = v.hole → hi' = hi
  merged : Merged (view post) → Merged (view post')
  apart : Merged (view post) → v.load (v.store type) = type →
    ∀ e ∈ post', hi' = e.region.lo → e.type ≠ v.store type
  length : post'.length ≤ post.length

theorem absorbed_nil {hi : Nat} (hlt : hi < 2 ^ 64) (type : τ) : Absorbed v [] hi type [] hi where
  sound := .nil
  le := Nat.le_refl _
  lt := hlt
  after := by simp
  keeps _ _ := rfl
  grown a h h' := by omega
  hole _ := rfl
  merged := id
  apart := by simp
  length := Nat.le_refl _

/-- `end < e->BaseAddr`: no overlap. -/
theorem absorbed_stop {e : Entry} {post : List Entry} {hi : Nat} (hs : Sound v (e :: post))
    (hlt : hi < e.region.lo) (type : τ) : Absorbed v (e :: post) hi type (e :: post) hi := by
  have far : ∀ f ∈ e :: post, hi < f.region.lo := by
    intro f hf
    have hne : e.region.lo < e.region.hi := hs.ordered.nonempty e.region (by simp)
    rcases List.mem_cons.mp hf with rfl | hf
    · exact hlt
    · have := hs.head_le f hf
      omega
  have hb := hs.bounded e (by simp)
  have hne : e.region.lo < e.region.hi := hs.ordered.nonempty e.region (by simp)
  exact {
    sound := hs
    le := Nat.le_refl _
    lt := by omega
    after := fun f hf => (far f hf).le
    keeps := fun _ _ => rfl
    grown := fun a h h' => by omega
    hole := fun _ => rfl
    merged := id
    apart := fun _ _ f hf h => by have := far f hf; omega
    length := Nat.le_refl _ }

/-- `end >= e_end`: the entry is removed and the loop goes on. -/
theorem absorbed_drop {e : Entry} {post post' : List Entry} {hi hi' : Nat} {type : τ}
    (hle : e.region.hi ≤ hi) (h : Absorbed v post hi type post' hi') :
    Absorbed v (e :: post) hi type post' hi' := by
  have skip : ∀ a, hi ≤ a → lookup (view (e :: post)) a = lookup (view post) a := by
    intro a ha
    rw [view_cons, lookup_cons, if_neg]
    intro hc
    have := hc.2
    omega
  have tail : Merged (view (e :: post)) → Merged (view post) := List.Pairwise.tail
  exact {
    sound := h.sound
    le := h.le
    lt := h.lt
    after := h.after
    keeps := fun a ha => by rw [skip a (h.le.trans ha)]; exact h.keeps a ha
    grown := fun a ha ha' => by rw [skip a ha]; exact h.grown a ha ha'
    hole := h.hole
    merged := fun hm => h.merged (tail hm)
    apart := fun hm => h.apart (tail hm)
    length := Nat.le_succ_of_le h.length }

/-- The last overlapped entry has the new type: it joins the new item. -/
theorem absorbed_join {e : Entry} {post : List Entry} {hi : Nat} (hs : Sound v (e :: post))
    (hlo : e.region.lo ≤ hi) (hhi : hi < e.region.hi) :
    Absorbed v (e :: post) hi (v.load e.type) post e.region.hi := by
  exact {
    sound := hs.tail
    le := hhi.le
    lt := hs.bounded e (by simp)
    after := hs.head_le
    keeps := fun a ha => by
      rw [view_cons, lookup_cons, if_neg]
      intro hc
      have := hc.2
      omega
    grown := fun a ha ha' => by
      rw [view_cons, lookup_cons, if_pos ⟨by omega, ha'⟩, v.store_load]
      rfl
    hole := fun h => absurd h (hs.noHole e (by simp))
    merged := List.Pairwise.tail
    apart := fun hm _ f hf ht => by
      rw [v.store_load]
      exact ((List.pairwise_cons.mp hm).1 f.region (List.mem_map_of_mem hf) ht).symm
    length := Nat.le_succ _ }

/-- The last overlapped entry has another type: its start moves to the end of
the new item. -/
theorem absorbed_adjust {e f : Entry} {post : List Entry} {hi : Nat} {type : τ}
    (hs : Sound v (e :: post)) (hf : f.region = ⟨hi, e.region.hi, e.type⟩)
    (hlo : e.region.lo ≤ hi) (hhi : hi < e.region.hi) (hne : type ≠ v.load e.type) :
    Absorbed v (e :: post) hi type (f :: post) hi := by
  have htype : f.type = e.type := congrArg Region.tag hf
  have hb := hs.bounded e (by simp)
  have hnext : ∀ g ∈ post, hi < g.region.lo := fun g hg => hhi.trans_le (hs.head_le g hg)
  obtain ⟨sound, merged, keeps⟩ := tail_spec hs hf hlo hhi
  exact {
    sound := sound
    le := Nat.le_refl _
    lt := hhi.trans hb
    after := fun g hg => by
      rcases List.mem_cons.mp hg with rfl | hg
      · rw [hf]
      · exact (hnext g hg).le
    keeps := keeps
    grown := fun a h h' => by omega
    hole := fun _ => rfl
    merged := merged
    apart := fun _ hfits g hg ht => by
      rcases List.mem_cons.mp hg with rfl | hg
      · intro h
        rw [htype] at h
        exact hne (by rw [h, hfits])
      · have := hnext g hg
        omega
    length := Nat.le_refl _ }

/-! ## The first loop -/

/-- The table has become `pre ++ post`, the place of the new item is between
the two, and its start has moved from `lo` to `lo'`. `exact` says that the tail
of a split entry was not turned away. -/
structure Placed (v : Variant τ) (m : List Entry) (lo hi : Nat) (type : τ) (exact : Prop)
    (pre post : List Entry) (lo' : Nat) : Prop where
  soundPre : Sound v pre
  soundPost : Sound v post
  le : lo' ≤ lo
  before : ∀ e ∈ pre, e.region.hi ≤ lo'
  keepsPre : ∀ a, a < lo' → lookup (view pre) a = lookup (view m) a
  grown : ∀ a, lo' ≤ a → a < lo → lookup (view m) a = some (v.store type)
  keepsPost : exact → ∀ a, hi ≤ a → lookup (view post) a = lookup (view m) a
  losesPost : ∀ a, hi ≤ a → lookup (view post) a = none ∨ lookup (view post) a = lookup (view m) a
  hole : type = v.hole → lo' = lo
  mergedPre : Merged (view m) → Merged (view pre)
  mergedPost : Merged (view m) → Merged (view post)
  apart : Merged (view m) → v.load (v.store type) = type →
    ∀ e ∈ pre, e.region.hi = lo' → e.type ≠ v.store type

theorem Merged.left {l k : List (Region Nat UInt32)} (h : Merged (l ++ k)) : Merged l :=
  (List.pairwise_append.mp h).1

theorem Merged.right {l k : List (Region Nat UInt32)} (h : Merged (l ++ k)) : Merged k :=
  (List.pairwise_append.mp h).2.1

/-- Only the regions that begin below an address count for it. -/
theorem lookup_view_left {pre rest : List Entry} {a : Nat} (h : ∀ f ∈ rest, a < f.region.lo) :
    lookup (view (pre ++ rest)) a = lookup (view pre) a := by
  rw [view_append, lookup_append, lookup_of_lt_lo (forall_view.mpr h), Option.or_none]

/-- Only the regions that end above an address count for it. -/
theorem lookup_view_right {pre rest : List Entry} {a : Nat} (h : ∀ f ∈ pre, f.region.hi ≤ a) :
    lookup (view (pre ++ rest)) a = lookup (view rest) a := by
  rw [view_append, lookup_append, lookup_of_hi_le (forall_view.mpr h), Option.none_or]

/-- Entries that end by `hi` say nothing about the addresses from `hi` on. -/
theorem lookup_view_past {pre rest : List Entry} {hi : Nat} (h : ∀ f ∈ pre, f.region.hi ≤ hi)
    {a : Nat} (ha : hi ≤ a) : lookup (view (pre ++ rest)) a = lookup (view rest) a :=
  lookup_view_right fun f hf => (h f hf).trans ha

/-- Nothing is split: every entry ends below the new item or begins at its
start or later. -/
theorem placed_here {pre rest : List Entry} {lo hi : Nat} {type : τ} {exact : Prop}
    (hs : Sound v (pre ++ rest)) (hpre : ∀ e ∈ pre, e.region.hi < lo)
    (hrest : ∀ e ∈ rest, lo ≤ e.region.lo) (hlt : lo < hi) :
    Placed v (pre ++ rest) lo hi type exact pre rest lo := by
  have hbefore : ∀ e ∈ pre, e.region.hi ≤ hi := fun e he => ((hpre e he).trans hlt).le
  have keepsPost : ∀ a, hi ≤ a → lookup (view rest) a = lookup (view (pre ++ rest)) a :=
    fun a ha => (lookup_view_past hbefore ha).symm
  exact {
    soundPre := hs.left
    soundPost := hs.right
    le := Nat.le_refl _
    before := fun e he => (hpre e he).le
    keepsPre := fun a ha => by
      rw [lookup_view_left]
      intro f hf
      have := hrest f hf
      omega
    grown := fun a h h' => by omega
    keepsPost := fun _ => keepsPost
    losesPost := fun a ha => .inr (keepsPost a ha)
    hole := fun _ => rfl
    mergedPre := fun hm => Merged.left (view_append pre rest ▸ hm)
    mergedPost := fun hm => Merged.right (view_append pre rest ▸ hm)
    apart := fun _ _ e he h => by have := hpre e he; omega }

/-- The entry that the new item begins in or right after has the same type: the
new item takes over its start. -/
theorem placed_merge {pre rest : List Entry} {e : Entry} {lo hi : Nat} {exact : Prop}
    (hs : Sound v (pre ++ e :: rest)) (hlo : e.region.lo < lo) (hle : lo ≤ e.region.hi)
    (hlt : lo < hi) :
    Placed v (pre ++ e :: rest) lo hi (v.load e.type) exact pre (e :: rest) e.region.lo := by
  have hcross := hs.cross
  have hpre : ∀ f ∈ pre, f.region.hi ≤ e.region.lo := fun f hf => hcross f hf e (by simp)
  have hbefore : ∀ f ∈ pre, f.region.hi ≤ hi := fun f hf => (hpre f hf).trans (hlo.trans hlt).le
  have keepsPost : ∀ a, hi ≤ a →
      lookup (view (e :: rest)) a = lookup (view (pre ++ e :: rest)) a :=
    fun a ha => (lookup_view_past hbefore ha).symm
  exact {
    soundPre := hs.left
    soundPost := hs.right
    le := hlo.le
    before := hpre
    keepsPre := fun a ha => by
      rw [lookup_view_left]
      intro f hf
      have hne : e.region.lo < e.region.hi := hs.ordered.nonempty e.region (by simp)
      rcases List.mem_cons.mp hf with rfl | hf
      · exact ha
      · have := hs.right.head_le f hf
        omega
    grown := fun a ha ha' => by
      rw [lookup_view_right fun f hf => (hpre f hf).trans ha, view_cons, lookup_cons,
        if_pos ⟨ha, by omega⟩, v.store_load]
      rfl
    keepsPost := fun _ => keepsPost
    losesPost := fun a ha => .inr (keepsPost a ha)
    hole := fun h => absurd h (hs.noHole e (by simp))
    mergedPre := fun hm => Merged.left (view_append pre _ ▸ hm)
    mergedPost := fun hm => Merged.right (view_append pre _ ▸ hm)
    apart := fun hm _ f hf ht => by
      rw [v.store_load]
      rw [view_append] at hm
      exact (List.pairwise_append.mp hm).2.2 f.region (List.mem_map_of_mem hf) e.region
        (by simp) ht }

section cut
variable {pre rest : List Entry} {e c : Entry} {lo : Nat}

theorem Sound.cut (hs : Sound v (pre ++ e :: rest)) (hc : c.region = ⟨e.region.lo, lo, e.type⟩)
    (hlo : e.region.lo < lo) (hle : lo ≤ e.region.hi) : Sound v (pre ++ [c]) := by
  have hcross := hs.cross
  have htype : c.type = e.type := congrArg Region.tag hc
  refine hs.left.append (.cons ?_ ?_ ?_ .nil (by simp)) ?_
  · rw [hc]
    exact hlo
  · rw [hc]
    exact lt_of_le_of_lt hle (hs.bounded e (by simp))
  · rw [htype]
    exact hs.noHole e (by simp)
  · intro f hf g hg
    rw [List.mem_singleton.mp hg, hc]
    exact hcross f hf e (by simp)

theorem Merged.cut (hm : Merged (view (pre ++ e :: rest)))
    (hc : c.region = ⟨e.region.lo, lo, e.type⟩) : Merged (view (pre ++ [c])) := by
  rw [view_append] at hm ⊢
  obtain ⟨hp, -, hx⟩ := List.pairwise_append.mp hm
  refine List.pairwise_append.mpr ⟨hp, List.pairwise_singleton _ _, ?_⟩
  intro r hr s hsing ht
  rw [List.mem_singleton.mp hsing, hc] at ht ⊢
  exact hx r hr e.region (by simp) ht

/-- Below the cut nothing changes. -/
theorem lookup_cut (hs : Sound v (pre ++ e :: rest)) (hc : c.region = ⟨e.region.lo, lo, e.type⟩)
    (hle : lo ≤ e.region.hi) {a : Nat} (ha : a < lo) :
    lookup (view (pre ++ [c])) a = lookup (view (pre ++ e :: rest)) a := by
  have hrest : ∀ f ∈ rest, a < f.region.lo := fun f hf => by
    have := hs.right.head_le f hf
    omega
  have hcov : e.region.Covers a ↔ c.region.Covers a := by
    simp only [Region.Covers, hc]
    omega
  rw [view_append, view_append, lookup_append, lookup_append, view_cons, view_cons,
    lookup_cons, lookup_cons, lookup_of_lt_lo (forall_view.mpr hrest)]
  by_cases h : c.region.Covers a
  · rw [if_pos h, if_pos (hcov.mpr h), hc]
    rfl
  · rw [if_neg h, if_neg fun h' => h (hcov.mp h')]
    rfl

end cut

/-- The entry that the new item begins in or right after has another type: it
is cut to `c`, and `post` holds what follows, with its tail or without. -/
theorem placed_cut {pre rest post : List Entry} {e c : Entry} {lo hi : Nat} {type : τ}
    {exact : Prop} (hs : Sound v (pre ++ e :: rest)) (hpre : ∀ f ∈ pre, f.region.hi < lo)
    (hc : c.region = ⟨e.region.lo, lo, e.type⟩) (hlo : e.region.lo < lo) (hle : lo ≤ e.region.hi)
    (hlt : lo < hi) (hne : type ≠ v.load e.type) (hpost : Sound v post)
    (hmerged : Merged (view (e :: rest)) → Merged (view post))
    (hkeeps : exact → ∀ a, hi ≤ a → lookup (view post) a = lookup (view (e :: rest)) a)
    (hloses : ∀ a, hi ≤ a →
      lookup (view post) a = none ∨ lookup (view post) a = lookup (view (e :: rest)) a) :
    Placed v (pre ++ e :: rest) lo hi type exact (pre ++ [c]) post lo := by
  have htype : c.type = e.type := congrArg Region.tag hc
  have hbefore : ∀ f ∈ pre, f.region.hi ≤ hi := fun f hf => ((hpre f hf).trans hlt).le
  exact {
    soundPre := hs.cut hc hlo hle
    soundPost := hpost
    le := Nat.le_refl _
    before := fun f hf => by
      cases List.mem_append.mp hf with
      | inl hf => exact (hpre f hf).le
      | inr hf => rw [List.mem_singleton.mp hf, hc]
    keepsPre := fun a ha => lookup_cut hs hc hle ha
    grown := fun a h h' => by omega
    keepsPost := fun hx a ha => by
      rw [lookup_view_past hbefore ha]
      exact hkeeps hx a ha
    losesPost := fun a ha => by
      rw [lookup_view_past hbefore ha]
      exact hloses a ha
    hole := fun _ => rfl
    mergedPre := fun hm => Merged.cut hm hc
    mergedPost := fun hm => hmerged (Merged.right (view_append pre _ ▸ hm))
    apart := fun _ hfits f hf ht => by
      cases List.mem_append.mp hf with
      | inl hf =>
        have := hpre f hf
        omega
      | inr hf =>
        rw [List.mem_singleton.mp hf, htype]
        intro h
        exact hne (by rw [h, hfits]) }

theorem getElem?_pre (pre post : List Entry) : (pre ++ post)[pre.length]? = post.head? := by
  rw [List.getElem?_append_right (Nat.le_refl _), Nat.sub_self]
  cases post <;> rfl

theorem set_pre (pre : List Entry) (e f : Entry) (post : List Entry) :
    (pre ++ e :: post).set pre.length f = pre ++ f :: post := by simp

theorem eraseIdx_pre (pre : List Entry) (e : Entry) (post : List Entry) :
    (pre ++ e :: post).eraseIdx pre.length = pre ++ post := by
  rw [List.eraseIdx_append_of_length_le (Nat.le_refl _)]
  simp

theorem insertIdx_pre (pre : List Entry) (e : Entry) (post : List Entry) :
    (pre ++ post).insertIdx pre.length e = pre ++ e :: post := by
  induction pre with
  | nil => rfl
  | cons f pre ih => simpa using ih

theorem findIdx_split (p : Entry → Bool) (l : List Entry) :
    ∃ pre rest, l = pre ++ rest ∧ l.findIdx p = pre.length ∧ (∀ e ∈ pre, p e = false) ∧
      ∀ e ∈ rest.head?, p e = true := by
  induction l with
  | nil => exact ⟨[], [], rfl, rfl, by simp, by simp⟩
  | cons e l ih =>
    cases hp : p e
    · obtain ⟨pre, rest, hl, hi, hpre, hrest⟩ := ih
      refine ⟨e :: pre, rest, by rw [hl]; rfl, ?_, by simpa [hp] using hpre, hrest⟩
      rw [List.findIdx_cons, hp, hi]
      rfl
    · exact ⟨[], e :: l, rfl, by rw [List.findIdx_cons, hp]; rfl, by simp, by simpa using hp⟩

variable [DecidableEq τ]

/-- What the second loop does to the entries from `i` on, whatever stands
before them. -/
theorem absorbOverlapping_spec {stop : UInt64} (type : τ) {pre post : List Entry} {s : Scan}
    {fuel : Nat} (hfuel : post.length ≤ fuel) (hentries : s.table.entries = pre ++ post)
    (hi : s.i = pre.length) (hs : Sound v post)
    (hsize : s.start.toNat + s.size.toNat = stop.toNat) :
    ∃ post' size' hi', absorbOverlapping v stop type fuel s =
        ⟨⟨pre ++ post', s.table.refused⟩, pre.length, s.start, size'⟩ ∧
      s.start.toNat + size'.toNat = hi' ∧ Absorbed v post stop.toNat type post' hi' := by
  obtain ⟨⟨entries, refused⟩, i, start, size⟩ := s
  simp only at hentries hi hsize
  subst hentries hi
  induction post generalizing fuel with
  | nil =>
    refine ⟨[], size, stop.toNat, ?_, hsize, absorbed_nil stop.toNat_lt type⟩
    cases fuel <;> simp [absorbOverlapping]
  | cons e post ih =>
    obtain _ | fuel := fuel
    · simp at hfuel
    have hb := hs.bounded e (by simp)
    have hend := eEnd_toNat hb
    rw [absorbOverlapping]
    simp only [getElem?_pre, List.head?_cons, set_pre, removeE820, eraseIdx_pre]
    by_cases hfar : stop < e.baseAddr
    · rw [if_pos hfar]
      exact ⟨e :: post, size, stop.toNat, rfl, hsize,
        absorbed_stop hs (UInt64.lt_iff_toNat_lt.mp hfar) type⟩
    rw [if_neg hfar]
    have hlo : e.region.lo ≤ stop.toNat := UInt64.le_iff_toNat_le.mp (UInt64.not_lt.mp hfar)
    by_cases hcov : stop ≥ e.eEnd
    · rw [if_pos hcov]
      have hle : e.region.hi ≤ stop.toNat := hend ▸ UInt64.le_iff_toNat_le.mp hcov
      have hfuel' : post.length ≤ fuel := by simpa using hfuel
      obtain ⟨post', size', hi', heq, hsz, habs⟩ := ih hfuel' hs.tail
      exact ⟨post', size', hi', heq, hsz, absorbed_drop hle habs⟩
    rw [if_neg hcov]
    have hlt : stop < e.eEnd := UInt64.not_le.mp hcov
    have hhi : stop.toNat < e.region.hi := hend ▸ UInt64.lt_iff_toNat_lt.mp hlt
    by_cases hty : type = v.load e.type
    · rw [if_pos hty]
      subst hty
      refine ⟨post, _, e.region.hi, rfl, ?_, absorbed_join hs hlo hhi⟩
      -- The sum stays below the end of an entry that does not wrap.
      have hle := UInt64.toNat_sub_of_le _ _ (UInt64.le_of_lt hlt)
      rw [UInt64.toNat_add, hle, hend, Nat.mod_eq_of_lt] <;> omega
    · rw [if_neg hty]
      exact ⟨_, size, stop.toNat, rfl, hsize,
        absorbed_adjust hs (region_tail e.type hb (UInt64.le_of_lt hlt)) hlo hhi hty⟩

/-- An entry that a new item `[lo, hi)` falls inside of, with room on both sides. -/
def Straddles (l : List Entry) (lo hi : Nat) : Prop :=
  ∃ e ∈ l, e.region.lo < lo ∧ hi < e.region.hi

/-- The state `s` that the first loop ends in, with its table taken apart at the
place of the new item. The table grows only when an entry is split in three,
and then within its limit. -/
structure Split (v : Variant τ) (t : Table) (start stop : UInt64) (type : τ) (s : Scan)
    (pre post : List Entry) : Prop where
  entries : s.table.entries = pre ++ post
  index : s.i = pre.length
  size : s.start.toNat + s.size.toNat = stop.toNat
  refused : t.refused ≤ s.table.refused
  placed : Placed v t.entries start.toNat stop.toNat type (s.table.refused = t.refused) pre post
    s.start.toNat
  limit : s.table.entries.length ≤ max t.entries.length v.maxEntries
  grows : ¬ Straddles t.entries start.toNat stop.toNat →
    s.table.refused = t.refused ∧ s.table.entries.length ≤ t.entries.length

omit [DecidableEq τ] in
theorem split_merge {pre rest : List Entry} {e : Entry} {refused : Nat} {start size stop : UInt64}
    (hs : Sound v (pre ++ e :: rest)) (hsize : start.toNat + size.toNat = stop.toNat)
    (hlt : start.toNat < stop.toNat) (hlo : start > e.baseAddr)
    (hle : start.toNat ≤ e.region.hi) :
    Split v ⟨pre ++ e :: rest, refused⟩ start stop (v.load e.type)
      ⟨⟨pre ++ e :: rest, refused⟩, pre.length, e.baseAddr, size + (start - e.baseAddr)⟩
      pre (e :: rest) where
  entries := rfl
  index := rfl
  size := by
    have hsub := UInt64.toNat_sub_of_le _ _ (UInt64.le_of_lt hlo)
    have hlo' := UInt64.lt_iff_toNat_lt.mp hlo
    have hstop := stop.toNat_lt
    dsimp only
    rw [UInt64.toNat_add, hsub, Nat.mod_eq_of_lt] <;> omega
  refused := Nat.le_refl _
  placed := placed_merge hs (UInt64.lt_iff_toNat_lt.mp hlo) hle hlt
  limit := Nat.le_max_left _ _
  grows _ := ⟨rfl, Nat.le_refl _⟩

omit [DecidableEq τ] in
/-- The new item ends inside the entry it begins in, so the entry's tail is
inserted again, or is turned away. -/
theorem split_three {pre rest : List Entry} {e : Entry} {refused : Nat}
    {start size stop : UInt64} {type : τ}
    (hs : Sound v (pre ++ e :: rest)) (hbefore : ∀ f ∈ pre, f.region.hi < start.toNat)
    (hsize : start.toNat + size.toNat = stop.toNat) (hlt : start.toNat < stop.toNat)
    (hlo : start > e.baseAddr) (hle : start.toNat ≤ e.region.hi) (hty : type ≠ v.load e.type)
    (htail : e.eEnd > stop) :
    ∃ post, Split v ⟨pre ++ e :: rest, refused⟩ start stop type
      ⟨insertE820 v ⟨pre ++ { e with length := start - e.baseAddr } :: rest, refused⟩
        (pre.length + 1) stop (e.eEnd - stop) (v.load e.type), pre.length + 1, start, size⟩
      (pre ++ [{ e with length := start - e.baseAddr }]) post := by
  have hb := hs.bounded e (by simp)
  have hlo' : e.region.lo < start.toNat := UInt64.lt_iff_toNat_lt.mp hlo
  have htail' : stop.toNat < e.region.hi := eEnd_toNat hb ▸ UInt64.lt_iff_toNat_lt.mp htail
  have hcut := region_shorten (UInt64.le_of_lt hlo)
  have hstr : Straddles (pre ++ e :: rest) start.toNat stop.toNat := ⟨e, by simp, hlo', htail'⟩
  unfold insertE820
  by_cases hfull : (pre ++ { e with length := start - e.baseAddr } :: rest).length ≥ v.maxEntries
  · rw [if_pos hfull]
    refine ⟨rest, by simp, by simp, hsize, by simp, ?_, by simp, fun h => absurd hstr h⟩
    refine placed_cut hs hbefore hcut hlo' hle hlt hty hs.right.tail List.Pairwise.tail
      (fun h => by simp at h) fun a _ => ?_
    by_cases hc : a < e.region.hi
    · left
      exact lookup_of_lt_lo (forall_view.mpr fun f hf => hc.trans_le (hs.right.head_le f hf))
    · right
      rw [view_cons, lookup_cons, if_neg fun h => hc h.2]
  · rw [if_neg hfull, v.store_load]
    have hreg := region_tail e.type hb (UInt64.le_of_lt htail)
    obtain ⟨sound, merged, keeps⟩ := tail_spec hs.right hreg (by omega) htail'
    refine ⟨⟨stop, e.eEnd - stop, e.type⟩ :: rest, ?_, by simp, hsize, Nat.le_refl _,
      placed_cut hs hbefore hcut hlo' hle hlt hty sound merged (fun _ => keeps)
        (fun a ha => .inr (keeps a ha)), ?_, fun h => absurd hstr h⟩
    · have hins := insertIdx_pre (pre ++ [{ e with length := start - e.baseAddr }])
        ⟨stop, e.eEnd - stop, e.type⟩ rest
      simpa using hins
    · have hmax : (pre ++ { e with length := start - e.baseAddr } :: rest).length + 1 ≤
          v.maxEntries := by omega
      exact (List.length_insertIdx_le_succ.trans hmax).trans (Nat.le_max_right _ _)

omit [DecidableEq τ] in
/-- The new item covers the entry's end: the entry keeps only its front. -/
theorem split_two {pre rest : List Entry} {e : Entry} {refused : Nat}
    {start size stop : UInt64} {type : τ}
    (hs : Sound v (pre ++ e :: rest)) (hbefore : ∀ f ∈ pre, f.region.hi < start.toNat)
    (hsize : start.toNat + size.toNat = stop.toNat) (hlt : start.toNat < stop.toNat)
    (hlo : start > e.baseAddr) (hle : start.toNat ≤ e.region.hi) (hty : type ≠ v.load e.type)
    (htail : ¬ e.eEnd > stop) :
    Split v ⟨pre ++ e :: rest, refused⟩ start stop type
      ⟨⟨pre ++ { e with length := start - e.baseAddr } :: rest, refused⟩, pre.length + 1,
        start, size⟩
      (pre ++ [{ e with length := start - e.baseAddr }]) rest := by
  have hb := hs.bounded e (by simp)
  have htail' : e.region.hi ≤ stop.toNat :=
    eEnd_toNat hb ▸ UInt64.le_iff_toNat_le.mp (UInt64.not_lt.mp htail)
  have skip : ∀ a, stop.toNat ≤ a → lookup (view rest) a = lookup (view (e :: rest)) a := by
    intro a ha
    rw [view_cons, lookup_cons, if_neg]
    intro hc
    have := hc.2
    omega
  exact {
    entries := by simp
    index := by simp
    size := hsize
    refused := Nat.le_refl _
    placed := placed_cut hs hbefore (region_shorten (UInt64.le_of_lt hlo))
      (UInt64.lt_iff_toNat_lt.mp hlo) hle hlt hty hs.right.tail List.Pairwise.tail
      (fun _ => skip) (fun a ha => .inr (skip a ha))
    limit := by simp
    grows := fun _ => ⟨rfl, by simp⟩ }

/-- What the first loop does. -/
theorem splitExisting_spec {t : Table} {start size stop : UInt64} (type : τ)
    (hs : Sound v t.entries) (hsize : start.toNat + size.toNat = stop.toNat)
    (hlt : start.toNat < stop.toNat) :
    ∃ pre post, Split v t start stop type (splitExisting v t start size stop type) pre post := by
  obtain ⟨entries, refused⟩ := t
  obtain ⟨pre, rest, rfl, hidx, hpre, hrest⟩ :=
    findIdx_split (fun e => !decide (start > e.eEnd)) entries
  have hbefore : ∀ e ∈ pre, e.region.hi < start.toNat := by
    intro e he
    have h := hpre e he
    rw [Bool.not_eq_false', decide_eq_true_eq] at h
    rw [← eEnd_toNat (hs.bounded e (by simp [he]))]
    exact UInt64.lt_iff_toNat_lt.mp h
  have here (hr : ∀ e ∈ rest, start.toNat ≤ e.region.lo) :
      Split v ⟨pre ++ rest, refused⟩ start stop type
        ⟨⟨pre ++ rest, refused⟩, pre.length, start, size⟩ pre rest :=
    ⟨rfl, rfl, hsize, Nat.le_refl _, placed_here hs hbefore hr hlt, Nat.le_max_left _ _,
      fun _ => ⟨rfl, Nat.le_refl _⟩⟩
  unfold splitExisting
  simp only [hidx, getElem?_pre]
  cases rest with
  | nil => exact ⟨pre, [], here (by simp)⟩
  | cons e rest =>
    simp only [List.head?_cons, set_pre]
    have hle : start.toNat ≤ e.region.hi := by
      have h := hrest e (by simp)
      rw [Bool.not_eq_true', decide_eq_false_iff_not] at h
      rw [← eEnd_toNat (hs.bounded e (by simp))]
      exact UInt64.le_iff_toNat_le.mp (UInt64.not_lt.mp h)
    by_cases hlo : start > e.baseAddr
    · rw [if_pos hlo]
      by_cases hty : type = v.load e.type
      · rw [if_pos hty]
        subst hty
        exact ⟨pre, e :: rest, split_merge hs hsize hlt hlo hle⟩
      rw [if_neg hty]
      by_cases htail : e.eEnd > stop
      · rw [if_pos htail]
        exact ⟨_, split_three hs hbefore hsize hlt hlo hle hty htail⟩
      · rw [if_neg htail]
        exact ⟨_, rest, split_two hs hbefore hsize hlt hlo hle hty htail⟩
    · rw [if_neg hlo]
      have hge : start.toNat ≤ e.region.lo := UInt64.le_iff_toNat_le.mp (UInt64.not_lt.mp hlo)
      refine ⟨pre, e :: rest, here fun f hf => ?_⟩
      have hne : e.region.lo < e.region.hi := hs.ordered.nonempty e.region (by simp)
      rcases List.mem_cons.mp hf with rfl | hf
      · exact hge
      · have := hs.right.head_le f hf
        omega

end

end CsmWrap.E820
