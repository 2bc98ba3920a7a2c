import CsmWrap.E820.Loops

/-!
# What `e820_add` does to a table

`e820Add` on a sound table paints the range of the call over what the table
reported before; when an insertion is refused, addresses are lost but none is
reported wrongly.
-/

namespace CsmWrap.E820
open Regions

section
variable {τ : Type} {v : Variant τ}

/-- Both loops together: the new item will go from `lo'` to `hi'`, between
`pre` and `post`. -/
structure Carved (v : Variant τ) (m : List Entry) (lo hi : Nat) (type : τ) (exact : Prop)
    (pre post : List Entry) (lo' hi' : Nat) : Prop where
  soundPre : Sound v pre
  soundPost : Sound v post
  loLe : lo' ≤ lo
  leHi : hi ≤ hi'
  lt : hi' < 2 ^ 64
  before : ∀ e ∈ pre, e.region.hi ≤ lo'
  after : ∀ e ∈ post, hi' ≤ e.region.lo
  keepsPre : ∀ a, a < lo' → lookup (view pre) a = lookup (view m) a
  grown : ∀ a, lo' ≤ a → a < hi' → ¬ (lo ≤ a ∧ a < hi) → lookup (view m) a = some (v.store type)
  keepsPost : exact → ∀ a, hi' ≤ a → lookup (view post) a = lookup (view m) a
  losesPost : ∀ a, hi' ≤ a → lookup (view post) a = none ∨ lookup (view post) a = lookup (view m) a
  hole : type = v.hole → lo' = lo ∧ hi' = hi
  mergedPre : Merged (view m) → Merged (view pre)
  mergedPost : Merged (view m) → Merged (view post)
  apartPre : Merged (view m) → v.load (v.store type) = type →
    ∀ e ∈ pre, e.region.hi = lo' → e.type ≠ v.store type
  apartPost : Merged (view m) → v.load (v.store type) = type →
    ∀ e ∈ post, hi' = e.region.lo → e.type ≠ v.store type

theorem Placed.carved {m pre post post' : List Entry} {lo hi lo' hi' : Nat} {type : τ}
    {exact : Prop} (hp : Placed v m lo hi type exact pre post lo')
    (ha : Absorbed v post hi type post' hi') :
    Carved v m lo hi type exact pre post' lo' hi' where
  soundPre := hp.soundPre
  soundPost := ha.sound
  loLe := hp.le
  leHi := ha.le
  lt := ha.lt
  before := hp.before
  after := ha.after
  keepsPre := hp.keepsPre
  grown a hlo hhi hout := by
    by_cases h : a < lo
    · exact hp.grown a hlo h
    · have hge : hi ≤ a := by omega
      have hg := ha.grown a hge hhi
      cases hp.losesPost a hge with
      | inl hl => rw [hl] at hg; cases hg
      | inr hl => rw [← hl]; exact hg
  keepsPost hx a h := by rw [ha.keeps a h]; exact hp.keepsPost hx a (ha.le.trans h)
  losesPost a h := by rw [ha.keeps a h]; exact hp.losesPost a (ha.le.trans h)
  hole h := ⟨hp.hole h, ha.hole h⟩
  mergedPre := hp.mergedPre
  mergedPost hm := ha.merged (hp.mergedPost hm)
  apartPre := hp.apart
  apartPost hm := ha.apart (hp.mergedPost hm)

/-- The two parts stay apart by at least the range of the call. -/
theorem Carved.gap {m pre post : List Entry} {lo hi lo' hi' : Nat} {type : τ} {exact : Prop}
    (h : Carved v m lo hi type exact pre post lo' hi') (hlt : lo < hi) :
    ∀ e ∈ pre, ∀ f ∈ post, e.region.hi < f.region.lo := by
  intro e he f hf
  have h1 := h.before e he
  have h2 := h.after f hf
  have h3 := h.loLe
  have h4 := h.leHi
  omega

theorem Carved.sound_without {m pre post : List Entry} {lo hi lo' hi' : Nat} {type : τ}
    {exact : Prop} (h : Carved v m lo hi type exact pre post lo' hi') (hlt : lo < hi) :
    Sound v (pre ++ post) :=
  h.soundPre.append h.soundPost fun e he f hf => (h.gap hlt e he f hf).le

theorem Carved.merged_without {m pre post : List Entry} {lo hi lo' hi' : Nat} {type : τ}
    {exact : Prop} (h : Carved v m lo hi type exact pre post lo' hi') (hlt : lo < hi)
    (hm : Merged (view m)) : Merged (view (pre ++ post)) := by
  rw [view_append]
  refine List.pairwise_append.mpr ⟨h.mergedPre hm, h.mergedPost hm, ?_⟩
  rw [forall_view]
  intro e he
  rw [forall_view]
  intro f hf ht
  have := h.gap hlt e he f hf
  omega

theorem Carved.lookup_without {m pre post : List Entry} {lo hi lo' hi' : Nat} {type : τ}
    {exact : Prop} (h : Carved v m lo hi type exact pre post lo' hi') (hlt : lo < hi)
    (t : Option UInt32) :
    Within (lookup (view (pre ++ post))) (paint (lookup (view m)) lo hi t) := by
  intro a
  have h3 := h.loLe
  have h4 := h.leHi
  rw [view_append, lookup_gap (forall_view.mpr h.before) (forall_view.mpr h.after) (by omega)]
  split
  · right
    rw [h.keepsPre a (by assumption), paint_outside (by omega)]
  split
  · exact .inl rfl
  · rw [paint_outside (by omega)]
    exact h.losesPost a (by omega)

theorem Carved.lookup_hole {m pre post : List Entry} {lo hi lo' hi' : Nat} {exact : Prop}
    (h : Carved v m lo hi v.hole exact pre post lo' hi') (hlt : lo < hi) (hx : exact) :
    lookup (view (pre ++ post)) = paint (lookup (view m)) lo hi none := by
  obtain ⟨rfl, rfl⟩ := h.hole rfl
  funext a
  rw [view_append, lookup_gap (forall_view.mpr h.before) (forall_view.mpr h.after) hlt]
  split
  · rw [h.keepsPre a (by assumption), paint_outside (by omega)]
  split
  · rw [paint_inside (by omega)]
  · rw [paint_outside (by omega)]
    exact h.keepsPost hx a (by omega)

theorem Carved.sound_with {m pre post : List Entry} {lo hi lo' hi' : Nat} {type : τ}
    {exact : Prop} (h : Carved v m lo hi type exact pre post lo' hi') (hlt : lo < hi)
    (hne : type ≠ v.hole) {e : Entry} (he : e.region = ⟨lo', hi', v.store type⟩) :
    Sound v (pre ++ e :: post) := by
  have htype : e.type = v.store type := congrArg Region.tag he
  have h3 := h.loLe
  have h4 := h.leHi
  have hcons : Sound v (e :: post) := by
    refine .cons ?_ ?_ ?_ h.soundPost ?_
    · rw [he]; exact (h3.trans_lt hlt).trans_le h4
    · rw [he]; exact h.lt
    · rw [htype]; exact v.load_store_ne type hne
    · rw [he]; exact h.after
  apply h.soundPre.append hcons
  intro f hf g hg
  rcases List.mem_cons.mp hg with rfl | hg
  · rw [he]; exact h.before f hf
  · exact (h.gap hlt f hf g hg).le

theorem Carved.merged_with {m pre post : List Entry} {lo hi lo' hi' : Nat} {type : τ}
    {exact : Prop} (h : Carved v m lo hi type exact pre post lo' hi') (hlt : lo < hi)
    (hfits : v.load (v.store type) = type) {e : Entry}
    (he : e.region = ⟨lo', hi', v.store type⟩) (hm : Merged (view m)) :
    Merged (view (pre ++ e :: post)) := by
  have hcons : Merged (view (e :: post)) := by
    rw [view_cons, he]
    refine List.pairwise_cons.mpr ⟨forall_view.mpr fun f hf ht => ?_, h.mergedPost hm⟩
    exact (h.apartPost hm hfits f hf ht).symm
  rw [view_append]
  refine List.pairwise_append.mpr ⟨h.mergedPre hm, hcons, ?_⟩
  rw [forall_view]
  intro f hf
  rw [forall_view]
  intro g hg ht
  rcases List.mem_cons.mp hg with rfl | hg
  · rw [he] at ht ⊢
    exact h.apartPre hm hfits f hf ht
  · have := h.gap hlt f hf g hg
    omega

/-- Only the new item can touch a neighbour of its own type, whatever its type is. -/
theorem Carved.merged_around {m pre post : List Entry} {lo hi lo' hi' : Nat} {type : τ}
    {exact : Prop} (h : Carved v m lo hi type exact pre post lo' hi') (hlt : lo < hi)
    (hm : Merged (view m)) (e : Entry) :
    (pre ++ e :: post).Pairwise fun f g =>
      f.region.hi = g.region.lo → f.type = g.type → f = e ∨ g = e := by
  have old : (pre ++ post).Pairwise fun f g =>
      f.region.hi = g.region.lo → f.type = g.type → f = e ∨ g = e :=
    (List.pairwise_map.mp (h.merged_without hlt hm)).imp fun hne ht heq => absurd heq (hne ht)
  obtain ⟨hpre, hpost, hcross⟩ := List.pairwise_append.mp old
  refine List.pairwise_append.mpr ⟨hpre, List.pairwise_cons.mpr ⟨?_, hpost⟩, ?_⟩
  · exact fun _ _ _ _ => .inl rfl
  · intro f hf g hg
    rcases List.mem_cons.mp hg with rfl | hg
    · exact fun _ _ => .inr rfl
    · exact hcross f hf g hg

theorem Carved.lookup_with {m pre post : List Entry} {lo hi lo' hi' : Nat} {type : τ}
    {exact : Prop} (h : Carved v m lo hi type exact pre post lo' hi') (hlt : lo < hi) {e : Entry}
    (he : e.region = ⟨lo', hi', v.store type⟩) :
    Within (lookup (view (pre ++ e :: post)))
      (paint (lookup (view m)) lo hi (some (v.store type))) ∧
    (exact → lookup (view (pre ++ e :: post)) =
      paint (lookup (view m)) lo hi (some (v.store type))) := by
  have h3 := h.loLe
  have h4 := h.leHi
  have around := fun a => lookup_around (t := v.store type) (forall_view.mpr h.before)
    (forall_view.mpr h.after) (by omega) a
  have near : ∀ a, a < hi' → lookup (view (pre ++ e :: post)) a =
      paint (lookup (view m)) lo hi (some (v.store type)) a := by
    intro a ha
    rw [view_append, view_cons, he, around]
    split
    · rw [h.keepsPre a (by assumption), paint_outside (by omega)]
    by_cases hin : lo ≤ a ∧ a < hi
    · rw [paint_inside hin]
    · rw [paint_outside hin, h.grown a (by omega) ha hin]
  have far : ∀ a, hi' ≤ a → lookup (view (pre ++ e :: post)) a = lookup (view post) a ∧
      paint (lookup (view m)) lo hi (some (v.store type)) a = lookup (view m) a := by
    intro a ha
    rw [view_append, view_cons, he, around, if_neg (by omega), if_neg (by omega),
      paint_outside (by omega)]
    exact ⟨rfl, rfl⟩
  constructor
  · intro a
    by_cases ha : a < hi'
    · exact .inr (near a ha)
    · obtain ⟨e1, e2⟩ := far a (by omega)
      rw [e1, e2]
      exact h.losesPost a (by omega)
  · intro hx
    funext a
    by_cases ha : a < hi'
    · exact near a ha
    · obtain ⟨e1, e2⟩ := far a (by omega)
      rw [e1, e2]
      exact h.keepsPost hx a (by omega)

/-! ## The whole call -/

/-- What an address in the range of a call with this type is to be reported as. -/
def Variant.given [DecidableEq τ] (v : Variant τ) (type : τ) : Option UInt32 :=
  if type = v.hole then none else some (v.store type)

/-- The type survives being stored in an entry, or is never stored. -/
def Variant.Fits (v : Variant τ) (type : τ) : Prop := type = v.hole ∨ v.load (v.store type) = type

/-- How a call ends: without the new item because it is a hole, without it
because the table is full, or with it. -/
inductive Ending (v : Variant τ) (t t' : Table) (lo hi : Nat) (type : τ) : Prop
  | holed (pre post : List Entry) (refused lo' hi' : Nat) (typed : type = v.hole)
      (carved : Carved v t.entries lo hi type (refused = t.refused) pre post lo' hi')
      (result : t' = ⟨pre ++ post, refused⟩) : Ending v t t' lo hi type
  | full (pre post : List Entry) (refused lo' hi' : Nat) (typed : type ≠ v.hole)
      (more : t.refused ≤ refused)
      (carved : Carved v t.entries lo hi type (refused = t.refused) pre post lo' hi')
      (result : t' = ⟨pre ++ post, refused + 1⟩) : Ending v t t' lo hi type
  | put (pre post : List Entry) (e : Entry) (refused lo' hi' : Nat) (typed : type ≠ v.hole)
      (carved : Carved v t.entries lo hi type (refused = t.refused) pre post lo' hi')
      (placed : e.region = ⟨lo', hi', v.store type⟩)
      (result : t' = ⟨pre ++ e :: post, refused⟩) : Ending v t t' lo hi type

variable [DecidableEq τ]

theorem lt_end {start size : UInt64} (hsize : size ≠ 0) :
    start.toNat < start.toNat + size.toNat := by
  apply Nat.lt_add_of_pos_right
  apply Nat.pos_of_ne_zero
  exact fun h => hsize (UInt64.toNat_inj.mp h)

theorem e820Add_empty (v : Variant τ) (t : Table) (start : UInt64) {size : UInt64} (type : τ)
    (hsize : size = 0) : e820Add v t start size type = t := by
  unfold e820Add
  rw [if_pos hsize]

/-- Everything a call with a range can do, and how far it can grow the table. -/
theorem e820Add_ending {t : Table} {start size : UInt64} (type : τ) (hs : Sound v t.entries)
    (hsize : size ≠ 0) (hwrap : start.toNat + size.toNat < 2 ^ 64) :
    Ending v t (e820Add v t start size type) start.toNat (start.toNat + size.toNat) type ∧
    t.refused ≤ (e820Add v t start size type).refused ∧
    (e820Add v t start size type).entries.length ≤ max t.entries.length v.maxEntries ∧
    (¬ Straddles t.entries start.toNat (start.toNat + size.toNat) →
      t.entries.length < v.maxEntries →
      (e820Add v t start size type).refused = t.refused ∧
      (e820Add v t start size type).entries.length ≤ t.entries.length + 1) := by
  have hstop : (start + size).toNat = start.toNat + size.toNat := by
    rw [UInt64.toNat_add, Nat.mod_eq_of_lt hwrap]
  have hlt : start.toNat < (start + size).toNat := hstop ▸ lt_end hsize
  obtain ⟨pre, post, hsplit⟩ := splitExisting_spec type hs hstop.symm hlt
  unfold e820Add
  rw [if_neg hsize]
  dsimp only
  generalize splitExisting v t start size (start + size) type = s at hsplit ⊢
  have hfuel : post.length ≤ s.table.entries.length := by
    rw [hsplit.entries]
    simp
  obtain ⟨post', size', hi', heq, hsz, habs⟩ := absorbOverlapping_spec type hfuel
    hsplit.entries hsplit.index hsplit.placed.soundPost hsplit.size
  have hcarved := hsplit.placed.carved habs
  have hlen : (pre ++ post').length ≤ s.table.entries.length := by
    have := habs.length
    rw [hsplit.entries, List.length_append, List.length_append]
    omega
  have hlimit := hsplit.limit
  have hgrows := hsplit.grows
  have hrefused := hsplit.refused
  rw [hstop] at hcarved hgrows
  rw [heq]
  by_cases hhole : type = v.hole
  · rw [if_neg (not_not.mpr hhole)]
    refine ⟨.holed pre post' _ _ _ hhole hcarved rfl, hrefused, by dsimp only; omega, ?_⟩
    intro hstr _
    obtain ⟨h1, h2⟩ := hgrows hstr
    exact ⟨h1, by dsimp only; omega⟩
  rw [if_pos hhole, insertE820]
  dsimp only
  by_cases hfull : (pre ++ post').length ≥ v.maxEntries
  · rw [if_pos hfull]
    refine ⟨.full pre post' _ _ _ hhole hrefused hcarved rfl, by dsimp only; omega,
      by dsimp only; omega, ?_⟩
    intro hstr hroom
    have := (hgrows hstr).2
    omega
  · rw [if_neg hfull, insertIdx_pre]
    have hnew : (pre ++ ⟨s.start, size', v.store type⟩ :: post').length =
        (pre ++ post').length + 1 := by
      simp only [List.length_append, List.length_cons]
      omega
    refine ⟨.put pre post' ⟨s.start, size', v.store type⟩ _ _ _ hhole hcarved ?_ rfl, hrefused,
      ?_, ?_⟩
    · unfold Entry.region
      rw [hsz]
    · dsimp only
      rw [hnew]
      omega
    · intro hstr _
      obtain ⟨h1, h2⟩ := hgrows hstr
      exact ⟨h1, by dsimp only; rw [hnew]; omega⟩

theorem e820Add_sound {t : Table} {start size : UInt64} {type : τ} (hs : Sound v t.entries)
    (hwrap : start.toNat + size.toNat < 2 ^ 64) :
    Sound v (e820Add v t start size type).entries := by
  by_cases hsize : size = 0
  · rw [e820Add_empty v t start type hsize]
    exact hs
  have hlt : start.toNat < start.toNat + size.toNat := lt_end hsize
  cases (e820Add_ending type hs hsize hwrap).1 with
  | holed _ _ _ _ _ _ carved result | full _ _ _ _ _ _ _ carved result =>
    rw [result]
    exact carved.sound_without hlt
  | put _ _ _ _ _ _ typed carved placed result =>
    rw [result]
    exact carved.sound_with hlt typed placed

/-- Touching neighbours of one type stay merged, if the type of the call
survives being stored. -/
theorem e820Add_merged {t : Table} {start size : UInt64} {type : τ} (hs : Sound v t.entries)
    (hwrap : start.toNat + size.toNat < 2 ^ 64) (hfits : v.Fits type)
    (hm : Merged (view t.entries)) :
    Merged (view (e820Add v t start size type).entries) := by
  by_cases hsize : size = 0
  · rw [e820Add_empty v t start type hsize]
    exact hm
  have hlt : start.toNat < start.toNat + size.toNat := lt_end hsize
  cases (e820Add_ending type hs hsize hwrap).1 with
  | holed _ _ _ _ _ _ carved result | full _ _ _ _ _ _ _ carved result =>
    rw [result]
    exact carved.merged_without hlt hm
  | put _ _ _ _ _ _ typed carved placed result =>
    rw [result]
    exact carved.merged_with hlt (hfits.resolve_left typed) placed hm

/-- Whatever the type, neighbours of one type that touch are merged but for the new item,
which holds the range of the call. -/
theorem e820Add_merged_old {t : Table} {start size : UInt64} {type : τ}
    (hs : Sound v t.entries) (hwrap : start.toNat + size.toNat < 2 ^ 64)
    (hm : Merged (view t.entries)) :
    (e820Add v t start size type).entries.Pairwise fun f g =>
      f.region.hi = g.region.lo → f.type = g.type → ∃ e, (e = f ∨ e = g) ∧ size ≠ 0 ∧
        e.type = v.store type ∧ e.region.lo ≤ start.toNat ∧
        start.toNat + size.toNat ≤ e.region.hi := by
  have unmerged : ∀ {l : List Entry}, Merged (view l) → l.Pairwise fun f g =>
      f.region.hi = g.region.lo → f.type = g.type → ∃ e, (e = f ∨ e = g) ∧ size ≠ 0 ∧
        e.type = v.store type ∧ e.region.lo ≤ start.toNat ∧
        start.toNat + size.toNat ≤ e.region.hi :=
    fun hm => (List.pairwise_map.mp hm).imp fun hne ht heq => absurd heq (hne ht)
  by_cases hsize : size = 0
  · rw [e820Add_empty v t start type hsize]
    exact unmerged hm
  have hlt : start.toNat < start.toNat + size.toNat := lt_end hsize
  cases (e820Add_ending type hs hsize hwrap).1 with
  | holed _ _ _ _ _ _ carved result | full _ _ _ _ _ _ _ carved result =>
    rw [result]
    exact unmerged (carved.merged_without hlt hm)
  | put _ _ e _ _ _ _ carved placed result =>
    rw [result]
    refine (carved.merged_around hlt hm e).imp fun h ht heq => ⟨e, ?_, hsize, ?_, ?_, ?_⟩
    · exact (h ht heq).imp Eq.symm Eq.symm
    · exact congrArg Region.tag placed
    · rw [placed]
      exact carved.loLe
    · rw [placed]
      exact carved.leHi

/-- **A call paints its range**, up to addresses lost to refused insertions. -/
theorem e820Add_lookup {t : Table} {start size : UInt64} {type : τ} (hs : Sound v t.entries)
    (hwrap : start.toNat + size.toNat < 2 ^ 64) :
    Within (lookup (view (e820Add v t start size type).entries))
      (paint (lookup (view t.entries)) start.toNat (start.toNat + size.toNat) (v.given type)) ∧
    ((e820Add v t start size type).refused = t.refused →
      lookup (view (e820Add v t start size type).entries) =
        paint (lookup (view t.entries)) start.toNat (start.toNat + size.toNat) (v.given type)) := by
  by_cases hsize : size = 0
  · have hid : paint (lookup (view t.entries)) start.toNat (start.toNat + size.toNat)
        (v.given type) = lookup (view t.entries) := by
      funext a
      rw [hsize]
      exact paint_outside (by simp)
    rw [e820Add_empty v t start type hsize, hid]
    exact ⟨.refl _, fun _ => rfl⟩
  have hlt : start.toNat < start.toNat + size.toNat := lt_end hsize
  cases (e820Add_ending type hs hsize hwrap).1 with
  | holed _ _ _ _ _ typed carved result =>
    subst typed
    rw [result, Variant.given, if_pos rfl]
    exact ⟨carved.lookup_without hlt none, fun h => carved.lookup_hole hlt h⟩
  | full _ _ refused _ _ typed more carved result =>
    rw [result, Variant.given, if_neg typed]
    refine ⟨carved.lookup_without hlt _, fun h => ?_⟩
    dsimp only at h
    omega
  | put _ _ _ _ _ _ typed carved placed result =>
    rw [result, Variant.given, if_neg typed]
    exact carved.lookup_with hlt placed

end

end CsmWrap.E820
