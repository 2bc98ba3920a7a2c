import CsmWrap.E820.Add

/-!
# Runs of `e820_add` and `e820_remove`

A run of calls against its purpose: the last call whose range contains an
address decides what is reported there. `lastType` states that with no table
at all, and the results here compare the table with it.
-/

namespace CsmWrap.E820
open Regions

section
variable {τ : Type}

inductive Call (τ : Type) where
  | add (start size : UInt64) (type : τ)
  | remove (start size : UInt64)
  deriving DecidableEq, Repr

def Call.start : Call τ → UInt64
  | .add start _ _ | .remove start _ => start

def Call.size : Call τ → UInt64
  | .add _ size _ | .remove _ size => size

def Call.NonWrapping (c : Call τ) : Prop := c.start.toNat + c.size.toNat < 2 ^ 64

def Call.Contains (c : Call τ) (a : Nat) : Prop :=
  c.start.toNat ≤ a ∧ a < c.start.toNat + c.size.toNat

instance (c : Call τ) (a : Nat) : Decidable (c.Contains a) :=
  inferInstanceAs (Decidable (_ ∧ _))

instance (c : Call τ) : Decidable c.NonWrapping := inferInstanceAs (Decidable (_ < _))

variable [DecidableEq τ] (v : Variant τ)

/-- The type a call gives to its range; a hole gives none. -/
def Call.gives : Call τ → Option τ
  | .add _ _ type => if type = v.hole then none else some type
  | .remove _ _ => none

def Call.step (t : Table) : Call τ → Table
  | .add start size type => e820Add v t start size type
  | .remove start size => e820Remove v t start size

def runFrom (t : Table) (calls : List (Call τ)) : Table := calls.foldl (Call.step v) t

/-- The type of the call survives being stored. -/
def Call.Fits : Call τ → Prop
  | .add _ _ type => v.Fits type
  | .remove _ _ => True

/-- What the last call whose range contains an address gives it. -/
def lastType (calls : List (Call τ)) (a : Nat) : Option τ :=
  (calls.reverse.find? fun c => decide (c.Contains a)).bind (Call.gives v)

/-- A call on the function that a table stands for. -/
def Call.paint (f : Coverage Nat UInt32) (c : Call τ) : Coverage Nat UInt32 :=
  Regions.paint f c.start.toNat (c.start.toNat + c.size.toNat) ((c.gives v).map v.store)

/-- The type an entry of the table gives to an address. -/
def Reports (l : List Entry) (a : Nat) (t : UInt32) : Prop :=
  ∃ e ∈ l, (e.baseAddr.toNat ≤ a ∧ a < e.baseAddr.toNat + e.length.toNat) ∧ e.type = t

instance (l : List Entry) (a : Nat) (t : UInt32) : Decidable (Reports l a t) :=
  inferInstanceAs (Decidable (∃ e ∈ l, _))

variable {v}

omit [DecidableEq τ] in
theorem reports_iff {l : List Entry} (hs : Sound v l) {a : Nat} {t : UInt32} :
    Reports l a t ↔ lookup (view l) a = some t := by
  rw [lookup_eq_some_iff hs.ordered]
  constructor
  · rintro ⟨e, he, hc, rfl⟩; exact ⟨e.region, List.mem_map_of_mem he, hc, rfl⟩
  · rintro ⟨r, hr, hc, rfl⟩
    obtain ⟨e, he, rfl⟩ := List.mem_map.mp hr
    exact ⟨e, he, hc, rfl⟩

variable (v) in
theorem step_eq_add (t : Table) (c : Call τ) :
    ∃ type, c.step v t = e820Add v t c.start c.size type ∧
      (c.gives v).map v.store = v.given type ∧ (c.Fits v → v.Fits type) := by
  cases c with
  | add start size type =>
    refine ⟨type, rfl, ?_, id⟩
    simp only [Call.gives, Variant.given]
    split <;> rfl
  | remove start size => exact ⟨v.hole, rfl, by simp [Call.gives, Variant.given], fun _ => .inl rfl⟩

theorem step_sound {t : Table} {c : Call τ} (hs : Sound v t.entries) (hc : c.NonWrapping) :
    Sound v (c.step v t).entries := by
  obtain ⟨type, e, -, -⟩ := step_eq_add v t c
  rw [e]
  exact e820Add_sound hs hc

theorem step_merged {t : Table} {c : Call τ} (hs : Sound v t.entries) (hc : c.NonWrapping)
    (hf : c.Fits v) (hm : Merged (view t.entries)) : Merged (view (c.step v t).entries) := by
  obtain ⟨type, e, -, fits⟩ := step_eq_add v t c
  rw [e]
  exact e820Add_merged hs hc (fits hf) hm

theorem step_lookup {t : Table} {c : Call τ} (hs : Sound v t.entries) (hc : c.NonWrapping) :
    Within (lookup (view (c.step v t).entries)) (c.paint v (lookup (view t.entries))) ∧
    ((c.step v t).refused = t.refused →
      lookup (view (c.step v t).entries) = c.paint v (lookup (view t.entries))) := by
  obtain ⟨type, e, given, -⟩ := step_eq_add v t c
  rw [e, Call.paint, given]
  exact e820Add_lookup hs hc

theorem step_counters {t : Table} {c : Call τ} (hs : Sound v t.entries) (hc : c.NonWrapping) :
    t.refused ≤ (c.step v t).refused ∧
    (c.step v t).entries.length ≤ max t.entries.length v.maxEntries := by
  obtain ⟨type, e, -, -⟩ := step_eq_add v t c
  rw [e]
  by_cases hsize : c.size = 0
  · rw [e820Add_empty v t c.start type hsize]
    exact ⟨Nat.le_refl _, Nat.le_max_left _ _⟩
  · obtain ⟨-, hr, hl, -⟩ := e820Add_ending type hs hsize hc
    exact ⟨hr, hl⟩

theorem run_sound {t : Table} {calls : List (Call τ)} (hs : Sound v t.entries)
    (hn : ∀ c ∈ calls, c.NonWrapping) : Sound v (runFrom v t calls).entries := by
  induction calls generalizing t with
  | nil => exact hs
  | cons c calls ih =>
    exact ih (step_sound hs (hn c (by simp))) fun d hd => hn d (by simp [hd])

theorem run_merged {t : Table} {calls : List (Call τ)} (hs : Sound v t.entries)
    (hn : ∀ c ∈ calls, c.NonWrapping) (hf : ∀ c ∈ calls, c.Fits v)
    (hm : Merged (view t.entries)) : Merged (view (runFrom v t calls).entries) := by
  induction calls generalizing t with
  | nil => exact hm
  | cons c calls ih =>
    have hc := hn c (by simp)
    exact ih (step_sound hs hc) (fun d hd => hn d (by simp [hd])) (fun d hd => hf d (by simp [hd]))
      (step_merged hs hc (hf c (by simp)) hm)

theorem run_counters {t : Table} {calls : List (Call τ)} (hs : Sound v t.entries)
    (hn : ∀ c ∈ calls, c.NonWrapping) :
    t.refused ≤ (runFrom v t calls).refused ∧
    (runFrom v t calls).entries.length ≤ max t.entries.length v.maxEntries := by
  induction calls generalizing t with
  | nil => exact ⟨Nat.le_refl _, Nat.le_max_left _ _⟩
  | cons c calls ih =>
    have hc := hn c (by simp)
    obtain ⟨h1, h2⟩ := step_counters hs hc
    obtain ⟨h3, h4⟩ := ih (step_sound hs hc) fun d hd => hn d (by simp [hd])
    exact ⟨h1.trans h3, by simp only [runFrom, List.foldl_cons] at h4 ⊢; omega⟩

theorem run_within {t : Table} {calls : List (Call τ)} (hs : Sound v t.entries)
    (hn : ∀ c ∈ calls, c.NonWrapping) {f : Coverage Nat UInt32}
    (hf : Within (lookup (view t.entries)) f) :
    Within (lookup (view (runFrom v t calls).entries)) (calls.foldl (Call.paint v) f) := by
  induction calls generalizing t f with
  | nil => exact hf
  | cons c calls ih =>
    have hc := hn c (by simp)
    apply ih (step_sound hs hc) fun d hd => hn d (by simp [hd])
    exact (step_lookup hs hc).1.trans (hf.paint _ _ _)

/-- A run in which no insertion was refused loses nothing either. -/
theorem run_lookup {t : Table} {calls : List (Call τ)} (hs : Sound v t.entries)
    (hn : ∀ c ∈ calls, c.NonWrapping) (hr : (runFrom v t calls).refused = t.refused) :
    lookup (view (runFrom v t calls).entries) =
      calls.foldl (Call.paint v) (lookup (view t.entries)) := by
  induction calls generalizing t with
  | nil => rfl
  | cons c calls ih =>
    have hc := hn c (by simp)
    have hrest : ∀ d ∈ calls, d.NonWrapping := fun d hd => hn d (by simp [hd])
    have h1 := (step_counters hs hc).1
    have h2 := (run_counters (step_sound hs hc) hrest).1
    simp only [runFrom, List.foldl_cons] at hr h2 ⊢
    have hstep : (c.step v t).refused = t.refused := by omega
    rw [← (step_lookup hs hc).2 hstep]
    exact ih (step_sound hs hc) hrest (by rw [hstep]; exact hr)

/-! ## Room in the table -/

/-- No call begins inside what earlier calls gave, unless at address 0. -/
def Fresh (v : Variant τ) : Coverage Nat UInt32 → List (Call τ) → Prop
  | _, [] => True
  | f, c :: calls => (c.size ≠ 0 → f c.start.toNat = none ∨ c.start = 0) ∧
      Fresh v (c.paint v f) calls

omit [DecidableEq τ] in
theorem not_straddles {t : Table} (hs : Sound v t.entries) {start : UInt64} {hi : Nat}
    (hlt : start.toNat < hi)
    (h : lookup (view t.entries) start.toNat = none ∨ start = 0) :
    ¬ Straddles t.entries start.toNat hi := by
  rintro ⟨e, he, hlo, hhi⟩
  rcases h with h | rfl
  · have hc : e.region.Covers start.toNat := ⟨hlo.le, hlt.trans hhi⟩
    rw [lookup_of_mem hs.ordered (List.mem_map_of_mem he) hc] at h
    cases h
  · exact absurd hlo (by simp)

/-- A call that starts on a free address, or at 0, splits nothing and takes one entry. -/
theorem step_room {t : Table} {c : Call τ} {f : Coverage Nat UInt32} (hs : Sound v t.entries)
    (hc : c.NonWrapping) (hf : Within (lookup (view t.entries)) f)
    (hfree : c.size ≠ 0 → f c.start.toNat = none ∨ c.start = 0)
    (hroom : t.entries.length < v.maxEntries) :
    (c.step v t).refused = t.refused ∧ (c.step v t).entries.length ≤ t.entries.length + 1 := by
  obtain ⟨type, estep, -, -⟩ := step_eq_add v t c
  rw [estep]
  by_cases hsize : c.size = 0
  · rw [e820Add_empty v t c.start type hsize]
    exact ⟨rfl, Nat.le_succ _⟩
  · have hlook : lookup (view t.entries) c.start.toNat = none ∨ c.start = 0 := by
      cases hfree hsize with
      | inl h =>
        cases hf c.start.toNat with
        | inl h' => exact .inl h'
        | inr h' => exact .inl (h'.trans h)
      | inr h => exact .inr h
    obtain ⟨-, -, -, hgrow⟩ := e820Add_ending type hs hsize hc
    exact hgrow (not_straddles hs (lt_end hsize) hlook) hroom

/-- Calls that split nothing take one entry each, so a table with that much
room refuses none of them. -/
theorem run_room {t : Table} {calls : List (Call τ)} {f : Coverage Nat UInt32}
    (hs : Sound v t.entries) (hn : ∀ c ∈ calls, c.NonWrapping)
    (hf : Within (lookup (view t.entries)) f) (hfresh : Fresh v f calls)
    (hroom : t.entries.length + calls.length ≤ v.maxEntries) :
    (runFrom v t calls).refused = t.refused := by
  induction calls generalizing t f with
  | nil => rfl
  | cons c calls ih =>
    have hc := hn c (by simp)
    rw [List.length_cons] at hroom
    have hstep := step_room hs hc hf hfresh.1 (by omega)
    have hwithin : Within (lookup (view (c.step v t).entries)) (c.paint v f) :=
      (step_lookup hs hc).1.trans (hf.paint _ _ _)
    have hrest := ih (step_sound hs hc) (fun d hd => hn d (by simp [hd])) hwithin hfresh.2
      (by omega)
    exact hrest.trans hstep.1

theorem lastType_append (calls : List (Call τ)) (c : Call τ) (a : Nat) :
    lastType v (calls ++ [c]) a = if c.Contains a then c.gives v else lastType v calls a := by
  simp only [lastType, List.reverse_append, List.reverse_singleton, List.singleton_append,
    List.find?_cons]
  by_cases h : c.Contains a
  · simp [h]
  · simp [h]

/-- Painting call after call leaves on each address what the last call there
gave it. -/
theorem paint_lastType (calls : List (Call τ)) (a : Nat) :
    calls.foldl (Call.paint v) (fun _ => none) a =
      (lastType v calls a).map v.store := by
  induction calls using List.reverseRecOn with
  | nil => rfl
  | append_singleton calls c ih =>
    rw [List.foldl_append, List.foldl_cons, List.foldl_nil, lastType_append, Call.paint]
    by_cases h : c.Contains a
    · rw [paint_inside h, if_pos h]
    · rw [paint_outside h, if_neg h, ih]

theorem run_empty_within {calls : List (Call τ)} (hn : ∀ c ∈ calls, c.NonWrapping) (a : Nat) :
    lookup (view (runFrom v .empty calls).entries) a = none ∨
    lookup (view (runFrom v .empty calls).entries) a = (lastType v calls a).map v.store := by
  rw [← paint_lastType]
  exact run_within Sound.nil hn (.refl _) a

end

end CsmWrap.E820
