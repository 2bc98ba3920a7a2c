import CsmWrap.Memory

/-!
# Programs on memory that keep track of their accesses

A `Prog` reads and writes bytes of memory and may trap. It returns, with its value
and the memory it leaves, the ranges it read and wrote, in order. `Runs P x m Q`
says that `x` started on `m` does not trap, that all its accesses satisfy `P`, and
that value and memory at the end satisfy `Q`; its rules follow the shape of the
program, with an invariant over what is left to do for a loop.
-/

namespace CsmWrap.AccessTrace
open Memory

inductive Kind where
  | read
  | write
  deriving DecidableEq, Repr

/-- A range of `len` bytes from `addr` on. -/
structure Access where
  kind : Kind
  addr : Int
  len : Nat
  deriving DecidableEq, Repr

structure Outcome (α : Type) where
  value : α
  mem : Mem
  trace : List Access

def Prog (α : Type) : Type := Mem → Option (Outcome α)

instance : Monad Prog where
  pure a := fun m => some ⟨a, m, []⟩
  bind x f := fun m => (x m).bind fun r =>
    (f r.value r.mem).map fun s => ⟨s.value, s.mem, r.trace ++ s.trace⟩

/-- A computation that does not touch memory, and traps without a value. -/
def ofOption {α : Type} (o : Option α) : Prog α := fun m => o.map (⟨·, m, []⟩)

def fetch8 (a : Int) : Prog UInt8 := fun m => some ⟨m a.toNat, m, [⟨.read, a, 1⟩]⟩

def fetch16 (a : Int) : Prog UInt16 := fun m => some ⟨read16 m a.toNat, m, [⟨.read, a, 2⟩]⟩

def fetch32 (a : Int) : Prog UInt32 := fun m => some ⟨read32 m a.toNat, m, [⟨.read, a, 4⟩]⟩

def put (a : Int) (bytes : List UInt8) : Prog Unit := fun m =>
  some ⟨(), store m a.toNat bytes, [⟨.write, a, bytes.length⟩]⟩

/-- A copy between ranges that do not overlap. -/
def memcpy (dst src : Int) (n : Nat) : Prog Unit := fun m =>
  some ⟨(), store m dst.toNat (load m src.toNat n), [⟨.read, src, n⟩, ⟨.write, dst, n⟩]⟩

/-- `c ? x : a`, where `a` is a value. -/
def guarded {α : Type} (c : Prop) [Decidable c] (x : Prog α) (a : α) : Prog α :=
  if c then x else pure a

def loop {ι : Type} (body : ι → Prog Unit) : List ι → Prog Unit
  | [] => pure ()
  | i :: rest => do
    body i
    loop body rest

section
variable {α β ι : Type} {P : Access → Prop} {m : Mem}

def Runs (P : Access → Prop) (x : Prog α) (m : Mem) (Q : α → Mem → Prop) : Prop :=
  ∃ r, x m = some r ∧ (∀ acc ∈ r.trace, P acc) ∧ Q r.value r.mem

theorem Runs.imp {P' : Access → Prop} {x : Prog α} {Q Q' : α → Mem → Prop} (h : Runs P x m Q)
    (hP : ∀ acc, P acc → P' acc) (hQ : ∀ a m', Q a m' → Q' a m') : Runs P' x m Q' := by
  obtain ⟨r, hr, htrace, hpost⟩ := h
  exact ⟨r, hr, fun acc hacc => hP acc (htrace acc hacc), hQ _ _ hpost⟩

theorem Runs.pure {a : α} {Q : α → Mem → Prop} (h : Q a m) : Runs P (Pure.pure a) m Q :=
  ⟨⟨a, m, []⟩, rfl, List.forall_mem_nil P, h⟩

theorem Runs.bind {x : Prog α} {f : α → Prog β} {Q : β → Mem → Prop}
    (h : Runs P x m fun a m' => Runs P (f a) m' Q) : Runs P (x >>= f) m Q := by
  obtain ⟨r, hr, htrace, s, hs, hrest, hpost⟩ := h
  refine ⟨⟨s.value, s.mem, r.trace ++ s.trace⟩, ?_, List.forall_mem_append.mpr ⟨htrace, hrest⟩,
    hpost⟩
  change (x m).bind _ = _
  rw [hr, Option.bind_some, hs, Option.map_some]

/-- What a program does first is within what it does. -/
theorem Runs.fst_of_bind {x : Prog α} {f : α → Prog β} {Q : β → Mem → Prop}
    (h : Runs P (x >>= f) m Q) : Runs P x m fun _ _ => True := by
  obtain ⟨r, hr, htrace, -⟩ := h
  obtain ⟨s, hs, hrest⟩ := Option.bind_eq_some_iff.mp hr
  obtain ⟨t, -, rfl⟩ := Option.map_eq_some_iff.mp hrest
  exact ⟨s, hs, fun acc hacc => htrace acc (List.mem_append_left _ hacc), trivial⟩

theorem Runs.ofOption {o : Option α} {Q : α → Mem → Prop} {a : α} (ho : o = some a) (h : Q a m) :
    Runs P (ofOption o) m Q :=
  ⟨⟨a, m, []⟩, by rw [AccessTrace.ofOption, ho, Option.map_some], List.forall_mem_nil P, h⟩

theorem Runs.fetch8 {a : Int} {Q : UInt8 → Mem → Prop} (hP : P ⟨.read, a, 1⟩)
    (h : Q (m a.toNat) m) : Runs P (fetch8 a) m Q :=
  ⟨_, rfl, List.forall_mem_singleton.mpr hP, h⟩

theorem Runs.put {a : Int} {bytes : List UInt8} {Q : Unit → Mem → Prop}
    (hP : P ⟨.write, a, bytes.length⟩) (h : Q () (store m a.toNat bytes)) :
    Runs P (put a bytes) m Q :=
  ⟨_, rfl, List.forall_mem_singleton.mpr hP, h⟩

theorem Runs.of_put {a : Int} {bytes : List UInt8} {Q : Unit → Mem → Prop}
    (h : Runs P (AccessTrace.put a bytes) m Q) : P ⟨.write, a, bytes.length⟩ := by
  obtain ⟨r, hr, htrace, -⟩ := h
  cases hr
  exact htrace _ List.mem_cons_self

theorem Runs.memcpy {dst src : Int} {n : Nat} {Q : Unit → Mem → Prop}
    (hread : P ⟨.read, src, n⟩) (hwrite : P ⟨.write, dst, n⟩)
    (h : Q () (store m dst.toNat (load m src.toNat n))) : Runs P (memcpy dst src n) m Q :=
  ⟨_, rfl, List.forall_mem_cons.mpr ⟨hread, List.forall_mem_singleton.mpr hwrite⟩, h⟩

theorem Runs.guarded {c : Prop} [Decidable c] {x : Prog α} {a : α} {Q : α → Mem → Prop}
    (hx : c → Runs P x m Q) (ha : ¬c → Q a m) : Runs P (guarded c x a) m Q := by
  unfold AccessTrace.guarded
  split
  · next hc => exact hx hc
  · next hc => exact Runs.pure (ha hc)

/-- `I rest m` describes the memory `m` with the iterations of `rest` still to come. -/
theorem Runs.loop {body : ι → Prog Unit} (I : List ι → Mem → Prop) {l : List ι} (hl : I l m)
    (hbody : ∀ i rest m, I (i :: rest) m → Runs P (body i) m fun _ m' => I rest m') :
    Runs P (loop body l) m fun _ m' => I [] m' := by
  induction l generalizing m with
  | nil => exact Runs.pure hl
  | cons i rest ih =>
    apply Runs.bind
    exact (hbody i rest m hl).imp (fun _ h => h) fun _ m' hrest => ih hrest

/-- A loop of which only the accesses matter. -/
theorem Runs.loop_within {body : ι → Prog Unit} {l : List ι}
    (hbody : ∀ i ∈ l, ∀ m, Runs P (body i) m fun _ _ => True) :
    Runs P (AccessTrace.loop body l) m fun _ _ => True := by
  refine (Runs.loop (fun rest _ => ∀ i ∈ rest, i ∈ l) (fun _ hi => hi) ?_).imp (fun _ h => h)
    fun _ _ _ => trivial
  intro i rest m' hrest
  apply (hbody i (hrest i List.mem_cons_self) m').imp (fun _ h => h)
  exact fun _ _ _ j hj => hrest j (List.mem_cons_of_mem i hj)

theorem Runs.loops_within {κ : Type} {body : ι → κ → Prog Unit} {l : List ι} {l' : List κ}
    (hbody : ∀ i ∈ l, ∀ j ∈ l', ∀ m, Runs P (body i j) m fun _ _ => True) :
    Runs P (AccessTrace.loop (fun i => AccessTrace.loop (body i) l') l) m fun _ _ => True :=
  Runs.loop_within fun i hi _ => Runs.loop_within fun j hj m => hbody i hi j hj m

/-- A loop whose iterations are steps on memory, as long as `I` holds. -/
theorem Runs.loop_foldl {body : ι → Prog Unit} {step : Mem → ι → Mem} {I : Mem → Prop}
    {l : List ι} (hm : I m)
    (hbody : ∀ i ∈ l, ∀ m, I m → Runs P (body i) m fun _ m' => m' = step m i ∧ I m') :
    Runs P (AccessTrace.loop body l) m fun _ m' => m' = l.foldl step m ∧ I m' := by
  refine (Runs.loop (fun rest m' => (∀ i ∈ rest, i ∈ l) ∧ rest.foldl step m' = l.foldl step m ∧
    I m') ⟨fun _ hi => hi, rfl, hm⟩ ?_).imp (fun _ h => h) fun _ _ hend => hend.2
  rintro i rest m' ⟨hrest, hfold, hI⟩
  apply (hbody i (hrest i List.mem_cons_self) m' hI).imp (fun _ h => h)
  rintro _ m'' ⟨rfl, hI'⟩
  exact ⟨fun j hj => hrest j (List.mem_cons_of_mem i hj), hfold, hI'⟩

theorem bind_trap {x : Prog α} {f : α → Prog β} (h : x m = none) : (x >>= f) m = none := by
  change (x m).bind _ = none
  rw [h, Option.bind_none]

theorem bind_trap_right {x : Prog α} {f : α → Prog β} {r : Outcome α} (hx : x m = some r)
    (h : f r.value r.mem = none) : (x >>= f) m = none := by
  change (x m).bind _ = none
  rw [hx, Option.bind_some, h, Option.map_none]

/-- A loop traps if its first iteration does. -/
theorem loop_trap {body : ι → Prog Unit} {i : ι} {rest : List ι} (h : body i m = none) :
    loop body (i :: rest) m = none := bind_trap h

end

end CsmWrap.AccessTrace
