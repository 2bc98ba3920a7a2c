import CsmWrap.Memory

/-!
# Computations that keep track of what they read

`Traced α` is a value together with the byte ranges that were read to compute it,
each as an offset and a length. `Within n` says that all of them end at or before
`n`; its rules follow the shape of the program.
-/

namespace CsmWrap.ReadTrace
open Memory

structure Traced (α : Type) where
  reads : List (Nat × Nat)
  value : α

instance : Monad Traced where
  pure a := ⟨[], a⟩
  bind x f := ⟨x.reads ++ (f x.value).reads, (f x.value).value⟩

def fetch8 (m : Mem) (a : Nat) : Traced UInt8 := ⟨[(a, 1)], m a⟩

def fetch16 (m : Mem) (a : Nat) : Traced UInt16 := ⟨[(a, 2)], read16 m a⟩

def fetch32 (m : Mem) (a : Nat) : Traced UInt32 := ⟨[(a, 4)], read32 m a⟩

namespace Traced
variable {α β : Type}

def Within (x : Traced α) (n : Nat) : Prop := ∀ r ∈ x.reads, r.1 + r.2 ≤ n

@[simp] theorem value_pure (a : α) : (pure a : Traced α).value = a := rfl

theorem value_bind (x : Traced α) (f : α → Traced β) : (x >>= f).value = (f x.value).value := rfl

@[simp] theorem value_map (f : α → β) (x : Traced α) : (f <$> x).value = f x.value := rfl

@[simp] theorem value_ite (c : Prop) [Decidable c] (x y : Traced α) :
    (if c then x else y).value = if c then x.value else y.value := apply_ite _ _ _ _

@[simp] theorem value_fetch8 (m : Mem) (a : Nat) (f : UInt8 → Traced α) :
    (fetch8 m a >>= f).value = (f (m a)).value := rfl

@[simp] theorem value_fetch16 (m : Mem) (a : Nat) (f : UInt16 → Traced α) :
    (fetch16 m a >>= f).value = (f (read16 m a)).value := rfl

@[simp] theorem value_fetch32 (m : Mem) (a : Nat) (f : UInt32 → Traced α) :
    (fetch32 m a >>= f).value = (f (read32 m a)).value := rfl

@[simp] theorem within_pure (a : α) (n : Nat) : (pure a : Traced α).Within n := by
  intro r hr
  cases hr

theorem within_bind (x : Traced α) (f : α → Traced β) (n : Nat) :
    (x >>= f).Within n ↔ x.Within n ∧ (f x.value).Within n := List.forall_mem_append

@[simp] theorem within_map (f : α → β) (x : Traced α) (n : Nat) :
    (f <$> x).Within n ↔ x.Within n :=
  (within_bind x (pure ∘ f) n).trans (and_iff_left (within_pure _ n))

@[simp] theorem within_ite (c : Prop) [Decidable c] (x y : Traced α) (n : Nat) :
    (if c then x else y).Within n ↔ if c then x.Within n else y.Within n := by
  split <;> rfl

@[simp] theorem within_fetch8 (m : Mem) (a : Nat) (f : UInt8 → Traced α) (n : Nat) :
    (fetch8 m a >>= f).Within n ↔ a + 1 ≤ n ∧ (f (m a)).Within n :=
  (within_bind _ f n).trans (and_congr_left' List.forall_mem_singleton)

@[simp] theorem within_fetch16 (m : Mem) (a : Nat) (f : UInt16 → Traced α) (n : Nat) :
    (fetch16 m a >>= f).Within n ↔ a + 2 ≤ n ∧ (f (read16 m a)).Within n :=
  (within_bind _ f n).trans (and_congr_left' List.forall_mem_singleton)

@[simp] theorem within_fetch32 (m : Mem) (a : Nat) (f : UInt32 → Traced α) (n : Nat) :
    (fetch32 m a >>= f).Within n ↔ a + 4 ≤ n ∧ (f (read32 m a)).Within n :=
  (within_bind _ f n).trans (and_congr_left' List.forall_mem_singleton)

end Traced

end CsmWrap.ReadTrace
