import CsmWrap.Memory

/-!
# Variables in the way of stores

A variable is some bytes at an address. What stores leave at each address is given as a
partial function; `patch` is the value that a variable has after them.
-/

namespace CsmWrap.Overwrite
open Memory

/-- The stores reach a variable of `size` bytes. -/
def Hit (stored : Int → Option UInt8) (addr : Int) (size : Nat) : Prop :=
  (List.range size).any fun i => (stored (addr + i)).isSome

instance (stored : Int → Option UInt8) (addr : Int) (size : Nat) :
    Decidable (Hit stored addr size) := inferInstanceAs (Decidable (_ = true))

/-- The four bytes from an address on, which held `w`. -/
def word (stored : Int → Option UInt8) (addr : Int) (w : UInt32) : UInt32 :=
  UInt32.ofNat (ofLeBytes ((leBytes 4 w.toNat).mapIdx fun i b => (stored (addr + i)).getD b))

/-- A variable of up to four bytes, which held `a`. -/
def patch {α : Type} (stored : Int → Option UInt8) (addr : Int) (size : Nat)
    (encode : α → UInt32) (decode : UInt32 → α) (a : α) : α :=
  if Hit stored addr size then decode (word stored addr (encode a)) else a

theorem patch_of_untouched {α : Type} {stored : Int → Option UInt8} {addr : Int} {size : Nat}
    (h : ∀ i < size, stored (addr + (i : Nat)) = none) (encode : α → UInt32)
    (decode : UInt32 → α) (a : α) : patch stored addr size encode decode a = a := by
  apply if_neg
  unfold Hit
  rw [List.any_eq_true]
  rintro ⟨i, hi, hsome⟩
  rw [h i (List.mem_range.mp hi)] at hsome
  cases hsome

/-- A variable of one byte holds what was stored there. -/
theorem patch_byte {stored : Int → Option UInt8} {addr : Int} {b : UInt8}
    (h : stored addr = some b) (v : UInt8) :
    patch stored addr 1 UInt8.toUInt32 UInt32.toUInt8 v = b := by
  have hhit : Hit stored addr 1 := by
    simp [Hit, h]
  rw [patch, if_pos hhit, word, leBytes, List.mapIdx_cons, ofLeBytes, Nat.cast_zero, add_zero, h]
  apply UInt8.toNat_inj.mp
  rw [UInt32.toNat_toUInt8, UInt32.toNat_ofNat']
  have := b.toNat_lt
  simp only [Option.getD_some]
  omega

end CsmWrap.Overwrite
