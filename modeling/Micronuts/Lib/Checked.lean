import Mathlib.Algebra.Ring.Nat
import Mathlib.Algebra.BigOperators.Group.List.Basic

/-!
# Checked 64-bit arithmetic

`checkedAdd`, `checkedSub`, `checkedMul`: `none` where the result does not fit in 64 bits (or would
be negative). Each has one lemma that turns `= some c` into an equation of naturals; `checkedSum` is
the left fold of `checkedAdd`.
-/

namespace UInt64

def checkedAdd (a b : UInt64) : Option UInt64 :=
  if a.toNat + b.toNat < 2 ^ 64 then some (a + b) else none

def checkedSub (a b : UInt64) : Option UInt64 :=
  if b ≤ a then some (a - b) else none

def checkedMul (a b : UInt64) : Option UInt64 :=
  if a.toNat * b.toNat < 2 ^ 64 then some (a * b) else none

/-- The sum of `f x` over the list, from `acc`; `none` on overflow. -/
def checkedSum {α : Type} (f : α → UInt64) : List α → UInt64 → Option UInt64
  | [], acc => some acc
  | x :: xs, acc => (checkedAdd acc (f x)).bind (checkedSum f xs)

variable {a b c : UInt64}

theorem checkedAdd_eq_some : checkedAdd a b = some c ↔ c.toNat = a.toNat + b.toNat := by
  unfold checkedAdd
  split
  · next h =>
    rw [Option.some.injEq, ← UInt64.toNat_inj, UInt64.toNat_add, Nat.mod_eq_of_lt h, eq_comm]
  · next h =>
    have := c.toNat_lt
    constructor
    · intro h'; cases h'
    · intro h'; omega

theorem checkedSub_eq_some : checkedSub a b = some c ↔ a.toNat = b.toNat + c.toNat := by
  unfold checkedSub
  split
  · next h =>
    have hle := UInt64.le_iff_toNat_le.1 h
    rw [Option.some.injEq, ← UInt64.toNat_inj, UInt64.toNat_sub_of_le _ _ h]
    omega
  · next h =>
    rw [UInt64.le_iff_toNat_le] at h
    constructor
    · intro h'; cases h'
    · intro h'; omega

theorem checkedMul_eq_some : checkedMul a b = some c ↔ c.toNat = a.toNat * b.toNat := by
  unfold checkedMul
  split
  · next h =>
    rw [Option.some.injEq, ← UInt64.toNat_inj, UInt64.toNat_mul, Nat.mod_eq_of_lt h, eq_comm]
  · next h =>
    have := c.toNat_lt
    constructor
    · intro h'; cases h'
    · intro h'; omega

theorem checkedSum_eq_some {α : Type} {f : α → UInt64} {l : List α} {acc : UInt64} :
    checkedSum f l acc = some c ↔ c.toNat = acc.toNat + (l.map fun x => (f x).toNat).sum := by
  induction l generalizing acc with
  | nil => simp only [checkedSum, Option.some.injEq, List.map_nil, List.sum_nil, Nat.add_zero,
      ← UInt64.toNat_inj, eq_comm]
  | cons x xs ih =>
    simp only [checkedSum, Option.bind_eq_some_iff, ih, checkedAdd_eq_some, List.map_cons, List.sum_cons]
    constructor
    · rintro ⟨d, hd, hc⟩; omega
    · intro hc
      have := c.toNat_lt
      have hd : (UInt64.ofNat (acc.toNat + (f x).toNat)).toNat = acc.toNat + (f x).toNat :=
        UInt64.toNat_ofNat_of_lt' (by simp only [UInt64.size]; omega)
      exact ⟨_, hd, by omega⟩

end UInt64
