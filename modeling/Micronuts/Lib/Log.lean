import Mathlib.Data.List.Basic

/-!
# Logs

A log is a list that grows at its head. `Grows P l₀ l`: after the older log `l₀` only entries in `P` were added.
A log that was cut off somewhere after `l₀` has grown in the same way (`Grows.cut`).
-/

inductive Grows {α : Type} (P : α → Prop) (l₀ : List α) : List α → Prop
  | refl : Grows P l₀ l₀
  | cons {l : List α} {a : α} (before : Grows P l₀ l) (holds : P a) : Grows P l₀ (a :: l)

namespace Grows
variable {α : Type} {P : α → Prop} {l₀ l l' : List α}

theorem suffix (h : Grows P l₀ l) : l₀ <:+ l := by
  induction h with
  | refl => exact List.suffix_refl _
  | cons _ _ ih => exact ih.trans (List.suffix_cons _ _)

theorem mono {Q : α → Prop} (h : Grows P l₀ l) (hPQ : ∀ a, P a → Q a) : Grows Q l₀ l := by
  induction h with
  | refl => exact .refl
  | cons _ holds ih => exact .cons ih (hPQ _ holds)

theorem trans (h : Grows P l₀ l) (h' : Grows P l l') : Grows P l₀ l' := by
  induction h' with
  | refl => exact h
  | cons _ holds ih => exact .cons ih holds

theorem cut (h : Grows P l₀ l) (hlow : l₀ <:+ l') (hcut : l' <:+ l) : Grows P l₀ l' := by
  induction h with
  | refl =>
    rw [hcut.eq_of_length (Nat.le_antisymm hcut.length_le hlow.length_le)]
    exact .refl
  | cons before holds ih =>
    rcases List.suffix_cons_iff.1 hcut with rfl | hcut
    · exact .cons before holds
    · exact ih hcut

/-- Every new entry is in `P`. -/
theorem new {newer : List α} (h : Grows P l₀ (newer ++ l₀)) : ∀ a ∈ newer, P a := by
  generalize hl : newer ++ l₀ = l at h
  induction h generalizing newer with
  | refl =>
    rw [List.append_left_eq_self.1 hl]
    simp
  | @cons l a before holds ih =>
    cases newer with
    | nil =>
      obtain rfl : l₀ = a :: l := hl
      have := before.suffix.length_le
      rw [List.length_cons] at this
      omega
    | cons b newer =>
      rw [List.cons_append, List.cons.injEq] at hl
      obtain ⟨rfl, hl⟩ := hl
      exact List.forall_mem_cons.2 ⟨holds, ih hl⟩

end Grows
