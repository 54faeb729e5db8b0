import Mathlib.Data.List.Perm.Basic
import Mathlib.Data.List.Induction

/-!
# Taking entries out of a vector by their index

`swapRemove l i` puts the last entry in the place of the one at `i`. The entries below `i` stay where they are, so indices
that are taken from the highest down are all still good (`removeAll_perm`), and what is taken out and what is left are
together the old entries.
-/

namespace SwapRemove
open scoped List
variable {α : Type}

/-- `Vec::swap_remove`; `none` for an index out of bounds. -/
def swapRemove (l : List α) (i : Nat) : Option (List α) :=
  if i < l.length then l.getLast?.map fun last => (l.set i last).dropLast else none

/-- What stands at the indices. -/
def entriesAt (l : List α) (is : List Nat) : List α := is.filterMap (l[·]?)

def removeAll (l : List α) (is : List Nat) : Option (List α) := is.foldlM swapRemove l

theorem swapRemove_spec {l : List α} {i : Nat} (h : i < l.length) : ∃ l', swapRemove l i = some l' ∧
    (l[i] :: l').Perm l ∧ ∀ j < i, l'[j]? = l[j]? := by
  induction l using List.reverseRecOn with
  | nil => cases h
  | append_singleton front last _ =>
    have hset : swapRemove (front ++ [last]) i = some ((front ++ [last]).set i last).dropLast := by
      rw [swapRemove, if_pos h, List.getLast?_concat]
      rfl
    refine ⟨_, hset, ?_⟩
    by_cases hi : i < front.length
    · rw [List.set_append_left _ _ hi, List.dropLast_concat, List.getElem_append_left hi]
      refine ⟨?_, fun j hj => ?_⟩
      · calc front[i] :: front.set i last
          _ ~ front[i] :: last :: front.eraseIdx i := (List.set_perm_cons_eraseIdx hi last).cons _
          _ ~ last :: front[i] :: front.eraseIdx i := .swap _ _ _
          _ ~ last :: front := (List.getElem_cons_eraseIdx_perm hi).cons _
          _ ~ front ++ [last] := (List.perm_append_singleton last front).symm
      · rw [List.getElem?_set_ne (by omega), List.getElem?_append_left (by omega)]
    · obtain rfl : i = front.length := by
        rw [List.length_append, List.length_singleton] at h
        omega
      refine ⟨?_, fun j hj => ?_⟩
      · simpa using (List.perm_append_singleton last front).symm
      · simp [List.getElem?_append_left hj]

/-- Indices that go down are all in bounds when their turn comes, and nothing but their entries is taken. -/
theorem removeAll_perm {l : List α} {is : List Nat} (hdown : is.Pairwise (· > ·)) (hbound : ∀ i ∈ is, i < l.length) :
    ∃ l', removeAll l is = some l' ∧ (entriesAt l is ++ l').Perm l := by
  induction is generalizing l with
  | nil => exact ⟨l, rfl, .refl _⟩
  | cons i is ih =>
    rw [List.pairwise_cons] at hdown
    rw [List.forall_mem_cons] at hbound
    obtain ⟨l₁, hremove, hperm, hbelow⟩ := swapRemove_spec hbound.1
    have hlen := hperm.length_eq
    rw [List.length_cons] at hlen
    obtain ⟨l', hrest, hall⟩ := ih (l := l₁) hdown.2 fun j hj => by
      have := hdown.1 j hj
      omega
    have hsame : entriesAt l₁ is = entriesAt l is := List.filterMap_congr fun j hj => hbelow j (hdown.1 j hj)
    refine ⟨l', ?_, ?_⟩
    · rw [removeAll, List.foldlM_cons, hremove]
      exact hrest
    · rw [hsame] at hall
      have hhead : entriesAt l (i :: is) = l[i] :: entriesAt l is := by
        rw [entriesAt, List.filterMap_cons, List.getElem?_eq_getElem hbound.1]
        rfl
      rw [hhead]
      exact (hall.cons _).trans hperm

end SwapRemove
