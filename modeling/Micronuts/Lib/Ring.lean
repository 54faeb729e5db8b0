import Mathlib.Data.List.Basic
import Mathlib.Order.Nat

/-!
# Bounded rings

A ring keeps the newest `cap` of what was pushed. `Behind ring n x`: with at most `n` entries behind it, `x` is still
there. A push adds its own length to the `n`, and as long as the sum is below the capacity `x` stays (`Behind.push`).
-/

namespace Ring
variable {α : Type} {cap n m : Nat} {ring new : List α} {x : α}

/-- The new entries go to the end, and the newest `cap` are kept. -/
def push (cap : Nat) (ring new : List α) : List α := ((ring ++ new).reverse.take cap).reverse

def Behind (ring : List α) (n : Nat) (x : α) : Prop := ∃ before after, ring = before ++ x :: after ∧ after.length ≤ n

/-- What is too much leaves from the front. -/
theorem push_eq_drop (cap : Nat) (ring new : List α) :
    push cap ring new = (ring ++ new).drop ((ring ++ new).length - cap) := by
  rw [push, List.take_reverse, List.reverse_reverse]

theorem push_length_le (cap : Nat) (ring new : List α) : (push cap ring new).length ≤ cap := by
  rw [push, List.length_reverse]
  exact List.length_take_le _ _

/-- The newest entry is in the ring. -/
theorem getLast_mem_push (hcap : 0 < cap) (hne : new ≠ []) : new.getLast hne ∈ push cap ring new := by
  have hpos : 0 < new.length := List.length_pos_iff.2 hne
  have hlast : (ring ++ new).getLast (by simp [hne]) = new.getLast hne := List.getLast_append_of_ne_nil _ hne
  have hdrop : push cap ring new ≠ [] := by
    rw [← List.length_pos_iff]
    simp only [push_eq_drop, List.length_drop, List.length_append]
    omega
  rw [push_eq_drop] at hdrop ⊢
  rw [← hlast, ← List.getLast_drop hdrop]
  exact List.getLast_mem hdrop

/-- A push of entries that were not in the ring changes it. -/
theorem push_ne (hcap : 0 < cap) (hne : new ≠ []) (hfresh : ∀ a ∈ new, a ∉ ring) : push cap ring new ≠ ring := by
  intro heq
  have hmem : new.getLast hne ∈ push cap ring new := getLast_mem_push hcap hne
  rw [heq] at hmem
  exact hfresh _ (List.getLast_mem hne) hmem

namespace Behind

theorem mem (h : Behind ring n x) : x ∈ ring := by
  obtain ⟨before, after, rfl, -⟩ := h
  simp

theorem mono (h : Behind ring n x) (hle : n ≤ m) : Behind ring m x := by
  obtain ⟨before, after, heq, hn⟩ := h
  exact ⟨before, after, heq, hn.trans hle⟩

/-- What is dropped from the front takes an entry away only when all behind it are too many. -/
theorem drop (h : Behind ring n x) (hn : n + 1 ≤ ring.length - m) : Behind (ring.drop m) n x := by
  obtain ⟨before, after, rfl, hlen⟩ := h
  simp only [List.length_append, List.length_cons] at hn
  refine ⟨before.drop m, after, ?_, hlen⟩
  rw [List.drop_append_of_le_length (by omega)]

theorem push (h : Behind ring n x) (hn : n + new.length < cap) : Behind (push cap ring new) (n + new.length) x := by
  obtain ⟨before, after, rfl, hlen⟩ := h
  have hall : Behind (before ++ x :: after ++ new) (after.length + new.length) x :=
    ⟨before, after ++ new, by simp, by simp⟩
  rw [push_eq_drop]
  refine (hall.drop ?_).mono (by omega)
  simp only [List.length_append, List.length_cons]
  omega

/-- A new entry has behind it what was pushed after it. -/
theorem pushed {before after : List α} (hn : after.length < cap) (hnew : new = before ++ x :: after) :
    Behind (Ring.push cap ring new) after.length x := by
  have hall : Behind (ring ++ new) after.length x := ⟨ring ++ before, after, by simp [hnew], le_refl _⟩
  rw [push_eq_drop]
  refine hall.drop ?_
  simp only [hnew, List.length_append, List.length_cons]
  omega

end Behind

end Ring
