import Mathlib.Data.List.Chain
import Mathlib.Data.Nat.Find
import Mathlib.Data.Set.Insert
import Mathlib.Tactic.Tauto

/-!
# Scanning with a window

A scan that has seen a set up to `c` looks at the next `g` numbers. It misses nothing when every element lies in the
first window or at most `g` beyond a smaller one (`GapsAtMost`): as long as elements are left, the window holds one
(`GapsAtMost.exists_next`).
-/

def GapsAtMost (g : Nat) (S : Set Nat) : Prop := ∀ i ∈ S, i < g ∨ ∃ j ∈ S, j < i ∧ i ≤ j + g

namespace GapsAtMost
variable {g c i : Nat} {S : Set Nat}

theorem empty : GapsAtMost g ∅ := fun i hi => by simp at hi

/-- The first element from `c` on is in the window from `c`. -/
theorem exists_next (h : GapsAtMost g S) (hi : i ∈ S) (hc : c ≤ i) : ∃ j ∈ S, c ≤ j ∧ j < c + g := by
  classical
  have hex : ∃ j, j ∈ S ∧ c ≤ j := ⟨i, hi, hc⟩
  obtain ⟨hmem, hle⟩ := Nat.find_spec hex
  refine ⟨Nat.find hex, hmem, hle, ?_⟩
  rcases h _ hmem with hfirst | ⟨j, hj, hlt, hgap⟩
  · omega
  · have hbelow : j < c := by
      by_contra hge
      exact Nat.find_min hex hlt ⟨hj, by omega⟩
    omega

/-- A new element beyond none by more than `g` is beyond a smaller one by no more. -/
theorem insert (h : GapsAtMost g S) (hi : i < g ∨ ∃ j ∈ S, i ≤ j + g) : GapsAtMost g (Insert.insert i S) := by
  have hnew : i ∈ S ∨ i < g ∨ ∃ j ∈ S, j < i ∧ i ≤ j + g := by
    rcases hi with hi | ⟨j, hj, hle⟩
    · exact .inr (.inl hi)
    · induction j using Nat.strong_induction_on with
      | _ j ih =>
        rcases lt_trichotomy j i with hlt | rfl | hgt
        · exact .inr (.inr ⟨j, hj, hlt, hle⟩)
        · exact .inl hj
        · rcases h j hj with hfirst | ⟨k, hk, hkj, hgap⟩
          · exact .inr (.inl (by omega))
          · exact ih k hkj hk (by omega)
  intro k hk
  have hold : k ∈ S → k < g ∨ ∃ j ∈ Insert.insert i S, j < k ∧ k ≤ j + g := by
    intro hk
    rcases h k hk with hfirst | ⟨j, hj, hlt, hgap⟩
    · exact .inl hfirst
    · exact .inr ⟨j, .inr hj, hlt, hgap⟩
  rcases hk with rfl | hk
  · rcases hnew with hmem | hfirst | ⟨j, hj, hlt, hgap⟩
    · exact hold hmem
    · exact .inl hfirst
    · exact .inr ⟨j, .inr hj, hlt, hgap⟩
  · exact hold hk

/-- A list in which no element goes beyond the one before it by more than `g`, as long as its head does not. -/
theorem insertList {l : List Nat} (h : GapsAtMost g S) (hhead : ∀ i, l.head? = some i → i < g ∨ ∃ j ∈ S, i ≤ j + g)
    (hl : l.IsChain fun a b => b < g ∨ b ≤ a + g) : GapsAtMost g (S ∪ {i | i ∈ l}) := by
  induction l generalizing S with
  | nil => simpa using h
  | cons a l ih =>
    have hstep := h.insert (hhead a rfl)
    have hset : S ∪ {i | i ∈ a :: l} = Insert.insert a S ∪ {i | i ∈ l} := by
      ext i
      simp only [Set.mem_union, Set.mem_ofPred_eq, List.mem_cons, Set.mem_insert_iff]
      tauto
    rw [hset]
    refine ih hstep ?_ hl.tail
    rintro b hb
    cases l with
    | nil => cases hb
    | cons b' l =>
      obtain rfl : b' = b := Option.some.inj hb
      rcases (List.isChain_cons_cons.1 hl).1 with hfirst | hgap
      · exact .inl hfirst
      · exact .inr ⟨a, .inl rfl, hgap⟩

end GapsAtMost
