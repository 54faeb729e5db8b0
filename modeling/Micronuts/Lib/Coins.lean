import Mathlib.Algebra.Ring.Nat
import Mathlib.Algebra.BigOperators.Group.List.Basic
import Mathlib.Data.List.Sort
import Mathlib.Data.Nat.BitIndices

/-!
# Coins

`cover f target acc l` is the shortest beginning of `l` whose weights bring `acc` up to a target. It meets the target
exactly when the list begins with coins that make it up (`cover_exact`).

`Binary n l`: the coins of `l` are different powers of two from the largest down, and make up `n`. They are the binary
digits of `n`: no other coins are (`Binary.unique`), and a power of two that divides `n` is none of the smaller ones
(`Binary.le_of_dvd`).
-/

namespace Coins

/-! ### Covering a target -/

section cover
variable {α : Type} {f : α → Nat} {target target' acc : Nat} {l : List α}

def cover (f : α → Nat) (target : Nat) : Nat → List α → List α
  | _, [] => []
  | acc, a :: l => if target ≤ acc then [] else a :: cover f target (acc + f a) l

theorem cover_of_le (h : target ≤ acc) : cover f target acc l = [] := by
  cases l with
  | nil => rfl
  | cons a l => rw [cover, if_pos h]

theorem cover_initial (f : α → Nat) (target acc : Nat) (l : List α) : cover f target acc l <+: l := by
  induction l generalizing acc with
  | nil => exact List.nil_prefix
  | cons a l ih =>
    rw [cover]
    split_ifs
    · exact List.nil_prefix
    · exact List.cons_prefix_cons.2 ⟨rfl, ih _⟩

/-- What is there is enough, or all of it is taken. -/
theorem le_sum_cover (h : target ≤ acc + (l.map f).sum) : target ≤ acc + ((cover f target acc l).map f).sum := by
  induction l generalizing acc with
  | nil => exact h
  | cons a l ih =>
    rw [cover]
    split_ifs with hacc
    · simpa using hacc
    · simp only [List.map_cons, List.sum_cons] at h ⊢
      have := @ih (acc + f a) (by omega)
      omega

/-- Coins that make up the target are taken, and no others after them. -/
theorem cover_exact {A B : List α} (hsum : acc + (A.map f).sum = target) (hpos : ∀ a ∈ A, 0 < f a) :
    cover f target acc (A ++ B) = A := by
  induction A generalizing acc with
  | nil => exact cover_of_le (by simpa using hsum.ge)
  | cons a A ih =>
    obtain ⟨ha, hpos⟩ := List.forall_mem_cons.1 hpos
    rw [List.map_cons, List.sum_cons] at hsum
    rw [List.cons_append, cover, if_neg (by omega), ih (by omega) hpos]

/-- What is taken does not depend on what comes after it. -/
theorem cover_of_cover {A B : List α} (h : cover f target acc l = A) (hle : target ≤ acc + (A.map f).sum) :
    cover f target acc (A ++ B) = A := by
  induction l generalizing acc A with
  | nil =>
    obtain rfl : [] = A := h
    exact cover_of_le (by simpa using hle)
  | cons a l ih =>
    rw [cover] at h
    split_ifs at h with hacc
    · subst h
      exact cover_of_le hacc
    · subst h
      rw [List.map_cons, List.sum_cons] at hle
      rw [List.cons_append, cover, if_neg hacc, ih rfl (by omega)]

theorem map_cover (f : α → Nat) (target acc : Nat) (l : List α) :
    (cover f target acc l).map f = cover id target acc (l.map f) := by
  induction l generalizing acc with
  | nil => rfl
  | cons a l ih =>
    rw [cover, List.map_cons, cover]
    split_ifs
    · rfl
    · rw [List.map_cons, ih]
      rfl

/-- The number of coins taken is the least that covers the target. -/
theorem length_cover_le_iff {m : Nat} (h : target ≤ acc + (l.map f).sum) :
    (cover f target acc l).length ≤ m ↔ target ≤ acc + ((l.take m).map f).sum := by
  induction l generalizing acc m with
  | nil => simpa [cover] using h
  | cons a l ih =>
    rw [cover]
    split_ifs with hacc
    · exact iff_of_true (Nat.zero_le _) (by omega)
    · rcases m with - | m
      · exact iff_of_false (by simp) (by simpa using hacc)
      · rw [List.map_cons, List.sum_cons] at h
        rw [List.length_cons, Nat.succ_le_succ_iff, ih (by omega), List.take_succ_cons, List.map_cons, List.sum_cons,
          Nat.add_assoc]

/-- From the largest down, a coin without weight is taken only where all of them are not enough. -/
theorem lt_of_mem_cover (hdesc : l.Pairwise fun a b => f b ≤ f a) {a : α} (ha : a ∈ cover f target acc l) (h0 : f a = 0) :
    acc + (l.map f).sum < target := by
  induction l generalizing acc with
  | nil => cases ha
  | cons b l ih =>
    obtain ⟨hb, hdesc⟩ := List.pairwise_cons.1 hdesc
    rw [cover] at ha
    split_ifs at ha with hacc
    · cases ha
    · rw [List.map_cons, List.sum_cons]
      rcases List.mem_cons.1 ha with rfl | ha
      · have hzero : (l.map f).sum = 0 := by
          refine List.sum_eq_zero fun n hn => ?_
          obtain ⟨c, hc, rfl⟩ := List.mem_map.1 hn
          have := hb c hc
          omega
        omega
      · have := ih hdesc ha
        omega

/-- More is needed for more. -/
theorem cover_mono (h : target ≤ target') : cover f target acc l <+: cover f target' acc l := by
  induction l generalizing acc with
  | nil => exact List.nil_prefix
  | cons a l ih =>
    rw [cover, cover]
    split_ifs
    · exact List.nil_prefix
    · exact List.nil_prefix
    · omega
    · exact List.cons_prefix_cons.2 ⟨rfl, ih⟩

/-- From the largest down, coins that none of the others exceeds come first. -/
theorem prefix_of_perm {l A B : List Nat} (hl : l.Pairwise (· ≥ ·)) (hA : A.Pairwise (· ≥ ·))
    (hAB : ∀ a ∈ A, ∀ b ∈ B, b ≤ a) (h : l.Perm (A ++ B)) : A <+: l := by
  have hB : (B.mergeSort fun a b => b ≤ a).Pairwise (· ≥ ·) := by
    have hsorted : (B.mergeSort fun a b => b ≤ a).Pairwise fun a b => decide (b ≤ a) = true :=
      List.pairwise_mergeSort (fun a b c hab hbc => by simp only [decide_eq_true_eq] at hab hbc ⊢; omega)
        (fun a b => by simp only [Bool.or_eq_true, decide_eq_true_eq]; omega) B
    simpa using hsorted
  have hperm : (B.mergeSort fun a b => b ≤ a).Perm B := List.mergeSort_perm ..
  refine ⟨B.mergeSort fun a b => b ≤ a, ?_⟩
  refine List.Perm.eq_of_pairwise (fun a b _ _ (h : b ≤ a) (h' : a ≤ b) => Nat.le_antisymm h' h) ?_ hl ?_
  · exact List.pairwise_append.2 ⟨hA, hB, fun a ha b hb => hAB a ha b (hperm.mem_iff.1 hb)⟩
  · exact (hperm.append_left _).trans h.symm

end cover

/-! ### Binary coins -/

structure Binary (n : Nat) (l : List Nat) : Prop where
  sum : l.sum = n
  powers : ∀ d ∈ l, ∃ k, d = 2 ^ k
  descending : l.Pairwise (· > ·)

namespace Binary
variable {n m d : Nat} {l : List Nat}

theorem nil : Binary 0 [] := ⟨rfl, by simp, .nil⟩

theorem cons {k : Nat} (h : Binary n l) (hlt : ∀ d ∈ l, d < 2 ^ k) : Binary (2 ^ k + n) (2 ^ k :: l) where
  sum := by rw [List.sum_cons, h.sum]
  powers := List.forall_mem_cons.2 ⟨⟨k, rfl⟩, h.powers⟩
  descending := List.pairwise_cons.2 ⟨hlt, h.descending⟩

theorem tail (h : Binary n (d :: l)) : Binary l.sum l where
  sum := rfl
  powers := fun d hd => h.powers d (List.mem_cons_of_mem _ hd)
  descending := h.descending.of_cons

theorem pos (h : Binary n l) (hd : d ∈ l) : 0 < d := by
  obtain ⟨k, rfl⟩ := h.powers d hd
  exact Nat.two_pow_pos k

/-- Different powers of two below another stay below it together. -/
theorem sum_lt (h : Binary n l) (hlt : ∀ d ∈ l, d < 2 ^ m) : n < 2 ^ m := by
  induction l generalizing n m with
  | nil =>
    rw [← h.sum]
    exact Nat.two_pow_pos m
  | cons d l ih =>
    obtain ⟨k, rfl⟩ := h.powers d (List.mem_cons_self ..)
    have hrest := ih h.tail (List.pairwise_cons.1 h.descending).1
    have hk : k < m := (Nat.pow_lt_pow_iff_right (by omega)).1 (hlt _ (List.mem_cons_self ..))
    have hpow : 2 ^ (k + 1) ≤ 2 ^ m := Nat.pow_le_pow_right (by omega) hk
    have hsum := h.sum
    rw [List.sum_cons] at hsum
    rw [Nat.pow_succ] at hpow
    omega

theorem le_of_dvd (h : Binary n l) (hm : 2 ^ m ∣ n) (hd : d ∈ l) : 2 ^ m ≤ d := by
  induction l generalizing n with
  | nil => cases hd
  | cons c l ih =>
    obtain ⟨k, rfl⟩ := h.powers c (List.mem_cons_self ..)
    have hsum := h.sum
    rw [List.sum_cons] at hsum
    have hlt := (List.pairwise_cons.1 h.descending).1
    by_cases hk : m ≤ k
    · have hrest : 2 ^ m ∣ l.sum := by
        rw [← hsum] at hm
        exact (Nat.dvd_add_right (pow_dvd_pow 2 hk)).1 hm
      rcases List.mem_cons.1 hd with rfl | hd
      · exact Nat.pow_le_pow_right (by omega) hk
      · exact ih h.tail hrest hd
    · have hpow : 2 ^ k < 2 ^ m := Nat.pow_lt_pow_right (by omega) (by omega)
      have hall : ∀ d ∈ 2 ^ k :: l, d < 2 ^ m :=
        List.forall_mem_cons.2 ⟨hpow, fun d hd => (hlt d hd).trans hpow⟩
      have hpos := Nat.two_pow_pos k
      have := Nat.le_of_dvd (by omega) hm
      have := h.sum_lt hall
      omega

/-- The coins are the bits that are set, the highest first. -/
theorem eq_bitIndices (h : Binary n l) : l = (n.bitIndices.map (2 ^ ·)).reverse := by
  have hpow : ∀ d ∈ l, 2 ^ d.log2 = d := by
    intro d hd
    obtain ⟨k, rfl⟩ := h.powers d hd
    rw [Nat.log2_two_pow]
  have hmap : (l.reverse.map Nat.log2).map (2 ^ ·) = l.reverse := by
    rw [List.map_map]
    exact (List.map_congr_left fun d hd => hpow d (List.mem_reverse.1 hd)).trans (List.map_id _)
  have hsorted : (l.reverse.map Nat.log2).SortedLT := by
    rw [List.sortedLT_iff_pairwise, List.pairwise_map, List.pairwise_reverse]
    refine h.descending.imp_of_mem fun ha hb hgt => ?_
    rw [← hpow _ ha, ← hpow _ hb] at hgt
    exact (Nat.pow_lt_pow_iff_right (by omega)).1 hgt
  have hindices := Nat.bitIndices_sum_map_two_pow hsorted
  rw [hmap, List.sum_reverse, h.sum] at hindices
  rw [hindices, hmap, List.reverse_reverse]

theorem unique {l' : List Nat} (h : Binary n l) (h' : Binary n l') : l = l' :=
  h.eq_bitIndices.trans h'.eq_bitIndices.symm

theorem length_eq (h : Binary n l) : l.length = n.bitIndices.length := by
  have hlength := congrArg List.length h.eq_bitIndices
  rwa [List.length_reverse, List.length_map] at hlength

end Binary

end Coins
