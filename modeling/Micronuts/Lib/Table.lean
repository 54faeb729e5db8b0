import Mathlib.Data.Finmap
import Mathlib.Algebra.BigOperators.Group.Finset.Basic
import Mathlib.Algebra.Order.BigOperators.Group.Finset

/-!
# Sums and maps over finite tables

A table is a `Finmap` with values in one type, so equal tables have the same rows in no particular
order. `rowSum f t` adds up `f` over the rows; the two `insert` lemmas say what a new row and an
overwritten row do to it. `insertAll` puts in a list of rows; with distinct keys the table holds all of them.
`mapRows` and `filterMapRows` act on the values.
-/

namespace Finmap
variable {α β γ : Type} [DecidableEq α] {t : Finmap fun _ : α => β} {k k' : α} {v old : β} {f g : β → Nat}

theorem lookup_insert_eq (t : Finmap fun _ : α => β) (k k' : α) (v : β) :
    (t.insert k v).lookup k' = if k' = k then some v else t.lookup k' := by
  split
  · next h => rw [h, lookup_insert]
  · next h => rw [lookup_insert_of_ne _ h]

theorem keys_insert (t : Finmap fun _ : α => β) (k : α) (v : β) : (t.insert k v).keys = Insert.insert k t.keys := by
  ext a; simp [mem_keys, mem_insert]

/-- What `f` gives for the row at `k`; `0` when there is none. -/
def rowAt (f : β → Nat) (t : Finmap fun _ : α => β) (k : α) : Nat := (t.lookup k).elim 0 f

/-- The sum of `f` over the rows. -/
def rowSum (f : β → Nat) (t : Finmap fun _ : α => β) : Nat := ∑ k ∈ t.keys, rowAt f t k

theorem rowAt_of_lookup (h : t.lookup k = some v) : rowAt f t k = f v := by simp [rowAt, h]

theorem rowAt_insert (f : β → Nat) (t : Finmap fun _ : α => β) (k k' : α) (v : β) :
    rowAt f (t.insert k v) k' = if k' = k then f v else rowAt f t k' := by
  unfold rowAt; rw [lookup_insert_eq]; split <;> rfl

theorem rowAt_le (h : ∀ k v, t.lookup k = some v → f v ≤ g v) (k : α) : rowAt f t k ≤ rowAt g t k := by
  unfold rowAt
  cases hk : t.lookup k with
  | none => exact Nat.le_refl _
  | some v => exact h k v hk

@[simp] theorem rowSum_empty (f : β → Nat) : rowSum f (∅ : Finmap fun _ : α => β) = 0 := by
  simp [rowSum]

theorem rowAt_of_not_mem {t : Finmap fun _ : α => β} {k : α} (h : k ∉ t.keys) : rowAt f t k = 0 := by
  rw [mem_keys, ← lookup_eq_none] at h
  rw [rowAt, h]; rfl

/-- A table that has less at every key has less in all, whatever the keys. -/
theorem rowSum_mono {t' : Finmap fun _ : α => γ} {g : γ → Nat} (h : ∀ k, rowAt f t k ≤ rowAt g t' k) :
    rowSum f t ≤ rowSum g t' := by
  have hsub : ∑ k ∈ t'.keys ∪ t.keys, rowAt g t' k = rowSum g t' :=
    (Finset.sum_subset Finset.subset_union_left fun k _ hk => rowAt_of_not_mem hk).symm
  rw [← hsub]
  exact (Finset.sum_le_sum fun k _ => h k).trans (Finset.sum_le_sum_of_subset Finset.subset_union_right)

theorem rowSum_congr {t' : Finmap fun _ : α => β} (h : ∀ k, rowAt f t k = rowAt f t' k) : rowSum f t = rowSum f t' :=
  Nat.le_antisymm (rowSum_mono fun k => (h k).le) (rowSum_mono fun k => (h k).ge)

theorem rowSum_insert_new (h : t.lookup k = none) : rowSum f (t.insert k v) = f v + rowSum f t := by
  have hk : k ∉ t.keys := by rwa [mem_keys, ← lookup_eq_none]
  unfold rowSum
  rw [keys_insert, Finset.sum_insert hk, rowAt_insert, if_pos rfl]
  congr 1
  refine Finset.sum_congr rfl fun a ha => ?_
  rw [rowAt_insert, if_neg (by rintro rfl; exact hk ha)]

theorem rowSum_insert_old (h : t.lookup k = some old) : rowSum f (t.insert k v) + f old = rowSum f t + f v := by
  have hk : k ∈ t.keys := by rw [mem_keys]; exact mem_of_lookup_eq_some h
  have hrest : ∑ a ∈ t.keys.erase k, rowAt f (t.insert k v) a = ∑ a ∈ t.keys.erase k, rowAt f t a := by
    refine Finset.sum_congr rfl fun a ha => ?_
    rw [rowAt_insert, if_neg (Finset.ne_of_mem_erase ha)]
  have h₁ := Finset.add_sum_erase t.keys (rowAt f (t.insert k v)) hk
  have h₂ := Finset.add_sum_erase t.keys (rowAt f t) hk
  rw [rowAt_insert, if_pos rfl] at h₁
  rw [rowAt_of_lookup h] at h₂
  unfold rowSum
  rw [keys_insert, Finset.insert_eq_self.2 hk]
  omega

/-- The rows outside `s` are `0`, so the sum is the one over `s`. -/
theorem rowSum_le_sum (s : Finset α) (h : ∀ k, k ∉ s → rowAt f t k = 0) : rowSum f t ≤ ∑ k ∈ s, rowAt f t k := by
  have hsub : ∑ k ∈ t.keys, rowAt f t k = ∑ k ∈ t.keys.filter (· ∈ s), rowAt f t k := by
    rw [Finset.sum_filter]
    refine Finset.sum_congr rfl fun k _ => ?_
    by_cases hk : k ∈ s
    · rw [if_pos hk]
    · rw [if_neg hk, h k hk]
  unfold rowSum
  rw [hsub]
  exact Finset.sum_le_sum_of_subset fun k hk => (Finset.mem_filter.1 hk).2

/-- Two tables that agree outside `s` differ by what they have there. -/
theorem rowSum_add_sum {t' : Finmap fun _ : α => β} (s : Finset α) (h : ∀ k, k ∉ s → rowAt f t k = rowAt f t' k) :
    rowSum f t + ∑ k ∈ s, rowAt f t' k = rowSum f t' + ∑ k ∈ s, rowAt f t k := by
  have hsplit : ∀ t₁ : Finmap fun _ : α => β, t₁.keys ⊆ t.keys ∪ t'.keys →
      rowSum f t₁ + ∑ k ∈ s \ (t.keys ∪ t'.keys), rowAt f t₁ k =
        ∑ k ∈ (t.keys ∪ t'.keys) \ s, rowAt f t₁ k + ∑ k ∈ s, rowAt f t₁ k := by
    intro t₁ hsub
    have hall : rowSum f t₁ = ∑ k ∈ t.keys ∪ t'.keys, rowAt f t₁ k :=
      Finset.sum_subset hsub fun k _ hk => rowAt_of_not_mem hk
    rw [hall, ← Finset.sum_union Finset.disjoint_sdiff, ← Finset.sum_union Finset.sdiff_disjoint]
    congr 1
    rw [Finset.union_sdiff_self_eq_union, Finset.sdiff_union_self_eq_union]
  have hzero : ∀ t₁ : Finmap fun _ : α => β, t₁.keys ⊆ t.keys ∪ t'.keys →
      ∑ k ∈ s \ (t.keys ∪ t'.keys), rowAt f t₁ k = 0 :=
    fun t₁ hsub => Finset.sum_eq_zero fun k hk => rowAt_of_not_mem fun hk' => (Finset.mem_sdiff.1 hk).2 (hsub hk')
  have hout : ∑ k ∈ (t.keys ∪ t'.keys) \ s, rowAt f t k = ∑ k ∈ (t.keys ∪ t'.keys) \ s, rowAt f t' k :=
    Finset.sum_congr rfl fun k hk => h k (Finset.mem_sdiff.1 hk).2
  have h₁ := hsplit t Finset.subset_union_left
  have h₂ := hsplit t' Finset.subset_union_right
  rw [hzero t Finset.subset_union_left] at h₁
  rw [hzero t' Finset.subset_union_right] at h₂
  omega

/-! ### Rows that are put in one after another -/

def insertAll (t : Finmap fun _ : α => β) (rows : List (α × β)) : Finmap fun _ : α => β :=
  rows.foldl (fun t row => t.insert row.1 row.2) t

theorem insertAll_append (t : Finmap fun _ : α => β) (rows rows' : List (α × β)) :
    t.insertAll (rows ++ rows') = (t.insertAll rows).insertAll rows' := List.foldl_append

theorem lookup_insertAll_of_not_mem {rows : List (α × β)} (h : k ∉ rows.map Prod.fst) :
    (t.insertAll rows).lookup k = t.lookup k := by
  induction rows generalizing t with
  | nil => rfl
  | cons row rows ih =>
    rw [List.map_cons, List.mem_cons, not_or] at h
    show ((t.insert row.1 row.2).insertAll rows).lookup k = _
    rw [ih h.2, lookup_insert_of_ne _ h.1]

theorem lookup_insertAll_of_mem {rows : List (α × β)} (hnd : (rows.map Prod.fst).Nodup) (h : (k, v) ∈ rows) :
    (t.insertAll rows).lookup k = some v := by
  induction rows generalizing t with
  | nil => simp at h
  | cons row rows ih =>
    rw [List.map_cons, List.nodup_cons] at hnd
    show ((t.insert row.1 row.2).insertAll rows).lookup k = _
    rcases List.mem_cons.1 h with rfl | h
    · rw [lookup_insertAll_of_not_mem hnd.1, lookup_insert]
    · exact ih hnd.2 h

/-- A key that was put in finds one of its rows. -/
theorem exists_lookup_insertAll {rows : List (α × β)} (h : (k, v) ∈ rows) :
    ∃ v', (k, v') ∈ rows ∧ (t.insertAll rows).lookup k = some v' := by
  induction rows generalizing t v with
  | nil => simp at h
  | cons row rows ih =>
    show ∃ v', (k, v') ∈ row :: rows ∧ ((t.insert row.1 row.2).insertAll rows).lookup k = some v'
    by_cases hk : k ∈ rows.map Prod.fst
    · obtain ⟨⟨_, v'⟩, hrow, rfl⟩ := List.mem_map.1 hk
      obtain ⟨w, hw, hlookup⟩ := @ih (t.insert row.1 row.2) v' hrow
      exact ⟨w, List.mem_cons_of_mem _ hw, hlookup⟩
    · rcases List.mem_cons.1 h with rfl | h
      · exact ⟨v, List.mem_cons_self .., by rw [lookup_insertAll_of_not_mem hk, lookup_insert]⟩
      · exact absurd (List.mem_map_of_mem h) hk

/-- What is in the table was put in now or was there before. -/
theorem mem_of_lookup_insertAll {rows : List (α × β)} (h : (t.insertAll rows).lookup k = some v) :
    (k, v) ∈ rows ∨ t.lookup k = some v := by
  induction rows generalizing t with
  | nil => exact .inr h
  | cons row rows ih =>
    rcases ih h with h | h
    · exact .inl (List.mem_cons_of_mem _ h)
    · rw [lookup_insert_eq] at h
      split at h
      · next hk => cases h; exact .inl (by rw [hk]; exact List.mem_cons_self ..)
      · exact .inr h

/-! ### Maps over the values -/

omit [DecidableEq α] in
theorem keys_filterMap (f : β → Option γ) (m : Multiset (Σ _ : α, β)) :
    Multiset.keys (m.filterMap fun e => (f e.2).map (Sigma.mk (β := fun _ => γ) e.1)) =
      (m.filter fun e => (f e.2).isSome).map Sigma.fst := by
  induction m using Multiset.induction with
  | empty => rfl
  | cons e m ih =>
    cases he : f e.2 with
    | none =>
      rw [Multiset.filterMap_cons_none _ _ (by simp [he]), Multiset.filter_cons_of_neg _ (by simp [he]), ih]
    | some c =>
      rw [Multiset.filterMap_cons_some _ _ _ (by rw [he]; rfl), Multiset.filter_cons_of_pos _ (by simp [he]),
        Multiset.keys_cons, ih, Multiset.map_cons]

/-- The rows on which `f` is defined, with their values mapped. -/
def filterMapRows (f : β → Option γ) (t : Finmap fun _ : α => β) : Finmap fun _ : α => γ :=
  ⟨t.entries.filterMap fun e => (f e.2).map (Sigma.mk e.1), by
    rw [← Multiset.nodup_keys, keys_filterMap]
    exact Multiset.nodup_of_le (Multiset.map_le_map (Multiset.filter_le _ _)) (Multiset.nodup_keys.2 t.nodupKeys)⟩

theorem lookup_filterMapRows (f : β → Option γ) (t : Finmap fun _ : α => β) (k : α) :
    (t.filterMapRows f).lookup k = (t.lookup k).bind f := by
  ext c
  rw [lookup_eq_some_iff, Option.bind_eq_some_iff]
  simp only [filterMapRows, Multiset.mem_filterMap, Option.map_eq_some_iff]
  constructor
  · rintro ⟨⟨a, b⟩, hmem, c', hc', heq⟩
    cases heq
    exact ⟨b, lookup_eq_some_iff.2 hmem, hc'⟩
  · rintro ⟨b, hb, hc⟩
    exact ⟨⟨k, b⟩, lookup_eq_some_iff.1 hb, c, hc, rfl⟩

/-- The same rows with their values mapped. -/
def mapRows (f : β → γ) (t : Finmap fun _ : α => β) : Finmap fun _ : α => γ := t.filterMapRows (some ∘ f)

@[simp] theorem lookup_mapRows (f : β → γ) (t : Finmap fun _ : α => β) (k : α) :
    (t.mapRows f).lookup k = (t.lookup k).map f := by
  rw [mapRows, lookup_filterMapRows]
  cases t.lookup k <;> rfl

@[simp] theorem keys_mapRows (f : β → γ) (t : Finmap fun _ : α => β) : (t.mapRows f).keys = t.keys := by
  ext k
  rw [mem_keys, mem_keys, ← lookup_isSome, ← lookup_isSome, lookup_mapRows, Option.isSome_map]

/-- Rows mapped forth and back are the same rows. -/
theorem filterMapRows_mapRows {f : β → γ} {g : γ → Option β} (h : ∀ b, g (f b) = some b)
    (t : Finmap fun _ : α => β) : (t.mapRows f).filterMapRows g = t := by
  refine ext_lookup fun k => ?_
  rw [lookup_filterMapRows, lookup_mapRows]
  cases t.lookup k with
  | none => rfl
  | some b => exact h b

end Finmap
