import Micronuts.Lib.Coins
import Micronuts.Mint.Inputs
import Micronuts.Wallet.Calls

/-!
# Selecting proofs (`cashu-core-lite`: `persistent.rs`)

`spend` takes the largest proofs out of the wallet until they cover an amount, and saves before it hands them out;
`undo_spend` puts them back. `find_exact` looks for proofs of exactly an amount and takes nothing. As long as the amounts
fit in 64 bits together, what is selected is `selection`, and `SpendEnds` says what the wallet and its store have then.
-/

namespace Micronuts
open WalletM Exec Coins

section
variable [Crypto]

/-! ### The methods -/

/-- `sort_by_key(Reverse(amount))`, which keeps the order of equal ones. -/
def largestFirst (proofs : List Proof) : List Proof := proofs.mergeSort fun p q => q.amount ≤ p.amount

def spend (amount : UInt64) : WalletM (List Proof) := do
  Exec.failIf (amount = 0) .invalidAmount
  let w ← WalletM.wallet
  let total ← WalletM.sumAmounts w.proofs 0
  Exec.failIf (total < amount) .insufficientInputs
  let selected ← takeCovering amount 0 (largestFirst w.proofs)
  WalletM.modifyWallet fun w => { w with proofs := w.proofs.filter (· ∉ selected) }
  WalletM.persist
  pure selected

def undoSpend (proofs : List Proof) : WalletM Unit := do
  creditProofs proofs
  WalletM.persist
  pure ()

def removeProofs (proofs : List Proof) : WalletM Unit := do
  WalletM.modifyWallet fun w => { w with proofs := w.proofs.filter (· ∉ proofs) }
  WalletM.persist
  pure ()

def nodeCap : Nat := 100000

/-- The sum of the amounts, at most `u64::MAX`. -/
def suffixSum : List Proof → UInt64
  | [] => 0
  | p :: ps => if (suffixSum ps).toNat + p.amount.toNat < 2 ^ 64 then suffixSum ps + p.amount else 0xFFFFFFFFFFFFFFFF

/-- The loop of `dfs`: the proofs still to choose from, the coin tried last, what remains, and the nodes so far. Below a
coin the search goes on with the rest of the list. -/
def dfs : List Proof → Option UInt64 → UInt64 → Nat → Option (List Proof) × Nat
  | [], _, _, nodes => (none, nodes)
  | p :: rest, last, remaining, nodes =>
    if last = some p.amount then dfs rest last remaining nodes
    else if remaining < p.amount then dfs rest (some p.amount) remaining nodes
    else
      let nodes := nodes + 1
      let left := remaining - p.amount
      match (if left = 0 then (some [], nodes)
        else if nodeCap ≤ nodes ∨ suffixSum rest < left then (none, nodes)
        else dfs rest none left nodes) with
      | (some chosen, nodes) => (some (p :: chosen), nodes)
      | (none, nodes) => dfs rest (some p.amount) remaining nodes

def findExact (proofs : List Proof) (amount : UInt64) : Option (List Proof) :=
  if amount = 0 then none
  else
    let sorted := largestFirst proofs
    if suffixSum sorted < amount then none else (dfs sorted none amount 0).1

/-! ### What is found is there -/

theorem dfs_sublist (l : List Proof) : ∀ (last : Option UInt64) (remaining : UInt64) (nodes : Nat) (chosen : List Proof),
    (dfs l last remaining nodes).1 = some chosen → chosen.Sublist l := by
  induction l with
  | nil => exact fun last remaining nodes chosen h => by cases h
  | cons p rest ih =>
    intro last remaining nodes chosen h
    rw [dfs] at h
    split_ifs at h with hlast hcoin
    · exact (ih _ _ _ _ h).cons p
    · exact (ih _ _ _ _ h).cons p
    · dsimp only at h
      split at h
      · next found nodes' heq =>
        obtain rfl : p :: found = chosen := Option.some.inj h
        refine List.Sublist.cons_cons p ?_
        split_ifs at heq with hleft hstop
        · cases heq
          exact List.nil_sublist _
        · cases heq
        · exact ih _ _ _ found (congrArg Prod.fst heq)
      · exact (ih _ _ _ _ h).cons p

theorem mem_largestFirst {proofs : List Proof} {p : Proof} : p ∈ largestFirst proofs ↔ p ∈ proofs :=
  (List.mergeSort_perm ..).mem_iff

theorem findExact_subset {proofs chosen : List Proof} {amount : UInt64} (h : findExact proofs amount = some chosen) :
    ∀ p ∈ chosen, p ∈ proofs := by
  rw [findExact] at h
  dsimp only at h
  split_ifs at h
  intro p hp
  exact mem_largestFirst.1 ((dfs_sublist _ _ _ _ _ h).subset hp)

/-! ### Values -/

section values
variable {proofs proofs' : List Proof}

@[simp] theorem proofsValue_nil : proofsValue [] = 0 := rfl

@[simp] theorem proofsValue_cons (p : Proof) (proofs : List Proof) :
    proofsValue (p :: proofs) = p.amount.toNat + proofsValue proofs := by simp [proofsValue]

@[simp] theorem proofsValue_append : proofsValue (proofs ++ proofs') = proofsValue proofs + proofsValue proofs' := by
  simp [proofsValue]

theorem proofsValue_perm (h : proofs.Perm proofs') : proofsValue proofs = proofsValue proofs' := (h.map _).sum_eq

theorem proofsValue_largestFirst (proofs : List Proof) : proofsValue (largestFirst proofs) = proofsValue proofs :=
  proofsValue_perm (List.mergeSort_perm ..)

variable {env : WalletEnv} {w : WalletWorld} {acc : UInt64}

theorem addU64_run {a b : UInt64} (h : a.toNat + b.toNat < 2 ^ 64) : (addU64 a b).run env w = (.ok (a + b), w) := by
  simp only [run, addU64, if_neg (show ¬ (env.overflowChecks ∧ 2 ^ 64 ≤ a.toNat + b.toNat) by omega)]

/-- A sum that fits is the value. -/
theorem sumAmounts_run (h : acc.toNat + proofsValue proofs < 2 ^ 64) :
    ∃ total, (sumAmounts proofs acc).run env w = (.ok total, w) ∧ total.toNat = acc.toNat + proofsValue proofs := by
  induction proofs generalizing acc with
  | nil => exact ⟨acc, rfl, by simp⟩
  | cons p ps ih =>
    rw [proofsValue_cons] at h ⊢
    have hadd : (acc + p.amount).toNat = acc.toNat + p.amount.toNat := by
      rw [UInt64.toNat_add, Nat.mod_eq_of_lt (by omega)]
    obtain ⟨total, hrun, htotal⟩ := @ih (acc + p.amount) (by omega)
    refine ⟨total, ?_, by omega⟩
    rw [sumAmounts, run_bind, addU64_run (by omega)]
    exact hrun

theorem takeCovering_run {amount : UInt64} (h : acc.toNat + proofsValue proofs < 2 ^ 64) :
    (takeCovering amount acc proofs).run env w =
      (.ok (cover (fun p => p.amount.toNat) amount.toNat acc.toNat proofs), w) := by
  induction proofs generalizing acc with
  | nil => rfl
  | cons p ps ih =>
    rw [proofsValue_cons] at h
    rw [takeCovering, cover]
    simp only [UInt64.le_iff_toNat_le]
    split_ifs
    · rfl
    · have hadd : (acc + p.amount).toNat = acc.toNat + p.amount.toNat := by
        rw [UInt64.toNat_add, Nat.mod_eq_of_lt (by omega)]
      have hrest := @ih (acc + p.amount) (by omega)
      rw [hadd] at hrest
      rw [run_bind, addU64_run (by omega)]
      dsimp only
      rw [run_bind, hrest]
      rfl

end values

/-! ### What is selected -/

/-- The largest proofs that cover an amount. -/
def selection (amount : UInt64) (proofs : List Proof) : List Proof :=
  cover (fun p => p.amount.toNat) amount.toNat 0 (largestFirst proofs)

section selection
variable {amount : UInt64} {proofs : List Proof}

theorem selection_subset {p : Proof} (hp : p ∈ selection amount proofs) : p ∈ proofs :=
  mem_largestFirst.1 ((cover_initial ..).subset hp)

theorem proofsValue_selection_le : proofsValue (selection amount proofs) ≤ proofsValue proofs := by
  rw [← proofsValue_largestFirst proofs]
  exact ((cover_initial ..).sublist.map _).sum_le_sum (by simp)

theorem le_selection (h : amount.toNat ≤ proofsValue proofs) : amount.toNat ≤ proofsValue (selection amount proofs) := by
  have hcover := @le_sum_cover _ (fun p : Proof => p.amount.toNat) amount.toNat 0 (largestFirst proofs) (by
    rw [← proofsValue_largestFirst proofs] at h
    simpa [proofsValue] using h)
  simpa [selection, proofsValue] using hcover

theorem largestFirst_pairwise (proofs : List Proof) : (largestFirst proofs).Pairwise fun p q => q.amount ≤ p.amount := by
  have hsorted : (largestFirst proofs).Pairwise fun p q => decide (q.amount ≤ p.amount) = true :=
    List.pairwise_mergeSort
      (fun a b c hab hbc => by
        simp only [decide_eq_true_eq] at hab hbc ⊢
        exact UInt64.le_trans hbc hab)
      (fun a b => by
        simp only [Bool.or_eq_true, decide_eq_true_eq]
        exact UInt64.le_total ..) proofs
  simpa using hsorted

/-- When all is wanted, what is left has no value and what is taken has some. -/
theorem selection_all (h : amount.toNat = proofsValue proofs) :
    ∃ zeros, largestFirst proofs = selection amount proofs ++ zeros ∧ (∀ p ∈ zeros, p.amount = 0) ∧
      ∀ p ∈ selection amount proofs, p.amount ≠ 0 := by
  obtain ⟨zeros, hzeros⟩ := cover_initial (fun p : Proof => p.amount.toNat) amount.toNat 0 (largestFirst proofs)
  have hzeros : largestFirst proofs = selection amount proofs ++ zeros := hzeros.symm
  refine ⟨zeros, hzeros, fun p hp => ?_, fun p hp h0 => ?_⟩
  · have hvalue := congrArg proofsValue hzeros
    rw [proofsValue_largestFirst, proofsValue_append] at hvalue
    have hle := le_selection h.le
    have hmem : p.amount.toNat ≤ proofsValue zeros := List.single_le_sum (by simp) _ (List.mem_map_of_mem hp)
    exact UInt64.toNat_inj.1 (by rw [UInt64.toNat_zero]; omega)
  · have hdesc : (largestFirst proofs).Pairwise fun p q => q.amount.toNat ≤ p.amount.toNat :=
      (largestFirst_pairwise proofs).imp fun h => UInt64.le_iff_toNat_le.1 h
    have hlt := lt_of_mem_cover hdesc hp (by rw [h0]; rfl)
    have hsum : ((largestFirst proofs).map fun p => p.amount.toNat).sum = proofsValue proofs :=
      proofsValue_largestFirst proofs
    omega

/-- Then nothing is lost between what is taken and what is left. -/
theorem selection_all_perm (h : amount.toNat = proofsValue proofs) :
    (selection amount proofs ++ proofs.filter (· ∉ selection amount proofs)).Perm proofs := by
  obtain ⟨zeros, hsorted, hzeros, hnonzero⟩ := selection_all h
  have hperm : (selection amount proofs ++ zeros).Perm proofs := by
    rw [← hsorted]
    exact List.mergeSort_perm ..
  have hrest : (selection amount proofs ++ zeros).filter (fun p => decide (p ∉ selection amount proofs)) = zeros := by
    rw [List.filter_append, List.filter_eq_nil_iff.2 (by simp), List.nil_append, List.filter_eq_self]
    intro p hp
    have : p ∉ selection amount proofs := fun hsel => hnonzero p hsel (hzeros p hp)
    simpa using this
  have hfilter := (hperm.filter fun p => decide (p ∉ selection amount proofs)).symm
  rw [hrest] at hfilter
  exact (hfilter.append_left _).trans hperm

/-- Of different proofs, those that are taken and the others are all. -/
theorem perm_of_taken {taken : List Proof} (hnodup : proofs.Nodup) (h : taken.Subperm proofs) :
    (taken ++ proofs.filter (· ∉ taken)).Perm proofs := by
  have htaken : taken.Nodup := by
    obtain ⟨l, hperm, hsub⟩ := h
    exact hperm.nodup_iff.1 (hnodup.sublist hsub)
  have hfilter : taken.Perm (proofs.filter (· ∈ taken)) := by
    refine (List.perm_ext_iff_of_nodup htaken (hnodup.filter _)).2 fun p => ?_
    simp only [List.mem_filter, decide_eq_true_eq]
    exact ⟨fun hp => ⟨h.subset hp, hp⟩, fun hp => hp.2⟩
  have hall := List.filter_append_perm (fun p => decide (p ∈ taken)) proofs
  refine (hfilter.append_right _).trans ?_
  simpa using hall

theorem subperm_of_initial {selected : List Proof} (h : selected <+: largestFirst proofs) : selected.Subperm proofs :=
  (List.mergeSort_perm ..).subperm_left.1 h.sublist.subperm

end selection

/-! ### How the methods end -/

section ends
variable {env : WalletEnv} {w : WalletWorld}

/-- How `spend` ends: it refuses, or it saves the wallet without what it takes. -/
inductive SpendEnds (env : WalletEnv) (amount : UInt64) (w : WalletWorld) :
    Outcome CashuError (List Proof) → WalletWorld → Prop
  | refused {e} (short : amount = 0 ∧ e = .invalidAmount ∨ amount ≠ 0 ∧ proofsValue w.wallet.proofs < amount.toNat ∧
      e = .insufficientInputs) : SpendEnds env amount w (.err e) w
  | spent {o t} (positive : amount ≠ 0) (enough : amount.toNat ≤ proofsValue w.wallet.proofs)
      (value : ∀ ps, o = .ok ps → ps = selection amount w.wallet.proofs)
      (saves : Saves env (w.withProofs (w.wallet.proofs.filter (· ∉ selection amount w.wallet.proofs))) o t) :
      SpendEnds env amount w o t

theorem spend_ends {amount : UInt64} (hfits : proofsValue w.wallet.proofs < 2 ^ 64) :
    (spend amount).Ends env w (SpendEnds env amount w) := by
  obtain ⟨total, hsum, htotal⟩ := @sumAmounts_run _ w.wallet.proofs env w 0 (by simpa using hfits)
  have hcover := @takeCovering_run _ (largestFirst w.wallet.proofs) env w 0 amount
    (by simpa [proofsValue_largestFirst] using hfits)
  rw [UInt64.toNat_zero, Nat.zero_add] at htotal
  refine Ends.bind_failIf (fun hpos => bind_wallet ?_) fun h0 => .refused (.inl ⟨h0, rfl⟩)
  refine Ends.bind_run hsum (Ends.bind_failIf (fun henough => ?_) fun hshort => ?_)
  · have hle : amount.toNat ≤ proofsValue w.wallet.proofs := by
      rw [UInt64.lt_iff_toNat_lt] at henough
      omega
    refine Ends.bind_run hcover (bind_modifyWallet ?_)
    exact ((saves_ends _).and (saves_value _)).mono fun o t h => .spent hpos hle h.2 h.1
  · rw [UInt64.lt_iff_toNat_lt] at hshort
    exact .refused (.inr ⟨hpos, by omega, rfl⟩)

theorem undoSpend_ends (proofs : List Proof) :
    (undoSpend proofs).Ends env w (Saves env (w.withProofs (w.wallet.proofs ++ proofs))) :=
  bind_modifyWallet (saves_ends _)

theorem removeProofs_ends (proofs : List Proof) :
    (removeProofs proofs).Ends env w (Saves env (w.withProofs (w.wallet.proofs.filter (· ∉ proofs)))) :=
  bind_modifyWallet (saves_ends _)

end ends

end

end Micronuts
