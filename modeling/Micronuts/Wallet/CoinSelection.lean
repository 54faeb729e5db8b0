import Micronuts.Wallet.Fees

/-!
# Selecting the coins of a target

The coins for a melt are those of its target, then change in coins that none of them is below. The largest of them are the
target exactly, whatever the rest. `select_covering` sums the wallet before it selects, so it comes to them as long as the
sum fits in 64 bits: a sum that wraps around is below the target.
-/

namespace Micronuts
open WalletM Exec Coins

section
variable [Crypto]

/-! ### Sums that do not fit -/

section sums
variable {env : WalletEnv} {w : WalletWorld} {proofs : List Proof} {acc : UInt64}

theorem sumAmounts_panic (hchecks : env.overflowChecks = true) (h : 2 ^ 64 ≤ acc.toNat + proofsValue proofs) :
    (sumAmounts proofs acc).run env w = (.panic, w) := by
  induction proofs generalizing acc with
  | nil =>
    have := acc.toNat_lt
    simp only [proofsValue_nil] at h
    omega
  | cons p ps ih =>
    rw [proofsValue_cons] at h
    rw [sumAmounts]
    by_cases hfits : acc.toNat + p.amount.toNat < 2 ^ 64
    · have hadd : (acc + p.amount).toNat = acc.toNat + p.amount.toNat := by
        rw [UInt64.toNat_add, Nat.mod_eq_of_lt hfits]
      exact (run_bind_of_ok (addU64_run hfits)).trans (ih (by omega))
    · refine run_bind_of_panic ?_
      simp only [run, addU64, if_pos (show env.overflowChecks = true ∧ 2 ^ 64 ≤ acc.toNat + p.amount.toNat from
        ⟨hchecks, by omega⟩)]

/-- Without checks the sum wraps around. -/
theorem sumAmounts_wraps (hchecks : env.overflowChecks = false) :
    ∃ total, (sumAmounts proofs acc).run env w = (.ok total, w) ∧
      total.toNat = (acc.toNat + proofsValue proofs) % 2 ^ 64 := by
  induction proofs generalizing acc with
  | nil => exact ⟨acc, rfl, by rw [proofsValue_nil, Nat.add_zero, Nat.mod_eq_of_lt acc.toNat_lt]⟩
  | cons p ps ih =>
    obtain ⟨total, hrun, htotal⟩ := @ih (acc + p.amount)
    have hadd : (addU64 acc p.amount).run env w = (.ok (acc + p.amount), w) := by
      simp only [run, addU64, hchecks, Bool.false_eq_true, false_and, if_false]
    refine ⟨total, (run_bind_of_ok hadd).trans hrun, ?_⟩
    rw [htotal, UInt64.toNat_add, proofsValue_cons, Nat.mod_add_mod, Nat.add_assoc]

theorem selectCovering_panic {amount : UInt64} (hchecks : env.overflowChecks = true)
    (h : 2 ^ 64 ≤ proofsValue w.wallet.proofs) : (selectCovering amount).run env w = (.panic, w) := by
  rw [selectCovering, run_bind_of_ok wallet_run]
  exact run_bind_of_panic (sumAmounts_panic hchecks (by simpa using h))

theorem selectCovering_wraps {amount : UInt64} (hchecks : env.overflowChecks = false)
    (h : proofsValue w.wallet.proofs % 2 ^ 64 < amount.toNat) :
    (selectCovering amount).run env w = (.err .insufficientInputs, w) := by
  obtain ⟨total, hsum, htotal⟩ := @sumAmounts_wraps _ env w w.wallet.proofs 0 hchecks
  have hshort : total < amount := by
    rw [UInt64.toNat_zero, Nat.zero_add] at htotal
    rw [UInt64.lt_iff_toNat_lt, htotal]
    exact h
  rw [selectCovering, run_bind_of_ok wallet_run, run_bind_of_ok hsum, run_bind_of_err (failIf_fail hshort)]

end sums

/-! ### The coins of a target -/

section target
variable {target rest : UInt64} {change : List UInt64} {proofs : List Proof}

/-- The target is selected exactly, in any order of the coins. -/
theorem selection_target (h : target ≠ 0) (hchange : decomposeCapped rest (isolateLowestOne target) = some change)
    (hcoins : (proofs.map Proof.amount).Perm (decomposeAmount target ++ change)) :
    (selection target proofs).map Proof.amount = decomposeAmount target ∧
    proofsValue (selection target proofs) = target.toNat ∧
      proofsValue proofs = target.toNat + rest.toNat := by
  obtain ⟨_, hchange', hsum, hle⟩ := @WalletEngine.meltChange target rest (.inl h)
  obtain rfl := Option.some.inj (hchange.symm.trans hchange')
  have hnat : (proofs.map fun p => p.amount.toNat).Perm ((decomposeAmount target ++ change).map UInt64.toNat) := by
    have hmap := hcoins.map UInt64.toNat
    rwa [List.map_map] at hmap
  have hselected := @WalletEngine.selection_coins _ target proofs (change.map UInt64.toNat)
    (by rwa [List.map_append] at hnat) fun d hd => List.forall_mem_map.2 fun c hc =>
      (UInt64.le_iff_toNat_le.1 (hle c hc)).trans (UInt64.le_iff_toNat_le.1 (isolateLowestOne_le hd))
  refine ⟨?_, ?_, ?_⟩
  · refine List.map_injective_iff.2 (fun _ _ => UInt64.toNat_inj.1) ?_
    rw [List.map_map]
    exact hselected
  · rw [proofsValue, hselected, (decomposeAmount_binary target).sum]
  · rw [proofsValue, hnat.sum_eq, hsum]

/-- `select_covering` comes to the target as long as the wallet's sum fits. -/
theorem selectCovering_target {env : WalletEnv} {w : WalletWorld} (h : target ≠ 0)
    (hchange : decomposeCapped rest (isolateLowestOne target) = some change)
    (hcoins : (w.wallet.proofs.map Proof.amount).Perm (decomposeAmount target ++ change)) :
    (selectCovering target).run env w = (.ok (selection target w.wallet.proofs), w) ↔ target.toNat + rest.toNat < 2 ^ 64 := by
  obtain ⟨-, -, hvalue⟩ := selection_target h hchange hcoins
  have hrest := rest.toNat_lt
  by_cases hfits : target.toNat + rest.toNat < 2 ^ 64
  · exact iff_of_true (selectCovering_run (by omega) (by omega)) hfits
  · refine iff_of_false (fun hrun => ?_) hfits
    rcases hchecks : env.overflowChecks
    · rw [selectCovering_wraps hchecks (by omega)] at hrun
      cases hrun
    · rw [selectCovering_panic hchecks (by omega)] at hrun
      cases hrun

end target

theorem coins_exact :
    (∀ total cap : UInt64, (∃ k, cap.toNat = 2 ^ k) →
      ∃ coins, decomposeCapped total cap = some coins ∧ CappedCoins cap total coins) ∧
    ∀ target rest : UInt64, target ≠ 0 → ∃ change, decomposeCapped rest (isolateLowestOne target) = some change ∧
      ∀ (env : WalletEnv) (w : WalletWorld), (w.wallet.proofs.map Proof.amount).Perm (decomposeAmount target ++ change) →
        (selection target w.wallet.proofs).map Proof.amount = decomposeAmount target ∧
        proofsValue (selection target w.wallet.proofs) = target.toNat ∧
        ((selectCovering target).run env w = (.ok (selection target w.wallet.proofs), w) ↔
          target.toNat + rest.toNat < 2 ^ 64) := by
  refine ⟨fun total cap ⟨k, hcap⟩ => decomposeCapped_spec hcap, fun target rest h => ?_⟩
  obtain ⟨change, hchange, -⟩ := @WalletEngine.meltChange target rest (.inl h)
  refine ⟨change, hchange, fun env w hcoins => ?_⟩
  obtain ⟨hselected, hvalue, -⟩ := selection_target h hchange hcoins
  exact ⟨hselected, hvalue, selectCovering_target h hchange hcoins⟩

end

section toy
open Toy32 ToyEngine

/-- The wallet holds the coins of a target and change of as much, of 2^63 both: the sum does not fit. -/
theorem selectCovering_overflow : ∃ (target : UInt64) (change : List UInt64) (w : WalletWorld), target.toNat = 2 ^ 63 ∧
    decomposeCapped target (isolateLowestOne target) = some change ∧
      w.wallet.proofs.map Proof.amount = decomposeAmount target ++ change ∧
      (selectCovering target).run mint w = (.panic, w) ∧
      (selectCovering target).run { mint with overflowChecks := false } w = (.err .insufficientInputs, w) := by
  obtain ⟨target, htarget⟩ : ∃ target : UInt64, target.toNat = 2 ^ 63 := ⟨0x8000000000000000, by decide⟩
  have hne : target ≠ 0 := by
    rintro rfl
    cases htarget
  obtain ⟨change, hchange, -⟩ := @WalletEngine.meltChange target target (.inl hne)
  let w := (holding 0 ((decomposeAmount target ++ change).map fun amount => coin amount "a")).world
  have hcoins : w.wallet.proofs.map Proof.amount = decomposeAmount target ++ change := by
    show ((decomposeAmount target ++ change).map fun amount => coin amount "a").map Proof.amount = _
    rw [List.map_map]
    exact List.map_id _
  have hvalue := (selection_target hne hchange (.of_eq hcoins)).2.2
  refine ⟨target, change, w, htarget, hchange, hcoins, ?_, ?_⟩
  · exact selectCovering_panic rfl (by omega)
  · exact selectCovering_wraps rfl (by omega)

/-- A target of two with a rest of two in coins of two. -/
theorem coins_exact_toy :
    (∃ coins, decomposeCapped 11 4 = some coins ∧ CappedCoins 4 11 coins) ∧
    proofsValue (selection 2 (holding 0 [coin 2 "a", coin 2 "b"]).proofs) = 2 := by
  refine ⟨coins_exact.1 11 4 ⟨2, rfl⟩, ?_⟩
  obtain ⟨change, hchange, hselects⟩ := coins_exact.2 2 2 (by decide)
  obtain rfl : change = [2] := Option.some.inj (hchange.symm.trans (by decide +kernel))
  exact (hselects mint (holding 0 [coin 2 "a", coin 2 "b"]).world (.refl _)).2.1

end toy

end Micronuts
