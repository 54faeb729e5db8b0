import Micronuts.Wallet.Requests

/-!
# The steps of composing an exact amount

The fee of the swap is estimated on what `spend` selects for the amount alone; those proofs go back, behind the others, and
`spend` selects again for amount and fee. Up to the swap nothing is asked of the mint; after a swap that has failed the
engine asks for states and for a restore, and for nothing else.
-/

namespace Micronuts
open WalletM Exec Coins

section
variable [Crypto]

/-! ### Taking and putting back -/

section back
variable {amount : UInt64} {proofs : List Proof}

/-- The proofs when a selection has gone back. -/
def putBack (amount : UInt64) (proofs : List Proof) : List Proof :=
  proofs.filter (· ∉ selection amount proofs) ++ selection amount proofs

/-- What is not selected comes after it in order. -/
theorem largestFirst_selection (amount : UInt64) (proofs : List Proof) :
    ∃ others, largestFirst proofs = selection amount proofs ++ others ∧
      (proofs.filter (· ∉ selection amount proofs)).Perm (others.filter (· ∉ selection amount proofs)) := by
  obtain ⟨others, h⟩ := cover_initial (fun p : Proof => p.amount.toNat) amount.toNat 0 (largestFirst proofs)
  have h : largestFirst proofs = selection amount proofs ++ others := h.symm
  refine ⟨others, h, ?_⟩
  have hperm : (largestFirst proofs).Perm proofs := List.mergeSort_perm ..
  have hfilter := (hperm.filter fun p => decide (p ∉ selection amount proofs)).symm
  have hnone : (selection amount proofs).filter (fun p => decide (p ∉ selection amount proofs)) = [] :=
    List.filter_eq_nil_iff.2 (by simp)
  rwa [h, List.filter_append, hnone, List.nil_append] at hfilter

/-- No two proofs of a wallet are the same, so all of them are there again. -/
theorem putBack_perm (h : proofs.Nodup) : (putBack amount proofs).Perm proofs :=
  List.perm_append_comm.trans (perm_of_taken h (subperm_of_initial (cover_initial ..)))

theorem proofsValue_putBack_le : proofsValue (putBack amount proofs) ≤ proofsValue proofs := by
  obtain ⟨others, hsorted, hfilter⟩ := largestFirst_selection amount proofs
  have hvalue := congrArg proofsValue hsorted
  have hle : proofsValue (others.filter (· ∉ selection amount proofs)) ≤ proofsValue others :=
    (List.filter_sublist.map _).sum_le_sum (by simp)
  rw [proofsValue_largestFirst, proofsValue_append] at hvalue
  rw [putBack, proofsValue_append, proofsValue_perm hfilter]
  omega

theorem largestFirst_descending (proofs : List Proof) :
    ((largestFirst proofs).map fun p => p.amount.toNat).Pairwise (· ≥ ·) :=
  List.pairwise_map.2 ((largestFirst_pairwise proofs).imp fun h => UInt64.le_iff_toNat_le.1 h)

/-- The selection is as before the first of them. -/
theorem largestFirst_putBack (amount : UInt64) (proofs : List Proof) :
    (selection amount proofs).map (fun p => p.amount.toNat) <+:
      (largestFirst (putBack amount proofs)).map fun p => p.amount.toNat := by
  obtain ⟨others, hsorted, hfilter⟩ := largestFirst_selection amount proofs
  have hall := largestFirst_descending proofs
  rw [hsorted, List.map_append, List.pairwise_append] at hall
  have hput : ((largestFirst (putBack amount proofs)).map fun p => p.amount.toNat).Perm
      ((putBack amount proofs).map fun p => p.amount.toNat) := (List.mergeSort_perm ..).map _
  rw [putBack, List.map_append] at hput
  refine prefix_of_perm (largestFirst_descending _) hall.1 (fun a ha b hb => hall.2.2 a ha b ?_)
    (hput.trans List.perm_append_comm)
  obtain ⟨p, hp, rfl⟩ := List.mem_map.1 hb
  exact List.mem_map_of_mem (List.mem_of_mem_filter (hfilter.mem_iff.1 hp))

end back

/-! ### Up to the swap -/

namespace WalletEngine

/-- The proofs when the fee has been estimated. -/
def hintedProofs (e : WalletEngine) (amount : UInt64) : List Proof :=
  if e.feePpk = 0 then e.proofs else putBack amount e.proofs

/-- The fee on the proofs that the amount alone would take. -/
def hintedFee (e : WalletEngine) (amount : UInt64) : Nat := feeFor e.feePpk (selection amount e.proofs).length

/-- The selection for amount and fee. -/
def composeInputs (e : WalletEngine) (amount needed : UInt64) : List Proof := selection needed (e.hintedProofs amount)

/-- The sums and products of composing an amount are below `2^64`. -/
structure ComposeFits (e : WalletEngine) (amount : UInt64) : Prop where
  value : proofsValue e.proofs < 2 ^ 64
  fee : e.feePpk.toNat * (selection amount e.proofs).length < 2 ^ 64

section
variable {env : EngineEnv} {e : WalletEngine} {amount : UInt64}

/-- No proof is lost for the estimate. -/
theorem hintedProofs_perm (h : e.proofs.Nodup) : (e.hintedProofs amount).Perm e.proofs := by
  unfold hintedProofs
  split_ifs
  · exact .refl _
  · exact putBack_perm h

theorem hintedProofs_value_le : proofsValue (e.hintedProofs amount) ≤ proofsValue e.proofs := by
  unfold hintedProofs
  split_ifs
  · exact Nat.le_refl _
  · exact proofsValue_putBack_le

theorem swapFeeHint_ends (hfits : e.ComposeFits amount) : (swapFeeHint amount).Ends env e fun o t =>
    t.world.sent = e.world.sent ∧ o ≠ .panic ∧
      ∀ fee, o = .ok fee → fee.toNat = e.hintedFee amount ∧ e.Holding (e.hintedProofs amount) t := by
  refine Ends.bind_get ?_
  unfold hintedFee hintedProofs
  by_cases h0 : e.feePpk = 0
  · rw [if_pos h0, if_pos h0]
    refine Ends.pure ⟨rfl, by simp, ?_⟩
    rintro fee ⟨⟩
    exact ⟨by simp [h0], .refl⟩
  · rw [if_neg h0, if_neg h0]
    refine bind_spend hfits.value (fun t _ _ htaken => bind_undo fun _ u hback => ?_) fun x t ht => ⟨ht, by simp, by simp⟩
    rw [htaken.proofs] at hback
    have hput : e.Holding (putBack amount e.proofs) u := htaken.trans hback
    have hproduct : u.feePpk.toNat * (selection amount e.proofs).length < 2 ^ 64 := by
      rw [hput.feePpk]
      exact hfits.fee
    obtain ⟨fee, hrun, hfee⟩ := inputFee_run env hproduct
    refine Ends.of_run hrun ⟨hput.sent, by simp, ?_⟩
    rintro fee' ⟨⟩
    exact ⟨by rw [hfee, hput.feePpk], hput⟩

variable [Curve]

/-- Composing an amount stops with nothing asked of the mint, or comes to the swap. -/
theorem composeExact_ends {Q : Outcome CashuError (List Proof) → WalletEngine → Prop} (hfits : e.ComposeFits amount)
    (hstop : ∀ x t, t.world.sent = e.world.sent → Q (.err x) t)
    (hswap : ∀ (needed keep : UInt64) t, needed.toNat = amount.toNat + e.hintedFee amount →
      needed.toNat ≤ proofsValue (e.hintedProofs amount) →
      keep.toNat + needed.toNat = proofsValue (e.composeInputs amount needed) →
      e.Holding ((e.hintedProofs amount).filter (· ∉ e.composeInputs amount needed)) t →
      (composeSwap amount keep (e.composeInputs amount needed)).Ends env t Q) :
    (composeExact amount).Ends env e Q := by
  refine Ends.bind_failIf (fun _ => Ends.bind (swapFeeHint_ends hfits) ?_ ?_ ?_) fun _ => hstop _ _ rfl
  rotate_left
  · exact fun x t h => hstop x t h.1
  · exact fun t h => absurd rfl h.2.1
  rintro fee t ⟨-, -, hhint⟩
  obtain ⟨hfee, hheld⟩ := hhint fee rfl
  refine Ends.bind_okOr (fun needed hneeded => ?_) fun _ => hstop _ _ hheld.sent
  have hneeded : needed.toNat = amount.toNat + fee.toNat := UInt64.checkedAdd_eq_some.1 hneeded
  have hvalue : proofsValue t.proofs < 2 ^ 64 := by
    rw [hheld.proofs]
    exact hintedProofs_value_le.trans_lt hfits.value
  refine bind_spend hvalue (fun u _ hle hspent => ?_) fun x u hu => hstop _ _ (hu.trans hheld.sent)
  rw [hheld.proofs] at hle hspent ⊢
  have hcover : needed.toNat ≤ proofsValue (e.composeInputs amount needed) := le_selection hle
  have hsum : proofsValue (e.composeInputs amount needed) < 2 ^ 64 :=
    (proofsValue_selection_le.trans hintedProofs_value_le).trans_lt hfits.value
  obtain ⟨total, hrun, htotal⟩ := @sumAmounts_run _ env u (e.composeInputs amount needed) 0 (by simpa using hsum)
  rw [UInt64.toNat_zero, Nat.zero_add] at htotal
  have hleft : (total - amount).toNat = total.toNat - amount.toNat :=
    UInt64.toNat_sub_of_le _ _ (UInt64.le_iff_toNat_le.2 (by omega))
  have hkeep : (total - amount - fee).toNat = (total - amount).toNat - fee.toNat :=
    UInt64.toNat_sub_of_le _ _ (UInt64.le_iff_toNat_le.2 (by omega))
  refine Ends.bind_run hrun (Ends.bind_run (subU64_run (by omega)) (Ends.bind_run (subU64_run (by omega)) ?_))
  exact hswap needed _ u (by omega) hle (by omega) (hheld.trans hspent)

end

/-! ### After a swap that has failed -/

/-- All requests of the wallet between two states ask for a restore. -/
def OnlyRestores (e t : WalletEngine) : Prop :=
  ∃ new, t.world.sent = new ++ e.world.sent ∧ ∀ r ∈ new, ∃ request, r = .restore request

section
variable {env : EngineEnv} {e t u : WalletEngine}

theorem OnlyRestores.of_sent (h : t.world.sent = e.world.sent) : OnlyRestores e t := ⟨[], h, by simp⟩

theorem OnlyRestores.trans (h : OnlyRestores e t) (h' : OnlyRestores t u) : OnlyRestores e u := by
  obtain ⟨new, hsent, hnew⟩ := h
  obtain ⟨new', hsent', hnew'⟩ := h'
  refine ⟨new' ++ new, by rw [hsent', hsent, List.append_assoc], fun r hr => ?_⟩
  exact (List.mem_append.1 hr).elim (hnew' r) (hnew r)

theorem OnlyRestores.no_swap (h : OnlyRestores e t) {r : SwapRequest} : ¬ NewRequest e t (.swap r) := by
  obtain ⟨new, hsent, hnew⟩ := h
  rw [newRequest_iff hsent]
  intro hr
  obtain ⟨request, hrequest⟩ := hnew _ hr
  cases hrequest

/-- After a swap there is no other. -/
theorem OnlyRestores.swap_eq {swap r : SwapRequest} (hswap : t.world.sent = .swap swap :: e.world.sent)
    (h : OnlyRestores t u) (hr : NewRequest e u (.swap r)) : r = swap := by
  obtain ⟨new, hsent, hnew⟩ := h
  rw [hswap, List.append_cons] at hsent
  rw [newRequest_iff hsent, List.mem_append] at hr
  rcases hr with hr | hr
  · obtain ⟨request, hrequest⟩ := hnew _ hr
    cases hrequest
  · simpa using hr

theorem pruneSpent_sent (spent : List String) :
    (pruneSpent spent).Ends env e fun _ t => t.world.sent = e.world.sent := by
  unfold pruneSpent
  split_ifs
  · exact Ends.pure rfl
  · have hsent : ∀ {w : WalletWorld} {ps : List Proof},
        (removeProofs ps).Ends (env.wallet e.calls) w fun _ t => t.sent = w.sent := persist_sent ()
    exact Ends.bind_get (bind_callWallet hsent (fun _ _ h => Ends.pure h) (fun _ _ h => h) fun _ h => h)

theorem reconcileSpent_sent : reconcileSpent.Ends env e fun _ t => t.world.sent = e.world.sent := by
  refine bind_ensureConnected (fun _ => Ends.bind_get ?_) fun _ => rfl
  split_ifs
  · exact Ends.pure rfl
  · exact Ends.bind_lift (fun ys _ => bind_ask (fun response _ => pruneSpent_sent _) fun _ _ => rfl) fun _ _ => rfl

variable [Curve]

theorem restore_restores : restore.Ends env e fun _ t => OnlyRestores e t := by
  have hasks : ∀ {o : Outcome CashuError Nat} {w : WalletWorld},
      RestoreEnds (env.wallet e.calls) e.keysetId e.keys e.world o w → OnlyRestores e (e.after w) := by
    intro o w h
    rcases h with - | - | ⟨-, -, -, -, -, hsaves⟩
    · exact .of_sent rfl
    · exact ⟨[_], rfl, by simp⟩
    · split_ifs at hsaves
      · obtain ⟨blob, rfl⟩ := hsaves.proofs
        exact ⟨[_], rfl, by simp⟩
      · rw [hsaves.2]
        exact ⟨[_], rfl, by simp⟩
  refine bind_ensureConnected (fun _ => Ends.bind_run knownSecrets_run (Ends.bind_get ?_)) fun _ => .of_sent rfl
  refine bind_callWallet restore_ends (fun n w h => ?_) (fun x w h => hasks h) fun w h => hasks h
  split_ifs
  · refine Ends.bind_keeps (Ends.bind_get ((verifyOrRemove_sent _).mono fun o t ht => ?_)) fun _ _ h => Ends.pure h
    exact (hasks h).trans (.of_sent ht)
  · exact Ends.pure (hasks h)

theorem offlineFallback_restores (amount : UInt64) (selected : List Proof) (err : CashuError) :
    (offlineFallback amount selected err).Ends env e fun _ t => OnlyRestores e t := by
  refine bind_undo fun _ t hback => ?_
  have hsent : OnlyRestores e t := .of_sent hback.sent
  split_ifs
  · have hmint : reconcileThenRestore.Ends env t fun _ u => OnlyRestores e u := by
      refine Ends.bind_get (Ends.bind_keeps (Ends.attempt_keeps ?_) fun reconciled u hu => ?_)
      · exact reconcileSpent_sent.mono fun o u hu => hsent.trans (.of_sent hu)
      · rcases reconciled with x | n
        · exact Ends.pure hu
        · refine Ends.bind_modify (Ends.bind_keeps (Ends.attempt_keeps ?_) fun _ _ h => Ends.pure h)
          exact restore_restores.mono fun o v hv => hu.trans hv
    refine Ends.bind_keeps hmint fun _ u hu => Ends.bind_get ?_
    unfold Ends
    simp only [run, okOr]
    split
    · exact hu
    · exact hu
  · exact Ends.fail hsent

end

end WalletEngine

end

end Micronuts
