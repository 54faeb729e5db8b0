import Micronuts.Wallet.Requests

/-!
# The steps of a melt

A melt spends the whole balance, swaps it into the coins of the target and change, and pays with the coins. Over a store
that saves, and with amounts and fees that fit in 64 bits, each part up to the swap is a plain equation: what it hands to
the next part, or how it stops.
-/

namespace Micronuts
open WalletM Exec

section
variable [Crypto]

/-- The number of proofs that are worth something. -/
def sweptCount (proofs : List Proof) : Nat := proofs.countP fun p => p.amount ≠ 0

theorem selection_all_length {amount : UInt64} {proofs : List Proof} (h : amount.toNat = proofsValue proofs) :
    (selection amount proofs).length = sweptCount proofs := by
  obtain ⟨zeros, hsorted, hzeros, hnonzero⟩ := selection_all h
  have hcount : (largestFirst proofs).countP (fun p => p.amount ≠ 0) = sweptCount proofs :=
    (List.mergeSort_perm ..).countP_eq _
  have hzero : zeros.countP (fun p => p.amount ≠ 0) = 0 := List.countP_eq_zero.2 fun p hp => by simp [hzeros p hp]
  have hall : (selection amount proofs).countP (fun p => p.amount ≠ 0) = (selection amount proofs).length :=
    List.countP_eq_length.2 fun p hp => by simpa using hnonzero p hp
  rw [hsorted, List.countP_append, hzero, hall] at hcount
  omega

/-- What the quote asks for, with the fee on the coins of amount and reserve. -/
def meltTarget (ppk : UInt64) (quote : MeltQuoteResponse) : Nat :=
  quote.amount.toNat + quote.feeReserve.toNat + feeFor ppk (decomposeAmount (quote.amount + quote.feeReserve)).length

namespace WalletEngine

/-- The proofs that the balance is spent from. -/
def everything (e : WalletEngine) : List Proof := selection (UInt64.ofNat (proofsValue e.proofs)) e.proofs

/-- The whole balance is spent. -/
def swept (e : WalletEngine) : WalletEngine :=
  e.after (e.world.withProofs (e.proofs.filter (· ∉ e.everything))).saved

def sweepFee (e : WalletEngine) : Nat := feeFor e.feePpk (sweptCount e.proofs)

/-- The sums and products of a melt are below `2^64`. -/
structure MeltFits (e : WalletEngine) (quote : MeltQuoteResponse) : Prop where
  value : proofsValue e.proofs < 2 ^ 64
  coins : e.feePpk.toNat * (decomposeAmount (quote.amount + quote.feeReserve)).length < 2 ^ 64
  swept : e.feePpk.toNat * sweptCount e.proofs < 2 ^ 64

section
variable {env : EngineEnv} {e : WalletEngine} {quote : MeltQuoteResponse}

theorem toNat_value (h : proofsValue e.proofs < 2 ^ 64) :
    (UInt64.ofNat (proofsValue e.proofs)).toNat = proofsValue e.proofs := UInt64.toNat_ofNat_of_lt' h

theorem everything_length (h : proofsValue e.proofs < 2 ^ 64) : e.everything.length = sweptCount e.proofs :=
  selection_all_length (toNat_value h)

/-- Nothing is lost between what is spent and what is left. -/
theorem everything_perm (h : proofsValue e.proofs < 2 ^ 64) : (e.swept.proofs ++ e.everything).Perm e.proofs :=
  List.perm_append_comm.trans (selection_all_perm (toNat_value h))

theorem swept_zero (h : proofsValue e.proofs < 2 ^ 64) : ∀ p ∈ e.swept.proofs, p.amount = 0 := by
  have hperm := proofsValue_perm (everything_perm h)
  have hle := le_selection (toNat_value h).le
  rw [toNat_value h] at hle
  rw [proofsValue_append] at hperm
  intro p hp
  have hsingle : p.amount.toNat ≤ proofsValue e.swept.proofs := List.single_le_sum (by simp) _ (List.mem_map_of_mem hp)
  have hzero : proofsValue e.swept.proofs = 0 := by
    have : e.everything = selection (UInt64.ofNat (proofsValue e.proofs)) e.proofs := rfl
    rw [this] at hperm
    omega
  exact UInt64.toNat_inj.1 (by rw [UInt64.toNat_zero]; omega)

theorem swept_value (h : proofsValue e.proofs < 2 ^ 64) : proofsValue e.swept.proofs = 0 :=
  List.sum_eq_zero fun n hn => by
    obtain ⟨p, hp, rfl⟩ := List.mem_map.1 hn
    rw [swept_zero h p hp]
    rfl

theorem everything_value (h : proofsValue e.proofs < 2 ^ 64) : proofsValue e.everything = proofsValue e.proofs := by
  have hperm := proofsValue_perm (everything_perm h)
  rw [proofsValue_append, swept_value h, Nat.zero_add] at hperm
  exact hperm

variable [Curve]

/-! ### Up to the spending of the balance -/

theorem meltQuoted_unpayable (hfits : MeltFits e quote) (h : 2 ^ 64 ≤ meltTarget e.feePpk quote) :
    (meltQuoted quote).run env e = (.err .invalidAmount, e) := by
  unfold meltQuoted
  rcases hbase : UInt64.checkedAdd quote.amount quote.feeReserve with - | base
  · exact run_bind_of_err rfl
  · have hnat := UInt64.checkedAdd_eq_some.1 hbase
    obtain rfl : quote.amount + quote.feeReserve = base := by
      rw [← UInt64.toNat_inj, UInt64.toNat_add, ← hnat, Nat.mod_eq_of_lt base.toNat_lt]
    obtain ⟨meltFee, hfee, hmeltFee⟩ := inputFee_run env hfits.coins
    have hnone : UInt64.checkedAdd (quote.amount + quote.feeReserve) meltFee = none := by
      unfold UInt64.checkedAdd
      rw [if_neg]
      rw [hnat, hmeltFee, ← meltTarget]
      omega
    refine (run_bind_of_ok (okOr_run rfl)).trans ((run_bind_of_ok hfee).trans (run_bind_of_err ?_))
    rw [hnone]
    rfl

/-- A payable quote is spent for. -/
theorem meltQuoted_spends (env : EngineEnv) (hfits : MeltFits e quote) (h : meltTarget e.feePpk quote < 2 ^ 64) :
    ∃ meltFee target : UInt64, target.toNat = meltTarget e.feePpk quote ∧
      quote.amount.toNat + quote.feeReserve.toNat + meltFee.toNat = target.toNat ∧
      (meltQuoted quote).run env e = (callWallet (spend (UInt64.ofNat (proofsValue e.proofs))) >>= fun all =>
        meltSwept quote meltFee target (UInt64.ofNat (proofsValue e.proofs)) (e.proofs.map Proof.secret) all).run env e := by
  have hsum : (quote.amount + quote.feeReserve).toNat = quote.amount.toNat + quote.feeReserve.toNat := by
    unfold meltTarget at h
    rw [UInt64.toNat_add, Nat.mod_eq_of_lt (by omega)]
  obtain ⟨meltFee, hfee, hmeltFee⟩ := inputFee_run env hfits.coins
  have htarget : (quote.amount + quote.feeReserve + meltFee).toNat = meltTarget e.feePpk quote := by
    rw [UInt64.toNat_add, hsum, hmeltFee, ← meltTarget, Nat.mod_eq_of_lt h]
  refine ⟨meltFee, quote.amount + quote.feeReserve + meltFee, htarget, by rw [htarget, meltTarget, hmeltFee], ?_⟩
  have hbase : UInt64.checkedAdd quote.amount quote.feeReserve = some (quote.amount + quote.feeReserve) :=
    UInt64.checkedAdd_eq_some.2 hsum
  have hadd : UInt64.checkedAdd (quote.amount + quote.feeReserve) meltFee =
      some (quote.amount + quote.feeReserve + meltFee) :=
    UInt64.checkedAdd_eq_some.2 (by rw [htarget, hsum, hmeltFee, meltTarget])
  obtain ⟨total, hbalance, htotal⟩ := balance_run env hfits.value
  obtain rfl : total = UInt64.ofNat (proofsValue e.proofs) := by
    rw [← UInt64.toNat_inj, htotal, toNat_value hfits.value]
  rw [meltQuoted, run_bind_of_ok (okOr_run hbase), run_bind_of_ok hfee, run_bind_of_ok (okOr_run hadd),
    run_bind_of_ok hbalance, run_bind_of_ok knownSecrets_run]

theorem meltQuoted_empty (hfits : MeltFits e quote) (h : meltTarget e.feePpk quote < 2 ^ 64)
    (hempty : proofsValue e.proofs = 0) : (meltQuoted quote).run env e = (.err .invalidAmount, e.after e.world) := by
  obtain ⟨meltFee, target, -, -, hrun⟩ := meltQuoted_spends env hfits h
  rw [hrun, hempty]
  exact run_bind_of_err (callWallet_run rfl)

theorem meltQuoted_swept (hfits : MeltFits e quote) (hstore : StoreSaves env) (h : meltTarget e.feePpk quote < 2 ^ 64)
    (hpos : 0 < proofsValue e.proofs) : ∃ meltFee target : UInt64, target.toNat = meltTarget e.feePpk quote ∧
      quote.amount.toNat + quote.feeReserve.toNat + meltFee.toNat = target.toNat ∧
      (meltQuoted quote).run env e = (meltSwept quote meltFee target (UInt64.ofNat (proofsValue e.proofs))
        (e.proofs.map Proof.secret) e.everything).run env e.swept := by
  obtain ⟨meltFee, target, htarget, hfee, hrun⟩ := meltQuoted_spends env hfits h
  refine ⟨meltFee, target, htarget, hfee, hrun.trans (run_bind_of_ok (callWallet_run ?_))⟩
  have hvalue := toNat_value hfits.value
  refine spend_run (hstore e.calls) hfits.value ?_ hvalue.le
  intro h0
  rw [h0, UInt64.toNat_zero] at hvalue
  omega

/-! ### Up to the swap -/

section swept
variable {meltFee target total : UInt64} {known : List String} {all : List Proof}

omit [Curve] in
theorem meltSwapFee_run (env : EngineEnv) {n : Nat} (h : e.feePpk.toNat * n < 2 ^ 64) :
    ∃ fee, (meltSwapFee n).run env e = (.ok fee, e) ∧ fee.toNat = feeFor e.feePpk n := by
  by_cases h0 : e.feePpk = 0
  · refine ⟨0, ?_, by simp [h0]⟩
    show (if e.feePpk = 0 then pure 0 else inputFee n : EngineM UInt64).run env e = _
    rw [if_pos h0]
    rfl
  · obtain ⟨fee, hrun, hfee⟩ := inputFee_run env h
    refine ⟨fee, ?_, hfee⟩
    show (if e.feePpk = 0 then pure 0 else inputFee n : EngineM UInt64).run env e = _
    rw [if_neg h0]
    exact hrun

/-- What is over when target and fee are paid is the change. -/
theorem meltSwept_balanced (env : EngineEnv) (quote : MeltQuoteResponse) (meltFee : UInt64) (known : List String)
    (hfits : e.feePpk.toNat * all.length < 2 ^ 64)
    (h : target.toNat + feeFor e.feePpk all.length ≤ total.toNat) :
    ∃ rest : UInt64, rest.toNat + target.toNat + feeFor e.feePpk all.length = total.toNat ∧
      (meltSwept quote meltFee target total known all).run env e =
        (meltPrepared quote meltFee target known all (decomposeCapped rest (isolateLowestOne target))).run env e := by
  obtain ⟨fee, hrun, hfee⟩ := meltSwapFee_run env hfits
  have hleft : (total - fee).toNat = total.toNat - fee.toNat :=
    UInt64.toNat_sub_of_le _ _ (UInt64.le_iff_toNat_le.2 (by omega))
  have hrest : (total - fee - target).toNat = (total - fee).toNat - target.toNat :=
    UInt64.toNat_sub_of_le _ _ (UInt64.le_iff_toNat_le.2 (by omega))
  refine ⟨total - fee - target, by omega, ?_⟩
  exact (run_bind_of_ok hrun).trans ((run_bind_of_ok (subU64_run (by omega))).trans
    (run_bind_of_ok (subU64_run (by omega))))

/-- Where the balance is short the subtraction is, too. -/
theorem meltSwept_short (hfits : e.feePpk.toNat * all.length < 2 ^ 64) (hchecks : env.overflowChecks = true)
    (h : total.toNat < target.toNat + feeFor e.feePpk all.length) :
    (meltSwept quote meltFee target total known all).run env e = (.panic, e) := by
  obtain ⟨fee, hrun, hfee⟩ := meltSwapFee_run env hfits
  refine (run_bind_of_ok hrun).trans ?_
  by_cases hlt : total.toNat < fee.toNat
  · exact run_bind_of_panic (subU64_panic hchecks hlt)
  · have hleft : (total - fee).toNat = total.toNat - fee.toNat :=
      UInt64.toNat_sub_of_le _ _ (UInt64.le_iff_toNat_le.2 (by omega))
    exact (run_bind_of_ok (subU64_run (by omega))).trans (run_bind_of_panic (subU64_panic hchecks (by omega)))

end swept

/-- With enough in the wallet the swap is made ready. -/
theorem meltQuoted_prepared (hfits : MeltFits e quote) (hstore : StoreSaves env) (h : meltTarget e.feePpk quote < 2 ^ 64)
    (hpos : 0 < proofsValue e.proofs) (henough : meltTarget e.feePpk quote + e.sweepFee ≤ proofsValue e.proofs) :
    ∃ meltFee target rest : UInt64, target.toNat = meltTarget e.feePpk quote ∧
      quote.amount.toNat + quote.feeReserve.toNat + meltFee.toNat = target.toNat ∧
      rest.toNat + target.toNat + e.sweepFee = proofsValue e.proofs ∧
      (meltQuoted quote).run env e = (meltPrepared quote meltFee target (e.proofs.map Proof.secret) e.everything
        (decomposeCapped rest (isolateLowestOne target))).run env e.swept := by
  obtain ⟨meltFee, target, htarget, hfee, hrun⟩ := meltQuoted_swept hfits hstore h hpos
  have hlength := everything_length hfits.value
  have hvalue := toNat_value hfits.value
  have hproduct : e.swept.feePpk.toNat * e.everything.length < 2 ^ 64 := by
    rw [hlength]
    exact hfits.swept
  have hbalanced : target.toNat + feeFor e.swept.feePpk e.everything.length ≤
      (UInt64.ofNat (proofsValue e.proofs)).toNat := by
    rw [hvalue, htarget, hlength]
    exact henough
  obtain ⟨rest, hrest, hswept⟩ := meltSwept_balanced env quote meltFee (e.proofs.map Proof.secret) hproduct hbalanced
  refine ⟨meltFee, target, rest, htarget, hfee, ?_, hrun.trans hswept⟩
  rw [hvalue, hlength] at hrest
  exact hrest

/-- Without, the subtraction fails when the balance is spent already. -/
theorem meltQuoted_short (hfits : MeltFits e quote) (hstore : StoreSaves env) (hchecks : env.overflowChecks = true)
    (h : meltTarget e.feePpk quote < 2 ^ 64) (hpos : 0 < proofsValue e.proofs)
    (hshort : proofsValue e.proofs < meltTarget e.feePpk quote + e.sweepFee) :
    (meltQuoted quote).run env e = (.panic, e.swept) := by
  obtain ⟨meltFee, target, htarget, -, hrun⟩ := meltQuoted_swept hfits hstore h hpos
  have hlength := everything_length hfits.value
  refine hrun.trans (meltSwept_short ?_ hchecks ?_)
  · rw [hlength]
    exact hfits.swept
  · rw [toNat_value hfits.value, htarget, hlength]
    exact hshort

end

omit [Crypto] in
/-- There is change to make up the rest, unless nothing is to be paid. -/
theorem meltChange {target rest : UInt64} (h : target ≠ 0 ∨ rest = 0) :
    ∃ change, decomposeCapped rest (isolateLowestOne target) = some change ∧
      ((decomposeAmount target ++ change).map UInt64.toNat).sum = target.toNat + rest.toNat ∧
      ∀ c ∈ change, c ≤ isolateLowestOne target := by
  have hcoins := (decomposeAmount_binary target).sum
  by_cases htarget : target = 0
  · obtain rfl : rest = 0 := h.resolve_left (not_not.2 htarget)
    refine ⟨[], rfl, ?_, by simp⟩
    rw [List.append_nil, hcoins]
    rfl
  · obtain ⟨m, -, hcap, -⟩ := isolateLowestOne_spec htarget
    obtain ⟨change, hchange, hcapped⟩ := @decomposeCapped_spec _ rest m hcap
    exact ⟨change, hchange, by rw [List.map_append, List.sum_append, hcoins, hcapped.sum], hcapped.le_cap⟩

end WalletEngine

/-! ### The melt itself -/

section melt
variable [Curve] {env : WalletEnv} {w : WalletWorld}

omit [Curve] in
theorem selectCovering_run {amount : UInt64} (hfits : proofsValue w.wallet.proofs < 2 ^ 64)
    (h : amount.toNat ≤ proofsValue w.wallet.proofs) :
    (selectCovering amount).run env w = (.ok (selection amount w.wallet.proofs), w) := by
  obtain ⟨total, hsum, htotal⟩ := @sumAmounts_run _ w.wallet.proofs env w 0 (by simpa using hfits)
  have hcover := @takeCovering_run _ (largestFirst w.wallet.proofs) env w 0 amount
    (by simpa [proofsValue_largestFirst] using hfits)
  have henough : ¬ total < amount := by
    rw [UInt64.lt_iff_toNat_lt]
    rw [UInt64.toNat_zero, Nat.zero_add] at htotal
    omega
  rw [selectCovering, run_bind_of_ok wallet_run, run_bind_of_ok hsum, run_bind_of_ok (failIf_pass henough)]
  exact hcover

omit [Curve] in
theorem selectCovering_short {amount : UInt64} (hfits : proofsValue w.wallet.proofs < 2 ^ 64)
    (h : proofsValue w.wallet.proofs < amount.toNat) :
    (selectCovering amount).run env w = (.err .insufficientInputs, w) := by
  obtain ⟨total, hsum, htotal⟩ := @sumAmounts_run _ w.wallet.proofs env w 0 (by simpa using hfits)
  have hshort : total < amount := by
    rw [UInt64.lt_iff_toNat_lt]
    rw [UInt64.toNat_zero, Nat.zero_add] at htotal
    omega
  rw [selectCovering, run_bind_of_ok wallet_run, run_bind_of_ok hsum, run_bind_of_err (failIf_fail hshort)]

/-- At most one request leaves the wallet, for the largest proofs that cover amount and reserve. -/
theorem meltDeterministic_sends {quoteId : String} {invoiceAmount feeReserve : UInt64} {keysetId : String}
    {mintKeys : KeySet} (hfits : proofsValue w.wallet.proofs < 2 ^ 64) :
    (meltDeterministic quoteId invoiceAmount feeReserve keysetId mintKeys).Ends env w fun _ t =>
      t.sent = w.sent ∨ ∃ needed outputs, UInt64.checkedAdd invoiceAmount feeReserve = some needed ∧
        t.sent = .melt ⟨quoteId, selection needed w.wallet.proofs, some outputs⟩ :: w.sent := by
  refine Ends.bind_okOr (fun needed hneeded => ?_) fun _ => .inl rfl
  refine Ends.bind_failIf (fun _ => ?_) fun _ => .inl rfl
  by_cases hshort : proofsValue w.wallet.proofs < needed.toNat
  · exact Ends.of_run (run_bind_of_err (selectCovering_short hfits hshort)) (.inl rfl)
  · refine Ends.bind_run (selectCovering_run hfits (by omega)) ?_
    refine Inspects.bind (deterministicOutputs_ends ..) ?_ fun o _ => .inl rfl
    rintro ⟨blanks, pending⟩ -
    refine bind_modifyWallet (bind_post (fun response _ => ?_) fun e _ => .inr ⟨needed, blanks, hneeded, rfl⟩)
    have hsent : ∀ {o : Outcome CashuError MeltOutcome} {u t : WalletWorld}, t.sent = u.sent →
        u.sent = .melt ⟨quoteId, selection needed w.wallet.proofs, some blanks⟩ :: w.sent →
        t.sent = w.sent ∨ ∃ needed outputs, UInt64.checkedAdd invoiceAmount feeReserve = some needed ∧
          t.sent = .melt ⟨quoteId, selection needed w.wallet.proofs, some outputs⟩ :: w.sent :=
      fun ht hu => .inr ⟨needed, blanks, hneeded, ht.trans hu⟩
    split
    · exact (persist_sent _).mono fun o t ht => @hsent o _ t ht rfl
    · refine Inspects.bind (unblindChange_ends ..) ?_ fun o _ => .inr ⟨needed, blanks, hneeded, rfl⟩
      rintro ⟨changeProofs, changeSats⟩ -
      refine Ends.bind_lift (fun _ _ => bind_modifyWallet ?_) fun e _ => .inr ⟨needed, blanks, hneeded, rfl⟩
      exact (persist_sent _).mono fun o t ht => @hsent o _ t ht rfl

end melt

namespace WalletEngine

/-- The swap of a melt is its only one. -/
theorem newSwap_eq {e t : WalletEngine} {swap request : SwapRequest}
    (hsent : t.world.sent = .swap swap :: e.world.sent ∨ ∃ melt, t.world.sent = .melt melt :: .swap swap :: e.world.sent)
    (h : NewRequest e t (.swap request)) : request = swap := by
  rcases hsent with hsent | ⟨melt, hsent⟩
  · rw [newRequest_iff (l := [.swap swap]) hsent] at h
    simpa using h
  · rw [newRequest_iff (l := [.melt melt, .swap swap]) hsent] at h
    simpa using h

variable [Curve] {env : EngineEnv} {e : WalletEngine}

/-- After the swap only the request of the melt leaves, and the method returns. -/
theorem meltComposed_sends {quote : MeltQuoteResponse} {meltFee : UInt64} {known : List String}
    (hfits : proofsValue e.proofs < 2 ^ 64) : (meltComposed quote meltFee known).Ends env e fun o t => o ≠ .ok none ∧
      (t.world.sent = e.world.sent ∨ ∃ needed outputs,
        UInt64.checkedAdd (quote.amount + meltFee) quote.feeReserve = some needed ∧
        t.world.sent = .melt ⟨quote.quote, selection needed e.proofs, some outputs⟩ :: e.world.sent) := by
  refine Ends.bind_get ?_
  refine Ends.bind (addU64_keeps quote.amount meltFee) ?_ ?_ ?_
  · rintro a t ⟨rfl, ha⟩
    rw [ha a rfl]
    refine bind_callWallet (meltDeterministic_sends hfits) (fun outcome w hsent => ?_) (fun x w hsent => ?_) fun w hsent => ?_
    · refine Ends.bind (Ends.bind_get (verifyOrRemove_sent _)) (fun _ u hu => ?_) (fun x u hu => ?_) fun u hu => ?_
      · refine bind_record (Ends.pure ⟨by simp, ?_⟩)
        rw [after_world] at hu
        rw [hu]
        exact hsent
      · exact ⟨by simp, by rw [hu]; exact hsent⟩
      · exact ⟨by simp, by rw [hu]; exact hsent⟩
    · exact ⟨by simp, hsent⟩
    · exact ⟨by simp, hsent⟩
  · rintro x t ⟨rfl, -⟩; exact ⟨by simp, .inl rfl⟩
  · rintro t ⟨rfl, -⟩; exact ⟨by simp, .inl rfl⟩

end WalletEngine

end

end Micronuts
