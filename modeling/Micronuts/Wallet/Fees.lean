import Micronuts.Wallet.Composes
import Micronuts.Wallet.Melts

/-!
# Fees that the mint agrees with

A swap of the wallet is balanced when its inputs pay for its outputs and for the fee on the inputs themselves. For an exact
amount the fee is estimated on fewer inputs than may be spent; before a melt the swap is made from all that is there, and
balanced. The coins of a melt make up the target, whose fee was estimated on the coins of another amount.
-/

namespace Micronuts
open WalletM Exec Coins

section
variable [Crypto]

/-- The mint's equation for a swap. -/
def SwapBalanced (ppk : UInt64) (r : SwapRequest) : Prop :=
  proofsValue r.inputs = outputsValue r.outputs + feeFor ppk r.inputs.length

/-- The mint's inequation for a melt. -/
def MeltCovered (ppk : UInt64) (quote : MeltQuoteResponse) (r : MeltRequest) : Prop :=
  quote.amount.toNat + quote.feeReserve.toNat + feeFor ppk r.inputs.length ≤ proofsValue r.inputs

omit [Crypto] in
theorem feeFor_le_iff {ppk : UInt64} {n f : Nat} : feeFor ppk n ≤ f ↔ ppk = 0 ∨ n ≤ 1000 * f / ppk.toNat := by
  by_cases h0 : ppk = 0
  · simp [h0]
  · have hpos : 0 < ppk.toNat := by
      have : ppk.toNat ≠ 0 := fun h => h0 (UInt64.toNat_inj.1 h)
      omega
    rw [feeFor, Nat.le_div_iff_mul_le hpos, Nat.mul_comm n]
    constructor
    · intro h
      exact .inr (by omega)
    · rintro (h | h)
      · exact absurd h h0
      · omega

namespace WalletEngine

/-! ### Exact amounts -/

/-- The fee that was estimated is that of as many proofs as, from the largest down, cover amount and fee. -/
def FeeCovers (e : WalletEngine) (amount : UInt64) : Prop :=
  e.feePpk = 0 ∨ amount.toNat + e.hintedFee amount ≤
    proofsValue ((largestFirst (e.hintedProofs amount)).take (1000 * e.hintedFee amount / e.feePpk.toNat))

section
variable {env : EngineEnv} {e : WalletEngine} {amount needed : UInt64}

/-- More inputs are needed for amount and fee than for the amount. -/
theorem hinted_length_le (hneeded : needed.toNat = amount.toNat + e.hintedFee amount)
    (hle : needed.toNat ≤ proofsValue (e.hintedProofs amount)) (h0 : e.feePpk ≠ 0) :
    (selection amount e.proofs).length ≤ (e.composeInputs amount needed).length := by
  have hput : e.hintedProofs amount = putBack amount e.proofs := if_neg h0
  have hvalue := @hintedProofs_value_le _ e amount
  have hcover := @le_selection _ amount e.proofs (by omega)
  obtain ⟨others, hsorted⟩ := largestFirst_putBack amount e.proofs
  have htaken : cover id amount.toNat 0 ((largestFirst (putBack amount e.proofs)).map fun p => p.amount.toNat) =
      (selection amount e.proofs).map fun p => p.amount.toNat := by
    rw [← hsorted]
    refine cover_of_cover (l := (largestFirst e.proofs).map fun p => p.amount.toNat) ?_ ?_
    · rw [← map_cover]
      rfl
    · simpa [proofsValue] using hcover
  have hmore : cover id amount.toNat 0 ((largestFirst (putBack amount e.proofs)).map fun p => p.amount.toNat) <+:
      cover id needed.toNat 0 ((largestFirst (putBack amount e.proofs)).map fun p => p.amount.toNat) := cover_mono (by omega)
  rw [htaken, ← map_cover] at hmore
  have hlength := hmore.length_le
  rw [List.length_map, List.length_map] at hlength
  rw [composeInputs, hput]
  exact hlength

theorem feeCovers_iff (hneeded : needed.toNat = amount.toNat + e.hintedFee amount)
    (hle : needed.toNat ≤ proofsValue (e.hintedProofs amount)) :
    feeFor e.feePpk (e.composeInputs amount needed).length ≤ e.hintedFee amount ↔ e.FeeCovers amount := by
  rw [feeFor_le_iff, FeeCovers, ← hneeded]
  refine or_congr_right ?_
  have hcover := @length_cover_le_iff _ (fun p : Proof => p.amount.toNat) needed.toNat 0
    (largestFirst (e.hintedProofs amount)) (1000 * e.hintedFee amount / e.feePpk.toNat) (by
      rw [Nat.zero_add]
      rwa [← proofsValue_largestFirst] at hle)
  rw [Nat.zero_add] at hcover
  exact hcover

/-- The swap pays for its outputs and the fee that was estimated. -/
theorem swapBalanced_iff {r : SwapRequest} (hneeded : needed.toNat = amount.toNat + e.hintedFee amount)
    (hle : needed.toNat ≤ proofsValue (e.hintedProofs amount)) (hinputs : r.inputs = e.composeInputs amount needed)
    (houtputs : outputsValue r.outputs + e.hintedFee amount = proofsValue r.inputs) :
    SwapBalanced e.feePpk r ↔ e.FeeCovers amount := by
  rw [← feeCovers_iff hneeded hle, SwapBalanced, ← houtputs, hinputs, Nat.add_left_cancel_iff]
  constructor
  · intro h
    exact h.ge
  · intro h
    refine Nat.le_antisymm ?_ h
    by_cases h0 : e.feePpk = 0
    · rw [hintedFee, h0, feeFor_zero, feeFor_zero]
    · exact feeFor_mono (hinted_length_le hneeded hle h0)

variable [Curve]

theorem composeExact_balanced (hfits : e.ComposeFits amount) : (composeExact amount).Ends env e fun _ t =>
    ∀ r, NewRequest e t (.swap r) → (SwapBalanced e.feePpk r ↔ e.FeeCovers amount) := by
  refine composeExact_ends hfits (fun x t ht r hr => absurd hr (not_newRequest ht)) ?_
  intro needed keep t hneeded hle hkeep hheld
  have hbalanced : ∀ r, SwapFor t.keysetId (e.composeInputs amount needed)
      (decomposeAmount amount ++ decomposeAmount keep) r →
      (SwapBalanced e.feePpk r ↔ e.FeeCovers amount) := by
    rintro r ⟨derived, hcount, rfl⟩
    refine swapBalanced_iff hneeded hle rfl ?_
    rw [outputsValue_messagesOf hcount, List.map_append, List.sum_append, (decomposeAmount_binary amount).sum,
      (decomposeAmount_binary keep).sum]
    show _ = proofsValue (e.composeInputs amount needed)
    omega
  have hsends : ∀ {w : WalletWorld} {u : WalletEngine}, (w.sent = t.world.sent ∨
      ∃ r, SwapFor t.keysetId (e.composeInputs amount needed) (decomposeAmount amount ++ decomposeAmount keep) r ∧
        w.sent = .swap r :: t.world.sent) → OnlyRestores (t.after w) u →
      ∀ r, NewRequest e u (.swap r) → (SwapBalanced e.feePpk r ↔ e.FeeCovers amount) := by
    intro w u hw hu r hr
    rw [hheld.sent] at hw
    rcases hw with hw | ⟨swap, hswap, hw⟩
    · exact absurd hr ((OnlyRestores.of_sent (t := t.after w) hw).trans hu).no_swap
    · rw [hu.swap_eq (t := t.after w) hw hr]
      exact hbalanced swap hswap
  refine Ends.bind_get (bind_attemptWallet swap_sends (fun fresh w h => ?_) (fun x w h => ?_) fun w h => ?_)
  · rcases h with ⟨hswap, -, -, hsent⟩ | ⟨hstop, -⟩
    · exact hsends (.inr ⟨_, hswap, hsent⟩) (.of_sent rfl)
    · cases hstop
  · rcases h with - | ⟨-, hsent⟩
    exact (offlineFallback_restores ..).mono fun o u hu => hsends hsent hu
  · rcases h with - | ⟨-, hsent⟩
    exact hsends hsent (.of_sent rfl)

end

/-! ### Melts -/

/-- What the mint sees of a melt. -/
structure MeltBalanced (e : WalletEngine) (quote : MeltQuoteResponse) (t : WalletEngine) : Prop where
  swaps : ∀ r, NewRequest e t (.swap r) → SwapBalanced e.feePpk r
  melts : ∀ r, NewRequest e t (.melt r) → proofsValue r.inputs = meltTarget e.feePpk quote ∧
    r.inputs.length = (decomposeAmount (UInt64.ofNat (meltTarget e.feePpk quote))).length

/-- The target has no more coins to pay for than the amount that its fee was estimated on. -/
def TargetCovers (ppk : UInt64) (quote : MeltQuoteResponse) : Prop :=
  feeFor ppk (decomposeAmount (UInt64.ofNat (meltTarget ppk quote))).length ≤
    feeFor ppk (decomposeAmount (quote.amount + quote.feeReserve)).length

section
variable {env : EngineEnv} {e : WalletEngine} {quote : MeltQuoteResponse}

/-- Among coins that none of the others is below, the target is selected coin by coin. -/
theorem selection_coins {target : UInt64} {proofs : List Proof} {rest : List Nat}
    (hcoins : (proofs.map fun p => p.amount.toNat).Perm ((decomposeAmount target).map UInt64.toNat ++ rest))
    (hrest : ∀ d ∈ decomposeAmount target, ∀ c ∈ rest, c ≤ d.toNat) :
    (selection target proofs).map (fun p => p.amount.toNat) = (decomposeAmount target).map UInt64.toNat := by
  have hbinary := decomposeAmount_binary target
  have hsorted : ((largestFirst proofs).map fun p => p.amount.toNat).Perm
      ((decomposeAmount target).map UInt64.toNat ++ rest) := ((List.mergeSort_perm ..).map _).trans hcoins
  obtain ⟨others, hothers⟩ := prefix_of_perm (largestFirst_descending proofs) (hbinary.descending.imp Nat.le_of_lt)
    (List.forall_mem_map.2 hrest) hsorted
  rw [selection, map_cover, ← hothers]
  exact cover_exact (by simpa using hbinary.sum) fun d hd => hbinary.pos hd

theorem MeltBalanced.of_sent {t : WalletEngine} (h : t.world.sent = e.world.sent) : MeltBalanced e quote t where
  swaps := fun _ hr => absurd hr (not_newRequest h)
  melts := fun _ hr => absurd hr (not_newRequest h)

theorem MeltBalanced.of_swap {t : WalletEngine} {swap : SwapRequest} (h : t.world.sent = .swap swap :: e.world.sent)
    (hbalanced : SwapBalanced e.feePpk swap) : MeltBalanced e quote t where
  swaps := fun r hr => by rwa [newSwap_eq (.inl h) hr]
  melts := fun r hr => by
    rw [newRequest_iff (l := [.swap swap]) h] at hr
    simp at hr

variable [Curve]

theorem meltComposed_balanced {t : WalletEngine} {meltFee target : UInt64} {known : List String} {swap : SwapRequest}
    {rest : List Nat} (htarget : target.toNat = meltTarget e.feePpk quote)
    (hfee : quote.amount.toNat + quote.feeReserve.toNat + meltFee.toNat = target.toNat)
    (hsent : t.world.sent = .swap swap :: e.world.sent) (hbalanced : SwapBalanced e.feePpk swap)
    (hvalue : proofsValue t.proofs < 2 ^ 64)
    (hcoins : (t.proofs.map fun p => p.amount.toNat).Perm ((decomposeAmount target).map UInt64.toNat ++ rest))
    (hrest : ∀ d ∈ decomposeAmount target, ∀ c ∈ rest, c ≤ d.toNat) :
    (meltComposed quote meltFee known).Ends env t fun _ u => MeltBalanced e quote u := by
  refine (meltComposed_sends hvalue).mono fun o u h => ?_
  rcases h.2 with hu | ⟨needed, outputs, hneeded, hu⟩
  · exact .of_swap (hu.trans hsent) hbalanced
  · rw [hsent] at hu
    have hlt := target.toNat_lt
    have hsum : (quote.amount + meltFee).toNat = quote.amount.toNat + meltFee.toNat := by
      rw [UInt64.toNat_add, Nat.mod_eq_of_lt (by omega)]
    have hnat := UInt64.checkedAdd_eq_some.1 hneeded
    obtain rfl : needed = target := UInt64.toNat_inj.1 (by omega)
    have hselected := selection_coins hcoins hrest
    refine ⟨fun r hr => by rwa [newSwap_eq (.inr ⟨_, hu⟩) hr], fun r hr => ?_⟩
    rw [newRequest_iff (l := [_, _]) hu] at hr
    obtain rfl : r = ⟨quote.quote, selection needed t.proofs, some outputs⟩ := by simpa using hr
    rw [← htarget, UInt64.ofNat_toNat]
    constructor
    · rw [proofsValue, hselected, (decomposeAmount_binary needed).sum]
    · simpa using congrArg List.length hselected

theorem meltPrepared_balanced {t : WalletEngine} {meltFee target rest : UInt64} {known : List String}
    (hfits : MeltFits e quote) (htarget : target.toNat = meltTarget e.feePpk quote)
    (hfee : quote.amount.toNat + quote.feeReserve.toNat + meltFee.toNat = target.toNat)
    (hrest : rest.toNat + target.toNat + e.sweepFee = proofsValue e.proofs) (hheld : e.Holding e.swept.proofs t) :
    (meltPrepared quote meltFee target known e.everything (decomposeCapped rest (isolateLowestOne target))).Ends env t
      fun _ u => MeltBalanced e quote u := by
  by_cases hspread : target ≠ 0 ∨ rest = 0
  · obtain ⟨change, hchange, hsum, hle⟩ := meltChange hspread
    rw [hchange]
    have hbalanced : ∀ {r}, SwapFor t.keysetId e.everything (decomposeAmount target ++ change) r →
        SwapBalanced e.feePpk r := by
      rintro r ⟨derived, hcount, rfl⟩
      show proofsValue e.everything = outputsValue _ + feeFor _ e.everything.length
      rw [outputsValue_messagesOf hcount, hsum, everything_value hfits.value, everything_length hfits.value, ← hrest]
      exact congrArg (· + _) (Nat.add_comm ..)
    have hstopped : ∀ {w : WalletWorld} {u : WalletEngine}, (w.sent = t.world.sent ∨
        ∃ r, SwapFor t.keysetId e.everything (decomposeAmount target ++ change) r ∧ w.sent = .swap r :: t.world.sent) →
        u.world.sent = w.sent → MeltBalanced e quote u := by
      intro w u hw hu
      rw [← hu, hheld.sent] at hw
      rcases hw with hw | ⟨r, hr, hw⟩
      · exact .of_sent hw
      · exact .of_swap hw (hbalanced hr)
    refine Ends.bind_get (bind_attemptWallet swap_sends (fun fresh w h => ?_) (fun x w h => ?_) fun w h => ?_)
    · rcases h with ⟨hswap, hcoins, hproofs, hsent⟩ | ⟨hstop, -⟩
      · rw [hheld.proofs] at hproofs
        rw [hheld.sent] at hsent
        have hamounts : fresh.map (fun p => p.amount.toNat) = (decomposeAmount target ++ change).map UInt64.toNat := by
          rw [← hcoins, List.map_map]
          rfl
        have hvalue : proofsValue (t.after w).proofs < 2 ^ 64 := by
          rw [after_proofs, hproofs, proofsValue_append, swept_value hfits.value, proofsValue, hamounts, hsum]
          have := hfits.value
          omega
        have hperm : ((t.after w).proofs.map fun p => p.amount.toNat).Perm ((decomposeAmount target).map UInt64.toNat ++
            (change.map UInt64.toNat ++ e.swept.proofs.map fun p => p.amount.toNat)) := by
          rw [after_proofs, hproofs, List.map_append, hamounts, List.map_append]
          exact List.perm_append_comm.trans (.of_eq (List.append_assoc ..))
        refine meltComposed_balanced htarget hfee hsent (hbalanced hswap) hvalue hperm fun d hd c hc => ?_
        rcases List.mem_append.1 hc with hc | hc
        · obtain ⟨coin, hcoin, rfl⟩ := List.mem_map.1 hc
          exact UInt64.le_iff_toNat_le.1 (UInt64.le_trans (hle coin hcoin) (isolateLowestOne_le hd))
        · obtain ⟨p, hp, rfl⟩ := List.mem_map.1 hc
          rw [swept_zero hfits.value p hp]
          exact Nat.zero_le _
      · cases hstop
    · rcases h with - | ⟨-, hsent⟩
      exact bind_undo fun _ u hback => Ends.fail (hstopped hsent hback.sent)
    · rcases h with - | ⟨-, hsent⟩
      exact hstopped hsent rfl
  · rw [not_or, not_not] at hspread
    rw [hspread.1]
    have hstuck : decomposeCapped rest (isolateLowestOne 0) = none := cappedRounds_zero hspread.2
    rw [hstuck]
    exact Ends.pure (.of_sent hheld.sent)

/-- A melt that the balance is enough for asks for what the mint agrees to, up to the fee on its coins. -/
theorem meltQuoted_balanced (hfits : MeltFits e quote)
    (henough : meltTarget e.feePpk quote + e.sweepFee ≤ proofsValue e.proofs) :
    (meltQuoted quote).Ends env e fun _ t => MeltBalanced e quote t := by
  have hvalue := hfits.value
  obtain ⟨meltFee, target, htarget, hfee, hrun⟩ := meltQuoted_spends env hfits (by omega)
  refine Ends.of_run_eq hrun (bind_spend hfits.value (fun t hpos hle hspent => ?_) fun x t ht => .of_sent ht)
  have hheld : e.Holding e.swept.proofs t := hspent
  have hproduct : t.feePpk.toNat * e.everything.length < 2 ^ 64 := by
    rw [hheld.feePpk, everything_length hfits.value]
    exact hfits.swept
  have hbalanced : target.toNat + feeFor t.feePpk e.everything.length ≤ (UInt64.ofNat (proofsValue e.proofs)).toNat := by
    rw [toNat_value hfits.value, htarget, hheld.feePpk, everything_length hfits.value]
    exact henough
  obtain ⟨rest, hrest, hswept⟩ := meltSwept_balanced env quote meltFee (e.proofs.map Proof.secret) hproduct hbalanced
  rw [toNat_value hfits.value, hheld.feePpk, everything_length hfits.value] at hrest
  exact Ends.of_run_eq hswept (meltPrepared_balanced hfits htarget hfee hrest hheld)

end

variable [Curve]

/-- The swap for an exact amount is balanced when the estimate covers the fee on what is spent, and only then. A melt that
the balance is enough for makes a balanced swap and pays with the target, which covers the fee on its coins when the coins
of the amount stood for as high a fee. -/
theorem requests_balanced {env : EngineEnv} {e : WalletEngine} :
    (∀ amount o t, e.ComposeFits amount → (composeExact amount).run env e = (o, t) →
      ∀ r, NewRequest e t (.swap r) → (SwapBalanced e.feePpk r ↔ e.FeeCovers amount)) ∧
    ∀ invoice amount quote o t, e.keysetId ≠ "" → env.postMeltQuote e.calls ⟨invoice, e.unit, amount⟩ = .ok quote →
      MeltFits e quote → meltTarget e.feePpk quote + e.sweepFee ≤ proofsValue e.proofs →
      (meltWith invoice amount).run env e = (o, t) →
      (∀ r, NewRequest e t (.swap r) → SwapBalanced e.feePpk r) ∧
        ∀ r, NewRequest e t (.melt r) → proofsValue r.inputs = meltTarget e.feePpk quote ∧
          (MeltCovered e.feePpk quote r ↔ TargetCovers e.feePpk quote) := by
  refine ⟨fun amount o t hfits hrun => (composeExact_balanced hfits).elim hrun, ?_⟩
  intro invoice amount quote o t hconnected hquote hfits henough hrun
  have hask := @ask_run _ env e _ (fun env n => env.postMeltQuote n ⟨invoice, e.unit, amount⟩) _ hquote
  rw [meltWith, run_bind_of_ok (ensureConnected_run hconnected), run_bind_of_ok get_run, run_bind_of_ok hask] at hrun
  have hfits' : MeltFits (e.after e.world) quote := ⟨hfits.value, hfits.coins, hfits.swept⟩
  obtain ⟨hswaps, hmelts⟩ := (meltQuoted_balanced hfits' henough).elim hrun
  refine ⟨hswaps, fun r hr => ?_⟩
  obtain ⟨hvalue, hcount⟩ := hmelts r hr
  have hvalue : proofsValue r.inputs = meltTarget e.feePpk quote := hvalue
  have hcount : r.inputs.length = (decomposeAmount (UInt64.ofNat (meltTarget e.feePpk quote))).length := hcount
  refine ⟨hvalue, ?_⟩
  rw [MeltCovered, hvalue, hcount, TargetCovers, meltTarget, Nat.add_le_add_iff_left]

end WalletEngine

end

section toy
open Toy32 ToyEngine WalletEngine

/-- At a fee of a half for each input, two of four are handed out, and a quote of two is paid from sixteen. -/
theorem requests_balanced_toy :
    (∃ o t, (composeExact 2).run (env (quote 2 0)) (holding 500 [coin 4 "a"]) = (o, t) ∧
      ∀ r, NewRequest (holding 500 [coin 4 "a"]) t (.swap r) → SwapBalanced 500 r) ∧
    ∃ o t, (meltWith "lnbc" none).run (env (quote 2 0)) (holding 500 [coin 16 "a"]) = (o, t) ∧
      ∀ r, NewRequest (holding 500 [coin 16 "a"]) t (.melt r) → MeltCovered 500 (quote 2 0) r := by
  constructor
  · rcases hrun : (composeExact 2).run (env (quote 2 0)) (holding 500 [coin 4 "a"]) with ⟨o, t⟩
    have hfits : ComposeFits (holding 500 [coin 4 "a"]) 2 := ⟨by decide, by decide +kernel⟩
    have hcovers : FeeCovers (holding 500 [coin 4 "a"]) 2 := .inr (by decide +kernel)
    exact ⟨o, t, rfl, fun r hr => (requests_balanced.1 2 o t hfits hrun r hr).2 hcovers⟩
  · rcases hrun : (meltWith "lnbc" none).run (env (quote 2 0)) (holding 500 [coin 16 "a"]) with ⟨o, t⟩
    have hfits : MeltFits (holding 500 [coin 16 "a"]) (quote 2 0) := ⟨by decide, by decide, by decide⟩
    have hcovers : TargetCovers (holding 500 [coin 16 "a"]).feePpk (quote 2 0) := by unfold TargetCovers; decide
    have hpaid := requests_balanced.2 "lnbc" none (quote 2 0) o t (by decide) rfl hfits (by decide) hrun
    exact ⟨o, t, rfl, fun r hr => (hpaid.2 r hr).2.2 hcovers⟩

theorem spend_toy {q : MeltQuoteResponse} {e : WalletEngine} {amount : UInt64} {selected rest : List Proof}
    (hselected : selection amount e.proofs = selected) (hrest : e.proofs.filter (· ∉ selected) = rest)
    (hfits : proofsValue e.proofs < 2 ^ 64) (hpos : amount ≠ 0) (hle : amount.toNat ≤ proofsValue e.proofs) :
    (callWallet (spend amount)).run (env q) e = (.ok selected, e.after (e.world.withProofs rest).saved) := by
  subst hselected hrest
  exact callWallet_run (spend_run (fun _ => rfl) hfits hpos hle)

/-- The swap that is all that was sent. -/
def onlySwap : List WalletRequest → Option SwapRequest
  | [.swap r] => some r
  | _ => none

theorem eq_of_onlySwap {sent : List WalletRequest} {r : SwapRequest} (h : onlySwap sent = some r) : sent = [.swap r] := by
  unfold onlySwap at h
  split at h
  · cases h
    rfl
  · cases h

/-- Held is a coin of two twice, at a fee of one for each input. For two the estimate is a fee of one, so both coins are
spent, at a fee of two, and one too many comes back. -/
theorem compose_unbalanced : ∃ o t r, (composeExact 2).run (env (quote 2 0)) (holding 1000 [coin 2 "a", coin 2 "b"]) =
    (o, t) ∧
    NewRequest (holding 1000 [coin 2 "a", coin 2 "b"]) t (.swap r) ∧ proofsValue r.inputs = 4 ∧ outputsValue r.outputs = 3 ∧
      r.inputs.length = 2 ∧ ¬ SwapBalanced 1000 r := by
  have hsort : ∀ s s', largestFirst [coin 2 s, coin 2 s'] = [coin 2 s, coin 2 s'] := fun s s' =>
    List.mergeSort_of_pairwise (by simp [ToyEngine.coin])
  have hone : selection 2 [coin 2 "a", coin 2 "b"] = [coin 2 "a"] := by rw [selection, hsort]; decide +kernel
  have hboth : selection 3 [coin 2 "b", coin 2 "a"] = [coin 2 "b", coin 2 "a"] := by rw [selection, hsort]; decide +kernel
  let e := holding 1000 [coin 2 "a", coin 2 "b"]
  let taken := e.after (e.world.withProofs [coin 2 "b"]).saved
  let back := taken.after (taken.world.withProofs [coin 2 "b", coin 2 "a"]).saved
  let spent := back.after (back.world.withProofs []).saved
  have hspend : (callWallet (spend 2)).run (env (quote 2 0)) e = (.ok [coin 2 "a"], taken) :=
    spend_toy hone (by decide) (by decide) (by decide) (by decide)
  have hundo : (attempt (callWallet (undoSpend [coin 2 "a"]))).run (env (quote 2 0)) taken = (.ok (.ok ()), back) :=
    attempt_run_ok (callWallet_run (undoSpend_run (fun _ => rfl) _))
  have hhint : (swapFeeHint 2).run (env (quote 2 0)) e = (.ok 1, back) := by
    obtain ⟨fee, hrun, hfee⟩ := @inputFee_run _ back (env (quote 2 0)) 1 (by decide)
    obtain rfl : fee = 1 := UInt64.toNat_inj.1 (hfee.trans (by decide))
    rw [swapFeeHint, run_bind_of_ok get_run, if_neg (by decide), run_bind_of_ok hspend, run_bind_of_ok hundo]
    exact hrun
  have hneeded : UInt64.checkedAdd 2 1 = some 3 := by decide
  have hspent : (callWallet (spend 3)).run (env (quote 2 0)) back = (.ok [coin 2 "b", coin 2 "a"], spent) :=
    spend_toy hboth (by decide) (by decide) (by decide) (by decide)
  obtain ⟨total, hsum, htotal⟩ :=
    @WalletEngine.sumAmounts_run _ (env (quote 2 0)) spent [coin 2 "b", coin 2 "a"] 0 (by decide)
  obtain rfl : total = 4 := UInt64.toNat_inj.1 htotal
  have hrun : (composeExact 2).run (env (quote 2 0)) e =
      (composeSwap 2 1 [coin 2 "b", coin 2 "a"]).run (env (quote 2 0)) spent := by
    rw [composeExact, run_bind_of_ok (failIf_pass (by decide)), run_bind_of_ok hhint, run_bind_of_ok (okOr_run hneeded),
      run_bind_of_ok hspent, run_bind_of_ok hsum, run_bind_of_ok (subU64_run (by decide)),
      run_bind_of_ok (subU64_run (by decide))]
    rfl
  have hsent : (onlySwap ((composeSwap 2 1 [coin 2 "b", coin 2 "a"]).run (env (quote 2 0)) spent).2.world.sent).map
      (fun r => (proofsValue r.inputs, outputsValue r.outputs, r.inputs.length)) = some (4, 3, 2) := by decide +kernel
  rcases hend : (composeSwap 2 1 [coin 2 "b", coin 2 "a"]).run (env (quote 2 0)) spent with ⟨o, t⟩
  rw [hend, Option.map_eq_some_iff] at hsent
  obtain ⟨r, honly, hvalues⟩ := hsent
  obtain ⟨hin, hout, hcount⟩ : proofsValue r.inputs = 4 ∧ outputsValue r.outputs = 3 ∧ r.inputs.length = 2 := by
    simpa using hvalues
  refine ⟨o, t, r, hrun.trans hend, ⟨[.swap r], eq_of_onlySwap honly, by simp⟩, hin, hout, hcount, ?_⟩
  rw [SwapBalanced, hin, hout, hcount]
  decide

end toy

end Micronuts
