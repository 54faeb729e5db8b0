import Micronuts.Wallet.Credits
import Micronuts.Wallet.Melts

/-!
# What a melt does to the funds

A melt spends the balance before it knows that the balance is enough, and spreads what is over in coins of the target's
lowest denomination. So it keeps the funds of a wallet that can pay; a balance just below what is needed is gone when the
subtraction fails, and with nothing to pay the spreading does not end.
-/

namespace Micronuts
open WalletM Exec

section
variable [Crypto]

namespace WalletEngine

/-- The balance does not cover the target and the fee of the swap before it. -/
def MeltShort (e : WalletEngine) (quote : MeltQuoteResponse) : Prop :=
  proofsValue e.proofs < meltTarget e.feePpk quote + e.sweepFee

/-- What a melt promises about the funds, with its swap as the call `n`: it returns, it fails without a trace when the
balance is short, and it puts everything back when the mint rejects the swap. -/
structure MeltKeepsFunds {α : Type} (env : EngineEnv) (n : Nat) (e : WalletEngine) (quote : MeltQuoteResponse)
    (o : Outcome CashuError (Option α)) (t : WalletEngine) : Prop where
  returns : o ≠ .ok none
  short : e.MeltShort quote → (∃ err, o = .err err) ∧ t.proofs = e.proofs ∧ t.world.blob = e.world.blob
  rejected : ∀ request err, NewRequest e t (.swap request) → (env.wallet n).postSwap request = .error err →
    (∃ err, o = .err err) ∧ t.proofs.Perm e.proofs ∧ t.world.stored.Perm e.proofs

/-- The quote is too large to add up, or the wallet is empty, or it can pay: and then either something is to be paid or
nothing is over to be spread as change. -/
def MeltPayable (e : WalletEngine) (quote : MeltQuoteResponse) : Prop :=
  2 ^ 64 ≤ meltTarget e.feePpk quote ∨ proofsValue e.proofs = 0 ∨
    (¬ e.MeltShort quote ∧ (meltTarget e.feePpk quote ≠ 0 ∨ proofsValue e.proofs = e.sweepFee))

section
variable {env : EngineEnv} {e : WalletEngine} {quote : MeltQuoteResponse}

theorem MeltKeepsFunds.unchanged {α : Type} {n : Nat} {err : CashuError} {t : WalletEngine} (h : t.world = e.world) :
    MeltKeepsFunds env n e quote (.err err : Outcome CashuError (Option α)) t where
  returns := by simp
  short := fun _ => ⟨⟨err, rfl⟩, congrArg (fun w => w.wallet.proofs) h, congrArg WalletWorld.blob h⟩
  rejected := fun _ _ hnew => absurd hnew (not_newRequest (congrArg WalletWorld.sent h))

variable [Curve]

/-- The swap lands, or everything goes back. -/
theorem meltPrepared_keeps {meltFee target : UInt64} {known : List String} {change : List UInt64} (hstore : StoreSaves env)
    (hvalue : proofsValue e.proofs < 2 ^ 64) (henough : ¬ e.MeltShort quote)
    (hsum : ((decomposeAmount target ++ change).map UInt64.toNat).sum < 2 ^ 64) :
    (meltPrepared quote meltFee target known e.everything (some change)).Ends env e.swept
      (MeltKeepsFunds env e.swept.calls e quote) := by
  refine Ends.bind_get (bind_attemptSwap hstore (fun derived fresh hlands => ?_) (fun x w _ hlost => ?_) fun _ => ?_)
  · have hfresh : proofsValue (e.swept.proofs ++ fresh) < 2 ^ 64 := by
      rw [proofsValue_append, swept_value hvalue, hlands.value, Nat.zero_add]
      exact hsum
    refine (meltComposed_sends (by rwa [swapped_proofs])).mono fun o t h =>
      ⟨h.1, fun hshort => absurd hshort henough, fun request err hnew herr => ?_⟩
    obtain ⟨response, hanswer, -⟩ := hlands.answered
    have hswap := newSwap_eq (h.2.imp id fun ⟨_, _, _, hmelt⟩ => ⟨_, hmelt⟩) hnew
    rw [hswap] at herr
    cases herr.symm.trans hanswer
  · refine Ends.bind_run (attempt_run_ok (callWallet_run (undoSpend_run (hstore _) _))) (Ends.fail ?_)
    have hperm : (w.wallet.proofs ++ e.everything).Perm e.proofs := by
      rw [hlost.proofs]
      exact everything_perm hvalue
    exact ⟨by simp, fun hshort => absurd hshort henough, fun _ _ _ _ => ⟨⟨x, rfl⟩, hperm, hperm⟩⟩
  · exact ⟨by simp, fun hshort => absurd hshort henough, fun _ _ hnew => absurd hnew (not_newRequest rfl)⟩

theorem meltQuoted_keeps (hfits : MeltFits e quote) (hstore : StoreSaves env) (hpayable : e.MeltPayable quote) :
    (meltQuoted quote).Ends env e (MeltKeepsFunds env (e.calls + 1) e quote) := by
  rcases Nat.lt_or_ge (meltTarget e.feePpk quote) (2 ^ 64) with hlt | hge
  · rcases Nat.eq_zero_or_pos (proofsValue e.proofs) with hempty | hpos
    · exact Ends.of_run (meltQuoted_empty hfits hlt hempty) (.unchanged rfl)
    · obtain ⟨henough, hspread⟩ := (hpayable.resolve_left (by omega)).resolve_left (by omega)
      obtain ⟨meltFee, target, rest, htarget, -, hrest, hrun⟩ :=
        meltQuoted_prepared hfits hstore hlt hpos (not_lt.1 henough)
      have hchange : target ≠ 0 ∨ rest = 0 := by
        simp only [ne_eq, ← UInt64.toNat_inj, UInt64.toNat_zero]
        omega
      obtain ⟨change, hcapped, hsum, -⟩ := meltChange hchange
      have hfits' := hfits.value
      unfold Ends
      rw [hrun, hcapped]
      exact meltPrepared_keeps hstore hfits.value henough (by omega)
  · exact Ends.of_run (meltQuoted_unpayable hfits hge) (.unchanged rfl)

/-- Under overflow checks no other melt does. -/
theorem payable_of_keeps {n : Nat} (hfits : MeltFits e quote) (hstore : StoreSaves env) (hchecks : env.overflowChecks = true)
    (h : (meltQuoted quote).Ends env e (MeltKeepsFunds env n e quote)) : e.MeltPayable quote := by
  by_contra hnot
  simp only [MeltPayable, not_or, not_and] at hnot
  obtain ⟨hlt, hpos, hnot⟩ := hnot
  by_cases hshort : e.MeltShort quote
  · have hkeeps := h.elim (meltQuoted_short hfits hstore hchecks (by omega) (by omega) hshort)
    obtain ⟨⟨err, herr⟩, -⟩ := hkeeps.short hshort
    cases herr
  · obtain ⟨htarget0, hover⟩ := hnot hshort
    rw [not_not] at htarget0
    obtain ⟨meltFee, target, rest, htarget, -, hrest, hrun⟩ :=
      meltQuoted_prepared hfits hstore (by omega) (by omega) (not_lt.1 hshort)
    obtain rfl : target = 0 := UInt64.toNat_inj.1 (htarget.trans htarget0)
    have hne : rest ≠ 0 := by
      rintro rfl
      rw [UInt64.toNat_zero] at hrest
      omega
    have hstuck : decomposeCapped rest (isolateLowestOne 0) = none := cappedRounds_zero hne
    rw [hstuck] at hrun
    exact (h.elim hrun).returns rfl

end

variable [Curve]

/-- A melt keeps the funds when it is payable, and under overflow checks not otherwise. -/
theorem melt_keeps_funds {env : EngineEnv} {e t : WalletEngine} {invoice : String} {amount : Option UInt64}
    {quote : MeltQuoteResponse} {o : Outcome CashuError (Option (MeltQuoteResponse × MeltOutcome))}
    (hconnected : e.keysetId ≠ "") (hquote : env.postMeltQuote e.calls ⟨invoice, e.unit, amount⟩ = .ok quote)
    (hstore : StoreSaves env) (hfits : MeltFits e quote) (hrun : (meltWith invoice amount).run env e = (o, t)) :
    (e.MeltPayable quote → MeltKeepsFunds env (e.calls + 2) e quote o t) ∧
      (env.overflowChecks = true → MeltKeepsFunds env (e.calls + 2) e quote o t → e.MeltPayable quote) := by
  have hmelt : (meltQuoted quote).run env (e.after e.world) = (o, t) := by
    have hask := @ask_run _ env e _ (fun env n => env.postMeltQuote n ⟨invoice, e.unit, amount⟩) _ hquote
    rw [meltWith, run_bind_of_ok (ensureConnected_run hconnected), run_bind_of_ok get_run, run_bind_of_ok hask] at hrun
    exact hrun
  have hfits' : MeltFits (e.after e.world) quote := ⟨hfits.value, hfits.coins, hfits.swept⟩
  have hpayable : (e.after e.world).MeltPayable quote ↔ e.MeltPayable quote := Iff.rfl
  have hkeeps : MeltKeepsFunds env (e.calls + 2) (e.after e.world) quote o t ↔
      MeltKeepsFunds env (e.calls + 2) e quote o t :=
    ⟨fun h => ⟨h.returns, h.short, h.rejected⟩, fun h => ⟨h.returns, h.short, h.rejected⟩⟩
  rw [← hpayable, ← hkeeps]
  constructor
  · intro h
    exact (meltQuoted_keeps hfits' hstore h).elim hmelt
  · intro hchecks h
    exact payable_of_keeps hfits' hstore hchecks (Ends.of_run hmelt h)

end WalletEngine

end

section toy
open Toy32 ToyEngine WalletEngine

/-- A coin of four pays a quote of four. -/
theorem melt_keeps_funds_toy : ∃ o t, (meltWith "lnbc" none).run (env (quote 4 0)) (holding 0 [coin 4 "a"]) = (o, t) ∧
    MeltKeepsFunds (env (quote 4 0)) 2 (holding 0 [coin 4 "a"]) (quote 4 0) o t := by
  have hfits : MeltFits (holding 0 [coin 4 "a"]) (quote 4 0) := ⟨by decide, by decide, by decide⟩
  have hpayable : MeltPayable (holding 0 [coin 4 "a"]) (quote 4 0) :=
    .inr (.inr ⟨by unfold MeltShort; decide, .inl (by decide)⟩)
  have hconnected : (holding 0 [coin 4 "a"]).keysetId ≠ "" := by decide
  rcases hrun : (meltWith "lnbc" none).run (env (quote 4 0)) (holding 0 [coin 4 "a"]) with ⟨o, t⟩
  exact ⟨o, t, rfl, (melt_keeps_funds hconnected rfl (fun _ _ => rfl) hfits hrun).1 hpayable⟩

/-- With a reserve of one on top the coin is spent, in the store as well, before the subtraction panics; and a quote of
nothing is never done with. -/
theorem melt_loses_funds :
    (∃ t, (meltWith "lnbc" none).run (env (quote 4 1)) (holding 0 [coin 4 "a"]) = (.panic, t) ∧ t.proofs = [] ∧
      t.world.stored = [] ∧ ¬ MeltKeepsFunds (α := MeltQuoteResponse × MeltOutcome) (env (quote 4 1)) 2
        (holding 0 [coin 4 "a"]) (quote 4 1) .panic t) ∧
    ∃ t, (meltWith "lnbc" none).run (env (quote 0 0)) (holding 0 [coin 4 "a"]) = (.ok none, t) ∧
      ¬ MeltKeepsFunds (α := MeltQuoteResponse × MeltOutcome) (env (quote 0 0)) 2
        (holding 0 [coin 4 "a"]) (quote 0 0) (.ok none) t := by
  constructor
  · have hpanic : ((meltWith "lnbc" none).run (env (quote 4 1)) (holding 0 [coin 4 "a"])).1 = .panic := by decide +kernel
    have hspent : ((meltWith "lnbc" none).run (env (quote 4 1)) (holding 0 [coin 4 "a"])).2.proofs = [] := by decide +kernel
    have hstored : ((meltWith "lnbc" none).run (env (quote 4 1)) (holding 0 [coin 4 "a"])).2.world.stored = [] := by
      decide +kernel
    refine ⟨_, Prod.ext hpanic rfl, hspent, hstored, fun h => ?_⟩
    obtain ⟨⟨err, herr⟩, -⟩ := h.short (by unfold MeltShort; decide)
    cases herr
  · have hstuck : ((meltWith "lnbc" none).run (env (quote 0 0)) (holding 0 [coin 4 "a"])).1 = .ok none := by decide +kernel
    exact ⟨_, Prod.ext hstuck rfl, fun h => h.returns rfl⟩

end toy

end Micronuts
