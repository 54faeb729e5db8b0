import Micronuts.Mint.Calls

/-!
# Which swaps and melts go through

`SwapAccepted` and `MeltAccepted` say of a request, from the tables and the clock alone, that the checks of
`post_swap` and `post_melt` pass and the claim takes the inputs. A request that is not accepted leaves the mint
as it was; what becomes of an accepted one is decided by its outputs, or by the backend.
-/

namespace Micronuts
open MintM Exec
variable [Crypto] {env : Env} {w : World}

theorem succeeds_nowSecs {β : Type} {k : UInt64 → MintM β} : (nowSecs >>= k).Succeeds env w ↔
    (k (env.nowSecs w.asked)).Succeeds env { w with asked := w.asked + 1 } := Iff.rfl

theorem claimProofs_succeeds {proofs : List Proof} :
    (claimProofs proofs).Succeeds env w ↔ ∃ ys, Claims w.mint proofs ys := by
  have hclaim := @claimProofs_ends _ env w proofs
  constructor
  · intro h
    obtain ⟨-, t, -, ys, hys, -⟩ := hclaim.of_succeeds h
    exact ⟨ys, hys⟩
  · intro h
    rcases hrun : (claimProofs proofs).run env w with ⟨o, t⟩
    have ho := hclaim.elim hrun
    cases o with
    | ok a => exact ⟨a, t, hrun⟩
    | err e => exact absurd h ho.2
    | panic => exact ho.elim

/-! ### Swaps -/

structure SwapChecked (m : DemoMint) (now : UInt64) (request : SwapRequest) : Prop where
  conditions : verifySpendingConditions request.inputs (some request.outputs) none now = .ok ()
  balance : ∃ inputSum sum fee, m.verifyProofs request.inputs 0 = .ok inputSum ∧
    outputSum request.outputs = some sum ∧ m.keyset.inputFeeTotal request.inputs = .ok fee ∧
    UInt64.checkedAdd sum fee = some inputSum
  signable : m.keyset.checkOutputsSignable request.outputs = .ok ()

structure SwapAccepted (m : DemoMint) (now : UInt64) (request : SwapRequest) : Prop
    extends SwapChecked m now request where
  claims : ∃ ys, Claims m request.inputs ys

theorem swapChecks_succeeds {request : SwapRequest} :
    (swapChecks request).Succeeds env w ↔ SwapChecked w.mint (env.nowSecs w.asked) request := by
  unfold swapChecks
  simp only [succeeds_bind_get, succeeds_bind_lift, succeeds_nowSecs, succeeds_bind_okOr, succeeds_bind_failIf,
    succeeds_lift]
  constructor
  · rintro ⟨inputSum, hverify, ⟨⟩, hcond, sum, hsum, fee, hfee, required, hreq, hbal, ⟨⟩, hsign⟩
    obtain rfl := not_not.1 hbal
    exact ⟨hcond, ⟨inputSum, sum, fee, hverify, hsum, hfee, hreq⟩, hsign⟩
  · rintro ⟨hcond, ⟨inputSum, sum, fee, hverify, hsum, hfee, hreq⟩, hsign⟩
    exact ⟨inputSum, hverify, (), hcond, sum, hsum, fee, hfee, inputSum, hreq, not_not.2 rfl, (), hsign⟩

theorem swapClaim_succeeds {request : SwapRequest} :
    (swapClaim request).Succeeds env w ↔ SwapAccepted w.mint (env.nowSecs w.asked) request := by
  unfold swapClaim
  rw [succeeds_bind]
  constructor
  · rintro ⟨⟨⟩, t, hrun, hclaim⟩
    have hm := ((swapChecks_ends request).elim hrun).1
    rw [claimProofs_succeeds, hm] at hclaim
    exact ⟨swapChecks_succeeds.1 ⟨_, _, hrun⟩, hclaim⟩
  · rintro ⟨hchecked, hclaim⟩
    obtain ⟨⟨⟩, t, hrun, hm, -⟩ := (swapChecks_ends request).of_succeeds (swapChecks_succeeds.2 hchecked)
    exact ⟨(), t, hrun, claimProofs_succeeds.2 (hm ▸ hclaim)⟩

theorem exec_postSwap_refused {request : SwapRequest} (h : ¬ SwapAccepted w.mint (env.nowSecs w.asked) request) :
    (exec (.postSwap request)).Ends env w fun o t => (∃ e, o = .err e) ∧ t.mint = w.mint ∧ t.trace = w.trace := by
  refine Ends.bind_pure (Ends.bind ((swapClaim_ends request).and Ends.self) ?_ ?_ ?_)
  · rintro ⟨⟩ t ⟨-, hrun⟩
    exact absurd (swapClaim_succeeds.1 ⟨_, _, hrun⟩) h
  · rintro e t ⟨⟨htr, hm⟩, -⟩
    exact ⟨⟨e, rfl⟩, hm, htr⟩
  · rintro t ⟨⟨-, hno⟩, -⟩
    exact hno.elim

/-- Once its inputs are claimed a swap fails only on an output that cannot be signed, and keeps the claim. -/
theorem exec_postSwap_accepted {request : SwapRequest} (h : SwapAccepted w.mint (env.nowSecs w.asked) request) :
    (exec (.postSwap request)).Ends env w fun o t =>
      match o with
      | .ok _ => ∀ o ∈ request.outputs, w.mint.keyset.Signable o
      | .err _ => (∃ ys, Claims w.mint request.inputs ys ∧ t.mint.spentYs = (w.mint.spend ys).spentYs) ∧
          t.trace = w.trace ∧ (SignTotal w.mint.keyset → ∃ o ∈ request.outputs, ¬ w.mint.keyset.Signable o)
      | .panic => True := by
  obtain ⟨⟨⟩, t, hrun, htr, -, ys, hys, hm⟩ := (swapClaim_ends request).of_succeeds (swapClaim_succeeds.2 h)
  refine Ends.bind_pure (Ends.bind Ends.self ?_ ?_ ?_)
  · rintro ⟨⟩ t' hrun'
    rw [hrun] at hrun'; cases hrun'
    refine Ends.bind (signOutputs_ends request.outputs) ?_ ?_ fun _ _ => trivial
    · rintro sigs t' ⟨-, hsigned, -⟩
      rw [hm, DemoMint.spend_keyset] at hsigned
      exact bind_persist (fun n => Ends.pure hsigned.signable) trivial
    · rintro e t' ⟨htr', done, sigs, hstop, -, hm'⟩
      rw [hm, DemoMint.spend_keyset] at hstop
      rw [hm] at hm'
      exact ⟨⟨ys, hys, by rw [hm', DemoMint.record_spentYs]⟩, htr'.trans htr, hstop.not_all⟩
  · intro e t' hrun'
    rw [hrun] at hrun'; cases hrun'
  · intro t' _; trivial

/-! ### Melts -/

structure MeltChecked (m : DemoMint) (now : UInt64) (request : MeltRequest) (q : MeltQuoteEntry) : Prop where
  found : m.meltQuotes.lookup request.quote = some q
  unpaid : meltGate q.state = .ok ()
  conditions : verifySpendingConditions request.inputs request.outputs (some request.quote) now = .ok ()
  covers : ∃ inputSum fee required, m.verifyProofs request.inputs 0 = .ok inputSum ∧
    m.keyset.inputFeeTotal request.inputs = .ok fee ∧ meltRequired q.amount q.feeReserve fee = some required ∧
    required ≤ inputSum ∧
    ∀ outputs, request.outputs = some outputs → ∃ change, m.keyset.changeOutputs outputs inputSum required = .ok change

structure MeltAccepted (m : DemoMint) (now : UInt64) (request : MeltRequest) (q : MeltQuoteEntry) : Prop
    extends MeltChecked m now request q where
  claims : ∃ ys, Claims m request.inputs ys

theorem changeOutputs_total {ks : DemoKeyset} {outputs : Option (List BlindedMessage)} {inputSum required : UInt64} :
    (∃ change : Option (List BlindedMessage), (match outputs with
      | some outputs => (ks.changeOutputs outputs inputSum required).map some
      | none => Except.ok none) = .ok change) ↔
    ∀ outs, outputs = some outs → ∃ change, ks.changeOutputs outs inputSum required = .ok change := by
  cases outputs with
  | none => exact iff_of_true ⟨none, rfl⟩ fun _ h => by cases h
  | some outs =>
    simp only [Option.some.injEq, forall_eq']
    cases ks.changeOutputs outs inputSum required with
    | ok change => exact iff_of_true ⟨some change, rfl⟩ ⟨change, rfl⟩
    | error e => exact iff_of_false (by rintro ⟨_, h⟩; cases h) (by rintro ⟨_, h⟩; cases h)

theorem meltChecks_succeeds {request : MeltRequest} :
    (meltChecks request).Succeeds env w ↔ ∃ q, MeltChecked w.mint (env.nowSecs w.asked) request q := by
  unfold meltChecks
  simp only [succeeds_bind_get, succeeds_bind_lift, succeeds_nowSecs, succeeds_bind_okOr, succeeds_bind_failIf]
  constructor
  · rintro ⟨q, hq, ⟨⟩, hgate, inputSum, hverify, ⟨⟩, hcond, fee, hfee, required, hreq, hle, change, hchange, -⟩
    exact ⟨q, hq, hgate, hcond, inputSum, fee, required, hverify, hfee, hreq, UInt64.not_lt.1 hle,
      changeOutputs_total.1 ⟨change, hchange⟩⟩
  · rintro ⟨q, hq, hgate, hcond, inputSum, fee, required, hverify, hfee, hreq, hle, hchange⟩
    obtain ⟨change, hchange⟩ := changeOutputs_total.2 hchange
    exact ⟨q, hq, (), hgate, inputSum, hverify, (), hcond, fee, hfee, required, hreq, UInt64.not_lt.2 hle,
      change, hchange, succeeds_pure _⟩

/-- The claim fails on the requests that are not accepted, and on these only. -/
theorem meltClaim_verdict (request : MeltRequest) : (meltClaim request).Ends env w fun o _ =>
    match o with
    | .ok _ | .panic => ∃ q, MeltAccepted w.mint (env.nowSecs w.asked) request q
    | .err _ => ∀ q, ¬ MeltAccepted w.mint (env.nowSecs w.asked) request q := by
  refine Ends.bind ((meltChecks_ends request).and Ends.self) ?_ ?_ fun t ht => ht.1.2.2.elim
  · rintro plan t ⟨⟨hm, -, q, hpassed⟩, hrun⟩
    obtain ⟨q', hchecked⟩ := meltChecks_succeeds.1 ⟨_, _, hrun⟩
    refine Ends.bind (claimProofs_ends request.inputs) ?_ ?_ fun t' hno => hno.elim
    · rintro ⟨⟩ t' ⟨ys, hys, rfl⟩
      have haccepted : ∃ q, MeltAccepted w.mint (env.nowSecs w.asked) request q := ⟨q', hchecked, ys, hm ▸ hys⟩
      have hq : (t.mint.spend ys).meltQuotes.lookup request.quote = some q := by
        rw [DemoMint.spend_meltQuotes, hm]; exact hpassed.found
      refine Ends.bind (setMeltState_ends .pending hq) ?_ (fun e t' h => by cases h.1) fun t' h => by cases h.1
      rintro ⟨⟩ t' -
      exact bind_persist (fun n => Ends.pure haccepted) haccepted
    · rintro e t' ⟨rfl, hno⟩ q'' haccepted
      exact hno (hm ▸ haccepted.claims)
  · rintro e t ⟨-, hrun⟩ q haccepted
    obtain ⟨plan, t', hrun'⟩ := meltChecks_succeeds.2 ⟨q, haccepted.toMeltChecked⟩
    rw [hrun] at hrun'; cases hrun'

theorem exists_meltAccepted {request : MeltRequest} (h : ((meltClaim request).run env w).1.isOk = true) :
    ∃ q, MeltAccepted w.mint (env.nowSecs w.asked) request q := by
  have hverdict := @meltClaim_verdict _ env w request
  rcases hrun : (meltClaim request).run env w with ⟨o, t⟩
  rw [hrun] at h
  cases o with
  | ok plan => exact hverdict.elim hrun
  | err e => cases h
  | panic => cases h

theorem exec_postMelt_refused {request : MeltRequest}
    (h : ∀ q, ¬ MeltAccepted w.mint (env.nowSecs w.asked) request q) :
    (exec (.postMelt request)).Ends env w fun o t => (∃ e, o = .err e) ∧ t.mint = w.mint ∧ t.trace = w.trace := by
  refine Ends.bind_pure (Ends.bind ((meltClaim_ends request).and (meltClaim_verdict request)) ?_ ?_ ?_)
  · rintro plan t ⟨-, q, hq⟩
    exact absurd hq (h q)
  · rintro e t ⟨ht, -⟩
    exact ⟨⟨e, rfl⟩, ht⟩
  · rintro t ⟨-, q, hq⟩
    exact absurd hq (h q)

/-- An accepted melt whose payment succeeds keeps its inputs spent, and has saved that. -/
structure MeltKept (w : World) (request : MeltRequest) (t : World) : Prop where
  spent : ∃ ys, Claims w.mint request.inputs ys ∧ t.mint.spentYs = (w.mint.spend ys).spentYs
  saved : w.mint.store = true → (lastSaved t.trace).map MintStateSnapshot.spentYs = some t.mint.spentYs
  unsaved : w.mint.store = false → lastSaved t.trace = lastSaved w.trace

/-- An accepted melt whose payment fails has released its inputs, and has saved that. -/
structure MeltReleased (w : World) (request : MeltRequest) (q : MeltQuoteEntry) (t : World) : Prop where
  mint : t.mint = w.mint.putMeltQuote request.quote { q with state := .failed }
  saved : w.mint.store = true → lastSaved t.trace = some t.mint.snapshot
  unsaved : w.mint.store = false → lastSaved t.trace = lastSaved w.trace

/-- Once the inputs of a melt are claimed the answer of the backend decides. -/
theorem exec_postMelt_accepted {request : MeltRequest} {q : MeltQuoteEntry}
    (h : MeltAccepted w.mint (env.nowSecs w.asked) request q) :
    (exec (.postMelt request)).Ends env w fun o t => o = .panic ∨
      match env.payInvoice q.request q.amount with
      | .ok _ => MeltKept w request t ∧ (SignTotal w.mint.keyset → o.isOk = true)
      | .error _ => MeltReleased w request q t ∧ o = .err .paymentFailed := by
  refine Ends.bind_pure (Ends.bind ((meltClaim_ends request).and (meltClaim_verdict request)) ?_ ?_ fun _ _ => .inl rfl)
  · rintro plan t ⟨⟨q', ys, hpassed, hys, hm, htr⟩, -⟩
    obtain rfl : q' = q := by
      have hfound := hpassed.found
      rw [h.found] at hfound; cases hfound; rfl
    obtain ⟨m, tr, n⟩ := t
    obtain rfl : m = w.mint.meltPending request.quote q' ys := hm
    obtain rfl : tr = persisted (w.mint.meltPending request.quote q' ys) w.trace := htr
    have hfound : (w.mint.meltPending request.quote q' ys).meltQuotes.lookup request.quote =
      some { q' with state := .pending } := Finmap.lookup_insert _
    have hpending : w.mint.store = false → lastSaved (.payInvoice request plan.invoice plan.amount ::
        persisted (w.mint.meltPending request.quote q' ys) w.trace) = lastSaved w.trace := fun hst =>
      lastSaved_persisted_unstored (m := w.mint.meltPending request.quote q' ys) hst w.trace
    rw [← hpassed.invoice, ← hpassed.amount]
    refine bind_payInvoice ?_
    cases env.payInvoice plan.invoice plan.amount with
    | ok preimage =>
      show (meltPaid request plan preimage).Ends env _ _
      refine Ends.mono (meltPaid_ends plan preimage hfound) fun o t' ht' => ?_
      cases o with
      | ok r =>
        obtain ⟨change, -, -, hm', htr'⟩ := ht'
        have hspent : t'.mint.spentYs = (w.mint.spend ys).spentYs := by
          rw [hm', DemoMint.putMeltQuote_spentYs, DemoMint.record_spentYs]; rfl
        have hstore : t'.mint.store = w.mint.store := by
          rw [hm', DemoMint.putMeltQuote_store, DemoMint.record_store]; rfl
        refine .inr ⟨⟨⟨ys, hys, hspent⟩, fun hst => ?_, fun hst => ?_⟩, fun _ => rfl⟩
        · rw [htr', lastSaved_persisted (hstore.trans hst)]; rfl
        · rw [htr', lastSaved_persisted_unstored (hstore.trans hst)]; exact hpending hst
      | err e =>
        obtain ⟨htr', done, sigs, hstop, -, hm'⟩ := ht'
        have hspent : t'.mint.spentYs = (w.mint.spend ys).spentYs := by rw [hm', DemoMint.record_spentYs]; rfl
        refine .inr ⟨⟨⟨ys, hys, hspent⟩, fun hst => ?_, fun hst => ?_⟩, fun htotal => ?_⟩
        · rw [htr', hspent]; exact congrArg _ (lastSaved_persisted (m := w.mint.meltPending request.quote q' ys) hst w.trace)
        · rw [htr']; exact hpending hst
        · obtain ⟨o, ho, hno⟩ := hstop.not_all htotal
          exact absurd (hpassed.signable o ho) hno
      | panic => exact .inl rfl
    | error err =>
      show (meltFailed request).Ends env _ _
      refine Ends.mono (meltFailed_ends hfound) fun o t' ht' => ?_
      cases o with
      | ok r => exact ht'.elim
      | err e =>
        obtain ⟨rfl, hm', htr'⟩ := ht'
        have hmint := hm'.trans (meltFailed_mint hys)
        have hstore : t'.mint.store = w.mint.store := by rw [hmint]; rfl
        refine .inr ⟨⟨hmint, fun hst => ?_, fun hst => ?_⟩, rfl⟩
        · rw [htr', lastSaved_persisted (hstore.trans hst)]
        · rw [htr', lastSaved_persisted_unstored (hstore.trans hst)]; exact hpending hst
      | panic => exact .inl rfl
  · rintro e t ⟨-, hno⟩
    exact absurd h (hno q)

end Micronuts
