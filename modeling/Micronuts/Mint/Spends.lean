import Micronuts.Mint.Inputs
import Micronuts.Mint.Outputs

/-!
# Spending: swaps and melts

What a swap or a melt knows once its checks have passed (`SwapPassed`, `MeltPassed`), what its claim
does to the mint, and how the two answers of the backend end a melt.
-/

namespace Micronuts
open MintM Exec
variable [Crypto] {env : Env} {w : World}

/-! ### Swaps -/

structure SwapPassed (m : DemoMint) (request : SwapRequest) : Prop where
  verified : ∀ p ∈ request.inputs, m.verifyProof p = .ok ()
  conditions : ∃ now, verifySpendingConditions request.inputs (some request.outputs) none now = .ok ()
  balance : ∃ fee, m.keyset.inputFeeTotal request.inputs = .ok fee ∧
    proofsValue request.inputs = outputsValue request.outputs + fee.toNat
  signable : m.keyset.checkOutputsSignable request.outputs = .ok ()

theorem swapChecks_ends (request : SwapRequest) : (swapChecks request).Ends env w fun o t =>
    t.mint = w.mint ∧ t.trace = w.trace ∧
      match o with
      | .ok _ => SwapPassed w.mint request
      | .err _ => True
      | .panic => False := by
  have herr : ∀ n, ({ w with asked := n } : World).mint = w.mint ∧ ({ w with asked := n } : World).trace = w.trace ∧ True :=
    fun _ => ⟨rfl, rfl, trivial⟩
  refine Ends.bind_get (Ends.bind_lift (fun inputSum hverify => ?_) fun _ _ => herr _)
  refine bind_nowSecs fun now => ?_
  refine Ends.bind_lift (fun _ hcond => ?_) fun _ _ => herr _
  refine Ends.bind_okOr (fun sum hsum => ?_) fun _ => herr _
  refine Ends.bind_lift (fun fee hfee => ?_) fun _ _ => herr _
  refine Ends.bind_okOr (fun required hreq => ?_) fun _ => herr _
  refine Ends.bind_failIf (fun hbal => ?_) fun _ => herr _
  obtain ⟨hin, hverified⟩ := DemoMint.verifyProofs_ok hverify
  have hsum := outputSum_eq_some hsum
  have hreq := UInt64.checkedAdd_eq_some.1 hreq
  rw [← not_not.1 hbal, hin, hsum] at hreq
  refine Ends.of_lift (fun _ hcheck => ?_) fun _ _ => herr _
  exact ⟨rfl, rfl, hverified, ⟨now, hcond⟩, ⟨fee, hfee, (Nat.zero_add _).symm.trans hreq⟩, hcheck⟩

/-- The inputs are claimed, or nothing has happened. -/
theorem swapClaim_ends (request : SwapRequest) : (swapClaim request).Ends env w fun o t =>
    t.trace = w.trace ∧
      match o with
      | .ok _ => SwapPassed w.mint request ∧ ∃ ys, Claims w.mint request.inputs ys ∧ t.mint = w.mint.spend ys
      | .err _ => t.mint = w.mint
      | .panic => False := by
  refine Ends.bind (swapChecks_ends request) ?_ (fun e t h => ⟨h.2.1, h.1⟩) fun t h => h.2.2.elim
  rintro ⟨⟩ t ⟨hm, htr, hpassed⟩
  refine (claimProofs_ends request.inputs).mono fun o t' h => ?_
  cases o with
  | ok u =>
    obtain ⟨ys, hys, rfl⟩ := h
    rw [hm] at hys
    exact ⟨htr, hpassed, ys, hys, by rw [hm]⟩
  | err e => obtain ⟨rfl, -⟩ := h; exact ⟨htr, hm⟩
  | panic => exact h.elim

/-! ### Melts up to the payment -/

/-- The change outputs that are signed: the imprinted ones. -/
def MeltPlan.filled (plan : MeltPlan) : List BlindedMessage :=
  (plan.changeOutputs.getD []).filter fun o => 0 < o.amount

structure MeltPassed (m : DemoMint) (request : MeltRequest) (q : MeltQuoteEntry) (plan : MeltPlan) : Prop where
  found : m.meltQuotes.lookup request.quote = some q
  unpaid : q.state = .unpaid
  verified : ∀ p ∈ request.inputs, m.verifyProof p = .ok ()
  conditions : ∃ now, verifySpendingConditions request.inputs request.outputs (some request.quote) now = .ok ()
  amount : plan.amount = q.amount
  invoice : plan.invoice = q.request
  covers : ∃ fee, m.keyset.inputFeeTotal request.inputs = .ok fee ∧
    q.amount.toNat + q.feeReserve.toNat + fee.toNat + outputsValue plan.filled ≤ proofsValue request.inputs
  signable : ∀ o ∈ plan.filled, m.keyset.Signable o

omit [Crypto] in
theorem meltRequired_eq_some {amount feeReserve fee required : UInt64}
    (h : meltRequired amount feeReserve fee = some required) :
    required.toNat = amount.toNat + feeReserve.toNat + fee.toNat := by
  obtain ⟨v, hv, h⟩ := Option.bind_eq_some_iff.1 h
  rw [UInt64.checkedAdd_eq_some.1 h, UInt64.checkedAdd_eq_some.1 hv]

theorem outputsValue_filter_le (outputs : List BlindedMessage) (p : BlindedMessage → Bool) :
    outputsValue (outputs.filter p) ≤ outputsValue outputs := by
  induction outputs with
  | nil => exact Nat.le_refl _
  | cons o outputs ih =>
    rw [List.filter_cons]
    split <;> simp only [outputsValue_cons] <;> omega

/-- The planned change fits in what the inputs leave, and can be signed. -/
theorem changeFilled_ok {ks : DemoKeyset} {outputs : Option (List BlindedMessage)} {inputSum required : UInt64}
    {change : Option (List BlindedMessage)} (amount : UInt64) (invoice : String) (hle : required ≤ inputSum)
    (h : (match outputs with
      | some outputs => (ks.changeOutputs outputs inputSum required).map some
      | none => .ok none) = .ok change) :
    outputsValue (MeltPlan.filled ⟨amount, invoice, change⟩) + required.toNat ≤ inputSum.toNat ∧
      ∀ o ∈ MeltPlan.filled ⟨amount, invoice, change⟩, ks.Signable o := by
  cases outputs with
  | none =>
    cases h
    rw [UInt64.le_iff_toNat_le] at hle
    exact ⟨by simpa [MeltPlan.filled, outputsValue] using hle, by simp [MeltPlan.filled]⟩
  | some outputs =>
    cases hc : ks.changeOutputs outputs inputSum required with
    | error e => simp only [hc] at h; cases h
    | ok outs =>
      simp only [hc] at h; cases h
      obtain ⟨hval, hsign⟩ := changeOutputs_ok hc
      have := outputsValue_filter_le outs fun o => decide (0 < o.amount)
      refine ⟨?_, fun o ho => ?_⟩
      · show outputsValue (outs.filter _) + _ ≤ _; omega
      · obtain ⟨ho, hpos⟩ := List.mem_filter.1 (show o ∈ outs.filter _ from ho)
        refine hsign o ho fun h0 => ?_
        rw [h0] at hpos; cases hpos

theorem meltChecks_ends (request : MeltRequest) : (meltChecks request).Ends env w fun o t =>
    t.mint = w.mint ∧ t.trace = w.trace ∧
      match o with
      | .ok plan => ∃ q, MeltPassed w.mint request q plan
      | .err _ => True
      | .panic => False := by
  have herr : ∀ n, ({ w with asked := n } : World).mint = w.mint ∧ ({ w with asked := n } : World).trace = w.trace ∧ True :=
    fun _ => ⟨rfl, rfl, trivial⟩
  refine Ends.bind_get (Ends.bind_okOr (fun q hq => ?_) fun _ => herr _)
  refine Ends.bind_lift (fun _ hgate => ?_) fun _ _ => herr _
  refine Ends.bind_lift (fun inputSum hverify => ?_) fun _ _ => herr _
  refine bind_nowSecs fun now => ?_
  refine Ends.bind_lift (fun _ hcond => ?_) fun _ _ => herr _
  refine Ends.bind_lift (fun fee hfee => ?_) fun _ _ => herr _
  refine Ends.bind_okOr (fun required hreq => ?_) fun _ => herr _
  refine Ends.bind_failIf (fun hle => ?_) fun _ => herr _
  refine Ends.bind_lift (fun change hchange => ?_) fun _ _ => herr _
  have hle : required ≤ inputSum := by
    rw [UInt64.lt_iff_toNat_lt] at hle; rw [UInt64.le_iff_toNat_le]; omega
  obtain ⟨hin, hverified⟩ := DemoMint.verifyProofs_ok hverify
  obtain ⟨hval, hsign⟩ := changeFilled_ok q.amount q.request hle hchange
  have hin : inputSum.toNat = proofsValue request.inputs := hin.trans (Nat.zero_add _)
  rw [meltRequired_eq_some hreq, hin] at hval
  have hunpaid : q.state = .unpaid := by
    cases hs : q.state <;> rw [hs] at hgate <;> cases hgate
  exact Ends.pure ⟨rfl, rfl, q, hq, hunpaid, hverified, ⟨now, hcond⟩, rfl, rfl,
    ⟨fee, hfee, by rw [Nat.add_comm]; exact hval⟩, hsign⟩

theorem setMeltState_ends {quoteId : String} {q : MeltQuoteEntry} (state : MeltQuoteState)
    (hq : w.mint.meltQuotes.lookup quoteId = some q) : (setMeltState quoteId state).Ends env w fun o t =>
      o = .ok () ∧ t = { w with mint := w.mint.putMeltQuote quoteId { q with state } } := by
  refine Ends.bind_get (Ends.bind_okOr (fun q' hq' => ?_) fun hnone => ?_)
  · rw [hq] at hq'; cases hq'
    exact ⟨rfl, rfl⟩
  · rw [hq] at hnone; cases hnone

/-- The mint while the payment is in flight. -/
def DemoMint.meltPending (m : DemoMint) (quoteId : String) (q : MeltQuoteEntry) (ys : List String) : DemoMint :=
  (m.spend ys).putMeltQuote quoteId { q with state := .pending }

/-- The inputs are claimed, the quote is pending and both are saved, or nothing has happened. -/
theorem meltClaim_ends (request : MeltRequest) : (meltClaim request).Ends env w fun o t =>
    match o with
    | .ok plan => ∃ q ys, MeltPassed w.mint request q plan ∧ Claims w.mint request.inputs ys ∧
        t.mint = w.mint.meltPending request.quote q ys ∧ t.trace = persisted t.mint w.trace
    | .err _ => t.mint = w.mint ∧ t.trace = w.trace
    | .panic => t.trace = w.trace := by
  refine Ends.bind (meltChecks_ends request) ?_ (fun e t h => ⟨h.1, h.2.1⟩) fun t h => h.2.2.elim
  rintro plan t ⟨hm, htr, q, hpassed⟩
  refine Ends.bind (claimProofs_ends request.inputs) ?_ ?_ fun t' h => h.elim
  · rintro ⟨⟩ t' ⟨ys, hys, rfl⟩
    rw [hm] at hys
    have hq : (t.mint.spend ys).meltQuotes.lookup request.quote = some q := by
      rw [DemoMint.spend_meltQuotes, hm]; exact hpassed.found
    refine Ends.bind (setMeltState_ends .pending hq) ?_ (fun e t' h => by cases h.1) fun t' h => by cases h.1
    rintro ⟨⟩ t' ⟨-, rfl⟩
    refine bind_persist (fun n => Ends.pure ⟨q, ys, hpassed, hys, ?_, ?_⟩) htr
    · dsimp only; rw [hm]; rfl
    · dsimp only; rw [htr]
  · rintro e t' ⟨rfl, -⟩; exact ⟨hm, htr⟩

/-! ### Melts after the payment -/

theorem signChange_ends (plan : MeltPlan) : (signChange plan.changeOutputs).Ends env w fun o t =>
    t.trace = w.trace ∧
      match o with
      | .ok change => Signed w.mint.keyset plan.filled (change.getD []) ∧
          t.mint = w.mint.record plan.filled (change.getD [])
      | .err _ => ∃ done sigs, SignStops w.mint.keyset plan.filled done ∧ Signed w.mint.keyset done sigs ∧
          t.mint = w.mint.record done sigs
      | .panic => False := by
  obtain ⟨amount, invoice, change⟩ := plan
  unfold MeltPlan.filled
  cases change with
  | none => exact Ends.pure ⟨rfl, .nil, rfl⟩
  | some outputs =>
    simp only [signChange, Option.getD_some]
    split
    · next h => rw [h]; exact Ends.pure ⟨rfl, .nil, rfl⟩
    · refine Ends.bind_pure ((signOutputs_ends _).mono fun o t ht => ?_)
      cases o <;> exact ht

/-- The response of a paid melt. -/
def meltResponse (request : MeltRequest) (q : MeltQuoteEntry) (preimage : String)
    (change : Option (List BlindSignature)) : MeltResponse where
  paid := true
  state := .paid
  paymentPreimage := some preimage
  change
  quote := request.quote
  amount := q.amount
  feeReserve := q.feeReserve
  unit := q.unit
  expiry := q.expiry
  request := q.request
  method := "bolt11"

theorem meltPaid_ends {request : MeltRequest} {q : MeltQuoteEntry} (plan : MeltPlan) (preimage : String)
    (hq : w.mint.meltQuotes.lookup request.quote = some q) : (meltPaid request plan preimage).Ends env w fun o t =>
      match o with
      | .ok r => ∃ change, r = meltResponse request q preimage change ∧
          Signed w.mint.keyset plan.filled (change.getD []) ∧
          t.mint = (w.mint.record plan.filled (change.getD [])).putMeltQuote request.quote { q with state := .paid } ∧
          t.trace = persisted t.mint w.trace
      | .err _ => t.trace = w.trace ∧ ∃ done sigs, SignStops w.mint.keyset plan.filled done ∧
          Signed w.mint.keyset done sigs ∧ t.mint = w.mint.record done sigs
      | .panic => t.trace = w.trace ∧ ∃ sigs, Signed w.mint.keyset plan.filled sigs := by
  refine Ends.bind (signChange_ends plan) ?_ (fun e t h => h) fun t h => h.2.elim
  rintro change t ⟨htr, hsigned, hm⟩
  have hq' : t.mint.meltQuotes.lookup request.quote = some q := by rw [hm, DemoMint.record_meltQuotes, hq]
  refine Ends.bind (setMeltState_ends .paid hq') ?_ (fun e t' h => by cases h.1) fun t' h => by cases h.1
  rintro ⟨⟩ t' ⟨-, rfl⟩
  refine bind_persist (fun n => Ends.bind_get (Ends.bind_okOr (fun q' hq' => ?_) fun hnone => ?_)) ⟨htr, _, hsigned⟩
  · rw [DemoMint.putMeltQuote_meltQuotes, Finmap.lookup_insert] at hq'; cases hq'
    exact Ends.pure ⟨change, rfl, hsigned, by rw [hm], by rw [htr]⟩
  · rw [DemoMint.putMeltQuote_meltQuotes, Finmap.lookup_insert] at hnone; cases hnone

theorem meltFailed_ends {request : MeltRequest} {q : MeltQuoteEntry}
    (hq : w.mint.meltQuotes.lookup request.quote = some q) : (meltFailed request).Ends env w fun o t =>
      match o with
      | .ok _ => False
      | .err e => e = .paymentFailed ∧
          t.mint = { w.mint with
            spentYs := request.inputs.foldl releaseY w.mint.spentYs
            meltQuotes := w.mint.meltQuotes.insert request.quote { q with state := .failed } } ∧
          t.trace = persisted t.mint w.trace
      | .panic => t.trace = w.trace := by
  refine bind_modifyMint ?_
  refine Ends.bind (setMeltState_ends .failed hq) ?_ (fun e t' h => by cases h.1) fun t' h => by cases h.1
  rintro ⟨⟩ t' ⟨-, rfl⟩
  exact bind_persist (fun n => Ends.fail ⟨rfl, rfl, rfl⟩) rfl

end Micronuts
