import Micronuts.Mint.Quotes
import Micronuts.Mint.Spends

/-!
# What one call can do

`exec` runs any call of the mint. `CallEnds` lists the ways it ends, with all that is known there:
the invariants of the mint are case analyses of it. A call that is stopped by a failed save leaves a
trace that is cut short (`Finishes`). `Settles` is the part that the quote calls share: the
unpaid quotes that were found paid on the way.
-/

namespace Micronuts
open MintM Exec
variable [Crypto]

inductive Call
  | postMintQuote (request : MintQuoteRequest)
  | getMintQuote (quoteId : String)
  | batchCheckMintQuotes (request : BatchCheckMintQuoteRequest)
  | postMint (request : MintRequest)
  | batchMint (request : BatchMintRequest)
  | postMeltQuote (request : MeltQuoteRequest)
  | getMeltQuote (quoteId : String)
  | postMelt (request : MeltRequest)
  | postSwap (request : SwapRequest)
  | postRestore (request : RestoreRequest)

inductive Response
  | mintQuote (r : MintQuoteResponse)
  | mintQuotes (rs : List MintQuoteResponse)
  | minted (r : MintResponse)
  | meltQuote (r : MeltQuoteResponse)
  | melted (r : MeltResponse)
  | swapped (r : SwapResponse)
  | restored (r : RestoreResponse)
deriving DecidableEq

def exec : Call → MintM Response
  | .postMintQuote request => do
    let r ← postMintQuote request
    pure (.mintQuote r)
  | .getMintQuote quoteId => do
    let r ← getMintQuote quoteId
    pure (.mintQuote r)
  | .batchCheckMintQuotes request => do
    let rs ← batchCheckMintQuotes request
    pure (.mintQuotes rs)
  | .postMint request => do
    let r ← postMint request
    pure (.minted r)
  | .batchMint request => do
    let r ← batchMint request
    pure (.minted r)
  | .postMeltQuote request => do
    let r ← postMeltQuote request
    pure (.meltQuote r)
  | .getMeltQuote quoteId => do
    let w ← Exec.get
    let r ← Exec.lift (w.mint.getMeltQuote quoteId)
    pure (.meltQuote r)
  | .postMelt request => do
    let r ← postMelt request
    pure (.melted r)
  | .postSwap request => do
    let r ← postSwap request
    pure (.swapped r)
  | .postRestore request => do
    let w ← Exec.get
    pure (.restored (w.mint.postRestore request))

/-- Calls that answer from the quote tables. -/
def Call.Looks : Call → Prop
  | .getMintQuote _ | .batchCheckMintQuotes _ | .getMeltQuote _ => True
  | _ => False

/-! ### The ways a call ends -/

/-- How a call on `w` ends: with an outcome, a mint and a trace. -/
inductive CallEnds (env : Env) (w : World) :
    Call → Outcome CashuError Response → DemoMint → List Event → Prop
  | refused {c e m tr} (settled : Settles w.mint w.trace m tr) : CallEnds env w c (.err e) m tr
  | looked {c r m tr} (looks : c.Looks) (settled : Settles w.mint w.trace m tr) : CallEnds env w c (.ok r) m tr
  | restored (request : RestoreRequest) :
      CallEnds env w (.postRestore request) (.ok (.restored (w.mint.postRestore request))) w.mint w.trace
  | mintQuoteCreated (request : MintQuoteRequest) (invoice : String) (expiry now : UInt64)
      (positive : request.amount ≠ 0) {e : MintQuoteEntry} (new : e = newMintQuote request invoice expiry now)
      {m : DemoMint}
      (mint_eq : m = w.mint.putMintQuote env.nowV7 e) :
      CallEnds env w (.postMintQuote request) (.ok (.mintQuote (mintQuoteResponse env.nowV7 e))) m (persisted m w.trace)
  | meltQuoteCreated (request : MeltQuoteRequest) {q : MeltQuoteEntry} (unpaid : q.state = .unpaid) {m : DemoMint}
      (mint_eq : m = w.mint.putMeltQuote env.nowV7 q) :
      CallEnds env w (.postMeltQuote request) (.ok (.meltQuote (meltQuoteResponse env.nowV7 q))) m (persisted m w.trace)
  | minted (request : MintRequest) {m : DemoMint} {tr : List Event} {e : MintQuoteEntry} {sum issued u : UInt64}
      {sigs : List BlindSignature} (settled : Settles w.mint w.trace m tr) (passed : MintPassed m request e sum)
      (signed : Signed m.keyset request.outputs sigs) (later : Later e.updatedAt u)
      (issued_eq : issued.toNat = e.amountIssued.toNat + sum.toNat) {m' : DemoMint}
      (mint_eq : m' = (m.record request.outputs sigs).putMintQuote request.quote (e.mint issued u)) :
      CallEnds env w (.postMint request) (.ok (.minted ⟨sigs⟩)) m'
        (persisted m' (.quoteWritten request.quote e (e.mint issued u) :: tr))
  /-- Signing stopped half way: what was signed before stays in the restore index. -/
  | mintStopped (request : MintRequest) {err : CashuError} {x : UInt64 × UInt64} {w₁ : World}
      {done : List BlindedMessage} {sigs : List BlindSignature}
      (checks : (postMintChecks request).run env w = (.ok x, w₁)) (settled : Settles w.mint w.trace w₁.mint w₁.trace)
      (stops : SignStops w₁.mint.keyset request.outputs done) (signed : Signed w₁.mint.keyset done sigs) :
      CallEnds env w (.postMint request) (.err err) (w₁.mint.record done sigs) w₁.trace
  | batchMinted (request : BatchMintRequest) {entries : List LoadedQuote} {w₁ : World} {m' : DemoMint}
      {tr' : List Event} {sigs : List BlindSignature}
      (checks : (batchMintChecks request).run env w = (.ok entries, w₁))
      (settled : Settles w.mint w.trace w₁.mint w₁.trace) (passed : BatchPassed w₁.mint request entries)
      (signed : Signed w₁.mint.keyset request.outputs sigs)
      (issues : Issues (w₁.mint.record request.outputs sigs) w₁.trace entries m' tr') :
      CallEnds env w (.batchMint request) (.ok (.minted ⟨sigs⟩)) m' (persisted m' tr')
  | batchStopped (request : BatchMintRequest) {err : CashuError} {entries : List LoadedQuote} {w₁ : World}
      {done : List BlindedMessage} {sigs : List BlindSignature}
      (checks : (batchMintChecks request).run env w = (.ok entries, w₁))
      (settled : Settles w.mint w.trace w₁.mint w₁.trace)
      (stops : SignStops w₁.mint.keyset request.outputs done) (signed : Signed w₁.mint.keyset done sigs) :
      CallEnds env w (.batchMint request) (.err err) (w₁.mint.record done sigs) w₁.trace
  | swapped (request : SwapRequest) {ys : List String} {sigs : List BlindSignature} {m : DemoMint}
      (passed : SwapPassed w.mint request) (claims : Claims w.mint request.inputs ys)
      (signed : Signed w.mint.keyset request.outputs sigs)
      (mint_eq : m = (w.mint.spend ys).record request.outputs sigs) :
      CallEnds env w (.postSwap request) (.ok (.swapped ⟨sigs⟩)) m (persisted m w.trace)
  /-- Signing stopped after the claim: the inputs stay spent. -/
  | swapStopped (request : SwapRequest) {err : CashuError} {w₁ : World} {ys : List String}
      {done : List BlindedMessage} {sigs : List BlindSignature}
      (claimed : (swapClaim request).run env w = (.ok (), w₁)) (passed : SwapPassed w.mint request)
      (claims : Claims w.mint request.inputs ys) (mint_eq : w₁.mint = w.mint.spend ys)
      (stops : SignStops w.mint.keyset request.outputs done) (signed : Signed w.mint.keyset done sigs) :
      CallEnds env w (.postSwap request) (.err err) (w₁.mint.record done sigs) w.trace
  | meltPaid (request : MeltRequest) {plan : MeltPlan} {w₁ : World} {q : MeltQuoteEntry} {ys : List String}
      {preimage : String} {change : Option (List BlindSignature)} {m : DemoMint}
      (claimed : (meltClaim request).run env w = (.ok plan, w₁)) (passed : MeltPassed w.mint request q plan)
      (claims : Claims w.mint request.inputs ys) (answer : env.payInvoice plan.invoice plan.amount = .ok preimage)
      (signed : Signed w.mint.keyset plan.filled (change.getD []))
      (mint_eq : m = ((w.mint.spend ys).record plan.filled (change.getD [])).putMeltQuote request.quote
        { q with state := .paid }) :
      CallEnds env w (.postMelt request) (.ok (.melted (meltResponse request q preimage change))) m
        (persisted m (.payInvoice request plan.invoice plan.amount ::
          persisted (w.mint.meltPending request.quote q ys) w.trace))
  | meltFailed (request : MeltRequest) {plan : MeltPlan} {w₁ : World} {q : MeltQuoteEntry} {ys : List String}
      {err : CashuError} {m : DemoMint}
      (claimed : (meltClaim request).run env w = (.ok plan, w₁)) (passed : MeltPassed w.mint request q plan)
      (claims : Claims w.mint request.inputs ys) (answer : env.payInvoice plan.invoice plan.amount = .error err)
      (mint_eq : m = w.mint.putMeltQuote request.quote { q with state := .failed }) :
      CallEnds env w (.postMelt request) (.err .paymentFailed) m
        (persisted m (.payInvoice request plan.invoice plan.amount ::
          persisted (w.mint.meltPending request.quote q ys) w.trace))
  /-- Paid, but a primitive failed on the change. -/
  | meltStopped (request : MeltRequest) {e : CashuError} {plan : MeltPlan} {w₁ : World} {q : MeltQuoteEntry}
      {ys : List String} {preimage : String} {done : List BlindedMessage} {sigs : List BlindSignature} {m : DemoMint}
      (claimed : (meltClaim request).run env w = (.ok plan, w₁)) (passed : MeltPassed w.mint request q plan)
      (claims : Claims w.mint request.inputs ys) (answer : env.payInvoice plan.invoice plan.amount = .ok preimage)
      (notTotal : ¬ SignTotal w.mint.keyset)
      (mint_eq : m = (w.mint.meltPending request.quote q ys).record done sigs) :
      CallEnds env w (.postMelt request) (.err e) m
        (.payInvoice request plan.invoice plan.amount :: persisted (w.mint.meltPending request.quote q ys) w.trace)

/-- A call that returns has ended in one of the listed ways; one that a failed save stopped has written
a part of the trace of one. -/
def Finishes (env : Env) (w : World) (c : Call) (o : Outcome CashuError Response) (t : World) : Prop :=
  match o with
  | .panic => ∃ o m tr, CallEnds env w c o m tr ∧ t.trace <:+ tr
  | o => CallEnds env w c o t.mint t.trace

section ends
variable {env : Env} {w : World}

/-- A part that only settles, where it ends the call with an error or a panic. -/
theorem SettleEnds.finishes {α : Type} {o : Outcome CashuError α} {t : World} {c : Call} {f : α → Response}
    (h : SettleEnds w o t) (ho : ∀ a, o ≠ .ok a) : Finishes env w c (o.map f) t := by
  cases o with
  | ok a => exact absurd rfl (ho a)
  | err e => exact .refused h
  | panic =>
    obtain ⟨m', tr', hs, hsuf⟩ := h
    exact ⟨.err .quoteNotFound, m', tr', .refused hs, hsuf⟩

/-- A call stopped before anything was written. -/
theorem finishes_panic {c : Call} {t : World} (h : t.trace = w.trace) : Finishes env w c .panic t :=
  ⟨.err .quoteNotFound, w.mint, w.trace, .refused .refl, h ▸ List.suffix_refl _⟩

/-- A save that is the last effect of a call that ends as `h` says. -/
theorem finishes_persist {c : Call} {r : Response} {m : DemoMint} {tr : List Event} {t : World}
    (h : CallEnds env w c (.ok r) m (persisted m tr)) (ht : t.trace = tr) : Finishes env w c .panic t :=
  ⟨_, _, _, h, ht ▸ suffix_persisted _ _⟩

theorem exec_looks_ends {α : Type} {m : MintM α} {c : Call} (f : α → Response) (hc : c.Looks)
    (h : m.Ends env w (SettleEnds w)) : (m >>= fun a => pure (f a)).Ends env w (Finishes env w c) := by
  refine Ends.bind_pure (h.mono fun o t ht => ?_)
  cases o with
  | ok a => exact .looked hc ht
  | err e => exact SettleEnds.finishes (o := .err e) ht fun _ h => by cases h
  | panic => exact SettleEnds.finishes (o := .panic) ht fun _ h => by cases h

theorem bind_quoteExpiry {β : Type} {k : UInt64 → MintM β} {Q : Outcome CashuError β → World → Prop}
    (hok : ∀ expiry, (k expiry).Ends env { w with asked := w.asked + 1 } Q)
    (herr : ∀ e, Q (.err e) { w with asked := w.asked + 1 }) : (quoteExpiry >>= k).Ends env w Q := by
  have hexpiry : quoteExpiry.Ends env w fun o t => o ≠ .panic ∧ t = { w with asked := w.asked + 1 } := by
    refine bind_nowSecs fun now => ?_
    unfold Ends
    simp only [run, okOr]
    split <;> exact ⟨by simp, rfl⟩
  refine Ends.bind hexpiry ?_ ?_ fun t h => (h.1 rfl).elim
  · rintro expiry t ⟨-, rfl⟩; exact hok expiry
  · rintro e t ⟨-, rfl⟩; exact herr e

theorem exec_postMintQuote_ends (request : MintQuoteRequest) :
    (exec (.postMintQuote request)).Ends env w (Finishes env w (.postMintQuote request)) := by
  refine Ends.bind_pure (Ends.bind_failIf (fun hpos => ?_) fun _ => .refused .refl)
  refine bind_ask (fun quoteId hid => ?_) fun e he => by cases he
  cases hid
  refine bind_ask (fun invoice _ => ?_) fun _ _ => .refused .refl
  refine bind_quoteExpiry (fun expiry => ?_) fun _ => .refused .refl
  refine bind_nowSecs fun now => bind_modifyMint ?_
  have hends : CallEnds env w (.postMintQuote request) _ _ _ :=
    .mintQuoteCreated request invoice expiry now hpos rfl rfl
  exact bind_persist (fun n => Ends.pure hends) (finishes_persist hends rfl)

theorem exec_postMeltQuote_ends (request : MeltQuoteRequest) :
    (exec (.postMeltQuote request)).Ends env w (Finishes env w (.postMeltQuote request)) := by
  refine Ends.bind_pure (bind_ask (fun amount _ => ?_) fun _ _ => .refused .refl)
  refine bind_ask (fun quoteId hid => ?_) fun e he => by cases he
  cases hid
  refine bind_quoteExpiry (fun expiry => ?_) fun _ => .refused .refl
  refine bind_modifyMint ?_
  have hends : CallEnds env w (.postMeltQuote request) _ _ _ := .meltQuoteCreated request
    (q := ⟨amount, 0, request.unit, request.request, .unpaid, expiry⟩) rfl rfl
  exact bind_persist (fun n => Ends.pure hends) (finishes_persist hends rfl)

theorem exec_postMint_ends (request : MintRequest) :
    (exec (.postMint request)).Ends env w (Finishes env w (.postMint request)) := by
  refine Ends.bind_pure (Ends.bind ((postMintChecks_ends request).and Ends.self) ?_ ?_ ?_)
  · rintro ⟨amountIssued, sum⟩ t ⟨⟨ht, hok⟩, hchecks⟩
    obtain ⟨e, hpassed, rfl⟩ := hok _ _ rfl
    refine Ends.bind (signOutputs_ends request.outputs) ?_ ?_ fun t' h => h.2.elim
    · rintro sigs t' ⟨htr, hsigned, hm⟩
      have hfound : t'.mint.mintQuotes.lookup request.quote = some e := by
        rw [hm, DemoMint.record_mintQuotes]; exact hpassed.found
      refine bind_nowSecs fun now => Ends.bind_get (Ends.bind_okOr (fun e' he' => ?_) fun hnone => ?_)
      · rw [hfound] at he'; cases he'
        refine Ends.bind_okOr (fun issued hissued => ?_) fun hnone => ?_
        · have hissued := UInt64.checkedAdd_eq_some.1 hissued
          have hends : ∀ u, Later e.updatedAt u → CallEnds env w (.postMint request) _ _ _ :=
            fun u hu => .minted request ht hpassed hsigned hu hissued rfl
          refine bind_nextUpdatedAt (Ends.bind_modify ?_) ?_
          · have hends := hends _ (later_max e.updatedAt now)
            refine bind_persist (fun n => Ends.pure ?_) (finishes_persist hends (by rw [← htr]))
            dsimp only; rw [hm, htr]; exact hends
          · refine ⟨_, _, _, hends _ (later_max e.updatedAt now), ?_⟩
            dsimp only; rw [htr]
            exact (List.suffix_cons _ _).trans (suffix_persisted _ _)
        · have := hpassed.mintable
          have := e.amountPaid.toNat_lt
          rw [UInt64.checkedAdd] at hnone
          split at hnone
          · cases hnone
          · omega
      · rw [hfound] at hnone; cases hnone
    · rintro err t' ⟨htr, done, sigs, hstop, hsigned, hm⟩
      show CallEnds env w _ _ t'.mint t'.trace
      rw [hm, htr]; exact .mintStopped request hchecks ht hstop hsigned
  · rintro e t ⟨⟨ht, -⟩, -⟩
    exact .refused ht
  · rintro t ⟨⟨ht, -⟩, -⟩
    exact SettleEnds.finishes (f := Response.minted) (o := .panic) ht fun _ h => by cases h

theorem exec_batchMint_ends (request : BatchMintRequest) :
    (exec (.batchMint request)).Ends env w (Finishes env w (.batchMint request)) := by
  refine Ends.bind_pure (Ends.bind ((batchMintChecks_ends request).and Ends.self) ?_ ?_ ?_)
  · rintro entries t ⟨⟨ht, hpassed⟩, hchecks⟩
    have hpassed := hpassed _ rfl
    refine Ends.bind (signOutputs_ends request.outputs) ?_ ?_ fun t' h => h.2.elim
    · rintro sigs t' ⟨htr, hsigned, hm⟩
      refine bind_nowSecs fun now => ?_
      have hall : ∀ l ∈ entries, (t'.mint.mintQuotes.lookup l.quoteId).isSome := by
        intro l hl
        obtain ⟨e, he, -⟩ := hpassed.loaded l hl
        rw [hm, DemoMint.record_mintQuotes, he]; rfl
      refine Ends.bind (issueQuotes_ends now hall) ?_ (fun _ _ h => h.elim) ?_
      · rintro ⟨⟩ t'' hissues
        simp only [hm, htr] at hissues
        have hends : CallEnds env w (.batchMint request) _ _ _ :=
          .batchMinted request hchecks ht hpassed hsigned hissues
        exact bind_persist (fun n => Ends.pure hends) (finishes_persist hends rfl)
      · rintro t'' ⟨m', tr', hissues, hsuf⟩
        simp only [hm, htr] at hissues
        exact ⟨_, _, _, .batchMinted request hchecks ht hpassed hsigned hissues, hsuf.trans (suffix_persisted _ _)⟩
    · rintro err t' ⟨htr, done, sigs, hstop, hsigned, hm⟩
      show CallEnds env w _ _ t'.mint t'.trace
      rw [hm, htr]; exact .batchStopped request hchecks ht hstop hsigned
  · rintro e t ⟨⟨ht, -⟩, -⟩
    exact .refused ht
  · rintro t ⟨⟨ht, -⟩, -⟩
    exact SettleEnds.finishes (f := Response.minted) (o := .panic) ht fun _ h => by cases h

theorem exec_postSwap_ends (request : SwapRequest) :
    (exec (.postSwap request)).Ends env w (Finishes env w (.postSwap request)) := by
  refine Ends.bind_pure (Ends.bind ((swapClaim_ends request).and Ends.self) ?_ ?_ fun t h => h.1.2.elim)
  · rintro ⟨⟩ t ⟨⟨htr, hpassed, ys, hys, hm⟩, hclaim⟩
    refine Ends.bind (signOutputs_ends request.outputs) ?_ ?_ fun t' h => h.2.elim
    · rintro sigs t' ⟨htr', hsigned, hm'⟩
      rw [hm, DemoMint.spend_keyset] at hsigned
      rw [hm] at hm'
      have hends : CallEnds env w (.postSwap request) _ _ _ := .swapped request hpassed hys hsigned rfl
      refine bind_persist (fun n => Ends.pure ?_) (finishes_persist hends (htr'.trans htr))
      show CallEnds env w _ _ t'.mint (persisted t'.mint t'.trace)
      rw [hm', htr', htr]; exact hends
    · rintro err t' ⟨htr', done, sigs, hstop, hsigned, hm'⟩
      show CallEnds env w _ _ t'.mint t'.trace
      rw [hm', htr', htr]
      have hks : t.mint.keyset = w.mint.keyset := by rw [hm, DemoMint.spend_keyset]
      rw [hks] at hstop hsigned
      exact .swapStopped request hclaim hpassed hys hm hstop hsigned
  · rintro e t ⟨⟨htr, hm⟩, -⟩
    show CallEnds env w _ _ t.mint t.trace
    rw [hm, htr]; exact .refused .refl

/-- Releasing the inputs of a failed melt undoes the claim. -/
theorem meltFailed_mint {m : DemoMint} {request : MeltRequest} {q : MeltQuoteEntry} {ys : List String}
    (h : Claims m request.inputs ys) :
    ({ m.meltPending request.quote q ys with
        spentYs := request.inputs.foldl releaseY (m.meltPending request.quote q ys).spentYs
        meltQuotes := (m.meltPending request.quote q ys).meltQuotes.insert request.quote { q with state := .failed } } :
      DemoMint) = m.putMeltQuote request.quote { q with state := .failed } := by
  have hspent : request.inputs.foldl releaseY (m.meltPending request.quote q ys).spentYs = m.spentYs := h.release
  rw [hspent]
  simp only [DemoMint.meltPending, DemoMint.putMeltQuote, DemoMint.spend, Finmap.insert_insert]

/-- The paid quote overwrites the pending one. -/
theorem meltPaid_mint {m : DemoMint} {request : MeltRequest} {q : MeltQuoteEntry} {ys : List String}
    (outputs : List BlindedMessage) (sigs : List BlindSignature) :
    ((m.meltPending request.quote q ys).record outputs sigs).putMeltQuote request.quote { q with state := .paid } =
      ((m.spend ys).record outputs sigs).putMeltQuote request.quote { q with state := .paid } := by
  rw [DemoMint.meltPending, DemoMint.record_putMeltQuote]
  simp only [DemoMint.putMeltQuote, Finmap.insert_insert]

theorem exec_postMelt_ends (request : MeltRequest) :
    (exec (.postMelt request)).Ends env w (Finishes env w (.postMelt request)) := by
  refine Ends.bind_pure (Ends.bind ((meltClaim_ends request).and Ends.self) ?_ ?_ fun t h => finishes_panic h.1)
  · rintro plan t ⟨⟨q, ys, hpassed, hys, hm, htr⟩, hclaim⟩
    obtain ⟨m, tr, n⟩ := t
    obtain rfl : m = w.mint.meltPending request.quote q ys := hm
    obtain rfl : tr = persisted (w.mint.meltPending request.quote q ys) w.trace := htr
    have hfound : (w.mint.meltPending request.quote q ys).meltQuotes.lookup request.quote =
      some { q with state := .pending } := Finmap.lookup_insert _
    refine bind_payInvoice ?_
    cases hanswer : env.payInvoice plan.invoice plan.amount with
    | ok preimage =>
      show (meltPaid request plan preimage).Ends env _ _
      refine Ends.mono (meltPaid_ends plan preimage hfound) fun o t' ht' => ?_
      cases o with
      | ok r =>
        obtain ⟨change, rfl, hsigned, hm', htr'⟩ := ht'
        show CallEnds env w _ _ t'.mint t'.trace
        rw [htr']
        exact .meltPaid (q := q) request hclaim hpassed hys hanswer hsigned (hm'.trans (meltPaid_mint _ _))
      | err e =>
        obtain ⟨htr', done, sigs, hstop, -, hm'⟩ := ht'
        have hnot : ¬ SignTotal w.mint.keyset := by
          intro htotal
          obtain ⟨o, ho, hs⟩ := hstop.not_all htotal
          exact hs (hpassed.signable o ho)
        show CallEnds env w _ _ t'.mint t'.trace
        rw [htr']
        exact .meltStopped request hclaim hpassed hys hanswer hnot hm'
      | panic =>
        obtain ⟨htr', sigs, hsigned⟩ := ht'
        have hchange : Signed w.mint.keyset plan.filled ((some sigs).getD []) := hsigned
        have hends : CallEnds env w (.postMelt request) _ _ _ :=
          .meltPaid request hclaim hpassed hys hanswer hchange rfl
        exact finishes_persist hends htr'
    | error err =>
      show (meltFailed request).Ends env _ _
      refine Ends.mono (meltFailed_ends hfound) fun o t' ht' => ?_
      have hends : CallEnds env w (.postMelt request) _ _ _ := .meltFailed request hclaim hpassed hys hanswer rfl
      cases o with
      | ok r => exact ht'.elim
      | err e =>
        obtain ⟨rfl, hm', htr'⟩ := ht'
        show CallEnds env w _ _ t'.mint t'.trace
        rw [htr', hm'.trans (meltFailed_mint hys)]; exact hends
      | panic => exact ⟨_, _, _, hends, ht' ▸ suffix_persisted _ _⟩
  · rintro e t ⟨⟨hm, htr⟩, -⟩
    show CallEnds env w _ _ t.mint t.trace
    rw [hm, htr]; exact .refused .refl

/-- Every call ends in one of the listed ways. -/
theorem exec_ends (c : Call) : (exec c).Ends env w (Finishes env w c) := by
  cases c with
  | postMintQuote request => exact exec_postMintQuote_ends request
  | getMintQuote quoteId => exact exec_looks_ends _ trivial (getMintQuote_ends quoteId)
  | batchCheckMintQuotes request =>
    exact exec_looks_ends _ trivial (Ends.bind_failIf (fun _ => getMintQuotes_ends _) fun _ => .refl)
  | postMint request => exact exec_postMint_ends request
  | batchMint request => exact exec_batchMint_ends request
  | postMeltQuote request => exact exec_postMeltQuote_ends request
  | getMeltQuote quoteId =>
    exact Ends.bind_get (Ends.bind_lift (fun r _ => .looked trivial .refl) fun _ _ => .refused .refl)
  | postMelt request => exact exec_postMelt_ends request
  | postSwap request => exact exec_postSwap_ends request
  | postRestore request => exact .restored request

end ends

end Micronuts
