import Micronuts.Mint.Acceptance
import Micronuts.Mint.Durability

/-!
# A refused spend and the spent set

A swap or a melt that returns `Err` leaves the spent set as it was, in memory and in the store, except in two
cases (`ChangesSpent`). `post_swap` claims its inputs before it meets an output of amount zero, which
`check_outputs_signable` lets through and which has no key. And a failed melt saves the spent set that is in
memory, whatever was saved before.
-/

namespace Micronuts
open Exec

section
variable [Crypto]

def Call.Spends : Call → Prop
  | .postMelt _ | .postSwap _ => True
  | _ => False

/-- The spent set that a restart would load. -/
def savedSpent (tr : List Event) : Option (Finset String) := (lastSaved tr).map MintStateSnapshot.spentYs

/-- After an `Err` the spent set is the one from before, also after a restart. -/
def KeepsSpent (w : World) (out : Outcome CashuError Response) (t : World) : Prop :=
  ∀ e, out = .err e → t.mint.spentYs = w.mint.spentYs ∧ savedSpent t.trace = savedSpent w.trace

/-- The claim is taken and then kept though the swap fails, or taken back and saved over other tables. -/
def ChangesSpent (env : Env) (w : World) : Call → Prop
  | .postSwap request => SwapAccepted w.mint (env.nowSecs w.asked) request ∧ request.inputs ≠ [] ∧
      ∃ o ∈ request.outputs, o.amount = 0
  | .postMelt request => ∃ q e, MeltAccepted w.mint (env.nowSecs w.asked) request q ∧
      env.payInvoice q.request q.amount = .error e ∧ w.mint.store = true ∧ savedSpent w.trace ≠ some w.mint.spentYs
  | _ => False

section calls
variable {env : Env} {w t : World} {out : Outcome CashuError Response}

theorem KeepsSpent.of_eq (hm : t.mint.spentYs = w.mint.spentYs) (htr : t.trace = w.trace) : KeepsSpent w out t :=
  fun _ _ => ⟨hm, by rw [htr]⟩

theorem postSwap_keepsSpent {request : SwapRequest} (hrun : (exec (.postSwap request)).run env w = (out, t))
    (hreturns : out ≠ .panic) (htotal : SignTotal w.mint.keyset) :
    KeepsSpent w out t ↔ ¬ ChangesSpent env w (.postSwap request) := by
  by_cases haccepted : SwapAccepted w.mint (env.nowSecs w.asked) request
  · have hends := (exec_postSwap_accepted haccepted).elim hrun
    cases out with
    | ok r =>
      refine iff_of_true (fun e h => by cases h) ?_
      rintro ⟨-, -, o, ho, h0⟩
      exact DemoKeyset.not_signable_of_zero h0 (hends o ho)
    | err e =>
      obtain ⟨⟨ys, hys, hspent⟩, htr, hstops⟩ := hends
      obtain ⟨o, ho, hno⟩ := hstops htotal
      have hblank : ∃ o ∈ request.outputs, o.amount = 0 :=
        ⟨o, ho, DemoKeyset.zero_of_checked haccepted.signable ho hno⟩
      constructor
      · rintro hkeeps ⟨-, hin, -⟩
        exact hin (hys.spend_eq_iff.1 (hspent.symm.trans (hkeeps e rfl).1))
      · intro hnot
        have hin : request.inputs = [] := by
          by_contra hin
          exact hnot ⟨haccepted, hin, hblank⟩
        exact .of_eq (hspent.trans (hys.spend_eq_iff.2 hin)) htr
    | panic => exact absurd rfl hreturns
  · obtain ⟨-, hm, htr⟩ := (exec_postSwap_refused haccepted).elim hrun
    exact iff_of_true (.of_eq (by rw [hm]) htr) fun h => haccepted h.1

theorem postMelt_keepsSpent {request : MeltRequest} (hrun : (exec (.postMelt request)).run env w = (out, t))
    (hreturns : out ≠ .panic) (htotal : SignTotal w.mint.keyset) :
    KeepsSpent w out t ↔ ¬ ChangesSpent env w (.postMelt request) := by
  by_cases haccepted : ∃ q, MeltAccepted w.mint (env.nowSecs w.asked) request q
  · obtain ⟨q, hq⟩ := haccepted
    have hends := ((exec_postMelt_accepted hq).elim hrun).resolve_left hreturns
    have hunique : ∀ {q'}, MeltAccepted w.mint (env.nowSecs w.asked) request q' → q' = q := by
      intro q' hq'
      have hfound := hq'.found
      rw [hq.found] at hfound; cases hfound; rfl
    cases hanswer : env.payInvoice q.request q.amount with
    | ok preimage =>
      rw [hanswer] at hends
      have hok := hends.2 htotal
      refine iff_of_true (fun e h => ?_) ?_
      · rw [h] at hok; cases hok
      · rintro ⟨q', e, hq', hanswer', -⟩
        rw [hunique hq', hanswer] at hanswer'; cases hanswer'
    | error err =>
      rw [hanswer] at hends
      obtain ⟨⟨hm, hsaved, hunsaved⟩, rfl⟩ := hends
      have hspent : t.mint.spentYs = w.mint.spentYs := by rw [hm]; rfl
      cases hst : w.mint.store with
      | false =>
        refine iff_of_true (fun e _ => ⟨hspent, by rw [savedSpent, hunsaved hst]; rfl⟩) ?_
        rintro ⟨-, -, -, -, hstore, -⟩
        rw [hst] at hstore; cases hstore
      | true =>
        have hafter : savedSpent t.trace = some w.mint.spentYs := by
          rw [savedSpent, hsaved hst, ← hspent]; rfl
        constructor
        · rintro hkeeps ⟨-, -, -, -, -, hne⟩
          exact hne ((hkeeps _ rfl).2.symm.trans hafter)
        · intro hnot
          refine fun e _ => ⟨hspent, hafter.trans ?_⟩
          by_contra hne
          exact hnot ⟨q, err, hq, hanswer, hst, fun h => hne h.symm⟩
  · have hrefused : ∀ q, ¬ MeltAccepted w.mint (env.nowSecs w.asked) request q := fun q hq => haccepted ⟨q, hq⟩
    obtain ⟨-, hm, htr⟩ := (exec_postMelt_refused hrefused).elim hrun
    exact iff_of_true (.of_eq (by rw [hm]) htr) fun ⟨q, _, hq, _⟩ => haccepted ⟨q, hq⟩

/-- Which refused swaps and melts leave the spent set alone. -/
theorem keepsSpent_iff {c : Call} (hspends : c.Spends) (hrun : (exec c).run env w = (out, t))
    (hreturns : out ≠ .panic) (htotal : SignTotal w.mint.keyset) : KeepsSpent w out t ↔ ¬ ChangesSpent env w c := by
  cases c with
  | postSwap request => exact postSwap_keepsSpent hrun hreturns htotal
  | postMelt request => exact postMelt_keepsSpent hrun hreturns htotal
  | postMintQuote | getMintQuote | batchCheckMintQuotes | postMint | batchMint | postMeltQuote | getMeltQuote
    | postRestore => exact hspends.elim

end calls

end

section toy
open Toy

/-- A mint with one melt quote, of two. -/
def meltQuoted : World := (replay (World.init keyset true) [(.postMeltQuote ⟨"lnbc2", "sat", none⟩, env)]).2

def twoMelt : MeltRequest := ⟨"0190-q1", [coin 2 "two"], none⟩

/-- A backend that answers a payment with `e`. -/
def failing (e : CashuError) : Env := { env with payInvoice := fun _ _ => .error e }

theorem keepsSpent_iff_toy :
    KeepsSpent meltQuoted ((exec (.postMelt twoMelt)).run (failing .paymentFailed) meltQuoted).1
      ((exec (.postMelt twoMelt)).run (failing .paymentFailed) meltQuoted).2 := by
  refine (@keepsSpent_iff _ _ _ _ _ (.postMelt twoMelt) trivial rfl (by decide +kernel) signTotal).2 ?_
  rintro ⟨-, -, -, -, -, hne⟩
  exact hne (by decide +kernel)

/-- The blank output of `blankSwap` is met after the claim. -/
theorem blankSwap_burns : ∃ out t, (exec (.postSwap blankSwap)).run env (World.init keyset true) = (out, t) ∧
    ¬ KeepsSpent (World.init keyset true) out t := by
  refine ⟨_, _, rfl, fun hkeeps => ?_⟩
  have hspent := (hkeeps .keysetNotFound (by decide +kernel)).1
  revert hspent
  decide +kernel

end toy

end Micronuts
