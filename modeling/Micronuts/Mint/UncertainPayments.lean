import Micronuts.Mint.DoubleSpend
import Micronuts.Mint.Refusals
import Micronuts.Reserve.Payments

/-!
# Payments with an uncertain outcome

Only `PaymentFailed` says that the backend has not paid and will not pay; after any other error the invoice may
still be paid. `post_melt` does not look at the error: it releases the inputs after every one. So a claim outlasts
the call when the backend has paid, and after no error. `PayAccounts.other` is where the upstream backend (`reserve.rs`)
answers with such an error: it keeps the proofs it has sent out of use, while the mint gives its own inputs back.
-/

namespace Micronuts
open Exec

section
variable [Crypto]

/-! ### Which claims outlast the call -/

/-- The inputs are spent, also after restarts, and nothing takes them again. -/
structure KeepsClaim (request : MeltRequest) (t : World) : Prop where
  held : ∀ p ∈ request.inputs, ∃ y, proofYHex p.secret = .ok y ∧ Held y t
  unspendable : ∀ h t', Run DurableStep t h t' → ∀ p ∈ request.inputs, proofYHex p.secret ∉ takenYs h

/-- Unless the payment has definitely failed, the inputs of the melt stay claimed. -/
def ClaimKept (env : Env) (w : World) (request : MeltRequest) (t : World) : Prop :=
  ∀ q, MeltAccepted w.mint (env.nowSecs w.asked) request q →
    env.payInvoice q.request q.amount ≠ .error .paymentFailed → KeepsClaim request t

/-- The payment of a melt with inputs ends in an error that leaves its outcome open. -/
def PaymentUncertain (env : Env) (w : World) (request : MeltRequest) : Prop :=
  ∃ q e, MeltAccepted w.mint (env.nowSecs w.asked) request q ∧ request.inputs ≠ [] ∧
    env.payInvoice q.request q.amount = .error e ∧ e ≠ .paymentFailed

theorem KeepsClaim.of_held {request : MeltRequest} {t : World}
    (h : ∀ p ∈ request.inputs, ∃ y, proofYHex p.secret = .ok y ∧ Held y t) : KeepsClaim request t := by
  refine ⟨h, fun h' t' hrun p hp hmem => ?_⟩
  obtain ⟨y, hy, hheld⟩ := h p hp
  rw [hy] at hmem
  exact (hheld.of_run hrun).2 hmem

theorem MeltKept.held {w t : World} {request : MeltRequest} (hkept : MeltKept w request t)
    (hfirst : w.mint.store = false → lastSaved w.trace = none) :
    ∀ p ∈ request.inputs, ∃ y, proofYHex p.secret = .ok y ∧ Held y t := by
  intro p hp
  obtain ⟨ys, hys, hspent⟩ := hkept.spent
  obtain ⟨y, hy, hmem⟩ := hys.spent hp
  rw [← hspent] at hmem
  refine ⟨y, hy, hmem, fun snap hsnap => ?_⟩
  cases hst : w.mint.store with
  | true =>
    have hsaved := hkept.saved hst
    rw [hsnap] at hsaved
    have heq : snap.spentYs = t.mint.spentYs := Option.some.inj hsaved
    rw [heq]; exact hmem
  | false =>
    rw [hkept.unsaved hst, hfirst hst] at hsnap
    cases hsnap

/-- When the inputs of a melt stay claimed. -/
theorem claimKept_iff {ks : DemoKeyset} {store : Bool} {h : History} {w t : World} {a : Act} {request : MeltRequest}
    (hrun : Run DurableStep (World.init ks store) h w) (hstep : CallStep w a t) (hcall : a.call = .postMelt request) :
    ClaimKept a.env w.begin request t ↔ ¬ PaymentUncertain a.env w.begin request := by
  obtain ⟨out, -, hreturns, hexec⟩ := hstep
  rw [hcall] at hexec
  have hends : ∀ q, MeltAccepted w.mint (a.env.nowSecs 0) request q → _ := fun q hq =>
    ((@exec_postMelt_accepted _ a.env w.begin _ _ hq).elim hexec).resolve_left hreturns
  constructor
  · rintro hkept ⟨q, e, hq, hin, hanswer, hne⟩
    have hkept := hkept q hq (by rw [hanswer]; intro h; cases h; exact hne rfl)
    have hends := hends q hq
    rw [hanswer] at hends
    obtain ⟨⟨hm, -, -⟩, -⟩ := hends
    obtain ⟨ys, hys⟩ := hq.claims
    obtain ⟨p, hp⟩ := List.exists_mem_of_ne_nil _ hin
    obtain ⟨y, hy, hheld⟩ := hkept.held p hp
    have hspent : y ∈ w.mint.spentYs := by
      have hmem := hheld.memory
      rw [hm] at hmem
      exact hmem
    exact hys.unspent y (hys.mem_iff.2 ⟨p, hp, hy⟩) hspent
  · intro hcertain q hq hanswer
    have hends := hends q hq
    refine .of_held ?_
    cases hpay : a.env.payInvoice q.request q.amount with
    | ok preimage =>
      rw [hpay] at hends
      exact hends.1.held (Spent.of_run hrun).unsaved
    | error e =>
      intro p hp
      refine absurd ⟨q, e, hq, List.ne_nil_of_mem hp, hpay, ?_⟩ hcertain
      rintro rfl
      exact hanswer hpay

end

section toy
open Toy

theorem meltQuoted_run : ∃ h, Run DurableStep (World.init keyset true) h meltQuoted :=
  ⟨_, (run_replay (by decide +kernel)).mono fun _ _ _ => .inl⟩

theorem claimKept_toy :
    ClaimKept env meltQuoted.begin twoMelt ((exec (.postMelt twoMelt)).run env meltQuoted.begin).2 := by
  obtain ⟨h, hrun⟩ := meltQuoted_run
  have hstep := @CallStep.of_exec _ meltQuoted (.postMelt twoMelt) env (by decide +kernel)
  refine (claimKept_iff hrun hstep rfl).2 ?_
  rintro ⟨q, e, -, -, hanswer, -⟩
  cases hanswer

/-- The backend pays out of the reserve, and the upstream answers that the melt is pending. -/
def pendingUpstream : Env := { env with payInvoice := fun _ _ => ToyReserve.pendingAnswer }

/-- The inputs of a pending melt are taken by a swap, while the invoice may still be paid. -/
theorem pendingMelt_released : ∃ h w a t request, Run DurableStep (World.init keyset true) h w ∧ CallStep w a t ∧
    a.call = .postMelt request ∧ ¬ ClaimKept a.env w.begin request t := by
  obtain ⟨h, hrun⟩ := meltQuoted_run
  have hstep := @CallStep.of_exec _ meltQuoted (.postMelt twoMelt) pendingUpstream (by decide +kernel)
  refine ⟨h, meltQuoted, _, _, twoMelt, hrun, hstep, rfl, fun hkept => ?_⟩
  obtain ⟨q, hq⟩ := @exists_meltAccepted _ pendingUpstream meltQuoted.begin twoMelt (by decide +kernel)
  have hclaim := hkept q hq (by simp [pendingUpstream, ToyReserve.pendingAnswer_eq])
  have hrespend := @run_replay _ ((exec (.postMelt twoMelt)).run pendingUpstream meltQuoted.begin).2
    [(.postSwap ⟨[coin 2 "two"], [⟨2, "00c0ffee", (5 : UInt8)⟩]⟩, env)] (by decide +kernel)
  refine hclaim.unspendable _ _ (hrespend.mono fun _ _ _ => .inl) (coin 2 "two") (List.mem_singleton_self _) ?_
  decide +kernel

end toy

end Micronuts
