import Micronuts.Mint.Acceptance
import Micronuts.Mint.DoubleSpend
import Micronuts.Nuts.Wire

/-!
# What NUT-07 tells a wallet (`micronuts-mint`: `mint_core.rs`)

`post_check_state` looks a point up in the spent set. What is in the set is what swaps and melts have taken: an accepted swap
takes its inputs whatever becomes of its outputs, an accepted melt keeps them unless the payment fails (`Consumes`). So over a
run the answer is exactly whether such a call has taken the point (`checkState_exact`).
-/

namespace Micronuts
open MintM Exec

section
variable [Crypto]

def DemoMint.postCheckState (m : DemoMint) (request : CheckStateRequest) : CheckStateResponse where
  states := request.ys.map fun y => { y, state := if pointHex y ∈ m.spentYs then "SPENT" else "UNSPENT", witness := none }

/-- The call takes `y` and does not give it back. -/
inductive Consumes (w : World) (a : Act) (y : String) : Prop
  | swap {request : SwapRequest} (call : a.call = .postSwap request)
      (accepted : SwapAccepted w.mint (a.env.nowSecs 0) request)
      (input : ∃ p ∈ request.inputs, proofYHex p.secret = .ok y)
  | melt {request : MeltRequest} {q : MeltQuoteEntry} (call : a.call = .postMelt request)
      (accepted : MeltAccepted w.mint (a.env.nowSecs 0) request q)
      (paid : ∃ preimage, a.env.payInvoice q.request q.amount = .ok preimage)
      (input : ∃ p ∈ request.inputs, proofYHex p.secret = .ok y)

section step
variable {env : Env} {w w' t : World} {a : Act} {y : String} {out : Outcome CashuError Response}

/-- Other calls leave the spent set alone. -/
theorem CallEnds.spentYs_eq {c : Call} {m : DemoMint} {tr : List Event} (h : CallEnds env w c out m tr)
    (hswap : ∀ request, c ≠ .postSwap request) (hmelt : ∀ request, c ≠ .postMelt request) :
    m.spentYs = w.mint.spentYs := by
  cases h with
  | refused settled => rw [settled.spentYs]
  | looked looks settled => rw [settled.spentYs]
  | restored request => rfl
  | mintQuoteCreated request invoice expiry now positive new mint_eq => rw [mint_eq, DemoMint.putMintQuote_spentYs]
  | meltQuoteCreated request unpaid mint_eq => rw [mint_eq, DemoMint.putMeltQuote_spentYs]
  | minted request settled passed signed later issued_eq mint_eq =>
    rw [mint_eq, DemoMint.putMintQuote_spentYs, DemoMint.record_spentYs, settled.spentYs]
  | mintStopped request checks settled stops signed => rw [DemoMint.record_spentYs, settled.spentYs]
  | batchMinted request checks settled passed signed issues =>
    rw [issues.frame]
    dsimp only
    rw [DemoMint.record_spentYs, settled.spentYs]
  | batchStopped request checks settled stops signed => rw [DemoMint.record_spentYs, settled.spentYs]
  | swapped request => exact absurd rfl (hswap request)
  | swapStopped request => exact absurd rfl (hswap request)
  | meltPaid request => exact absurd rfl (hmelt request)
  | meltFailed request => exact absurd rfl (hmelt request)
  | meltStopped request => exact absurd rfl (hmelt request)

/-- An `Ok` swap adds its inputs. -/
theorem CallEnds.swap_spentYs {request : SwapRequest} {r : Response} {m : DemoMint} {tr : List Event}
    (h : CallEnds env w (.postSwap request) (.ok r) m tr) :
    (∃ response, r = .swapped response) ∧ ∃ ys, Claims w.mint request.inputs ys ∧ m.spentYs = (w.mint.spend ys).spentYs := by
  cases h with
  | looked looks settled => exact looks.elim
  | @swapped _ ys sigs m passed claims signed mint_eq =>
    exact ⟨⟨_, rfl⟩, ys, claims, by rw [mint_eq, DemoMint.record_spentYs]⟩

theorem swapped_spentYs {request : SwapRequest} (haccepted : SwapAccepted w.mint (env.nowSecs w.asked) request)
    (hrun : (exec (.postSwap request)).run env w = (out, t)) (hreturns : out ≠ .panic) :
    ∃ ys, Claims w.mint request.inputs ys ∧ t.mint.spentYs = (w.mint.spend ys).spentYs := by
  cases out with
  | ok r => exact ((exec_ends _).elim hrun).swap_spentYs.2
  | err e => exact ((exec_postSwap_accepted haccepted).elim hrun).1
  | panic => exact absurd rfl hreturns

theorem consumes_swap {request : SwapRequest} (hcall : a.call = .postSwap request) :
    Consumes w a y ↔ SwapAccepted w.mint (a.env.nowSecs 0) request ∧ ∃ p ∈ request.inputs, proofYHex p.secret = .ok y := by
  constructor
  · rintro (⟨call, accepted, input⟩ | ⟨call, -, -, -⟩)
    · rw [hcall] at call
      cases call
      exact ⟨accepted, input⟩
    · rw [hcall] at call
      cases call
  · rintro ⟨accepted, input⟩
    exact .swap hcall accepted input

theorem consumes_melt {request : MeltRequest} (hcall : a.call = .postMelt request) :
    Consumes w a y ↔ ∃ q, MeltAccepted w.mint (a.env.nowSecs 0) request q ∧
      (∃ preimage, a.env.payInvoice q.request q.amount = .ok preimage) ∧
      ∃ p ∈ request.inputs, proofYHex p.secret = .ok y := by
  constructor
  · rintro (⟨call, -, -⟩ | ⟨call, accepted, paid, input⟩)
    · rw [hcall] at call
      cases call
    · rw [hcall] at call
      cases call
      exact ⟨_, accepted, paid, input⟩
  · rintro ⟨q, accepted, paid, input⟩
    exact .melt hcall accepted paid input

/-- A melt is accepted for one quote. -/
theorem MeltAccepted.unique {m : DemoMint} {now : UInt64} {request : MeltRequest} {q q' : MeltQuoteEntry}
    (h : MeltAccepted m now request q) (h' : MeltAccepted m now request q') : q' = q := by
  have hfound := h'.found
  rw [h.found] at hfound
  exact (Option.some.inj hfound).symm

section calls
variable (hrun : (exec a.call).run a.env w.begin = (out, t)) (hreturns : out ≠ .panic)
include hrun hreturns

theorem mem_spentYs_swap {request : SwapRequest} (hcall : a.call = .postSwap request) :
    y ∈ t.mint.spentYs ↔ y ∈ w.mint.spentYs ∨ Consumes w a y := by
  rw [hcall] at hrun
  rw [consumes_swap hcall]
  by_cases haccepted : SwapAccepted w.mint (a.env.nowSecs 0) request
  · obtain ⟨ys, hclaims, hspent⟩ := swapped_spentYs haccepted hrun hreturns
    rw [hspent, DemoMint.mem_spend, and_iff_right haccepted, ← hclaims.mem_iff]
    rfl
  · obtain ⟨-, hm, -⟩ := (exec_postSwap_refused haccepted).elim hrun
    rw [hm, or_iff_left fun hc => haccepted hc.1]
    rfl

theorem mem_spentYs_melt {request : MeltRequest} (hcall : a.call = .postMelt request) :
    y ∈ t.mint.spentYs ↔ y ∈ w.mint.spentYs ∨ Consumes w a y := by
  rw [hcall] at hrun
  rw [consumes_melt hcall]
  by_cases haccepted : ∃ q, MeltAccepted w.mint (a.env.nowSecs 0) request q
  · obtain ⟨q, haccepted⟩ := haccepted
    have hends := ((exec_postMelt_accepted haccepted).elim hrun).resolve_left hreturns
    rcases hpay : a.env.payInvoice q.request q.amount with e | preimage
    · -- the payment fails, and the inputs are released
      rw [hpay] at hends
      obtain ⟨⟨hm, -, -⟩, -⟩ := hends
      rw [hm, or_iff_left]
      · rfl
      · rintro ⟨q', haccepted', ⟨preimage, hpaid⟩, -⟩
        rw [haccepted.unique haccepted', hpay] at hpaid
        cases hpaid
    · rw [hpay] at hends
      obtain ⟨⟨⟨ys, hclaims, hspent⟩, -, -⟩, -⟩ := hends
      rw [hspent, DemoMint.mem_spend]
      refine or_congr_right ⟨fun hy => ⟨q, haccepted, ⟨preimage, hpay⟩, hclaims.mem_iff.1 hy⟩, ?_⟩
      rintro ⟨-, -, -, input⟩
      exact hclaims.mem_iff.2 input
  · obtain ⟨-, hm, -⟩ := (exec_postMelt_refused fun q hq => haccepted ⟨q, hq⟩).elim hrun
    rw [hm, or_iff_left]
    · rfl
    · rintro ⟨q, haccepted', -⟩
      exact haccepted ⟨q, haccepted'⟩

end calls

/-- What one call adds to the spent set. -/
theorem CallStep.mem_spentYs (h : CallStep w a w') : y ∈ w'.mint.spentYs ↔ y ∈ w.mint.spentYs ∨ Consumes w a y := by
  obtain ⟨out', -, hends⟩ := h.exists_ends
  obtain ⟨out, -, hreturns, hrun⟩ := h
  by_cases hswap : ∃ request, a.call = .postSwap request
  · obtain ⟨request, hcall⟩ := hswap
    exact mem_spentYs_swap hrun hreturns hcall
  by_cases hmelt : ∃ request, a.call = .postMelt request
  · obtain ⟨request, hcall⟩ := hmelt
    exact mem_spentYs_melt hrun hreturns hcall
  -- no case of `Consumes` is left
  rw [hends.spentYs_eq (fun r hr => hswap ⟨r, hr⟩) fun r hr => hmelt ⟨r, hr⟩, or_iff_left]
  · rfl
  · rintro (⟨call, -, -⟩ | ⟨call, -, -, -⟩)
    · exact hswap ⟨_, call⟩
    · exact hmelt ⟨_, call⟩

end step

/-- The spent set of a run. -/
theorem mem_spentYs_of_run {ks : DemoKeyset} {store : Bool} {h : History} {w : World} {y : String}
    (hrun : Run CallStep (World.init ks store) h w) : y ∈ w.mint.spentYs ↔ ∃ e ∈ h, Consumes e.pre e.act y := by
  induction hrun with
  | nil => simp [World.init, World.boot, DemoMint.fresh]
  | snoc _ hstep ih =>
    rw [hstep.mem_spentYs, ih]
    simp only [List.mem_append, List.mem_singleton, or_and_right, exists_or, exists_eq_left]

/-- In a run of calls that return, the answer for each point is whether a call of the run has taken it and kept it. -/
theorem checkState_exact {ks : DemoKeyset} {store : Bool} {h : History} {w : World}
    (hrun : Run CallStep (World.init ks store) h w) (request : CheckStateRequest) :
    List.Forall₂ (fun y s => s.y = y ∧ s.witness = none ∧
        (s.state = "SPENT" ↔ ∃ e ∈ h, Consumes e.pre e.act (pointHex y)) ∧
        (s.state = "UNSPENT" ↔ ¬ ∃ e ∈ h, Consumes e.pre e.act (pointHex y)))
      request.ys (w.mint.postCheckState request).states := by
  rw [DemoMint.postCheckState, List.forall₂_map_right_iff, List.forall₂_same]
  intro y _
  have hmem := mem_spentYs_of_run (y := pointHex y) hrun
  refine ⟨rfl, rfl, ?_, ?_⟩
  · rw [← hmem]
    split_ifs with hy <;> simp [hy]
  · rw [← hmem]
    split_ifs with hy <;> simp [hy]

end

section toy
open Toy

/-- A coin is swapped; then its own point is asked for, and another one. -/
def checkedRequest : CheckStateRequest := ⟨[(fold (asBytes "one") : UInt8), (7 : UInt8)]⟩

def swappingCalls : List (Call × Env) := [(.postSwap ⟨[coin 1 "one"], [⟨1, "00c0ffee", (5 : UInt8)⟩]⟩, env)]

theorem checkState_exact_toy :
    ((replay (World.init keyset true) swappingCalls).2.mint.postCheckState checkedRequest).states.map ProofState.state =
      ["SPENT", "UNSPENT"] ∧
    List.Forall₂ (fun y s => s.y = y ∧ s.witness = none ∧
        (s.state = "SPENT" ↔ ∃ e ∈ (replay (World.init keyset true) swappingCalls).1, Consumes e.pre e.act (pointHex y)) ∧
        (s.state = "UNSPENT" ↔
          ¬ ∃ e ∈ (replay (World.init keyset true) swappingCalls).1, Consumes e.pre e.act (pointHex y)))
      checkedRequest.ys ((replay (World.init keyset true) swappingCalls).2.mint.postCheckState checkedRequest).states :=
  ⟨by decide +kernel, checkState_exact (run_replay (by decide +kernel)) checkedRequest⟩

end toy

end Micronuts
