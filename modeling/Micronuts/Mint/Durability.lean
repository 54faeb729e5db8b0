import Micronuts.Mint.Restore

/-!
# The last saved snapshot

A mint with a store is `Synced` when a restart would bring back the tables it serves. Every call keeps it so
that does not fail after it has begun to change the tables (`LeavesUnsaved`): `postSwap` claims its inputs, and
all three signing calls record signatures, before the output that cannot be signed is looked at.
-/

namespace Micronuts
open Exec

section
variable [Crypto]

/-- What the store holds is what the mint serves. -/
def Synced (m : DemoMint) (tr : List Event) : Prop := lastSaved tr = some m.snapshot

/-- The call fails on an output after it claimed inputs or recorded a signature. -/
def LeavesUnsaved (env : Env) (w : World) (c : Call) : Prop :=
  match c with
  | .postSwap request => checksPass env w c = true ∧ request.inputs ≠ [] ∧ ∃ o ∈ request.outputs, ¬ w.mint.keyset.Signable o
  | c => PartlySigns env w c

instance (env : Env) (w : World) (c : Call) : Decidable (LeavesUnsaved env w c) := by
  unfold LeavesUnsaved PartlySigns
  split <;> infer_instance

theorem Synced.settles {m m' : DemoMint} {tr tr' : List Event} (hs : Synced m tr) (hstore : m.store = true)
    (h : Settles m tr m' tr') : Synced m' tr' := by
  induction h with
  | refl => exact hs
  | @settle m₁ tr₁ id e u before found unpaid later ih =>
    have hstore₁ : (m₁.putMintQuote id (e.settle u)).store = true := before.store.trans hstore
    exact lastSaved_persisted hstore₁ _

/-- Without inputs there is no output of a swap that could be signed. -/
theorem SwapPassed.head_blank {m : DemoMint} {request : SwapRequest} (h : SwapPassed m request)
    (hin : request.inputs = []) : ∀ o ∈ request.outputs, ¬ m.keyset.Signable o := by
  intro o ho
  obtain ⟨fee, -, hbal⟩ := h.balance
  rw [hin] at hbal
  have hle : o.amount.toNat ≤ outputsValue request.outputs :=
    List.single_le_sum (by simp) _ (List.mem_map_of_mem ho)
  have hzero : o.amount = 0 := by
    have hsum : proofsValue [] = 0 := rfl
    refine UInt64.toNat_inj.1 ?_
    rw [UInt64.toNat_zero]; omega
  exact DemoKeyset.not_signable_of_zero hzero

section calls
variable {env : Env} {w : World} {c : Call} {out : Outcome CashuError Response} {m : DemoMint} {tr : List Event}

theorem CallEnds.synced (h : CallEnds env w c out m tr) (hstore : w.mint.store = true)
    (htotal : SignTotal w.mint.keyset) (hsaves : ¬ LeavesUnsaved env w c) (hs : Synced w.mint w.trace) : Synced m tr := by
  have hm : m.store = true := h.config.2.trans hstore
  cases h with
  | refused settled => exact hs.settles hstore settled
  | looked looks settled => exact hs.settles hstore settled
  | restored request => exact hs
  | mintQuoteCreated request invoice expiry now positive new mint_eq => exact lastSaved_persisted hm _
  | meltQuoteCreated request unpaid mint_eq => exact lastSaved_persisted hm _
  | minted request settled passed signed later issued_eq mint_eq => exact lastSaved_persisted hm _
  | mintStopped request checks settled stops signed =>
    rw [record_of_stops htotal hsaves settled.keyset (by simp [checksPass, checks, Outcome.isOk]) stops signed]
    exact hs.settles hstore settled
  | batchMinted request checks settled passed signed issues => exact lastSaved_persisted hm _
  | batchStopped request checks settled stops signed =>
    rw [record_of_stops htotal hsaves settled.keyset (by simp [checksPass, checks, Outcome.isOk]) stops signed]
    exact hs.settles hstore settled
  | swapped request passed claims signed mint_eq => exact lastSaved_persisted hm _
  | @swapStopped request err w₁ ys done sigs claimed passed claims mint_eq stops signed =>
    have hnot := stops.not_all htotal
    have hin : request.inputs = [] := by
      by_contra hin
      exact hsaves ⟨by simp [checksPass, claimed, Outcome.isOk], hin, hnot⟩
    obtain rfl : ys = [] := by
      have hhashed := claims.hashed
      rw [hin] at hhashed
      exact List.forall₂_nil_left_iff.1 hhashed
    obtain rfl : done = [] := by
      obtain ⟨o, rest, heq, -⟩ := stops
      refine List.eq_nil_iff_forall_not_mem.2 fun o' ho' => ?_
      exact passed.head_blank hin o' (by rw [heq]; simp [ho']) (signed.signable o' ho')
    rw [mint_eq]; exact hs
  | meltPaid request claimed passed claims answer signed mint_eq => exact lastSaved_persisted hm _
  | meltFailed request claimed passed claims answer mint_eq => exact lastSaved_persisted hm _
  | meltStopped request claimed passed claims answer notTotal mint_eq => exact absurd htotal notTotal

end calls

/-! ### Runs -/

/-- The store holds the tables that `w` serves, and any mint that restores them gets these tables. -/
structure Durable (w : World) : Prop where
  saved : Synced w.mint w.trace
  restores : ∀ m : DemoMint, m.restore w.mint.snapshot = some { w.mint with keyset := m.keyset, store := m.store }

theorem durable_of_run {m₀ : DemoMint} (hstore : m₀.store = true) (htotal : SignTotal m₀.keyset) {h : History}
    {w : World} (hrun : Run CallStep (World.boot m₀) h w)
    (hsaves : ∀ e ∈ h, ¬ LeavesUnsaved e.act.env e.pre.begin e.act.call) : Durable w := by
  refine ⟨?_, fun m => DemoMint.restore_snapshot m w.mint⟩
  refine Run.invariant (I := fun _ w => Synced w.mint w.trace)
    (Run.PrefixClosed.forall_mem fun e : Step World Act => ¬ LeavesUnsaved e.act.env e.pre.begin e.act.call) ?_ ?_ hrun hsaves
  · exact lastSaved_persisted hstore []
  · intro h w a w' hrun hsaves hs hstep
    obtain ⟨hks, hst⟩ := config_of_run hrun
    obtain ⟨out, -, hends⟩ := hstep.exists_ends
    exact hends.synced (hst.trans hstore) (hks ▸ htotal) (hsaves ⟨w, a, w'⟩ (by simp)) hs

end

section toy
open Toy

theorem durable_toy : Durable (replay (World.boot (.fresh keyset true)) mintingCalls).2 :=
  durable_of_run rfl signTotal (run_replay (by decide +kernel)) (by decide +kernel)

/-- A swap for an output of one and a blank one: the inputs are claimed, the blank output has no key. -/
def blankSwap : SwapRequest :=
  ⟨[coin 1 "one"], [⟨1, "00c0ffee", (5 : UInt8)⟩, ⟨0, "00c0ffee", (6 : UInt8)⟩]⟩

theorem blankSwap_unsaved : ∃ h w, Run CallStep (World.boot (.fresh keyset true)) h w ∧ ¬ Durable w := by
  refine ⟨_, _, @run_replay _ _ [(.postSwap blankSwap, env)] (by decide +kernel), fun hdurable => ?_⟩
  have hsaved := congrArg (Option.map MintStateSnapshot.spentYs) hdurable.saved
  revert hsaved
  decide +kernel

end toy

end Micronuts
