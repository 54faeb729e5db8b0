import Micronuts.Wallet.EngineRules

/-!
# What the calls of the engine leave alone (`micronuts-wallet-core`: `engine.rs`)

A call of the wallet's methods or of the mint changes the wallet and the count of the calls, and a send that reconciles
notes the call. A method made of such calls leaves everything else (`Steady`).
-/

namespace Micronuts
open Exec

section
variable [Crypto]

namespace WalletEngine

/-- No part of the wallet, nor of what counts and notes calls. -/
class Steady {τ : Type} (view : WalletEngine → τ) : Prop where
  after : ∀ e w, view (e.after w) = view e
  reconciled : ∀ e reconciles, view { e with reconciles } = view e

instance : Steady mintUrl := ⟨fun _ _ => rfl, fun _ _ => rfl⟩

instance : Steady unit := ⟨fun _ _ => rfl, fun _ _ => rfl⟩

instance : Steady keysetId := ⟨fun _ _ => rfl, fun _ _ => rfl⟩

instance : Steady keys := ⟨fun _ _ => rfl, fun _ _ => rfl⟩

variable {α τ : Type} {view : WalletEngine → τ} [Steady view]

theorem callWallet_leaves (m : WalletM α) : Leaves view (callWallet m) := .zoom Steady.after

theorem ask_leaves (answer : EngineEnv → Nat → Except CashuError α) : Leaves view (ask answer) := by
  intro env e
  simp only [run, ask]
  split <;> exact Steady.after e e.world

variable [Curve]

omit [Curve] [Steady view] in
theorem ensureConnected_leaves : Leaves view ensureConnected := Leaves.get.bind fun _ => .failIf _ _

theorem verifyOrRemove_leaves (fresh : List Proof) : Leaves view (verifyOrRemove fresh) := by
  refine Leaves.get.bind fun e => ?_
  split
  · exact .pure _
  · exact (callWallet_leaves _).attempt.bind fun _ => .fail _

theorem verifyNewProofs_leaves (known : List String) : Leaves view (verifyNewProofs known) :=
  Leaves.get.bind fun _ => verifyOrRemove_leaves _

omit [Curve] in
theorem pruneSpent_leaves (spent : List String) : Leaves view (pruneSpent spent) := by
  rw [pruneSpent]
  split_ifs
  · exact .pure _
  · exact Leaves.get.bind fun _ => (callWallet_leaves _).bind fun _ => .pure _

omit [Curve] in
theorem reconcileStored_leaves (proofs : List Proof) : Leaves view (reconcileStored proofs) :=
  (Leaves.lift _).bind fun _ => (ask_leaves _).bind fun _ => pruneSpent_leaves _

omit [Curve] in
theorem reconcileSpent_leaves : Leaves view reconcileSpent := by
  refine ensureConnected_leaves.bind fun _ => Leaves.get.bind fun e => ?_
  split_ifs
  · exact .pure _
  · exact reconcileStored_leaves _

theorem restore_leaves : Leaves view restore := by
  refine ensureConnected_leaves.bind fun _ => knownSecrets_computes.leaves.bind fun known => Leaves.get.bind fun e =>
    (callWallet_leaves _).bind fun restored => ?_
  split_ifs
  · exact (verifyNewProofs_leaves known).bind fun _ => .pure _
  · exact .pure _

omit [Curve] in
theorem swapFeeHint_leaves (amount : UInt64) : Leaves view (swapFeeHint amount) := by
  refine Leaves.get.bind fun e => ?_
  split_ifs
  · exact .pure _
  · exact (callWallet_leaves _).bind fun _ => (callWallet_leaves _).attempt.bind fun _ => (inputFee_computes _).leaves

theorem reconcileThenRestore_leaves : Leaves view reconcileThenRestore := by
  refine Leaves.get.bind fun e => reconcileSpent_leaves.attempt.bind fun reconciled => ?_
  cases reconciled with
  | error => exact .pure _
  | ok =>
    have hmark : Leaves view (Exec.modify fun t => { t with reconciles := e.calls :: t.reconciles } : EngineM Unit) :=
      .modify fun t => Steady.reconciled t _
    exact hmark.bind fun _ => restore_leaves.attempt.bind fun _ => .pure _

theorem offlineFallback_leaves (amount : UInt64) (selected : List Proof) (err : CashuError) :
    Leaves view (offlineFallback amount selected err) := by
  refine (callWallet_leaves _).attempt.bind fun _ => ?_
  split_ifs
  · exact reconcileThenRestore_leaves.bind fun _ => Leaves.get.bind fun _ => .okOr _ _
  · exact .fail _

theorem composeSwap_leaves (amount keep : UInt64) (selected : List Proof) :
    Leaves view (composeSwap amount keep selected) := by
  refine Leaves.get.bind fun e => (callWallet_leaves _).attempt.bind fun swapped => ?_
  cases swapped with
  | ok => exact .pure _
  | error err => exact offlineFallback_leaves amount selected err

theorem composeExact_leaves (amount : UInt64) : Leaves view (composeExact amount) :=
  (Leaves.failIf _ _).bind fun _ => (swapFeeHint_leaves amount).bind fun _ => (Leaves.okOr _ _).bind fun _ =>
    (callWallet_leaves _).bind fun _ => (sumAmounts_computes _ _).leaves.bind fun _ =>
      (subU64_computes _ _).leaves.bind fun _ =>
    (subU64_computes _ _).leaves.bind fun _ => composeSwap_leaves _ _ _

omit [Curve] [Steady view] in
theorem meltSwapFee_leaves (count : Nat) : Leaves view (meltSwapFee count) := by
  refine Leaves.get.bind fun e => ?_
  split_ifs
  · exact .pure _
  · exact (inputFee_computes count).leaves

section tokens
variable [Minicbor] [TokenCrates]

omit [Curve] [Steady view] in
theorem decodedToken_leaves (token : String) : Leaves view (decodedToken token) := .lift _

omit [Curve] in
theorem probePending_leaves (pending : PendingSend) : Leaves view (probePending pending) :=
  (decodedToken_leaves _).bind fun _ => (Leaves.lift _).bind fun _ => (ask_leaves _).bind fun _ => .pure _

omit [Minicbor] [TokenCrates]
variable [Bip340]

theorem receiveGroup_leaves (ctx : UnlockContext) (group : TokenV4Token) : Leaves view (receiveGroup ctx group) :=
  Leaves.get.bind fun _ => (Leaves.lift _).bind fun _ => (sumAmounts_computes _ _).leaves.bind fun _ =>
    (inputFee_computes _).leaves.bind fun _ => (Leaves.okOr _ _).bind fun _ => (callWallet_leaves _).bind fun _ =>
    (verifyOrRemove_leaves _).bind fun _ => .pure _

theorem receiveGroups_leaves (ctx : UnlockContext) (groups : List TokenV4Token) (total : UInt64) :
    Leaves view (receiveGroups ctx groups total) := by
  induction groups generalizing total with
  | nil => exact .pure _
  | cons group groups ih =>
    exact (receiveGroup_leaves ctx group).bind fun _ => (addU64_computes _ _).leaves.bind fun _ => ih _

end tokens

end WalletEngine

end

end Micronuts
