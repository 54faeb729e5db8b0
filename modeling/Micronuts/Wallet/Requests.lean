import Micronuts.Mint.Outputs
import Micronuts.Wallet.EngineRules

/-!
# What the engine asks of the mint

Here the store may fail. A method that takes proofs out of the wallet or puts them back asks nothing of the mint and leaves
all but the proofs (`Holding`); a swap sends one request at most, for its inputs and outputs of its amounts (`SwapSends`).
-/

namespace Micronuts
open WalletM Exec

section
variable [Crypto]

section stores
variable {env : WalletEnv} {w : WalletWorld}

theorem persist_sent {α : Type} (a : α) :
    (persist >>= fun _ => (pure a : WalletM α)).Ends env w fun _ t => t.sent = w.sent := by
  refine (saves_ends a).mono fun o t h => ?_
  unfold Saves at h
  split at h
  · rw [h.2]
  · next written _ =>
    rw [h.2]
    cases written <;> rfl

/-- A save that goes through or not leaves the proofs. -/
theorem Saves.proofs {α : Type} {o : Outcome CashuError α} {t : WalletWorld} (h : Saves env w o t) :
    ∃ blob, t = { w with blob } := by
  unfold Saves at h
  split at h
  · exact ⟨_, h.2⟩
  · next written _ =>
    rw [h.2]
    cases written
    · exact ⟨w.blob, rfl⟩
    · exact ⟨_, rfl⟩

end stores

namespace WalletEngine

/-! ### Requests -/

/-- A request of the wallet between two states. -/
def NewRequest (e t : WalletEngine) (r : WalletRequest) : Prop :=
  ∃ new, t.world.sent = new ++ e.world.sent ∧ r ∈ new

theorem newRequest_iff {e t : WalletEngine} {l : List WalletRequest} {r : WalletRequest}
    (h : t.world.sent = l ++ e.world.sent) : NewRequest e t r ↔ r ∈ l := by
  constructor
  · rintro ⟨new, hnew, hr⟩
    rwa [List.append_cancel_right (h.symm.trans hnew)]
  · intro hr
    exact ⟨l, h, hr⟩

theorem not_newRequest {e t : WalletEngine} {r : WalletRequest} (h : t.world.sent = e.world.sent) : ¬ NewRequest e t r := by
  rw [newRequest_iff (l := []) (by simpa using h)]
  simp

/-! ### Without a request -/

/-- The engine with these proofs; the blob and the count of the calls are left open. -/
def Holding (e : WalletEngine) (proofs : List Proof) (t : WalletEngine) : Prop :=
  ∃ blob calls, t = { e with world := { e.world.withProofs proofs with blob }, calls }

namespace Holding
variable {e t u : WalletEngine} {ps qs : List Proof}

theorem refl : e.Holding e.proofs e := ⟨e.world.blob, e.calls, rfl⟩

theorem trans (h : e.Holding ps t) (h' : t.Holding qs u) : e.Holding qs u := by
  obtain ⟨blob, calls, rfl⟩ := h
  exact h'

theorem proofs (h : e.Holding ps t) : t.proofs = ps := by
  obtain ⟨blob, calls, rfl⟩ := h
  rfl

theorem sent (h : e.Holding ps t) : t.world.sent = e.world.sent := by
  obtain ⟨blob, calls, rfl⟩ := h
  rfl

theorem feePpk (h : e.Holding ps t) : t.feePpk = e.feePpk := by
  obtain ⟨blob, calls, rfl⟩ := h
  rfl

theorem of_saves {α : Type} {env : WalletEnv} {o : Outcome CashuError α} {w : WalletWorld}
    (h : Saves env (e.world.withProofs ps) o w) : e.Holding ps (e.after w) := by
  obtain ⟨blob, rfl⟩ := h.proofs
  exact ⟨blob, e.calls + 1, rfl⟩

end Holding

section without
variable {β : Type} {env : EngineEnv} {e : WalletEngine} {Q : Outcome CashuError β → WalletEngine → Prop}

theorem bind_spend {amount : UInt64} {k : List Proof → EngineM β} (hfits : proofsValue e.proofs < 2 ^ 64)
    (hspent : ∀ t, amount ≠ 0 → amount.toNat ≤ proofsValue e.proofs →
      e.Holding (e.proofs.filter (· ∉ selection amount e.proofs)) t → (k (selection amount e.proofs)).Ends env t Q)
    (hstop : ∀ x t, t.world.sent = e.world.sent → Q (.err x) t) : (callWallet (spend amount) >>= k).Ends env e Q := by
  refine bind_callWallet (spend_ends hfits) ?_ ?_ ?_
  · rintro ps w (- | ⟨hpos, hle, hvalue, hsaves⟩)
    rw [hvalue ps rfl]
    exact hspent _ hpos hle (.of_saves hsaves)
  · rintro x w (- | ⟨-, -, -, hsaves⟩)
    · exact hstop _ _ rfl
    · exact hstop _ _ (Holding.of_saves hsaves).sent
  · rintro w (- | ⟨-, -, -, hsaves⟩)
    unfold Saves at hsaves
    split at hsaves
    · cases hsaves.1
    · cases hsaves.1

theorem bind_undo {ps : List Proof} {k : Except CashuError Unit → EngineM β}
    (h : ∀ r t, e.Holding (e.proofs ++ ps) t → (k r).Ends env t Q) :
    (attempt (callWallet (undoSpend ps)) >>= k).Ends env e Q := by
  refine bind_attemptWallet (undoSpend_ends ps) (fun _ w hsaves => ?_) (fun _ w hsaves => ?_) fun w hsaves => ?_
  · exact h _ _ (.of_saves hsaves)
  · exact h _ _ (.of_saves hsaves)
  · unfold Saves at hsaves
    split at hsaves
    · cases hsaves.1
    · cases hsaves.1

end without

/-! ### Swaps -/

section swaps
variable {env : EngineEnv} {e : WalletEngine} {inputs : List Proof} {amounts : List UInt64}

/-- The request of a swap into outputs of these amounts. -/
def SwapFor (keysetId : String) (inputs : List Proof) (amounts : List UInt64) (r : SwapRequest) : Prop :=
  ∃ derived, derived.length = amounts.length ∧ r = ⟨inputs, messagesOf keysetId amounts derived⟩

theorem outputsValue_messagesOf {keysetId : String} {derived : List DerivedOutput}
    (h : derived.length = amounts.length) :
    outputsValue (messagesOf keysetId amounts derived) = (amounts.map UInt64.toNat).sum := by
  have hfst : (amounts.zip derived).map Prod.fst = amounts := List.map_fst_zip (by omega)
  rw [outputsValue, messagesOf, List.map_map]
  conv_rhs => rw [← hfst, List.map_map]
  rfl

variable [Curve]

/-- How a swap ends for the mint: it has proofs of these amounts to show for its request, or it fails with one request sent
at most. -/
inductive SwapSends (e : WalletEngine) (inputs : List Proof) (amounts : List UInt64) :
    Outcome CashuError (List Proof) → WalletWorld → Prop
  | landed {fresh w r} (request : SwapFor e.keysetId inputs amounts r) (coins : fresh.map Proof.amount = amounts)
      (proofs : w.wallet.proofs = e.proofs ++ fresh) (sent : w.sent = .swap r :: e.world.sent) :
      SwapSends e inputs amounts (.ok fresh) w
  | failed {o w} (stopped : o.isOk = false) (sent : w.sent = e.world.sent ∨
      ∃ r, SwapFor e.keysetId inputs amounts r ∧ w.sent = .swap r :: e.world.sent) : SwapSends e inputs amounts o w

theorem swap_sends : (swapDeterministic inputs amounts e.keysetId e.keys).Ends (env.wallet e.calls) e.world
    (SwapSends e inputs amounts) := by
  refine swapDeterministic_rotates.mono fun o w h => ?_
  rcases h with ⟨hstop, -, -⟩ | ⟨hcount, -, -⟩ | ⟨hlands, hvalue, hsaves⟩
  · exact .failed hstop (.inl rfl)
  · exact .failed rfl (.inr ⟨_, ⟨_, hcount, rfl⟩, rfl⟩)
  · obtain ⟨blob, rfl⟩ := hsaves.proofs
    cases o with
    | ok ps =>
      obtain rfl := hvalue ps rfl
      exact .landed ⟨_, hlands.count, rfl⟩ hlands.amounts_eq rfl rfl
    | err x => exact .failed rfl (.inr ⟨_, ⟨_, hlands.count, rfl⟩, rfl⟩)
    | panic => exact .failed rfl (.inr ⟨_, ⟨_, hlands.count, rfl⟩, rfl⟩)

theorem verifyOrRemove_sent (fresh : List Proof) :
    (verifyOrRemove fresh).Ends env e fun _ t => t.world.sent = e.world.sent := by
  refine Ends.bind_get ?_
  split
  · exact rfl
  · have hsent : ∀ {w : WalletWorld}, (removeProofs fresh).Ends (env.wallet e.calls) w fun _ t => t.sent = w.sent :=
      persist_sent ()
    exact bind_attemptWallet hsent (fun _ _ h => h) (fun _ _ h => h) fun _ h => h

end swaps

end WalletEngine

end

end Micronuts
