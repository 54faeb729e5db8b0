import Micronuts.Lib.Run
import Micronuts.Wallet.Calls

/-!
# What a wallet credits

Whatever the mint answers, a call adds to the proofs in memory only what it has verified under the keys it was given,
and a call that fails has changed no proof unless the save at its end has failed. The blob is written whole: a save
carries along what an earlier call has credited and could not save.
-/

namespace Micronuts
open Exec

section
variable [Crypto]

omit [Crypto] in
theorem isOk_map {α β : Type} {f : α → β} {o : Outcome CashuError α} : (o.map f).isOk = o.isOk := by
  cases o <;> rfl

theorem Saves.map {α β : Type} {env : WalletEnv} {w t : WalletWorld} {f : α → β} {o : Outcome CashuError α}
    (h : Saves env w o t) : Saves env w (o.map f) t := by
  unfold Saves at h ⊢
  split at h
  · obtain ⟨ho, ht⟩ := h
    exact ⟨isOk_map.trans ho, ht⟩
  · obtain ⟨rfl, ht⟩ := h
    exact ⟨rfl, ht⟩

/-- Either a save went through, or it failed and its error is the call's. -/
theorem Saves.blob {α : Type} {env : WalletEnv} {w t : WalletWorld} {o : Outcome CashuError α} (h : Saves env w o t) :
    t.wallet = w.wallet ∧ (t.blob = w.blob ∨ t.blob = some t.wallet.envelope) ∧
      (o.isOk = false → ∃ e written, env.save t.wallet.envelope = .failed e written ∧ o = .err (storeError e)) := by
  unfold Saves at h
  split at h
  · obtain ⟨ho, rfl⟩ := h
    exact ⟨rfl, .inr rfl, by rw [ho]; rintro ⟨⟩⟩
  · next e written hsave =>
    obtain ⟨rfl, ht⟩ := h
    cases written with
    | false =>
      obtain rfl : t = w := ht
      exact ⟨rfl, .inl rfl, fun _ => ⟨e, false, hsave, rfl⟩⟩
    | true =>
      obtain rfl : t = { w with blob := some w.wallet.envelope } := ht
      exact ⟨rfl, .inr rfl, fun _ => ⟨e, true, hsave, rfl⟩⟩

variable [Curve]

theorem IssueEnds.map {α β : Type} {env : WalletEnv} {keysetId : String} {mintKeys : KeySet} {amounts : List UInt64}
    {w t : WalletWorld} {f : α → β} {o : Outcome CashuError α} (h : IssueEnds env keysetId mintKeys amounts w o t) :
    IssueEnds env keysetId mintKeys amounts w (o.map f) t := by
  rcases h with stopped | ⟨sends, stopped⟩ | ⟨sends, kept, secrets, verified, saves⟩
  · exact .refused (isOk_map.trans stopped)
  · exact .lost sends (isOk_map.trans stopped)
  · exact .credited sends kept secrets verified saves.map

/-! ### Runs of a wallet -/

/-- The wallet is dropped and opened again over its store. -/
def WalletWorld.reopen (w : WalletWorld) : WalletWorld := { w with wallet := .new w.blob w.wallet.seed }

inductive WalletAct
  | call (env : WalletEnv) (keysetId : String) (mintKeys : KeySet) (call : WalletCall)
  | reopen

inductive WalletStep : WalletWorld → WalletAct → WalletWorld → Prop
  | call {w t : WalletWorld} {env : WalletEnv} {keysetId : String} {mintKeys : KeySet} {call : WalletCall}
      {o : Outcome CashuError Unit} (exec : (call.exec keysetId mintKeys).run env w = (o, t)) :
      WalletStep w (.call env keysetId mintKeys call) t
  | reopen {w : WalletWorld} : WalletStep w .reopen w.reopen

/-- How any of the calls ends. -/
inductive WalletEnds (env : WalletEnv) (keysetId : String) (mintKeys : KeySet) (w : WalletWorld) :
    WalletCall → Outcome CashuError Unit → WalletWorld → Prop
  | issue {call o t} (notRestore : call ≠ .restore) (ends : IssueEnds env keysetId mintKeys call.amounts w o t) :
      WalletEnds env keysetId mintKeys w call o t
  | restore {o t} (ends : RestoreEnds env keysetId mintKeys w o t) :
      WalletEnds env keysetId mintKeys w .restore (o.map fun _ => ()) t

theorem walletCall_ends {env : WalletEnv} {w : WalletWorld} {keysetId : String} {mintKeys : KeySet}
    (call : WalletCall) :
    (call.exec keysetId mintKeys).Ends env w (WalletEnds env keysetId mintKeys w call) := by
  rcases call with ⟨quoteId, amount⟩ | ⟨inputs, newAmounts⟩ | ⟨quoteId, invoiceAmount, feeReserve⟩ | -
  · exact Ends.bind_pure ((mintDeterministic_ends quoteId amount).mono fun o t h => .issue (by simp) h.map)
  · exact Ends.bind_pure ((swapDeterministic_ends inputs newAmounts).mono fun o t h => .issue (by simp) h.map)
  · exact Ends.bind_pure ((meltDeterministic_ends quoteId invoiceAmount feeReserve).mono fun o t h =>
      .issue (by simp) h.map)
  · exact Ends.bind_pure (restore_ends.mono fun o t h => .restore h)

/-! ### One call -/

/-- What a call may have done to the proofs in memory and in the store. -/
structure CreditsVerified (env : WalletEnv) (mintKeys : KeySet) (w : WalletWorld) (o : Outcome CashuError Unit)
    (t : WalletWorld) : Prop where
  memory : ∃ kept new, kept.Sublist w.wallet.proofs ∧ t.wallet.proofs = kept ++ new ∧ ∀ p ∈ new, Verified mintKeys p
  blob : t.blob = w.blob ∨ t.blob = some t.wallet.envelope
  failed : o.isOk = false → t.wallet.proofs = w.wallet.proofs ∧ t.blob = w.blob ∨
    ∃ e written, env.save t.wallet.envelope = .failed e written ∧ o = .err (storeError e)

section one
variable {env : WalletEnv} {keysetId : String} {mintKeys : KeySet} {w t : WalletWorld} {o : Outcome CashuError Unit}

theorem CreditsVerified.unchanged (hproofs : t.wallet.proofs = w.wallet.proofs) (hblob : t.blob = w.blob) :
    CreditsVerified env mintKeys w o t where
  memory := ⟨w.wallet.proofs, [], List.Sublist.refl _, by rw [hproofs, List.append_nil], by simp⟩
  blob := .inl hblob
  failed := fun _ => .inl ⟨hproofs, hblob⟩

theorem CreditsVerified.saved {v : WalletWorld} {kept new : List Proof} (hsaves : Saves env v o t)
    (hkept : kept.Sublist w.wallet.proofs) (hproofs : v.wallet.proofs = kept ++ new) (hblob : v.blob = w.blob)
    (hverified : ∀ p ∈ new, Verified mintKeys p) : CreditsVerified env mintKeys w o t := by
  obtain ⟨hwallet, hsaved, hfailed⟩ := hsaves.blob
  refine ⟨⟨kept, new, hkept, by rw [hwallet, hproofs], hverified⟩, ?_, fun ho => .inr (hfailed ho)⟩
  rwa [← hblob]

theorem IssueEnds.creditsVerified {amounts : List UInt64} (h : IssueEnds env keysetId mintKeys amounts w o t) :
    CreditsVerified env mintKeys w o t := by
  rcases h with - | - | ⟨-, hkept, -, hverified, hsaves⟩
  · exact .unchanged rfl rfl
  · exact .unchanged rfl rfl
  · exact .saved hsaves hkept rfl rfl hverified

theorem RestoreEnds.creditsVerified {o : Outcome CashuError Nat} (h : RestoreEnds env keysetId mintKeys w o t) :
    CreditsVerified env mintKeys w (o.map fun _ => ()) t := by
  rcases h with - | - | ⟨-, -, -, hverified, -, hsaves⟩
  · exact .unchanged rfl rfl
  · exact .unchanged rfl rfl
  · split at hsaves
    · exact .saved hsaves.map (List.Sublist.refl _) rfl rfl hverified
    · obtain ⟨ho, rfl⟩ := hsaves
      refine ⟨⟨w.wallet.proofs, _, List.Sublist.refl _, rfl, hverified⟩, .inl rfl, ?_⟩
      rw [isOk_map, ho]
      rintro ⟨⟩

theorem creditsVerified (call : WalletCall) :
    (call.exec keysetId mintKeys).Ends env w (CreditsVerified env mintKeys w) := by
  refine (walletCall_ends call).mono fun o t h => ?_
  rcases h with ⟨-, h⟩ | h
  · exact h.creditsVerified
  · exact h.creditsVerified

end one

/-! ### Runs -/

/-- The proofs in the store. -/
def WalletWorld.stored (w : WalletWorld) : List Proof := w.blob.elim [] Envelope.proofs

/-- The proof passes under the keys that a call was given. -/
def WalletAct.Verifies : WalletAct → Proof → Prop
  | .call _ _ mintKeys _, p => Verified mintKeys p
  | .reopen, _ => False

omit [Curve] in
theorem new_proofs (blob : Option Envelope) (seed : List UInt8) :
    (PersistentWallet.new blob seed).proofs.Sublist (blob.elim [] Envelope.proofs) := by
  rcases blob with - | envelope
  · exact List.Sublist.refl _
  · show ((openEnvelope envelope (seedFingerprint seed)).getD (0, [])).2.Sublist envelope.proofs
    unfold openEnvelope
    split
    · exact List.nil_sublist _
    · exact List.Sublist.refl _

theorem CreditsVerified.held {env : WalletEnv} {mintKeys : KeySet} {w t : WalletWorld} {o : Outcome CashuError Unit}
    (h : CreditsVerified env mintKeys w o t) {p : Proof} (hp : p ∈ t.wallet.proofs ∨ p ∈ t.stored) :
    (p ∈ w.wallet.proofs ∨ p ∈ w.stored) ∨ Verified mintKeys p := by
  obtain ⟨kept, new, hkept, hproofs, hverified⟩ := h.memory
  have hmem : p ∈ t.wallet.proofs → (p ∈ w.wallet.proofs ∨ p ∈ w.stored) ∨ Verified mintKeys p := by
    intro hp
    rw [hproofs, List.mem_append] at hp
    rcases hp with hp | hp
    · exact .inl (.inl (hkept.subset hp))
    · exact .inr (hverified p hp)
  rcases hp with hp | hp
  · exact hmem hp
  · unfold WalletWorld.stored at hp ⊢
    rcases h.blob with hblob | hblob
    · rw [hblob] at hp
      exact .inl (.inr hp)
    · rw [hblob] at hp
      exact hmem hp

theorem WalletStep.held {w t : WalletWorld} {a : WalletAct} (h : WalletStep w a t) {p : Proof}
    (hp : p ∈ t.wallet.proofs ∨ p ∈ t.stored) : (p ∈ w.wallet.proofs ∨ p ∈ w.stored) ∨ a.Verifies p := by
  rcases h with hexec | -
  · exact ((creditsVerified _).elim hexec).held hp
  · rcases hp with hp | hp
    · exact .inl (.inr ((new_proofs w.blob w.wallet.seed).subset hp))
    · exact .inl (.inr hp)

/-- Every call of a run credits what it verified and nothing when it fails, and whatever the wallet or its store ever
holds was there at the start or was verified by a call. -/
theorem credits_verified {w₀ w : WalletWorld} {h : List (Step WalletWorld WalletAct)} (hrun : Run WalletStep w₀ h w) :
    (∀ e ∈ h, ∀ env keysetId mintKeys call, e.act = .call env keysetId mintKeys call →
      ∃ o, (call.exec keysetId mintKeys).run env e.pre = (o, e.post) ∧
        CreditsVerified env mintKeys e.pre o e.post) ∧
    ∀ p, p ∈ w.wallet.proofs ∨ p ∈ w.stored →
      (p ∈ w₀.wallet.proofs ∨ p ∈ w₀.stored) ∨ ∃ e ∈ h, e.act.Verifies p := by
  constructor
  · intro e he env keysetId mintKeys call hact
    have hstep := hrun.step_of_mem he
    rw [hact] at hstep
    rcases hstep with ⟨hexec⟩
    exact ⟨_, hexec, (creditsVerified call).elim hexec⟩
  · intro p
    induction hrun with
    | nil => exact .inl
    | @snoc h w t a run hstep ih =>
      intro hp
      rcases hstep.held hp with hp | hverifies
      · rcases ih hp with hp | ⟨e, he, hverifies⟩
        · exact .inl hp
        · exact .inr ⟨e, List.mem_append_left _ he, hverifies⟩
      · exact .inr ⟨⟨w, a, t⟩, by simp, hverifies⟩

end

section toy
open Toy32

namespace Toy32

/-- The mint's signature under the key `a`; its DLEQ has the nonce one. -/
def sign (a b : UInt8) (amount : UInt64) : BlindSignature :=
  let c : UInt8 := a * b
  let e : UInt8 := ((hashE (1 : UInt8) b a c).getLast?).getD 0
  ⟨amount, "00c0ffee", c, some ⟨e, (1 + e * a : UInt8)⟩⟩

/-- The keyset with the key `a` for the amount 1. -/
def keys (a : UInt8) : KeySet := ⟨"00c0ffee", "sat", [⟨1, a⟩]⟩

/-- A mint with the key 3 that leaves melts unpaid, and a store that saves or not. -/
def env (save : SaveResult) : WalletEnv where
  postMint r := .ok ⟨r.outputs.map fun o => sign 3 o.b o.amount⟩
  postMelt r := .ok ⟨false, .pending, none, none, r.quote, 1, 0, "sat", 0, "lnbc", "bolt11"⟩
  postSwap _ := .error .invalidProof
  postRestore _ := .ok ⟨[]⟩
  save _ := save
  overflowChecks := false

def fresh : WalletWorld := ⟨.new none [1], none, []⟩

/-- A mint whose save fails. -/
def unsaved : WalletWorld :=
  (WalletCall.exec "00c0ffee" (keys 3) (.mint "q" 1)).run (env (.failed .unavailable false)) fresh |>.2

/-- After it, an unpaid melt under other keys, whose save goes through. -/
def resaved : WalletWorld :=
  (WalletCall.exec "00c0ffee" (keys 5) (.melt "m" 1 0)).run (env .saved) unsaved |>.2

def history : List (Step WalletWorld WalletAct) :=
  [⟨fresh, .call (env (.failed .unavailable false)) "00c0ffee" (keys 3) (.mint "q" 1), unsaved⟩,
    ⟨unsaved, .call (env .saved) "00c0ffee" (keys 5) (.melt "m" 1 0), resaved⟩]

theorem history_run : Run WalletStep fresh history resaved := by
  have hmint : WalletStep fresh (.call (env (.failed .unavailable false)) "00c0ffee" (keys 3) (.mint "q" 1)) unsaved :=
    .call Prod.mk.eta.symm
  have hmelt : WalletStep unsaved (.call (env .saved) "00c0ffee" (keys 5) (.melt "m" 1 0)) resaved :=
    .call Prod.mk.eta.symm
  exact (Run.nil.snoc hmint).snoc hmelt

end Toy32

theorem credits_verified_toy : Run WalletStep fresh history resaved ∧
    ∀ p, p ∈ resaved.wallet.proofs ∨ p ∈ resaved.stored →
      (p ∈ fresh.wallet.proofs ∨ p ∈ fresh.stored) ∨ ∃ e ∈ history, e.act.Verifies p :=
  ⟨history_run, (credits_verified history_run).2⟩

/-- The melt saves a proof that the store did not have and that does not pass under the keys of the melt. -/
theorem resaved_unverified : Run WalletStep fresh history resaved ∧
    ∃ p ∈ resaved.stored, p ∉ unsaved.stored ∧ ¬ Verified (keys 5) p := by
  have hsaved : ∃ p ∈ resaved.stored, p ∉ unsaved.stored ∧ verifyFreshProof (keys 5) p ≠ .ok () := by decide +kernel
  obtain ⟨p, hp, hnew, hrejected⟩ := hsaved
  exact ⟨history_run, p, hp, hnew, mt verifyFreshProof_eq_ok.2 hrejected⟩

end toy

end Micronuts
