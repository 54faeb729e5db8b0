import Micronuts.Wallet.Composes
import Micronuts.Wallet.Scan

/-!
# What a send hands out

A send whose swap may not have reached the mint asks which proofs are spent, drops those, and restores from the seed before
it looks for proofs of the amount. What it has kept was not spent when it asked. What it has restored is what the mint
answered for, spent or not.
-/

namespace Micronuts
open WalletM Exec

/-- A swap that could not be saved is none that the mint may have missed. -/
theorem isTransport_storeError (x : StoreError) : (storeError x).isTransport = false := by
  cases x <;> rfl

section
variable [Crypto]

/-- Spending takes proofs out of the wallet, whatever their sum. -/
inductive SpendTakes (env : WalletEnv) (w : WalletWorld) : Outcome CashuError (List Proof) → WalletWorld → Prop
  | kept {o : Outcome CashuError (List Proof)} (stopped : o.isOk = false) : SpendTakes env w o w
  | taken {o : Outcome CashuError (List Proof)} {t : WalletWorld} {selected : List Proof}
      (held : selected.Subperm w.wallet.proofs) (value : ∀ ps, o = .ok ps → ps = selected)
      (saves : Saves env (w.withProofs (w.wallet.proofs.filter (· ∉ selected))) o t) : SpendTakes env w o t

theorem spend_takes {env : WalletEnv} {w : WalletWorld} (amount : UInt64) :
    (spend amount).Ends env w (SpendTakes env w) := by
  refine Ends.bind_failIf (fun _ => bind_wallet ?_) fun _ => .kept rfl
  refine Inspects.bind (sumAmounts_ends ..) (fun total _ => Ends.bind_failIf (fun _ => ?_) fun _ => .kept rfl) fun o ho =>
    .kept ho
  refine Inspects.bind (takeCovering_ends ..) (fun selected hselected => bind_modifyWallet ?_) fun o ho => .kept ho
  have hheld : selected.Subperm w.wallet.proofs := (List.mergeSort_perm ..).subperm_left.1 hselected.subperm
  exact ((saves_ends selected).and (saves_value selected)).mono fun o t h => .taken hheld h.2 h.1

namespace WalletEngine

/-! ### The states of proofs -/

/-- At the call `n` the mint says of every point whether it is spent then. -/
def TruthfulStates (env : EngineEnv) (spentAt : Nat → PublicKey → Prop) : Prop :=
  ∀ n request response, env.checkState n request = .ok response →
    List.Forall₂ (fun y s => s.y = y ∧ (s.state = spentState ↔ spentAt n y)) request.ys response.states

def SecretSpent (spent : PublicKey → Prop) (secret : String) : Prop := ∃ y, secretPoint secret = .ok y ∧ spent y

/-- No two secrets of the proofs have the same point. -/
def DistinctPoints (proofs : List Proof) : Prop :=
  ∀ p ∈ proofs, ∀ q ∈ proofs, ∀ y, secretPoint p.secret = .ok y → secretPoint q.secret = .ok y → p.secret = q.secret

section states
variable {proofs : List Proof} {ys : List PublicKey} {states : List ProofState} {spent : PublicKey → Prop}

theorem mem_points (h : List.Forall₂ (fun p y => secretPoint p.secret = .ok y) proofs ys) {y : PublicKey} {s : String} :
    (y, s) ∈ ys.zip (proofs.map Proof.secret) ↔ ∃ p ∈ proofs, p.secret = s ∧ secretPoint p.secret = .ok y := by
  induction h with
  | nil => simp
  | @cons p y' proofs ys hp _ ih =>
    rw [List.map_cons, List.zip_cons_cons, List.mem_cons, ih, Prod.mk.injEq, List.exists_mem_cons_iff, hp, Except.ok.injEq]
    refine or_congr_left ?_
    rw [and_comm, eq_comm, @eq_comm _ y]

theorem exists_state (h : List.Forall₂ (fun y s => s.y = y ∧ (s.state = spentState ↔ spent y)) ys states) {y : PublicKey}
    (hy : y ∈ ys) (hspent : spent y) : ∃ s ∈ states, s.y = y ∧ s.state = spentState := by
  induction h with
  | nil => simp at hy
  | cons hs _ ih =>
    rcases List.mem_cons.1 hy with rfl | hy
    · exact ⟨_, List.mem_cons_self .., hs.1, hs.2.2 hspent⟩
    · obtain ⟨s, hmem, hstate⟩ := ih hy
      exact ⟨s, List.mem_cons_of_mem _ hmem, hstate⟩

/-- A truthful answer reports every spent secret. -/
theorem mem_spentSecrets (hys : List.Forall₂ (fun p y => secretPoint p.secret = .ok y) proofs ys)
    (hstates : List.Forall₂ (fun y s => s.y = y ∧ (s.state = spentState ↔ spent y)) ys states)
    (hdistinct : DistinctPoints proofs) {p : Proof} (hp : p ∈ proofs) (hspent : SecretSpent spent p.secret) :
    p.secret ∈ spentSecrets (ys.zip (proofs.map Proof.secret)) states := by
  obtain ⟨y, hpoint, hy⟩ := hspent
  have hrow : (y, p.secret) ∈ ys.zip (proofs.map Proof.secret) := (mem_points hys).2 ⟨p, hp, rfl, hpoint⟩
  obtain ⟨s, hs, rfl, hstate⟩ := exists_state hstates (List.of_mem_zip hrow).1 hy
  refine List.mem_filterMap.2 ⟨s, List.mem_filter.2 ⟨hs, by simpa using hstate⟩, ?_⟩
  have hkey : (pointHex s.y, p.secret) ∈ (ys.zip (proofs.map Proof.secret)).map fun row => (pointHex row.1, row.2) :=
    List.mem_map.2 ⟨_, hrow, rfl⟩
  obtain ⟨secret, hmem, hlookup⟩ := Finmap.exists_lookup_insertAll (t := (∅ : Finmap fun _ : String => String)) hkey
  rw [hlookup]
  obtain ⟨⟨y', secret'⟩, hrow', heq⟩ := List.mem_map.1 hmem
  obtain ⟨hy', rfl⟩ := Prod.mk.inj heq
  obtain rfl := pointHex_injective hy'
  obtain ⟨q, hq, rfl, hqpoint⟩ := (mem_points hys).1 hrow'
  exact congrArg some (hdistinct q hq p hp _ hqpoint hpoint)

theorem exists_asked (h : List.Forall₂ (fun y s => s.y = y ∧ (s.state = spentState ↔ spent y)) ys states) {s : ProofState}
    (hs : s ∈ states) (hstate : s.state = spentState) : spent s.y := by
  induction h with
  | nil => simp at hs
  | cons hone _ ih =>
    rcases List.mem_cons.1 hs with rfl | hs
    · rw [hone.1]
      exact hone.2.1 hstate
    · exact ih hs

/-- And no other. -/
theorem spent_of_mem_spentSecrets (hys : List.Forall₂ (fun p y => secretPoint p.secret = .ok y) proofs ys)
    (hstates : List.Forall₂ (fun y s => s.y = y ∧ (s.state = spentState ↔ spent y)) ys states) {secret : String}
    (h : secret ∈ spentSecrets (ys.zip (proofs.map Proof.secret)) states) : SecretSpent spent secret := by
  obtain ⟨s, hs, hlookup⟩ := List.mem_filterMap.1 h
  obtain ⟨hs, hstate⟩ := List.mem_filter.1 hs
  rcases Finmap.mem_of_lookup_insertAll hlookup with hrow | hnone
  · obtain ⟨⟨y, secret'⟩, hrow, heq⟩ := List.mem_map.1 hrow
    obtain ⟨hy, rfl⟩ := Prod.mk.inj heq
    obtain rfl := pointHex_injective hy
    obtain ⟨p, -, rfl, hpoint⟩ := (mem_points hys).1 hrow
    exact ⟨_, hpoint, exists_asked hstates hs (by simpa using hstate)⟩
  · simp at hnone

end states

/-! ### From a state to a later one -/

/-- What a restore reads of the engine is as it was, and none was sent. -/
structure Unrestored (e t : WalletEngine) : Prop where
  seed : t.world.wallet.seed = e.world.wallet.seed
  keysetId : t.keysetId = e.keysetId
  keys : t.keys = e.keys
  sent : ∃ new, t.world.sent = new ++ e.world.sent ∧ ∀ r ∈ new, ∀ request, r ≠ .restore request

section steps
variable {env : EngineEnv} {e t u : WalletEngine} {ps : List Proof}

namespace Unrestored

theorem refl : Unrestored e e := ⟨rfl, rfl, rfl, [], rfl, by simp⟩

theorem trans (h : Unrestored e t) (h' : Unrestored t u) : Unrestored e u := by
  obtain ⟨new, hsent, hnew⟩ := h.sent
  obtain ⟨new', hsent', hnew'⟩ := h'.sent
  refine ⟨h'.seed.trans h.seed, h'.keysetId.trans h.keysetId, h'.keys.trans h.keys, new' ++ new,
    by rw [hsent', hsent, List.append_assoc], fun r hr => ?_⟩
  exact (List.mem_append.1 hr).elim (hnew' r) (hnew r)

theorem of_holding (h : e.Holding ps t) : Unrestored e t := by
  obtain ⟨blob, calls, rfl⟩ := h
  exact ⟨rfl, rfl, rfl, [], rfl, by simp⟩

/-- The request that has left last is none for a restore. -/
theorem not_restore (h : Unrestored e t) (request : RestoreRequest) (before : List WalletRequest) :
    t.world.sent ≠ .restore request :: (before ++ e.world.sent) := by
  obtain ⟨new, hsent, hnew⟩ := h.sent
  intro hlast
  rw [hlast, ← List.cons_append] at hsent
  have hnew' := List.append_cancel_right hsent
  exact hnew (.restore request) (by rw [← hnew']; exact List.mem_cons_self) request rfl

end Unrestored

theorem bind_spendSome {β : Type} {amount : UInt64} {k : List Proof → EngineM β}
    {Q : Outcome CashuError β → WalletEngine → Prop}
    (hspent : ∀ selected t, (∀ p ∈ selected, p ∈ e.proofs) → e.Holding (e.proofs.filter (· ∉ selected)) t →
      (k selected).Ends env t Q) (hstop : ∀ o : Outcome CashuError β, o.isOk = false → ∀ t, Q o t) :
    (callWallet (spend amount) >>= k).Ends env e Q := by
  refine bind_callWallet (spend_takes amount) (fun selected w h => ?_) (fun x w _ => hstop _ rfl _) fun w _ => hstop _ rfl _
  rcases h with hstopped | ⟨hheld, hvalue, hsaves⟩
  · cases hstopped
  · rw [hvalue selected rfl]
    exact hspent _ _ (fun p hp => hheld.subset hp) (.of_saves hsaves)

/-- The selection is there again, behind the others. -/
theorem mem_back {selected : List Proof} (hselected : ∀ p ∈ selected, p ∈ ps) (p : Proof) :
    p ∈ ps.filter (· ∉ selected) ++ selected ↔ p ∈ ps := by
  rw [List.mem_append, List.mem_filter]
  constructor
  · rintro (⟨hp, -⟩ | hp)
    · exact hp
    · exact hselected p hp
  · intro hp
    by_cases hsel : p ∈ selected
    · exact .inr hsel
    · exact .inl ⟨hp, by simpa using hsel⟩

/-! ### Reconciling -/

theorem pruneSpent_holds (spent : List String) : (pruneSpent spent).Ends env e fun o t =>
    ∃ ps, e.Holding ps t ∧ ∀ n, o = .ok n → ∀ p, p ∈ ps ↔ p ∈ e.proofs ∧ p.secret ∉ spent := by
  unfold pruneSpent
  by_cases hnil : spent = []
  · rw [if_pos hnil, hnil]
    exact Ends.pure ⟨_, .refl, by simp⟩
  · rw [if_neg hnil]
    have hmem : ∀ p, p ∈ e.proofs.filter (· ∉ e.proofs.filter (·.secret ∈ spent)) ↔ p ∈ e.proofs ∧ p.secret ∉ spent := by
      intro p
      simp only [List.mem_filter, decide_eq_true_eq, not_and]
      exact and_congr_right fun hp => ⟨fun h => h hp, fun h _ => h⟩
    refine Ends.bind_get (bind_callWallet (removeProofs_ends _) (fun _ w hsaves => Ends.pure ?_) (fun _ w hsaves => ?_)
      fun w hsaves => ?_)
    · exact ⟨_, .of_saves hsaves, fun _ _ => hmem⟩
    · exact ⟨_, .of_saves hsaves, by simp⟩
    · exact ⟨_, .of_saves hsaves, by simp⟩

/-- A reconciliation with a truthful answer keeps the proofs that were not spent when it asked, and no others. -/
theorem reconcileSpent_holds {spentAt : Nat → PublicKey → Prop} (htruthful : TruthfulStates env spentAt)
    (hdistinct : DistinctPoints e.proofs) : reconcileSpent.Ends env e fun o t => ∃ ps, e.Holding ps t ∧
      ∀ n, o = .ok n → ∀ p, p ∈ ps ↔ p ∈ e.proofs ∧ ¬ SecretSpent (spentAt e.calls) p.secret := by
  refine bind_ensureConnected (fun _ => Ends.bind_get ?_) fun _ => ⟨_, .refl, by simp⟩
  by_cases hempty : e.proofs = []
  · rw [if_pos hempty]
    exact Ends.pure ⟨_, .refl, by simp [hempty]⟩
  · rw [if_neg hempty]
    refine Ends.bind_lift (fun ys hys => ?_) fun _ _ => ⟨_, .refl, by simp⟩
    have hasked : e.Holding e.proofs (e.after e.world) := ⟨e.world.blob, e.calls + 1, rfl⟩
    refine bind_ask (fun response hresponse => ?_) fun _ _ => ⟨_, hasked, by simp⟩
    refine (pruneSpent_holds _).mono fun o t ⟨ps, ht, hps⟩ => ⟨ps, hasked.trans ht, fun n hn p => (hps n hn p).trans ?_⟩
    have hys := Except.mapM_eq_ok.1 hys
    have hstates := htruthful _ _ _ hresponse
    refine and_congr_right fun hp => not_congr ⟨spent_of_mem_spentSecrets hys hstates, ?_⟩
    exact mem_spentSecrets hys hstates hdistinct hp

/-! ### Restoring -/

variable [Curve]

/-- At the call `k` the mint answers a restore with a signature on the output of this secret. -/
def RestoredAt (env : EngineEnv) (e : WalletEngine) (k : Nat) (secret : String) : Prop :=
  ∃ request response, (env.wallet k).postRestore request = .ok response ∧ ∃ out ∈ response.outputs, ∃ idx d,
    deriveOutput e.world.wallet.seed e.keysetId idx = .ok d ∧ out.y = d.blinded ∧ secret = d.secretHex

/-- A restore adds proofs that verify, for secrets of the wallet. -/
theorem restoreEnds_credits {o : Outcome CashuError Nat} {w : WalletWorld}
    (h : RestoreEnds (env.wallet e.calls) e.keysetId e.keys e.world o w) : ∃ new, w.wallet.proofs = e.proofs ++ new ∧
      ∀ p ∈ new, Verified e.keys p ∧ RestoredAt env e e.calls p.secret := by
  rcases h with - | - | @⟨_, derived, response, acc, hscans, hanswer, hfinds, hverified, -, hsaves⟩
  · exact ⟨[], (List.append_nil _).symm, by simp⟩
  · exact ⟨[], (List.append_nil _).symm, by simp⟩
  · refine ⟨acc.proofs, ?_, fun p hp => ⟨hverified p hp, ?_⟩⟩
    · split_ifs at hsaves
      · obtain ⟨blob, rfl⟩ := hsaves.proofs
        rfl
      · rw [hsaves.2]
        rfl
    · obtain ⟨out, hout, idx, m, ⟨d, key, c, hrow, -, -, rfl⟩, -⟩ := hfinds.finding.answers p hp
      obtain ⟨-, hderived, hblinded⟩ := of_lookup_byBlinded hscans hrow
      exact ⟨_, response, hanswer, out, hout, idx, d, hderived, hblinded, rfl⟩

/-- The mint's answer to a restore of the outputs `derived`, at the call `k`, gives a wallet that knows the secrets `known`
the proofs `new`: each is made of a signature on an output that was asked for, and all of them verify. -/
def RestoreGives (env : EngineEnv) (keys : KeySet) (k : Nat) (derived : List DerivedOutput) (known : List String)
    (new : List Proof) : Prop :=
  ∃ response acc, (env.wallet k).postRestore ⟨derived.map DerivedOutput.blinded⟩ = .ok response ∧
    response.outputs.foldlM (restoreOutput (byBlinded derived) keys) { known, proofs := [], added := 0, maxIdx := none } =
      .ok acc ∧
    (∀ p ∈ acc.proofs, Verified keys p) ∧ acc.proofs = new

/-- The order in which the secrets are known does not matter. -/
theorem restoreOutputs_known {rows : Finmap fun _ : String => UInt32 × DerivedOutput} {keys : KeySet}
    (outputs : List RestoreOutput)
    {known known' : List String} {proofs : List Proof} {added : Nat} {maxIdx : Option UInt32} {acc : Restored}
    (hsame : ∀ s, s ∈ known' ↔ s ∈ known)
    (h : outputs.foldlM (restoreOutput rows keys) ⟨known, proofs, added, maxIdx⟩ = .ok acc) :
    ∃ acc', outputs.foldlM (restoreOutput rows keys) ⟨known', proofs, added, maxIdx⟩ = .ok acc' ∧
      acc'.proofs = acc.proofs := by
  induction outputs generalizing known known' proofs added maxIdx with
  | nil =>
    cases h
    exact ⟨_, rfl, rfl⟩
  | cons out outputs ih =>
    rw [List.foldlM_cons] at h ⊢
    obtain ⟨mid, hmid, h⟩ := Except.bind_eq_ok.1 h
    unfold restoreOutput at hmid ⊢
    split at hmid
    · cases hmid
      exact ih hsame h
    · next idx d hrow =>
      dsimp only at hmid ⊢
      have hcontains : known'.contains d.secretHex = known.contains d.secretHex := by
        rw [Bool.eq_iff_iff, List.contains_iff_mem, List.contains_iff_mem, hsame]
      rw [hcontains]
      split at hmid
      · next hknown =>
        cases hmid
        rw [if_pos hknown]
        exact ih hsame h
      · next hknown =>
        obtain ⟨key, hkey, hmid⟩ := Except.bind_eq_ok.1 hmid
        obtain ⟨c, hc, hmid⟩ := Except.bind_eq_ok.1 hmid
        cases hmid
        have hsame' : ∀ s, s ∈ d.secretHex :: known' ↔ s ∈ d.secretHex :: known := fun s => by
          rw [List.mem_cons, List.mem_cons, hsame]
        obtain ⟨acc', hacc', hproofs⟩ := ih hsame' h
        rw [if_neg hknown]
        refine ⟨acc', Except.bind_eq_ok.2 ⟨_, ?_, hacc'⟩, hproofs⟩
        exact Except.bind_eq_ok.2 ⟨key, hkey, Except.bind_eq_ok.2 ⟨c, hc, rfl⟩⟩

section gives
variable {keys : KeySet} {k : Nat} {derived : List DerivedOutput} {known known' : List String} {new new' : List Proof}

theorem RestoreGives.unique (h : RestoreGives env keys k derived known new)
    (h' : RestoreGives env keys k derived known new') :
    new = new' := by
  obtain ⟨response, acc, hanswer, hacc, -, rfl⟩ := h
  obtain ⟨response', acc', hanswer', hacc', -, rfl⟩ := h'
  obtain rfl := Except.ok.inj (hanswer.symm.trans hanswer')
  rw [Except.ok.inj (hacc.symm.trans hacc')]

theorem RestoreGives.of_same (hsame : ∀ s, s ∈ known' ↔ s ∈ known) (h : RestoreGives env keys k derived known new) :
    RestoreGives env keys k derived known' new := by
  obtain ⟨response, acc, hanswer, hacc, hverified, rfl⟩ := h
  obtain ⟨acc', hacc', hproofs⟩ := restoreOutputs_known _ hsame hacc
  exact ⟨response, acc', hanswer, hacc', hproofs ▸ hverified, hproofs⟩

end gives

/-- What a restore leaves: nothing has been asked, or the wallet has what the answer gives as well. -/
inductive RestoreLeaves (env : EngineEnv) (e : WalletEngine) : WalletEngine → Prop
  | idle {t : WalletEngine} (held : e.Holding e.proofs t) : RestoreLeaves env e t
  | asked {t : WalletEngine} {end_ : UInt32} {derived : List DerivedOutput} {new : List Proof}
      (scans : scanOutputs e.world.wallet.seed e.keysetId end_ = .ok derived)
      (sent : t.world.sent = .restore ⟨derived.map DerivedOutput.blinded⟩ :: e.world.sent) (calls : t.calls = e.calls + 1)
      (reconciles : t.reconciles = e.reconciles) (proofs : t.proofs = e.proofs ++ new)
      (gives : RestoreGives env e.keys e.calls derived (e.proofs.map Proof.secret) new ∨
        new = [] ∧ ∀ new', ¬ RestoreGives env e.keys e.calls derived (e.proofs.map Proof.secret) new') : RestoreLeaves env e t

theorem RestoreLeaves.same_reconciles (h : RestoreLeaves env e t) : t.reconciles = e.reconciles := by
  rcases h with ⟨blob, calls, rfl⟩ | ⟨-, -, -, hreconciles⟩
  · rfl
  · exact hreconciles

theorem restoreEnds_leaves {o : Outcome CashuError Nat} {w : WalletWorld}
    (h : RestoreEnds (env.wallet e.calls) e.keysetId e.keys e.world o w) : RestoreLeaves env e (e.after w) := by
  rcases h with - | @⟨derived, hscans, hfails⟩ | @⟨_, derived, response, acc, hscans, hanswer, hfinds, hverified, -, hsaves⟩
  · exact .idle ⟨e.world.blob, e.calls + 1, rfl⟩
  · refine .asked hscans rfl rfl rfl (List.append_nil _).symm (.inr ⟨rfl, ?_⟩)
    rintro new' ⟨response, acc, hanswer, hacc, hverified, -⟩
    obtain ⟨p, hp, hnot⟩ := hfails response acc hanswer hacc
    exact hnot (hverified p hp)
  · have hgives : RestoreGives env e.keys e.calls derived (e.proofs.map Proof.secret) acc.proofs :=
      ⟨response, acc, hanswer, hfinds, hverified, rfl⟩
    split_ifs at hsaves
    · obtain ⟨blob, rfl⟩ := hsaves.proofs
      exact .asked hscans rfl rfl rfl rfl (.inl hgives)
    · rw [hsaves.2]
      exact .asked hscans rfl rfl rfl rfl (.inl hgives)

theorem restore_leaves_ends : restore.Ends env e fun _ t => RestoreLeaves env e t := by
  refine bind_ensureConnected (fun _ => Ends.bind_run knownSecrets_run (Ends.bind_get ?_)) fun _ => .idle .refl
  refine bind_callWallet restore_ends (fun n w h => ?_) (fun x w h => restoreEnds_leaves h) fun w h => restoreEnds_leaves h
  obtain ⟨new, hproofs, hnew⟩ := restoreEnds_credits h
  have hverify : ∀ p ∈ (e.after w).proofs, p.secret ∉ e.proofs.map Proof.secret → Verified (e.after w).keys p := by
    intro p hp hunknown
    rw [after_proofs, hproofs] at hp
    exact (List.mem_append.1 hp).elim (fun hp => absurd (List.mem_map_of_mem hp) hunknown) fun hp => (hnew p hp).1
  split_ifs
  · exact Ends.bind_run (verifyNewProofs_run hverify) (Ends.pure (restoreEnds_leaves h))
  · exact Ends.pure (restoreEnds_leaves h)

/-! ### The fallback -/

/-- The restore that has been the last request since `e` is answered, at the call `k`, with proofs for a wallet that knows the
secrets `known`. -/
def BringsBack (env : EngineEnv) (e : WalletEngine) (k : Nat) (sent : List WalletRequest) (known : List String)
    (new : List Proof) : Prop :=
  ∃ before end_ derived, sent = .restore ⟨derived.map DerivedOutput.blinded⟩ :: (before ++ e.world.sent) ∧
    scanOutputs e.world.wallet.seed e.keysetId end_ = .ok derived ∧ RestoreGives env e.keys k derived known new

/-- The secrets that are not spent at the call `n`. -/
def Knows (spentAt : Nat → PublicKey → Prop) (e : WalletEngine) (n : Nat) (known : List String) : Prop :=
  ∀ s, s ∈ known ↔ ∃ p ∈ e.proofs, p.secret = s ∧ ¬ SecretSpent (spentAt n) s

/-- The wallet in which a send that has reconciled at the call `n` looks for proofs: what it has kept, and what the restore
has brought back. -/
structure Searched (env : EngineEnv) (spentAt : Nat → PublicKey → Prop) (e : WalletEngine) (n : Nat)
    (t : WalletEngine) : Prop where
  kept : ∀ p ∈ e.proofs, ¬ SecretSpent (spentAt n) p.secret → p ∈ t.proofs
  brought : ∀ known new, Knows spentAt e n known → BringsBack env e (t.calls - 1) t.world.sent known new →
    ∀ p ∈ new, p ∈ t.proofs
  all : ∀ p ∈ t.proofs, (p ∈ e.proofs ∧ ¬ SecretSpent (spentAt n) p.secret) ∨
    ∃ known new, Knows spentAt e n known ∧ BringsBack env e (t.calls - 1) t.world.sent known new ∧ p ∈ new

/-- What a send hands out has not been reconciled, or is found in the wallet that was. -/
def HandsOut (env : EngineEnv) (spentAt : Nat → PublicKey → Prop) (e t : WalletEngine) (ps : List Proof) : Prop :=
  t.reconciles = e.reconciles ∨
    ∃ n, t.reconciles = n :: e.reconciles ∧ Searched env spentAt e n t ∧ ∀ p ∈ ps, p ∈ t.proofs

variable {spentAt : Nat → PublicKey → Prop}

omit [Curve] in
theorem Knows.of_kept {n : Nat} (hkept : ∀ p, p ∈ t.proofs ↔ p ∈ e.proofs ∧ ¬ SecretSpent (spentAt n) p.secret) :
    Knows spentAt e n (t.proofs.map Proof.secret) := by
  intro s
  rw [List.mem_map]
  constructor
  · rintro ⟨p, hp, rfl⟩
    obtain ⟨hp, hunspent⟩ := (hkept p).1 hp
    exact ⟨p, hp, rfl, hunspent⟩
  · rintro ⟨p, hp, rfl, hunspent⟩
    exact ⟨p, (hkept p).2 ⟨hp, hunspent⟩, rfl⟩

theorem RestoreLeaves.searched {n : Nat} (hu : Unrestored e t)
    (hkept : ∀ p, p ∈ t.proofs ↔ p ∈ e.proofs ∧ ¬ SecretSpent (spentAt n) p.secret)
    (h : RestoreLeaves env t u) : Searched env spentAt e n u := by
  have hknows := Knows.of_kept hkept
  rcases h with hheld | @⟨end_, derived, new, hscans, hsent, hcalls, -, hproofs, hgives⟩
  · have hu' := hu.trans (.of_holding hheld)
    have hsame : u.proofs = t.proofs := hheld.proofs
    refine ⟨fun p hp hunspent => ?_, ?_, fun p hp => ?_⟩
    · rw [hsame]
      exact (hkept p).2 ⟨hp, hunspent⟩
    · rintro known new - ⟨before, end_, derived, hlast, -⟩
      exact absurd hlast (hu'.not_restore _ _)
    · rw [hsame] at hp
      exact .inl ((hkept p).1 hp)
  · obtain ⟨since, hsince, -⟩ := hu.sent
    rw [hu.seed, hu.keysetId] at hscans
    rw [hu.keys] at hgives
    have hcall : u.calls - 1 = t.calls := by omega
    refine ⟨fun p hp hunspent => ?_, ?_, fun p hp => ?_⟩
    · rw [hproofs]
      exact List.mem_append_left _ ((hkept p).2 ⟨hp, hunspent⟩)
    · rintro known new' hknown ⟨before, end', derived', hlast, hscans', hgives'⟩ p hp
      -- the request that has left is the one that the condition speaks of
      have hrequest : derived.map DerivedOutput.blinded = derived'.map DerivedOutput.blinded := by
        have hhead := (List.cons.inj (hsent.symm.trans hlast)).1
        injection hhead with hhead
        injection hhead
      obtain rfl := scanOutputs_unique hscans hscans' hrequest
      rw [hcall] at hgives'
      have hgives' := hgives'.of_same fun s => (hknows s).trans (hknown s).symm
      rcases hgives with hgives | ⟨-, hnone⟩
      · rw [hproofs, hgives.unique hgives']
        exact List.mem_append_right _ hp
      · exact absurd hgives' (hnone new')
    · rw [hproofs] at hp
      rcases List.mem_append.1 hp with hp | hp
      · exact .inl ((hkept p).1 hp)
      · rcases hgives with hgives | ⟨rfl, -⟩
        · refine .inr ⟨_, new, hknows, ⟨since, end_, derived, by rw [hsent, hsince], hscans, ?_⟩, hp⟩
          rwa [hcall]
        · cases hp

section fallback
variable (htruthful : TruthfulStates env spentAt)
include htruthful

theorem reconcileThenRestore_hands (hu : Unrestored e t) (hreconciles : t.reconciles = e.reconciles)
    (hsame : ∀ p, p ∈ t.proofs ↔ p ∈ e.proofs) (hdistinct : DistinctPoints e.proofs) :
    reconcileThenRestore.Ends env t fun _ u => HandsOut env spentAt e u u.proofs := by
  have hdistinct' : DistinctPoints t.proofs := fun p hp q hq => hdistinct p ((hsame p).1 hp) q ((hsame q).1 hq)
  have hnone : ∀ {ps : List Proof} {u : WalletEngine}, t.Holding ps u → HandsOut env spentAt e u u.proofs := by
    rintro ps _ ⟨blob, calls, rfl⟩
    exact .inl hreconciles
  refine Ends.bind_get (Ends.bind_attempt (reconcileSpent_holds htruthful hdistinct') ?_ ?_ ?_)
  · rintro n u ⟨ps, hheld, hps⟩
    refine Ends.bind_modify ?_
    have hu' : Unrestored e { u with reconciles := t.calls :: u.reconciles } := by
      obtain ⟨blob, calls, rfl⟩ := hheld
      exact ⟨hu.seed, hu.keysetId, hu.keys, hu.sent⟩
    have hkept : ∀ p, p ∈ u.proofs ↔ p ∈ e.proofs ∧ ¬ SecretSpent (spentAt t.calls) p.secret := by
      intro p
      rw [hheld.proofs, hps n rfl p, hsame]
    have hnoted : u.reconciles = e.reconciles := by
      obtain ⟨blob, calls, rfl⟩ := hheld
      exact hreconciles
    refine Ends.bind_keeps (Ends.attempt_keeps (restore_leaves_ends.mono fun o v hv => ?_)) fun _ _ h => Ends.pure h
    refine .inr ⟨t.calls, ?_, hv.searched hu' hkept, fun _ hp => hp⟩
    rw [hv.same_reconciles, ← hnoted]
  · rintro x u ⟨ps, hheld, -⟩
    exact Ends.pure (hnone hheld)
  · rintro u ⟨ps, hheld, -⟩
    exact hnone hheld

theorem offlineFallback_hands {amount : UInt64} {selected : List Proof} (err : CashuError) (hu : Unrestored e t)
    (hreconciles : t.reconciles = e.reconciles) (hback : ∀ p, p ∈ t.proofs ++ selected ↔ p ∈ e.proofs)
    (hdistinct : DistinctPoints e.proofs) :
    (offlineFallback amount selected err).Ends env t fun o u => ∀ ps, o = .ok ps → HandsOut env spentAt e u ps := by
  refine bind_undo fun _ u hheld => ?_
  by_cases htransport : err.isTransport = true
  · rw [if_pos htransport]
    have hsame : ∀ p, p ∈ u.proofs ↔ p ∈ e.proofs := by rwa [hheld.proofs]
    have hnoted : u.reconciles = e.reconciles := by
      obtain ⟨blob, calls, rfl⟩ := hheld
      exact hreconciles
    refine Ends.bind (reconcileThenRestore_hands htruthful (hu.trans (.of_holding hheld)) hnoted hsame hdistinct)
      (fun _ v hv => Ends.bind_get ?_) (fun _ _ _ => by simp) fun _ _ => by simp
    unfold Ends
    simp only [run, okOr]
    split
    · next chosen hchosen =>
      rintro ps ⟨⟩
      refine hv.imp_right ?_
      rintro ⟨n, hn, hsearched, -⟩
      exact ⟨n, hn, hsearched, findExact_subset hchosen⟩
    · simp
  · rw [if_neg htransport]
    exact Ends.fail (by simp)

theorem composeSwap_hands {amount keep : UInt64} {selected ps : List Proof} (hheld : e.Holding ps t)
    (hback : ∀ p, p ∈ ps ++ selected ↔ p ∈ e.proofs) (hdistinct : DistinctPoints e.proofs) :
    (composeSwap amount keep selected).Ends env t fun o u => ∀ ps, o = .ok ps → HandsOut env spentAt e u ps := by
  have hnoted : t.reconciles = e.reconciles := by
    obtain ⟨blob, calls, rfl⟩ := hheld
    rfl
  have hu : Unrestored e t := .of_holding hheld
  refine Ends.bind_get (bind_attemptWallet swapDeterministic_rotates (fun fresh w h => ?_) (fun x w h => ?_) fun w h => ?_)
  · exact Ends.pure fun ps _ => .inl hnoted
  · have hfalls : Unrestored t (t.after w) → w.wallet.proofs = t.proofs →
        (offlineFallback amount selected x).Ends env (t.after w) fun o u =>
          ∀ ps, o = .ok ps → HandsOut env spentAt e u ps := by
      intro h hproofs
      refine offlineFallback_hands htruthful x (hu.trans h) hnoted (fun p => ?_) hdistinct
      rw [after_proofs, hproofs, hheld.proofs]
      exact hback p
    rcases h with - | - | ⟨-, -, hsaves⟩
    · exact hfalls ⟨rfl, rfl, rfl, [], rfl, by simp⟩ rfl
    · exact hfalls ⟨rfl, rfl, rfl, [_], rfl, by simp⟩ rfl
    · -- a swap that could not be saved is an error of the store
      obtain ⟨y, rfl⟩ : ∃ y, x = storeError y := by
        unfold Saves at hsaves
        split at hsaves
        · cases hsaves.1
        · next y _ _ => exact ⟨y, by simpa using hsaves.1⟩
      refine bind_undo fun _ u _ => ?_
      rw [if_neg (by rw [isTransport_storeError]; simp)]
      exact Ends.fail (by simp)
  · simp

theorem composeExact_hands {amount : UInt64} (hdistinct : DistinctPoints e.proofs) :
    (composeExact amount).Ends env e fun o t => ∀ ps, o = .ok ps → HandsOut env spentAt e t ps := by
  refine Ends.bind_failIf (fun _ => ?_) fun _ => by simp
  have hhint : (swapFeeHint amount).Ends env e fun o t =>
      ∀ fee, o = .ok fee → ∃ ps, e.Holding ps t ∧ ∀ p, p ∈ ps ↔ p ∈ e.proofs := by
    refine Ends.bind_get ?_
    split_ifs
    · exact Ends.pure fun _ _ => ⟨_, .refl, fun _ => Iff.rfl⟩
    · refine bind_spendSome (fun selected t hselected ht => ?_) fun o ho t fee hfee => by rw [hfee] at ho; cases ho
      refine bind_undo fun _ u hu => (inputFee_computes _ env u).mono fun o v hv fee _ => ?_
      rw [hv.1]
      refine ⟨t.proofs ++ selected, ht.trans hu, ?_⟩
      rw [ht.proofs]
      exact mem_back hselected
  refine Ends.bind hhint (fun fee t ht => Ends.bind_okOr (fun needed _ => ?_) fun _ => by simp) (fun _ _ _ => by simp)
    fun _ _ => by simp
  obtain ⟨ps, ht, hps⟩ := ht fee rfl
  refine bind_spendSome (fun selected u hselected hu => ?_) fun o ho u ps hps => by rw [hps] at ho; cases ho
  refine (sumAmounts_computes selected 0).bind_ends (fun total _ => ?_) (by simp)
  refine (subU64_computes total amount).bind_ends (fun left _ => ?_) (by simp)
  refine (subU64_computes left fee).bind_ends (fun keep _ => ?_) (by simp)
  refine composeSwap_hands htruthful (ht.trans hu) (fun p => ?_) hdistinct
  rw [mem_back hselected, ht.proofs]
  exact hps p

end fallback

end steps

/-! ### The send -/

section send
variable [Curve] [Minicbor] [MinicborCodec] [TokenCrates] {env : EngineEnv} {e t : WalletEngine}
  {spentAt : Nat → PublicKey → Prop}

/-- Between the reconciliation at the call `n` and the end no proof of the wallet was spent; and the mint's answer to the
restore of the send, whose call is the last but one, brings back no proof that is spent at the end. -/
structure SendUndisturbed (env : EngineEnv) (spentAt : Nat → PublicKey → Prop) (e : WalletEngine) (n : Nat)
    (t : WalletEngine) :
    Prop where
  kept : ∀ p ∈ e.proofs, SecretSpent (spentAt t.calls) p.secret → SecretSpent (spentAt n) p.secret
  restored : ∀ known new, Knows spentAt e n known → BringsBack env e (t.calls - 2) t.world.sent known new →
    ∀ p ∈ new, ¬ SecretSpent (spentAt t.calls) p.secret

omit [Minicbor] [MinicborCodec] [TokenCrates] in
/-- Then no proof of the wallet that was searched is spent at the end, and only then. -/
theorem Searched.undisturbed_iff {n : Nat} {u : WalletEngine} (h : Searched env spentAt e n u)
    (hcalls : t.calls = u.calls + 1)
    (hsent : t.world.sent = u.world.sent) :
    SendUndisturbed env spentAt e n t ↔ ∀ p ∈ u.proofs, ¬ SecretSpent (spentAt t.calls) p.secret := by
  have hcall : t.calls - 2 = u.calls - 1 := by omega
  constructor
  · rintro ⟨hkept, hrestored⟩ p hp
    rw [hcall, hsent] at hrestored
    rcases h.all p hp with ⟨hp, hunspent⟩ | ⟨known, new, hknows, hbrings, hp⟩
    · exact fun hspent => hunspent (hkept p hp hspent)
    · exact hrestored known new hknows hbrings p hp
  · intro hall
    refine ⟨fun p hp hspent => ?_, fun known new hknows hbrings p hp => ?_⟩
    · by_contra hunspent
      exact hall p (h.kept p hp hunspent) hspent
    · rw [hcall, hsent] at hbrings
      exact hall p (h.brought known new hknows hbrings p hp)

omit [Minicbor] [MinicborCodec] [TokenCrates] in
/-- The proofs that a send has found leave the wallet, and the last call is made. -/
theorem HandsOut.unspent_iff {n : Nat} {u : WalletEngine} {ps : List Proof} (h : HandsOut env spentAt e u ps)
    (hcalls : t.calls = u.calls + 1) (hsent : t.world.sent = u.world.sent) (hn : u.reconciles = n :: e.reconciles)
    (hproofs : t.proofs = u.proofs.filter (· ∉ ps)) :
    (SendUndisturbed env spentAt e n t → ∀ p ∈ ps, ¬ SecretSpent (spentAt t.calls) p.secret) ∧
      (¬ SendUndisturbed env spentAt e n t → ∃ p, (p ∈ ps ∨ p ∈ t.proofs) ∧ SecretSpent (spentAt t.calls) p.secret) := by
  obtain hsame | ⟨n', hn', hsearched, hfound⟩ := h
  · have hlength := congrArg List.length (hn.symm.trans hsame)
    simp at hlength
  · obtain ⟨rfl, -⟩ := List.cons.inj (hn.symm.trans hn')
    have hiff := hsearched.undisturbed_iff hcalls hsent
    refine ⟨fun hundisturbed p hp => hiff.1 hundisturbed p (hfound p hp), fun hdisturbed => ?_⟩
    by_contra hnone
    rw [not_exists] at hnone
    refine hdisturbed (hiff.2 fun p hp hspent => hnone p ⟨?_, hspent⟩)
    by_cases hmem : p ∈ ps
    · exact .inl hmem
    · refine .inr ?_
      rw [hproofs]
      exact List.mem_filter.2 ⟨hp, by simpa using hmem⟩

/-- What a send hands out has left the wallet. One that has reconciled hands out no spent proof where nobody was faster and
the restore brought none back; otherwise a spent proof is among those that it chose from. -/
theorem send_hands_out_unspent {amount : UInt64} {memo : Option String} {wire : String}
    (htruthful : TruthfulStates env spentAt) (hdistinct : DistinctPoints e.proofs)
    (hrun : (sendToken amount memo).run env e = (.ok wire, t)) :
    ∃ proofs, encodeTokenWire (t.sentToken memo proofs) = some wire ∧ (∀ p ∈ proofs, p ∉ t.proofs) ∧
      ∀ n, t.reconciles = n :: e.reconciles →
        (SendUndisturbed env spentAt e n t → ∀ p ∈ proofs, ¬ SecretSpent (spentAt t.calls) p.secret) ∧
        (¬ SendUndisturbed env spentAt e n t →
          ∃ p, (p ∈ proofs ∨ p ∈ t.proofs) ∧ SecretSpent (spentAt t.calls) p.secret) := by
  have hends : (sendToken amount memo).Ends env e fun o t => ∀ wire, o = .ok wire →
      ∃ proofs, encodeTokenWire (t.sentToken memo proofs) = some wire ∧ (∀ p ∈ proofs, p ∉ t.proofs) ∧
        ∀ n, t.reconciles = n :: e.reconciles →
          (SendUndisturbed env spentAt e n t → ∀ p ∈ proofs, ¬ SecretSpent (spentAt t.calls) p.secret) ∧
          (¬ SendUndisturbed env spentAt e n t →
            ∃ p, (p ∈ proofs ∨ p ∈ t.proofs) ∧ SecretSpent (spentAt t.calls) p.secret) := by
    refine bind_ensureConnected (fun _ => ?_) fun _ => by simp
    refine Ends.bind (composeExact_hands htruthful hdistinct) (fun proofs u hu => ?_) (fun _ _ _ => by simp)
      fun _ _ => by simp
    refine Ends.bind_get (Ends.bind_okOr (fun wire hwire => ?_) fun _ => by simp)
    refine bind_callWallet (removeProofs_ends proofs) (fun _ w hsaves => ?_) (fun _ _ _ => by simp) fun _ _ => by simp
    obtain ⟨blob, rfl⟩ := hsaves.proofs
    refine Ends.bind_run rfl (Ends.pure ?_)
    rintro _ ⟨⟩
    refine ⟨proofs, hwire, fun p hp hmem => ?_, fun n hn => (hu proofs rfl).unspent_iff rfl rfl hn rfl⟩
    simpa [hp] using (List.mem_filter.1 hmem).2
  exact hends.elim hrun wire rfl

end send

end WalletEngine

end

section toy
open Toy32 ToyCbor ToyEngine WalletEngine

namespace ToyEngine

def lastSecret : String := "00000000000000000000000000000000000000000000000000000000000000c9"

/-- The coin of four from the last output that a restore scans. -/
def lastCoin : Proof := restoredProof (sign 3 125 4) ⟨lastSecret, (202 : UInt8), (125 : UInt8)⟩ (25 : UInt8)

/-- The swap is lost; the mint has signed the last output, and says which points are spent. -/
def losing (spent : UInt8 → Bool) : EngineEnv where
  wallet _ := { mint with
    postSwap := fun _ => .error (.transport "timed out")
    postRestore := fun r => .ok ⟨if (125 : UInt8) ∈ r.outputs then [⟨(125 : UInt8), sign 3 125 4⟩] else []⟩ }
  checkState _ r := .ok ⟨r.ys.map fun y => ⟨y, if spent y then spentState else "UNSPENT", none⟩⟩
  postMeltQuote _ _ := .ok (quote 4 0)
  now _ := 1700000000
  overflowChecks := true
  sameBuild _ := rfl

theorem losing_truthful (spent : UInt8 → Bool) : TruthfulStates (losing spent) fun _ y => spent y = true := by
  rintro n request response ⟨⟩
  refine List.forall₂_map_right_iff.2 (List.forall₂_same.2 fun y _ => ⟨rfl, ?_⟩)
  by_cases h : spent y = true
  · simp [h]
  · simp [h, spentState]

/-- An engine past the first output. -/
def second (proofs : List Proof) : WalletEngine :=
  { holding 0 proofs with
    world := WalletWorld.saved ⟨{ PersistentWallet.new none [1] with proofs, counter := 1 }, none, []⟩ }

/-- A send to a mint that knows these points as spent. -/
def lostSend (spent : UInt8 → Bool) : Outcome CashuError String × WalletEngine :=
  (sendToken 4 none).run (losing spent) (second [lastCoin])

def endsWith (P : String → WalletEngine → Bool) : Outcome CashuError String × WalletEngine → Bool
  | (.ok wire, t) => P wire t
  | (.err _, _) | (.panic, _) => false

theorem exists_wire {P : String → WalletEngine → Bool} {r : Outcome CashuError String × WalletEngine}
    (h : endsWith P r = true) : ∃ wire t, r = (.ok wire, t) ∧ P wire t = true := by
  rcases r with ⟨wire | x | -, t⟩
  · exact ⟨wire, t, rfl, h⟩
  · cases h
  · cases h

theorem distinct_lastCoin : DistinctPoints (second [lastCoin]).proofs := by
  intro p hp q hq
  obtain rfl : p = lastCoin := List.mem_singleton.1 hp
  obtain rfl : q = lastCoin := List.mem_singleton.1 hq
  exact fun _ _ _ => rfl

end ToyEngine

theorem send_hands_out_unspent_toy : ∃ wire t, lostSend (fun _ => false) = (.ok wire, t) ∧ t.reconciles = [3] ∧
    ∃ proofs, encodeTokenWire (t.sentToken none proofs) = some wire ∧ (∀ p ∈ proofs, p ∉ t.proofs) ∧
      ∀ p ∈ proofs, ¬ SecretSpent (fun _ => false = true) p.secret := by
  have hends : endsWith (fun _ t => t.reconciles = [3]) (lostSend fun _ => false) = true := by decide +kernel
  obtain ⟨wire, t, hrun, hreconciled⟩ := exists_wire hends
  have hreconciled : t.reconciles = [3] := by simpa using hreconciled
  obtain ⟨proofs, hwire, hgone, hunspent⟩ := send_hands_out_unspent (losing_truthful _) distinct_lastCoin hrun
  refine ⟨wire, t, hrun, hreconciled, proofs, hwire, hgone, (hunspent 3 hreconciled).1 ⟨?_, ?_⟩⟩
  · rintro p - ⟨y, -, hy⟩
    cases hy
  · rintro known new - - p - ⟨y, -, hy⟩
    cases hy

/-- Another device with the seed has spent the coin. The send reconciles, and drops it; restores, and has it again; and
hands it out. -/
theorem send_hands_out_spent : ∃ spent : UInt8 → Bool, TruthfulStates (losing spent) (fun _ y => spent y = true) ∧
    ∃ wire t, (sendToken 4 none).run (losing spent) (second [lastCoin]) = (.ok wire, t) ∧ t.reconciles = [3] ∧
      encodeTokenWire (t.sentToken none [lastCoin]) = some wire ∧ SecretSpent (fun y => spent y = true) lastCoin.secret := by
  let spent : UInt8 → Bool := fun y => (secretPoint lastSecret).toOption = some y
  have hends : endsWith (fun wire t => t.reconciles = [3] ∧ encodeTokenWire (t.sentToken none [lastCoin]) = some wire)
      (lostSend spent) = true := by decide +kernel
  have hspent : SecretSpent (fun y => spent y = true) lastCoin.secret := ⟨_, rfl, by decide +kernel⟩
  obtain ⟨wire, t, hrun, h⟩ := exists_wire hends
  obtain ⟨hreconciled, hwire⟩ := of_decide_eq_true h
  exact ⟨spent, losing_truthful spent, wire, t, hrun, hreconciled, hwire, hspent⟩

end toy

end Micronuts
