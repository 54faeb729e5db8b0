import Micronuts.Wallet.Bookkeeping
import Micronuts.Wallet.Custody
import Micronuts.Wallet.ExactSearch
import Micronuts.Wallet.Sends

/-!
# What a send does to the wallet (`micronuts-wallet-core`: `engine.rs`)

The token of a send has the proofs that leave the wallet, whether a swap has brought them or they were held, and one record
stands for it. The group of the token has the id of the active keyset. A send that fails over a store that saves has put its
selection back (`SameProofs`), unless its swap has landed, or has met a mint out of reach: then the engine has asked again
what is spent and what can be restored (`Recovers`).
-/

namespace Micronuts
open WalletM Exec

section
variable [Crypto]

/-! ### The same proofs -/

/-- The same proofs, and each once when each was there once. -/
structure SameProofs (l l' : List Proof) : Prop where
  mem : ∀ p, p ∈ l' ↔ p ∈ l
  perm : l.Nodup → l'.Perm l

namespace SameProofs
variable {l l' l'' taken : List Proof}

theorem refl : SameProofs l l := ⟨fun _ => Iff.rfl, fun _ => .refl _⟩

theorem trans (h : SameProofs l l') (h' : SameProofs l' l'') : SameProofs l l'' where
  mem p := (h'.mem p).trans (h.mem p)
  perm hnodup := (h'.perm ((h.perm hnodup).nodup_iff.2 hnodup)).trans (h.perm hnodup)

/-- What was taken is put behind the others. -/
theorem putBack (h : taken.Subperm l) : SameProofs l (l.filter (· ∉ taken) ++ taken) where
  mem p := by
    have hmem : p ∈ taken → p ∈ l := fun hp => h.subset hp
    simp only [List.mem_append, List.mem_filter, decide_eq_true_eq]
    tauto
  perm hnodup := List.perm_append_comm.trans (perm_of_taken hnodup h)

theorem value (h : SameProofs l l') (hnodup : l.Nodup) : proofsValue l' = proofsValue l := proofsValue_perm (h.perm hnodup)

end SameProofs

/-- Over a store that saves, `spend` takes its selection out or changes nothing. -/
theorem spend_takesOut {env : WalletEnv} {w : WalletWorld} (hsave : ∀ envelope, env.save envelope = .saved)
    (amount : UInt64) :
    (spend amount).Ends env w fun o t => (o.isOk = false → t = w) ∧ ∀ selected, o = .ok selected →
      selected.Subperm w.wallet.proofs ∧ t = (w.withProofs (w.wallet.proofs.filter (· ∉ selected))).saved := by
  refine (spend_takes amount).mono fun o t h => ?_
  rcases h with hstopped | ⟨hheld, hvalue, hsaves⟩
  · exact ⟨fun _ => rfl, by rintro ps rfl; cases hstopped⟩
  · obtain ⟨⟨ps, rfl⟩, rfl⟩ := hsaves.of_saved hsave
    refine ⟨nofun, fun ps' hps => ?_⟩
    rw [hvalue ps' hps]
    exact ⟨hheld, rfl⟩

namespace WalletEngine

/-! ### Up to the swap -/

/-- What the engine derives secrets from and checks signatures with. -/
def setup (e : WalletEngine) : List UInt8 × String × KeySet := (e.world.wallet.seed, e.keysetId, e.keys)

/-- These proofs are out of the wallet, and all others in it. -/
structure Without (e t : WalletEngine) (taken : List Proof) : Prop where
  proofs : SameProofs e.proofs (t.proofs ++ taken)
  setup : t.setup = e.setup

section without
variable {env : EngineEnv} {e t u : WalletEngine} {taken : List Proof} {amount : UInt64}

theorem Without.refl : Without e e [] := ⟨by rw [List.append_nil]; exact .refl, rfl⟩

theorem Without.same (h : Without e t []) : SameProofs e.proofs t.proofs := by
  have hproofs := h.proofs
  rwa [List.append_nil] at hproofs

theorem Without.trans (h : Without e t []) (h' : Without t u taken) : Without e u taken :=
  ⟨h.same.trans h'.proofs, h'.setup.trans h.setup⟩

theorem Without.putBack (h : Without e t taken) (hback : t.Holding (t.proofs ++ taken) u) : Without e u [] := by
  obtain ⟨blob, calls, rfl⟩ := hback
  exact ⟨by rw [List.append_nil]; exact h.proofs, h.setup⟩

/-- The wallet after a `spend` that has taken its selection. -/
theorem bind_spendTakes {β : Type} {k : List Proof → EngineM β} {Q : Outcome CashuError β → WalletEngine → Prop}
    (hstore : StoreSaves env) (ht : Without e t []) (htakes : ∀ selected u, Without e u selected → (k selected).Ends env u Q)
    (hstop : ∀ x u, Without e u [] → Q (.err x) u) (hpanic : ∀ u, Q .panic u) :
    (callWallet (spend amount) >>= k).Ends env t Q := by
  refine bind_callWallet (spend_takesOut (hstore _) amount) (fun selected w h => ?_) (fun x w h => ?_) fun w _ => hpanic _
  · obtain ⟨hsub, rfl⟩ := h.2 selected rfl
    exact htakes selected _ (ht.trans ⟨.putBack hsub, rfl⟩)
  · rw [h.1 rfl]
    exact hstop x _ ⟨ht.proofs, ht.setup⟩

theorem swapFeeHint_without (hstore : StoreSaves env) :
    (swapFeeHint amount).Ends env e fun o t => o ≠ .panic → Without e t [] := by
  refine Ends.bind_get ?_
  split_ifs
  · exact Ends.pure fun _ => .refl
  · refine bind_spendTakes hstore .refl (fun selected t ht => bind_undo fun _ u hback => ?_) (fun _ _ h _ => h)
      fun _ h => absurd rfl h
    exact (inputFee_computes _ env u).mono fun o v h _ => h.1 ▸ ht.putBack hback

end without

/-! ### After a swap that may have reached the mint -/

section recovery
variable {env : EngineEnv} {e t u : WalletEngine} {taken : List Proof} {amount : UInt64}

/-- The mint has answered that the secret is spent. -/
def ReportedSpent (env : EngineEnv) (secret : String) : Prop :=
  ∃ n request response, env.checkState n request = .ok response ∧
    ∃ s ∈ response.states, secretPoint secret = .ok s.y ∧ s.state = spentState

/-- What counts as spent has been reported so. -/
theorem reported_of_spentSecrets {proofs : List Proof} {ys : List PublicKey} {states : List ProofState} {secret : String}
    (hys : List.Forall₂ (fun p y => secretPoint p.secret = .ok y) proofs ys)
    (h : secret ∈ spentSecrets (ys.zip (proofs.map Proof.secret)) states) :
    ∃ s ∈ states, secretPoint secret = .ok s.y ∧ s.state = spentState := by
  obtain ⟨s, hs, hlookup⟩ := List.mem_filterMap.1 h
  obtain ⟨hs, hstate⟩ := List.mem_filter.1 hs
  rcases Finmap.mem_of_lookup_insertAll hlookup with hrow | hempty
  · obtain ⟨⟨y, secret'⟩, hrow, heq⟩ := List.mem_map.1 hrow
    obtain ⟨hy, rfl⟩ := Prod.mk.inj heq
    obtain rfl := pointHex_injective hy
    obtain ⟨p, -, rfl, hpoint⟩ := (mem_points hys).1 hrow
    exact ⟨s, hs, hpoint, by simpa using hstate⟩
  · simp at hempty

/-- Proofs that are gone have been reported as spent. -/
structure Prunes (env : EngineEnv) (e t : WalletEngine) : Prop where
  left : ∀ p ∈ t.proofs, p ∈ e.proofs
  gone : ∀ p ∈ e.proofs, p ∉ t.proofs → ReportedSpent env p.secret
  setup : t.setup = e.setup

theorem Prunes.of_proofs (hproofs : t.proofs = e.proofs) (hsetup : t.setup = e.setup) : Prunes env e t :=
  ⟨fun _ h => hproofs ▸ h, fun _ hp hnot => absurd (hproofs ▸ hp) hnot, hsetup⟩

theorem pruneSpent_prunes (hstore : StoreSaves env) {spent : List String}
    (hspent : ∀ secret ∈ spent, ReportedSpent env secret) :
    (pruneSpent spent).Ends env e fun o t => o.isOk = true ∧ Prunes env e t := by
  unfold pruneSpent
  split_ifs
  · exact Ends.pure ⟨rfl, .of_proofs rfl rfl⟩
  · refine Ends.bind_get (Ends.bind_run (callWallet_run (removeProofs_run (hstore _) _)) (Ends.pure ⟨rfl, ?_⟩))
    refine ⟨fun p hp => List.mem_of_mem_filter hp, fun p hp hnot => hspent _ ?_, rfl⟩
    by_contra hkept
    refine hnot (List.mem_filter.2 ⟨hp, ?_⟩)
    simp [hkept]

/-- Where it fails it has changed nothing. -/
theorem reconcileSpent_prunes (hstore : StoreSaves env) : reconcileSpent.Ends env e fun o t =>
    Prunes env e t ∧ (o.isOk = false → t.proofs = e.proofs) := by
  refine bind_ensureConnected (fun _ => Ends.bind_get ?_) fun _ => ⟨.of_proofs rfl rfl, fun _ => rfl⟩
  split_ifs
  · exact Ends.pure ⟨.of_proofs rfl rfl, fun _ => rfl⟩
  · refine Ends.bind_lift (fun ys hys => ?_) fun _ _ => ⟨.of_proofs rfl rfl, fun _ => rfl⟩
    refine bind_ask (fun response hresponse => ?_) fun _ _ => ⟨.of_proofs rfl rfl, fun _ => rfl⟩
    have hspent : ∀ secret ∈ spentSecrets (ys.zip (e.proofs.map Proof.secret)) response.states, ReportedSpent env secret :=
      fun secret h => ⟨_, _, response, hresponse, reported_of_spentSecrets (Except.mapM_eq_ok.1 hys) h⟩
    refine (pruneSpent_prunes hstore hspent).mono fun o t h => ⟨⟨h.2.left, h.2.gone, h.2.setup⟩, fun ho => ?_⟩
    rw [h.1] at ho
    cases ho

variable [Curve]

/-- A restore keeps what is there. -/
theorem restore_credits : restore.Ends env e fun _ t => ∃ new, t.proofs = e.proofs ++ new ∧
    ∀ p ∈ new, Verified e.keys p ∧ RestoredAt env e e.calls p.secret := by
  have hnothing : ∃ new, e.proofs = e.proofs ++ new ∧ ∀ p ∈ new, Verified e.keys p ∧ RestoredAt env e e.calls p.secret :=
    ⟨[], (List.append_nil _).symm, by simp⟩
  refine bind_ensureConnected (fun _ => Ends.bind_run knownSecrets_run (Ends.bind_get ?_)) fun _ => hnothing
  refine bind_callWallet restore_ends (fun n w h => ?_) (fun x w h => restoreEnds_credits h) fun w h => restoreEnds_credits h
  obtain ⟨new, hproofs, hnew⟩ := restoreEnds_credits h
  have hverify : ∀ p ∈ (e.after w).proofs, p.secret ∉ e.proofs.map Proof.secret → Verified (e.after w).keys p := by
    intro p hp hunknown
    rw [after_proofs, hproofs] at hp
    refine (List.mem_append.1 hp).elim (fun hp => absurd (List.mem_map_of_mem hp) hunknown) fun hp => (hnew p hp).1
  split_ifs
  · exact Ends.bind_run (verifyNewProofs_run hverify) (Ends.pure ⟨new, hproofs, hnew⟩)
  · exact Ends.pure ⟨new, hproofs, hnew⟩

/-- What is gone has been reported as spent, and what is new has been restored. -/
structure Recovers (env : EngineEnv) (e t : WalletEngine) : Prop where
  gone : ∀ p ∈ e.proofs, p ∉ t.proofs → ReportedSpent env p.secret
  new : ∀ p ∈ t.proofs, p ∉ e.proofs → Verified e.keys p ∧ ∃ n, RestoredAt env e n p.secret

omit [Curve] in
theorem eq_of_setup (h : t.setup = e.setup) :
    t.world.wallet.seed = e.world.wallet.seed ∧ t.keysetId = e.keysetId ∧ t.keys = e.keys := by
  simpa only [setup, Prod.mk.injEq] using h

theorem RestoredAt.of_setup {n : Nat} {secret : String} (hsetup : t.setup = e.setup) (h : RestoredAt env t n secret) :
    RestoredAt env e n secret := by
  obtain ⟨hseed, hkeysetId, -⟩ := eq_of_setup hsetup
  rwa [RestoredAt, hseed, hkeysetId] at h

theorem reconcileThenRestore_recovers (hstore : StoreSaves env) (ht : Without e t []) :
    reconcileThenRestore.Ends env t fun _ u => SameProofs e.proofs u.proofs ∨ Recovers env e u := by
  have hproofs := ht.same
  refine Ends.bind_get (Ends.bind_attempt (reconcileSpent_prunes hstore) ?_ ?_ ?_)
  · rintro n u ⟨hu, -⟩
    refine Ends.bind_modify (Ends.bind_keeps (Ends.attempt_keeps (restore_credits.mono ?_)) fun _ _ h => Ends.pure h)
    rintro o v ⟨new, hv, hnew⟩
    have hsetup : u.setup = e.setup := hu.setup.trans ht.setup
    refine .inr ⟨fun p hp hnot => hu.gone p ((hproofs.mem p).2 hp) fun hmem => hnot ?_, fun p hp hnot => ?_⟩
    · rw [hv]
      exact List.mem_append_left _ hmem
    · rw [hv] at hp
      rcases List.mem_append.1 hp with hp | hp
      · exact absurd ((hproofs.mem p).1 (hu.left p hp)) hnot
      · obtain ⟨hverified, hrestored⟩ := hnew p hp
        exact ⟨(eq_of_setup hsetup).2.2 ▸ hverified, _, hrestored.of_setup hsetup⟩
  · rintro x u ⟨-, hu⟩
    exact Ends.pure (.inl (hu rfl ▸ hproofs))
  · rintro u ⟨-, hu⟩
    exact .inl (hu rfl ▸ hproofs)

/-! ### What composing does -/

/-- What a send may have done to the wallet when no token has left it. -/
inductive SendMoves (env : EngineEnv) (e t : WalletEngine) (amount : UInt64) : Prop
  | same (proofs : SameProofs e.proofs t.proofs) (value : e.proofs.Nodup → proofsValue t.proofs = proofsValue e.proofs)
  | swapped {u inputs keep derived fresh} (without : Without e u inputs)
      (lands : SwapLands env u inputs (decomposeAmount amount ++ decomposeAmount keep) derived fresh)
      (proofs : t.proofs = u.proofs ++ fresh)
  | recovered {u inputs amounts x w} (without : Without e u inputs)
      (lost : (swapDeterministic inputs amounts u.keysetId u.keys).run (env.wallet u.calls) u.world = (.err x, w))
      (transport : x.isTransport = true) (recovers : Recovers env e t)

theorem Without.moves (h : Without e t []) : SendMoves env e t amount := .same h.same h.same.value

theorem offlineFallback_moves (hstore : StoreSaves env) {inputs : List Proof} {amounts : List UInt64} {x : CashuError}
    {w : WalletWorld} (ht : Without e t inputs) (hfailed : Without e (t.after w) inputs)
    (hlost : (swapDeterministic inputs amounts t.keysetId t.keys).run (env.wallet t.calls) t.world = (.err x, w)) :
    (offlineFallback amount inputs x).Ends env (t.after w) fun _ u => SendMoves env e u amount := by
  refine bind_undo fun _ u hback => ?_
  have hu : Without e u [] := hfailed.putBack hback
  split_ifs with htransport
  · have hmint : reconcileThenRestore.Ends env u fun _ v => SendMoves env e v amount :=
      (reconcileThenRestore_recovers hstore hu).mono fun _ _ h =>
        h.elim (fun h => .same h h.value) (.recovered ht hlost htransport)
    refine Ends.bind_keeps hmint fun _ v hv => Ends.bind_get ?_
    exact ((Leaves.okOr _ _ : Leaves id _).ends env v).mono fun _ u (hu : u = v) => hu ▸ hv
  · exact Ends.fail hu.moves

theorem composeSwap_moves (hstore : StoreSaves env) {keep : UInt64} {inputs : List Proof} (ht : Without e t inputs) :
    (composeSwap amount keep inputs).Ends env t fun o u => o ≠ .panic → SendMoves env e u amount := by
  refine Ends.bind_get (bind_attemptWallet (Ends.self.and (swap_ends hstore)) (fun fresh w h => ?_) (fun x w h => ?_)
    fun w _ hne => absurd rfl hne)
  · obtain ⟨-, ⟨hlands, hafter⟩⟩ := h
    rw [hafter]
    exact Ends.pure fun _ => .swapped ht hlands rfl
  · obtain ⟨hrun, - | ⟨-, hlost⟩⟩ := h
    have hfailed : Without e (t.after w) inputs := by
      refine ⟨by rw [after_proofs, hlost.proofs]; exact ht.proofs, ?_⟩
      rcases hlost with rfl | ⟨derived, -, rfl⟩
      · exact ht.setup
      · exact ht.setup
    exact (offlineFallback_moves hstore ht hfailed hrun).mono fun _ _ h _ => h

theorem composeExact_moves (hstore : StoreSaves env) :
    (composeExact amount).Ends env e fun o t => o ≠ .panic → SendMoves env e t amount := by
  refine Ends.bind_failIf (fun _ => ?_) fun _ _ => Without.refl.moves
  refine Ends.bind (swapFeeHint_without hstore) (fun fee t ht => ?_) (fun x t ht _ => (ht (by simp)).moves)
    fun t _ hne => absurd rfl hne
  have ht := ht (by simp)
  refine Ends.bind_okOr (fun needed _ => ?_) fun _ _ => ht.moves
  refine bind_spendTakes hstore ht (fun selected u hu => ?_) (fun _ u hu _ => hu.moves) fun _ hne => absurd rfl hne
  refine (sumAmounts_computes selected 0).bind_ends (fun total _ => ?_) fun hne => absurd rfl hne
  refine (subU64_computes total amount).bind_ends (fun left _ => ?_) fun hne => absurd rfl hne
  refine (subU64_computes left fee).bind_ends (fun keep _ => ?_) fun hne => absurd rfl hne
  exact composeSwap_moves hstore hu

/-! ### What is composed -/

/-- Proofs of the wallet that are worth the amount. -/
structure Composed (t : WalletEngine) (amount : UInt64) (ps : List Proof) : Prop where
  held : ps.Subperm t.proofs
  value : proofsValue ps = amount.toNat

omit [Curve] in
theorem Composed.of_findExact {ps : List Proof} (h : findExact t.proofs amount = some ps) : Composed t amount ps :=
  ⟨(findExact_found h).1, (findExact_found h).2⟩

/-- The first coins of a swap are those of the amount. -/
theorem proofsValue_take {inputs fresh : List Proof} {derived : List DerivedOutput} {keep : UInt64}
    (h : SwapLands env e inputs (decomposeAmount amount ++ decomposeAmount keep) derived fresh) :
    proofsValue (fresh.take (decomposeAmount amount).length) = amount.toNat := by
  have hamounts := congrArg (List.take (decomposeAmount amount).length) h.amounts_eq
  rw [← List.map_take, List.take_left] at hamounts
  calc proofsValue (fresh.take (decomposeAmount amount).length)
      = (((fresh.take (decomposeAmount amount).length).map Proof.amount).map UInt64.toNat).sum := by
        rw [proofsValue, List.map_map]
        rfl
    _ = ((decomposeAmount amount).map UInt64.toNat).sum := by rw [hamounts]
    _ = amount.toNat := (decomposeAmount_binary amount).sum

theorem composeSwap_composed {keep : UInt64} {inputs : List Proof} : (composeSwap amount keep inputs).Ends env e fun o t =>
    ∀ ps, o = .ok ps → Composed t amount ps := by
  refine Ends.bind_get (bind_attemptWallet swapDeterministic_rotates (fun fresh w h => ?_)
    (fun x w _ => ?_) fun w _ => by simp)
  · rcases h with ⟨hstop, -, -⟩ | - | ⟨hlands, hvalue, hsaves⟩
    · cases hstop
    · obtain rfl := hvalue fresh rfl
      obtain ⟨blob, rfl⟩ := hsaves.proofs
      refine Ends.pure ?_
      rintro _ ⟨⟩
      refine ⟨?_, proofsValue_take hlands⟩
      exact ((List.take_sublist ..).trans (List.sublist_append_right e.proofs fresh)).subperm
  · have hany : ∀ {α : Type} (m : EngineM α) (u : WalletEngine), m.Ends env u fun _ _ => True := fun _ _ => trivial
    refine Ends.bind (hany _ _) (fun _ u _ => ?_) (fun _ _ _ => by simp) fun _ _ => by simp
    split_ifs
    · refine Ends.bind (hany _ _) (fun _ v _ => Ends.bind_get ?_) (fun _ _ _ => by simp) fun _ _ => by simp
      rcases hfound : findExact v.proofs amount with - | ps
      · exact fun _ h => by cases h
      · rintro _ ⟨⟩
        exact .of_findExact hfound
    · exact Ends.fail (by simp)

theorem composeExact_composed {ps : List Proof} (hrun : (composeExact amount).run env e = (.ok ps, t)) :
    Composed t amount ps := by
  obtain ⟨_, _, -, hrun⟩ := run_bind_ok hrun
  obtain ⟨fee, _, -, hrun⟩ := run_bind_ok hrun
  obtain ⟨needed, _, -, hrun⟩ := run_bind_ok hrun
  obtain ⟨selected, _, -, hrun⟩ := run_bind_ok hrun
  obtain ⟨total, _, -, hrun⟩ := run_bind_ok hrun
  obtain ⟨left, _, -, hrun⟩ := run_bind_ok hrun
  obtain ⟨keep, _, -, hrun⟩ := run_bind_ok hrun
  exact composeSwap_composed.elim hrun ps rfl

end recovery

/-! ### The token -/

section send
variable [Curve] [Minicbor] [MinicborCodec] [TokenCrates] {env : EngineEnv} {e t u : WalletEngine} {amount : UInt64}
  {memo : Option String} {wire : String} {proofs : List Proof}

/-- The proof of a token has what the proof of the wallet has, with its id where that is the id of the group. -/
structure Carries (keysetId : String) (p : Proof) (q : Token.Proof) : Prop where
  amount : q.amount = p.amount
  secret : q.secret = p.secret
  c : q.c = Crypto.toBytes p.c
  dleq : q.dleq = p.dleq
  id : p.id = keysetId → Hex.Lower keysetId → q.keysetId = p.id

/-- The proofs have left the wallet and its store, the token has them, and a record of the send stands for it. -/
structure Handed (env : EngineEnv) (e u t : WalletEngine) (amount : UInt64) (memo : Option String) (wire : String)
    (proofs : List Proof) : Prop where
  composed : (composeExact amount).run env e = (.ok proofs, u)
  held : proofs.Subperm u.proofs
  value : proofsValue proofs = amount.toNat
  left : t.proofs = u.proofs.filter (· ∉ proofs)
  stored : t.world.blob.map Envelope.proofs = some t.proofs
  history : t.history = e.history ++ [⟨.send, amount, "ecash to QR", env.now t.calls, .pending⟩]
  pending : t.pending = e.pending ++ [⟨wire, amount, memo, env.now t.calls, e.history.length⟩]
  decodes : (e.sentToken memo proofs).Sized → ∃ token, decodeToken (asBytes wire) = some token ∧
    token.mint = e.mintUrl ∧ token.unit = e.unit ∧ token.memo = memo ∧ List.Forall₂ (Carries e.keysetId) proofs token.proofs

omit [Curve] [TokenCrates] in
theorem sentToken_decodes (hsized : (e.sentToken memo proofs).Sized)
    (hwire : encodeTokenWire (e.sentToken memo proofs) = some wire) : ∃ token, decodeToken (asBytes wire) = some token ∧
      token.mint = e.mintUrl ∧ token.unit = e.unit ∧ token.memo = memo ∧
      List.Forall₂ (Carries e.keysetId) proofs token.proofs := by
  obtain ⟨groups, hlowers, hdecode⟩ := decodeToken_written hsized hwire
  obtain ⟨_, _, ⟨idBytes, hid, rfl⟩, hrest, rfl⟩ := List.forall₂_cons_left_iff.1 hlowers
  obtain rfl := List.forall₂_nil_left_iff.1 hrest
  refine ⟨_, hdecode, rfl, rfl, rfl, ?_⟩
  rw [TokenV4.proofs, List.flatMap_singleton, TokenV4Token.lowered, List.map_map]
  refine List.forall₂_map_right_iff.2 (List.forall₂_same.2 fun p _ => ⟨rfl, rfl, rfl, rfl, fun hactive hlower => ?_⟩)
  obtain ⟨bs, hbs, hencode⟩ := hlower.encode_decode
  obtain rfl : bs = idBytes := Option.some.inj (hbs.symm.trans hid)
  exact hencode.trans hactive.symm

theorem sendToken_handed (hsend : (sendToken amount memo).run env e = (.ok wire, t)) :
    ∃ proofs u, Handed env e u t amount memo wire proofs := by
  obtain ⟨_, e', hconnected, hrun⟩ := run_bind_ok hsend
  have he : e' = e := (ensureConnected_leaves : Leaves id _).elim hconnected
  rw [he] at hrun
  obtain ⟨proofs, u, hcomposed, hrun⟩ := run_bind_ok hrun
  rw [run_bind_of_ok get_run] at hrun
  obtain ⟨wire', u', hencoded, hrun⟩ := run_bind_ok hrun
  obtain ⟨hwire, hu'⟩ := okOr_run_ok hencoded
  obtain ⟨_, v, hremoved, hrun⟩ := run_bind_ok hrun
  obtain ⟨_, v', hrecorded, hrun⟩ := run_bind_ok hrun
  obtain ⟨rfl, rfl⟩ : wire' = wire ∧ v' = t := by simpa using hrun
  rw [hu'] at hremoved
  obtain ⟨hheld, hvalue⟩ := composeExact_composed hcomposed
  obtain ⟨w, hsaves, rfl⟩ := callWallet_elim (removeProofs_ends proofs) hremoved
  obtain rfl := hsaves.of_ok rfl
  rw [recordSend_run] at hrecorded
  cases hrecorded
  have hbooks : u.books = e.books := (composeExact_leaves amount).elim hcomposed
  obtain ⟨hhistory, hpending⟩ := Books.mk.inj hbooks
  have htoken : u.sentToken memo proofs = e.sentToken memo proofs := by
    have hmint : u.mintUrl = e.mintUrl := (composeExact_leaves amount).elim hcomposed
    have hunit : u.unit = e.unit := (composeExact_leaves amount).elim hcomposed
    have hkeysetId : u.keysetId = e.keysetId := (composeExact_leaves amount).elim hcomposed
    rw [sentToken, sentToken, hmint, hunit, hkeysetId]
  rw [htoken] at hwire
  refine ⟨proofs, u, hcomposed, hheld, hvalue, rfl, rfl, ?_, ?_, fun hsized => sentToken_decodes hsized hwire⟩
  · rw [← hhistory]
    rfl
  · rw [← hhistory, ← hpending]
    rfl

theorem sendToken_moves (hstore : StoreSaves env) : (sendToken amount memo).Ends env e fun o t =>
    ∀ x, o = .err x → SendMoves env e t amount ∧ t.books = e.books := by
  refine bind_ensureConnected (fun _ => ?_) fun _ _ _ => ⟨Without.refl.moves, rfl⟩
  refine Ends.bind ((composeExact_moves hstore).and ((composeExact_leaves amount).ends env e)) (fun proofs u hu => ?_)
    (fun x u hu _ _ => ⟨hu.1 (by simp), hu.2⟩) fun _ _ => by simp
  refine Ends.bind_get (Ends.bind_okOr (fun wire _ => ?_) fun _ _ _ => ⟨hu.1 (by simp), hu.2⟩)
  refine Ends.bind_run (callWallet_run (removeProofs_run (hstore _) _)) (Ends.bind_run (recordSend_run ..) (Ends.pure ?_))
  simp

/-- What a send hands out is what has left the wallet, for the amount, and one record stands for it; and a send that fails
moves nothing but in a swap that has landed, or by what the mint reports and restores when the swap may have reached it. -/
theorem send_fidelity {o : Outcome CashuError String} (hrun : (sendToken amount memo).run env e = (o, t)) :
    (∀ wire, o = .ok wire → ∃ proofs u, Handed env e u t amount memo wire proofs) ∧
    (StoreSaves env → ∀ x, o = .err x → SendMoves env e t amount ∧ t.books = e.books) := by
  refine ⟨fun wire ho => sendToken_handed (ho ▸ hrun), fun hstore x ho => ?_⟩
  exact (sendToken_moves hstore).elim hrun x ho

end send

end WalletEngine

end

section toy
open Toy32 ToyCbor ToyEngine ToyBooks WalletEngine

theorem send_fidelity_toy : ∃ wire t, (sendToken 4 none).run online purse = (.ok wire, t) ∧
    ∃ proofs u, Handed online purse u t 4 none wire proofs := by
  have hsent := purse_sends
  rcases hrun : (sendToken 4 none).run online purse with ⟨wire | x | -, t⟩
  · exact ⟨wire, t, rfl, (send_fidelity hrun).1 wire rfl⟩
  · rw [hrun] at hsent
    cases hsent
  · rw [hrun] at hsent
    cases hsent

namespace ToyEngine

/-- The swap and the restore are lost, and every coin has been spent. -/
def unreachable : EngineEnv where
  wallet _ := { mint with
    postSwap := fun _ => .error (.transport "timed out")
    postRestore := fun _ => .error (.transport "timed out") }
  checkState _ r := .ok ⟨r.ys.map fun y => ⟨y, spentState, none⟩⟩
  postMeltQuote _ _ := .ok (quote 4 0)
  now _ := 1700000000
  overflowChecks := true
  sameBuild _ := rfl

/-- An engine past the first output, which its keyset has none for. -/
def pastFirst : WalletEngine :=
  { holding 0 [coin 4 "s"] with
    keysetId := "00c0ff23"
    world := WalletWorld.saved ⟨{ PersistentWallet.new none [1] with proofs := [coin 4 "s"], counter := 1 }, none, []⟩ }

def failsEmpty : Outcome CashuError String × WalletEngine → Bool
  | (.err _, t) => t.proofs = []
  | (.ok _, _) | (.panic, _) => false

end ToyEngine

/-- A send that fails has dropped the only coin: no swap has landed, and the mint has said that the coin is spent. -/
theorem failed_send_drops : StoreSaves unreachable ∧ pastFirst.proofs.Nodup ∧
    (∀ n request, (unreachable.wallet n).postSwap request = .error (.transport "timed out")) ∧
    ∃ x t, (sendToken 4 none).run unreachable pastFirst = (.err x, t) ∧ proofsValue pastFirst.proofs = 4 ∧
      proofsValue t.proofs = 0 := by
  have hfails : failsEmpty ((sendToken 4 none).run unreachable pastFirst) = true := by decide +kernel
  refine ⟨fun _ _ => rfl, List.nodup_singleton _, fun _ _ => rfl, ?_⟩
  rcases hrun : (sendToken 4 none).run unreachable pastFirst with ⟨wire | x | -, t⟩
  · rw [hrun] at hfails
    cases hfails
  · rw [hrun] at hfails
    have hempty : t.proofs = [] := of_decide_eq_true hfails
    exact ⟨x, t, rfl, rfl, by rw [hempty]; rfl⟩
  · rw [hrun] at hfails
    cases hfails

end toy

end Micronuts
