import Micronuts.Wallet.Persistent

/-!
# How the calls of a wallet end

Mint, swap and melt end alike (`IssueEnds`): before a request has left, with a request that comes to nothing, or with
proofs credited and then saved. A request's outputs are derived from the counter on, and the counter moves past them
before the mint answers. `RestoreEnds` is the same for `restore`, whose request covers all indices up to its window.
-/

namespace Micronuts
open WalletM Exec

section
variable [Crypto]

namespace WalletM
variable {α β : Type} {env : WalletEnv} {w : WalletWorld} {Q : Outcome CashuError β → WalletWorld → Prop}

theorem bind_wallet {k : PersistentWallet → WalletM β} (h : (k w.wallet).Ends env w Q) : (wallet >>= k).Ends env w Q := h

/-- Checked sums that go on have not overflowed. -/
theorem bind_addU64_fits {a b : UInt64} {k : UInt64 → WalletM β}
    (hok : (env.overflowChecks = true → a.toNat + b.toNat < 2 ^ 64) → (k (a + b)).Ends env w Q) (hpanic : Q .panic w) :
    (addU64 a b >>= k).Ends env w Q := by
  unfold Ends
  rw [run_bind]
  simp only [run, addU64]
  by_cases h : env.overflowChecks ∧ 2 ^ 64 ≤ a.toNat + b.toNat
  · rw [if_pos h]; exact hpanic
  · rw [if_neg h]; exact hok fun hchecks => by simpa [hchecks] using h

theorem bind_addU64 {a b : UInt64} {k : UInt64 → WalletM β} (hok : (k (a + b)).Ends env w Q) (hpanic : Q .panic w) :
    (addU64 a b >>= k).Ends env w Q := bind_addU64_fits (fun _ => hok) hpanic

theorem bind_addU32 {a b : UInt32} {k : UInt32 → WalletM β} (hok : (k (a + b)).Ends env w Q) (hpanic : Q .panic w) :
    (addU32 a b >>= k).Ends env w Q := by
  unfold Ends
  rw [run_bind]
  simp only [run, addU32]
  by_cases h : env.overflowChecks ∧ 2 ^ 32 ≤ a.toNat + b.toNat
  · rw [if_pos h]; exact hpanic
  · rw [if_neg h]; exact hok

theorem bind_post {request : WalletRequest} {answer : WalletEnv → Except CashuError α} {k : α → WalletM β}
    (hok : ∀ response, answer env = .ok response → (k response).Ends env { w with sent := request :: w.sent } Q)
    (herr : ∀ e, answer env = .error e → Q (.err e) { w with sent := request :: w.sent }) :
    (post request answer >>= k).Ends env w Q := by
  unfold Ends
  rw [run_bind]
  simp only [run, post]
  rcases h : answer env with e | response
  · exact herr e h
  · exact hok response h

theorem bind_modifyWallet {f : PersistentWallet → PersistentWallet} {k : Unit → WalletM β}
    (h : (k ()).Ends env { w with wallet := f w.wallet } Q) : (modifyWallet f >>= k).Ends env w Q := h

end WalletM

/-- A statement that leaves the world as it is, whatever comes of it. -/
def Inspects {α : Type} (w : WalletWorld) (P : α → Prop) (o : Outcome CashuError α) (t : WalletWorld) : Prop :=
  t = w ∧ ∀ a, o = .ok a → P a

section inspects
variable {α β : Type} {env : WalletEnv} {w : WalletWorld} {P : α → Prop} {Q : Outcome CashuError β → WalletWorld → Prop}

theorem Inspects.bind {m : WalletM α} {k : α → WalletM β} (h : m.Ends env w (Inspects w P))
    (hok : ∀ a, P a → (k a).Ends env w Q) (hstop : ∀ o : Outcome CashuError β, o.isOk = false → Q o w) :
    (m >>= k).Ends env w Q := by
  refine Ends.bind h ?_ ?_ ?_
  · rintro a t ⟨rfl, hP⟩; exact hok a (hP a rfl)
  · rintro e t ⟨rfl, -⟩; exact hstop _ rfl
  · rintro t ⟨rfl, -⟩; exact hstop _ rfl

theorem Inspects.stopped {o : Outcome CashuError α} (h : o.isOk = false) : Inspects w P o w :=
  ⟨rfl, by rintro a rfl; cases h⟩

theorem Inspects.pure {a : α} (h : P a) : (Pure.pure a : WalletM α).Ends env w (Inspects w P) :=
  ⟨rfl, by rintro a' ⟨⟩; exact h⟩

theorem sumAmounts_ends (proofs : List Proof) (acc : UInt64) :
    (sumAmounts proofs acc).Ends env w (Inspects w fun _ => True) := by
  induction proofs generalizing acc with
  | nil => exact Inspects.pure trivial
  | cons p ps ih => exact bind_addU64 (ih _) (Inspects.stopped rfl)

end inspects

/-! ### Derived outputs -/

section derived
variable [Curve]

/-- The outputs of the indices from `idx` on; past the last index they begin again at zero. -/
def Derives (seed : List UInt8) (keysetId : String) : UInt32 → List DerivedOutput → Prop
  | _, [] => True
  | idx, d :: derived => deriveOutput seed keysetId idx = .ok d ∧ Derives seed keysetId (idx + 1) derived

def messagesOf (keysetId : String) (amounts : List UInt64) (derived : List DerivedOutput) : List BlindedMessage :=
  (amounts.zip derived).map fun (amount, d) => { amount, id := keysetId, b := d.blinded }

def pendingOf (amounts : List UInt64) (derived : List DerivedOutput) : List PendingOutput :=
  (amounts.zip derived).map fun (amount, d) => { secret := asBytes d.secretHex, blinder := d.blinder, amount }

omit [Curve] in
theorem pendingOf_length {amounts : List UInt64} {derived : List DerivedOutput} (h : derived.length = amounts.length) :
    (pendingOf amounts derived).length = derived.length := by
  simp [pendingOf, h]

theorem deterministicOutputsFrom_ends {env : WalletEnv} {w : WalletWorld} (keysetId : String) (i : UInt32)
    (amounts : List UInt64) : (deterministicOutputsFrom keysetId i amounts).Ends env w (Inspects w fun r =>
      ∃ derived, derived.length = amounts.length ∧ Derives w.wallet.seed keysetId (w.wallet.counter + i) derived ∧
        r = (messagesOf keysetId amounts derived, pendingOf amounts derived)) := by
  induction amounts generalizing i with
  | nil => exact Inspects.pure ⟨[], rfl, trivial, rfl⟩
  | cons amount amounts ih =>
    refine bind_wallet (bind_addU32 ?_ (Inspects.stopped rfl))
    refine Ends.bind_lift (fun d hd => ?_) fun e _ => Inspects.stopped rfl
    refine Inspects.bind (ih (i + 1)) ?_ fun o ho => Inspects.stopped ho
    rintro ⟨messages, pending⟩ ⟨derived, hlen, hderives, hr⟩
    rw [← UInt32.add_assoc] at hderives
    refine Inspects.pure ⟨d :: derived, congrArg Nat.succ hlen, ⟨hd, hderives⟩, ?_⟩
    cases hr; rfl

theorem deterministicOutputs_ends {env : WalletEnv} {w : WalletWorld} (amounts : List UInt64) (keysetId : String) :
    (deterministicOutputs amounts keysetId).Ends env w (Inspects w fun r =>
      ∃ derived, derived.length = amounts.length ∧ Derives w.wallet.seed keysetId w.wallet.counter derived ∧
        r = (messagesOf keysetId amounts derived, pendingOf amounts derived)) := by
  have h := @deterministicOutputsFrom_ends _ _ env w keysetId 0 amounts
  rwa [UInt32.add_zero] at h

end derived

/-! ### Fresh proofs -/

section fresh
variable [Curve] {env : WalletEnv} {w : WalletWorld} {mintKeys : KeySet}

/-- The proof's DLEQ verifies under the key of its amount. -/
def Verified (mintKeys : KeySet) (proof : Proof) : Prop :=
  ∃ dleq key, proof.dleq = some dleq ∧ mintKeys.pubkey proof.amount = some key ∧
    verifyProofDleq (asBytes proof.secret) proof.c dleq key = true

theorem verifyFreshProof_eq_ok {proof : Proof} : verifyFreshProof mintKeys proof = .ok () ↔ Verified mintKeys proof := by
  unfold verifyFreshProof
  simp only [Except.bind_eq_ok, Except.okOr_eq_ok]
  constructor
  · rintro ⟨dleq, hdleq, key, hkey, h⟩
    split at h
    · next hverify => exact ⟨dleq, key, hdleq, hkey, hverify⟩
    · cases h
  · rintro ⟨dleq, key, hdleq, hkey, hverify⟩
    exact ⟨dleq, hdleq, key, hkey, if_pos hverify⟩

theorem verifyFresh_eq_ok {proofs : List Proof} :
    verifyFresh mintKeys proofs = .ok () ↔ ∀ p ∈ proofs, Verified mintKeys p := by
  induction proofs with
  | nil => exact iff_of_true rfl (by simp)
  | cons p proofs ih =>
    rw [List.forall_mem_cons, ← ih, ← verifyFreshProof_eq_ok, verifyFresh, Except.bind_eq_ok]
    exact ⟨fun ⟨_, hp, h⟩ => ⟨hp, h⟩, fun ⟨hp, h⟩ => ⟨(), hp, h⟩⟩

omit [Crypto] [Curve] in
theorem fromUtf8_asBytes (s : String) : fromUtf8 (asBytes s) = some s := fromUTF8?_asBytes s

theorem unblindOne_secret {p : PendingOutput} {sig : BlindSignature} {proof : Proof}
    (h : unblindOne mintKeys p sig = .ok proof) : fromUtf8 p.secret = some proof.secret := by
  obtain ⟨_, -, h⟩ := Except.bind_eq_ok.1 h
  obtain ⟨_, -, h⟩ := Except.bind_eq_ok.1 h
  obtain ⟨_, hsecret, h⟩ := Except.bind_eq_ok.1 h
  cases h
  exact Except.okOr_eq_ok.1 hsecret

omit [Curve] in
/-- Proofs with the secrets of a beginning of the pending outputs have those of the derived ones. -/
theorem secrets_of_pending {amounts : List UInt64} {derived : List DerivedOutput} {proofs : List Proof} {n : Nat}
    (hlen : derived.length = amounts.length)
    (h : proofs.map (fun p => some p.secret) = ((pendingOf amounts derived).take n).map fun p => fromUtf8 p.secret) :
    proofs.map Proof.secret = (derived.take n).map DerivedOutput.secretHex := by
  have hpending : (pendingOf amounts derived).map (fun p => fromUtf8 p.secret) =
      derived.map fun d => some d.secretHex := by
    rw [pendingOf, List.map_map]
    show (amounts.zip derived).map ((fun d => fromUtf8 (asBytes d.secretHex)) ∘ Prod.snd) = _
    rw [← List.map_map, List.map_snd_zip (by omega)]
    simp only [fromUtf8_asBytes]
  rw [List.map_take, hpending, ← List.map_take] at h
  have hsome : (proofs.map Proof.secret).map some = ((derived.take n).map DerivedOutput.secretHex).map some := by
    simpa [Function.comp_def] using h
  exact (List.map_injective_iff.2 (Option.some_injective _)) hsome

theorem unblindToProofs_secrets {amounts : List UInt64} {derived : List DerivedOutput} {sigs : List BlindSignature}
    {proofs : List Proof} (hlen : derived.length = amounts.length)
    (h : unblindToProofs (pendingOf amounts derived) sigs mintKeys = .ok proofs) :
    proofs.map Proof.secret = derived.map DerivedOutput.secretHex := by
  unfold unblindToProofs at h
  split at h
  · cases h
  · next hcount =>
    rw [not_not] at hcount
    have hall := Except.mapM_eq_ok.1 h
    have hsecrets : proofs.map (fun p => some p.secret) =
        ((pendingOf amounts derived).zip sigs).map fun x => fromUtf8 x.1.secret := by
      clear h
      generalize (pendingOf amounts derived).zip sigs = pairs at hall ⊢
      induction hall with
      | nil => rfl
      | cons hone _ ih => rw [List.map_cons, List.map_cons, ih, unblindOne_secret hone]
    have hzip : ((pendingOf amounts derived).zip sigs).map (fun x => fromUtf8 x.1.secret) =
        (pendingOf amounts derived).map fun p => fromUtf8 p.secret := by
      show ((pendingOf amounts derived).zip sigs).map ((fun p => fromUtf8 p.secret) ∘ Prod.fst) = _
      rw [← List.map_map, List.map_fst_zip (by omega)]
    have htake := @secrets_of_pending _ amounts derived proofs derived.length hlen
    rw [List.take_of_length_le (by rw [pendingOf_length hlen]), List.take_length] at htake
    exact htake (hsecrets.trans hzip)

omit [Crypto] [Curve] in
theorem map_fst_zip_take {α β : Type} (as : List α) (bs : List β) : (as.zip bs).map Prod.fst = as.take bs.length := by
  induction as generalizing bs with
  | nil => simp
  | cons a as ih => cases bs with
    | nil => rfl
    | cons b bs => simp [ih]

theorem unblindChange_ends (pairs : List (PendingOutput × BlindSignature)) (changeSats : UInt64) :
    (unblindChange mintKeys pairs changeSats).Ends env w (Inspects w fun r =>
      r.1.map (fun p => some p.secret) = pairs.map fun x => fromUtf8 x.1.secret) := by
  induction pairs generalizing changeSats with
  | nil => exact Inspects.pure rfl
  | cons x pairs ih =>
    obtain ⟨pending, sig⟩ := x
    refine Ends.bind_okOr (fun key _ => ?_) fun _ => Inspects.stopped rfl
    refine Ends.bind_okOr (fun c _ => ?_) fun _ => Inspects.stopped rfl
    refine bind_addU64 ?_ (Inspects.stopped rfl)
    refine Ends.bind_okOr (fun secret hsecret => ?_) fun _ => Inspects.stopped rfl
    refine Inspects.bind (ih _) (fun r hr => Inspects.pure ?_) fun o ho => Inspects.stopped ho
    rw [List.map_cons, List.map_cons, hr, hsecret]

end fresh

theorem takeCovering_ends {env : WalletEnv} {w : WalletWorld} (amount acc : UInt64) (proofs : List Proof) :
    (takeCovering amount acc proofs).Ends env w (Inspects w (·.Sublist proofs)) := by
  induction proofs generalizing acc with
  | nil => exact Inspects.pure (List.Sublist.refl _)
  | cons p ps ih =>
    unfold takeCovering
    split
    · exact Inspects.pure (List.nil_sublist _)
    · exact bind_addU64 (Inspects.bind (ih _) (fun _ h => Inspects.pure (h.cons_cons p)) fun o ho => Inspects.stopped ho)
        (Inspects.stopped rfl)

theorem selectCovering_ends {env : WalletEnv} {w : WalletWorld} (amount : UInt64) :
    (selectCovering amount).Ends env w (Inspects w fun _ => True) := by
  refine bind_wallet (Inspects.bind (sumAmounts_ends _ _) (fun total _ => ?_) fun o ho => Inspects.stopped ho)
  refine Ends.bind_failIf (fun _ => ?_) fun _ => Inspects.stopped rfl
  exact (takeCovering_ends ..).mono fun o t h => ⟨h.1, fun _ _ => trivial⟩

/-! ### The ways a call ends -/

section ends
variable [Curve]

def WalletRequest.outputs : WalletRequest → List BlindedMessage
  | .mint r => r.outputs
  | .melt r => r.outputs.getD []
  | .swap r => r.outputs
  | .restore _ => []

/-- The request's outputs are those of the indices from the counter on. -/
def Sends (w : WalletWorld) (keysetId : String) (amounts : List UInt64) (r : WalletRequest)
    (derived : List DerivedOutput) : Prop :=
  Derives w.wallet.seed keysetId w.wallet.counter derived ∧ derived.length = amounts.length ∧
    r.outputs = messagesOf keysetId amounts derived

/-- The world when a request with `n` outputs has left the wallet. -/
def WalletWorld.request (w : WalletWorld) (r : WalletRequest) (n : Nat) : WalletWorld :=
  { w with
    wallet := { w.wallet with counter := saturatingAdd w.wallet.counter (UInt32.ofNat n) }
    sent := r :: w.sent }

def WalletWorld.withProofs (w : WalletWorld) (proofs : List Proof) : WalletWorld :=
  { w with wallet := { w.wallet with proofs } }

/-- The last statement of a call that returns a value is a save. -/
def Saves {α : Type} (env : WalletEnv) (w : WalletWorld) (o : Outcome CashuError α) (t : WalletWorld) : Prop :=
  match env.save w.wallet.envelope with
  | .saved => o.isOk = true ∧ t = { w with blob := some w.wallet.envelope }
  | .failed e written =>
    o = .err (storeError e) ∧ t = if written then { w with blob := some w.wallet.envelope } else w

/-- How a mint, a swap or a melt ends that asks for outputs of these amounts. -/
inductive IssueEnds {α : Type} (env : WalletEnv) (keysetId : String) (mintKeys : KeySet) (amounts : List UInt64)
    (w : WalletWorld) : Outcome CashuError α → WalletWorld → Prop
  | refused {o} (stopped : o.isOk = false) : IssueEnds env keysetId mintKeys amounts w o w
  | lost {o r derived} (sends : Sends w keysetId amounts r derived) (stopped : o.isOk = false) :
      IssueEnds env keysetId mintKeys amounts w o (w.request r derived.length)
  | credited {o t r derived kept new n} (sends : Sends w keysetId amounts r derived)
      (kept_old : kept.Sublist w.wallet.proofs)
      (secrets : new.map Proof.secret = (derived.take n).map DerivedOutput.secretHex)
      (verified : ∀ p ∈ new, Verified mintKeys p)
      (saves : Saves env ((w.request r derived.length).withProofs (kept ++ new)) o t) :
      IssueEnds env keysetId mintKeys amounts w o t

omit [Curve] in
theorem saves_ends {α : Type} {env : WalletEnv} {w : WalletWorld} (a : α) :
    (persist >>= fun _ => (pure a : WalletM α)).Ends env w (Saves env w) := by
  unfold Ends Saves
  rw [run_bind]
  simp only [run, persist]
  rcases env.save w.wallet.envelope with - | ⟨e, written⟩
  · exact ⟨rfl, rfl⟩
  · exact ⟨rfl, rfl⟩

omit [Curve] in
theorem saves_value {α : Type} {env : WalletEnv} {w : WalletWorld} (a : α) :
    (persist >>= fun _ => (pure a : WalletM α)).Ends env w fun o _ => ∀ b, o = .ok b → b = a := by
  unfold Ends
  rw [run_bind]
  simp only [run, persist]
  rcases env.save w.wallet.envelope with - | ⟨e, written⟩
  · rintro b ⟨⟩; rfl
  · rintro b ⟨⟩

omit [Curve] in
theorem Saves.ne_panic {α : Type} {env : WalletEnv} {w t : WalletWorld} {o : Outcome CashuError α} (h : Saves env w o t) :
    o ≠ .panic := by
  rintro rfl
  unfold Saves at h
  split at h
  · cases h.1
  · cases h.1

section issues
variable {env : WalletEnv} {w : WalletWorld} {keysetId : String} {mintKeys : KeySet} {amounts : List UInt64}

/-- From the derivation of its outputs on, a call asks the mint and works with the answer. -/
theorem bind_outputs {α : Type} {k : List BlindedMessage × List PendingOutput → WalletM α}
    (hok : ∀ derived, derived.length = amounts.length → Derives w.wallet.seed keysetId w.wallet.counter derived →
      (k (messagesOf keysetId amounts derived, pendingOf amounts derived)).Ends env w
        (IssueEnds env keysetId mintKeys amounts w)) :
    (deterministicOutputs amounts keysetId >>= k).Ends env w (IssueEnds env keysetId mintKeys amounts w) := by
  refine Inspects.bind (deterministicOutputs_ends ..) ?_ fun o ho => .refused ho
  rintro _ ⟨derived, hlen, hderives, rfl⟩
  exact hok derived hlen hderives

theorem bind_request {α ρ : Type} {derived : List DerivedOutput} {pending : List PendingOutput} {r : WalletRequest}
    {answer : WalletEnv → Except CashuError ρ} {k : ρ → WalletM α} (hsends : Sends w keysetId amounts r derived)
    (hcount : pending.length = derived.length)
    (hok : ∀ response, (k response).Ends env (w.request r derived.length) (IssueEnds env keysetId mintKeys amounts w)) :
    (advanceCounter pending >>= fun _ => post r answer >>= k).Ends env w (IssueEnds env keysetId mintKeys amounts w) := by
  have hlost : ∀ e, IssueEnds env keysetId mintKeys amounts w (.err e : Outcome CashuError α) (w.request r derived.length) :=
    fun e => .lost hsends rfl
  unfold WalletWorld.request at hok hlost
  rw [← hcount] at hok hlost
  exact bind_modifyWallet (bind_post (fun response _ => hok response) fun e _ => hlost e)

/-- The proofs are credited after the last check, and saved. -/
theorem bind_credit {α : Type} {a : α} {r : WalletRequest} {derived : List DerivedOutput}
    {f : PersistentWallet → PersistentWallet}
    {kept new : List Proof} {n : Nat} (hsends : Sends w keysetId amounts r derived) (hkept : kept.Sublist w.wallet.proofs)
    (hf : ∀ v : PersistentWallet, v.proofs = w.wallet.proofs → f v = { v with proofs := kept ++ new })
    (hsecrets : new.map Proof.secret = (derived.take n).map DerivedOutput.secretHex)
    (hverify : verifyFresh mintKeys new = .ok ()) :
    (modifyWallet f >>= fun _ => persist >>= fun _ => (pure a : WalletM α)).Ends env (w.request r derived.length)
      (IssueEnds env keysetId mintKeys amounts w) := by
  refine bind_modifyWallet ((saves_ends a).mono fun o t hsaves => ?_)
  rw [hf (w.request r derived.length).wallet rfl] at hsaves
  exact .credited hsends hkept hsecrets (verifyFresh_eq_ok.1 hverify) hsaves

theorem mintDeterministic_ends (quoteId : String) (amount : UInt64) :
    (mintDeterministic quoteId amount keysetId mintKeys).Ends env w
      (IssueEnds env keysetId mintKeys (decomposeAmount amount) w) := by
  refine Ends.bind_failIf (fun _ => bind_outputs fun derived hlen hderives => ?_) fun _ => .refused rfl
  have hsends : Sends w keysetId (decomposeAmount amount)
      (.mint ⟨quoteId, messagesOf keysetId (decomposeAmount amount) derived, none⟩) derived := ⟨hderives, hlen, rfl⟩
  refine bind_request hsends (pendingOf_length hlen) fun response => ?_
  refine Ends.bind_lift (fun proofs hproofs => ?_) fun e _ => .lost hsends rfl
  refine Inspects.bind (sumAmounts_ends ..) (fun minted _ => ?_) fun o ho => .lost hsends ho
  refine Ends.bind_lift (fun _ hverify => ?_) fun e _ => .lost hsends rfl
  refine bind_credit (n := derived.length) hsends (List.Sublist.refl _) (fun v hv => by rw [hv]) ?_ hverify
  rw [List.take_length]
  exact unblindToProofs_secrets hlen hproofs

theorem swapDeterministic_ends (inputs : List Proof) (newAmounts : List UInt64) :
    (swapDeterministic inputs newAmounts keysetId mintKeys).Ends env w
      (IssueEnds env keysetId mintKeys newAmounts w) := by
  refine Ends.bind_failIf (fun _ => bind_outputs fun derived hlen hderives => ?_) fun _ => .refused rfl
  have hsends : Sends w keysetId newAmounts (.swap ⟨inputs, messagesOf keysetId newAmounts derived⟩) derived :=
    ⟨hderives, hlen, rfl⟩
  refine bind_request hsends (pendingOf_length hlen) fun response => ?_
  refine Ends.bind_lift (fun proofs hproofs => ?_) fun e _ => .lost hsends rfl
  refine Ends.bind_lift (fun _ hverify => ?_) fun e _ => .lost hsends rfl
  refine bind_credit (n := derived.length) hsends (List.Sublist.refl _) (fun v hv => by rw [hv]) ?_ hverify
  rw [List.take_length]
  exact unblindToProofs_secrets hlen hproofs

theorem meltDeterministic_ends (quoteId : String) (invoiceAmount feeReserve : UInt64) :
    (meltDeterministic quoteId invoiceAmount feeReserve keysetId mintKeys).Ends env w
      (IssueEnds env keysetId mintKeys (decomposeAmount feeReserve) w) := by
  refine Ends.bind_okOr (fun totalNeeded _ => ?_) fun _ => .refused rfl
  refine Ends.bind_failIf (fun _ => ?_) fun _ => .refused rfl
  refine Inspects.bind (selectCovering_ends _) (fun selected _ => ?_) fun o ho => .refused ho
  refine bind_outputs fun derived hlen hderives => ?_
  have hsends : Sends w keysetId (decomposeAmount feeReserve)
      (.melt ⟨quoteId, selected, some (messagesOf keysetId (decomposeAmount feeReserve) derived)⟩) derived :=
    ⟨hderives, hlen, rfl⟩
  refine bind_request hsends (pendingOf_length hlen) fun response => ?_
  split
  · refine (saves_ends _).mono fun o t hsaves => ?_
    have hnone : ∀ r n, (w.request r n).withProofs (w.wallet.proofs ++ []) = w.request r n := by
      intro r n
      rw [List.append_nil]; rfl
    have hnew : ∀ p ∈ ([] : List Proof), Verified mintKeys p := by simp
    exact .credited (n := 0) hsends (List.Sublist.refl _) rfl hnew (by rw [hnone]; exact hsaves)
  · refine Inspects.bind (unblindChange_ends ..) ?_ fun o ho => .lost hsends ho
    rintro ⟨changeProofs, changeSats⟩ hsecrets
    refine Ends.bind_lift (fun _ hverify => ?_) fun e _ => .lost hsends rfl
    have hpaid := map_fst_zip_take (pendingOf (decomposeAmount feeReserve) derived) (response.change.getD [])
    refine bind_credit (n := (response.change.getD []).length) hsends (List.filter_sublist (p := (· ∉ selected)))
      (fun v hv => by rw [hv]) (secrets_of_pending hlen ?_) hverify
    rw [← hpaid, List.map_map]
    exact hsecrets

end issues

/-! ### Restore -/

section restores
variable {env : WalletEnv} {w : WalletWorld} {keysetId : String} {mintKeys : KeySet}

/-- The request for all outputs that were scanned has left the wallet. -/
def WalletWorld.scanned (w : WalletWorld) (derived : List DerivedOutput) : WalletWorld :=
  { w with sent := .restore ⟨derived.map DerivedOutput.blinded⟩ :: w.sent }

/-- What was found is credited, and the counter is past it. -/
def WalletWorld.restored (w : WalletWorld) (acc : Restored) : WalletWorld :=
  { w with wallet := { w.wallet with
    proofs := w.wallet.proofs ++ acc.proofs
    counter := acc.maxIdx.elim w.wallet.counter fun m => max w.wallet.counter (m + 1) } }

def byBlinded (derived : List DerivedOutput) : Finmap fun _ : String => UInt32 × DerivedOutput :=
  (∅ : Finmap fun _ : String => UInt32 × DerivedOutput).insertAll (blindedRows derived)

/-- The loop over the response, from what the wallet knows. -/
def Finds (w : WalletWorld) (mintKeys : KeySet) (derived : List DerivedOutput) (outputs : List RestoreOutput)
    (acc : Restored) : Prop :=
  outputs.foldlM (restoreOutput (byBlinded derived) mintKeys)
    { known := w.wallet.proofs.map Proof.secret, proofs := [], added := 0, maxIdx := none } = .ok acc

inductive RestoreEnds (env : WalletEnv) (keysetId : String) (mintKeys : KeySet) (w : WalletWorld) :
    Outcome CashuError Nat → WalletWorld → Prop
  | refused {o} (fails : ∀ derived,
        scanOutputs w.wallet.seed keysetId (saturatingAdd w.wallet.counter restoreHeadroom) ≠ .ok derived)
      (stopped : o.isOk = false) : RestoreEnds env keysetId mintKeys w o w
  | lost {o derived}
      (scans : scanOutputs w.wallet.seed keysetId (saturatingAdd w.wallet.counter restoreHeadroom) = .ok derived)
      (fails : ∀ response acc, env.postRestore ⟨derived.map DerivedOutput.blinded⟩ = .ok response →
        Finds w mintKeys derived response.outputs acc → ∃ p ∈ acc.proofs, ¬ Verified mintKeys p)
      (stopped : o.isOk = false) : RestoreEnds env keysetId mintKeys w o (w.scanned derived)
  | restored {o t derived response acc}
      (scans : scanOutputs w.wallet.seed keysetId (saturatingAdd w.wallet.counter restoreHeadroom) = .ok derived)
      (answer : env.postRestore ⟨derived.map DerivedOutput.blinded⟩ = .ok response)
      (finds : Finds w mintKeys derived response.outputs acc) (verified : ∀ p ∈ acc.proofs, Verified mintKeys p)
      (value : ∀ n, o = .ok n → n = acc.added)
      (saves : if 0 < acc.added then Saves env ((w.scanned derived).restored acc) o t
        else o.isOk = true ∧ t = (w.scanned derived).restored acc) : RestoreEnds env keysetId mintKeys w o t

theorem restore_ends : (restore keysetId mintKeys).Ends env w (RestoreEnds env keysetId mintKeys w) := by
  refine bind_wallet (Ends.bind_lift (fun derived hscans => ?_) fun e he => .refused ?_ rfl)
  swap
  · rw [he]
    rintro derived ⟨⟩
  refine bind_post (fun response hanswer => ?_) fun e he => .lost hscans ?_ rfl
  swap
  · rw [he]
    rintro response acc ⟨⟩
  refine Ends.bind_lift (fun acc hfinds => ?_) fun e he => .lost hscans ?_ rfl
  swap
  · intro response' acc hanswer' hfinds
    rw [hanswer] at hanswer'
    cases hanswer'
    cases he.symm.trans hfinds
  refine Ends.bind_lift (fun _ hverify => bind_modifyWallet ?_) fun e he => .lost hscans ?_ rfl
  swap
  · intro response' acc' hanswer' hfinds'
    rw [hanswer] at hanswer'
    cases hanswer'
    obtain rfl : acc = acc' := Except.ok.inj (hfinds.symm.trans hfinds')
    by_contra hall
    rw [verifyFresh_eq_ok.2 fun p hp => by_contra fun hnot => hall ⟨p, hp, hnot⟩] at he
    cases he
  have hverified := verifyFresh_eq_ok.1 hverify
  split
  · next hadded =>
    refine ((saves_ends acc.added).and (saves_value acc.added)).mono fun o t h => ?_
    exact .restored hscans hanswer hfinds hverified h.2 (by rw [if_pos hadded]; exact h.1)
  · next hadded =>
    refine .restored hscans hanswer hfinds hverified ?_ ?_
    · rintro n ⟨⟩; rfl
    · rw [if_neg hadded]; exact ⟨rfl, rfl⟩

end restores

/-! ### Calls -/

inductive WalletCall
  | mint (quoteId : String) (amount : UInt64)
  | swap (inputs : List Proof) (newAmounts : List UInt64)
  | melt (quoteId : String) (invoiceAmount feeReserve : UInt64)
  | restore

/-- The amounts of the outputs that a call asks for. -/
def WalletCall.amounts : WalletCall → List UInt64
  | .mint _ amount => decomposeAmount amount
  | .swap _ newAmounts => newAmounts
  | .melt _ _ feeReserve => decomposeAmount feeReserve
  | .restore => []

def WalletCall.exec (keysetId : String) (mintKeys : KeySet) : WalletCall → WalletM Unit
  | .mint quoteId amount => do
    let _ ← mintDeterministic quoteId amount keysetId mintKeys
    pure ()
  | .swap inputs newAmounts => do
    let _ ← swapDeterministic inputs newAmounts keysetId mintKeys
    pure ()
  | .melt quoteId invoiceAmount feeReserve => do
    let _ ← meltDeterministic quoteId invoiceAmount feeReserve keysetId mintKeys
    pure ()
  | .restore => do
    let _ ← Micronuts.restore keysetId mintKeys
    pure ()

end ends

end

end Micronuts
