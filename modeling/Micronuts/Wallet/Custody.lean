import Micronuts.Wallet.Credits
import Micronuts.Wallet.Selection

/-!
# Who has the proofs after a call (`cashu-core-lite`: `persistent.rs`)

`spend` hands out the shortest cover of the amount, and the wallet and its store have the rest; but it takes the proofs out
of memory before it saves, so when the save fails neither the caller nor the wallet has them. `melt_deterministic` gives up
its inputs only for a melt that was paid, and keeps what change verifies.
-/

namespace Micronuts
open WalletM Exec Coins

section
variable [Crypto]

/-! ### A shortest cover -/

/-- The shortest beginning of the proofs from the largest down that is worth the amount. -/
structure ShortestCover (amount : UInt64) (proofs selected : List Proof) : Prop where
  initial : selected <+: largestFirst proofs
  covers : amount.toNat ≤ proofsValue selected
  shortest : ∀ n, amount.toNat ≤ proofsValue ((largestFirst proofs).take n) → selected.length ≤ n

section cover
variable {amount : UInt64} {proofs selected : List Proof}

theorem shortestCover_selection (h : amount.toNat ≤ proofsValue proofs) :
    ShortestCover amount proofs (selection amount proofs) where
  initial := cover_initial ..
  covers := le_selection h
  shortest := by
    intro n hn
    rw [← proofsValue_largestFirst proofs] at h
    refine (length_cover_le_iff ?_).2 ?_
    · simpa [proofsValue] using h
    · simpa [proofsValue] using hn

/-- There is no other. -/
theorem ShortestCover.eq (h : ShortestCover amount proofs selected) : selected = selection amount proofs := by
  obtain ⟨rest, hrest⟩ := h.initial
  have htake : (largestFirst proofs).take selected.length = selected := by rw [← hrest, List.take_left]
  have hvalue : amount.toNat ≤ proofsValue proofs := by
    have hle := congrArg proofsValue hrest
    have hcovers := h.covers
    rw [proofsValue_append, proofsValue_largestFirst] at hle
    omega
  have hsel := shortestCover_selection hvalue
  have hlen : selected.length = (selection amount proofs).length := by
    refine Nat.le_antisymm ?_ (hsel.shortest _ (by rw [htake]; exact h.covers))
    obtain ⟨rest', hrest'⟩ := hsel.initial
    refine h.shortest _ ?_
    rw [← hrest', List.take_left]
    exact hsel.covers
  obtain ⟨rest', hrest'⟩ := hsel.initial
  rw [← htake, hlen, ← hrest', List.take_left]

end cover

/-! ### `spend` -/

/-- What the caller is handed is a shortest cover and the wallet and its store have the rest, until it is put back; or
nothing has changed. -/
inductive SpendsAtomically (amount : UInt64) (w : WalletWorld) : Outcome CashuError (List Proof) → WalletWorld → Prop
  | spent {selected : List Proof} {t : WalletWorld} (cover : ShortestCover amount w.wallet.proofs selected)
      (left : t.wallet.proofs = w.wallet.proofs.filter (· ∉ selected))
      (all : (selected ++ t.wallet.proofs).Perm w.wallet.proofs)
      (stored : t.blob.map Envelope.proofs = some t.wallet.proofs)
      (undone : ∀ env : WalletEnv, (undoSpend selected).Ends env t fun o u => u.wallet.proofs.Perm w.wallet.proofs ∧
        (o.isOk = true → u.blob.map Envelope.proofs = some u.wallet.proofs)) :
      SpendsAtomically amount w (.ok selected) t
  | refused {e : CashuError} {t : WalletWorld} (kept : t.wallet.proofs = w.wallet.proofs) (stored : t.blob = w.blob) :
      SpendsAtomically amount w (.err e) t

section spend
variable {env : WalletEnv} {w t : WalletWorld} {amount : UInt64}

section saves
variable {α : Type} {v : WalletWorld} {o : Outcome CashuError α}

/-- A call that ends with a save returns just when the save goes through. -/
theorem Saves.isOk_iff (h : Saves env v o t) : o.isOk = true ↔ env.save v.wallet.envelope = .saved := by
  unfold Saves at h
  split at h
  · next hsaved => exact iff_of_true h.1 hsaved
  · next e written hfailed => exact iff_of_false (by rw [h.1]; simp [Outcome.isOk]) (by rw [hfailed]; simp)

theorem Saves.of_ok (h : Saves env v o t) (ho : o.isOk = true) : t = { v with blob := some v.wallet.envelope } := by
  have hsaved := h.isOk_iff.1 ho
  unfold Saves at h
  rw [hsaved] at h
  exact h.2

theorem Saves.stored (h : Saves env v o t) (ho : o.isOk = true) :
    t.blob.map Envelope.proofs = some t.wallet.proofs := by
  rw [h.of_ok ho]
  rfl

end saves

/-- What was taken out is put back, whether it is saved or not. -/
theorem undoSpend_restores {selected : List Proof} (hall : (selected ++ t.wallet.proofs).Perm w.wallet.proofs)
    (env : WalletEnv) : (undoSpend selected).Ends env t fun o u => u.wallet.proofs.Perm w.wallet.proofs ∧
      (o.isOk = true → u.blob.map Envelope.proofs = some u.wallet.proofs) := by
  refine (undoSpend_ends selected).mono fun o u hsaves => ⟨?_, hsaves.stored⟩
  rw [hsaves.blob.1]
  exact List.perm_append_comm.trans hall

/-- The wallet without what covers the amount. -/
def WalletWorld.without (w : WalletWorld) (amount : UInt64) : WalletWorld :=
  w.withProofs (w.wallet.proofs.filter (· ∉ selection amount w.wallet.proofs))

/-- Something is taken out. -/
theorem without_ne (hpos : amount ≠ 0) (henough : amount.toNat ≤ proofsValue w.wallet.proofs) :
    (w.without amount).wallet.proofs ≠ w.wallet.proofs := by
  intro hsame
  have hcovers := le_selection henough
  have hall := List.filter_eq_self.1 hsame
  have hnil : selection amount w.wallet.proofs = [] := by
    refine List.eq_nil_iff_forall_not_mem.2 fun p hp => ?_
    simpa [hp] using hall p (selection_subset hp)
  rw [hnil, proofsValue_nil] at hcovers
  exact hpos (UInt64.toNat_inj.1 (by rw [UInt64.toNat_zero]; omega))

/-- With different proofs that fit in 64 bits together, `spend` is atomic just when it refuses or its save goes through. -/
theorem spend_atomic_iff (hnodup : w.wallet.proofs.Nodup) (hfits : proofsValue w.wallet.proofs < 2 ^ 64) :
    (spend amount).Ends env w (SpendsAtomically amount w) ↔
      amount = 0 ∨ proofsValue w.wallet.proofs < amount.toNat ∨ env.save (w.without amount).wallet.envelope = .saved := by
  have hends := @spend_ends _ env w amount hfits
  unfold Ends at hends ⊢
  generalize ((spend amount).run env w).1 = o at hends ⊢
  generalize ((spend amount).run env w).2 = t at hends ⊢
  rcases hends with hshort | ⟨hpos, henough, hvalue, hsaves⟩
  · refine iff_of_true (.refused rfl rfl) ?_
    rcases hshort with ⟨h0, -⟩ | ⟨-, hlt, -⟩
    · exact .inl h0
    · exact .inr (.inl hlt)
  · have hsaves : Saves env (w.without amount) o t := hsaves
    have hwallet : t.wallet = (w.without amount).wallet := hsaves.blob.1
    constructor
    · intro h
      refine .inr (.inr ?_)
      rcases h with - | ⟨hkept, -⟩
      · exact hsaves.isOk_iff.1 rfl
      · rw [hwallet] at hkept
        exact absurd hkept (without_ne hpos henough)
    · rintro (h0 | hlt | hsave)
      · exact absurd h0 hpos
      · omega
      · have hok := hsaves.isOk_iff.2 hsave
        cases o with
        | err e => cases hok
        | panic => cases hok
        | ok selected =>
          obtain rfl := hvalue selected rfl
          have hcover := shortestCover_selection henough
          have hall := perm_of_taken hnodup (subperm_of_initial hcover.initial)
          have hleft : t.wallet.proofs = w.wallet.proofs.filter (· ∉ selection amount w.wallet.proofs) := by
            rw [hwallet]
            rfl
          rw [← hleft] at hall
          exact .spent hcover hleft hall (hsaves.stored rfl) (undoSpend_restores hall)

end spend

/-! ### `melt_deterministic` -/

section melt
variable [Curve]

/-- A round of the loop over the change. -/
def changeProof (mintKeys : KeySet) (x : PendingOutput × BlindSignature) : Except CashuError Proof := do
  let mintPubkey ← Except.okOr (mintKeys.pubkey x.2.amount) .keysetNotFound
  let c ← Except.okOr (unblindSignature x.2.c x.1.blinder mintPubkey) (.crypto "change unblind failed")
  let secret ← Except.okOr (fromUtf8 x.1.secret) (.crypto "invalid secret string")
  pure { amount := x.2.amount, id := x.2.id, secret, c, dleq := x.2.dleq.map fun d => ⟨d.e, d.s, x.1.blinder⟩,
         witness := none }

section change
variable {env : WalletEnv} {w : WalletWorld} {mintKeys : KeySet}

theorem changeProof_eq_ok {x : PendingOutput × BlindSignature} {p : Proof} : changeProof mintKeys x = .ok p ↔
    ∃ key c secret, mintKeys.pubkey x.2.amount = some key ∧ unblindSignature x.2.c x.1.blinder key = some c ∧
      fromUtf8 x.1.secret = some secret ∧
      p = { amount := x.2.amount, id := x.2.id, secret, c, dleq := x.2.dleq.map fun d => ⟨d.e, d.s, x.1.blinder⟩,
            witness := none } := by
  unfold changeProof
  simp only [Except.bind_eq_ok, Except.okOr_eq_ok]
  constructor
  · rintro ⟨key, hkey, c, hc, secret, hsecret, ⟨⟩⟩
    exact ⟨key, c, secret, hkey, hc, hsecret, rfl⟩
  · rintro ⟨key, c, secret, hkey, hc, hsecret, rfl⟩
    exact ⟨key, hkey, c, hc, secret, hsecret, rfl⟩

/-- The sum of the change may wrap around, unless overflow is checked. -/
theorem unblindChange_change (pairs : List (PendingOutput × BlindSignature)) (acc : UInt64) :
    (unblindChange mintKeys pairs acc).Ends env w (Inspects w fun r => pairs.mapM (changeProof mintKeys) = .ok r.1 ∧
      r.2 = acc + UInt64.ofNat (proofsValue r.1) ∧ (env.overflowChecks = true → acc.toNat + proofsValue r.1 < 2 ^ 64)) := by
  induction pairs generalizing acc with
  | nil => exact Inspects.pure ⟨rfl, by simp, fun _ => by simpa using acc.toNat_lt⟩
  | cons x pairs ih =>
    obtain ⟨pending, sig⟩ := x
    refine Ends.bind_okOr (fun key hkey => ?_) fun _ => Inspects.stopped rfl
    refine Ends.bind_okOr (fun c hc => ?_) fun _ => Inspects.stopped rfl
    refine bind_addU64_fits (fun hfits => ?_) (Inspects.stopped rfl)
    refine Ends.bind_okOr (fun secret hsecret => ?_) fun _ => Inspects.stopped rfl
    refine Inspects.bind (ih _) ?_ fun o ho => Inspects.stopped ho
    rintro ⟨proofs, sats⟩ ⟨hproofs, hsum, hrest⟩
    refine Inspects.pure ⟨?_, ?_, fun hchecks => ?_⟩
    · rw [List.mapM_cons, changeProof_eq_ok.2 ⟨key, c, secret, hkey, hc, hsecret, rfl⟩, hproofs]
      rfl
    · rw [proofsValue_cons, UInt64.ofNat_add, UInt64.ofNat_toNat, ← UInt64.add_assoc]
      exact hsum
    · have hlt := hrest hchecks
      have hadd := hfits hchecks
      rw [UInt64.toNat_add, Nat.mod_eq_of_lt hadd] at hlt
      simpa [Nat.add_assoc] using hlt

theorem unblindChange_run {pairs : List (PendingOutput × BlindSignature)} {acc : UInt64} {change : List Proof}
    (h : pairs.mapM (changeProof mintKeys) = .ok change)
    (hfits : env.overflowChecks = false ∨ acc.toNat + proofsValue change < 2 ^ 64) :
    (unblindChange mintKeys pairs acc).run env w = (.ok (change, acc + UInt64.ofNat (proofsValue change)), w) := by
  induction pairs generalizing acc change with
  | nil =>
    cases h
    simp [unblindChange]
  | cons x pairs ih =>
    obtain ⟨pending, sig⟩ := x
    obtain ⟨p, hp, h⟩ := Except.bind_eq_ok.1 (by rwa [List.mapM_cons] at h)
    obtain ⟨proofs, hproofs, h⟩ := Except.bind_eq_ok.1 h
    obtain ⟨key, c, secret, hkey, hc, hsecret, rfl⟩ := changeProof_eq_ok.1 hp
    cases h
    rw [proofsValue_cons] at hfits ⊢
    dsimp only at hfits ⊢
    have hadd : ¬ (env.overflowChecks = true ∧ 2 ^ 64 ≤ acc.toNat + sig.amount.toNat) := by
      rintro ⟨hchecks, hle⟩
      rw [hchecks] at hfits
      rcases hfits with h | h
      · cases h
      · omega
    have hrest : env.overflowChecks = false ∨ (acc + sig.amount).toNat + proofsValue proofs < 2 ^ 64 := by
      refine hfits.imp_right fun h => ?_
      rw [UInt64.toNat_add, Nat.mod_eq_of_lt (by omega)]
      omega
    rw [unblindChange, run_bind_of_ok (okOr_run hkey), run_bind_of_ok (okOr_run hc)]
    rw [run_bind_of_ok (show (addU64 acc sig.amount).run env w = (.ok (acc + sig.amount), w) from if_neg hadd)]
    rw [run_bind_of_ok (okOr_run hsecret), run_bind_of_ok (ih hproofs hrest)]
    rw [UInt64.ofNat_add, UInt64.ofNat_toNat, ← UInt64.add_assoc]
    rfl

end change

section select
variable {env : WalletEnv} {w : WalletWorld} {amount : UInt64}

omit [Curve]

/-- A sum that wraps around is too small. -/
theorem sumAmounts_le (proofs : List Proof) (acc : UInt64) :
    (sumAmounts proofs acc).Ends env w (Inspects w fun total => total.toNat ≤ acc.toNat + proofsValue proofs) := by
  induction proofs generalizing acc with
  | nil => exact Inspects.pure (by simp)
  | cons p ps ih =>
    refine bind_addU64 ((ih _).mono fun o t h => ⟨h.1, fun total htotal => ?_⟩) (Inspects.stopped rfl)
    have hle := h.2 total htotal
    have hadd := Nat.mod_le (acc.toNat + p.amount.toNat) (2 ^ 64)
    rw [UInt64.toNat_add] at hle
    rw [proofsValue_cons]
    omega

/-- What is taken covers the amount, or it is all there is. -/
theorem takeCovering_covers {n : Nat} (proofs : List Proof) (acc : UInt64) (hacc : acc.toNat ≤ n) :
    (takeCovering amount acc proofs).Ends env w (Inspects w fun selected => selected <+: proofs ∧
      (amount.toNat ≤ n + proofsValue selected ∨ selected = proofs)) := by
  induction proofs generalizing acc n with
  | nil => exact Inspects.pure ⟨List.nil_prefix, .inr rfl⟩
  | cons p ps ih =>
    unfold takeCovering
    split
    · next hle =>
      rw [UInt64.le_iff_toNat_le] at hle
      exact Inspects.pure ⟨List.nil_prefix, .inl (by rw [proofsValue_nil]; omega)⟩
    · have hadd := Nat.mod_le (acc.toNat + p.amount.toNat) (2 ^ 64)
      refine bind_addU64 (Inspects.bind (ih (n := n + p.amount.toNat) _ ?_) ?_ fun o ho => Inspects.stopped ho)
        (Inspects.stopped rfl)
      · rw [UInt64.toNat_add]
        omega
      · rintro rest ⟨hrest, hcovers⟩
        refine Inspects.pure ⟨List.cons_prefix_cons.2 ⟨rfl, hrest⟩, ?_⟩
        rw [proofsValue_cons]
        rcases hcovers with hle | rfl
        · exact .inl (by omega)
        · exact .inr rfl

/-- Whatever the sums do, the selection is worth the amount. -/
theorem selectCovering_covers (amount : UInt64) : (selectCovering amount).Ends env w (Inspects w fun selected =>
    selected <+: largestFirst w.wallet.proofs ∧ amount.toNat ≤ proofsValue selected) := by
  refine bind_wallet (Inspects.bind (sumAmounts_le _ _) (fun total htotal => ?_) fun o ho => Inspects.stopped ho)
  refine Ends.bind_failIf (fun henough => ?_) fun _ => Inspects.stopped rfl
  refine (takeCovering_covers (n := 0) (largestFirst w.wallet.proofs) 0 (Nat.le_refl 0)).mono fun o t h => ⟨h.1, ?_⟩
  intro selected hselected
  obtain ⟨hinitial, hcovers⟩ := h.2 selected hselected
  refine ⟨hinitial, ?_⟩
  rcases hcovers with hle | rfl
  · omega
  · rw [UInt64.lt_iff_toNat_lt] at henough
    rw [UInt64.toNat_zero] at htotal
    rw [proofsValue_largestFirst]
    omega

end select

/-! ### How a melt ends -/

/-- The melt that a call asks for. -/
structure Melt where
  quoteId : String
  invoiceAmount : UInt64
  feeReserve : UInt64
  keysetId : String
  mintKeys : KeySet

def Melt.run (m : Melt) : WalletM MeltOutcome :=
  meltDeterministic m.quoteId m.invoiceAmount m.feeReserve m.keysetId m.mintKeys

/-- The inputs and the blanks that a melt goes out with. -/
structure Melt.Sent (m : Melt) (env : WalletEnv) (w : WalletWorld) (selected : List Proof) (blanks : List BlindedMessage)
    (pending : List PendingOutput) : Prop where
  needed : ∃ totalNeeded, UInt64.checkedAdd m.invoiceAmount m.feeReserve = some totalNeeded ∧ totalNeeded ≠ 0 ∧
    (selectCovering totalNeeded).run env w = (.ok selected, w)
  outputs : (deterministicOutputs (decomposeAmount m.feeReserve) m.keysetId).run env w = (.ok (blanks, pending), w)

def Melt.request (m : Melt) (selected : List Proof) (blanks : List BlindedMessage) : MeltRequest :=
  { quote := m.quoteId, inputs := selected, outputs := some blanks }

/-- The mint answers that the melt is paid, and all of the change verifies. -/
structure Melt.Paid (m : Melt) (env : WalletEnv) (w : WalletWorld) (selected : List Proof) (blanks : List BlindedMessage)
    (pending : List PendingOutput) (response : MeltResponse) (change : List Proof) : Prop where
  sent : m.Sent env w selected blanks pending
  answer : env.postMelt (m.request selected blanks) = .ok response
  paid : response.paid = true
  unblinded : (pending.zip (response.change.getD [])).mapM (changeProof m.mintKeys) = .ok change
  verified : verifyFresh m.mintKeys change = .ok ()

/-- What the answer's signatures on the blanks are worth. -/
def changeValue (pending : List PendingOutput) (response : MeltResponse) : Nat :=
  ((pending.zip (response.change.getD [])).map fun x => x.2.amount.toNat).sum

/-- The wallet after a paid melt. -/
def WalletWorld.melted (w : WalletWorld) (r : WalletRequest) (n : Nat) (selected change : List Proof) : WalletWorld :=
  (w.request r n).withProofs (w.wallet.proofs.filter (· ∉ selected) ++ change)

/-- Inputs are given up for a melt that is paid, against the change that verifies, and for no other; in the wallet and in
its store. -/
inductive MeltCustody (env : WalletEnv) (m : Melt) (w : WalletWorld) : Outcome CashuError MeltOutcome → WalletWorld → Prop
  | panicked {t : WalletWorld} : MeltCustody env m w .panic t
  | paid {outcome : MeltOutcome} {t : WalletWorld} {selected change : List Proof} {blanks : List BlindedMessage}
      (paid : outcome.paid = true) (sent : t.sent = .melt (m.request selected blanks) :: w.sent)
      (initial : selected <+: largestFirst w.wallet.proofs)
      (covers : m.invoiceAmount.toNat + m.feeReserve.toNat ≤ proofsValue selected)
      (verified : ∀ p ∈ change, Verified m.mintKeys p)
      (left : t.wallet.proofs = w.wallet.proofs.filter (· ∉ selected) ++ change)
      (all : (selected ++ w.wallet.proofs.filter (· ∉ selected)).Perm w.wallet.proofs)
      (stored : t.blob.map Envelope.proofs = some t.wallet.proofs)
      (sum : outcome.changeSats.toNat = proofsValue change) : MeltCustody env m w (.ok outcome) t
  | unpaid {outcome : MeltOutcome} {t : WalletWorld} (unpaid : outcome.paid = false)
      (kept : t.wallet.proofs = w.wallet.proofs) (stored : t.blob.map Envelope.proofs = some w.wallet.proofs) :
      MeltCustody env m w (.ok outcome) t
  | failed {e : CashuError} {t : WalletWorld}
      (kept : (∀ envelope, env.save envelope = .saved) → t.wallet.proofs = w.wallet.proofs ∧ t.blob = w.blob) :
      MeltCustody env m w (.err e) t

inductive MeltEnds (env : WalletEnv) (m : Melt) (w : WalletWorld) : Outcome CashuError MeltOutcome → WalletWorld → Prop
  | panicked {t} : MeltEnds env m w .panic t
  | failed {e t} (kept : t.wallet.proofs = w.wallet.proofs) (stored : t.blob = w.blob) : MeltEnds env m w (.err e) t
  | unpaid {o t r n} (value : ∀ outcome, o = .ok outcome → outcome.paid = false) (saves : Saves env (w.request r n) o t) :
      MeltEnds env m w o t
  | paid {o t selected blanks pending response change} (paid : m.Paid env w selected blanks pending response change)
      (covers : selected <+: largestFirst w.wallet.proofs ∧
        m.invoiceAmount.toNat + m.feeReserve.toNat ≤ proofsValue selected)
      (value : ∀ outcome, o = .ok outcome → outcome.paid = true ∧ outcome.changeSats = UInt64.ofNat (proofsValue change))
      (fits : env.overflowChecks = true → proofsValue change < 2 ^ 64)
      (saves : Saves env (w.melted (.melt (m.request selected blanks)) pending.length selected change) o t) :
      MeltEnds env m w o t

section
variable {env : WalletEnv} {w : WalletWorld} {m : Melt}

omit [Curve] in
theorem post_run {α : Type} {request : WalletRequest} {answer : WalletEnv → Except CashuError α} {response : α}
    (h : answer env = .ok response) :
    (post request answer).run env w = (.ok response, { w with sent := request :: w.sent }) := by
  simp [run, post, h]

omit [Curve] in
/-- A statement that only looks is known to have run. -/
theorem Inspects.bind_run {α β : Type} {P : α → Prop} {Q : Outcome CashuError β → WalletWorld → Prop} {c : WalletM α}
    {k : α → WalletM β} (h : c.Ends env w (Inspects w P))
    (hok : ∀ a, c.run env w = (.ok a, w) → P a → (k a).Ends env w Q)
    (hstop : ∀ o : Outcome CashuError β, o.isOk = false → Q o w) : (c >>= k).Ends env w Q := by
  refine Ends.bind (Ends.and Ends.self h) ?_ ?_ ?_
  · rintro a t ⟨hrun, rfl, hP⟩
    exact hok a hrun (hP a rfl)
  · rintro e t ⟨-, rfl, -⟩
    exact hstop _ rfl
  · rintro t ⟨-, rfl, -⟩
    exact hstop _ rfl

theorem melt_ends : m.run.Ends env w (MeltEnds env m w) := by
  have hstopped : ∀ (o : Outcome CashuError MeltOutcome) (t : WalletWorld), t.wallet.proofs = w.wallet.proofs →
      t.blob = w.blob → o.isOk = false → MeltEnds env m w o t := by
    intro o t hkept hstored ho
    cases o with
    | ok a => cases ho
    | err e => exact .failed hkept hstored
    | panic => exact .panicked
  refine Ends.bind_okOr (fun totalNeeded hneeded => ?_) fun _ => hstopped _ _ rfl rfl rfl
  refine Ends.bind_failIf (fun hpos => ?_) fun _ => hstopped _ _ rfl rfl rfl
  refine Inspects.bind_run (selectCovering_covers totalNeeded) ?_ fun o ho => hstopped o _ rfl rfl ho
  intro selected hselected hcovers
  refine Inspects.bind_run (deterministicOutputs_ends _ _) ?_ fun o ho => hstopped o _ rfl rfl ho
  rintro ⟨blanks, pending⟩ houtputs -
  have hsent : m.Sent env w selected blanks pending := ⟨⟨totalNeeded, hneeded, hpos, hselected⟩, houtputs⟩
  refine bind_modifyWallet (bind_post (fun response hanswer => ?_) fun e _ => hstopped _ _ rfl rfl rfl)
  by_cases hpaid : response.paid = true
  · rw [if_neg (by simpa using hpaid)]
    refine Inspects.bind (unblindChange_change _ _) ?_ fun o ho => hstopped o _ rfl rfl ho
    rintro ⟨change, changeSats⟩ ⟨hchange, hsats, hfits⟩
    refine Ends.bind_lift (fun _ hverified => ?_) fun e _ => hstopped _ _ rfl rfl rfl
    refine bind_modifyWallet ((Ends.and (saves_ends _) (saves_value _)).mono fun o t h => ?_)
    refine .paid ⟨hsent, hanswer, hpaid, hchange, hverified⟩ ⟨hcovers.1, ?_⟩ (fun outcome ho => ?_)
      (by simpa using hfits) h.1
    · rw [← UInt64.checkedAdd_eq_some.1 hneeded]
      exact hcovers.2
    · rw [h.2 outcome ho]
      exact ⟨rfl, by simpa using hsats⟩
  · rw [if_pos (by simpa using hpaid)]
    refine (Ends.and (saves_ends _) (saves_value _)).mono fun o t h => .unpaid (fun outcome ho => ?_) h.1
    rw [h.2 outcome ho]

theorem changeValue_eq {pending : List PendingOutput} {response : MeltResponse} {change : List Proof}
    (h : (pending.zip (response.change.getD [])).mapM (changeProof m.mintKeys) = .ok change) :
    changeValue pending response = proofsValue change := by
  rw [changeValue]
  have hall := Except.mapM_eq_ok.1 h
  clear h
  generalize pending.zip (response.change.getD []) = pairs at hall ⊢
  induction hall with
  | nil => rfl
  | cons hone _ ih =>
    obtain ⟨key, c, secret, -, -, -, rfl⟩ := changeProof_eq_ok.1 hone
    rw [List.map_cons, List.sum_cons, ih, proofsValue_cons]

/-- Where the sum of the change does not stop it, a paid melt gets to its save. -/
theorem Melt.Paid.persists {selected : List Proof} {blanks : List BlindedMessage} {pending : List PendingOutput}
    {response : MeltResponse} {change : List Proof} (h : m.Paid env w selected blanks pending response change)
    (hfits : env.overflowChecks = false ∨ proofsValue change < 2 ^ 64) :
    m.run.run env w = (persist >>= fun _ => (pure ⟨true, response.paymentPreimage, UInt64.ofNat (proofsValue change)⟩ :
      WalletM MeltOutcome)).run env (w.melted (.melt (m.request selected blanks)) pending.length selected change) := by
  obtain ⟨⟨⟨totalNeeded, hneeded, hpos, hselected⟩, houtputs⟩, hanswer, hpaid, hchange, hverified⟩ := h
  have hsum : (unblindChange m.mintKeys (pending.zip (response.change.getD [])) 0).run env
      (w.request (.melt (m.request selected blanks)) pending.length) =
      (.ok (change, UInt64.ofNat (proofsValue change)), w.request (.melt (m.request selected blanks)) pending.length) := by
    rw [unblindChange_run hchange (by simpa using hfits), UInt64.zero_add]
  have hverify : (Exec.lift (verifyFresh m.mintKeys change) : WalletM Unit).run env
      (w.request (.melt (m.request selected blanks)) pending.length) =
      (.ok (), w.request (.melt (m.request selected blanks)) pending.length) := by
    rw [hverified]
    rfl
  rw [Melt.run, meltDeterministic, run_bind_of_ok (okOr_run hneeded), run_bind_of_ok (failIf_pass hpos),
    run_bind_of_ok hselected, run_bind_of_ok houtputs]
  let advanced : WalletWorld :=
    { w with wallet := { w.wallet with counter := saturatingAdd w.wallet.counter (UInt32.ofNat pending.length) } }
  have hadvance : (advanceCounter pending).run env w = (.ok (), advanced) := rfl
  have hpost : (WalletM.postMelt (m.request selected blanks)).run env advanced =
      (.ok response, w.request (.melt (m.request selected blanks)) pending.length) := by
    exact post_run hanswer
  refine (run_bind_of_ok hadvance).trans ((run_bind_of_ok hpost).trans ?_)
  rw [if_neg (by simpa using hpaid)]
  exact (run_bind_of_ok hsum).trans (run_bind_of_ok hverify)

omit [Curve] in
/-- A save that goes through is the end of a call that returns. -/
theorem persist_saved {α : Type} (a : α) (h : env.save w.wallet.envelope = .saved) :
    (persist >>= fun _ => (pure a : WalletM α)).run env w = (.ok a, { w with blob := some w.wallet.envelope }) := by
  rw [run_bind]
  simp only [run, persist, h]
  rfl

/-- With different proofs, a melt keeps custody just when the change it takes fits in 64 bits or its sum is checked. -/
theorem melt_custody_iff (hnodup : w.wallet.proofs.Nodup) : m.run.Ends env w (MeltCustody env m w) ↔
    ∀ selected blanks pending response change, m.Paid env w selected blanks pending response change →
      env.save (w.melted (.melt (m.request selected blanks)) pending.length selected change).wallet.envelope = .saved →
      env.overflowChecks = true ∨ changeValue pending response < 2 ^ 64 := by
  constructor
  · intro h selected blanks pending response change hpaid hsaved
    by_contra hwraps
    rw [not_or, Bool.not_eq_true, not_lt, changeValue_eq hpaid.unblinded] at hwraps
    have hrun := (hpaid.persists (.inl hwraps.1)).trans (persist_saved _ hsaved)
    -- the request that went out tells the selection, and the proofs that are left tell the change
    rcases h.elim hrun with - | ⟨-, hsent, -, -, -, hleft, -, -, hsum⟩ | ⟨hunpaid, -, -⟩
    · obtain rfl := (MeltRequest.mk.inj (WalletRequest.melt.inj (List.cons.inj hsent).1)).2.1
      obtain rfl := List.append_cancel_left hleft
      have hlt := (UInt64.ofNat (proofsValue change)).toNat_lt
      dsimp only at hsum
      omega
    · cases hunpaid
  · intro hwhen
    refine melt_ends.mono fun o t h => ?_
    rcases h with - | ⟨hkept, hstored⟩ | ⟨hvalue, hsaves⟩ |
      @⟨_, _, selected, blanks, pending, response, change, hpaid, hcovers, hvalue, hfits, hsaves⟩
    · exact .panicked
    · exact .failed fun _ => ⟨hkept, hstored⟩
    · cases o with
      | panic => exact .panicked
      | err e => exact .failed fun hsave => nomatch hsaves.isOk_iff.2 (hsave _)
      | ok outcome =>
        obtain rfl := hsaves.of_ok rfl
        exact .unpaid (hvalue outcome rfl) rfl rfl
    · cases o with
      | panic => exact .panicked
      | err e => exact .failed fun hsave => nomatch hsaves.isOk_iff.2 (hsave _)
      | ok outcome =>
        obtain ⟨hispaid, hsum⟩ := hvalue outcome rfl
        have hlt : proofsValue change < 2 ^ 64 := by
          rcases hwhen _ _ _ _ _ hpaid (hsaves.isOk_iff.1 rfl) with hchecks | hlt
          · exact hfits hchecks
          · rwa [changeValue_eq hpaid.unblinded] at hlt
        obtain rfl := hsaves.of_ok rfl
        have hall := perm_of_taken hnodup (subperm_of_initial hcovers.1)
        refine .paid hispaid rfl hcovers.1 hcovers.2 (verifyFresh_eq_ok.1 hpaid.verified) rfl hall rfl ?_
        rw [hsum]
        exact UInt64.toNat_ofNat_of_lt' hlt

end

end melt
end

section toy
open Toy32

def coinOfFour : Proof := ⟨4, "00c0ffee", "s", (3 : UInt8), none, none⟩

def holdingFour : WalletWorld := ⟨{ PersistentWallet.new none [1] with proofs := [coinOfFour] }, none, []⟩

theorem spend_atomic_toy : (spend 3).Ends (env .saved) holdingFour (SpendsAtomically 3 holdingFour) :=
  (spend_atomic_iff (by decide) (by decide)).2 (.inr (.inr rfl))

/-- The coin is gone from the wallet when the save fails, and the caller does not have it. -/
theorem unsaved_spend_loses : holdingFour.wallet.proofs.Nodup ∧ proofsValue holdingFour.wallet.proofs < 2 ^ 64 ∧
    ¬ (spend 3).Ends (env (.failed .unavailable false)) holdingFour (SpendsAtomically 3 holdingFour) := by
  refine ⟨by decide, by decide, fun h => ?_⟩
  have hrun : ((spend 3).run (env (.failed .unavailable false)) holdingFour).1.isOk = false ∧
      ((spend 3).run (env (.failed .unavailable false)) holdingFour).2.wallet.proofs = [] := by decide +kernel
  unfold Ends at h
  generalize ((spend 3).run _ holdingFour).1 = o at h hrun
  generalize ((spend 3).run _ holdingFour).2 = t at h hrun
  rcases h with - | ⟨hkept, -⟩
  · exact nomatch hrun.1
  · rw [hrun.2] at hkept
    cases hkept

def twoBlanks : Melt := ⟨"m", 1, 3, "00c0ffee", ⟨"00c0ffee", "sat", [⟨0x8000000000000000, (3 : UInt8)⟩]⟩⟩

/-- A mint that pays every melt and keeps the change. -/
def keeping : WalletEnv :=
  { env .saved with postMelt := fun r => .ok ⟨true, .paid, none, none, r.quote, 1, 3, "sat", 0, "lnbc", "bolt11"⟩ }

theorem melt_custody_toy : twoBlanks.run.Ends keeping holdingFour (MeltCustody keeping twoBlanks holdingFour) := by
  refine (melt_custody_iff (by decide)).2 fun selected blanks pending response change hpaid _ => .inr ?_
  obtain rfl := Except.ok.inj hpaid.answer
  simp [changeValue]

/-- A mint that pays every melt and signs each blank for `2 ^ 63`. -/
def generous : WalletEnv :=
  { env .saved with
    postMelt := fun r => .ok ⟨true, .paid, none, some ((r.outputs.getD []).map fun o => sign 3 o.b 0x8000000000000000),
      r.quote, 1, 3, "sat", 0, "lnbc", "bolt11"⟩ }

/-- The change is worth `2 ^ 64`, and the call says that it is worth nothing. -/
theorem generous_change_wraps : holdingFour.wallet.proofs.Nodup ∧
    ¬ twoBlanks.run.Ends generous holdingFour (MeltCustody generous twoBlanks holdingFour) := by
  refine ⟨by decide, fun h => ?_⟩
  have hrun : (twoBlanks.run.run generous holdingFour).1.map (fun r => (r.paid, r.changeSats)) = .ok (true, 0) ∧
      proofsValue (twoBlanks.run.run generous holdingFour).2.wallet.proofs = 2 ^ 64 := by decide +kernel
  unfold Ends at h
  generalize (twoBlanks.run.run _ holdingFour).1 = o at h hrun
  generalize (twoBlanks.run.run _ holdingFour).2 = t at h hrun
  obtain ⟨hvalue, hworth⟩ := hrun
  rcases h with - | @⟨outcome, _, selected, change, _, -, -, -, -, -, hleft, hall, -, hsum⟩ |
    @⟨outcome, _, hunpaid, -, -⟩ | -
  · cases hvalue
  · have hzero : outcome.changeSats = 0 := congrArg Prod.snd (Outcome.ok.inj hvalue)
    have hfour : proofsValue holdingFour.wallet.proofs = 4 := rfl
    rw [← proofsValue_perm hall, proofsValue_append] at hfour
    rw [hleft, proofsValue_append] at hworth
    rw [hzero, UInt64.toNat_zero] at hsum
    omega
  · have hpaid : outcome.paid = true := congrArg Prod.fst (Outcome.ok.inj hvalue)
    simp [hunpaid] at hpaid
  · cases hvalue

end toy

end Micronuts
