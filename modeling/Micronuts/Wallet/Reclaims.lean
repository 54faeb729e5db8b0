import Micronuts.Wallet.Bookkeeping
import Micronuts.Wallet.Custody
import Micronuts.Wallet.Sends

/-!
# Taking back a send (`micronuts-wallet-core`: `engine.rs`)

A reclaim swaps the proofs of the token for new ones. When the swap comes to nothing the engine asks whether the proofs are
spent, and takes the answer for a redemption by the recipient. The proofs are spent as well when the swap itself has reached
the mint and its answer was lost, or could not be saved (`Misjudged`).
-/

namespace Micronuts
open WalletM Exec

namespace Books
variable {b : Books} {index : Nat} {r : PendingSend} {status : HistoryStatus}

theorem Matched.gone (h : b.Matched) (hr : b.pending[index]? = some r) : r ∉ b.pending.eraseIdx index :=
  fun hmem => ((h.mem_eraseIdx hr).1 hmem).2 rfl

/-- The status of the entry at a place. -/
def statusAt (b : Books) (idx : Nat) : Option HistoryStatus := b.history[idx]?.map HistoryEntry.status

theorem Matched.statusAt (h : b.Matched) (hr : r ∈ b.pending) : b.statusAt r.historyIdx = some .pending := by
  obtain ⟨entry, hentry, hopen, -⟩ := h.records r hr
  rw [Books.statusAt, hentry, Option.map_some, hopen.2]

theorem Matched.settle_statusAt (h : b.Matched) (hr : b.pending[index]? = some r) :
    (b.settle index r status).statusAt r.historyIdx = some status := by
  obtain ⟨entry, hentry, -⟩ := h.records r (List.mem_of_getElem? hr)
  rw [Books.statusAt, Books.settle, List.getElem?_modify_eq, hentry]
  rfl

theorem statusAt_append {history new : List HistoryEntry} {pending : List PendingSend} {idx : Nat}
    (h : idx < history.length) : statusAt ⟨history ++ new, pending⟩ idx = statusAt ⟨history, pending⟩ idx := by
  rw [statusAt, statusAt, List.getElem?_append_left h]

end Books

section
variable [Crypto] [Curve]

namespace WalletEngine

/-! ### Swaps that are saved -/

/-- The swap lands and its proofs reach the store. -/
structure Arrives (env : EngineEnv) (e : WalletEngine) (inputs : List Proof) (amounts : List UInt64)
    (derived : List DerivedOutput) (fresh : List Proof) : Prop where
  lands : SwapLands env e inputs amounts derived fresh
  saved : (env.wallet e.calls).save (e.swapped inputs amounts derived fresh).world.wallet.envelope = .saved

section arrives
variable {β : Type} {env : EngineEnv} {e : WalletEngine} {inputs : List Proof} {amounts : List UInt64}
  {Q : Outcome CashuError β → WalletEngine → Prop}

theorem Arrives.unique {fresh fresh' : List Proof} {derived derived' : List DerivedOutput}
    (h : Arrives env e inputs amounts derived fresh) (h' : Arrives env e inputs amounts derived' fresh') :
    derived = derived' ∧ fresh = fresh' :=
  h.lands.unique h'.lands

/-- A swap returns the proofs that it has saved. -/
theorem bind_attemptArrives {k : Except CashuError (List Proof) → EngineM β}
    (harrives : ∀ derived fresh, Arrives env e inputs amounts derived fresh →
      (k (.ok fresh)).Ends env (e.swapped inputs amounts derived fresh) Q)
    (hfails : ∀ x w, (∀ derived fresh, ¬ Arrives env e inputs amounts derived fresh) →
      (k (.error x)).Ends env (e.after w) Q)
    (hpanic : ∀ w, Q .panic (e.after w)) :
    (attempt (callWallet (swapDeterministic inputs amounts e.keysetId e.keys)) >>= k).Ends env e Q := by
  refine bind_attemptWallet swapDeterministic_rotates (fun fresh w h => ?_) (fun x w h => ?_) fun w _ => hpanic w
  · rcases h with ⟨hstop, -, -⟩ | - | ⟨hlands, hvalue, hsaves⟩
    · cases hstop
    · obtain rfl := hvalue fresh rfl
      obtain rfl := hsaves.of_ok rfl
      exact harrives _ _ ⟨hlands, hsaves.isOk_iff.1 rfl⟩
  · refine hfails x w fun derived fresh harrives => ?_
    rcases h with ⟨-, hnot, -⟩ | ⟨-, -, hnot⟩ | ⟨hlands, -, hsaves⟩
    · exact hnot _ _ harrives.lands
    · exact hnot _ _ harrives.lands
    · obtain ⟨rfl, rfl⟩ := hlands.unique harrives.lands
      cases hsaves.isOk_iff.2 harrives.saved

end arrives

/-! ### How a reclaim ends -/

section reclaim
variable [Minicbor] [TokenCrates]

/-- What a reclaim swaps, and what is left of it after the fee. -/
structure ReclaimTerms (env : EngineEnv) (e : WalletEngine) (r : PendingSend) (inputs : List Proof)
    (net : UInt64) : Prop where
  connected : e.keysetId ≠ ""
  decodes : ∃ token, decodeTokenAny r.token = .ok token ∧
    token.proofs.mapM (fun p => tokenProofToWallet p p.keysetId) = .ok inputs
  net : ∃ total fee, (sumAmounts inputs 0).run env e = (.ok total, e) ∧ (inputFee inputs.length).run env e = (.ok fee, e) ∧
    UInt64.checkedSub total fee = some net

/-- The points of the token of a record. -/
def TokenPoints (r : PendingSend) (ys : List PublicKey) : Prop :=
  ∃ token, decodeTokenAny r.token = .ok token ∧ token.proofs.mapM (fun p => secretPoint p.secret) = .ok ys

/-- At the call `n` the mint answers for these points, and that each is spent. -/
def ReportsSpent (env : EngineEnv) (n : Nat) (ys : List PublicKey) : Prop :=
  ∃ response, env.checkState n ⟨ys⟩ = .ok response ∧ response.states ≠ [] ∧ ∀ s ∈ response.states, s.state = spentState

/-- How a reclaim of the record `r` ends. -/
inductive ReclaimEnds (env : EngineEnv) (e : WalletEngine) (index : Nat) (r : PendingSend) :
    Outcome CashuError UInt64 → WalletEngine → Prop
  | panicked {t} (books : t.books = e.books) : ReclaimEnds env e index r .panic t
  | refused {x t} (books : t.books = e.books) (fails : ∀ inputs net, ¬ ReclaimTerms env e r inputs net) :
      ReclaimEnds env e index r (.err x) t
  | reclaimed {inputs net derived fresh t} (terms : ReclaimTerms env e r inputs net)
      (arrives : Arrives env e inputs (decomposeAmount net) derived fresh)
      (world : t.world = (e.swapped inputs (decomposeAmount net) derived fresh).world)
      (books : t.books = ⟨(e.books.settle index r .reclaimed).history ++
        [⟨.receive, net, "ecash reclaimed", env.now (e.calls + 1), .complete⟩],
        (e.books.settle index r .reclaimed).pending⟩) : ReclaimEnds env e index r (.ok net) t
  | kept {inputs net x t} (terms : ReclaimTerms env e r inputs net)
      (fails : ∀ derived fresh, ¬ Arrives env e inputs (decomposeAmount net) derived fresh)
      (unreported : ∀ ys, TokenPoints r ys → ¬ ReportsSpent env (e.calls + 1) ys) (books : t.books = e.books) :
      ReclaimEnds env e index r (.err x) t
  | claimed {inputs net ys x t} (terms : ReclaimTerms env e r inputs net)
      (fails : ∀ derived fresh, ¬ Arrives env e inputs (decomposeAmount net) derived fresh) (points : TokenPoints r ys)
      (reported : ReportsSpent env (e.calls + 1) ys) (calls : t.calls = e.calls + 2)
      (books : t.books = e.books.settle index r .complete) : ReclaimEnds env e index r (.err x) t

section ends
variable {env : EngineEnv} {e : WalletEngine} {index : Nat} {r : PendingSend}

omit [Curve] in
theorem TokenPoints.unique {ys ys' : List PublicKey} (h : TokenPoints r ys) (h' : TokenPoints r ys') : ys = ys' := by
  obtain ⟨token, htoken, hys⟩ := h
  obtain ⟨token', htoken', hys'⟩ := h'
  obtain rfl := Except.ok.inj (htoken.symm.trans htoken')
  exact Except.ok.inj (hys.symm.trans hys')

/-- How a probe of the record `r` ends. -/
inductive ProbeEnds (env : EngineEnv) (e : WalletEngine) (r : PendingSend) :
    Outcome CashuError PendingStatus → WalletEngine → Prop
  | claimed {ys} (points : TokenPoints r ys) (reported : ReportsSpent env e.calls ys) :
      ProbeEnds env e r (.ok .claimed) (e.after e.world)
  | unclaimed {o t} (returns : o ≠ .panic) (undecided : o ≠ .ok .claimed)
      (unreported : ∀ ys, TokenPoints r ys → ¬ ReportsSpent env e.calls ys) (books : t.books = e.books) :
      ProbeEnds env e r o t

omit [Curve] in
theorem probePending_ends : (probePending r).Ends env e (ProbeEnds env e r) := by
  refine Ends.bind_lift (fun token htoken => ?_) fun x hx => .unclaimed (by simp) (by simp) ?_ rfl
  · rw [Except.mapError_eq_ok] at htoken
    refine Ends.bind_lift (fun ys hys => ?_) fun x hx => .unclaimed (by simp) (by simp) ?_ rfl
    · have hpoints : TokenPoints r ys := ⟨token, htoken, hys⟩
      refine bind_ask (fun response hresponse => ?_) fun x hx => .unclaimed (by simp) (by simp) ?_ rfl
      · by_cases hspent : response.states ≠ [] ∧ ∀ s ∈ response.states, s.state = spentState
        · rw [if_pos hspent]
          exact Ends.pure (.claimed hpoints ⟨response, hresponse, hspent⟩)
        · rw [if_neg hspent]
          refine Ends.pure (.unclaimed (by simp) (by simp) (fun ys' hpoints' hreports => ?_) rfl)
          obtain rfl := hpoints.unique hpoints'
          obtain ⟨response', hresponse', hspent'⟩ := hreports
          obtain rfl := Except.ok.inj (hresponse.symm.trans hresponse')
          exact hspent hspent'
      · rintro ys' hpoints' ⟨response, hresponse, -⟩
        obtain rfl := hpoints.unique hpoints'
        cases hx.symm.trans hresponse
    · rintro ys ⟨token', htoken', hys⟩ -
      obtain rfl := Except.ok.inj (htoken.symm.trans htoken')
      cases hx.symm.trans hys
  · rintro ys ⟨token, htoken, -⟩ -
    rw [htoken] at hx
    cases hx

theorem reclaimFailed_ends {inputs : List Proof} {net : UInt64} {w : WalletWorld} (hr : e.pending[index]? = some r)
    (hterms : ReclaimTerms env e r inputs net)
    (hfails : ∀ derived fresh, ¬ Arrives env e inputs (decomposeAmount net) derived fresh) :
    (reclaimFailed index r).Ends env (e.after w) (ReclaimEnds env e index r) := by
  refine Ends.bind_attempt probePending_ends (fun status t h => ?_) (fun x t h => ?_) fun t h => ?_
  · rcases h with ⟨hpoints, hreported⟩ | ⟨-, hopen, hunreported, hbooks⟩
    · rw [if_pos (by rfl)]
      exact Ends.bind_run (finalizeClaimed_run hr) (Ends.fail (.claimed hterms hfails hpoints hreported rfl rfl))
    · have hother : status ≠ .claimed := fun h => hopen (congrArg Outcome.ok h)
      rw [if_neg (show (Except.ok status : Except CashuError _).toOption ≠ some .claimed from fun h =>
        hother (Option.some.inj h))]
      exact Ends.fail (.kept hterms hfails hunreported hbooks)
  · rcases h with - | ⟨-, -, hunreported, hbooks⟩
    exact Ends.fail (.kept hterms hfails hunreported hbooks)
  · rcases h with - | ⟨hreturns, -⟩
    exact absurd rfl hreturns

/-- From a swap that has arrived on. -/
theorem reclaimed_ends {inputs fresh : List Proof} {derived : List DerivedOutput} {net : UInt64} (he : e.books.Matched)
    (hr : e.pending[index]? = some r) (hterms : ReclaimTerms env e r inputs net)
    (harrives : Arrives env e inputs (decomposeAmount net) derived fresh) :
    (verifyNewProofs (e.proofs.map Proof.secret) >>= fun _ =>
      modify (fun t => { t.setStatus r.historyIdx .reclaimed with pending := t.pending.filter (· ≠ r) }) >>= fun _ =>
      record .receive net "ecash reclaimed" >>= fun _ => pure net : EngineM UInt64).Ends env
        (e.swapped inputs (decomposeAmount net) derived fresh) (ReclaimEnds env e index r) := by
  have hverified : ∀ p ∈ e.proofs ++ fresh, p.secret ∉ e.proofs.map Proof.secret → Verified e.keys p := by
    intro p hp hnew
    refine (List.mem_append.1 hp).elim (fun hold => absurd (List.mem_map_of_mem hold) hnew) fun hfresh => ?_
    exact harrives.lands.verified p hfresh
  refine Ends.bind_run (verifyNewProofs_run hverified) (Ends.bind_modify (bind_record (Ends.pure ?_)))
  refine .reclaimed hterms harrives rfl ?_
  rw [show (e.books.settle index r .reclaimed).pending = e.books.pending.eraseIdx index from rfl, ← he.filter_ne hr]
  rfl

theorem reclaimPending_ends (he : e.books.Matched) (hr : e.pending[index]? = some r) :
    (reclaimPending index).Ends env e (ReclaimEnds env e index r) := by
  by_cases hconnected : e.keysetId = ""
  · exact bind_ensureConnected (fun h => absurd hconnected h) fun x => .refused rfl fun _ _ h => h.connected hconnected
  · refine Ends.bind_run (ensureConnected_run hconnected) (Ends.bind_get ?_)
    refine Ends.bind_okOr (fun r' hr' => ?_) fun hnone => absurd (hr.symm.trans hnone) (by simp)
    obtain rfl := Option.some.inj (hr.symm.trans hr')
    refine Ends.bind_lift (fun token htoken => ?_) fun x hx => .refused rfl ?_
    · rw [Except.mapError_eq_ok] at htoken
      refine Ends.bind_lift (fun inputs hinputs => ?_) fun x hx => .refused rfl ?_
      · refine (sumAmounts_computes inputs 0).bind_ends (fun total htotal => ?_) (.panicked rfl)
        refine Ends.bind_run knownSecrets_run ((inputFee_computes _).bind_ends (fun fee hfee => ?_) (.panicked rfl))
        refine Ends.bind_okOr (fun net hnet => ?_) fun hnone => .refused rfl ?_
        · have hterms : ReclaimTerms env e r inputs net :=
            ⟨hconnected, ⟨token, htoken, hinputs⟩, total, fee, htotal, hfee, hnet⟩
          refine bind_attemptArrives (fun derived fresh harrives => ?_) (fun x w hfails => ?_) fun w => .panicked rfl
          · exact reclaimed_ends he hr hterms harrives
          · exact reclaimFailed_ends hr hterms hfails
        · rintro inputs' net ⟨-, ⟨token', htoken', hinputs'⟩, total', fee', htotal', hfee', hnet⟩
          obtain rfl := Except.ok.inj (htoken.symm.trans htoken')
          obtain rfl := Except.ok.inj (hinputs.symm.trans hinputs')
          obtain rfl : total = total' := by simpa using htotal.symm.trans htotal'
          obtain rfl : fee = fee' := by simpa using hfee.symm.trans hfee'
          exact absurd (hnone.symm.trans hnet) (by simp)
      · rintro inputs net ⟨-, ⟨token', htoken', hinputs⟩, -⟩
        obtain rfl := Except.ok.inj (htoken.symm.trans htoken')
        cases hx.symm.trans hinputs
    · rintro inputs net ⟨-, ⟨token, htoken, -⟩, -⟩
      rw [htoken] at hx
      cases hx

end ends

/-! ### Races -/

/-- Just one of the three. -/
def ExactlyOne (a b c : Prop) : Prop := (a ∨ b ∨ c) ∧ ¬ (a ∧ b) ∧ ¬ (a ∧ c) ∧ ¬ (b ∧ c)

/-- The net value is in the wallet and its store; the record is gone, and its entry is reclaimed. -/
structure Reclaimed (env : EngineEnv) (e t : WalletEngine) (r : PendingSend) (o : Outcome CashuError UInt64) : Prop where
  gone : r ∉ t.pending
  status : t.books.statusAt r.historyIdx = some .reclaimed
  value : ∃ inputs net fresh, ReclaimTerms env e r inputs net ∧ o = .ok net ∧ t.proofs = e.proofs ++ fresh ∧
    proofsValue fresh = net.toNat
  stored : t.world.blob.map Envelope.proofs = some t.proofs

/-- The recipient has redeemed the proofs, and the entry is complete. -/
structure ClaimedBy (redeemed : Nat → PublicKey → Prop) (t : WalletEngine) (r : PendingSend) : Prop where
  redeemed : ∃ ys, TokenPoints r ys ∧ ∀ y ∈ ys, redeemed t.calls y
  status : t.books.statusAt r.historyIdx = some .complete

/-- `redeemed n` are the points that the recipient has redeemed by the call `n`. -/
def ReclaimSafe (env : EngineEnv) (redeemed : Nat → PublicKey → Prop) (e t : WalletEngine) (r : PendingSend)
    (o : Outcome CashuError UInt64) : Prop :=
  ExactlyOne (r ∈ t.pending) (Reclaimed env e t r o) (ClaimedBy redeemed t r)

/-- The swap does not arrive, and the mint says after it that all proofs are spent, though the recipient has not redeemed
them all. -/
structure Misjudged (env : EngineEnv) (redeemed : Nat → PublicKey → Prop) (e : WalletEngine) (r : PendingSend) : Prop where
  lost : ∃ inputs net, ReclaimTerms env e r inputs net ∧
    ∀ derived fresh, ¬ Arrives env e inputs (decomposeAmount net) derived fresh
  reported : ∃ ys, TokenPoints r ys ∧ ReportsSpent env (e.calls + 1) ys ∧ ∃ y ∈ ys, ¬ redeemed (e.calls + 2) y

section races
variable {env : EngineEnv} {redeemed : Nat → PublicKey → Prop} {e t : WalletEngine} {index : Nat} {r : PendingSend}
  {o : Outcome CashuError UInt64}

omit [Curve] in
theorem ReclaimTerms.unique {inputs inputs' : List Proof} {net net' : UInt64} (h : ReclaimTerms env e r inputs net)
    (h' : ReclaimTerms env e r inputs' net') : inputs = inputs' ∧ net = net' := by
  obtain ⟨-, ⟨token, htoken, hinputs⟩, total, fee, htotal, hfee, hnet⟩ := h
  obtain ⟨-, ⟨token', htoken', hinputs'⟩, total', fee', htotal', hfee', hnet'⟩ := h'
  obtain rfl := Except.ok.inj (htoken.symm.trans htoken')
  obtain rfl := Except.ok.inj (hinputs.symm.trans hinputs')
  obtain rfl : total = total' := by simpa using htotal.symm.trans htotal'
  obtain rfl : fee = fee' := by simpa using hfee.symm.trans hfee'
  exact ⟨rfl, Option.some.inj (hnet.symm.trans hnet')⟩

omit [Curve] in
/-- No two of the three hold together. -/
theorem reclaimSafe_of (ht : t.books.Matched) (h : r ∈ t.pending ∨ Reclaimed env e t r o ∨ ClaimedBy redeemed t r) :
    ReclaimSafe env redeemed e t r o := by
  refine ⟨h, fun ⟨hmem, hreclaimed⟩ => hreclaimed.gone hmem, fun ⟨hmem, hclaimed⟩ => ?_, fun ⟨hreclaimed, hclaimed⟩ => ?_⟩
  · exact absurd ((ht.statusAt hmem).symm.trans hclaimed.status) (by decide)
  · exact absurd (hreclaimed.status.symm.trans hclaimed.status) (by decide)

theorem ReclaimEnds.safe_iff (h : ReclaimEnds env e index r o t) (he : e.books.Matched) (ht : t.books.Matched)
    (hr : e.pending[index]? = some r) (hreturns : o ≠ .panic) :
    ReclaimSafe env redeemed e t r o ↔ ¬ Misjudged env redeemed e r := by
  have hmem : r ∈ e.books.pending := List.mem_of_getElem? hr
  have hstays : t.books = e.books → ReclaimSafe env redeemed e t r o := fun hbooks =>
    reclaimSafe_of ht (.inl (show r ∈ t.books.pending by rw [hbooks]; exact hmem))
  cases h with
  | panicked => exact absurd rfl hreturns
  | refused hbooks hfails =>
    refine iff_of_true (hstays hbooks) ?_
    rintro ⟨⟨inputs, net, hterms, -⟩, -⟩
    exact hfails inputs net hterms
  | @reclaimed inputs net derived fresh t hterms harrives hworld hbooks =>
    refine iff_of_true (reclaimSafe_of ht (.inr (.inl ?_))) ?_
    · refine ⟨?_, ?_, ⟨inputs, net, fresh, hterms, rfl, congrArg (·.wallet.proofs) hworld, ?_⟩, ?_⟩
      · rw [show t.pending = t.books.pending from rfl, hbooks]
        exact he.gone hr
      · rw [hbooks, Books.statusAt_append]
        · exact he.settle_statusAt hr
        · rw [Books.settle, List.length_modify]
          exact he.lt hmem
      · rw [harrives.lands.value, (decomposeAmount_binary net).sum]
      · rw [proofs, hworld]
        rfl
    · rintro ⟨⟨inputs', net', hterms', hlost⟩, -⟩
      obtain ⟨rfl, rfl⟩ := hterms.unique hterms'
      exact hlost derived fresh harrives
  | kept hterms hfails hunreported hbooks =>
    refine iff_of_true (hstays hbooks) ?_
    rintro ⟨-, ys, hpoints, hreported, -⟩
    exact hunreported ys hpoints hreported
  | @claimed inputs net ys x t hterms hfails hpoints hreported hcalls hbooks =>
    have hgone : r ∉ t.pending := by
      rw [show t.pending = t.books.pending from rfl, hbooks]
      exact he.gone hr
    have hstatus : t.books.statusAt r.historyIdx = some .complete := by rw [hbooks]; exact he.settle_statusAt hr
    constructor
    · rintro ⟨hmem | hreclaimed | ⟨⟨ys', hpoints', hall⟩, -⟩, -⟩ ⟨-, ys'', hpoints'', -, y, hy, hnot⟩
      · exact hgone hmem
      · exact absurd (hreclaimed.status.symm.trans hstatus) (by decide)
      · obtain rfl := hpoints'.unique hpoints''
        exact hnot (hcalls ▸ hall y hy)
    · intro hnot
      refine reclaimSafe_of ht (.inr (.inr ⟨⟨ys, hpoints, fun y hy => ?_⟩, hstatus⟩))
      by_contra hredeemed
      exact hnot ⟨⟨inputs, net, hterms, hfails⟩, ys, hpoints, hreported, y, hy, hcalls ▸ hredeemed⟩

omit [Curve] [Minicbor] [TokenCrates] in
theorem spent_of_reported {spent : PublicKey → Prop} {ys : List PublicKey} {states : List ProofState}
    (h : List.Forall₂ (fun y s => s.y = y ∧ (s.state = spentState ↔ spent y)) ys states)
    (hall : ∀ s ∈ states, s.state = spentState) {y : PublicKey} (hy : y ∈ ys) : spent y := by
  induction h with
  | nil => cases hy
  | cons hs _ ih =>
    rw [List.forall_mem_cons] at hall
    rcases List.mem_cons.1 hy with rfl | hy
    · exact hs.2.1 hall.1
    · exact ih hall.2 hy

/-- A mint that answers truthfully says so because somebody else than the recipient has spent a proof: the wallet, which is
the only other one to know it. -/
theorem Misjudged.own {own : Nat → PublicKey → Prop} (h : Misjudged env redeemed e r)
    (htruthful : TruthfulStates env fun n y => redeemed n y ∨ own n y) (hlasts : ∀ n y, redeemed n y → redeemed (n + 1) y) :
    ∃ ys, TokenPoints r ys ∧ ∃ y ∈ ys, own (e.calls + 1) y := by
  obtain ⟨ys, hpoints, ⟨response, hresponse, -, hall⟩, y, hy, hnot⟩ := h.reported
  refine ⟨ys, hpoints, y, hy, ?_⟩
  exact (spent_of_reported (htruthful _ _ _ hresponse) hall hy).resolve_left fun h => hnot (hlasts _ _ h)

variable [Bip340] [IdentityCrates] [MinicborCodec]

/-- In every run from an engine with no send in flight, a reclaim that returns is safe just when a swap that does not arrive
is not taken for a redemption by the recipient. -/
theorem reclaim_safe_iff {e₀ : WalletEngine} {h : List (Step WalletEngine EngineCall)} (hstart : e₀.NoPendingSends)
    (hrun : Run EngineStep e₀ h e) (hr : e.pending[index]? = some r) (hcall : (reclaimPending index).run env e = (o, t))
    (hreturns : o ≠ .panic) : ReclaimSafe env redeemed e t r o ↔ ¬ Misjudged env redeemed e r := by
  have he : e.books.Matched :=
    Run.invariant_state (G := fun _ => True) (I := fun e : WalletEngine => e.books.Matched) hstart.matched
      (fun _ _ _ _ he hstep => hstep.matched he) hrun fun _ _ => trivial
  have ht : t.books.Matched := he.changes ((reclaimPending_changes index env e he).elim hcall)
  exact ((reclaimPending_ends he hr).elim hcall).safe_iff he ht hr hreturns

end races

end reclaim

end WalletEngine

end

section toy
open Toy32 ToyCbor ToyEngine ToyBooks WalletEngine

namespace ToyEngine

/-- The mint takes the inputs of the swap at the call `n`, but its answer is lost. -/
def answerLost (n : Nat) : EngineEnv where
  wallet _ := { mint with postSwap := fun _ => .error (.transport "timed out") }
  checkState k r := .ok ⟨r.ys.map fun y => ⟨y, if n < k then spentState else "UNSPENT", none⟩⟩
  postMeltQuote _ _ := .ok (quote 4 0)
  now _ := 1700000000
  overflowChecks := true
  sameBuild _ := rfl

theorem answerLost_truthful (n : Nat) : TruthfulStates (answerLost n) fun k _ => n < k := by
  rintro k ⟨ys⟩ response ⟨⟩
  refine List.forall₂_map_right_iff.2 (List.forall₂_same.2 fun y _ => ⟨rfl, ?_⟩)
  by_cases h : n < k
  · exact iff_of_true (if_pos h) h
  · refine iff_of_false (fun hspent => ?_) h
    rw [if_neg h] at hspent
    exact absurd hspent (show "UNSPENT" ≠ spentState by decide)

/-- The reclaim has failed, the record is dropped, and all entries are complete. -/
def dropsRecord : Outcome CashuError UInt64 × WalletEngine → Bool
  | (.err _, t) => t.pending = [] && t.history.map HistoryEntry.status = [.complete]
  | (.ok _, _) | (.panic, _) => false

/-- A reclaim of this record takes the coins back, and another one whose answer is lost drops the record. -/
def reclaims (e : WalletEngine) (r : PendingSend) : Bool :=
  (decodeTokenAny r.token).toOption.elim false (fun token => token.proofs ≠ []) &&
    ((reclaimPending 0).run online e).1.isOk && dropsRecord ((reclaimPending 0).run (answerLost e.calls) e)

theorem afterSend_reclaims : (afterSend.pending[0]?).elim false (reclaims afterSend) = true := by decide +kernel

theorem exists_reclaims : ∃ r, afterSend.pending[0]? = some r ∧ reclaims afterSend r = true := by
  have hreclaims := afterSend_reclaims
  rcases hr : afterSend.pending[0]? with - | r
  · rw [hr] at hreclaims
    cases hreclaims
  · rw [hr] at hreclaims
    exact ⟨r, rfl, hreclaims⟩

end ToyEngine

theorem reclaim_safe_toy : ∃ r o t, afterSend.pending[0]? = some r ∧ (reclaimPending 0).run online afterSend = (o, t) ∧
    o.isOk = true ∧ ∀ redeemed, ReclaimSafe online redeemed afterSend t r o ↔ ¬ Misjudged online redeemed afterSend r := by
  obtain ⟨r, hr, hreclaims⟩ := exists_reclaims
  rw [reclaims, Bool.and_eq_true, Bool.and_eq_true] at hreclaims
  rcases hcall : (reclaimPending 0).run online afterSend with ⟨o, t⟩
  rw [hcall] at hreclaims
  refine ⟨r, o, t, hr, rfl, hreclaims.1.2, fun redeemed => ?_⟩
  refine reclaim_safe_iff ⟨rfl, fun _ h => by cases h⟩ (Run.nil.snoc send_step) hr hcall ?_
  rintro rfl
  cases hreclaims.1.2

/-- The wallet has spent the coins itself, and the entry says that the recipient has. -/
theorem reclaim_blames_recipient : EngineStep purse ⟨online, .send 4 none⟩ afterSend ∧
    TruthfulStates (answerLost afterSend.calls) (fun k _ => afterSend.calls < k) ∧
    ∃ r x t, afterSend.pending[0]? = some r ∧
      (reclaimPending 0).run (answerLost afterSend.calls) afterSend = (.err x, t) ∧
      ¬ ReclaimSafe (answerLost afterSend.calls) (fun _ _ => False) afterSend t r (.err x) := by
  refine ⟨send_step, answerLost_truthful _, ?_⟩
  obtain ⟨r, hr, hreclaims⟩ := exists_reclaims
  rw [reclaims, Bool.and_eq_true, Bool.and_eq_true] at hreclaims
  obtain ⟨⟨hproofs, -⟩, hdrops⟩ := hreclaims
  rcases hcall : (reclaimPending 0).run (answerLost afterSend.calls) afterSend with ⟨net | x | -, t⟩
  · rw [hcall] at hdrops
    cases hdrops
  · rw [hcall, dropsRecord, Bool.and_eq_true, decide_eq_true_eq, decide_eq_true_eq] at hdrops
    obtain ⟨hpending, hhistory⟩ := hdrops
    refine ⟨r, x, t, hr, rfl, ?_⟩
    rintro ⟨hmem | ⟨-, hstatus, -⟩ | ⟨⟨ys, ⟨token, htoken, hys⟩, hnone⟩, -⟩, -⟩
    · rw [hpending] at hmem
      cases hmem
    · rw [Books.statusAt, ← List.getElem?_map, show t.books.history = t.history from rfl, hhistory] at hstatus
      have hmem := List.mem_of_getElem? hstatus
      cases List.mem_singleton.1 hmem
    · obtain rfl : ys = [] := List.eq_nil_iff_forall_not_mem.2 hnone
      rw [htoken] at hproofs
      have hne : token.proofs ≠ [] := of_decide_eq_true hproofs
      exact hne (List.forall₂_nil_right_iff.1 (Except.mapM_eq_ok.1 hys))
  · rw [hcall] at hdrops
    cases hdrops

end toy

end Micronuts
