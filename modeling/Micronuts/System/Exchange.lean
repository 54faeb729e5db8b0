import Micronuts.Mint.Restore
import Micronuts.System.Recovery
import Micronuts.Wallet.Denominations
import Micronuts.Wallet.Selection

/-!
# What an honest mint answers is credited

A wallet can ask for outputs when it can derive them (`Ready`). Where the transport hands over nothing but answers of the
mint, a mint or a swap that gets one credits a coin for each of its outputs (`IssueHonoured`): what the mint has signed is
never refused, and the coins are worth what was asked for.
-/

namespace Micronuts
open WalletM Exec

section
variable [Crypto] [Curve]

def WalletRequest.call : WalletRequest → Call
  | .mint q => .postMint q
  | .swap q => .postSwap q
  | .melt q => .postMelt q
  | .restore q => .postRestore q

/-- What comes back for a request, as an answer of the mint. -/
def WalletEnv.answer (env : WalletEnv) : WalletRequest → Except CashuError Response
  | .mint q => (env.postMint q).map .minted
  | .swap q => (env.postSwap q).map .swapped
  | .melt q => (env.postMelt q).map .melted
  | .restore q => (env.postRestore q).map .restored

/-- Only truthful answers come back. -/
def Honest (env : WalletEnv) (ks : DemoKeyset) : Prop := ∀ r resp, env.answer r = .ok resp → AnswersTruly ks r.call resp

/-- An answer that comes back is the one that the mint gives to the request. -/
def Serves (menv : Env) (m : World) (env : WalletEnv) : Prop :=
  ∀ r resp, env.answer r = .ok resp → ((exec r.call).run menv m.begin).1 = .ok resp

variable {env : WalletEnv} {w : WalletWorld} {keysetId : String} {ks : DemoKeyset} {amounts : List UInt64}

omit [Curve] in
theorem Serves.honest {menv : Env} {h : History} {m : World} {store : Bool} (hserves : Serves menv m env)
    (hrun : Run DurableStep (World.init ks store) h m) : Honest env ks := by
  intro r resp hanswer
  have hbegin : SignsTruly ks m.begin := (signsTruly_of_run hrun).1.of_eq rfl rfl rfl
  exact ((upholds_exec r.call).elim hbegin Prod.mk.eta.symm).2 resp (hserves r resp hanswer)

/-! ### Outputs that can be derived -/

theorem Derives.own {seed : List UInt8} {c : UInt32} {derived : List DerivedOutput} (h : Derives seed keysetId c derived) :
    ∀ d ∈ derived, d.Blinds ∧ Secret.parse d.secretHex = none := by
  intro d hd
  induction derived generalizing c with
  | nil => cases hd
  | cons d' derived ih =>
    rcases List.mem_cons.1 hd with rfl | hd
    · exact ⟨deriveOutput_blinds h.1, deriveOutput_ordinary h.1⟩
    · exact ih h.2 hd

/-- The index of every output can be computed. -/
def Fits (env : WalletEnv) (counter i : UInt32) (n : Nat) : Prop :=
  env.overflowChecks = true → ∀ j < n, counter.toNat + (i + UInt32.ofNat j).toNat < 2 ^ 32

omit [Curve] in
theorem fits_succ {c i : UInt32} {n : Nat} : Fits env c i (n + 1) ↔
    (env.overflowChecks = true → c.toNat + i.toNat < 2 ^ 32) ∧ Fits env c (i + 1) n := by
  have hnext : ∀ j, i + UInt32.ofNat (j + 1) = i + 1 + UInt32.ofNat j := by
    intro j
    rw [UInt32.ofNat_add, UInt32.add_comm (UInt32.ofNat j), UInt32.add_assoc]
    rfl
  have hzero : i + UInt32.ofNat 0 = i := UInt32.add_zero i
  constructor
  · intro h
    refine ⟨fun ho => ?_, fun ho j hj => ?_⟩
    · have hfirst := h ho 0 (Nat.succ_pos n)
      rwa [hzero] at hfirst
    · rw [← hnext]
      exact h ho (j + 1) (by omega)
  · rintro ⟨hfirst, hrest⟩ ho j hj
    cases j with
    | zero => rw [hzero]; exact hfirst ho
    | succ j => rw [hnext]; exact hrest ho j (by omega)

/-- What the loop over the amounts comes to, from index `i` on. -/
inductive OutputsFrom (env : WalletEnv) (w : WalletWorld) (keysetId : String) (i : UInt32) (amounts : List UInt64) :
    Outcome CashuError (List BlindedMessage × List PendingOutput) → WalletWorld → Prop
  | derived {derived} (fits : Fits env w.wallet.counter i amounts.length) (length : derived.length = amounts.length)
      (derives : Derives w.wallet.seed keysetId (w.wallet.counter + i) derived) :
      OutputsFrom env w keysetId i amounts (.ok (messagesOf keysetId amounts derived, pendingOf amounts derived)) w
  | stopped {o} (stopped : o.isOk = false) (never : Fits env w.wallet.counter i amounts.length →
        ∀ derived, derived.length = amounts.length → ¬ Derives w.wallet.seed keysetId (w.wallet.counter + i) derived) :
      OutputsFrom env w keysetId i amounts o w

/-- The rest of the loop decides when the first output is derived. -/
theorem OutputsFrom.cons_stopped {i : UInt32} {amount : UInt64} {t : WalletWorld}
    {o o' : Outcome CashuError (List BlindedMessage × List PendingOutput)}
    (h : OutputsFrom env w keysetId (i + 1) amounts o t) (ho : o.isOk = false) (ho' : o'.isOk = false) :
    OutputsFrom env w keysetId i (amount :: amounts) o' t := by
  rcases h with - | ⟨-, never⟩
  · cases ho
  · refine .stopped ho' fun hfits derived hlen hderives => ?_
    obtain ⟨d, derived, rfl⟩ := List.exists_cons_of_length_eq_add_one hlen
    have hnext := hderives.2
    rw [UInt32.add_assoc] at hnext
    exact never (fits_succ.1 hfits).2 derived (Nat.succ.inj hlen) hnext

theorem outputsFrom_ends (keysetId : String) (i : UInt32) (amounts : List UInt64) :
    (deterministicOutputsFrom keysetId i amounts).Ends env w (OutputsFrom env w keysetId i amounts) := by
  induction amounts generalizing i with
  | nil => exact @OutputsFrom.derived _ _ env w keysetId i [] [] (by simp [Fits]) rfl trivial
  | cons amount amounts ih =>
    refine bind_wallet ?_
    by_cases hsum : env.overflowChecks ∧ 2 ^ 32 ≤ w.wallet.counter.toNat + i.toNat
    · have hrun : (addU32 w.wallet.counter i).run env w = (.panic, w) := if_pos hsum
      refine Ends.of_run (run_bind_of_panic hrun) (.stopped rfl fun hfits => ?_)
      have := (fits_succ.1 hfits).1 hsum.1
      omega
    · have hrun : (addU32 w.wallet.counter i).run env w = (.ok (w.wallet.counter + i), w) := if_neg hsum
      have hfirst : env.overflowChecks = true → w.wallet.counter.toNat + i.toNat < 2 ^ 32 := by simpa using hsum
      refine Ends.bind_run hrun (Ends.bind_lift (fun d hd => ?_) fun e he => ?_)
      · refine Ends.bind (ih (i + 1)) (fun r t hr => ?_) (fun e t h => h.cons_stopped rfl rfl) fun t h =>
          h.cons_stopped rfl rfl
        rcases hr with ⟨hfits, hlen, hderives⟩ | ⟨hstopped, -⟩
        · rw [← UInt32.add_assoc] at hderives
          exact @OutputsFrom.derived _ _ env w keysetId i (amount :: amounts) (d :: _) (fits_succ.2 ⟨hfirst, hfits⟩)
            (congrArg Nat.succ hlen) ⟨hd, hderives⟩
        · cases hstopped
      · refine .stopped rfl fun _ derived hlen hderives => ?_
        obtain ⟨d, derived, rfl⟩ := List.exists_cons_of_length_eq_add_one hlen
        rw [hderives.1] at he
        cases he

/-- The wallet can ask for outputs of these amounts. -/
def Ready (env : WalletEnv) (w : WalletWorld) (keysetId : String) (amounts : List UInt64) : Prop :=
  amounts ≠ [] ∧ Fits env w.wallet.counter 0 amounts.length ∧
    ∃ derived, derived.length = amounts.length ∧ Derives w.wallet.seed keysetId w.wallet.counter derived

/-- A coin that verifies, is genuine and carries no lock. It may be spent. -/
def Honoured (ks : DemoKeyset) (p : Proof) : Prop :=
  Verified ks.toPublicKeyset p ∧ Genuine ks p ∧ inputLock p = .ok none

/-! ### How a call ends -/

/-- A call for outputs of these amounts asks the mint if it can; an error of the mint is its error, and an answer is
credited. -/
inductive IssueHonoured {α : Type} (env : WalletEnv) (ks : DemoKeyset) (amounts : List UInt64) (w : WalletWorld)
    (value : α → List Proof → Prop) : Outcome CashuError α → WalletWorld → Prop
  | refused {o} (unready : ¬ Ready env w ks.id amounts) (stopped : o.isOk = false) : IssueHonoured env ks amounts w value o w
  | rejected {r e derived} (sends : Sends w ks.id amounts r derived) (answer : env.answer r = .error e) :
      IssueHonoured env ks amounts w value (.err e) (w.request r derived.length)
  | credited {o t r resp derived new} (sends : Sends w ks.id amounts r derived) (answer : env.answer r = .ok resp)
      (coins : List.Forall₂ (fun x p => CoinOf ks.toPublicKeyset x.1 x.2 p) (derived.zip resp.signatures) new)
      (values : new.map Proof.amount = amounts) (honoured : ∀ p ∈ new, Honoured ks p)
      (returned : ∀ a, o = .ok a → value a new)
      (saves : Saves env ((w.request r derived.length).withProofs (w.wallet.proofs ++ new)) o t) :
      IssueHonoured env ks amounts w value o t

section issue
variable {α ρ : Type} {value : α → List Proof → Prop}

theorem bind_ready {k : List BlindedMessage × List PendingOutput → WalletM α}
    (hok : ∀ derived, derived.length = amounts.length → Derives w.wallet.seed ks.id w.wallet.counter derived →
      (k (messagesOf ks.id amounts derived, pendingOf amounts derived)).Ends env w (IssueHonoured env ks amounts w value)) :
    (deterministicOutputs amounts ks.id >>= k).Ends env w (IssueHonoured env ks amounts w value) := by
  have hstop : ∀ {o : Outcome CashuError (List BlindedMessage × List PendingOutput)} {o' : Outcome CashuError α}
      {t : WalletWorld},
      OutputsFrom env w ks.id 0 amounts o t → o.isOk = false → o'.isOk = false →
      IssueHonoured env ks amounts w value o' t := by
    rintro o o' t (- | ⟨-, never⟩) ho ho'
    · cases ho
    · rw [UInt32.add_zero] at never
      refine .refused ?_ ho'
      rintro ⟨-, hfits, derived, hlen, hderives⟩
      exact never hfits derived hlen hderives
  refine Ends.bind (outputsFrom_ends ks.id 0 amounts) (fun r t hr => ?_) (fun e t h => hstop h rfl rfl) fun t h =>
    hstop h rfl rfl
  rcases hr with ⟨-, hlen, hderives⟩ | ⟨hstopped, -⟩
  · rw [UInt32.add_zero] at hderives
    exact hok _ hlen hderives
  · cases hstopped

theorem bind_posted (wrap : ρ → Response) {r : WalletRequest} {derived : List DerivedOutput} {pending : List PendingOutput}
    {answer : WalletEnv → Except CashuError ρ} {k : ρ → WalletM α} (hsends : Sends w ks.id amounts r derived)
    (hcount : pending.length = derived.length) (hanswer : env.answer r = (answer env).map wrap)
    (hok : ∀ response, env.answer r = .ok (wrap response) →
      (k response).Ends env (w.request r derived.length) (IssueHonoured env ks amounts w value)) :
    (advanceCounter pending >>= fun _ => post r answer >>= k).Ends env w (IssueHonoured env ks amounts w value) := by
  have hrejected : ∀ e, env.answer r = .error e →
      IssueHonoured env ks amounts w value (.err e) (w.request r derived.length) :=
    fun e he => .rejected hsends he
  unfold WalletWorld.request at hok hrejected
  rw [← hcount] at hok hrejected
  refine bind_modifyWallet (bind_post (fun response h => hok response ?_) fun e h => hrejected e ?_)
  · rw [hanswer, h]; rfl
  · rw [hanswer, h]; rfl

/-- The coins are verified, credited and saved. -/
theorem bind_credited {a : α} {r : WalletRequest} {resp : Response} {derived : List DerivedOutput} {new : List Proof}
    (hsends : Sends w ks.id amounts r derived) (hanswer : env.answer r = .ok resp)
    (hcoins : List.Forall₂ (fun x p => CoinOf ks.toPublicKeyset x.1 x.2 p) (derived.zip resp.signatures) new)
    (hvalues : new.map Proof.amount = amounts) (hhonoured : ∀ p ∈ new, Honoured ks p) (hvalue : value a new) :
    (Exec.lift (verifyFresh ks.toPublicKeyset new) >>= fun _ => creditProofs new >>= fun _ => persist >>= fun _ =>
      (pure a : WalletM α)).Ends env (w.request r derived.length) (IssueHonoured env ks amounts w value) := by
  have hverify : verifyFresh ks.toPublicKeyset new = .ok () := verifyFresh_eq_ok.2 fun p hp => (hhonoured p hp).1
  rw [hverify]
  refine Ends.bind_run rfl (bind_modifyWallet (((saves_ends a).and (saves_value a)).mono ?_))
  rintro o t ⟨hsaves, hreturned⟩
  refine .credited hsends hanswer hcoins hvalues hhonoured (fun b hb => ?_) hsaves
  rwa [hreturned b hb]

end issue

/-! ### Unblinding genuine signatures -/

theorem CoinOf.ordinary {d : DerivedOutput} {sig : BlindSignature} {p : Proof} (h : CoinOf ks.toPublicKeyset d sig p)
    (hd : Secret.parse d.secretHex = none) : inputLock p = .ok none := by
  obtain ⟨key, c, -, -, rfl⟩ := h
  simp [inputLock, restoredProof, hd]

variable [ScalarArithmetic] [CurveGroup] [SharedDhke]

theorem GenuineOn.honoured {d : DerivedOutput} {sig : BlindSignature} (h : GenuineOn ks d.blinded sig) (hks : ks.Derived)
    (htotal : SignTotal ks) (hd : d.Blinds ∧ Secret.parse d.secretHex = none) :
    ∃ p, CoinOf ks.toPublicKeyset d sig p ∧ Honoured ks p := by
  obtain ⟨p, hcoin, hverified, hgenuine⟩ := h.exists_coin hks htotal hd.1
  exact ⟨p, hcoin, hverified, hgenuine, hcoin.ordinary hd.2⟩

theorem unblindOne_genuine {d : DerivedOutput} {sig : BlindSignature} {amount : UInt64} (hks : ks.Derived)
    (htotal : SignTotal ks) (hd : d.Blinds ∧ Secret.parse d.secretHex = none) (h : GenuineOn ks d.blinded sig)
    (hamount : sig.amount = amount) :
    ∃ p, unblindOne ks.toPublicKeyset ⟨asBytes d.secretHex, d.blinder, amount⟩ sig = .ok p ∧ p.amount = amount ∧
      CoinOf ks.toPublicKeyset d sig p ∧ Honoured ks p := by
  obtain ⟨p, hcoin, hhonoured⟩ := h.honoured hks htotal hd
  refine ⟨p, ?_, ?_, hcoin, hhonoured⟩
  · obtain ⟨key, c, hkey, hc, rfl⟩ := hcoin
    subst hamount
    refine Except.bind_eq_ok.2 ⟨key, Except.okOr_eq_ok.2 hkey, Except.bind_eq_ok.2 ⟨c, Except.okOr_eq_ok.2 hc, ?_⟩⟩
    exact Except.bind_eq_ok.2 ⟨d.secretHex, Except.okOr_eq_ok.2 (fromUtf8_asBytes _), rfl⟩
  · obtain ⟨key, c, -, -, rfl⟩ := hcoin
    exact hamount

/-- Signatures for all outputs of a request unblind, to coins of the amounts that were asked for. -/
theorem unblind_genuine {derived : List DerivedOutput} {sigs : List BlindSignature} (hks : ks.Derived)
    (htotal : SignTotal ks) (hlen : derived.length = amounts.length)
    (hown : ∀ d ∈ derived, d.Blinds ∧ Secret.parse d.secretHex = none)
    (hsigs : List.Forall₂ (GenuineFor ks) (messagesOf keysetId amounts derived) sigs) :
    ∃ proofs, unblindToProofs (pendingOf amounts derived) sigs ks.toPublicKeyset = .ok proofs ∧
      proofs.map Proof.amount = amounts ∧
      List.Forall₂ (fun x p => CoinOf ks.toPublicKeyset x.1 x.2 p) (derived.zip sigs) proofs ∧
      ∀ p ∈ proofs, Honoured ks p := by
  suffices hall : ∃ proofs, ((pendingOf amounts derived).zip sigs).mapM (fun x => unblindOne ks.toPublicKeyset x.1 x.2) =
      .ok proofs ∧ proofs.map Proof.amount = amounts ∧
      List.Forall₂ (fun x p => CoinOf ks.toPublicKeyset x.1 x.2 p) (derived.zip sigs) proofs ∧ ∀ p ∈ proofs, Honoured ks p by
    obtain ⟨proofs, hproofs, hrest⟩ := hall
    have hcount : (pendingOf amounts derived).length = sigs.length := by
      rw [pendingOf_length hlen, ← hsigs.length_eq, messagesOf, List.length_map, List.length_zip, hlen, Nat.min_self]
    exact ⟨proofs, by rw [unblindToProofs, if_neg (not_not.2 hcount)]; exact hproofs, hrest⟩
  induction derived generalizing amounts sigs with
  | nil =>
    obtain rfl : amounts = [] := List.eq_nil_of_length_eq_zero hlen.symm
    cases hsigs
    exact ⟨[], rfl, rfl, .nil, by simp⟩
  | cons d derived ih =>
    obtain ⟨amount, amounts, rfl⟩ := List.exists_cons_of_length_eq_add_one hlen.symm
    obtain ⟨hd, hown⟩ := List.forall_mem_cons.1 hown
    rcases hsigs with - | ⟨⟨hamount, hgenuine⟩, hsigs⟩
    obtain ⟨p, hp, hvalue, hcoin, hhonoured⟩ := unblindOne_genuine hks htotal hd hgenuine hamount
    obtain ⟨proofs, hproofs, hamounts, hcoins, hall⟩ := ih (Nat.succ.inj hlen) hown hsigs
    refine ⟨p :: proofs, ?_,
      by rw [List.map_cons, hvalue, hamounts], .cons hcoin hcoins, List.forall_mem_cons.2 ⟨hhonoured, hall⟩⟩
    rw [Except.mapM_eq_ok] at hproofs ⊢
    exact .cons hp hproofs

/-! ### Mint and swap -/

theorem mintDeterministic_honoured (hhonest : Honest env ks) (hks : ks.Derived) (htotal : SignTotal ks) (quoteId : String)
    (amount : UInt64) : (mintDeterministic quoteId amount ks.id ks.toPublicKeyset).Ends env w
      (IssueHonoured env ks (decomposeAmount amount) w fun minted _ => minted = amount) := by
  refine Ends.bind_failIf (fun _ => bind_ready fun derived hlen hderives => ?_) fun hnil => .refused (fun h => h.1 hnil) rfl
  have hsends : Sends w ks.id (decomposeAmount amount)
      (.mint ⟨quoteId, messagesOf ks.id (decomposeAmount amount) derived, none⟩) derived := ⟨hderives, hlen, rfl⟩
  refine bind_posted .minted hsends (pendingOf_length hlen) rfl fun response hanswer => ?_
  obtain ⟨proofs, hproofs, hvalues, hcoins, hhonoured⟩ := unblind_genuine hks htotal hlen hderives.own (hhonest _ _ hanswer)
  rw [hproofs]
  have hvalue : proofsValue proofs = amount.toNat := by
    have hsum := (decomposeAmount_binary amount).sum
    rwa [← hvalues, List.map_map] at hsum
  have hfits : (0 : UInt64).toNat + proofsValue proofs < 2 ^ 64 := by
    rw [hvalue, UInt64.toNat_zero, Nat.zero_add]
    exact amount.toNat_lt
  obtain ⟨sum, hsum, hminted⟩ := sumAmounts_run (w := w.request _ derived.length) hfits
  refine Ends.bind_run rfl (Ends.bind_run hsum (bind_credited hsends hanswer hcoins hvalues hhonoured ?_))
  rw [← UInt64.toNat_inj, hminted, hvalue, UInt64.toNat_zero, Nat.zero_add]

theorem swapDeterministic_honoured (hhonest : Honest env ks) (hks : ks.Derived) (htotal : SignTotal ks) (inputs : List Proof)
    (newAmounts : List UInt64) : (swapDeterministic inputs newAmounts ks.id ks.toPublicKeyset).Ends env w
      (IssueHonoured env ks newAmounts w fun proofs new => proofs = new) := by
  refine Ends.bind_failIf (fun _ => bind_ready fun derived hlen hderives => ?_) fun hnil => .refused (fun h => h.1 hnil) rfl
  have hsends : Sends w ks.id newAmounts (.swap ⟨inputs, messagesOf ks.id newAmounts derived⟩) derived :=
    ⟨hderives, hlen, rfl⟩
  refine bind_posted .swapped hsends (pendingOf_length hlen) rfl fun response hanswer => ?_
  obtain ⟨proofs, hproofs, hvalues, hcoins, hhonoured⟩ := unblind_genuine hks htotal hlen hderives.own (hhonest _ _ hanswer)
  rw [hproofs]
  exact Ends.bind_run rfl (bind_credited hsends hanswer hcoins hvalues hhonoured rfl)

/-- With a mint that has had any run, and a transport that loses requests and answers at most, a mint or a swap ends with
nothing sent, with the error that came back, or with a coin for every output. -/
theorem exchange_honoured {menv : Env} {store : Bool} {h : History} {m : World}
    (hrun : Run DurableStep (World.init ks store) h m)
    (hks : ks.Derived) (htotal : SignTotal ks) (hserves : Serves menv m env) :
    (∀ quoteId amount, (mintDeterministic quoteId amount ks.id ks.toPublicKeyset).Ends env w
      (IssueHonoured env ks (decomposeAmount amount) w fun minted _ => minted = amount)) ∧
    ∀ inputs newAmounts, (swapDeterministic inputs newAmounts ks.id ks.toPublicKeyset).Ends env w
      (IssueHonoured env ks newAmounts w fun proofs new => proofs = new) :=
  ⟨mintDeterministic_honoured (hserves.honest hrun) hks htotal, swapDeterministic_honoured (hserves.honest hrun) hks htotal⟩

end

section toy

namespace ToySystem

/-- A transport that hands over what the mint answers. -/
def serving (m : World) : WalletEnv where
  postMint q := match ((exec (.postMint q)).run Toy.env m.begin).1 with
    | .ok (.minted r) => .ok r
    | _ => .error .quoteNotFound
  postMelt q := match ((exec (.postMelt q)).run Toy.env m.begin).1 with
    | .ok (.melted r) => .ok r
    | _ => .error .quoteNotFound
  postSwap q := match ((exec (.postSwap q)).run Toy.env m.begin).1 with
    | .ok (.swapped r) => .ok r
    | _ => .error .invalidProof
  postRestore q := .ok (m.mint.postRestore q)
  save _ := .saved
  overflowChecks := true

theorem serving_serves (m : World) : Serves Toy.env m (serving m) := by
  intro r resp h
  cases r with
  | restore q => cases h; rfl
  | mint q =>
    unfold WalletEnv.answer serving at h
    dsimp only at h
    split at h
    · next heq => cases h; exact heq
    · cases h
  | melt q =>
    unfold WalletEnv.answer serving at h
    dsimp only at h
    split at h
    · next heq => cases h; exact heq
    · cases h
  | swap q =>
    unfold WalletEnv.answer serving at h
    dsimp only at h
    split at h
    · next heq => cases h; exact heq
    · cases h

/-- Somebody asks for a quote. -/
def invoicing (amount : UInt64) : Call := .postMintQuote ⟨amount, "sat", none⟩

def invoiced (amount : UInt64) : World := ((exec (invoicing amount)).run Toy.env (World.init keyset true).begin).2

/-- The wallet mints it. -/
def firstMint (amount : UInt64) : Outcome CashuError UInt64 × WalletWorld :=
  (mintDeterministic "0190-q1" amount keyset.id keyset.toPublicKeyset).run (serving (invoiced amount)) fresh

end ToySystem

open ToySystem
/-- Three outputs. -/
theorem exchange_honoured_toy :
    (firstMint 7).1 = .ok 7 ∧ (firstMint 7).2.wallet.proofs.map Proof.amount = [4, 2, 1] ∧
    (mintDeterministic "0190-q1" 7 keyset.id keyset.toPublicKeyset).Ends (serving (invoiced 7)) fresh
      (IssueHonoured (serving (invoiced 7)) keyset (decomposeAmount 7) fresh fun minted _ => minted = 7) := by
  have hinvoicing : CallStep (World.init keyset true) ⟨invoicing 7, Toy.env, _⟩ (invoiced 7) :=
    .of_exec (invoicing 7) Toy.env (by decide +kernel)
  have hrun : Run DurableStep (World.init keyset true) _ (invoiced 7) := Run.nil.snoc (.inl hinvoicing)
  have hall := exchange_honoured (w := fresh) hrun keyset_derived (signTotal keyset) (serving_serves (invoiced 7))
  have hends : (firstMint 7).1 = .ok 7 ∧ (firstMint 7).2.wallet.proofs.map Proof.amount = [4, 2, 1] := by decide +kernel
  exact ⟨hends.1, hends.2, hall.1 "0190-q1" 7⟩

end toy

end Micronuts
