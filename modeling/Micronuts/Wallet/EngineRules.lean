import Micronuts.Wallet.Credits
import Micronuts.Wallet.Engine
import Micronuts.Wallet.Swaps

/-!
# Rules for the methods of the engine

A method of the wallet inside the engine leaves everything of the engine but the wallet alone. Sums and fees that fit in
64 bits are what they are on paper, and over a store that saves, spending, undoing and removing are plain changes of the
wallet.
-/

namespace Micronuts
open WalletM Exec

/-! ### Fees -/

/-- The fee on `n` inputs. -/
def feeFor (ppk : UInt64) (n : Nat) : Nat := (ppk.toNat * n + 999) / 1000

@[simp] theorem feeFor_zero (n : Nat) : feeFor 0 n = 0 := by simp [feeFor]

theorem feeFor_mono {ppk : UInt64} {n n' : Nat} (h : n ≤ n') : feeFor ppk n ≤ feeFor ppk n' :=
  Nat.div_le_div_right (Nat.add_le_add_right (Nat.mul_le_mul_left _ h) _)

section
variable [Crypto]

/-- The mint asks for the same fee. -/
theorem inputFeeTotal_eq {ks : DemoKeyset} {inputs : List Proof} {fee : UInt64} (hlen : inputs.length < 2 ^ 64)
    (h : ks.inputFeeTotal inputs = .ok fee) : fee.toNat = feeFor ks.inputFeePpk inputs.length := by
  obtain ⟨sumPpk, hsum, h⟩ := Except.bind_eq_ok.1 h
  obtain ⟨v, hv, h⟩ := Except.bind_eq_ok.1 h
  cases h
  have hsum := UInt64.checkedMul_eq_some.1 (Except.okOr_eq_ok.1 hsum)
  have hv := UInt64.checkedAdd_eq_some.1 (Except.okOr_eq_ok.1 hv)
  have hnat : (UInt64.ofNat inputs.length).toNat = inputs.length := UInt64.toNat_ofNat_of_lt' hlen
  have h999 : (999 : UInt64).toNat = 999 := rfl
  have h1000 : (1000 : UInt64).toNat = 1000 := rfl
  rw [UInt64.toNat_div, hv, hsum, hnat, h999, h1000, feeFor]

omit [Crypto] in
theorem divCeil_toNat (a : UInt64) : (WalletEngine.divCeil a 1000).toNat = (a.toNat + 999) / 1000 := by
  have hmod : (a % 1000).toNat = a.toNat % 1000 := UInt64.toNat_mod a 1000
  have hdiv : (a / 1000).toNat = a.toNat / 1000 := UInt64.toNat_div a 1000
  have hlt := a.toNat_lt
  rw [WalletEngine.divCeil]
  by_cases h : a % 1000 = 0
  · rw [h, UInt64.toNat_zero] at hmod
    rw [if_pos h, hdiv]
    omega
  · have hpos : a.toNat % 1000 ≠ 0 := by
      rw [← hmod]
      exact fun h0 => h (UInt64.toNat_inj.1 h0)
    rw [if_neg h, UInt64.toNat_add, hdiv]
    have hone : (1 : UInt64).toNat = 1 := rfl
    rw [hone, Nat.mod_eq_of_lt (by omega)]
    omega

theorem wallet_run {env : WalletEnv} {w : WalletWorld} : wallet.run env w = (.ok w.wallet, w) := rfl

/-! ### A store that saves -/

/-- The blob is the wallet's. -/
def WalletWorld.saved (w : WalletWorld) : WalletWorld := { w with blob := some w.wallet.envelope }

@[simp] theorem WalletWorld.saved_wallet (w : WalletWorld) : w.saved.wallet = w.wallet := rfl

@[simp] theorem WalletWorld.saved_sent (w : WalletWorld) : w.saved.sent = w.sent := rfl

@[simp] theorem WalletWorld.withProofs_proofs (w : WalletWorld) (ps : List Proof) : (w.withProofs ps).wallet.proofs = ps :=
  rfl

@[simp] theorem WalletWorld.withProofs_sent (w : WalletWorld) (ps : List Proof) : (w.withProofs ps).sent = w.sent := rfl

@[simp] theorem WalletWorld.request_proofs (w : WalletWorld) (r : WalletRequest) (n : Nat) :
    (w.request r n).wallet.proofs = w.wallet.proofs := rfl

@[simp] theorem WalletWorld.request_sent (w : WalletWorld) (r : WalletRequest) (n : Nat) :
    (w.request r n).sent = r :: w.sent := rfl

theorem Saves.of_saved {α : Type} {env : WalletEnv} {w t : WalletWorld} {o : Outcome CashuError α} (h : Saves env w o t)
    (hsave : ∀ envelope, env.save envelope = .saved) : (∃ a, o = .ok a) ∧ t = w.saved := by
  unfold Saves at h
  rw [hsave] at h
  obtain ⟨ho, ht⟩ := h
  cases o with
  | ok a => exact ⟨⟨a, rfl⟩, ht⟩
  | err e => cases ho
  | panic => cases ho

section stored
variable {env : WalletEnv} {w : WalletWorld} (hsave : ∀ envelope, env.save envelope = .saved)
include hsave

theorem persist_run {α : Type} (a : α) : (persist >>= fun _ => (pure a : WalletM α)).run env w = (.ok a, w.saved) := by
  rw [run_bind]
  simp only [run, persist, hsave]
  rfl

theorem undoSpend_run (ps : List Proof) :
    (undoSpend ps).run env w = (.ok (), (w.withProofs (w.wallet.proofs ++ ps)).saved) :=
  persist_run hsave ()

theorem removeProofs_run (ps : List Proof) :
    (removeProofs ps).run env w = (.ok (), (w.withProofs (w.wallet.proofs.filter (· ∉ ps))).saved) :=
  persist_run hsave ()

/-- The proofs that are left are those that were not selected. -/
theorem spend_run {amount : UInt64} (hfits : proofsValue w.wallet.proofs < 2 ^ 64) (hpos : amount ≠ 0)
    (hle : amount.toNat ≤ proofsValue w.wallet.proofs) :
    (spend amount).run env w = (.ok (selection amount w.wallet.proofs),
      (w.withProofs (w.wallet.proofs.filter (· ∉ selection amount w.wallet.proofs))).saved) := by
  have hends := @spend_ends _ env w amount hfits
  rcases hrun : (spend amount).run env w with ⟨o, t⟩
  rcases hends.elim hrun with ⟨⟨rfl, -⟩ | ⟨-, hshort, -⟩⟩ | ⟨-, -, hvalue, hsaves⟩
  · exact absurd rfl hpos
  · omega
  · obtain ⟨⟨ps, rfl⟩, rfl⟩ := hsaves.of_saved hsave
    rw [hvalue ps rfl]

end stored

/-- Every save of the engine's wallet goes through. -/
def StoreSaves (env : EngineEnv) : Prop := ∀ n envelope, (env.wallet n).save envelope = .saved

/-! ### Calls out of the engine -/

namespace WalletEngine

@[simp] theorem after_world (e : WalletEngine) (w : WalletWorld) : (e.after w).world = w := rfl

@[simp] theorem after_proofs (e : WalletEngine) (w : WalletWorld) : (e.after w).proofs = w.wallet.proofs := rfl

@[simp] theorem after_keysetId (e : WalletEngine) (w : WalletWorld) : (e.after w).keysetId = e.keysetId := rfl

@[simp] theorem after_keys (e : WalletEngine) (w : WalletWorld) : (e.after w).keys = e.keys := rfl

@[simp] theorem after_feePpk (e : WalletEngine) (w : WalletWorld) : (e.after w).feePpk = e.feePpk := rfl

@[simp] theorem after_history (e : WalletEngine) (w : WalletWorld) : (e.after w).history = e.history := rfl

@[simp] theorem after_pending (e : WalletEngine) (w : WalletWorld) : (e.after w).pending = e.pending := rfl

@[simp] theorem after_calls (e : WalletEngine) (w : WalletWorld) : (e.after w).calls = e.calls + 1 := rfl

section rules
variable {α β : Type} {env : EngineEnv} {e : WalletEngine} {Q : Outcome CashuError β → WalletEngine → Prop}

theorem callWallet_run {m : WalletM α} {o : Outcome CashuError α} {w : WalletWorld}
    (h : m.run (env.wallet e.calls) e.world = (o, w)) : (callWallet m).run env e = (o, e.after w) := by
  simp only [run] at h
  simp only [run, callWallet, zoom, h]

theorem callWallet_elim {m : WalletM α} {P : Outcome CashuError α → WalletWorld → Prop} {o : Outcome CashuError α}
    {t : WalletEngine} (h : m.Ends (env.wallet e.calls) e.world P) (hrun : (callWallet m).run env e = (o, t)) :
    ∃ w, P o w ∧ t = e.after w :=
  (Ends.zoom h).elim hrun

theorem bind_callWallet {m : WalletM α} {k : α → EngineM β} {P : Outcome CashuError α → WalletWorld → Prop}
    (h : m.Ends (env.wallet e.calls) e.world P) (hok : ∀ a w, P (.ok a) w → (k a).Ends env (e.after w) Q)
    (herr : ∀ x w, P (.err x) w → Q (.err x) (e.after w)) (hpanic : ∀ w, P .panic w → Q .panic (e.after w)) :
    (callWallet m >>= k).Ends env e Q := by
  refine Ends.bind (Ends.zoom h) ?_ ?_ ?_
  · rintro a t ⟨w, hP, rfl⟩; exact hok a w hP
  · rintro x t ⟨w, hP, rfl⟩; exact herr x w hP
  · rintro t ⟨w, hP, rfl⟩; exact hpanic w hP

theorem bind_attemptWallet {m : WalletM α} {k : Except CashuError α → EngineM β}
    {P : Outcome CashuError α → WalletWorld → Prop} (h : m.Ends (env.wallet e.calls) e.world P)
    (hok : ∀ a w, P (.ok a) w → (k (.ok a)).Ends env (e.after w) Q)
    (herr : ∀ x w, P (.err x) w → (k (.error x)).Ends env (e.after w) Q)
    (hpanic : ∀ w, P .panic w → Q .panic (e.after w)) : (attempt (callWallet m) >>= k).Ends env e Q := by
  refine Ends.bind_attempt (Ends.zoom h) ?_ ?_ ?_
  · rintro a t ⟨w, hP, rfl⟩; exact hok a w hP
  · rintro x t ⟨w, hP, rfl⟩; exact herr x w hP
  · rintro t ⟨w, hP, rfl⟩; exact hpanic w hP

theorem bind_ask {answer : EngineEnv → Nat → Except CashuError α} {k : α → EngineM β}
    (hok : ∀ response, answer env e.calls = .ok response → (k response).Ends env (e.after e.world) Q)
    (herr : ∀ x, answer env e.calls = .error x → Q (.err x) (e.after e.world)) : (ask answer >>= k).Ends env e Q := by
  unfold Ends
  rw [run_bind]
  simp only [run, ask]
  rcases h : answer env e.calls with x | response
  · exact herr x h
  · exact hok response h

theorem bind_record {kind : HistoryKind} {amount : UInt64} {detail : String} {k : Unit → EngineM β}
    (h : (k ()).Ends env { e with history := e.history ++ [⟨kind, amount, detail, env.now e.calls, .complete⟩] } Q) :
    (record kind amount detail >>= k).Ends env e Q := h

theorem ensureConnected_run (h : e.keysetId ≠ "") : ensureConnected.run env e = (.ok (), e) := by
  show failIf (e.keysetId = "") (CashuError.protocol "not connected — call connect() first") env e = _
  rw [failIf, if_neg h]

theorem bind_ensureConnected {k : Unit → EngineM β} (h : e.keysetId ≠ "" → (k ()).Ends env e Q)
    (hnot : ∀ err, Q (.err err) e) : (ensureConnected >>= k).Ends env e Q :=
  Ends.bind_failIf h fun _ => hnot _

theorem ask_run {α : Type} {answer : EngineEnv → Nat → Except CashuError α} {response : α}
    (h : answer env e.calls = .ok response) : (ask answer).run env e = (.ok response, e.after e.world) := by
  simp only [run, ask, h]
  rfl

theorem attempt_run_ok {m : EngineM α} {a : α} {t : WalletEngine} (h : m.run env e = (.ok a, t)) :
    (attempt m).run env e = (.ok (.ok a), t) := by
  simp only [run] at h
  simp only [run, attempt, h]

theorem attempt_run_err {m : EngineM α} {x : CashuError} {t : WalletEngine} (h : m.run env e = (.err x, t)) :
    (attempt m).run env e = (.ok (.error x), t) := by
  simp only [run] at h
  simp only [run, attempt, h]

/-! ### Arithmetic -/

/-- The method computes: it changes nothing, and no error comes of it. -/
def Computes {α : Type} (m : EngineM α) : Prop := ∀ env e, m.Ends env e fun o t => t = e ∧ ∀ x, o ≠ .err x

namespace Computes
variable {m : EngineM α} {f : α → EngineM β}

theorem pure (a : α) : Computes (Pure.pure a : EngineM α) := fun _ _ => ⟨rfl, by simp⟩

theorem get : Computes Exec.get := fun _ _ => ⟨rfl, fun _ h => by cases h⟩

theorem bind_ends (hm : Computes m) (hok : ∀ a, m.run env e = (.ok a, e) → (f a).Ends env e Q) (hpanic : Q .panic e) :
    (m >>= f).Ends env e Q := by
  refine Ends.bind (Ends.self.and (hm env e)) ?_ ?_ ?_
  · rintro a t ⟨hrun, rfl, -⟩
    exact hok a hrun
  · rintro x t ⟨-, -, hnone⟩
    exact absurd rfl (hnone x)
  · rintro t ⟨-, rfl, -⟩
    exact hpanic

theorem bind (hm : Computes m) (hf : ∀ a, Computes (f a)) : Computes (m >>= f) :=
  fun env e => hm.bind_ends (fun a _ => hf a env e) ⟨rfl, by simp⟩

theorem leaves {τ : Type} {view : WalletEngine → τ} (hm : Computes m) : Leaves view m :=
  fun env e => congrArg view (hm env e).1

end Computes

theorem addU64_computes (a b : UInt64) : Computes (addU64 a b) := by
  intro env e
  unfold Ends
  simp only [run, addU64]
  split_ifs
  · exact ⟨rfl, by simp⟩
  · exact ⟨rfl, by simp⟩

theorem subU64_computes (a b : UInt64) : Computes (subU64 a b) := by
  intro env e
  unfold Ends
  simp only [run, subU64]
  split_ifs
  · exact ⟨rfl, by simp⟩
  · exact ⟨rfl, by simp⟩

theorem mulU64_computes (a b : UInt64) : Computes (mulU64 a b) := by
  intro env e
  unfold Ends
  simp only [run, mulU64]
  split_ifs
  · exact ⟨rfl, by simp⟩
  · exact ⟨rfl, by simp⟩

theorem sumAmounts_computes (proofs : List Proof) (acc : UInt64) : Computes (sumAmounts proofs acc) := by
  induction proofs generalizing acc with
  | nil => exact .pure _
  | cons p proofs ih => exact (addU64_computes acc p.amount).bind ih

theorem inputFee_computes (count : Nat) : Computes (inputFee count) :=
  Computes.get.bind fun e => (mulU64_computes e.feePpk _).bind fun _ => .pure _

theorem knownSecrets_computes : Computes knownSecrets := Computes.get.bind fun _ => .pure _

theorem balance_computes : Computes balance := Computes.get.bind fun _ => sumAmounts_computes _ _

theorem clock_computes : Computes clock := fun _ _ => ⟨rfl, by simp [run, clock]⟩

theorem addU64_keeps (a b : UInt64) : (addU64 a b).Ends env e fun o t => t = e ∧ ∀ c, o = .ok c → c = a + b := by
  unfold Ends
  simp only [run, addU64]
  split
  · exact ⟨rfl, by simp⟩
  · exact ⟨rfl, by simp [eq_comm]⟩

theorem addU64_run {a b : UInt64} (h : a.toNat + b.toNat < 2 ^ 64) : (addU64 a b).run env e = (.ok (a + b), e) := by
  simp only [run, addU64, if_neg (show ¬ (env.overflowChecks = true ∧ 2 ^ 64 ≤ a.toNat + b.toNat) by omega)]

theorem subU64_run {a b : UInt64} (h : b.toNat ≤ a.toNat) : (subU64 a b).run env e = (.ok (a - b), e) := by
  have hlt : ¬ (env.overflowChecks = true ∧ a < b) := by
    rw [UInt64.lt_iff_toNat_lt]
    omega
  simp only [run, subU64, if_neg hlt]

theorem subU64_panic {a b : UInt64} (hchecks : env.overflowChecks = true) (h : a.toNat < b.toNat) :
    (subU64 a b).run env e = (.panic, e) := by
  simp only [run, subU64, if_pos (And.intro hchecks (UInt64.lt_iff_toNat_lt.2 h))]

theorem sumAmounts_run {ps : List Proof} {acc : UInt64} (h : acc.toNat + proofsValue ps < 2 ^ 64) :
    ∃ total, (sumAmounts ps acc).run env e = (.ok total, e) ∧ total.toNat = acc.toNat + proofsValue ps := by
  induction ps generalizing acc with
  | nil => exact ⟨acc, rfl, by simp⟩
  | cons p ps ih =>
    rw [proofsValue_cons] at h ⊢
    have hadd : (acc + p.amount).toNat = acc.toNat + p.amount.toNat := by
      rw [UInt64.toNat_add, Nat.mod_eq_of_lt (by omega)]
    obtain ⟨total, hrun, htotal⟩ := @ih (acc + p.amount) (by omega)
    refine ⟨total, ?_, by omega⟩
    rw [sumAmounts, run_bind, addU64_run (by omega)]
    exact hrun

theorem knownSecrets_run : knownSecrets.run env e = (.ok (e.proofs.map Proof.secret), e) := rfl

theorem balance_run (env : EngineEnv) (h : proofsValue e.proofs < 2 ^ 64) :
    ∃ total, balance.run env e = (.ok total, e) ∧ total.toNat = proofsValue e.proofs := by
  obtain ⟨total, hrun, htotal⟩ := @sumAmounts_run _ env e e.proofs 0 (by simpa using h)
  exact ⟨total, hrun, by simpa using htotal⟩

theorem inputFee_run (env : EngineEnv) {n : Nat} (h : e.feePpk.toNat * n < 2 ^ 64) :
    ∃ fee, (inputFee n).run env e = (.ok fee, e) ∧ fee.toNat = feeFor e.feePpk n := by
  have hprod : e.feePpk.toNat * (UInt64.ofNat n).toNat = e.feePpk.toNat * n := by
    by_cases h0 : e.feePpk.toNat = 0
    · rw [h0, Nat.zero_mul, Nat.zero_mul]
    · have hn : n < 2 ^ 64 := by
        have := Nat.le_mul_of_pos_left n (Nat.pos_of_ne_zero h0)
        omega
      rw [UInt64.toNat_ofNat_of_lt' hn]
  refine ⟨divCeil (e.feePpk * UInt64.ofNat n) 1000, ?_, ?_⟩
  · have hmul : (mulU64 e.feePpk (UInt64.ofNat n)).run env e = (.ok (e.feePpk * UInt64.ofNat n), e) := by
      simp only [run, mulU64]
      rw [if_neg (by omega)]
    show (mulU64 e.feePpk (UInt64.ofNat n) >>= _).run env e = _
    rw [run_bind, hmul]
    rfl
  · rw [divCeil_toNat, UInt64.toNat_mul, hprod, Nat.mod_eq_of_lt h, feeFor]

end rules

/-! ### The gate after a credit -/

section gate
variable [Curve] {env : EngineEnv} {e : WalletEngine}

theorem verifyProof_eq_ok {keys : KeySet} {p : Proof} : verifyProof keys p = .ok () ↔ Verified keys p := by
  unfold verifyProof
  simp only [Except.bind_eq_ok, Except.okOr_eq_ok]
  constructor
  · rintro ⟨dleq, hdleq, key, hkey, h⟩
    split at h
    · next hverify => exact ⟨dleq, key, hdleq, hkey, hverify⟩
    · cases h
  · rintro ⟨dleq, key, hdleq, hkey, hverify⟩
    exact ⟨dleq, hdleq, key, hkey, if_pos hverify⟩

theorem verifyOrRemove_run {fresh : List Proof} (h : ∀ p ∈ fresh, Verified e.keys p) :
    (verifyOrRemove fresh).run env e = (.ok (), e) := by
  have hok : verifyProofs e.keys fresh = .ok () := Except.forM_eq_ok.2 fun p hp => verifyProof_eq_ok.2 (h p hp)
  rw [verifyOrRemove, run_bind_of_ok get_run]
  simp only [hok]
  rfl

/-- What came in since the secrets were noted has been verified already. -/
theorem verifyNewProofs_run {known : List String} (h : ∀ p ∈ e.proofs, p.secret ∉ known → Verified e.keys p) :
    (verifyNewProofs known).run env e = (.ok (), e) := by
  refine verifyOrRemove_run fun p hp => ?_
  rw [List.mem_filter] at hp
  exact h p hp.1 (by simpa using hp.2)

end gate

/-! ### Swaps -/

section swaps
variable [Curve] {β : Type} {env : EngineEnv} {e : WalletEngine} {Q : Outcome CashuError β → WalletEngine → Prop}
  {inputs : List Proof} {amounts : List UInt64}

/-- The wallet after a swap that has come to nothing: at most the request has left. -/
def SwapLost (keysetId : String) (inputs : List Proof) (amounts : List UInt64) (w t : WalletWorld) : Prop :=
  t = w ∨ ∃ derived, derived.length = amounts.length ∧
    t = w.request (.swap ⟨inputs, messagesOf keysetId amounts derived⟩) amounts.length

omit [Curve] in
theorem SwapLost.proofs {keysetId : String} {w t : WalletWorld} (h : SwapLost keysetId inputs amounts w t) :
    t.wallet.proofs = w.wallet.proofs := by
  rcases h with rfl | ⟨derived, -, rfl⟩
  · rfl
  · rfl

omit [Curve] in
theorem SwapLost.sent {keysetId : String} {w t : WalletWorld} (h : SwapLost keysetId inputs amounts w t) :
    t.sent = w.sent ∨ ∃ derived, derived.length = amounts.length ∧
      t.sent = .swap ⟨inputs, messagesOf keysetId amounts derived⟩ :: w.sent := by
  rcases h with rfl | ⟨derived, hcount, rfl⟩
  · exact .inl rfl
  · exact .inr ⟨derived, hcount, rfl⟩

/-- The engine after a swap that has landed. -/
def swapped (e : WalletEngine) (inputs : List Proof) (amounts : List UInt64) (derived : List DerivedOutput)
    (fresh : List Proof) : WalletEngine :=
  e.after ((e.world.request (.swap ⟨inputs, messagesOf e.keysetId amounts derived⟩) amounts.length).withProofs
    (e.proofs ++ fresh)).saved

section fields
variable {derived : List DerivedOutput} {fresh : List Proof}

omit [Curve] in
@[simp] theorem swapped_proofs : (e.swapped inputs amounts derived fresh).proofs = e.proofs ++ fresh := rfl

omit [Curve] in
@[simp] theorem swapped_sent : (e.swapped inputs amounts derived fresh).world.sent =
    .swap ⟨inputs, messagesOf e.keysetId amounts derived⟩ :: e.world.sent := rfl

omit [Curve] in
@[simp] theorem swapped_keys : (e.swapped inputs amounts derived fresh).keys = e.keys := rfl

omit [Curve] in
@[simp] theorem swapped_history : (e.swapped inputs amounts derived fresh).history = e.history := rfl

omit [Curve] in
@[simp] theorem swapped_pending : (e.swapped inputs amounts derived fresh).pending = e.pending := rfl

end fields

/-- The swap of the engine's wallet comes to these proofs. -/
def SwapLands (env : EngineEnv) (e : WalletEngine) (inputs : List Proof) (amounts : List UInt64)
    (derived : List DerivedOutput) (fresh : List Proof) : Prop :=
  Lands (env.wallet e.calls) e.keysetId e.keys e.world inputs amounts derived fresh

/-- How a swap ends over a store that saves. -/
inductive SwapStored (env : EngineEnv) (e : WalletEngine) (inputs : List Proof) (amounts : List UInt64) :
    Outcome CashuError (List Proof) → WalletWorld → Prop
  | landed {derived fresh w} (lands : SwapLands env e inputs amounts derived fresh)
      (after : e.after w = e.swapped inputs amounts derived fresh) : SwapStored env e inputs amounts (.ok fresh) w
  | failed {x w} (fails : ∀ derived fresh, ¬ SwapLands env e inputs amounts derived fresh)
      (lost : SwapLost e.keysetId inputs amounts e.world w) : SwapStored env e inputs amounts (.err x) w
  | overflow (past : ¬ IndicesFit (env.wallet e.calls) e.world amounts.length) :
      SwapStored env e inputs amounts .panic e.world

theorem swap_ends (hstore : StoreSaves env) :
    (swapDeterministic inputs amounts e.keysetId e.keys).Ends (env.wallet e.calls) e.world
      (SwapStored env e inputs amounts) := by
  refine swapDeterministic_rotates.mono fun o w h => ?_
  rcases h with ⟨hstop, hfails, hpanics⟩ | @⟨x, derived, hcount, -, hfails⟩ | ⟨hlands, hvalue, hsaves⟩
  · cases o with
    | ok a => cases hstop
    | err x => exact .failed hfails (.inl rfl)
    | panic => exact .overflow (hpanics rfl)
  · exact .failed hfails (.inr ⟨derived, hcount, rfl⟩)
  · obtain ⟨⟨ps, rfl⟩, rfl⟩ := hsaves.of_saved (hstore _)
    obtain rfl := hvalue ps rfl
    exact .landed hlands rfl

theorem bind_attemptSwap {k : Except CashuError (List Proof) → EngineM β} (hstore : StoreSaves env)
    (hlands : ∀ derived fresh, SwapLands env e inputs amounts derived fresh →
      (k (.ok fresh)).Ends env (e.swapped inputs amounts derived fresh) Q)
    (hfails : ∀ x w, (∀ derived fresh, ¬ SwapLands env e inputs amounts derived fresh) →
      SwapLost e.keysetId inputs amounts e.world w → (k (.error x)).Ends env (e.after w) Q)
    (hpanic : ¬ IndicesFit (env.wallet e.calls) e.world amounts.length → Q .panic (e.after e.world)) :
    (attempt (callWallet (swapDeterministic inputs amounts e.keysetId e.keys)) >>= k).Ends env e Q := by
  refine bind_attemptWallet (swap_ends hstore) (fun ps w h => ?_) (fun x w h => ?_) fun w h => ?_
  · rcases h with ⟨hl, hw⟩
    rw [hw]
    exact hlands _ _ hl
  · rcases h with - | ⟨hnot, hlost⟩
    exact hfails x w hnot hlost
  · rcases h with - | - | hpast
    exact hpanic hpast

end swaps

end WalletEngine

end

/-! ### An engine to run -/

namespace ToyEngine
open Toy32

def keys : KeySet := ⟨"00c0ffee", "sat", [1, 2, 4, 8, 16].map fun amount => ⟨amount, (3 : UInt8)⟩⟩

def coin (amount : UInt64) (secret : String) : Proof := ⟨amount, "00c0ffee", secret, (3 : UInt8), none, none⟩

/-- The mint with the key 3 for every amount signs all swaps and pays all melts. -/
def mint : WalletEnv where
  postMint _ := .error .quoteNotFound
  postMelt r := .ok ⟨true, .paid, some "00", none, r.quote, 1, 0, "sat", 0, "lnbc", "bolt11"⟩
  postSwap r := .ok ⟨r.outputs.map fun o => sign 3 o.b o.amount⟩
  postRestore _ := .ok ⟨[]⟩
  save _ := .saved
  overflowChecks := true

def quote (amount feeReserve : UInt64) : MeltQuoteResponse :=
  ⟨"q", amount, feeReserve, false, .unpaid, 0, "lnbc", "sat", "bolt11"⟩

def env (quote : MeltQuoteResponse) : EngineEnv where
  wallet _ := mint
  checkState _ r := .ok ⟨r.ys.map fun y => ⟨y, "UNSPENT", none⟩⟩
  postMeltQuote _ _ := .ok quote
  now _ := 1700000000
  overflowChecks := true
  sameBuild _ := rfl

def holding (feePpk : UInt64) (proofs : List Proof) : WalletEngine where
  mintUrl := "https://mint.example"
  seed := [1]
  keysetId := "00c0ffee"
  keys := keys
  feePpk := feePpk
  unit := "sat"
  world := WalletWorld.saved ⟨{ PersistentWallet.new none [1] with proofs }, none, []⟩
  history := []
  pending := []
  calls := 0
  reconciles := []

end ToyEngine

end Micronuts
