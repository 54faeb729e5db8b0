import Micronuts.Mint.Keysets
import Micronuts.Mint.Signatures
import Micronuts.Mint.StateCheck
import Micronuts.Nuts.Dhke
import Micronuts.Gate.Openings
import Micronuts.Wallet.Scan

/-!
# The mint honours what it has signed

The mint signs with the `cashu` crate and the wallet unblinds with `cashu-core-lite`; where the two compute the same
(`SharedDhke`), a signature that the mint has granted on a wallet's output makes a coin that the wallet credits and the mint's
own check accepts. Such coins can be swapped as long as NUT-07 calls them unspent, and only as long (`coins_redeemable`).
-/

namespace Micronuts
open Exec

/-! ### What a run has granted -/

theorem zip_take_length {α β : Type} (as : List α) (bs : List β) : (as.take bs.length).zip bs = as.zip bs := by
  induction as generalizing bs with
  | nil => simp
  | cons a as ih =>
    cases bs with
    | nil => simp
    | cons b bs => simpa using ih bs

theorem eq_of_map_eq {α β : Type} {f : α → β} {S l l' : List α} (hinj : ∀ ⦃a⦄, a ∈ S → ∀ ⦃b⦄, b ∈ S → f a = f b → a = b)
    (hl : ∀ a ∈ l, a ∈ S) (hl' : ∀ a ∈ l', a ∈ S) (h : l.map f = l'.map f) : l = l' := by
  induction l generalizing l' with
  | nil => exact (List.map_eq_nil_iff.1 h.symm).symm
  | cons a l ih =>
    cases l' with
    | nil => cases h
    | cons b l' =>
      obtain ⟨ha, hl⟩ := List.forall_mem_cons.1 hl
      obtain ⟨hb, hl'⟩ := List.forall_mem_cons.1 hl'
      obtain ⟨hab, h⟩ := List.cons.inj h
      rw [hinj ha hb hab, ih hl hl' h]

section granted
variable [Crypto]

/-- Where the signatures on change are for the outputs in the order they come: all of these are blank, or they have distinct
amounts and the change has the first of them. -/
def Aligned (outputs : List BlindedMessage) (change : List BlindSignature) : Prop :=
  (∀ o ∈ outputs, o.amount = 0) ∨ (∀ o ∈ outputs, o.amount ≠ 0) ∧ (outputs.map BlindedMessage.amount).Nodup ∧
    change.map BlindSignature.amount = (outputs.take change.length).map BlindedMessage.amount

instance (outputs : List BlindedMessage) (change : List BlindSignature) : Decidable (Aligned outputs change) := by
  unfold Aligned
  infer_instance

/-- The signatures of an answer with the points they are for. -/
def answered : Call → Response → List (PublicKey × BlindSignature)
  | .postMint q, .minted r => (q.outputs.map BlindedMessage.b).zip r.signatures
  | .batchMint q, .minted r => (q.outputs.map BlindedMessage.b).zip r.signatures
  | .postSwap q, .swapped r => (q.outputs.map BlindedMessage.b).zip r.signatures
  | .postMelt q, .melted r =>
    if Aligned (q.outputs.getD []) (r.change.getD []) then ((q.outputs.getD []).map BlindedMessage.b).zip (r.change.getD [])
    else []
  | .postRestore _, .restored r => r.outputs.map fun out => (out.y, out.signature)
  | _, _ => []

/-- The signature is in an answer of the run, or can be restored. -/
inductive Grants (h : History) (w : World) (b : PublicKey) (sig : BlindSignature) : Prop
  | indexed (row : w.mint.issuedOutputs.lookup (pointHex b) = some sig)
  | answered {e : Step World Act} {r : Response} (mem : e ∈ h) (ok : e.act.ending = .returned (.ok r))
      (pair : (b, sig) ∈ answered e.act.call r)

variable {ks : DemoKeyset} {b : PublicKey} {sig : BlindSignature} {h : History} {w : World} {store : Bool}

theorem mem_zip_genuine {outputs : List BlindedMessage} {sigs : List BlindSignature}
    (h : List.Forall₂ (fun o s => GenuineOn ks o.b s) outputs sigs)
    (hmem : (b, sig) ∈ (outputs.map BlindedMessage.b).zip sigs) :
    GenuineOn ks b sig := by
  induction h with
  | nil => simp at hmem
  | cons hone _ ih =>
    rcases List.mem_cons.1 hmem with heq | hmem
    · cases heq
      exact hone
    · exact ih hmem

theorem amounts_of_changeOn {signed : List BlindedMessage} {change : List BlindSignature}
    (h : List.Forall₂ (ChangeOn ks) signed change) (hpos : ∀ o ∈ signed, o.amount ≠ 0) :
    signed.map BlindedMessage.amount = change.map BlindSignature.amount := by
  induction h with
  | nil => rfl
  | cons hone _ ih =>
    obtain ⟨h0, hrest⟩ := List.forall_mem_cons.1 hpos
    rw [List.map_cons, List.map_cons, hone.2 h0, ih hrest]

theorem ChangeTruly.aligned {outputs : List BlindedMessage} {change : List BlindSignature} (h : ChangeTruly ks outputs change)
    (haligned : Aligned outputs change) :
    List.Forall₂ (fun o s => GenuineOn ks o.b s) (outputs.take change.length) change := by
  rcases haligned with hblank | ⟨hpos, hnodup, hamounts⟩
  · exact h.inTurn hblank
  · obtain ⟨signed, hsub, hall⟩ := h.inOrder
    have hsame := amounts_of_changeOn hall fun o ho => hpos o (hsub.subset ho)
    -- an output is known by its amount
    rw [hamounts] at hsame
    rw [← eq_of_map_eq (List.inj_on_of_nodup_map hnodup) (fun o ho => hsub.subset ho)
      (fun o ho => List.mem_of_mem_take ho) hsame]
    exact hall.imp fun _ _ h => h.1

theorem AnswersTruly.genuineOn {c : Call} {r : Response} (h : AnswersTruly ks c r) (hmem : (b, sig) ∈ answered c r) :
    GenuineOn ks b sig := by
  have hissued : ∀ {outputs : List BlindedMessage} {sigs : List BlindSignature}, List.Forall₂ (GenuineFor ks) outputs sigs →
      (b, sig) ∈ (outputs.map BlindedMessage.b).zip sigs → GenuineOn ks b sig :=
    fun hall => mem_zip_genuine (hall.imp fun _ _ h => h.2)
  unfold answered at hmem
  split at hmem
  · exact hissued h hmem
  · exact hissued h hmem
  · exact hissued h hmem
  · split at hmem
    · next haligned =>
      refine mem_zip_genuine (h.aligned haligned) ?_
      rwa [List.map_take, zip_take_length]
    · cases hmem
  · obtain ⟨out, hout, heq⟩ := List.mem_map.1 hmem
    cases heq
    exact (h out hout).2
  · cases hmem

theorem Grants.genuineOn (hgrants : Grants h w b sig) (hrun : Run DurableStep (World.init ks store) h w) :
    GenuineOn ks b sig := by
  obtain ⟨htruly, hanswers⟩ := signsTruly_of_run hrun
  rcases hgrants with hrow | ⟨hmem, hok, hpair⟩
  · exact (htruly.index _ sig hrow).genuineOn
  · exact (hanswers _ hmem _ hok).genuineOn hpair

/-! ### Ordinary inputs -/

theorem inputLocks_ordinary {inputs : List Proof} (h : ∀ p ∈ inputs, inputLock p = .ok none) :
    inputLocks inputs = .ok [] := by
  induction inputs with
  | nil => rfl
  | cons p inputs ih =>
    obtain ⟨hp, hrest⟩ := List.forall_mem_cons.1 h
    rw [inputLocks, hp, ih hrest]
    rfl

theorem verifySpendingConditions_ordinary {inputs : List Proof} (h : ∀ p ∈ inputs, inputLock p = .ok none)
    (outputs : Option (List BlindedMessage)) (quoteId : Option String) (now : UInt64) :
    verifySpendingConditions inputs outputs quoteId now = .ok () := by
  rw [verifySpendingConditions, inputLocks_ordinary h]
  rfl

theorem verifyProof_genuine {m : DemoMint} {p : Proof} {y : String} (h : Genuine m.keyset p) (hy : proofYHex p.secret = .ok y)
    (hunspent : y ∉ m.spentYs) : m.verifyProof p = .ok () := by
  obtain ⟨hid, sk, hsk, hverify⟩ := h
  rw [DemoMint.verifyProof, if_neg (not_not.2 hid), hy]
  show (if y ∈ m.spentYs then _ else _) = _
  rw [if_neg hunspent, hsk]
  exact if_pos hverify

/-- Unspent inputs that are genuine and fit in 64 bits are accepted for their face value. -/
theorem verifyProofs_genuine {m : DemoMint} {total : UInt64} {proofs : List Proof} {ys : List String}
    (hgenuine : ∀ p ∈ proofs, Genuine m.keyset p)
    (hys : List.Forall₂ (fun (p : Proof) y => proofYHex p.secret = .ok y) proofs ys) (hunspent : ∀ y ∈ ys, y ∉ m.spentYs)
    (hfits : total.toNat + proofsValue proofs < 2 ^ 64) :
    ∃ sum, m.verifyProofs proofs total = .ok sum ∧ sum.toNat = total.toNat + proofsValue proofs := by
  induction hys generalizing total with
  | nil => exact ⟨total, rfl, rfl⟩
  | @cons p y proofs ys hp _ ih =>
    obtain ⟨hpg, hgenuine⟩ := List.forall_mem_cons.1 hgenuine
    obtain ⟨hy, hunspent⟩ := List.forall_mem_cons.1 hunspent
    have hvalue : proofsValue (p :: proofs) = p.amount.toNat + proofsValue proofs := rfl
    rw [hvalue] at hfits ⊢
    have hadd : UInt64.checkedAdd total p.amount = some (total + p.amount) := by
      rw [UInt64.checkedAdd_eq_some, UInt64.toNat_add]
      omega
    have htotal := UInt64.checkedAdd_eq_some.1 hadd
    obtain ⟨sum, hsum, hsumValue⟩ := @ih (total + p.amount) hgenuine hunspent (by omega)
    refine ⟨sum, ?_, by omega⟩
    rw [DemoMint.verifyProofs, verifyProof_genuine hpg hp hy, hadd]
    exact hsum

theorem Claims.eq_of_hashed {m : DemoMint} {proofs : List Proof} {ys ys' : List String} (h : Claims m proofs ys')
    (hys : List.Forall₂ (fun (p : Proof) y => proofYHex p.secret = .ok y) proofs ys) : ys' = ys := by
  obtain ⟨h, -, -⟩ := h
  induction hys generalizing ys' with
  | nil =>
    cases h
    rfl
  | cons hp _ ih =>
    rcases h with - | ⟨hp', hrest⟩
    rw [hp] at hp'
    cases hp'
    rw [ih hrest]

/-- Such inputs can be swapped for what they are worth unless one of them is spent. -/
theorem swapAccepted_genuine {m : DemoMint} {now : UInt64} {proofs : List Proof} {ys : List String}
    {outputs : List BlindedMessage} {fee : UInt64} (hgenuine : ∀ p ∈ proofs, Genuine m.keyset p)
    (hordinary : ∀ p ∈ proofs, inputLock p = .ok none)
    (hys : List.Forall₂ (fun (p : Proof) y => proofYHex p.secret = .ok y) proofs ys) (hdistinct : ys.Nodup)
    (hfee : m.keyset.inputFeeTotal proofs = .ok fee) (hbalance : proofsValue proofs = outputsValue outputs + fee.toNat)
    (hfits : proofsValue proofs < 2 ^ 64) (hsign : ∀ o ∈ outputs, m.keyset.Signable o) :
    SwapAccepted m now ⟨proofs, outputs⟩ ↔ ∀ y ∈ ys, y ∉ m.spentYs := by
  constructor
  · rintro ⟨-, ys', hclaims⟩
    obtain rfl := hclaims.eq_of_hashed hys
    exact hclaims.unspent
  · intro hunspent
    obtain ⟨inputSum, hverify, hvalue⟩ := @verifyProofs_genuine _ m 0 _ _ hgenuine hys hunspent (by simpa using hfits)
    have hsum : outputSum outputs = some (UInt64.ofNat (outputsValue outputs)) := by
      rw [outputSum, UInt64.checkedSum_eq_some, UInt64.toNat_ofNat_of_lt' (by simp only [UInt64.size]; omega)]
      simp [outputsValue]
    have hrequired : UInt64.checkedAdd (UInt64.ofNat (outputsValue outputs)) fee = some inputSum := by
      rw [UInt64.checkedAdd_eq_some, hvalue, UInt64.toNat_ofNat_of_lt' (by simp only [UInt64.size]; omega), ← hbalance]
      simp
    refine ⟨⟨verifySpendingConditions_ordinary hordinary _ _ _, ⟨inputSum, _, fee, hverify, hsum, hfee, hrequired⟩, ?_⟩,
      ys, hys, hdistinct, hunspent⟩
    exact DemoKeyset.checkOutputsSignable_ok.2 fun o ho _ => hsign o ho

/-- An accepted swap for outputs that the mint can sign succeeds if it returns. -/
theorem SwapAccepted.swapped {request : SwapRequest} {env : Env} {o : Outcome CashuError Response} {t : World}
    (h : SwapAccepted w.mint (env.nowSecs w.asked) request) (htruly : SignsTruly ks w) (htotal : SignTotal ks)
    (hsign : ∀ o ∈ request.outputs, ks.Signable o) (hexec : (exec (.postSwap request)).run env w = (o, t))
    (hreturns : o ≠ .panic) :
    ∃ r, o = .ok (.swapped r) ∧ List.Forall₂ (GenuineFor ks) request.outputs r.signatures := by
  cases o with
  | ok r =>
    obtain ⟨⟨response, rfl⟩, -⟩ := ((exec_ends _).elim hexec).swap_spentYs
    exact ⟨response, rfl, (upholds_exec _).elim htruly hexec |>.2 _ rfl⟩
  | err e =>
    obtain ⟨o, ho, hnot⟩ := ((exec_postSwap_accepted h).elim hexec).2.2 (by rwa [htruly.keyset])
    rw [htruly.keyset] at hnot
    exact absurd (hsign o ho) hnot
  | panic => exact absurd rfl hreturns

end granted

/-! ### Coins -/

section coins
variable [Crypto] [Curve]

/-- `cashu::dhke` on the mint's side, as `cashu-core-lite` computes it. -/
class SharedDhke [ScalarArithmetic] : Prop where
  hashToCurve_eq : ∀ message, Crypto.hashToCurve message = Micronuts.hashToCurve message
  signMessage_eq : ∀ k b, Crypto.signMessage k b = Micronuts.signMessage k b
  verifyMessage_iff : ∀ k c message,
    Crypto.verifyMessage k c message = true ↔ verifySignatureWithPrivkey message c k = some true
  proveDleq_eq : ∀ n k b c d, Crypto.signMessage k b = some c → Crypto.proveDleq n k b c = some d →
    ∃ nonce, Micronuts.proveDleq b k nonce = some ⟨d.1, d.2⟩

/-- The blinded message is that of the secret and the blinder. -/
def DerivedOutput.Blinds (d : DerivedOutput) : Prop := blindMessage (asBytes d.secretHex) d.blinder = some d.blinded

theorem deriveOutput_blinds {seed : List UInt8} {keysetId : String} {idx : UInt32} {d : DerivedOutput}
    (h : deriveOutput seed keysetId idx = .ok d) : d.Blinds := by
  obtain ⟨secret, -, h⟩ := Except.bind_eq_ok.1 h
  obtain ⟨bytes, -, h⟩ := Except.bind_eq_ok.1 h
  obtain ⟨blinder, -, h⟩ := Except.bind_eq_ok.1 h
  obtain ⟨blinded, hblinded, h⟩ := Except.bind_eq_ok.1 h
  cases h
  exact Except.okOr_eq_ok.1 hblinded

/-- What a wallet makes of a signature on its output. -/
def CoinOf (mintKeys : KeySet) (d : DerivedOutput) (sig : BlindSignature) (p : Proof) : Prop :=
  ∃ key c, mintKeys.pubkey sig.amount = some key ∧ unblindSignature sig.c d.blinder key = some c ∧ p = restoredProof sig d c

theorem CoinOf.unique {mintKeys : KeySet} {d : DerivedOutput} {sig : BlindSignature} {p q : Proof}
    (hp : CoinOf mintKeys d sig p) (hq : CoinOf mintKeys d sig q) : p = q := by
  obtain ⟨key, c, hkey, hc, rfl⟩ := hp
  obtain ⟨key', c', hkey', hc', rfl⟩ := hq
  rw [hkey] at hkey'
  cases hkey'
  rw [hc] at hc'
  cases hc'
  rfl

/-- An ordinary coin of a signature that the run has granted. -/
def Holds (h : History) (w : World) (ks : DemoKeyset) (p : Proof) : Prop :=
  ∃ d sig, d.Blinds ∧ Secret.parse d.secretHex = none ∧ Grants h w d.blinded sig ∧ CoinOf ks.toPublicKeyset d sig p

variable {ks : DemoKeyset} {d : DerivedOutput} {sig : BlindSignature} {p : Proof} {h : History} {w t : World} {store : Bool}

theorem Holds.ordinary (hp : Holds h w ks p) : inputLock p = .ok none := by
  obtain ⟨d, sig, -, hparse, -, key, c, -, -, rfl⟩ := hp
  simp [inputLock, restoredProof, hparse]

variable [ScalarArithmetic] [CurveGroup] [SharedDhke]

/-- A signature of the mint on a wallet's output unblinds, to a coin that either side accepts. -/
theorem GenuineOn.exists_coin (h : GenuineOn ks d.blinded sig) (hks : ks.Derived) (htotal : SignTotal ks) (hd : d.Blinds) :
    ∃ p, CoinOf ks.toPublicKeyset d sig p ∧ Verified ks.toPublicKeyset p ∧ Genuine ks p := by
  obtain ⟨hid, sk, n, dleq, hsk, hsign, hprove, hdleq⟩ := h
  have hkey := hks.pubkey hsk
  obtain ⟨nonce, hnonce⟩ := SharedDhke.proveDleq_eq n sk d.blinded sig.c dleq hsign hprove
  rw [SharedDhke.signMessage_eq] at hsign
  obtain ⟨y, hy, -⟩ := blindMessage_eq_some hd
  obtain ⟨c, hc⟩ := htotal.sign sk y
  rw [SharedDhke.signMessage_eq] at hc
  have hunblind := unblindSignature_signMessage hy hd hsign
  rw [hc] at hunblind
  refine ⟨restoredProof sig d c, ⟨_, c, hkey, hunblind, rfl⟩, ⟨⟨dleq.1, dleq.2, d.blinder⟩, _, ?_, hkey, ?_⟩,
    ⟨hid, sk, hsk, ?_⟩⟩
  · rw [restoredProof, hdleq, Option.map_some]
  · exact verifyProofDleq_unblind hd (verifyDleq_proveDleq hsign hnonce) hunblind
  · rw [SharedDhke.verifyMessage_iff]
    exact verifySignatureWithPrivkey_signMessage hy hc

theorem Holds.accepted (hp : Holds h w ks p) (hrun : Run DurableStep (World.init ks store) h w) (hks : ks.Derived)
    (htotal : SignTotal ks) : Verified ks.toPublicKeyset p ∧ Genuine ks p := by
  obtain ⟨d, sig, hd, -, hgrants, hcoin⟩ := hp
  obtain ⟨q, hq, hverified, hgenuine⟩ := (hgrants.genuineOn hrun).exists_coin hks htotal hd
  rw [hcoin.unique hq]
  exact ⟨hverified, hgenuine⟩

/-- The points of the coins, as a wallet asks for them. -/
def PointsOf (coins : List Proof) (ys : List PublicKey) : Prop :=
  List.Forall₂ (fun (p : Proof) y => Micronuts.hashToCurve (asBytes p.secret) = some y) coins ys

omit [CurveGroup] in
theorem PointsOf.hashed {coins : List Proof} {ys : List PublicKey} (h : PointsOf coins ys) :
    List.Forall₂ (fun (p : Proof) y => proofYHex p.secret = .ok y) coins (ys.map pointHex) := by
  rw [List.forall₂_map_right_iff]
  refine h.imp fun p y hy => ?_
  rw [proofYHex_eq_ok]
  exact ⟨y, by rw [SharedDhke.hashToCurve_eq, hy], rfl⟩

omit [Curve] [ScalarArithmetic] [CurveGroup] [SharedDhke] in
theorem postCheckState_all {m : DemoMint} {ys : List PublicKey} {state : String} :
    (∀ s ∈ (m.postCheckState ⟨ys⟩).states, s.state = state) ↔
      ∀ y ∈ ys, (if pointHex y ∈ m.spentYs then "SPENT" else "UNSPENT") = state := by
  simp [DemoMint.postCheckState]

/-- Distinct coins of a run, swapped for outputs that the mint can sign and that are worth as much less the fee: if the call
returns, it succeeds exactly when all of them are reported unspent, and then all are spent and every output is signed. -/
theorem coins_redeemable (hrun : Run DurableStep (World.init ks store) h w) (hks : ks.Derived) (htotal : SignTotal ks)
    {coins : List Proof} {ys : List PublicKey} {outputs : List BlindedMessage} {fee : UInt64}
    (hcoins : ∀ p ∈ coins, Holds h w ks p) (hys : PointsOf coins ys) (hdistinct : ys.Nodup)
    (hfee : ks.inputFeeTotal coins = .ok fee) (hbalance : proofsValue coins = outputsValue outputs + fee.toNat)
    (hfits : proofsValue coins < 2 ^ 64) (hsign : ∀ o ∈ outputs, ks.Signable o) {env : Env}
    {o : Outcome CashuError Response} (hexec : (exec (.postSwap ⟨coins, outputs⟩)).run env w.begin = (o, t))
    (hreturns : o ≠ .panic) :
    (∀ p ∈ coins, Verified ks.toPublicKeyset p) ∧
    (o.isOk = true ↔ ∀ s ∈ (w.mint.postCheckState ⟨ys⟩).states, s.state = "UNSPENT") ∧
    (o.isOk = true → (∀ s ∈ (t.mint.postCheckState ⟨ys⟩).states, s.state = "SPENT") ∧
      ∃ r, o = .ok (.swapped r) ∧ List.Forall₂ (GenuineFor ks) outputs r.signatures) := by
  obtain ⟨htruly, -⟩ := signsTruly_of_run hrun
  have hbegin : SignsTruly ks w.begin := htruly.of_eq rfl rfl rfl
  have hhashed := hys.hashed
  have hnodup : (ys.map pointHex).Nodup := hdistinct.map fun _ _ => pointHex_injective
  have hunspent : (∀ s ∈ (w.mint.postCheckState ⟨ys⟩).states, s.state = "UNSPENT") ↔
      ∀ y ∈ ys.map pointHex, y ∉ w.begin.mint.spentYs := by
    rw [postCheckState_all, List.forall_mem_map]
    refine forall₂_congr fun y _ => ?_
    rw [ite_eq_iff]
    simp [World.begin]
  have haccepted := @swapAccepted_genuine _ w.begin.mint (env.nowSecs 0) coins (ys.map pointHex) outputs fee
    (fun p hp => by rw [hbegin.keyset]; exact ((hcoins p hp).accepted hrun hks htotal).2) (fun p hp => (hcoins p hp).ordinary)
    hhashed hnodup (by rw [hbegin.keyset]; exact hfee) hbalance hfits (by rw [hbegin.keyset]; exact hsign)
  refine ⟨fun p hp => ((hcoins p hp).accepted hrun hks htotal).1, ⟨fun hok => ?_, fun hall => ?_⟩, fun hok => ?_⟩
  · rw [hunspent, ← haccepted]
    by_contra hrefused
    obtain ⟨⟨e, rfl⟩, -⟩ := (exec_postSwap_refused (w := w.begin) hrefused).elim hexec
    cases hok
  · rw [hunspent, ← haccepted] at hall
    obtain ⟨response, rfl, -⟩ := hall.swapped hbegin htotal hsign hexec hreturns
    rfl
  · cases o with
    | ok r =>
      obtain ⟨⟨response, rfl⟩, ys', hclaims, hspent⟩ := ((exec_ends _).elim hexec).swap_spentYs
      refine ⟨?_, response, rfl, (upholds_exec _).elim hbegin hexec |>.2 _ rfl⟩
      obtain rfl := hclaims.eq_of_hashed hhashed
      rw [postCheckState_all, hspent]
      intro y hy
      rw [if_pos (DemoMint.mem_spend.2 (.inr (List.mem_map_of_mem hy)))]
    | err e => cases hok
    | panic => cases hok

end coins

/-! ### One arithmetic on both sides -/

section toy

namespace ToySystem
open scoped UInt8.CommRing

@[irreducible] def digest (bytes : List UInt8) : UInt8 := bytes.foldl (fun acc b => acc * 251 + b) 1

/-- The point of the first counter; there is one for every digest. -/
def hash (message : List UInt8) : UInt8 := digest (Toy.bytes32 (digest (domainSeparator ++ message)) ++ [0, 0, 0, 0])

def challenge (points : List UInt8) : UInt8 := digest (asBytes (String.join (points.map fun p => Hex.encode [4, p])))

/-- `cashu` computes with the residues as `cashu-core-lite` does. -/
scoped instance crypto : Crypto :=
  { Toy.crypto with
    sha256 := fun bytes => Toy.bytes32 (digest bytes)
    hashToCurve := fun message => some (hash message)
    verifyMessage := fun k c message => hash message * k = c
    proveDleq := fun n (k b : UInt8) _ =>
      let n := UInt8.ofNat n
      let e := challenge [n, b * n, k, b * k]
      some (e, n + e * k) }

scoped instance curve : Curve :=
  @Curve.mk crypto UInt8 UInt8 1 (fun p q => p + q) (fun p q => p - q) (fun p k => p * k) id some id id fun p => [4, p]

scoped instance arithmetic : ScalarArithmetic :=
  @ScalarArithmetic.mk crypto curve (fun x y : UInt8 => x + y) (fun x y : UInt8 => x * y) Toy.bytes32
    (inferInstanceAs (DecidableEq UInt8))

noncomputable scoped instance group : CurveGroup :=
  @CurveGroup.mk crypto curve arithmetic (inferInstance : AddCommGroup UInt8) (inferInstance : CommRing UInt8)
    (inferInstance : Module UInt8 UInt8) (fun _ _ => rfl) (fun _ _ => rfl) (fun p k => UInt8.mul_comm p k) (fun _ _ => rfl)
    (fun _ _ => rfl) (fun k => (UInt8.mul_one k).symm) (fun _ _ h => (Option.some.inj h).symm) (fun _ => rfl)
    (fun _ _ h => (Option.some.inj h).symm) fun _ _ h => congrArg Toy.bytes32 (Option.some.inj h).symm

theorem tryCounters_first {msgHash : List UInt8} {fuel counter : Nat} {p : PublicKey}
    (h : Crypto.fromBytes (0x02 :: Crypto.sha256 (msgHash ++ (toBeBytes 4 counter).reverse)) = some p) :
    tryCounters msgHash (fuel + 1) counter = some p := by
  rw [tryCounters, h]

theorem hashToCurve_eq (message : List UInt8) : Micronuts.hashToCurve message = some (hash message) :=
  @tryCounters_first _ 65535 0 _ rfl

theorem hashE_eq (points : List UInt8) (r1 r2 a c : UInt8) (h : points = [r1, r2, a, c]) :
    hashE r1 r2 a c = Toy.bytes32 (challenge points) := by
  subst h
  unfold hashE challenge
  rfl

theorem proveDleq_eq (b k n : UInt8) : Micronuts.proveDleq b k n =
    some ⟨challenge [n, b * n, k, b * k], (n + challenge [n, b * n, k, b * k] * k : UInt8)⟩ := by
  have hn : (1 : UInt8) * n = n := UInt8.one_mul n
  unfold Micronuts.proveDleq
  simp only [Curve.fromAffine, Curve.toPoint, Curve.toScalar, Curve.mul, Curve.generator, Curve.publicKey, id, hn,
    Option.bind_eq_bind, Option.bind_some, hashE_eq _ _ _ _ _ rfl]
  rfl

scoped instance shared : SharedDhke where
  hashToCurve_eq message := (hashToCurve_eq message).symm
  signMessage_eq k b := congrArg some (UInt8.mul_comm k b)
  verifyMessage_iff k c message := by
    rw [verifySignatureWithPrivkey, hashToCurve_eq]
    simp [Crypto.verifyMessage, Curve.mul, Curve.toPoint, Curve.toScalar]
  proveDleq_eq n k b c d _ h := by
    cases h
    exact ⟨UInt8.ofNat n, proveDleq_eq _ _ _⟩

theorem signTotal (ks : DemoKeyset) : SignTotal ks := ⟨fun _ _ => ⟨_, rfl⟩, rfl, fun _ _ _ _ => ⟨_, rfl⟩⟩

/-- The key 3 for every amount. -/
def keyset : DemoKeyset where
  id := deriveKeysetId (denominations.map fun _ => (3 : UInt8))
  unit := "sat"
  keys := denominations.map fun amount => (amount, (3 : UInt8), (3 : UInt8))
  inputFeePpk := 0
  amounts := by rw [List.map_map]; exact List.map_id _

theorem keyset_derived : keyset.Derived where
  id_eq := by rw [keyset, List.map_map]; rfl
  isPublic := by simp [keyset, Curve.publicKey]

/-- An output of a wallet. -/
def output (secret : String) (blinder : UInt8) : DerivedOutput :=
  ⟨secret, blinder, (hash (asBytes secret) + blinder : UInt8)⟩

def one : DerivedOutput := output "one" 5

def two : DerivedOutput := output "two" 6

/-- The mint signs the outputs, for 2 and for 1. -/
def grantingCalls : List (Call × Env) :=
  [(.postMintQuote ⟨3, "sat", none⟩, Toy.env),
   (.postMint ⟨"0190-q1", [⟨2, keyset.id, one.blinded⟩, ⟨1, keyset.id, two.blinded⟩], none⟩, Toy.env)]

def granting : History × World := replay (World.init keyset true) grantingCalls

def signature (secret : String) (blinder nonce : UInt8) (amount : UInt64) : BlindSignature :=
  ⟨amount, keyset.id, ((hash (asBytes secret) + blinder) * 3 : UInt8),
    proveDleq (output secret blinder).blinded (3 : UInt8) nonce⟩

def coin (secret : String) (blinder nonce : UInt8) (amount : UInt64) : Proof :=
  restoredProof (signature secret blinder nonce amount) (output secret blinder) (hash (asBytes secret) * 3 : UInt8)

def coins : List Proof := [coin "one" 5 4 2, coin "two" 6 5 1]

theorem output_blinds (secret : String) (blinder : UInt8) : (output secret blinder).Blinds := by
  rw [DerivedOutput.Blinds, output, blindMessage, hashToCurve_eq]
  rfl

theorem coins_held : ∀ p ∈ coins, Holds granting.1 granting.2 keyset p := by
  refine List.forall_mem_cons.2 ⟨?_, List.forall_mem_singleton.2 ?_⟩
  · refine ⟨one, signature "one" 5 4 2, output_blinds "one" 5, by decide +kernel, .indexed ?_,
      (3 : UInt8), _, rfl, ?_, rfl⟩
    · decide +kernel
    · decide +kernel
  · refine ⟨two, signature "two" 6 5 1, output_blinds "two" 6, by decide +kernel, .indexed ?_,
      (3 : UInt8), _, rfl, ?_, rfl⟩
    · decide +kernel
    · decide +kernel

/-- What the coins are swapped for. -/
def wanted : List BlindedMessage := [⟨1, keyset.id, (7 : UInt8)⟩, ⟨1, keyset.id, (8 : UInt8)⟩, ⟨1, keyset.id, (9 : UInt8)⟩]

end ToySystem

open ToySystem
theorem coins_redeemable_toy :
    (∀ p ∈ coins, Verified keyset.toPublicKeyset p) ∧
    (((exec (.postSwap ⟨coins, wanted⟩)).run Toy.env granting.2.begin).1.isOk = true ↔
      ∀ s ∈ (granting.2.mint.postCheckState ⟨[hash (asBytes "one"), hash (asBytes "two")]⟩).states, s.state = "UNSPENT") := by
  have hrun : Run DurableStep (World.init keyset true) granting.1 granting.2 :=
    (run_replay (by decide +kernel)).mono fun _ _ _ => .inl
  have hys : PointsOf coins [hash (asBytes "one"), hash (asBytes "two")] :=
    .cons (hashToCurve_eq _) (.cons (hashToCurve_eq _) .nil)
  have hdistinct : ([hash (asBytes "one"), hash (asBytes "two")] : List UInt8).Nodup := by decide +kernel
  have hsign : ∀ o ∈ wanted, keyset.Signable o := by decide
  have hfee : keyset.inputFeeTotal coins = .ok 0 := rfl
  have hreturns : ((exec (.postSwap ⟨coins, wanted⟩)).run Toy.env granting.2.begin).1 ≠ .panic := by decide +kernel
  obtain ⟨hverified, hswap, -⟩ := coins_redeemable hrun keyset_derived (signTotal keyset) coins_held hys
    hdistinct hfee rfl (by decide) hsign Prod.mk.eta.symm hreturns
  exact ⟨hverified, hswap⟩

end toy

end Micronuts
