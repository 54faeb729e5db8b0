import Mathlib.Data.List.Nodup
import Micronuts.Mint.SpendingSound

/-!
# What unlocks a locked input

The converse of the soundness of the spending conditions: what each kind of lock accepts, in full. An expired lock only
adds a pathway, so that what opens now opens later, and the signatures of enough keys of a pathway, one of each and in any
order, are always enough.
-/

namespace Micronuts

section
variable [Crypto]

/-! ### When the mint accepts -/

theorem verifyP2pk_iff {message : List UInt8} {requirements : SpendingRequirements} {witness : Option String} :
    verifyP2pk message requirements witness = .ok () ↔ anyoneCanSpend requirements = true ∨
      ∃ w, witness.bind P2pkWitness.fromJson = some w ∧
        (enoughSignatures message requirements.pubkeys w.signatures requirements.requiredSigs = true ∨
          ∃ refund, requirements.refundPath = some refund ∧
            enoughSignatures message refund.pubkeys w.signatures refund.requiredSigs = true) := by
  unfold verifyP2pk
  by_cases hopen : anyoneCanSpend requirements = true
  · simp [hopen]
  rcases hw : witness.bind P2pkWitness.fromJson with - | w
  · simp [hopen]
  · unfold verifyP2pkPathways
    dsimp only
    rw [if_neg hopen]
    split
    · next hprimary => simp [hprimary]
    · next hprimary =>
      simp [Option.any_eq_true, hopen, hprimary]

theorem verifyWitnessSignatures_iff {message : List UInt8} {keys : List PublicKey} {signatureHexes : List String}
    {n : UInt64} : verifyWitnessSignatures message keys signatureHexes n = .ok () ↔
      enoughSignatures message keys signatureHexes n = true :=
  ⟨verifyWitnessSignatures_ok, fun h => if_pos h⟩

/-- With a valid preimage the receivers decide, without one the refund pathway. -/
theorem verifyHtlc_iff {message : List UInt8} {requirements : SpendingRequirements} {c : HtlcConditions}
    {witness : Option String} : verifyHtlc message requirements c witness = .ok () ↔
      (preimageValid c (witness.bind HtlcWitness.fromJson) = true ∧ (requirements.requiredSigs = 0 ∨
        ∃ signatures, (witness.bind HtlcWitness.fromJson).bind HtlcWitness.signatures = some signatures ∧
          enoughSignatures message requirements.pubkeys signatures requirements.requiredSigs = true)) ∨
      (preimageValid c (witness.bind HtlcWitness.fromJson) = false ∧ (anyoneCanSpend requirements = true ∨
        ∃ refund, requirements.refundPath = some refund ∧
          ∃ signatures, (witness.bind HtlcWitness.fromJson).bind HtlcWitness.signatures = some signatures ∧
            enoughSignatures message refund.pubkeys signatures refund.requiredSigs = true)) := by
  unfold verifyHtlc verifyHtlcPathways
  generalize witness.bind HtlcWitness.fromJson = w
  rcases hvalid : preimageValid c w with - | -
  · by_cases hopen : anyoneCanSpend requirements = true
    · simp [hvalid, hopen]
    rcases hrefund : requirements.refundPath with - | refund
    · simp [hvalid, hopen]
    rcases hsigs : w.bind HtlcWitness.signatures with - | signatures
    · simp [hvalid, hopen, hsigs]
    · simp [hvalid, hopen, hsigs, verifyWitnessSignatures_iff]
  · by_cases hzero : requirements.requiredSigs = 0
    · simp [hvalid, hzero]
    rcases hsigs : w.bind HtlcWitness.signatures with - | signatures
    · simp [hvalid, hzero, hsigs]
    · simp [hvalid, hzero, hsigs, verifyWitnessSignatures_iff]

/-! ### Waiting -/

/-- The same keys, and at most a refund pathway more. -/
structure SpendingRequirements.Extends (r later : SpendingRequirements) : Prop where
  pubkeys : later.pubkeys = r.pubkeys
  requiredSigs : later.requiredSigs = r.requiredSigs
  refundPath : ∀ refund, r.refundPath = some refund → later.refundPath = some refund

section waiting
variable {now later : UInt64}

/-- A refund pathway that is open stays as it is. -/
theorem refundPathAt_later {locktime : Option UInt64} {refundKeys : List PublicKey} {numSigsRefund : Option UInt64}
    {refund : RefundPath} (hle : now ≤ later) (h : refundPathAt locktime refundKeys numSigsRefund now = some refund) :
    refundPathAt locktime refundKeys numSigsRefund later = some refund := by
  obtain ⟨⟨t, rfl, hlt⟩, -⟩ := refundPathAt_some h
  have hlater : t < later := UInt64.lt_of_lt_of_le hlt hle
  simpa [refundPathAt, hlt, hlater] using h

theorem InputLock.requirementsAt_later (lock : InputLock) (hle : now ≤ later) :
    (lock.requirementsAt now).Extends (lock.requirementsAt later) := by
  cases lock with
  | p2pk proof secret c => exact ⟨rfl, rfl, fun _ => refundPathAt_later hle⟩
  | htlc proof secret c => exact ⟨rfl, rfl, fun _ => refundPathAt_later hle⟩

namespace SpendingRequirements.Extends
variable {r r' : SpendingRequirements} {message : List UInt8} {witness : Option String}

theorem anyoneCanSpend (h : r.Extends r') (hopen : Micronuts.anyoneCanSpend r = true) :
    Micronuts.anyoneCanSpend r' = true := by
  obtain ⟨refund, hrefund, hzero⟩ := Option.any_eq_true _ _ |>.1 hopen
  exact Option.any_eq_true _ _ |>.2 ⟨refund, h.refundPath refund hrefund, hzero⟩

/-- The primary pathway is tried at any time. -/
theorem verifyP2pk (h : r.Extends r') (hok : Micronuts.verifyP2pk message r witness = .ok ()) :
    Micronuts.verifyP2pk message r' witness = .ok () := by
  rw [verifyP2pk_iff] at hok ⊢
  rcases hok with hopen | ⟨w, hw, hprimary | ⟨refund, hrefund, henough⟩⟩
  · exact .inl (h.anyoneCanSpend hopen)
  · refine .inr ⟨w, hw, .inl ?_⟩
    rw [h.pubkeys, h.requiredSigs]
    exact hprimary
  · exact .inr ⟨w, hw, .inr ⟨refund, h.refundPath refund hrefund, henough⟩⟩

/-- The preimage decides on the pathway, and it does not depend on the time. -/
theorem verifyHtlc {c : HtlcConditions} (h : r.Extends r') (hok : Micronuts.verifyHtlc message r c witness = .ok ()) :
    Micronuts.verifyHtlc message r' c witness = .ok () := by
  rw [verifyHtlc_iff] at hok ⊢
  rcases hok with ⟨hvalid, hreceivers⟩ | ⟨hinvalid, hopen | ⟨refund, hrefund, hsigned⟩⟩
  · refine .inl ⟨hvalid, ?_⟩
    rw [h.pubkeys, h.requiredSigs]
    exact hreceivers
  · exact .inr ⟨hinvalid, .inl (h.anyoneCanSpend hopen)⟩
  · exact .inr ⟨hinvalid, .inr ⟨refund, h.refundPath refund hrefund, hsigned⟩⟩

end SpendingRequirements.Extends

theorem InputLock.verify_later {lock : InputLock} {message : List UInt8} {witness : Option String} (hle : now ≤ later)
    (h : lock.verify message witness now = .ok ()) : lock.verify message witness later = .ok () := by
  have hext := lock.requirementsAt_later hle
  cases lock with
  | p2pk proof secret c => exact hext.verifyP2pk h
  | htlc proof secret c => exact hext.verifyHtlc h

theorem verifyInputsIndividually_later {locks : List InputLock} (hle : now ≤ later)
    (h : verifyInputsIndividually locks now = .ok ()) : verifyInputsIndividually locks later = .ok () := by
  induction locks with
  | nil => rfl
  | cons lock locks ih =>
    obtain ⟨⟨⟩, hlock, h⟩ := Except.bind_eq_ok.1 h
    exact Except.bind_eq_ok.2 ⟨(), InputLock.verify_later hle hlock, ih h⟩

variable {inputs : List Proof} {outputs : Option (List BlindedMessage)} {quoteId : Option String}

theorem verifySigAll_later {locks : List InputLock} (hle : now ≤ later)
    (h : verifySigAll inputs locks outputs quoteId now = .ok ()) :
    verifySigAll inputs locks outputs quoteId later = .ok () := by
  cases locks with
  | nil => cases h
  | cons first rest =>
    unfold verifySigAll at h ⊢
    dsimp only at h ⊢
    split at h
    · cases h
    · next hguard =>
      split at h
      · cases h
      · next hsame =>
        rw [if_neg hguard, if_neg hsame]
        exact InputLock.verify_later hle h

/-- What may be spent now may be spent later. -/
theorem verifySpendingConditions_later (hle : now ≤ later)
    (h : verifySpendingConditions inputs outputs quoteId now = .ok ()) :
    verifySpendingConditions inputs outputs quoteId later = .ok () := by
  obtain ⟨locks, hlocks, h⟩ := Except.bind_eq_ok.1 h
  refine Except.bind_eq_ok.2 ⟨locks, hlocks, ?_⟩
  by_cases hflag : locks.any (·.sigflag = .sigAll) = true
  · rw [if_pos hflag] at h ⊢
    exact verifySigAll_later hle h
  · rw [if_neg hflag] at h ⊢
    exact verifyInputsIndividually_later hle h

end waiting

/-! ### Counting -/

/-- A key that no two of the signatures verify under is counted when one does. -/
theorem verifyKey_eq {message : List UInt8} {key : PublicKey} {sigs : List Signature} {seen : List (List UInt8)}
    (hcount : sigs.countP (Crypto.verify key message) ≤ 1) (hnew : xCoordinate key ∉ seen) :
    verifyKey message key sigs seen =
      some (if sigs.any (Crypto.verify key message) then xCoordinate key :: seen else seen) := by
  induction sigs generalizing seen with
  | nil => rfl
  | cons sig sigs ih =>
    rw [List.countP_cons] at hcount
    by_cases hverify : Crypto.verify key message sig = true
    · rw [if_pos hverify] at hcount
      have hzero : sigs.countP (Crypto.verify key message) = 0 := by omega
      have hrest : ∀ sig ∈ sigs, ¬ Crypto.verify key message sig = true := List.countP_eq_zero.1 hzero
      have hdone : ∀ seen, verifyKey message key sigs seen = some seen := by
        clear ih hcount hzero
        intro seen
        induction sigs with
        | nil => rfl
        | cons sig sigs ih =>
          obtain ⟨hsig, hrest⟩ := List.forall_mem_cons.1 hrest
          rw [verifyKey, if_neg hsig, ih hrest]
      simp [verifyKey, hverify, hnew, hdone]
    · rw [if_neg hverify] at hcount
      simp [verifyKey, hverify, ih hcount hnew]

/-- With distinct keys, and no key that verifies two of the signatures, the keys that verify one are counted. -/
theorem verifyKeys_count {message : List UInt8} {sigs : List Signature} {keys : List PublicKey}
    {seen : List (List UInt8)} (hnodup : (keys.map xCoordinate).Nodup) (hnew : ∀ k ∈ keys, xCoordinate k ∉ seen)
    (hcount : ∀ k ∈ keys, sigs.countP (Crypto.verify k message) ≤ 1) :
    ∃ seen', verifyKeys message sigs keys seen = some seen' ∧
      seen'.length = (keys.countP fun k => sigs.any (Crypto.verify k message)) + seen.length := by
  induction keys generalizing seen with
  | nil => exact ⟨seen, rfl, by simp⟩
  | cons key keys ih =>
    obtain ⟨hkey, hnodup⟩ := List.nodup_cons.1 hnodup
    obtain ⟨hfresh, hnew⟩ := List.forall_mem_cons.1 hnew
    obtain ⟨hcount, hcounts⟩ := List.forall_mem_cons.1 hcount
    have hstep := verifyKey_eq hcount hfresh
    by_cases hany : sigs.any (Crypto.verify key message) = true
    · rw [if_pos hany] at hstep
      have hnew : ∀ k ∈ keys, xCoordinate k ∉ xCoordinate key :: seen := by
        intro k hk hmem
        rcases List.mem_cons.1 hmem with heq | hmem
        · exact hkey (heq ▸ List.mem_map_of_mem hk)
        · exact hnew k hk hmem
      obtain ⟨seen', hseen', hlen⟩ := ih hnodup hnew hcounts
      refine ⟨seen', by rw [verifyKeys, hstep]; exact hseen', ?_⟩
      rw [hlen, List.countP_cons, if_pos hany, List.length_cons]
      omega
    · rw [if_neg hany] at hstep
      obtain ⟨seen', hseen', hlen⟩ := ih hnodup hnew hcounts
      exact ⟨seen', by rw [verifyKeys, hstep]; exact hseen', by rw [hlen, List.countP_cons, if_neg hany, Nat.add_zero]⟩

/-! ### Honest signatures -/

/-- A signature verifies under one x-coordinate. -/
def VerifiesOnce : Prop :=
  ∀ k k' message sig, Crypto.verify k message sig = true → Crypto.verify k' message sig = true →
    xCoordinate k = xCoordinate k'

/-- One signature each of `required` distinct keys or more. -/
def HonestWitness (message : List UInt8) (keys : List PublicKey) (required : UInt64) (signatureHexes : List String) : Prop :=
  ∃ signers sigs, signers ⊆ keys ∧ signers.Nodup ∧ required.toNat ≤ signers.length ∧
    signatureHexes.mapM Crypto.signatureFromStr = some sigs ∧
    List.Forall₂ (fun k sig => Crypto.verify k message sig = true) signers sigs

/-- The signatures that verify under a key are those of signers with its x-coordinate. -/
theorem VerifiesOnce.countP_le (hx : VerifiesOnce) {message : List UInt8} {signers : List PublicKey}
    {sigs : List Signature} (h : List.Forall₂ (fun k sig => Crypto.verify k message sig = true) signers sigs)
    (key : PublicKey) : sigs.countP (Crypto.verify key message) ≤ (signers.map xCoordinate).count (xCoordinate key) := by
  induction h with
  | nil => exact Nat.zero_le _
  | @cons k sig signers sigs hsig _ ih =>
    rw [List.countP_cons, List.map_cons, List.count_cons]
    by_cases hverify : Crypto.verify key message sig = true
    · have heq : xCoordinate k = xCoordinate key := hx k key message sig hsig hverify
      simp only [hverify, heq, if_true, beq_self_eq_true]
      omega
    · rw [if_neg hverify]
      omega

/-- The keys that verify one of the signatures are at least the signers. -/
theorem signers_le {message : List UInt8} {keys signers : List PublicKey} {sigs : List Signature} (hsub : signers ⊆ keys)
    (hnodup : signers.Nodup) (h : List.Forall₂ (fun k sig => Crypto.verify k message sig = true) signers sigs) :
    signers.length ≤ keys.countP fun k => sigs.any (Crypto.verify k message) := by
  have hsigned : ∀ k ∈ signers, sigs.any (Crypto.verify k message) = true := by
    clear hsub hnodup
    induction h with
    | nil => simp
    | @cons k sig signers sigs hsig _ ih =>
      refine List.forall_mem_cons.2 ⟨by simp [hsig], fun k' hk' => ?_⟩
      simp only [List.any_cons, ih k' hk', Bool.or_true]
  rw [List.countP_eq_length_filter]
  refine (List.subperm_of_subset hnodup fun k hk => ?_).length_le
  exact List.mem_filter.2 ⟨hsub hk, hsigned k hk⟩

theorem HonestWitness.enough {message : List UInt8} {keys : List PublicKey} {required : UInt64}
    {signatureHexes : List String} (hx : VerifiesOnce) (hdistinct : (keys.map xCoordinate).Nodup)
    (h : HonestWitness message keys required signatureHexes) :
    enoughSignatures message keys signatureHexes required = true := by
  obtain ⟨signers, sigs, hsub, hnodup, hle, hread, hsigs⟩ := h
  have hx_nodup : (signers.map xCoordinate).Nodup :=
    List.Nodup.map_on (fun a ha b hb => List.inj_on_of_nodup_map hdistinct (hsub ha) (hsub hb)) hnodup
  have hcount : ∀ k ∈ keys, sigs.countP (Crypto.verify k message) ≤ 1 := fun k _ =>
    (hx.countP_le hsigs k).trans (List.nodup_iff_count.1 hx_nodup _)
  obtain ⟨seen, hseen, hlen⟩ := verifyKeys_count hdistinct (fun k _ => List.not_mem_nil) hcount
  have hvalid : countValidSignatures message keys signatureHexes = some seen.length := by
    simp [countValidSignatures, hread, hseen]
  have henough : required.toNat ≤ seen.length := by
    have := signers_le hsub hnodup hsigs
    rw [hlen]
    omega
  simpa [enoughSignatures, hvalid] using henough

/-- A refund pathway opens for its keys when the lock has expired. -/
theorem refundPathAt_of_expired {locktime : Option UInt64} {refundKeys : List PublicKey} {numSigsRefund : Option UInt64}
    {now : UInt64} (h : Expired locktime now) : refundPathAt locktime refundKeys numSigsRefund now =
      some (if refundKeys = [] then .anyone else ⟨refundKeys, numSigsRefund.getD 1⟩) := by
  obtain ⟨t, rfl, hlt⟩ := h
  simp [refundPathAt, hlt]

/-- Enough honest signatures of a pathway unlock a P2PK input, and with the preimage those of the receivers an HTLC. -/
theorem honest_unlocks (hx : VerifiesOnce) :
    (∀ {secret c}, P2pkConditions.fromSecret secret = .ok c → ∀ message now signatureHexes,
      (HonestWitness message c.signingPubkeys c.requiredSigs signatureHexes ∨
        Expired c.locktime now ∧ HonestWitness message c.refundKeys (c.numSigsRefund.getD 1) signatureHexes) →
      verifyP2pkPathways message (c.requirementsAt now) signatureHexes = .ok ()) ∧
    ∀ {secret c}, HtlcConditions.fromSecret secret = .ok c → ∀ message now preimage signatureHexes witness,
      witness = some ⟨some preimage, some signatureHexes⟩ → c.matchesPreimage preimage = true →
      HonestWitness message c.pubkeys (c.requirementsAt now).requiredSigs signatureHexes →
      verifyHtlcPathways message (c.requirementsAt now) witness (preimageValid c witness) = .ok () := by
  constructor
  · intro secret c hc message now signatureHexes h
    have hwell := P2pkConditions.wellFormed hc
    unfold verifyP2pkPathways
    rcases h with hprimary | ⟨hexpired, hrefund⟩
    · have henough := hprimary.enough hx hwell.primary.distinct
      exact if_pos henough
    · have henough := hrefund.enough hx hwell.refund.distinct
      have hpath : (c.requirementsAt now).refundPath.any (fun refund =>
          enoughSignatures message refund.pubkeys signatureHexes refund.requiredSigs) = true := by
        have hopen : (c.requirementsAt now).refundPath = _ := refundPathAt_of_expired hexpired
        rw [hopen, Option.any_some]
        split
        · next hnil =>
          -- without refund keys the threshold is never met
          obtain ⟨signers, sigs, hsub, -, hle, -⟩ := hrefund
          rw [hnil, List.subset_nil] at hsub
          rw [hsub, List.length_nil, Nat.le_zero] at hle
          exact absurd (UInt64.toNat_inj.1 (hle.trans UInt64.toNat_zero.symm)) hwell.refund.getD_ne_zero
        · exact henough
      rw [if_pos hpath, ite_self]
  · rintro secret c hc message now preimage signatureHexes witness rfl hmatch h
    have henough := h.enough hx (HtlcConditions.wellFormed hc).receiver.distinct
    have hvalid : preimageValid c (some ⟨some preimage, some signatureHexes⟩) = true := by simpa [preimageValid] using hmatch
    have hsigned : verifyWitnessSignatures message c.pubkeys signatureHexes (c.requirementsAt now).requiredSigs = .ok () :=
      verifyWitnessSignatures_iff.2 henough
    unfold verifyHtlcPathways
    rw [hvalid, if_neg (by simp), if_pos rfl]
    split
    · rfl
    · exact hsigned

end

section toy
open Toy

/-- Locked to the key 7 until 50, and from then on to the key 9 too; spent by the key 7. -/
def waitingCoin : Proof :=
  { coin 1 (nut10 "P2PK" "020000000000000000000000000000000000000000000000000000000000000007"
      "[[\"locktime\",\"50\"],[\"refund\",\"020000000000000000000000000000000000000000000000000000000000000009\"]]") with
    witness := some "\x7b\"signatures\":[\"e2\"]\x7d" }

theorem verifySpendingConditions_later_toy : verifySpendingConditions [waitingCoin] none none 100 = .ok () := by
  have hnow : verifySpendingConditions [waitingCoin] none none 10 = .ok () := by decide +kernel
  exact verifySpendingConditions_later (by decide) hnow

theorem Toy.verifiesOnce : @VerifiesOnce Toy.crypto := by
  intro (k : UInt8) (k' : UInt8) message (sig : List UInt8) hk hk'
  have hsig : sig = [k + fold message] := of_decide_eq_true hk
  have hsig' : sig = [k' + fold message] := of_decide_eq_true hk'
  have hkey : k = k' := (UInt8.add_left_inj _).1 (List.singleton_inj.1 (hsig.symm.trans hsig'))
  rw [hkey]

/-- Two of the keys 7, 8 and 9, and after 50 the key 7 alone. -/
def sharedSecret : Secret := ⟨.p2pk, "n", pointHex (7 : UInt8), some [["n_sigs", "2"],
  ["pubkeys", pointHex (8 : UInt8), pointHex (9 : UInt8)], ["locktime", "50"], ["refund", pointHex (7 : UInt8)]]⟩

def sharedConditions : P2pkConditions :=
  ⟨(7 : UInt8), [(8 : UInt8), (9 : UInt8)], some 2, some 50, [(7 : UInt8)], none, .sigInputs⟩

/-- The preimage one, and one of the keys 7 and 8. -/
def receiversSecret : Secret := ⟨.htlc, "n", hashOfOne, some [["pubkeys", pointHex (7 : UInt8), pointHex (8 : UInt8)]]⟩

def receiversConditions : HtlcConditions := ⟨digest (bytes32 1), [(7 : UInt8), (8 : UInt8)], none, none, [], none, .sigInputs⟩

/-- The keys 9 and 7 sign, in this order, and after 50 the key 7 alone; the key 8 signs with the preimage. -/
theorem honest_unlocks_toy :
    verifyP2pkPathways [3] (sharedConditions.requirementsAt 10) ["0f", "0d"] = .ok () ∧
      verifyP2pkPathways [3] (sharedConditions.requirementsAt 60) ["0d"] = .ok () ∧
      verifyHtlcPathways [3] (receiversConditions.requirementsAt 10) (some ⟨some (Hex.encode (bytes32 1)), some ["0e"]⟩)
        (preimageValid receiversConditions (some ⟨some (Hex.encode (bytes32 1)), some ["0e"]⟩)) = .ok () := by
  have hp2pk : P2pkConditions.fromSecret sharedSecret = .ok sharedConditions := by decide +kernel
  have hhtlc : HtlcConditions.fromSecret receiversSecret = .ok receiversConditions := by decide +kernel
  have hprimary : HonestWitness [3] sharedConditions.signingPubkeys 2 ["0f", "0d"] :=
    ⟨[(9 : UInt8), (7 : UInt8)], [[15], [13]], by decide, by decide, by decide, rfl, .cons rfl (.cons rfl .nil)⟩
  have hrefund : HonestWitness [3] sharedConditions.refundKeys 1 ["0d"] :=
    ⟨[(7 : UInt8)], [[13]], by decide, by decide, by decide, rfl, .cons rfl .nil⟩
  have hreceiver : HonestWitness [3] receiversConditions.pubkeys 1 ["0e"] :=
    ⟨[(8 : UInt8)], [[14]], by decide, by decide, by decide, rfl, .cons rfl .nil⟩
  exact ⟨(honest_unlocks Toy.verifiesOnce).1 hp2pk [3] 10 _ (.inl hprimary),
    (honest_unlocks Toy.verifiesOnce).1 hp2pk [3] 60 _ (.inr ⟨⟨50, rfl, by decide⟩, hrefund⟩),
    (honest_unlocks Toy.verifiesOnce).2 hhtlc [3] 10 _ _ _ rfl (by decide +kernel) hreceiver⟩

end toy

end Micronuts
