import Micronuts.Mint.SpendingComplete
import Micronuts.Nuts.WitnessJson
import Micronuts.Wallet.Conditions

/-!
# The witnesses of the wallet against the check of the mint

Both sides read the conditions of a secret with the same code; what they do with them is written twice. A witness that
the wallet builds passes the mint's check at the same clock. The converse fails where the refund pathway is the one to
take: the wallet looks no further than a primary pathway with its own key, and no further than the preimage of an HTLC.
-/

namespace Micronuts

section
variable [Crypto]

/-- A transaction with this input alone, spent with `witness`. -/
def MintAccepts (proof : Proof) (witness : Option String) (now : UInt64) : Prop :=
  ∀ outputs quoteId, verifySpendingConditions [{ proof with witness }] outputs quoteId now = .ok ()

/-! ### The mint on one input -/

theorem verifySpendingConditions_single {proof : Proof} {lock : Option InputLock} {outputs : Option (List BlindedMessage)}
    {quoteId : Option String} {now : UInt64} (hlock : inputLock proof = .ok lock)
    (hflag : ∀ l, lock = some l → l.sigflag = .sigInputs) :
    verifySpendingConditions [proof] outputs quoteId now = .ok () ↔
      ∀ l, lock = some l → l.verify (asBytes l.proof.secret) l.proof.witness now = .ok () := by
  have hlocks : inputLocks [proof] = .ok lock.toList := by
    rw [inputLocks, hlock]
    simp [inputLocks, bind, Except.bind, pure, Except.pure]
  unfold verifySpendingConditions
  rw [hlocks]
  show (if lock.toList.any (·.sigflag = .sigAll) then _ else verifyInputsIndividually lock.toList now) = _ ↔ _
  rcases lock with - | l
  · simp [verifyInputsIndividually]
  · have hflag := hflag l rfl
    rw [if_neg (by simp [hflag])]
    simp only [Option.toList_some, verifyInputsIndividually, Except.bind_eq_ok, Option.some.injEq, forall_eq']
    exact ⟨fun ⟨_, h, _⟩ => h, fun h => ⟨(), h, trivial⟩⟩

theorem mintAccepts_ordinary {proof : Proof} {now : UInt64} (hparse : Secret.parse proof.secret = none) :
    MintAccepts proof none now := by
  intro outputs quoteId
  have hlock : inputLock { proof with witness := none } = .ok none := by simp [inputLock, hparse]
  refine (verifySpendingConditions_single hlock ?_).2 ?_
  · rintro l ⟨⟩
  · rintro l ⟨⟩

theorem mintAccepts_p2pk {proof : Proof} {secret : Secret} {c : P2pkConditions} {witness : Option String} {now : UInt64}
    (hparse : Secret.parse proof.secret = some secret) (hkind : secret.kind = .p2pk)
    (hc : P2pkConditions.fromSecret secret = .ok c) (hflag : c.sigflag = .sigInputs) :
    MintAccepts proof witness now ↔ verifyP2pk (asBytes proof.secret) (c.requirementsAt now) witness = .ok () := by
  have hlock : inputLock { proof with witness } = .ok (some (.p2pk { proof with witness } secret c)) := by
    simp [inputLock, hparse, hkind, hc]
  have hsingle : ∀ outputs quoteId, verifySpendingConditions [{ proof with witness }] outputs quoteId now = .ok () ↔
      verifyP2pk (asBytes proof.secret) (c.requirementsAt now) witness = .ok () := by
    intro outputs quoteId
    rw [verifySpendingConditions_single hlock (by rintro l ⟨⟩; exact hflag)]
    exact ⟨fun h => h _ rfl, by rintro h l ⟨⟩; exact h⟩
  exact ⟨fun h => (hsingle none none).1 (h none none), fun h outputs quoteId => (hsingle outputs quoteId).2 h⟩

theorem mintAccepts_htlc {proof : Proof} {secret : Secret} {c : HtlcConditions} {witness : Option String} {now : UInt64}
    (hparse : Secret.parse proof.secret = some secret) (hkind : secret.kind = .htlc)
    (hc : HtlcConditions.fromSecret secret = .ok c) (hflag : c.sigflag = .sigInputs) :
    MintAccepts proof witness now ↔ verifyHtlc (asBytes proof.secret) (c.requirementsAt now) c witness = .ok () := by
  have hlock : inputLock { proof with witness } = .ok (some (.htlc { proof with witness } secret c)) := by
    simp [inputLock, hparse, hkind, hc]
  have hsingle : ∀ outputs quoteId, verifySpendingConditions [{ proof with witness }] outputs quoteId now = .ok () ↔
      verifyHtlc (asBytes proof.secret) (c.requirementsAt now) c witness = .ok () := by
    intro outputs quoteId
    rw [verifySpendingConditions_single hlock (by rintro l ⟨⟩; exact hflag)]
    exact ⟨fun h => h _ rfl, by rintro h l ⟨⟩; exact h⟩
  exact ⟨fun h => (hsingle none none).1 (h none none), fun h outputs quoteId => (hsingle outputs quoteId).2 h⟩

/-! ### One signature -/

theorem refundPathAt_distinct {locktime : Option UInt64} {refundKeys : List PublicKey} {numSigsRefund : Option UInt64}
    {now : UInt64} {refund : RefundPath} (h : refundPathAt locktime refundKeys numSigsRefund now = some refund)
    (hsat : Satisfiable refundKeys numSigsRefund) : (refund.pubkeys.map xCoordinate).Nodup := by
  obtain ⟨-, ⟨-, rfl⟩ | ⟨-, rfl⟩⟩ := refundPathAt_some h
  · exact List.nodup_nil
  · exact hsat.distinct

variable [Bip340]

/-- The identity's signatures are read back, and verify under every key with its x-coordinate. -/
def SignatureVerifies (identity : SigningKey) (message : List UInt8) : Prop :=
  ∀ sig, Bip340.signPrehash identity (Crypto.sha256 message) = some sig →
    Crypto.signatureFromStr (Hex.encode (Bip340.signatureBytes sig)) = some sig ∧
      ∀ p, xCoordinate p = Bip340.verifyingKey identity → Crypto.verify p message sig = true

theorem signIdentity_ok {identity : SigningKey} {raw hex : String} (h : signIdentity identity raw = .ok hex) :
    ∃ sig, Bip340.signPrehash identity (Crypto.sha256 (asBytes raw)) = some sig ∧
      hex = Hex.encode (Bip340.signatureBytes sig) := by
  obtain ⟨sig, hsig, h⟩ := Except.bind_eq_ok.1 h
  cases h
  exact ⟨sig, Except.okOr_eq_ok.1 hsig, rfl⟩

theorem enough_identity {identity : SigningKey} {raw hex : String} {keys : List PublicKey}
    (hsign : SignatureVerifies identity (asBytes raw)) (h : signIdentity identity raw = .ok hex)
    (hnodup : (keys.map xCoordinate).Nodup) (hkey : pathHoldsIdentity keys identity = true) :
    enoughSignatures (asBytes raw) keys [hex] 1 = true := by
  obtain ⟨sig, hsig, rfl⟩ := signIdentity_ok h
  obtain ⟨hread, hverify⟩ := hsign sig hsig
  obtain ⟨p, hp, hx⟩ := List.any_eq_true.1 hkey
  have honce : ∀ k ∈ keys, [sig].countP (Crypto.verify k (asBytes raw)) ≤ 1 := fun k _ => List.countP_le_length
  obtain ⟨seen, hseen, hlen⟩ := verifyKeys_count hnodup (fun k _ => List.not_mem_nil) honce
  have hpos : 0 < keys.countP fun k => [sig].any (Crypto.verify k (asBytes raw)) :=
    List.countP_pos_iff.2 ⟨p, hp, by simpa using hverify p (of_decide_eq_true hx)⟩
  have hcount : countValidSignatures (asBytes raw) keys [Hex.encode (Bip340.signatureBytes sig)] = some seen.length := by
    simp [countValidSignatures, hread, hseen]
  rw [enoughSignatures, hcount]
  have : 1 ≤ seen.length := by rw [hlen]; omega
  simpa using this

/-! ### The wallet's witnesses pass -/

theorem identityWitness_ok {identity : SigningKey} {raw : String} {witness : Option String}
    (h : identityWitness identity raw = .ok witness) :
    ∃ hex, signIdentity identity raw = .ok hex ∧ witness.bind P2pkWitness.fromJson = some ⟨[hex]⟩ := by
  obtain ⟨hex, hhex, h⟩ := Except.bind_eq_ok.1 h
  cases h
  obtain ⟨sig, -, hsig⟩ := signIdentity_ok hhex
  refine ⟨hex, hhex, P2pkWitness.fromJson_toJson (List.forall_mem_singleton.2 ?_)⟩
  rw [hsig]
  exact hexText_encode _

/-! ### When the wallet has a witness -/

/-- The pathway asks for one signature, by the identity. -/
def OwnPath (keys : List PublicKey) (required : UInt64) (identity : SigningKey) : Prop :=
  required = 1 ∧ pathHoldsIdentity keys identity = true

def OwnRefund (requirements : SpendingRequirements) (identity : SigningKey) : Prop :=
  ∃ refund, requirements.refundPath = some refund ∧ OwnPath refund.pubkeys refund.requiredSigs identity

theorem p2pkWitness_iff {raw : String} {secret : Secret} {ctx : UnlockContext} {c : P2pkConditions}
    {witness : Option String} (hc : P2pkConditions.fromSecret secret = .ok c) (hflag : c.sigflag = .sigInputs) :
    p2pkWitness raw secret ctx = .ok witness ↔
      (isAnyoneCanSpend (c.requirementsAt ctx.now) = true ∧ witness = none) ∨
      (isAnyoneCanSpend (c.requirementsAt ctx.now) = false ∧
        (OwnPath c.signingPubkeys c.requiredSigs ctx.identity ∨
          pathHoldsIdentity c.signingPubkeys ctx.identity = false ∧ OwnRefund (c.requirementsAt ctx.now) ctx.identity) ∧
        identityWitness ctx.identity raw = .ok witness) := by
  have hne : c.requiredSigs ≠ 0 := (P2pkConditions.wellFormed hc).primary.getD_ne_zero
  unfold p2pkWitness
  rw [hc]
  dsimp only
  rw [if_neg (by rw [hflag]; decide)]
  rcases hopen : isAnyoneCanSpend (c.requirementsAt ctx.now) with - | -
  · show (if pathHoldsIdentity c.signingPubkeys ctx.identity = true then _ else _) = _ ↔ _
    rcases hprimary : pathHoldsIdentity c.signingPubkeys ctx.identity with - | -
    · have hown : ¬ OwnPath c.signingPubkeys c.requiredSigs ctx.identity := by simp [OwnPath, hprimary]
      rcases hrefund : (c.requirementsAt ctx.now).refundPath with - | refund
      · simp [hown, OwnRefund, hrefund]
      · by_cases hpath : OwnPath refund.pubkeys refund.requiredSigs ctx.identity
        · have hsplit : refund.requiredSigs = 1 ∧ pathHoldsIdentity refund.pubkeys ctx.identity = true := hpath
          have hrefund : OwnRefund (c.requirementsAt ctx.now) ctx.identity := ⟨refund, hrefund, hpath⟩
          simp [hown, hrefund, hsplit]
        · have hsplit : ¬ (refund.requiredSigs = 1 ∧ pathHoldsIdentity refund.pubkeys ctx.identity = true) := hpath
          have hrefund : ¬ OwnRefund (c.requirementsAt ctx.now) ctx.identity := by
            rintro ⟨refund', hrefund', hpath'⟩
            rw [hrefund] at hrefund'; cases hrefund'
            exact hpath hpath'
          rw [if_neg (by decide)]
          dsimp only
          rw [if_neg hsplit]
          split <;> simp [hown, hrefund]
    · rw [if_pos rfl]
      show (if c.requiredSigs = 0 then _ else if c.requiredSigs = 1 then _ else _) = _ ↔ _
      rw [if_neg hne]
      by_cases hone : c.requiredSigs = 1
      · have hown : OwnPath c.signingPubkeys c.requiredSigs ctx.identity := ⟨hone, hprimary⟩
        rw [if_pos hone]
        simp [hown]
      · have hown : ¬ OwnPath c.signingPubkeys c.requiredSigs ctx.identity := fun h => hone h.1
        rw [if_neg hone]
        simp [hown]
  · constructor
    · intro h
      cases h; exact .inl ⟨rfl, rfl⟩
    · rintro (⟨-, rfl⟩ | ⟨h, -⟩)
      · rfl
      · cases h

theorem p2pkWitness_accepted {raw : String} {secret : Secret} {ctx : UnlockContext} {c : P2pkConditions}
    {witness : Option String} (hc : P2pkConditions.fromSecret secret = .ok c) (hflag : c.sigflag = .sigInputs)
    (hsign : SignatureVerifies ctx.identity (asBytes raw)) (h : p2pkWitness raw secret ctx = .ok witness) :
    verifyP2pk (asBytes raw) (c.requirementsAt ctx.now) witness = .ok () := by
  have hwf := P2pkConditions.wellFormed hc
  rcases (p2pkWitness_iff hc hflag).1 h with ⟨hopen, -⟩ | ⟨-, hpath, hwitness⟩
  · exact verifyP2pk_iff.2 (.inl hopen)
  · obtain ⟨hex, hhex, hread⟩ := identityWitness_ok hwitness
    refine verifyP2pk_iff.2 (.inr ⟨_, hread, ?_⟩)
    rcases hpath with ⟨hone, hkey⟩ | ⟨-, refund, hrefund, hone, hkey⟩
    · left
      show enoughSignatures _ c.signingPubkeys [hex] c.requiredSigs = true
      rw [hone]
      exact enough_identity hsign hhex hwf.primary.distinct hkey
    · right
      refine ⟨refund, hrefund, ?_⟩
      rw [hone]
      exact enough_identity hsign hhex (refundPathAt_distinct hrefund hwf.refund) hkey

/-- The receivers of an HTLC are the identity alone, or there are none. -/
def OwnReceiver (requirements : SpendingRequirements) (identity : SigningKey) : Prop :=
  requirements.requiredSigs = 0 ∨ OwnPath requirements.pubkeys requirements.requiredSigs identity

theorem receiverSignatures_ok {requirements : SpendingRequirements} {identity : SigningKey} {raw : String}
    {signatures : Option (List String)} (h : receiverSignatures requirements identity raw = .ok signatures) :
    (requirements.requiredSigs = 0 ∧ signatures = none) ∨
      OwnPath requirements.pubkeys requirements.requiredSigs identity ∧
        ∃ hex, signIdentity identity raw = .ok hex ∧ signatures = some [hex] := by
  unfold receiverSignatures at h
  split at h
  · next hzero => cases h; exact .inl ⟨hzero, rfl⟩
  · split at h
    · next hone =>
      split at h
      · next hkey =>
        obtain ⟨hex, hhex, h⟩ := Except.bind_eq_ok.1 h
        cases h; exact .inr ⟨⟨hone, hkey⟩, hex, hhex, rfl⟩
      · cases h
    · cases h

/-- Nothing for a lock open to anyone, or the preimage with the receivers' signatures. -/
theorem htlcWitness_iff {raw : String} {secret : Secret} {ctx : UnlockContext} {c : HtlcConditions}
    {witness : Option String} (hc : HtlcConditions.fromSecret secret = .ok c) (hflag : c.sigflag = .sigInputs) :
    htlcWitness raw secret ctx = .ok witness ↔
      (ctx.preimage = none ∧ isAnyoneCanSpend (c.requirementsAt ctx.now) = true ∧ witness = none) ∨
        ∃ preimage signatures, ctx.preimage = some preimage ∧ c.matchesPreimage preimage = true ∧
          receiverSignatures (c.requirementsAt ctx.now) ctx.identity raw = .ok signatures ∧
          witness = some (HtlcWitness.toJson ⟨some preimage, signatures⟩) := by
  unfold htlcWitness
  rw [hc]
  dsimp only
  rw [if_neg (by rw [hflag]; decide)]
  rcases hpreimage : ctx.preimage with - | preimage
  · dsimp only
    split
    · next hopen =>
      constructor
      · intro h
        cases h; exact .inl ⟨rfl, hopen, rfl⟩
      · rintro (⟨-, -, rfl⟩ | ⟨_, _, h, -⟩)
        · rfl
        · cases h
    · next hopen => simp [hopen]
  · dsimp only
    by_cases hmatch : c.matchesPreimage preimage = true
    · rw [if_neg (not_not.2 hmatch), Except.bind_eq_ok]
      constructor
      · rintro ⟨signatures, hsigs, h⟩
        cases h; exact .inr ⟨preimage, signatures, rfl, hmatch, hsigs, rfl⟩
      · rintro (⟨h, -⟩ | ⟨_, signatures, h, -, hsigs, rfl⟩)
        · cases h
        · cases h; exact ⟨signatures, hsigs, rfl⟩
    · simp [hmatch]

omit [Bip340] in
theorem hexText_of_matches {c : HtlcConditions} {preimage : String} (h : c.matchesPreimage preimage = true) :
    HexText preimage := by
  unfold HtlcConditions.matchesPreimage at h
  split at h
  · next bytes hbytes =>
    obtain ⟨_, hdecode, -⟩ := Option.bind_eq_some_iff.1 hbytes
    exact hexText_of_decode hdecode
  · cases h

theorem htlcWitness_accepted {raw : String} {secret : Secret} {ctx : UnlockContext} {c : HtlcConditions}
    {witness : Option String} (hc : HtlcConditions.fromSecret secret = .ok c) (hflag : c.sigflag = .sigInputs)
    (hsign : SignatureVerifies ctx.identity (asBytes raw)) (h : htlcWitness raw secret ctx = .ok witness) :
    verifyHtlc (asBytes raw) (c.requirementsAt ctx.now) c witness = .ok () := by
  have hwf := HtlcConditions.wellFormed hc
  rcases (htlcWitness_iff hc hflag).1 h with ⟨-, hopen, rfl⟩ | ⟨preimage, signatures, -, hmatch, hsigs, rfl⟩
  · exact verifyHtlc_iff.2 (.inr ⟨rfl, .inl hopen⟩)
  · have hsigHex : ∀ l, signatures = some l → ∀ s ∈ l, HexText s := by
      rcases receiverSignatures_ok hsigs with ⟨-, rfl⟩ | ⟨-, hex, hsign, rfl⟩
      · rintro l ⟨⟩
      · rintro l ⟨⟩
        obtain ⟨sig, -, rfl⟩ := signIdentity_ok hsign
        exact List.forall_mem_singleton.2 (hexText_encode _)
    have hread : HtlcWitness.fromJson (HtlcWitness.toJson ⟨some preimage, signatures⟩) =
        some ⟨some preimage, signatures⟩ :=
      HtlcWitness.fromJson_toJson (by rintro p ⟨⟩; exact hexText_of_matches hmatch) hsigHex (.inl (by simp))
    refine verifyHtlc_iff.2 (.inl ?_)
    rw [Option.bind_some, hread]
    refine ⟨hmatch, ?_⟩
    rcases receiverSignatures_ok hsigs with ⟨hzero, -⟩ | ⟨⟨hone, hkey⟩, hex, hhex, rfl⟩
    · exact .inl hzero
    · refine .inr ⟨[hex], rfl, ?_⟩
      rw [hone]
      exact enough_identity hsign hhex hwf.receiver.distinct hkey

/-! ### Every witness of the wallet -/

omit [Crypto] [Bip340] in
theorem sigInputs_of_ne {flag : SigFlag} (h : flag ≠ .sigAll) : flag = .sigInputs := by
  cases flag with
  | sigInputs => rfl
  | sigAll => exact absurd rfl h

theorem p2pkWitness_reads {raw : String} {secret : Secret} {ctx : UnlockContext} {witness : Option String}
    (h : p2pkWitness raw secret ctx = .ok witness) :
    ∃ c, P2pkConditions.fromSecret secret = .ok c ∧ c.sigflag = .sigInputs := by
  unfold p2pkWitness at h
  split at h
  · cases h
  · next c hc =>
    split at h
    · cases h
    · next hflag => exact ⟨c, hc, sigInputs_of_ne hflag⟩

theorem htlcWitness_reads {raw : String} {secret : Secret} {ctx : UnlockContext} {witness : Option String}
    (h : htlcWitness raw secret ctx = .ok witness) :
    ∃ c, HtlcConditions.fromSecret secret = .ok c ∧ c.sigflag = .sigInputs := by
  unfold htlcWitness at h
  split at h
  · cases h
  · next c hc =>
    split at h
    · cases h
    · next hflag => exact ⟨c, hc, sigInputs_of_ne hflag⟩

/-- Whatever the secret, the mint takes the witness that the wallet builds for it. -/
theorem witness_accepted {proof : Proof} {ctx : UnlockContext} {witness : Option String}
    (hsign : SignatureVerifies ctx.identity (asBytes proof.secret))
    (h : witnessForSecret proof.secret ctx = .ok witness) : MintAccepts proof witness ctx.now := by
  unfold witnessForSecret at h
  split at h
  · next hparse => cases h; exact mintAccepts_ordinary hparse
  · next secret hparse =>
    split at h
    · next hkind =>
      obtain ⟨c, hc, hflag⟩ := p2pkWitness_reads h
      exact (mintAccepts_p2pk hparse hkind hc hflag).2 (p2pkWitness_accepted hc hflag hsign h)
    · next hkind =>
      obtain ⟨c, hc, hflag⟩ := htlcWitness_reads h
      exact (mintAccepts_htlc hparse hkind hc hflag).2 (htlcWitness_accepted hc hflag hsign h)

end

section toy
open Toy

theorem Toy.verifyingKey_eq {p k : UInt8} (h : xCoordinate p = Bip340.verifyingKey k) : p = k := by
  have hdrop : (bytes33 p).drop 1 = (bytes33 k).drop 1 := h
  have hlast : List.replicate 31 (0 : UInt8) ++ [p] = List.replicate 31 0 ++ [k] := hdrop
  exact List.singleton_inj.1 (List.append_cancel_left hlast)

theorem Toy.signatureVerifies (k : UInt8) {message : List UInt8} (h : message ≠ bytes32 1) :
    SignatureVerifies k message := by
  rintro sig ⟨⟩
  refine ⟨Hex.decode_encode _, fun p hp => ?_⟩
  obtain rfl := (Toy.verifyingKey_eq hp).symm
  have hdigest : digest message = message := if_neg h
  show decide ([k + fold (digest message)] = [k + fold message]) = true
  rw [hdigest, decide_eq_true rfl]

/-- Locked to the key 9 until 50, and to the refund key 7 from then on. -/
def refundableCoin : Proof :=
  coin 1 (nut10 "P2PK" "020000000000000000000000000000000000000000000000000000000000000009"
    "[[\"locktime\",\"50\"],[\"refund\",\"020000000000000000000000000000000000000000000000000000000000000007\"]]")

theorem witness_accepted_toy : MintAccepts refundableCoin (some "\x7b\"signatures\":[\"ee\"]\x7d") 100 := by
  have hsign : SignatureVerifies (7 : UInt8) (asBytes refundableCoin.secret) :=
    Toy.signatureVerifies 7 (by decide +kernel)
  have hwitness : witnessForSecret refundableCoin.secret ⟨(7 : UInt8), none, 100⟩ =
      .ok (some "\x7b\"signatures\":[\"ee\"]\x7d") := by decide +kernel
  exact @witness_accepted _ _ refundableCoin ⟨(7 : UInt8), none, 100⟩ _ hsign hwitness

end toy

end Micronuts
