import Micronuts.Wallet.Unlocking

/-!
# Locks that the mint would open and the wallet does not

A witness is the wallet's own when it holds nothing but the identity's signatures and the preimage that was given.
The mint takes such a witness on the primary pathway of a P2PK lock, on the receivers' pathway of an HTLC, and on the
refund pathway of either. The wallet builds one for some of these only; `Answered` says when none is left out.
-/

namespace Micronuts

section
variable [Crypto] [Bip340]

/-! ### Own witnesses -/

/-- A signature of the identity: of the keys it verifies under those with the identity's x-coordinate. -/
def OwnSignature (keys : List PublicKey) (identity : SigningKey) (message : List UInt8) (hex : String) : Prop :=
  ∃ sig, Crypto.signatureFromStr hex = some sig ∧
    ∀ p ∈ keys, Crypto.verify p message sig = true ↔ xCoordinate p = Bip340.verifyingKey identity

def InputLock.keys : InputLock → List PublicKey
  | .p2pk _ _ c => c.signingPubkeys ++ c.refundKeys
  | .htlc _ _ c => c.pubkeys ++ c.refundKeys

/-- Nothing in the witness but the identity's signatures on the secret and the preimage at hand. -/
def OwnWitness (lock : InputLock) (ctx : UnlockContext) (witness : Option String) : Prop :=
  match lock with
  | .p2pk proof .. => ∀ w, witness.bind P2pkWitness.fromJson = some w →
      ∀ hex ∈ w.signatures, OwnSignature lock.keys ctx.identity (asBytes proof.secret) hex
  | .htlc proof .. => ∀ w, witness.bind HtlcWitness.fromJson = some w →
      (∀ preimage, w.preimage = some preimage → ctx.preimage = some preimage) ∧
        ∀ hex ∈ w.signatures.getD [], OwnSignature lock.keys ctx.identity (asBytes proof.secret) hex

/-- The wallet has an answer for every lock that a witness of its own would open. -/
def WalletComplete (proof : Proof) (lock : InputLock) (ctx : UnlockContext) : Prop :=
  (∃ witness, OwnWitness lock ctx witness ∧ MintAccepts proof witness ctx.now) →
    ∃ witness, witnessForSecret proof.secret ctx = .ok witness ∧ MintAccepts proof witness ctx.now

/-- The identity signs, and its signatures verify under no other key of the lock. -/
structure SignsAs (identity : SigningKey) (message : List UInt8) (keys : List PublicKey) : Prop where
  verifies : SignatureVerifies identity message
  signs : ∃ sig, Bip340.signPrehash identity (Crypto.sha256 message) = some sig
  own : ∀ sig, Bip340.signPrehash identity (Crypto.sha256 message) = some sig →
    ∀ p ∈ keys, Crypto.verify p message sig = true → xCoordinate p = Bip340.verifyingKey identity

theorem SignsAs.signIdentity {identity : SigningKey} {raw : String} {keys : List PublicKey}
    (h : SignsAs identity (asBytes raw) keys) :
    ∃ hex, Micronuts.signIdentity identity raw = .ok hex ∧ HexText hex ∧
      OwnSignature keys identity (asBytes raw) hex := by
  obtain ⟨sig, hsig⟩ := h.signs
  obtain ⟨hread, hverify⟩ := h.verifies sig hsig
  refine ⟨Hex.encode (Bip340.signatureBytes sig), ?_, hexText_encode _, sig, hread, fun p hp => ?_⟩
  · rw [Micronuts.signIdentity, hsig]; rfl
  · exact ⟨h.own sig hsig p hp, hverify p⟩

/-- Signatures of one identity meet a threshold of one at most. -/
theorem ownPath_of_enough {identity : SigningKey} {message : List UInt8} {keys path : List PublicKey}
    {signatureHexes : List String} {required : UInt64} (hpath : path ⊆ keys)
    (hown : ∀ hex ∈ signatureHexes, OwnSignature keys identity message hex)
    (h : enoughSignatures message path signatureHexes required = true) (hne : required ≠ 0) :
    OwnPath path required identity := by
  obtain ⟨signers, hsub, hnodup, hle, hsigned⟩ := signedBy_of_enough h
  have hx : ∀ k ∈ signers, xCoordinate k = Bip340.verifyingKey identity := by
    intro k hk
    obtain ⟨hex, hhex, sig, hread, hverify⟩ := hsigned k hk
    obtain ⟨sig', hread', hiff⟩ := hown hex hhex
    obtain rfl : sig = sig' := Option.some.inj (hread.symm.trans hread')
    exact (hiff k (hpath (hsub hk))).1 hverify
  have hpos : 0 < required.toNat := Nat.pos_of_ne_zero fun h0 => hne (UInt64.toNat_inj.1 h0)
  -- two signers would share the x-coordinate
  match signers, hnodup, hx, hle, hsub with
  | [], _, _, hle, _ => exact absurd hle (by simpa using Nat.not_le.2 hpos)
  | [k], _, hx, hle, hsub =>
    rw [List.length_singleton] at hle
    refine ⟨UInt64.toNat_inj.1 (Nat.le_antisymm hle hpos), List.any_eq_true.2 ⟨k, hsub (by simp), ?_⟩⟩
    exact decide_eq_true (hx k (by simp))
  | k :: k' :: _, hnodup, hx, _, _ =>
    have heq : xCoordinate k = xCoordinate k' := (hx k (by simp)).trans (hx k' (by simp)).symm
    simp [heq] at hnodup

/-! ### P2PK -/

omit [Bip340] in
theorem refundPathAt_keys {locktime : Option UInt64} {refundKeys : List PublicKey} {numSigsRefund : Option UInt64}
    {now : UInt64} {refund : RefundPath} (h : refundPathAt locktime refundKeys numSigsRefund now = some refund) :
    refund.pubkeys ⊆ refundKeys := by
  obtain ⟨-, ⟨-, rfl⟩ | ⟨-, rfl⟩⟩ := refundPathAt_some h
  · exact List.nil_subset _
  · exact List.Subset.refl _

omit [Bip340] in
/-- A refund pathway without a threshold is open to anyone. -/
theorem anyoneCanSpend_of_zero {requirements : SpendingRequirements} {refund : RefundPath}
    (hrefund : requirements.refundPath = some refund) (hzero : refund.requiredSigs = 0) :
    isAnyoneCanSpend requirements = true := by
  unfold isAnyoneCanSpend
  rw [hrefund]
  exact decide_eq_true hzero

section p2pk
variable {proof : Proof} {secret : Secret} {c : P2pkConditions} {ctx : UnlockContext}

theorem p2pk_own_iff (hc : P2pkConditions.fromSecret secret = .ok c)
    (hsign : SignsAs ctx.identity (asBytes proof.secret) (c.signingPubkeys ++ c.refundKeys)) :
    (∃ witness, OwnWitness (.p2pk proof secret c) ctx witness ∧
      verifyP2pk (asBytes proof.secret) (c.requirementsAt ctx.now) witness = .ok ()) ↔
    isAnyoneCanSpend (c.requirementsAt ctx.now) = true ∨ OwnPath c.signingPubkeys c.requiredSigs ctx.identity ∨
      OwnRefund (c.requirementsAt ctx.now) ctx.identity := by
  have hwf := P2pkConditions.wellFormed hc
  constructor
  · rintro ⟨witness, hown, haccept⟩
    rcases verifyP2pk_iff.1 haccept with hopen | ⟨w, hread, hprimary | ⟨refund, hrefund, henough⟩⟩
    · exact .inl hopen
    · right; left
      exact ownPath_of_enough (List.subset_append_left ..) (hown w hread) hprimary hwf.primary.getD_ne_zero
    · by_cases hzero : refund.requiredSigs = 0
      · exact .inl (anyoneCanSpend_of_zero hrefund hzero)
      · right; right
        refine ⟨refund, hrefund, ownPath_of_enough ?_ (hown w hread) henough hzero⟩
        exact List.Subset.trans (refundPathAt_keys hrefund) (List.subset_append_right ..)
  · rintro (hopen | hpath)
    · exact ⟨none, by rintro w ⟨⟩, verifyP2pk_iff.2 (.inl hopen)⟩
    · obtain ⟨hex, hhex, htext, hown⟩ := hsign.signIdentity
      have hread : P2pkWitness.fromJson (P2pkWitness.toJson ⟨[hex]⟩) = some ⟨[hex]⟩ :=
        P2pkWitness.fromJson_toJson (List.forall_mem_singleton.2 htext)
      refine ⟨some (P2pkWitness.toJson ⟨[hex]⟩), ?_, verifyP2pk_iff.2 (.inr ⟨⟨[hex]⟩, hread, ?_⟩)⟩
      · intro w hw
        rw [Option.bind_some, hread] at hw
        cases hw
        exact List.forall_mem_singleton.2 hown
      · rcases hpath with ⟨hone, hkey⟩ | ⟨refund, hrefund, hone, hkey⟩
        · left
          show enoughSignatures _ c.signingPubkeys [hex] c.requiredSigs = true
          rw [hone]
          exact enough_identity hsign.verifies hhex hwf.primary.distinct hkey
        · right
          refine ⟨refund, hrefund, ?_⟩
          rw [hone]
          exact enough_identity hsign.verifies hhex (refundPathAt_distinct hrefund hwf.refund) hkey

theorem p2pkWitness_isOk (hc : P2pkConditions.fromSecret secret = .ok c) (hflag : c.sigflag = .sigInputs)
    {raw hex : String} (hhex : signIdentity ctx.identity raw = .ok hex) :
    (∃ witness, p2pkWitness raw secret ctx = .ok witness) ↔
      isAnyoneCanSpend (c.requirementsAt ctx.now) = true ∨ OwnPath c.signingPubkeys c.requiredSigs ctx.identity ∨
        pathHoldsIdentity c.signingPubkeys ctx.identity = false ∧ OwnRefund (c.requirementsAt ctx.now) ctx.identity := by
  have hwitness : identityWitness ctx.identity raw = .ok (some (P2pkWitness.toJson ⟨[hex]⟩)) := by
    rw [identityWitness, hhex]; rfl
  constructor
  · rintro ⟨witness, h⟩
    rcases (p2pkWitness_iff hc hflag).1 h with ⟨hopen, -⟩ | ⟨-, hpath, -⟩
    · exact .inl hopen
    · exact .inr hpath
  · intro h
    by_cases hopen : isAnyoneCanSpend (c.requirementsAt ctx.now) = true
    · exact ⟨none, (p2pkWitness_iff hc hflag).2 (.inl ⟨hopen, rfl⟩)⟩
    · have hpath := h.resolve_left hopen
      exact ⟨_, (p2pkWitness_iff hc hflag).2 (.inr ⟨eq_false_of_ne_true hopen, hpath, hwitness⟩)⟩

end p2pk

/-! ### HTLC -/

/-- The preimage that the wallet was given opens the hash lock. -/
def Supplied (c : HtlcConditions) (ctx : UnlockContext) : Prop :=
  ∃ preimage, ctx.preimage = some preimage ∧ c.matchesPreimage preimage = true

section htlc
variable {proof : Proof} {secret : Secret} {c : HtlcConditions} {ctx : UnlockContext}

theorem htlc_own_iff (hc : HtlcConditions.fromSecret secret = .ok c)
    (hsign : SignsAs ctx.identity (asBytes proof.secret) (c.pubkeys ++ c.refundKeys)) :
    (∃ witness, OwnWitness (.htlc proof secret c) ctx witness ∧
      verifyHtlc (asBytes proof.secret) (c.requirementsAt ctx.now) c witness = .ok ()) ↔
    isAnyoneCanSpend (c.requirementsAt ctx.now) = true ∨ OwnRefund (c.requirementsAt ctx.now) ctx.identity ∨
      Supplied c ctx ∧ OwnReceiver (c.requirementsAt ctx.now) ctx.identity := by
  have hwf := HtlcConditions.wellFormed hc
  constructor
  · rintro ⟨witness, hown, haccept⟩
    rcases verifyHtlc_iff.1 haccept with ⟨hvalid, hreceivers⟩ | ⟨-, hopen | ⟨refund, hrefund, signatures, hsigs, henough⟩⟩
    · right; right
      obtain ⟨preimage, hpreimage, hmatch⟩ := Option.any_eq_true _ _ |>.1 hvalid
      obtain ⟨w, hread, hpreimage⟩ := Option.bind_eq_some_iff.1 hpreimage
      refine ⟨⟨preimage, (hown w hread).1 preimage hpreimage, hmatch⟩, ?_⟩
      by_cases hzero : (c.requirementsAt ctx.now).requiredSigs = 0
      · exact .inl hzero
      rcases hreceivers with h | ⟨signatures, hsigs, henough⟩
      · exact absurd h hzero
      · right
        rw [hread, Option.bind_some] at hsigs
        have hhexes := (hown w hread).2
        rw [hsigs] at hhexes
        exact ownPath_of_enough (List.subset_append_left ..) hhexes henough hzero
    · exact .inl hopen
    · by_cases hzero : refund.requiredSigs = 0
      · exact .inl (anyoneCanSpend_of_zero hrefund hzero)
      · right; left
        obtain ⟨w, hread, hsigs⟩ := Option.bind_eq_some_iff.1 hsigs
        have hhexes := (hown w hread).2
        rw [hsigs] at hhexes
        refine ⟨refund, hrefund, ownPath_of_enough ?_ hhexes henough hzero⟩
        exact List.Subset.trans (refundPathAt_keys hrefund) (List.subset_append_right ..)
  · obtain ⟨hex, hhex, htext, hown⟩ := hsign.signIdentity
    rintro (hopen | ⟨refund, hrefund, hone, hkey⟩ | ⟨⟨preimage, hpreimage, hmatch⟩, hreceiver⟩)
    · exact ⟨none, by rintro w ⟨⟩, verifyHtlc_iff.2 (.inr ⟨rfl, .inl hopen⟩)⟩
    · have hread : HtlcWitness.fromJson (HtlcWitness.toJson ⟨none, some [hex]⟩) = some ⟨none, some [hex]⟩ := by
        refine HtlcWitness.fromJson_toJson (by rintro p ⟨⟩) ?_ (.inr (by simp))
        rintro l ⟨⟩
        exact List.forall_mem_singleton.2 htext
      refine ⟨some (HtlcWitness.toJson ⟨none, some [hex]⟩), ?_, verifyHtlc_iff.2 (.inr ?_)⟩
      · intro w hw
        rw [Option.bind_some, hread] at hw
        cases hw
        exact ⟨by rintro p ⟨⟩, List.forall_mem_singleton.2 hown⟩
      · rw [Option.bind_some, hread]
        refine ⟨rfl, .inr ⟨refund, hrefund, [hex], rfl, ?_⟩⟩
        rw [hone]
        exact enough_identity hsign.verifies hhex (refundPathAt_distinct hrefund hwf.refund) hkey
    · obtain ⟨signatures, hmem, hmet⟩ : ∃ signatures : Option (List String), (∀ l, signatures = some l → l = [hex]) ∧
          ((c.requirementsAt ctx.now).requiredSigs = 0 ∨ ∃ l, signatures = some l ∧ enoughSignatures
            (asBytes proof.secret) c.pubkeys l (c.requirementsAt ctx.now).requiredSigs = true) := by
        rcases hreceiver with hzero | ⟨hone, hkey⟩
        · exact ⟨none, by simp, .inl hzero⟩
        · refine ⟨some [hex], by simp, .inr ⟨[hex], rfl, ?_⟩⟩
          rw [hone]
          exact enough_identity hsign.verifies hhex hwf.receiver.distinct hkey
      have hread : HtlcWitness.fromJson (HtlcWitness.toJson ⟨some preimage, signatures⟩) =
          some ⟨some preimage, signatures⟩ := by
        refine HtlcWitness.fromJson_toJson ?_ ?_ (.inl (by simp))
        · rintro p ⟨⟩
          exact hexText_of_matches hmatch
        · intro l hl
          rw [hmem l hl]
          exact List.forall_mem_singleton.2 htext
      refine ⟨some (HtlcWitness.toJson ⟨some preimage, signatures⟩), ?_, verifyHtlc_iff.2 (.inl ?_)⟩
      · intro w hw
        rw [Option.bind_some, hread] at hw
        cases hw
        refine ⟨by rintro p ⟨⟩; exact hpreimage, ?_⟩
        rcases signatures with - | l
        · simp
        · rw [Option.getD_some, hmem l rfl]
          exact List.forall_mem_singleton.2 hown
      · rw [Option.bind_some, hread]
        exact ⟨hmatch, hmet⟩

theorem receiverSignatures_isOk {requirements : SpendingRequirements} {identity : SigningKey} {raw hex : String}
    (hhex : signIdentity identity raw = .ok hex) :
    (∃ signatures, receiverSignatures requirements identity raw = .ok signatures) ↔ OwnReceiver requirements identity := by
  constructor
  · rintro ⟨signatures, hsigs⟩
    rcases receiverSignatures_ok hsigs with ⟨hzero, -⟩ | ⟨hpath, -⟩
    · exact .inl hzero
    · exact .inr hpath
  · unfold receiverSignatures
    rintro (hzero | ⟨hone, hkey⟩)
    · exact ⟨none, if_pos hzero⟩
    · refine ⟨some [hex], ?_⟩
      rw [hone, if_neg (by decide), if_pos rfl, if_pos hkey, hhex]
      rfl

theorem htlcWitness_isOk (hc : HtlcConditions.fromSecret secret = .ok c) (hflag : c.sigflag = .sigInputs)
    {raw hex : String} (hhex : signIdentity ctx.identity raw = .ok hex) :
    (∃ witness, htlcWitness raw secret ctx = .ok witness) ↔
      (ctx.preimage = none ∧ isAnyoneCanSpend (c.requirementsAt ctx.now) = true) ∨
        Supplied c ctx ∧ OwnReceiver (c.requirementsAt ctx.now) ctx.identity := by
  constructor
  · rintro ⟨witness, h⟩
    rcases (htlcWitness_iff hc hflag).1 h with ⟨hnone, hopen, -⟩ | ⟨preimage, signatures, hpreimage, hmatch, hsigs, -⟩
    · exact .inl ⟨hnone, hopen⟩
    · exact .inr ⟨⟨preimage, hpreimage, hmatch⟩, (receiverSignatures_isOk hhex).1 ⟨signatures, hsigs⟩⟩
  · rintro (⟨hnone, hopen⟩ | ⟨⟨preimage, hpreimage, hmatch⟩, hreceiver⟩)
    · exact ⟨none, (htlcWitness_iff hc hflag).2 (.inl ⟨hnone, hopen, rfl⟩)⟩
    · obtain ⟨signatures, hsigs⟩ := (receiverSignatures_isOk hhex).2 hreceiver
      exact ⟨_, (htlcWitness_iff hc hflag).2 (.inr ⟨preimage, signatures, hpreimage, hmatch, hsigs, rfl⟩)⟩

end htlc

/-! ### Every lock -/

theorem not_open_of_ownRefund {requirements : SpendingRequirements} {identity : SigningKey}
    (h : OwnRefund requirements identity) : isAnyoneCanSpend requirements = false := by
  obtain ⟨refund, hrefund, hone, -⟩ := h
  unfold isAnyoneCanSpend
  rw [hrefund]
  show decide (refund.requiredSigs = 0) = false
  rw [hone]; rfl

/-- The wallet leaves no pathway of its own unused: the refund pathway of a P2PK lock where its key is in no primary
pathway of several signatures, that of an HTLC nowhere, and an HTLC open to anyone only without a preimage. -/
def Answered (lock : InputLock) (ctx : UnlockContext) : Prop :=
  match lock with
  | .p2pk _ _ c => OwnRefund (c.requirementsAt ctx.now) ctx.identity →
      pathHoldsIdentity c.signingPubkeys ctx.identity = true → c.requiredSigs = 1
  | .htlc _ _ c => (Supplied c ctx ∧ OwnReceiver (c.requirementsAt ctx.now) ctx.identity) ∨
      (¬ OwnRefund (c.requirementsAt ctx.now) ctx.identity ∧
        (isAnyoneCanSpend (c.requirementsAt ctx.now) = true → ctx.preimage = none))

theorem p2pk_complete_iff {proof : Proof} {secret : Secret} {c : P2pkConditions} {ctx : UnlockContext}
    (hparse : Secret.parse proof.secret = some secret) (hkind : secret.kind = .p2pk)
    (hc : P2pkConditions.fromSecret secret = .ok c) (hflag : c.sigflag = .sigInputs)
    (hsign : SignsAs ctx.identity (asBytes proof.secret) (c.signingPubkeys ++ c.refundKeys)) :
    WalletComplete proof (.p2pk proof secret c) ctx ↔ Answered (.p2pk proof secret c) ctx := by
  obtain ⟨hex, hhex, -, -⟩ := hsign.signIdentity
  have hwallet : (∃ witness, witnessForSecret proof.secret ctx = .ok witness ∧ MintAccepts proof witness ctx.now) ↔
      ∃ witness, p2pkWitness proof.secret secret ctx = .ok witness := by
    simp only [witnessForSecret, hparse, hkind, mintAccepts_p2pk hparse hkind hc hflag]
    exact exists_congr fun _ => and_iff_left_of_imp (p2pkWitness_accepted hc hflag hsign.verifies)
  unfold WalletComplete
  simp only [mintAccepts_p2pk hparse hkind hc hflag] at hwallet ⊢
  rw [p2pk_own_iff hc hsign, hwallet, p2pkWitness_isOk hc hflag hhex]
  constructor
  · intro h hrefund hheld
    rcases h (.inr (.inr hrefund)) with hopen | hpath | ⟨hfree, -⟩
    · rw [not_open_of_ownRefund hrefund] at hopen; cases hopen
    · exact hpath.1
    · rw [hheld] at hfree; cases hfree
  · rintro h (hopen | hpath | hrefund)
    · exact .inl hopen
    · exact .inr (.inl hpath)
    · rcases hheld : pathHoldsIdentity c.signingPubkeys ctx.identity with - | -
      · exact .inr (.inr ⟨rfl, hrefund⟩)
      · exact .inr (.inl ⟨h hrefund hheld, hheld⟩)

theorem htlc_complete_iff {proof : Proof} {secret : Secret} {c : HtlcConditions} {ctx : UnlockContext}
    (hparse : Secret.parse proof.secret = some secret) (hkind : secret.kind = .htlc)
    (hc : HtlcConditions.fromSecret secret = .ok c) (hflag : c.sigflag = .sigInputs)
    (hsign : SignsAs ctx.identity (asBytes proof.secret) (c.pubkeys ++ c.refundKeys)) :
    WalletComplete proof (.htlc proof secret c) ctx ↔ Answered (.htlc proof secret c) ctx := by
  obtain ⟨hex, hhex, -, -⟩ := hsign.signIdentity
  have hwallet : (∃ witness, witnessForSecret proof.secret ctx = .ok witness ∧ MintAccepts proof witness ctx.now) ↔
      ∃ witness, htlcWitness proof.secret secret ctx = .ok witness := by
    simp only [witnessForSecret, hparse, hkind, mintAccepts_htlc hparse hkind hc hflag]
    exact exists_congr fun _ => and_iff_left_of_imp (htlcWitness_accepted hc hflag hsign.verifies)
  unfold WalletComplete
  simp only [mintAccepts_htlc hparse hkind hc hflag] at hwallet ⊢
  rw [htlc_own_iff hc hsign, hwallet, htlcWitness_isOk hc hflag hhex]
  constructor
  · intro h
    by_cases hreceiver : Supplied c ctx ∧ OwnReceiver (c.requirementsAt ctx.now) ctx.identity
    · exact .inl hreceiver
    · refine .inr ⟨fun hrefund => ?_, fun hopen => ?_⟩
      · have hopen := ((h (.inr (.inl hrefund))).resolve_right hreceiver).2
        rw [not_open_of_ownRefund hrefund] at hopen; cases hopen
      · exact ((h (.inl hopen)).resolve_right hreceiver).1
  · rintro (hreceiver | ⟨hrefund, hnone⟩) h
    · exact .inr hreceiver
    · rcases h with hopen | hown | hreceiver
      · exact .inl ⟨hnone hopen, hopen⟩
      · exact absurd hown hrefund
      · exact .inr hreceiver

/-- The wallet has an answer for every lock that a witness of its own opens, exactly when it leaves no pathway out. -/
theorem walletComplete_iff {proof : Proof} {lock : InputLock} {ctx : UnlockContext}
    (hlock : inputLock proof = .ok (some lock)) (hflag : lock.sigflag = .sigInputs)
    (hsign : SignsAs ctx.identity (asBytes proof.secret) lock.keys) :
    WalletComplete proof lock ctx ↔ Answered lock ctx := by
  obtain ⟨hproof, hparse, hconditions⟩ := inputLock_ok hlock
  rcases lock with ⟨p, secret, c⟩ | ⟨p, secret, c⟩
  · obtain rfl : p = proof := hproof
    exact p2pk_complete_iff hparse hconditions.1 hconditions.2 hflag hsign
  · obtain rfl : p = proof := hproof
    exact htlc_complete_iff hparse hconditions.1 hconditions.2 hflag hsign

end

section toy
open Toy

theorem Toy.signsAs (k : UInt8) {message : List UInt8} (keys : List UInt8) (h : message ≠ bytes32 1) :
    SignsAs k message keys := by
  refine ⟨Toy.signatureVerifies k h, ⟨_, rfl⟩, ?_⟩
  rintro sig ⟨⟩ p - hverify
  have hdigest : digest message = message := if_neg h
  have heq : [k + fold (digest message)] = [(show UInt8 from p) + fold message] := of_decide_eq_true hverify
  rw [hdigest] at heq
  have hkey := (UInt8.add_left_inj _).1 (List.singleton_inj.1 heq)
  subst hkey
  rfl

/-- Locked to the hash of the number one until 50, and to the refund key 7 from then on. -/
def refundableHash : Proof :=
  coin 1 (nut10 "HTLC" hashOfOne
    "[[\"locktime\",\"50\"],[\"refund\",\"020000000000000000000000000000000000000000000000000000000000000007\"]]")

def refundableHashSecret : Secret := ⟨.htlc, "n", hashOfOne, some [["locktime", "50"],
  ["refund", "020000000000000000000000000000000000000000000000000000000000000007"]]⟩

def refundableHashLock : InputLock := .htlc refundableHash refundableHashSecret
  ⟨digest (bytes32 1), [], none, some 50, [(7 : UInt8)], none, .sigInputs⟩

theorem refundableHash_lock : inputLock refundableHash = .ok (some refundableHashLock) := by
  have hparse : Secret.parse refundableHash.secret = some refundableHashSecret := by decide +kernel
  have hc : HtlcConditions.fromSecret refundableHashSecret =
      .ok ⟨digest (bytes32 1), [], none, some 50, [(7 : UInt8)], none, .sigInputs⟩ := by decide +kernel
  simp only [inputLock, hparse, refundableHashSecret] at hc ⊢
  rw [hc]
  rfl

theorem refundableHash_signsAs : SignsAs (7 : UInt8) (asBytes refundableHash.secret) refundableHashLock.keys :=
  Toy.signsAs 7 _ (by decide +kernel)

/-- With the preimage the wallet does unlock it. -/
theorem walletComplete_iff_toy :
    WalletComplete refundableHash refundableHashLock ⟨(7 : UInt8), some (Hex.encode (bytes32 1)), 100⟩ :=
  (walletComplete_iff refundableHash_lock rfl refundableHash_signsAs).2
    (.inl ⟨⟨Hex.encode (bytes32 1), rfl, by decide +kernel⟩, .inl rfl⟩)

/-- After its locktime the lock opens for the refund key, and the wallet that holds this key asks for a preimage. -/
theorem refund_stranded :
    (inputLock refundableHash = .ok (some refundableHashLock) ∧ refundableHashLock.sigflag = .sigInputs) ∧
      witnessForSecret refundableHash.secret ⟨(7 : UInt8), none, 100⟩ = .error .preimageMissing ∧
      ¬ WalletComplete refundableHash refundableHashLock ⟨(7 : UInt8), none, 100⟩ := by
  have hwallet : witnessForSecret refundableHash.secret ⟨(7 : UInt8), none, 100⟩ = .error .preimageMissing := by
    decide +kernel
  refine ⟨⟨refundableHash_lock, rfl⟩, hwallet, fun hcomplete => ?_⟩
  obtain ⟨-, hparse, hkind, hc⟩ := inputLock_ok refundableHash_lock
  have hrefund : OwnRefund (refundableHashLock.requirementsAt 100) (7 : UInt8) :=
    ⟨⟨[(7 : UInt8)], 1⟩, by decide +kernel, rfl, by decide +kernel⟩
  have hown := @htlc_own_iff _ _ refundableHash _ _ ⟨(7 : UInt8), none, 100⟩ hc refundableHash_signsAs
  obtain ⟨own, hown, haccept⟩ := hown.2 (.inr (.inl hrefund))
  obtain ⟨witness, hok, -⟩ := hcomplete ⟨own, hown, (mintAccepts_htlc hparse hkind hc rfl).2 haccept⟩
  rw [hwallet] at hok
  cases hok

end toy

end Micronuts
