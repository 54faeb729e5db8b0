import Micronuts.Nuts.Nut14

/-!
# Witnesses for locked proofs (`micronuts-wallet-core`: `conditions.rs`)

The wallet unlocks a proof with one identity key, a preimage that it may have been given, and the clock. Signing is
BIP-340 (`k256::schnorr`), over the SHA-256 digest of the secret.
-/

namespace Micronuts

class Bip340 [Crypto] where
  SigningKey : Type
  -- `verifying_key().to_bytes()`: the x-coordinate
  verifyingKey : SigningKey → List UInt8
  -- `sign_prehash_with_aux_rand(digest, &[0; 32])`, and `Signature::to_bytes`
  signPrehash : SigningKey → List UInt8 → Option Signature
  signatureBytes : Signature → List UInt8

export Bip340 (SigningKey)

inductive ConditionError
  | sigAllUnsupported
  | multisigUnsupported (required : UInt64)
  | preimageMissing
  | preimageMismatch
  | notOurLock
  | malformedSecret
  | derivationFailed
  | signingFailed
deriving DecidableEq, Repr

variable [Crypto] [Bip340]

structure UnlockContext where
  identity : SigningKey
  preimage : Option String
  now : UInt64

def signIdentity (identity : SigningKey) (secret : String) : Except ConditionError String := do
  let signature ← Except.okOr (Bip340.signPrehash identity (Crypto.sha256 (asBytes secret))) .signingFailed
  pure (Hex.encode (Bip340.signatureBytes signature))

def isAnyoneCanSpend (requirements : SpendingRequirements) : Bool :=
  requirements.refundPath.any RefundPath.isAnyoneCanSpend

def pathHoldsIdentity (path : List PublicKey) (identity : SigningKey) : Bool :=
  path.any fun key => xCoordinate key = Bip340.verifyingKey identity

/-- A witness with the identity's signature. -/
def identityWitness (identity : SigningKey) (raw : String) : Except ConditionError (Option String) := do
  let signature ← signIdentity identity raw
  pure (some (P2pkWitness.toJson ⟨[signature]⟩))

def p2pkWitness (raw : String) (secret : Secret) (ctx : UnlockContext) : Except ConditionError (Option String) :=
  match P2pkConditions.fromSecret secret with
  | .error _ => .error .malformedSecret
  | .ok conditions =>
    if conditions.sigflag = .sigAll then .error .sigAllUnsupported
    else
      let requirements := conditions.requirementsAt ctx.now
      if isAnyoneCanSpend requirements then .ok none
      else if pathHoldsIdentity requirements.pubkeys ctx.identity then
        -- the primary pathway decides alone, whatever the refund pathway offers
        if requirements.requiredSigs = 0 then .ok none
        else if requirements.requiredSigs = 1 then identityWitness ctx.identity raw
        else .error (.multisigUnsupported requirements.requiredSigs)
      else
        match requirements.refundPath with
        | none => .error .notOurLock
        | some refund =>
          if refund.requiredSigs = 1 ∧ pathHoldsIdentity refund.pubkeys ctx.identity then
            identityWitness ctx.identity raw
          else if 1 < refund.requiredSigs ∧ pathHoldsIdentity refund.pubkeys ctx.identity then
            .error (.multisigUnsupported refund.requiredSigs)
          else .error .notOurLock

/-- The receivers' signatures, where the lock has receivers. -/
def receiverSignatures (requirements : SpendingRequirements) (identity : SigningKey) (raw : String) :
    Except ConditionError (Option (List String)) :=
  if requirements.requiredSigs = 0 then .ok none
  else if requirements.requiredSigs = 1 then
    if pathHoldsIdentity requirements.pubkeys identity then do
      let signature ← signIdentity identity raw
      pure (some [signature])
    else .error .notOurLock
  else .error (.multisigUnsupported requirements.requiredSigs)

def htlcWitness (raw : String) (secret : Secret) (ctx : UnlockContext) : Except ConditionError (Option String) :=
  match HtlcConditions.fromSecret secret with
  | .error _ => .error .malformedSecret
  | .ok conditions =>
    if conditions.sigflag = .sigAll then .error .sigAllUnsupported
    else
      let requirements := conditions.requirementsAt ctx.now
      match ctx.preimage with
      | none => if isAnyoneCanSpend requirements then .ok none else .error .preimageMissing
      | some preimage =>
        if ¬ conditions.matchesPreimage preimage then .error .preimageMismatch
        else do
          let signatures ← receiverSignatures requirements ctx.identity raw
          pure (some (HtlcWitness.toJson ⟨some preimage, signatures⟩))

/-- `none` when the input is spent without a witness. -/
def witnessForSecret (secret : String) (ctx : UnlockContext) : Except ConditionError (Option String) :=
  match Secret.parse secret with
  | none => .ok none
  | some parsed =>
    match parsed.kind with
    | .p2pk => p2pkWitness secret parsed ctx
    | .htlc => htlcWitness secret parsed ctx

/-- Keys and signatures of the toy curve, which need no nonce. -/
scoped instance Toy.bip340 : @Bip340 Toy.crypto :=
  @Bip340.mk Toy.crypto UInt8 (fun k => (Toy.bytes33 k).drop 1) (fun k digest => some [k + Toy.fold digest]) id

end Micronuts
