import Micronuts.Nuts.Messages
import Micronuts.Nuts.Nut14

/-!
# Spending conditions on swap and melt inputs (`micronuts-mint`: `spending.rs`)

`verifySpendingConditions` runs on the inputs of a request before any of them is claimed. With no
SIG_ALL input every locked input answers for itself; otherwise all inputs must carry one condition,
and the first input's witness signs the whole transaction.
-/

namespace Micronuts
variable [Crypto]

/-- An input whose secret is a spending condition. -/
inductive InputLock
  | p2pk (proof : Proof) (secret : Secret) (conditions : P2pkConditions)
  | htlc (proof : Proof) (secret : Secret) (conditions : HtlcConditions)

namespace InputLock

def proof : InputLock → Proof
  | p2pk proof _ _ | htlc proof _ _ => proof

def secret : InputLock → Secret
  | p2pk _ secret _ | htlc _ secret _ => secret

def sigflag : InputLock → SigFlag
  | p2pk _ _ conditions => conditions.sigflag
  | htlc _ _ conditions => conditions.sigflag

def requirementsAt (lock : InputLock) (now : UInt64) : SpendingRequirements :=
  match lock with
  | p2pk _ _ conditions => conditions.requirementsAt now
  | htlc _ _ conditions => conditions.requirementsAt now

end InputLock

/-- What one input contributes: nothing for an ordinary secret, a lock for a well-formed condition. -/
def inputLock (proof : Proof) : Except CashuError (Option InputLock) :=
  match Secret.parse proof.secret with
  | none => if proof.witness.isSome then .error .spendConditionsNotMet else .ok none
  | some secret =>
    match secret.kind with
    | .p2pk =>
      match P2pkConditions.fromSecret secret with
      | .ok conditions => .ok (some (.p2pk proof secret conditions))
      | .error _ => .error .spendConditionsNotMet
    | .htlc =>
      match HtlcConditions.fromSecret secret with
      | .ok conditions => .ok (some (.htlc proof secret conditions))
      | .error _ => .error .spendConditionsNotMet

def inputLocks : List Proof → Except CashuError (List InputLock)
  | [] => .ok []
  | proof :: inputs => do
    let lock ← inputLock proof
    let locks ← inputLocks inputs
    pure (lock.toList ++ locks)

/-! ### Signatures -/

/-- One key against every signature; the key must not verify twice. -/
def verifyKey (message : List UInt8) (locked : PublicKey) :
    List Signature → List (List UInt8) → Option (List (List UInt8))
  | [], seen => some seen
  | sig :: sigs, seen =>
    if Crypto.verify locked message sig then
      if seen.contains (xCoordinate locked) then none
      else verifyKey message locked sigs (xCoordinate locked :: seen)
    else verifyKey message locked sigs seen

def verifyKeys (message : List UInt8) (sigs : List Signature) :
    List PublicKey → List (List UInt8) → Option (List (List UInt8))
  | [], seen => some seen
  | locked :: keys, seen => (verifyKey message locked sigs seen).bind (verifyKeys message sigs keys)

/-- Distinct locked keys with a valid signature; `none` spoils the pathway. -/
def countValidSignatures (message : List UInt8) (lockedPubkeys : List PublicKey) (signatureHexes : List String) :
    Option Nat := do
  let signatures ← signatureHexes.mapM Crypto.signatureFromStr
  let verified ← verifyKeys message signatures lockedPubkeys []
  pure verified.length

def enoughSignatures (message : List UInt8) (keys : List PublicKey) (signatureHexes : List String)
    (required : UInt64) : Bool :=
  (countValidSignatures message keys signatureHexes).any fun count => required.toNat ≤ count

def verifyWitnessSignatures (message : List UInt8) (lockedPubkeys : List PublicKey) (signatureHexes : List String)
    (required : UInt64) : Except CashuError Unit :=
  if enoughSignatures message lockedPubkeys signatureHexes required then .ok ()
  else .error .spendConditionsNotMet

/-! ### Pathways -/

def verifyP2pkPathways (message : List UInt8) (requirements : SpendingRequirements)
    (signatureHexes : List String) : Except CashuError Unit :=
  if enoughSignatures message requirements.pubkeys signatureHexes requirements.requiredSigs then .ok ()
  else if requirements.refundPath.any fun refund =>
      enoughSignatures message refund.pubkeys signatureHexes refund.requiredSigs then .ok ()
  else .error .spendConditionsNotMet

/-- `refund_path.is_some_and(is_anyone_can_spend)`. -/
def anyoneCanSpend (requirements : SpendingRequirements) : Bool :=
  requirements.refundPath.any RefundPath.isAnyoneCanSpend

def verifyHtlcPathways (message : List UInt8) (requirements : SpendingRequirements) (witness : Option HtlcWitness)
    (preimageValid : Bool) : Except CashuError Unit :=
  if preimageValid = false ∧ anyoneCanSpend requirements then .ok ()
  else if preimageValid then
    if requirements.requiredSigs = 0 then .ok ()
    else
      match witness.bind HtlcWitness.signatures with
      | none => .error .spendConditionsNotMet
      | some signatures =>
        verifyWitnessSignatures message requirements.pubkeys signatures requirements.requiredSigs
  else
    match requirements.refundPath with
    | none => .error .spendConditionsNotMet
    | some refund =>
      match witness.bind HtlcWitness.signatures with
      | none => .error .spendConditionsNotMet
      | some signatures => verifyWitnessSignatures message refund.pubkeys signatures refund.requiredSigs

/-- The two kinds against a message and a witness, as both callers of the pathways do it. -/
def verifyP2pk (message : List UInt8) (requirements : SpendingRequirements) (witness : Option String) :
    Except CashuError Unit :=
  if anyoneCanSpend requirements then .ok ()
  else
    match witness.bind P2pkWitness.fromJson with
    | none => .error .spendConditionsNotMet
    | some witness => verifyP2pkPathways message requirements witness.signatures

def preimageValid (conditions : HtlcConditions) (witness : Option HtlcWitness) : Bool :=
  (witness.bind HtlcWitness.preimage).any conditions.matchesPreimage

def verifyHtlc (message : List UInt8) (requirements : SpendingRequirements) (conditions : HtlcConditions)
    (witness : Option String) : Except CashuError Unit :=
  let witness := witness.bind HtlcWitness.fromJson
  verifyHtlcPathways message requirements witness (preimageValid conditions witness)

def InputLock.verify (lock : InputLock) (message : List UInt8) (witness : Option String) (now : UInt64) :
    Except CashuError Unit :=
  match lock with
  | .p2pk .. => verifyP2pk message (lock.requirementsAt now) witness
  | .htlc _ _ conditions => verifyHtlc message (lock.requirementsAt now) conditions witness

/-! ### Transactions -/

def verifyInputsIndividually : List InputLock → UInt64 → Except CashuError Unit
  | [], _ => .ok ()
  | lock :: locks, now => do
    lock.verify (asBytes lock.proof.secret) lock.proof.witness now
    verifyInputsIndividually locks now

def sigAllMessage (inputs : List Proof) (outputs : Option (List BlindedMessage)) (quoteId : Option String) :
    String :=
  String.join (inputs.map fun proof => proof.secret ++ pointHex proof.c) ++
    String.join ((outputs.getD []).map fun output => toString output.amount.toNat ++ pointHex output.b) ++
    quoteId.getD ""

def sameCondition (lock first : InputLock) : Bool :=
  lock.secret.kind = first.secret.kind && lock.secret.data = first.secret.data && lock.secret.tags = first.secret.tags

def verifySigAll (inputs : List Proof) (locks : List InputLock) (outputs : Option (List BlindedMessage))
    (quoteId : Option String) (now : UInt64) : Except CashuError Unit :=
  match locks with
  -- not reached: there is a SIG_ALL lock
  | [] => .error .spendConditionsNotMet
  | first :: rest =>
    if locks.length ≠ inputs.length ∨ first.sigflag ≠ .sigAll then .error .spendConditionsNotMet
    else if ¬ rest.all (sameCondition · first) then .error .spendConditionsNotMet
    else
      first.verify (asBytes (sigAllMessage inputs outputs quoteId)) (inputs.head?.bind Proof.witness) now

def verifySpendingConditions (inputs : List Proof) (outputs : Option (List BlindedMessage))
    (quoteId : Option String) (now : UInt64) : Except CashuError Unit := do
  let locks ← inputLocks inputs
  if locks.any (·.sigflag = .sigAll) then verifySigAll inputs locks outputs quoteId now
  else verifyInputsIndividually locks now

end Micronuts
