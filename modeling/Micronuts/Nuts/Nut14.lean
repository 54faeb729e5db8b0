import Micronuts.Nuts.Nut11

/-!
# NUT-14: hashed timelock contracts (`cashu-core-lite`: `nuts/nut14.rs`)

An HTLC is spent with the preimage of its hash and the receivers' signatures, or after `locktime`
through the refund pathway of NUT-11. With no receiver keys the preimage alone is enough.
-/

namespace Micronuts

inductive HtlcError
  | kindMismatch
  | invalidDataHash
  | tag (e : P2pkError)
deriving DecidableEq, Repr

def decode32Bytes (hexStr : String) : Option (List UInt8) := do
  let bytes ← Hex.decode hexStr
  if bytes.length = 32 then some bytes else none

/-- `.map_err(HtlcError::Tag)`. -/
def tagError {α : Type} : Except P2pkError α → Except HtlcError α
  | .ok a => .ok a
  | .error e => .error (.tag e)

variable [Crypto]

structure HtlcConditions where
  dataHash : List UInt8
  pubkeys : List PublicKey
  numSigs : Option UInt64
  locktime : Option UInt64
  refundKeys : List PublicKey
  numSigsRefund : Option UInt64
  sigflag : SigFlag
deriving DecidableEq

namespace HtlcConditions

def fromSecret (secret : Secret) : Except HtlcError HtlcConditions := do
  if secret.kind ≠ .htlc then .error .kindMismatch
  else
    let dataHash ← Except.okOr (decode32Bytes secret.data) .invalidDataHash
    let tags ← tagError (parseConditionTags secret.tagRows)
    tagError (checkMultisig tags.numSigs tags.pubkeys.length)
    if hasDuplicateXCoordinates tags.pubkeys then .error (.tag .duplicatePubkey)
    else if hasDuplicateXCoordinates tags.refundKeys then .error (.tag .duplicatePubkey)
    else
      pure { dataHash, pubkeys := tags.pubkeys, numSigs := tags.numSigs, locktime := tags.locktime,
             refundKeys := tags.refundKeys, numSigsRefund := tags.numSigsRefund, sigflag := tags.sigflag }

def matchesPreimage (c : HtlcConditions) (preimageHex : String) : Bool :=
  match decode32Bytes preimageHex with
  | some preimage => c.dataHash = Crypto.sha256 preimage
  | none => false

def requirementsAt (c : HtlcConditions) (now : UInt64) : SpendingRequirements where
  pubkeys := c.pubkeys
  requiredSigs := if c.pubkeys = [] then 0 else c.numSigs.getD 1
  refundPath := refundPathAt c.locktime c.refundKeys c.numSigsRefund now

end HtlcConditions

structure HtlcWitness where
  preimage : Option String
  signatures : Option (List String)
deriving DecidableEq

/-- At least one of the two members must be there with its type. -/
def HtlcWitness.fromJson (raw : String) : Option HtlcWitness := do
  let document ← Json.parse raw
  let object ← document.asObject
  let preimage := (Json.getMember "preimage" object).bind Json.asStr
  let signatures := ((Json.getMember "signatures" object).bind Json.asArray).bind fun a => a.mapM Json.asStr
  if preimage = none ∧ signatures = none then none else pure ⟨preimage, signatures⟩

def HtlcWitness.toJson (w : HtlcWitness) : String :=
  "\x7b" ++
    (match w.preimage with
      | some preimage => "\"preimage\":" ++ jsonEscape preimage ++ if w.signatures.isSome then "," else ""
      | none => "") ++
    (match w.signatures with
      | some signatures => "\"signatures\":[" ++ ",".intercalate (signatures.map jsonEscape) ++ "]"
      | none => "") ++ "\x7d"

end Micronuts
