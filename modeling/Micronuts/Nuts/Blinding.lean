import Micronuts.Nuts.Messages
import Micronuts.Nuts.Nut20

/-!
# Blinding and NUT-12 (`cashu-core-lite`: `crypto.rs`, `nuts/nut12.rs`)

The wallet's side of the blind Diffie-Hellman exchange over the arithmetic of `k256`: a secret is hashed to the curve
and blinded, the mint's signature is unblinded, and a proof with its DLEQ is checked against the public key of its
amount alone.
-/

namespace Micronuts

/-- Points and scalars, and the keys as either. -/
class Curve [Crypto] where
  Point : Type
  Scalar : Type
  generator : Point
  add : Point → Point → Point
  sub : Point → Point → Point
  mul : Point → Scalar → Point
  -- `ProjectivePoint::from` and `PublicKey::from_affine`; the identity is no key
  toPoint : PublicKey → Point
  fromAffine : Point → Option PublicKey
  toScalar : SecretKey → Scalar
  publicKey : SecretKey → PublicKey
  -- `to_encoded_point(false)`
  uncompressed : PublicKey → List UInt8

variable [Crypto]

/-- `b"Secp256k1_HashToCurve_Cashu_"`. -/
def domainSeparator : List UInt8 := asBytes "Secp256k1_HashToCurve_Cashu_"

def tryCounters (msgHash : List UInt8) : Nat → Nat → Option PublicKey
  | 0, _ => none
  | fuel + 1, counter =>
    match Crypto.fromBytes (0x02 :: Crypto.sha256 (msgHash ++ (toBeBytes 4 counter).reverse)) with
    | some point => some point
    | none => tryCounters msgHash fuel (counter + 1)

/-- The counters from 0 to 65535. -/
def hashToCurve (message : List UInt8) : Option PublicKey :=
  tryCounters (Crypto.sha256 (domainSeparator ++ message)) 65536 0

variable [Curve]

/-- `B' = Y + rG`, with a blinder. -/
def blindMessage (secret : List UInt8) (blinder : SecretKey) : Option PublicKey := do
  let y ← hashToCurve secret
  Curve.fromAffine (Curve.add (Curve.toPoint y) (Curve.toPoint (Curve.publicKey blinder)))

/-- `C = C' - rK`. -/
def unblindSignature (blindedSig : PublicKey) (blinder : SecretKey) (mintPubkey : PublicKey) : Option PublicKey :=
  Curve.fromAffine (Curve.sub (Curve.toPoint blindedSig) (Curve.mul (Curve.toPoint mintPubkey) (Curve.toScalar blinder)))

/-! ### DLEQ proofs -/

def hashE (r1 r2 a cPrime : PublicKey) : List UInt8 :=
  Crypto.sha256 (asBytes (String.join ([r1, r2, a, cPrime].map fun pk => Hex.encode (Curve.uncompressed pk))))

/-- `none` for `DleqError::IdentityPoint`. -/
def verifyDleq (blindedMessage blindedSignature : PublicKey) (e s : SecretKey) (mintPubkey : PublicKey) :
    Option Bool := do
  let aE := Curve.mul (Curve.toPoint mintPubkey) (Curve.toScalar e)
  let sG := Curve.mul Curve.generator (Curve.toScalar s)
  let r1Proj := Curve.sub sG aE
  let b := Curve.mul (Curve.toPoint blindedMessage) (Curve.toScalar s)
  let c := Curve.mul (Curve.toPoint blindedSignature) (Curve.toScalar e)
  let r2Proj := Curve.sub b c
  let r1 ← Curve.fromAffine r1Proj
  let r2 ← Curve.fromAffine r2Proj
  let ePrime := hashE r1 r2 mintPubkey blindedSignature
  pure (Crypto.toSecretBytes e = ePrime)

/-- `B'` and `C'` are rebuilt from the proof and its blinder. -/
def verifyProofDleq (secret : List UInt8) (c : PublicKey) (dleq : ProofDleq) (mintAmountPubkey : PublicKey) : Bool :=
  match blindMessage secret dleq.r with
  | none => false
  | some blinded =>
    let rK := Curve.mul (Curve.toPoint mintAmountPubkey) (Curve.toScalar dleq.r)
    match Curve.fromAffine (Curve.add (Curve.toPoint c) rK) with
    | none => false
    | some cPrime => (verifyDleq blinded cPrime dleq.e dleq.s mintAmountPubkey).getD false

/-- The identity apart, points and keys are the same, and what is taken from a point can be put back. -/
class LawfulCurve : Prop where
  toPoint_fromAffine : ∀ (p : Curve.Point) (k : PublicKey), Curve.fromAffine p = some k → Curve.toPoint k = p
  fromAffine_toPoint : ∀ k : PublicKey, Curve.fromAffine (Curve.toPoint k) = some k
  sub_add_cancel : ∀ p q : Curve.Point, Curve.add (Curve.sub p q) q = p

/-- A signature that was checked when it was still blinded is checked by anyone who has the blinder. -/
theorem verifyProofDleq_unblind [LawfulCurve] {secret : List UInt8}
    {blinded cPrime c key : PublicKey} {dleq : ProofDleq} (hblind : blindMessage secret dleq.r = some blinded)
    (hdleq : verifyDleq blinded cPrime dleq.e dleq.s key = some true)
    (hc : unblindSignature cPrime dleq.r key = some c) : verifyProofDleq secret c dleq key = true := by
  have hback : Curve.add (Curve.toPoint c) (Curve.mul (Curve.toPoint key) (Curve.toScalar dleq.r)) =
      Curve.toPoint cPrime := by
    rw [LawfulCurve.toPoint_fromAffine _ _ hc, LawfulCurve.sub_add_cancel]
  simp only [verifyProofDleq, hblind, hback, LawfulCurve.fromAffine_toPoint, hdleq, Option.getD_some]

/-! ### An instance to run the wallet on -/

namespace Toy32

/-- The residues modulo 256 as before, with digests of 32 bytes. -/
scoped instance crypto : Crypto :=
  { Toy.crypto with sha256 := fun bs => Toy.bytes32 (bs.foldl (fun acc b => acc * 251 + b) 1) }

scoped instance curve : @Curve crypto :=
  @Curve.mk crypto UInt8 UInt8 1 (fun p q => p + q) (fun p q => p - q) (fun p k => p * k) id
    (fun p => if p = 0 then none else some p) id id fun p => [4, p]

end Toy32

end Micronuts
