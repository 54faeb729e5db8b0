import Mathlib.Data.UInt
import Micronuts.Lib.BlindDh
import Micronuts.Nuts.Blinding

/-!
# The signer's side (`cashu-core-lite`: `crypto.rs`, `nuts/nut12.rs`)

The mint signs a blinded message and proves with which key. Where the arithmetic of `k256` is that of a group and its
scalars (`CurveGroup`), the wallet, the private key and anyone with the public key agree on the signature
(`blind_sign_unblind`).
-/

namespace Micronuts

section
variable [Crypto]

/-- The arithmetic of scalars, and the equality of points. -/
class ScalarArithmetic [Curve] where
  add : Curve.Scalar → Curve.Scalar → Curve.Scalar
  mul : Curve.Scalar → Curve.Scalar → Curve.Scalar
  toBytes : Curve.Scalar → List UInt8
  decEqPoint : DecidableEq Curve.Point

variable [Curve] [ScalarArithmetic]

instance : DecidableEq Curve.Point := ScalarArithmetic.decEqPoint

/-- `C' = k * B'`; `none` for the panic on the identity. -/
def signMessage (a : SecretKey) (blindedMessage : PublicKey) : Option PublicKey :=
  Curve.fromAffine (Curve.mul (Curve.toPoint blindedMessage) (Curve.toScalar a))

/-- `a * hash_to_curve(x) == C`. -/
def verifySignatureWithPrivkey (secret : List UInt8) (unblindedSig : PublicKey) (a : SecretKey) : Option Bool := do
  let y ← hashToCurve secret
  let expected := Curve.mul (Curve.toPoint y) (Curve.toScalar a)
  pure (expected = Curve.toPoint unblindedSig)

/-- With the nonce that is given or drawn. -/
def proveDleq (bPrime : PublicKey) (mintKey nonce : SecretKey) : Option BlindSignatureDleq := do
  let aScalar := Curve.toScalar mintKey
  let rhoScalar := Curve.toScalar nonce
  let bPrimeProj := Curve.toPoint bPrime
  let cPrime ← Curve.fromAffine (Curve.mul bPrimeProj aScalar)
  let r1 ← Curve.fromAffine (Curve.mul Curve.generator rhoScalar)
  let r2 ← Curve.fromAffine (Curve.mul bPrimeProj rhoScalar)
  let eBytes := hashE r1 r2 (Curve.publicKey mintKey) cPrime
  let e ← Crypto.fromSlice eBytes
  let sScalar := ScalarArithmetic.add rhoScalar (ScalarArithmetic.mul (Curve.toScalar e) aScalar)
  let s ← Crypto.fromSlice (ScalarArithmetic.toBytes sScalar)
  pure { e, s }

/-- The points are a module over the scalars, the public key of a scalar is that multiple of the generator, and a scalar
that is read from bytes is the one that they stand for. -/
class CurveGroup where
  [group : AddCommGroup Curve.Point]
  [ring : CommRing Curve.Scalar]
  [module : Module Curve.Scalar Curve.Point]
  add_eq : ∀ p q : Curve.Point, Curve.add p q = p + q
  sub_eq : ∀ p q : Curve.Point, Curve.sub p q = p - q
  mul_eq : ∀ (p : Curve.Point) (k : Curve.Scalar), Curve.mul p k = k • p
  scalar_add_eq : ∀ x y : Curve.Scalar, ScalarArithmetic.add x y = x + y
  scalar_mul_eq : ∀ x y : Curve.Scalar, ScalarArithmetic.mul x y = x * y
  toPoint_publicKey : ∀ k : SecretKey, Curve.toPoint (Curve.publicKey k) = Curve.toScalar k • Curve.generator
  toPoint_fromAffine : ∀ (p : Curve.Point) (k : PublicKey), Curve.fromAffine p = some k → Curve.toPoint k = p
  fromAffine_toPoint : ∀ k : PublicKey, Curve.fromAffine (Curve.toPoint k) = some k
  toScalar_fromSlice : ∀ (x : Curve.Scalar) (k : SecretKey), Crypto.fromSlice (ScalarArithmetic.toBytes x) = some k →
    Curve.toScalar k = x
  -- a digest that is taken for a scalar is not reduced
  toSecretBytes_fromSlice : ∀ (message : List UInt8) (k : SecretKey),
    Crypto.fromSlice (Crypto.sha256 message) = some k → Crypto.toSecretBytes k = Crypto.sha256 message

attribute [reducible, instance] CurveGroup.group CurveGroup.ring CurveGroup.module

variable [CurveGroup]
open CurveGroup

instance : LawfulCurve where
  toPoint_fromAffine := toPoint_fromAffine
  fromAffine_toPoint := fromAffine_toPoint
  sub_add_cancel p q := by simp [add_eq, sub_eq]

section
variable {secret : List UInt8} {a r nonce : SecretKey} {y blinded cPrime c key : PublicKey}

theorem blindMessage_eq_some (h : blindMessage secret r = some blinded) : ∃ y, hashToCurve secret = some y ∧
    Curve.toPoint blinded = BlindDh.blind Curve.generator (Curve.toPoint y) (Curve.toScalar r) := by
  obtain ⟨y, hy, hblinded⟩ := Option.bind_eq_some_iff.1 h
  refine ⟨y, hy, ?_⟩
  rw [toPoint_fromAffine _ _ hblinded, add_eq, toPoint_publicKey]
  rfl

theorem signMessage_eq_some (h : signMessage a y = some c) : Curve.toPoint c = Curve.toScalar a • Curve.toPoint y := by
  rw [toPoint_fromAffine _ _ h, mul_eq]

/-- What is unblinded is the signature on the secret's point itself. -/
theorem unblindSignature_signMessage (hy : hashToCurve secret = some y) (hblind : blindMessage secret r = some blinded)
    (hsign : signMessage a blinded = some cPrime) :
    unblindSignature cPrime r (Curve.publicKey a) = signMessage a y := by
  obtain ⟨y', hy', hblinded⟩ := blindMessage_eq_some hblind
  obtain rfl : y = y' := Option.some.inj (hy.symm.trans hy')
  have hunblind := BlindDh.unblind_blind Curve.generator (Curve.toPoint y) (Curve.toScalar a) (Curve.toScalar r)
  rw [← hblinded, ← signMessage_eq_some hsign, ← toPoint_publicKey, BlindDh.unblind] at hunblind
  rw [unblindSignature, sub_eq, mul_eq, hunblind, signMessage, mul_eq]

theorem verifySignatureWithPrivkey_signMessage (hy : hashToCurve secret = some y) (hsign : signMessage a y = some c) :
    verifySignatureWithPrivkey secret c a = some true := by
  rw [verifySignatureWithPrivkey, hy]
  simp [signMessage_eq_some hsign, mul_eq]

/-- The points that a verifier hashes with the key and the signature, and that they hash to the challenge. -/
theorem verifyDleq_eq_some_true {e s : SecretKey} : verifyDleq blinded cPrime e s key = some true ↔ ∃ r1 r2,
    Curve.fromAffine (BlindDh.commitment Curve.generator (Curve.toPoint key) (Curve.toScalar e) (Curve.toScalar s)) =
      some r1 ∧
    Curve.fromAffine (BlindDh.commitment (Curve.toPoint blinded) (Curve.toPoint cPrime) (Curve.toScalar e)
      (Curve.toScalar s)) = some r2 ∧
    hashE r1 r2 key cPrime = Crypto.toSecretBytes e := by
  simp only [verifyDleq, sub_eq, mul_eq, BlindDh.commitment]
  constructor
  · intro h
    obtain ⟨r1, hr1, h⟩ := Option.bind_eq_some_iff.1 h
    obtain ⟨r2, hr2, h⟩ := Option.bind_eq_some_iff.1 h
    exact ⟨r1, r2, hr1, hr2, (of_decide_eq_true (Option.some.inj h)).symm⟩
  · rintro ⟨r1, r2, hr1, hr2, h⟩
    simp [hr1, hr2, h]

/-- The prover's challenge and response, and the points that it hashes. -/
theorem proveDleq_eq_some {dleq : BlindSignatureDleq} (h : proveDleq blinded a nonce = some dleq) : ∃ cPrime r1 r2,
    signMessage a blinded = some cPrime ∧ Curve.fromAffine (Curve.toScalar nonce • Curve.generator) = some r1 ∧
    Curve.fromAffine (Curve.toScalar nonce • Curve.toPoint blinded) = some r2 ∧
    Crypto.toSecretBytes dleq.e = hashE r1 r2 (Curve.publicKey a) cPrime ∧
    Curve.toScalar dleq.s = BlindDh.response (Curve.toScalar a) (Curve.toScalar dleq.e) (Curve.toScalar nonce) := by
  obtain ⟨cPrime, hsign, h⟩ := Option.bind_eq_some_iff.1 h
  obtain ⟨r1, hr1, h⟩ := Option.bind_eq_some_iff.1 h
  obtain ⟨r2, hr2, h⟩ := Option.bind_eq_some_iff.1 h
  obtain ⟨e, he, h⟩ := Option.bind_eq_some_iff.1 h
  obtain ⟨s, hs, ⟨⟩⟩ := Option.bind_eq_some_iff.1 h
  rw [mul_eq] at hr1 hr2
  refine ⟨cPrime, r1, r2, hsign, hr1, hr2, toSecretBytes_fromSlice _ _ he, ?_⟩
  rw [toScalar_fromSlice _ _ hs, scalar_add_eq, scalar_mul_eq]
  rfl

/-- Honest proofs verify. -/
theorem verifyDleq_proveDleq {dleq : BlindSignatureDleq} (hsign : signMessage a blinded = some cPrime)
    (h : proveDleq blinded a nonce = some dleq) :
    verifyDleq blinded cPrime dleq.e dleq.s (Curve.publicKey a) = some true := by
  obtain ⟨cPrime', r1, r2, hsign', hr1, hr2, he, hs⟩ := proveDleq_eq_some h
  obtain rfl : cPrime = cPrime' := Option.some.inj (hsign.symm.trans hsign')
  refine verifyDleq_eq_some_true.2 ⟨r1, r2, ?_, ?_, he.symm⟩
  · rw [hs, toPoint_publicKey, BlindDh.commitment_response]
    exact hr1
  · rw [hs, signMessage_eq_some hsign, BlindDh.commitment_response]
    exact hr2

/-- The points that a verifier of an unblinded proof rebuilds under a key, to hash them with the key. -/
structure Rebuilds (secret : List UInt8) (c : PublicKey) (dleq : ProofDleq) (key r1 r2 cKey : PublicKey) : Prop where
  signature : Curve.fromAffine (BlindDh.reblind (Curve.toPoint c) (Curve.toPoint key) (Curve.toScalar dleq.r)) = some cKey
  first : Curve.fromAffine (BlindDh.commitment Curve.generator (Curve.toPoint key) (Curve.toScalar dleq.e)
    (Curve.toScalar dleq.s)) = some r1
  second : ∃ blinded, blindMessage secret dleq.r = some blinded ∧
    Curve.fromAffine (BlindDh.commitment (Curve.toPoint blinded) (Curve.toPoint cKey) (Curve.toScalar dleq.e)
      (Curve.toScalar dleq.s)) = some r2

/-- An unblinded proof passes under a key just when the points hash to its challenge. -/
theorem verifyProofDleq_iff {dleq : ProofDleq} : verifyProofDleq secret c dleq key = true ↔
    ∃ r1 r2 cKey, Rebuilds secret c dleq key r1 r2 cKey ∧ hashE r1 r2 key cKey = Crypto.toSecretBytes dleq.e := by
  have hgetD : ∀ x : Option Bool, x.getD false = true ↔ x = some true := by
    rintro (- | - | -) <;> simp
  unfold verifyProofDleq
  constructor
  · intro h
    split at h
    · cases h
    · next blinded hblind =>
      dsimp only at h
      split at h
      · cases h
      · next cKey hsignature =>
        obtain ⟨r1, r2, hr1, hr2, hhash⟩ := verifyDleq_eq_some_true.1 ((hgetD _).1 h)
        rw [add_eq, mul_eq] at hsignature
        exact ⟨r1, r2, cKey, ⟨hsignature, hr1, blinded, hblind, hr2⟩, hhash⟩
  · rintro ⟨r1, r2, cKey, ⟨hsignature, hr1, blinded, hblind, hr2⟩, hhash⟩
    rw [BlindDh.reblind, ← add_eq, ← mul_eq] at hsignature
    simp only [hblind, hsignature]
    exact (hgetD _).2 (verifyDleq_eq_some_true.2 ⟨r1, r2, hr1, hr2, hhash⟩)

/-- With a blinder and a key that lead to no identity, the signature on the blinded message, unblinded, is that on the
secret's point and passes under the private key. Its proof, with a nonce that leads to none, passes blinded and unblinded;
and it passes under another key just when the hash of the points there and that other key is the one that the signer found
here. -/
theorem blind_sign_unblind (hblind : blindMessage secret r = some blinded) (hsign : signMessage a blinded = some cPrime)
    (hc : unblindSignature cPrime r (Curve.publicKey a) = some c) :
    (∃ y, hashToCurve secret = some y ∧ Curve.toPoint c = Curve.mul (Curve.toPoint y) (Curve.toScalar a)) ∧
    verifySignatureWithPrivkey secret c a = some true ∧
    ∀ nonce dleq, proveDleq blinded a nonce = some dleq →
      verifyDleq blinded cPrime dleq.e dleq.s (Curve.publicKey a) = some true ∧
      verifyProofDleq secret c ⟨dleq.e, dleq.s, r⟩ (Curve.publicKey a) = true ∧
      ∃ r1 r2, Rebuilds secret c ⟨dleq.e, dleq.s, r⟩ (Curve.publicKey a) r1 r2 cPrime ∧
        ∀ key, key ≠ Curve.publicKey a → (verifyProofDleq secret c ⟨dleq.e, dleq.s, r⟩ key = true ↔
          ∃ r1' r2' cKey, Rebuilds secret c ⟨dleq.e, dleq.s, r⟩ key r1' r2' cKey ∧
            hashE r1' r2' key cKey = hashE r1 r2 (Curve.publicKey a) cPrime) := by
  obtain ⟨y, hy, -⟩ := blindMessage_eq_some hblind
  have hsigned : signMessage a y = some c := (unblindSignature_signMessage hy hblind hsign).symm.trans hc
  have hvalue : Curve.toPoint c = Curve.mul (Curve.toPoint y) (Curve.toScalar a) := toPoint_fromAffine _ _ hsigned
  refine ⟨⟨y, hy, hvalue⟩, verifySignatureWithPrivkey_signMessage hy hsigned, fun nonce dleq hprove => ?_⟩
  have hdleq := verifyDleq_proveDleq hsign hprove
  have hproof : verifyProofDleq secret c ⟨dleq.e, dleq.s, r⟩ (Curve.publicKey a) = true :=
    verifyProofDleq_unblind hblind hdleq hc
  refine ⟨hdleq, hproof, ?_⟩
  obtain ⟨r1, r2, cKey, hrebuilt, hhash⟩ := verifyProofDleq_iff.1 hproof
  obtain rfl : cPrime = cKey := by
    have hback := hrebuilt.signature
    rw [toPoint_fromAffine _ _ hc, sub_eq, mul_eq] at hback
    have hsame := BlindDh.reblind_unblind (Curve.toPoint cPrime) (Curve.toPoint (Curve.publicKey a)) (Curve.toScalar r)
    rw [BlindDh.unblind] at hsame
    rw [hsame, fromAffine_toPoint] at hback
    exact Option.some.inj hback
  exact ⟨r1, r2, hrebuilt, fun key _ => by rw [hhash]; exact verifyProofDleq_iff⟩

end

end

section toy

namespace ToyDhke
open scoped UInt8.CommRing

scoped instance crypto : Crypto := Toy32.crypto

/-- The residues modulo 256; every point is a key. -/
scoped instance curve : Curve :=
  @Curve.mk crypto UInt8 UInt8 1 (fun p q => p + q) (fun p q => p - q) (fun p k => p * k) id some id id fun p => [4, p]

scoped instance arithmetic : ScalarArithmetic :=
  @ScalarArithmetic.mk crypto curve (fun x y : UInt8 => x + y) (fun x y : UInt8 => x * y) Toy.bytes32
    (inferInstanceAs (DecidableEq UInt8))

noncomputable scoped instance group : CurveGroup :=
  @CurveGroup.mk crypto curve arithmetic (inferInstanceAs (AddCommGroup UInt8)) (inferInstanceAs (CommRing UInt8))
    (inferInstanceAs (Module UInt8 UInt8)) (fun _ _ => rfl) (fun _ _ => rfl) (fun p k => UInt8.mul_comm p k) (fun _ _ => rfl)
    (fun _ _ => rfl) (fun k => (UInt8.mul_one k).symm) (fun _ _ h => (Option.some.inj h).symm) (fun _ => rfl)
    (fun _ _ h => (Option.some.inj h).symm) fun _ _ h => congrArg Toy.bytes32 (Option.some.inj h).symm

end ToyDhke

open ToyDhke
theorem blind_sign_unblind_toy :
    (∃ y, hashToCurve [1] = some y ∧ Curve.toPoint (166 : UInt8) = Curve.mul (Curve.toPoint y) (Curve.toScalar (7 : UInt8))) ∧
    verifySignatureWithPrivkey [1] (166 : UInt8) (7 : UInt8) = some true ∧
    verifyDleq (175 : UInt8) (201 : UInt8) (48 : UInt8) (82 : UInt8) (7 : UInt8) = some true ∧
    verifyProofDleq [1] (166 : UInt8) ⟨(48 : UInt8), (82 : UInt8), (5 : UInt8)⟩ (7 : UInt8) = true := by
  have hblind : blindMessage [1] (5 : UInt8) = some (175 : UInt8) := by decide +kernel
  have hsign : signMessage (7 : UInt8) (175 : UInt8) = some (201 : UInt8) := by decide +kernel
  have hc : unblindSignature (201 : UInt8) (5 : UInt8) (Curve.publicKey (7 : UInt8)) = some (166 : UInt8) := by decide +kernel
  have hprove : proveDleq (175 : UInt8) (7 : UInt8) (2 : UInt8) = some ⟨(48 : UInt8), (82 : UInt8)⟩ := by decide +kernel
  obtain ⟨hpoint, hprivkey, hproves⟩ := blind_sign_unblind hblind hsign hc
  obtain ⟨hdleq, hproof, -⟩ := hproves _ _ hprove
  exact ⟨hpoint, hprivkey, hdleq, hproof⟩

end toy

end Micronuts
