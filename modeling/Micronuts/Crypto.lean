import Micronuts.Lib.Hex

/-!
# The cryptographic crates

`Crypto` collects what the workspace takes from crates outside it: the key types (`k256`), the blind
Diffie-Hellman primitives (`cashu::dhke`), BIP-340 verification (`secp256k1`) and SHA-256 (`sha2`).
The types are abstract and the functions arbitrary, apart from the round trips of the key encodings.
`cashu` and `cashu-core-lite` keys have the same bytes, so `type_conversion` is the identity here.
-/

namespace Micronuts

class Crypto where
  PublicKey : Type
  SecretKey : Type
  Signature : Type
  decEqPublicKey : DecidableEq PublicKey
  decEqSecretKey : DecidableEq SecretKey
  -- `PublicKey::to_bytes` (compressed SEC1) and `from_bytes`, `SecretKey::to_secret_bytes` and `from_slice`
  toBytes : PublicKey → List UInt8
  fromBytes : List UInt8 → Option PublicKey
  toSecretBytes : SecretKey → List UInt8
  fromSlice : List UInt8 → Option SecretKey
  toBytes_length : ∀ p, (toBytes p).length = 33
  toSecretBytes_length : ∀ k, (toSecretBytes k).length = 32
  fromBytes_toBytes : ∀ p, fromBytes (toBytes p) = some p
  fromSlice_toSecretBytes : ∀ k, fromSlice (toSecretBytes k) = some k
  -- `cashu::dhke`: `hash_to_curve`, `sign_message` (`C_ = k * B_`), `verify_message` returning `Ok`
  hashToCurve : List UInt8 → Option PublicKey
  signMessage : SecretKey → PublicKey → Option PublicKey
  verifyMessage : SecretKey → PublicKey → List UInt8 → Bool
  -- the DLEQ half of `cashu::BlindSignature::new`, with its random nonce, and `Id::from_str` accepting
  proveDleq : Nat → SecretKey → (blinded c : PublicKey) → Option (SecretKey × SecretKey)
  idValid : String → Bool
  -- `schnorr::Signature::from_str` and `cashu::PublicKey::verify` (BIP-340 over the message's SHA-256)
  signatureFromStr : String → Option Signature
  verify : PublicKey → List UInt8 → Signature → Bool
  sha256 : List UInt8 → List UInt8

export Crypto (PublicKey SecretKey Signature)

variable [Crypto]

instance : DecidableEq PublicKey := Crypto.decEqPublicKey

instance : DecidableEq SecretKey := Crypto.decEqSecretKey

theorem toBytes_injective {p q : PublicKey} (h : Crypto.toBytes p = Crypto.toBytes q) : p = q := by
  have := Crypto.fromBytes_toBytes p
  rw [h, Crypto.fromBytes_toBytes] at this
  exact (Option.some.inj this).symm

/-- `hex::encode(point.to_encoded_point(true))`: the key of a point in the mint's tables. -/
def pointHex (p : PublicKey) : String := Hex.encode (Crypto.toBytes p)

theorem pointHex_injective {p q : PublicKey} (h : pointHex p = pointHex q) : p = q :=
  toBytes_injective (Hex.encode_injective h)

/-- `str::as_bytes`. -/
def asBytes (s : String) : List UInt8 := s.toByteArray.data.toList

omit [Crypto] in
theorem asBytes_injective {s t : String} (h : asBytes s = asBytes t) : s = t :=
  String.toByteArray_inj.1 (ByteArray.ext (Array.toList_inj.1 h))

section
omit [Crypto]

theorem fromUTF8?_asBytes (s : String) : String.fromUTF8? ⟨⟨asBytes s⟩⟩ = some s := by
  have hs : (⟨⟨asBytes s⟩⟩ : ByteArray) = s.toByteArray := rfl
  rw [hs, String.fromUTF8?, dif_pos s.isValidUTF8]
  rfl

theorem asBytes_append (s t : String) : asBytes (s ++ t) = asBytes s ++ asBytes t := by
  simp [asBytes, String.toByteArray_append]

theorem asBytes_join (l : List String) : asBytes (String.join l) = l.flatMap asBytes := by
  induction l with
  | nil => rfl
  | cons s l ih => rw [String.join_cons, asBytes_append, ih, List.flatMap_cons]

theorem asBytes_eq_flatMap (s : String) : asBytes s = s.toList.flatMap String.utf8EncodeChar := by
  have h : s.toByteArray = s.toList.utf8Encode := by
    rw [← String.toByteArray_ofList, String.ofList_toList]
  rw [asBytes, h, List.utf8Encode]
  simp

/-- The text of a byte string in hex has two digits for each byte. -/
theorem asBytes_encode (bs : List UInt8) : asBytes (Hex.encode bs) =
    bs.flatMap fun b => [(Hex.digit (b.toNat / 16)).toUInt8, (Hex.digit (b.toNat % 16)).toUInt8] := by
  have hdigit : ∀ n < 16, String.utf8EncodeChar (Hex.digit n) = [(Hex.digit n).toUInt8] := by decide
  have hbytes : asBytes (Hex.encode bs) = (Hex.digits bs).flatMap String.utf8EncodeChar := by
    simp [asBytes, Hex.encode, String.toByteArray_ofList, List.utf8Encode]
  rw [hbytes]
  clear hbytes
  induction bs with
  | nil => rfl
  | cons b bs ih =>
    have hb := b.toNat_lt
    have hcons : Hex.digits (b :: bs) = Hex.digit (b.toNat / 16) :: Hex.digit (b.toNat % 16) :: Hex.digits bs := rfl
    rw [hcons, List.flatMap_cons, List.flatMap_cons, ih, hdigit _ (by omega), hdigit _ (by omega)]
    rfl

theorem length_asBytes_encode (bs : List UInt8) : (asBytes (Hex.encode bs)).length = 2 * bs.length := by
  rw [asBytes_encode]
  simp [List.length_flatMap, Nat.mul_comm]

end

/-! ### An instance to run the mint on -/

namespace Toy

def bytes33 (p : UInt8) : List UInt8 := 2 :: (List.replicate 31 0 ++ [p])

def bytes32 (k : UInt8) : List UInt8 := List.replicate 31 0 ++ [k]

def ofBytes (n : Nat) (bs : List UInt8) : Option UInt8 := if bs.length = n then bs.getLast? else none

def fold (bs : List UInt8) : UInt8 := bs.foldl (fun acc b => acc * 3 + b) 1

/-- The SHA-256 digest of the number one in 32 bytes; other messages stand for themselves. -/
def digest (bs : List UInt8) : List UInt8 :=
  if bs = bytes32 1 then
    [0xec, 0x49, 0x16, 0xdd, 0x28, 0xfc, 0x4c, 0x10, 0xd7, 0x8e, 0x28, 0x7c, 0xa5, 0xd9, 0xcc, 0x51,
     0xee, 0x1a, 0xe7, 0x3c, 0xbf, 0xde, 0x08, 0xc6, 0xb3, 0x73, 0x24, 0xcb, 0xfa, 0xac, 0x8b, 0xc5]
  else bs

/-- The additive group of the residues modulo 256 in place of the curve. -/
scoped instance crypto : Crypto where
  PublicKey := UInt8
  SecretKey := UInt8
  Signature := List UInt8
  decEqPublicKey := inferInstanceAs (DecidableEq UInt8)
  decEqSecretKey := inferInstanceAs (DecidableEq UInt8)
  toBytes := bytes33
  fromBytes := ofBytes 33
  toSecretBytes := bytes32
  fromSlice := ofBytes 32
  toBytes_length _ := rfl
  toSecretBytes_length _ := rfl
  fromBytes_toBytes _ := rfl
  fromSlice_toSecretBytes _ := rfl
  hashToCurve bs := some (fold bs)
  signMessage k b := some (k * b)
  verifyMessage k c bs := c = k * fold bs
  proveDleq nonce k b c := some (UInt8.ofNat nonce, k + b + c)
  idValid _ := true
  signatureFromStr := Hex.decode
  verify p bs sig := sig = [p + fold bs]
  sha256 := digest

end Toy

end Micronuts
