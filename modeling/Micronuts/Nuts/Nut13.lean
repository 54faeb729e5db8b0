import Micronuts.Lib.Exec
import Micronuts.Lib.Text
import Micronuts.Nuts.Blinding

/-!
# NUT-13: deterministic secrets and blinders (`cashu-core-lite`: `nuts/nut13.rs`)

Both are an HMAC-SHA256 of the keyset id and the index under the seed, and differ in the last byte of the message.
`deriveOutput` is what the wallet makes of one index: the secret in hex, the blinder as a scalar, and the blinded message.
-/

namespace Micronuts

/-- The bytes of Latin-1 that `{:?}` writes as a code point: controls, the blank of `0xA0` and the hyphen of `0xAD`. -/
def unprintable (n : Nat) : Bool := n < 0x20 || (0x7F ≤ n && n ≤ 0xA0) || n = 0xAD

/-- `{:?}` of a byte as a character. -/
def debugByte (b : UInt8) : String :=
  let escaped :=
    match b.toNat with
    | 0x00 => "\\0"
    | 0x09 => "\\t"
    | 0x0A => "\\n"
    | 0x0D => "\\r"
    | 0x27 => "\\'"
    | 0x5C => "\\\\"
    | n =>
      if unprintable n then "\\u\x7b" ++ String.ofList (Nat.toDigits 16 n) ++ "\x7d"
      else String.singleton (Char.ofNat n)
  "'" ++ escaped ++ "'"

/-- The text of the `hex::FromHexError` for a text that does not decode. -/
def fromHexError (s : String) : String :=
  let bytes := asBytes s
  if bytes.length % 2 ≠ 0 then "Odd number of digits"
  else
    match bytes.zipIdx.find? fun (b, _) => (Hex.digitValue (Char.ofNat b.toNat)).isNone with
    | some (b, i) => "Invalid character " ++ debugByte b ++ " at position " ++ toString i
    | none => ""

variable [Crypto]

def hmacSha256 (key message : List UInt8) : List UInt8 :=
  let key := if 64 < key.length then Crypto.sha256 key else key
  let keyPadded := key ++ List.replicate (64 - key.length) 0
  let inner := Crypto.sha256 (keyPadded.map (· ^^^ 0x36) ++ message)
  Crypto.sha256 (keyPadded.map (· ^^^ 0x5c) ++ inner)

def hexDecodeKeysetId (keysetId : String) : Except CashuError (List UInt8) :=
  let trimmed := Text.trim keysetId
  if trimmed = "" then .error (.protocol "keyset ID cannot be empty")
  else Except.okOr (Hex.decode trimmed) (.protocol ("invalid keyset ID hex: " ++ fromHexError trimmed))

/-- The common part of `derive_secret` (type 0) and `derive_blinder` (type 1). -/
def derive (derivationType : UInt8) (seed : List UInt8) (keysetId : String) (counter : UInt32) :
    Except CashuError (List UInt8) := do
  let keysetIdBytes ← hexDecodeKeysetId keysetId
  let message := asBytes "Cashu_KDF_HMAC_SHA256" ++ keysetIdBytes ++ toBeBytes 8 counter.toNat ++ [derivationType]
  pure (hmacSha256 seed message)

def deriveSecret (seed : List UInt8) (keysetId : String) (counter : UInt32) : Except CashuError (List UInt8) :=
  derive 0x00 seed keysetId counter

def deriveBlinder (seed : List UInt8) (keysetId : String) (counter : UInt32) : Except CashuError (List UInt8) :=
  derive 0x01 seed keysetId counter

structure DerivedOutput where
  secretHex : String
  blinder : SecretKey
  blinded : PublicKey
deriving DecidableEq

def deriveOutput [Curve] (seed : List UInt8) (keysetId : String) (idx : UInt32) : Except CashuError DerivedOutput := do
  let secret ← deriveSecret seed keysetId idx
  let blinderBytes ← deriveBlinder seed keysetId idx
  let blinder ← Except.okOr (Crypto.fromSlice blinderBytes) (.crypto "bad blinder scalar")
  let secretHex := Hex.encode secret
  let blinded ← Except.okOr (blindMessage (asBytes secretHex) blinder) (.crypto "blind_message failed")
  pure { secretHex, blinder, blinded }

end Micronuts
