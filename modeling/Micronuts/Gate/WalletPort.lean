import Micronuts.Lib.Exec
import Micronuts.Lib.Text
import Micronuts.Nuts.Nut00
import Micronuts.Nuts.Token

/-!
# The wallet port (`walletport`: `lib.rs`)

What the gate takes from the facade: its errors, the mints it trusts, and the way a scanned text becomes a token.
-/

namespace Micronuts

inductive WalletPortError
  -- with the text of `minicbor`'s error
  | decode
  | untrustedMint (mint : String)
  | invalidProof (msg : String)
  | lockedSecret
  | insufficientAmount (got need : UInt64)
  | replay
  | storage (msg : String)
  | unsupported (msg : String)
deriving DecidableEq, Repr

structure TrustModel where
  acceptedMints : List String
  allowUntrusted : Bool

def TrustModel.mintAccepted (trust : TrustModel) (mint : String) : Bool :=
  trust.acceptedMints.any (· = mint) || trust.allowUntrusted

/-- The text of a JSON object; the array of a NUT-10 secret passes here. -/
def secretHasSpendingConditions (secret : String) : Bool := secret.toList.head? = some '\x7b'

/-! ### The text of a token -/

/-- The position in `TABLE`, of the url alphabet alone. -/
def tablePosition (b : UInt8) : Option UInt32 :=
  if 65 ≤ b ∧ b ≤ 90 then some (b - 65).toUInt32
  else if 97 ≤ b ∧ b ≤ 122 then some (b - 97 + 26).toUInt32
  else if 48 ≤ b ∧ b ≤ 57 then some (b - 48 + 52).toUInt32
  else if b = '-'.toUInt8 then some 62
  else if b = '_'.toUInt8 then some 63
  else none

/-- The loop of `base64url_decode`: foreign bytes are passed over, and the first `=` ends the text. -/
def base64urlDecodeFrom : List UInt8 → UInt32 → UInt32 → List UInt8
  | [], _, _ => []
  | b :: input, buf, bits =>
    if b = '='.toUInt8 then []
    else
      match tablePosition b with
      | none => base64urlDecodeFrom input buf bits
      | some pos =>
        let buf := buf <<< 6 ||| pos
        let bits := bits + 6
        if 8 ≤ bits then (buf >>> (bits - 8)).toUInt8 :: base64urlDecodeFrom input buf (bits - 8)
        else base64urlDecodeFrom input buf bits

def base64urlDecode (input : List UInt8) : List UInt8 := base64urlDecodeFrom input 0 0

/-- `strip_prefix` of the facade: the bytes of a `cashuB` text, or of a text in hex. -/
def tokenBytes (token : String) : List UInt8 :=
  let t := Text.trim token
  match stripPrefix (asBytes "cashuB") (asBytes t) with
  | some rest => base64urlDecode rest
  | none => (Hex.decode t).getD []

section
variable [Crypto]

def decodeTokenOrErr [Minicbor] (token : String) : Except WalletPortError TokenV4 :=
  Except.okOr (decodeToken (tokenBytes token)) .decode

def findKeyset (pinned : List KeySet) (keysetId : String) : Option KeySet := pinned.find? fun k => k.id = keysetId

end

end Micronuts
