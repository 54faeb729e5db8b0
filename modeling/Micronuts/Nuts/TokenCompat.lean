import Micronuts.Nuts.Nut13
import Micronuts.Nuts.Token
import Micronuts.Wire.Value

/-!
# V3 tokens (`micronuts-wallet-core`: `token_compat.rs`)

A text that begins with `cashuA` is JSON in standard base64; each of its entries is split into one group a keyset id. Every
other text goes to the reader of V4 tokens.
-/

namespace Micronuts

/-- The crates `base64` and `serde_json`, and the texts of the errors of `minicbor`. -/
class TokenCrates where
  -- `general_purpose::STANDARD.decode`, or the text of its error
  base64Standard : List UInt8 → Except String (List UInt8)
  -- `serde_json::from_slice`
  jsonFromSlice : List UInt8 → Except String Value
  decodeTokenError : List UInt8 → String
  encodeTokenError : String

section
variable [Crypto] [TokenCrates]

/-- Emitters leave the padding out. -/
def padBase64 (body : List UInt8) : List UInt8 :=
  match body.length % 4 with
  | 2 => body ++ asBytes "=="
  | 3 => body ++ asBytes "="
  | _ => body

/-- `value.get(field).and_then(read).ok_or_else(…)`. -/
def v3Field {α : Type} (read : Value → Option α) (field : String) (v : Value) (missing : String) : Except CashuError α :=
  Except.okOr ((v.get field).bind read) (.protocol missing)

def v3Proof (p : Value) : Except CashuError Token.Proof := do
  let id ← v3Field Value.asStr "id" p "V3: proof missing id"
  let amount ← v3Field Value.asU64 "amount" p "V3: proof missing amount"
  let secret ← v3Field Value.asStr "secret" p "V3: proof missing secret"
  let cHex ← v3Field Value.asStr "C" p "V3: proof missing C"
  let c ← Except.okOr (Hex.decode cHex) (.protocol ("V3: proof C not hex: " ++ fromHexError cHex))
  pure { amount, keysetId := id, secret, c, dleq := none }

/-- The proofs of an entry by their keyset ids, in the order of the ids. -/
def byKeyset (proofs : List Token.Proof) : List TokenV4Token :=
  (proofs.foldl (fun acc p => Members.insert p.keysetId ((Members.lookup p.keysetId acc).getD [] ++ [p]) acc) []).map
    fun (keysetId, proofs) => { keysetId, proofs }

def v3Group (group : Value) : Except CashuError (List TokenV4Token) := do
  let proofsJson ← v3Field Value.asArray "proofs" group "V3: missing proofs"
  let proofs ← proofsJson.mapM v3Proof
  pure (byKeyset proofs)

/-- The mint is that of the first entry. -/
def decodeV3 (tokenStr : String) : Except CashuError TokenV4 := do
  let body ← Except.okOr (stripPrefix (asBytes "cashuA") (asBytes tokenStr)) (.protocol "not a cashuA token")
  let jsonBytes ← (TokenCrates.base64Standard (padBase64 body)).mapError fun e => .protocol ("V3 base64 decode: " ++ e)
  let v3 ← (TokenCrates.jsonFromSlice jsonBytes).mapError fun e => .protocol ("V3 JSON parse: " ++ e)
  let groups ← v3Field Value.asArray "token" v3 "V3: missing token array"
  let tokens ← groups.mapM v3Group
  let mint := ((groups.head?.bind (Value.get "mint")).bind Value.asStr).getD ""
  let unit := ((v3.get "unit").bind Value.asStr).getD "sat"
  pure { mint, unit, memo := (v3.get "memo").bind Value.asStr, tokens := tokens.flatten }

variable [Minicbor]

def decodeTokenAny (tokenStr : String) : Except CashuError TokenV4 :=
  if (asBytes "cashuA").isPrefixOf (asBytes tokenStr) then decodeV3 tokenStr
  else Except.okOr (decodeToken (asBytes tokenStr))
    (.protocol ("invalid token: " ++ TokenCrates.decodeTokenError (asBytes tokenStr)))

end

/-! ### An instance to read tokens with -/

namespace ToyEngine

/-- Only V4 tokens are read. -/
scoped instance tokenCrates : TokenCrates where
  base64Standard _ := .error "invalid byte"
  jsonFromSlice _ := .error "expected value"
  decodeTokenError _ := "decode error"
  encodeTokenError := "encode error"

end ToyEngine

end Micronuts
