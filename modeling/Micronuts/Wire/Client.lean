import Micronuts.Nuts.Nut11
import Micronuts.Nuts.Wire
import Micronuts.Wire.Value

/-!
# The wallet's side of the wire (`micronuts-wallet-core`: `mint_wire.rs`)

The JSON bodies that the client posts, and what it makes of the answers. Fields that the wallet needs are strict, the others
have defaults.
-/

namespace Micronuts

/-- `Display` of a JSON value, which is its text. -/
class SerdeJson where
  toText : Value → String

structure JsonTransport where
  getJson : String → Except CashuError Value
  postJson : String → Value → Except CashuError Value

structure WireMintClient where
  base : String
  transport : JsonTransport

section
variable [Crypto] [SerdeJson]

namespace MintWire

def protocol (detail : String) : CashuError := .protocol detail

/-- The first 200 characters of a body. -/
def truncateBody (value : Value) : String := String.ofList ((SerdeJson.toText value).toList.take 200)

/-! ### Fields -/

def missing (ctx field : String) : CashuError := protocol (ctx ++ ": missing or invalid `" ++ field ++ "`")

def u64Field (value : Value) (field ctx : String) : Except CashuError UInt64 :=
  Except.okOr ((value.get field).bind Value.asU64) (missing ctx field)

def strField (value : Value) (field ctx : String) : Except CashuError String :=
  Except.okOr ((value.get field).bind Value.asStr) (missing ctx field)

def boolField (value : Value) (field ctx : String) : Except CashuError Bool :=
  Except.okOr ((value.get field).bind Value.asBool) (missing ctx field)

def optStrField (value : Value) (field : String) : Option String := (value.get field).bind Value.asStr

/-- `value.get(field).and_then(Value::as_u64)`, with a default. -/
def u64Or (value : Value) (field : String) : UInt64 := ((value.get field).bind Value.asU64).getD 0

def strOr (value : Value) (field default : String) : String := (optStrField value field).getD default

def pointFromHex (s : String) : Except CashuError PublicKey := do
  let bytes ← Except.okOr (Hex.decode s) (protocol "point field: not valid hex")
  if bytes.length ≠ 33 then .error (protocol "point field: expected 33 bytes (66 hex chars)")
  else Except.okOr (Crypto.fromBytes bytes) (protocol "point field: not a valid compressed secp256k1 point")

def pointField (value : Value) (field ctx : String) : Except CashuError PublicKey := do
  let s ← strField value field ctx
  (pointFromHex s).mapError fun _ => protocol (ctx ++ ": invalid `" ++ field ++ "` point")

def scalarField (value : Value) (field : String) : Except CashuError SecretKey := do
  let s ← strField value field "dleq"
  let bytes ← Except.okOr (Hex.decode s) (protocol "dleq: scalar not valid hex")
  Except.okOr (Crypto.fromSlice bytes) (protocol "dleq: invalid scalar")

/-! ### Answers -/

def parseKeyPair (member : String × Value) : Except CashuError KeyPair := do
  let amount ← Except.okOr (parseU64 member.1) (protocol "keyset: non-numeric amount key")
  let pubkeyHex ← Except.okOr member.2.asStr (protocol "keyset: pubkey values must be hex strings")
  let pubkey ← (pointFromHex pubkeyHex).mapError fun _ => protocol "keyset: invalid keyset pubkey point"
  pure ⟨amount, pubkey⟩

def parseKeyset (value : Value) : Except CashuError KeySet := do
  let id ← strField value "id" "keyset"
  let unit ← strField value "unit" "keyset"
  let keysMap ← Except.okOr ((value.get "keys").bind Value.asObject) (protocol "keyset: missing keys map")
  let keys ← keysMap.mapM parseKeyPair
  pure ⟨id, unit, keys.mergeSort fun a b => a.amount ≤ b.amount⟩

def parseSignatureEntry (sig : Value) : Except CashuError BlindSignature := do
  let dleq ← match sig.get "dleq" with
    | none | some .null => pure none
    | some dleq => do
      let e ← scalarField dleq "e"
      let s ← scalarField dleq "s"
      pure (some ⟨e, s⟩)
  let amount ← u64Field sig "amount" "blind signature"
  let id ← strField sig "id" "blind signature"
  let c ← pointField sig "C_" "blind signature"
  pure ⟨amount, id, c, dleq⟩

def parseSignatures (value : Value) : Except CashuError (List BlindSignature) := do
  let signatures ← Except.okOr ((value.get "signatures").bind Value.asArray)
    (protocol ("signatures response: missing signatures array (body: " ++ truncateBody value ++ ")"))
  signatures.mapM parseSignatureEntry

def parseMintQuoteResponse (value : Value) : Except CashuError Wire.MintQuoteResponse := do
  let state ← strField value "state" "mint quote"
  let paid := ((value.get "paid").bind Value.asBool).getD (state = "PAID" ∨ state = "ISSUED")
  let quote ← strField value "quote" "mint quote"
  let request ← strField value "request" "mint quote"
  pure {
    quote, request, paid, state
    expiry := u64Or value "expiry"
    amount := u64Or value "amount"
    unit := strOr value "unit" "sat"
    amountPaid := u64Or value "amount_paid"
    amountIssued := u64Or value "amount_issued"
    updatedAt := u64Or value "updated_at"
    method := strOr value "method" "bolt11"
    pubkey := optStrField value "pubkey" }

def parseMeltQuoteResponse (value : Value) : Except CashuError Wire.MeltQuoteResponse := do
  let state ← strField value "state" "melt quote"
  let paid := ((value.get "paid").bind Value.asBool).getD (state = "PAID")
  let quote ← strField value "quote" "melt quote"
  let amount ← u64Field value "amount" "melt quote"
  let feeReserve ← u64Field value "fee_reserve" "melt quote"
  pure {
    quote, amount, feeReserve, paid, state
    expiry := u64Or value "expiry"
    request := strOr value "request" ""
    unit := strOr value "unit" "sat"
    method := strOr value "method" "bolt11" }

def parseMeltResponse (value : Value) : Except CashuError Wire.MeltResponse := do
  let change ← match value.get "change" with
    | none | some .null => pure none
    | some (.array []) => pure none
    | some (.array entries) => do
      let parsed ← entries.mapM parseSignatureEntry
      pure (some parsed)
    | some _ => .error (protocol "melt response: change must be an array")
  let paid ← boolField value "paid" "melt response"
  let state ← strField value "state" "melt response"
  pure {
    paid, state, change
    paymentPreimage := optStrField value "payment_preimage"
    quote := strOr value "quote" ""
    amount := u64Or value "amount"
    feeReserve := u64Or value "fee_reserve"
    unit := strOr value "unit" "sat"
    expiry := u64Or value "expiry"
    request := strOr value "request" ""
    method := strOr value "method" "bolt11" }

def parsePaymentMethod : Value → Option PaymentMethod
  | .string name => some ⟨name, "sat"⟩
  | .object members => some ⟨strOr (.object members) "method" "", strOr (.object members) "unit" ""⟩
  | _ => none

def nut19CachedEndpoint (value : Value) : CachedEndpoint := ⟨strOr value "method" "", strOr value "path" ""⟩

def parseNutSettings (value : Value) : NutSettings where
  methods := (((value.get "methods").bind Value.asArray).getD []).filterMap parsePaymentMethod
  supported := (value.get "supported").bind Value.asBool
  ttl := (value.get "ttl").bind Value.asU64
  maxBatchSize := (value.get "max_batch_size").bind Value.asU64
  cachedEndpoints := (((value.get "cached_endpoints").bind Value.asArray).getD []).map nut19CachedEndpoint

def naturalNutOrder (a b : String) : Ordering :=
  match parseU64 a, parseU64 b with
  | some a, some b => compare a b
  | _, _ => compare a b

def parseMintInfo (value : Value) : Except CashuError MintInfo :=
  let contact := (((value.get "contact").bind Value.asArray).getD []).map fun c =>
    (⟨strOr c "method" "", strOr c "info" ""⟩ : ContactInfo)
  let nuts := (((value.get "nuts").bind Value.asObject).getD []).map fun nut => (nut.1, parseNutSettings nut.2)
  pure {
    name := strOr value "name" ""
    pubkey := strOr value "pubkey" ""
    version := strOr value "version" ""
    description := strOr value "description" ""
    contact
    nuts := nuts.mergeSort fun a b => naturalNutOrder a.1 b.1 ≠ .gt }

def parseProofState (state : Value) : Except CashuError ProofState := do
  let y ← pointField state "Y" "proof state"
  let text ← strField state "state" "proof state"
  pure ⟨y, text, optStrField state "witness"⟩

def parseRestoreOutput (pair : Value × BlindSignature) : Except CashuError RestoreOutput := do
  let yHex ← Except.okOr pair.1.asStr (protocol "restore response: outputs entries must be hex strings")
  let y ← pointFromHex yHex
  pure ⟨y, pair.2⟩

/-! ### Bodies -/

def blindedMessageToJson (message : BlindedMessage) : Value :=
  .ofFields [("amount", .number (.posInt message.amount)), ("id", .string message.id), ("B_", .string (pointHex message.b))]

def proofToJson (proof : Proof) : Value :=
  let value := Value.ofFields [("amount", .number (.posInt proof.amount)), ("id", .string proof.id),
    ("secret", .string proof.secret), ("C", .string (pointHex proof.c))]
  match proof.witness with
  | some witness => value.set "witness" (.string witness)
  | none => value

def mintQuoteBody (request : MintQuoteRequest) : Value :=
  let body := Value.ofFields [("amount", .number (.posInt request.amount)), ("unit", .string request.unit)]
  match request.pubkey with
  | some pubkey => body.set "pubkey" (.string pubkey)
  | none => body

def mintBody (request : MintRequest) : Value :=
  let body := Value.ofFields [("quote", .string request.quote),
    ("outputs", .array (request.outputs.map blindedMessageToJson))]
  match request.signature with
  | some signature => body.set "signature" (.string signature)
  | none => body

def meltQuoteBody (request : MeltQuoteRequest) : Value :=
  let body := Value.ofFields [("request", .string request.request), ("unit", .string request.unit)]
  match request.amount with
  | some a => body.set "amount" (.number (.posInt a))
  | none => body

def meltBody (request : MeltRequest) : Value :=
  let body := Value.ofFields [("quote", .string request.quote), ("inputs", .array (request.inputs.map proofToJson))]
  match request.outputs with
  | some outputs => body.set "outputs" (.array (outputs.map blindedMessageToJson))
  | none => body

def swapBody (request : SwapRequest) : Value :=
  .ofFields [("inputs", .array (request.inputs.map proofToJson)),
    ("outputs", .array (request.outputs.map blindedMessageToJson))]

def checkStateBody (request : CheckStateRequest) : Value :=
  .ofFields [("Ys", .array (request.ys.map fun y => .string (pointHex y)))]

def restoreBody (request : RestoreRequest) : Value :=
  .ofFields [("outputs", .array (request.outputs.map fun y => .string (pointHex y)))]

/-- Two uppercase digits for a byte. -/
def percentByte (byte : UInt8) : String :=
  let digit (n : Nat) := Char.ofNat (if n < 10 then 48 + n else 55 + n)
  String.ofList ['%', digit (byte.toNat / 16), digit (byte.toNat % 16)]

/-- The bytes that a path segment keeps. -/
def unreserved (byte : UInt8) : Bool :=
  ('A'.toUInt8 ≤ byte ∧ byte ≤ 'Z'.toUInt8) ∨ ('a'.toUInt8 ≤ byte ∧ byte ≤ 'z'.toUInt8) ∨
    ('0'.toUInt8 ≤ byte ∧ byte ≤ '9'.toUInt8) ∨ byte = '-'.toUInt8 ∨ byte = '_'.toUInt8 ∨ byte = '.'.toUInt8 ∨
    byte = '~'.toUInt8

def urlencode (segment : String) : String :=
  String.join ((asBytes segment).map fun byte =>
    if unreserved byte then String.singleton (Char.ofNat byte.toNat) else percentByte byte)

end MintWire

namespace WireMintClient
open MintWire
variable (c : WireMintClient)

def url (path : String) : String := c.base ++ path

def getInfo : Except CashuError MintInfo := do
  let body ← c.transport.getJson (c.url "/v1/info")
  parseMintInfo body

def getKeys : Except CashuError KeysResponse := do
  let body ← c.transport.getJson (c.url "/v1/keys")
  let keysets ← Except.okOr ((body.get "keysets").bind Value.asArray) (protocol "keys response: missing keysets array")
  let parsed ← keysets.mapM parseKeyset
  pure ⟨parsed⟩

def parseKeysetInfo (ks : Value) : Except CashuError KeysetInfo := do
  let id ← strField ks "id" "keyset info"
  let unit ← strField ks "unit" "keyset info"
  let active ← boolField ks "active" "keyset info"
  let inputFeePpk ← u64Field ks "input_fee_ppk" "keyset info"
  pure ⟨id, unit, active, inputFeePpk⟩

def getKeysets : Except CashuError KeysetsResponse := do
  let body ← c.transport.getJson (c.url "/v1/keysets")
  let keysets ← Except.okOr ((body.get "keysets").bind Value.asArray) (protocol "keysets response: missing keysets array")
  let parsed ← keysets.mapM parseKeysetInfo
  pure ⟨parsed⟩

def postMintQuote (request : MintQuoteRequest) : Except CashuError Wire.MintQuoteResponse := do
  let response ← c.transport.postJson (c.url "/v1/mint/quote/bolt11") (mintQuoteBody request)
  parseMintQuoteResponse response

def getMintQuote (quoteId : String) : Except CashuError Wire.MintQuoteResponse := do
  let response ← c.transport.getJson (c.url ("/v1/mint/quote/bolt11/" ++ urlencode quoteId))
  parseMintQuoteResponse response

def postMint (request : MintRequest) : Except CashuError MintResponse := do
  let response ← c.transport.postJson (c.url "/v1/mint/bolt11") (mintBody request)
  let signatures ← parseSignatures response
  pure ⟨signatures⟩

def postMeltQuote (request : MeltQuoteRequest) : Except CashuError Wire.MeltQuoteResponse := do
  let response ← c.transport.postJson (c.url "/v1/melt/quote/bolt11") (meltQuoteBody request)
  parseMeltQuoteResponse response

def getMeltQuote (quoteId : String) : Except CashuError Wire.MeltQuoteResponse := do
  let response ← c.transport.getJson (c.url ("/v1/melt/quote/bolt11/" ++ urlencode quoteId))
  parseMeltQuoteResponse response

def postMelt (request : MeltRequest) : Except CashuError Wire.MeltResponse := do
  let response ← c.transport.postJson (c.url "/v1/melt/bolt11") (meltBody request)
  parseMeltResponse response

def postSwap (request : SwapRequest) : Except CashuError SwapResponse := do
  let response ← c.transport.postJson (c.url "/v1/swap") (swapBody request)
  let signatures ← parseSignatures response
  pure ⟨signatures⟩

def postCheckState (request : CheckStateRequest) : Except CashuError CheckStateResponse := do
  let response ← c.transport.postJson (c.url "/v1/checkstate") (checkStateBody request)
  let states ← Except.okOr ((response.get "states").bind Value.asArray)
    (protocol "checkstate response: missing states array")
  let parsed ← states.mapM parseProofState
  pure ⟨parsed⟩

def postRestore (request : RestoreRequest) : Except CashuError RestoreResponse := do
  let response ← c.transport.postJson (c.url "/v1/restore") (restoreBody request)
  let ys ← Except.okOr ((response.get "outputs").bind Value.asArray) (protocol "restore response: missing outputs array")
  let signatures ← parseSignatures response
  if ys.length ≠ signatures.length then .error (protocol "restore response: outputs/signatures length mismatch")
  else do
    let parsed ← (ys.zip signatures).mapM parseRestoreOutput
    pure ⟨parsed⟩

end WireMintClient

end

end Micronuts
