import Micronuts.Lib.Exec
import Micronuts.Nuts.Wire
import Micronuts.Wire.Value

/-!
# The adapter's side of the wire (`micronuts-audit-adapter`: `main.rs`)

The requests that the adapter reads from JSON bodies, and the JSON of the mint's responses and errors.
-/

namespace Micronuts

structure HttpResponse where
  status : Nat
  body : Value

namespace Audit

/-! ### Errors -/

def errorStatus : CashuError → Nat × String
  | .quoteNotFound => (404, "QUOTE_NOT_FOUND")
  | .keysetNotFound => (404, "KEYSET_NOT_FOUND")
  | .invalidAmount => (400, "INVALID_AMOUNT")
  | .invalidProof => (400, "INVALID_PROOF")
  | .amountMismatch => (400, "AMOUNT_MISMATCH")
  | .insufficientInputs => (400, "INSUFFICIENT_INPUTS")
  | .quoteNotPaid => (400, "QUOTE_NOT_PAID")
  | .quoteAlreadyIssued => (400, "QUOTE_ALREADY_ISSUED")
  | .tokensAlreadySpent => (400, "TOKENS_ALREADY_SPENT")
  | .meltAlreadyPaid => (400, "MELT_ALREADY_PAID")
  | .spendConditionsNotMet => (400, "SPEND_CONDITIONS_NOT_MET")
  | .paymentFailed => (500, "PAYMENT_FAILED")
  | .quoteSignatureInvalid => (400, "QUOTE_SIGNATURE_INVALID")
  | .batchTooLarge => (400, "BATCH_TOO_LARGE")
  | .tooManyOutputs => (400, "TOO_MANY_OUTPUTS")
  | .batchQuoteNotUnique => (400, "BATCH_QUOTE_NOT_UNIQUE")
  | .protocol _ => (500, "PROTOCOL_ERROR")
  | .crypto _ => (500, "CRYPTO_ERROR")
  | .transport _ => (500, "TRANSPORT_ERROR")
  | .unknown _ => (500, "UNKNOWN")
  | .storage _ => (500, "STORAGE_ERROR")

def cashuErrorToResponse (err : CashuError) : HttpResponse :=
  let (status, codeLabel) := errorStatus err
  ⟨status, .ofFields [("detail", .string err.fmt), ("code", .string codeLabel), ("error_kind", .string codeLabel)]⟩

def badRequest (field detail : String) : HttpResponse :=
  ⟨400, .ofFields [("detail", .string ("invalid request body: " ++ field ++ ": " ++ detail)),
    ("code", .string "BAD_REQUEST"), ("error_kind", .string "BAD_REQUEST")]⟩

section
variable [Crypto]

/-! ### Requests -/

def u64Field (body : Value) (field label : String) : Except HttpResponse UInt64 :=
  Except.okOr ((body.get field).bind Value.asU64) (badRequest label "missing or not a non-negative integer")

def strField (body : Value) (field label detail : String) : Except HttpResponse String :=
  Except.okOr ((body.get field).bind Value.asStr) (badRequest label detail)

def arrayField (body : Value) (field detail : String) : Except HttpResponse (List Value) :=
  Except.okOr ((body.get field).bind Value.asArray) (badRequest field detail)

def parsePublicKeyFromHex (s : String) : Except HttpResponse PublicKey := do
  let bytes ← Except.okOr (Hex.decode s) (badRequest "public key" "not valid hex")
  if bytes.length ≠ 33 then .error (badRequest "public key" "expected 33 bytes (66 hex chars)")
  else Except.okOr (Crypto.fromBytes bytes) (badRequest "public key" "not a valid compressed secp256k1 point")

def parsePublicKeyValue (value : Value) : Except HttpResponse PublicKey := do
  let s ← Except.okOr value.asStr (badRequest "public key" "expected a hex string")
  parsePublicKeyFromHex s

def parseProof (value : Value) : Except HttpResponse Proof := do
  let amount ← u64Field value "amount" "proof.amount"
  let id ← strField value "id" "proof.id" "missing or not a string"
  let secret ← strField value "secret" "proof.secret" "missing or not a string"
  let c ← strField value "C" "proof.C" "missing or not a string (capital C)"
  let c ← (parsePublicKeyFromHex c).mapError fun _ => badRequest "proof.C" "not a valid 33-byte compressed pubkey hex"
  pure ⟨amount, id, secret, c, none, (value.get "witness").bind Value.asStr⟩

def parseBlindedMessage (value : Value) : Except HttpResponse BlindedMessage := do
  let amount ← u64Field value "amount" "output.amount"
  let id ← strField value "id" "output.id" "missing or not a string"
  let bHex ← strField value "B_" "output.B_" "missing or not a string (capital B_)"
  let b ← (parsePublicKeyFromHex bHex).mapError fun _ => badRequest "output.B_" "not a valid 33-byte compressed pubkey hex"
  pure ⟨amount, id, b⟩

def parseMintQuoteRequest (body : Value) : Except HttpResponse MintQuoteRequest := do
  let amount ← u64Field body "amount" "amount"
  let unit ← strField body "unit" "unit" "missing or not a string"
  let pubkey ← match body.get "pubkey" with
    | none | some .null => pure none
    | some (.string s) => do
      let point ← (parsePublicKeyFromHex s).mapError fun _ => badRequest "pubkey" "not a valid compressed secp256k1 point"
      pure (some (pointHex point))
    | some _ => .error (badRequest "pubkey" "expected a hex string or null")
  pure ⟨amount, unit, pubkey⟩

def parseMintRequest (body : Value) : Except HttpResponse MintRequest := do
  let quote ← strField body "quote" "quote" "missing or not a string"
  let outputs ← arrayField body "outputs" "missing or not an array"
  let outputs ← outputs.mapM parseBlindedMessage
  pure ⟨quote, outputs, (body.get "signature").bind Value.asStr⟩

def parseSwapRequest (body : Value) : Except HttpResponse SwapRequest := do
  let inputs ← arrayField body "inputs" "missing or not an array"
  let inputs ← inputs.mapM parseProof
  let outputs ← arrayField body "outputs" "missing or not an array"
  let outputs ← outputs.mapM parseBlindedMessage
  pure ⟨inputs, outputs⟩

def parseMeltQuoteRequest (body : Value) : Except HttpResponse MeltQuoteRequest := do
  let request ← strField body "request" "request" "missing or not a string"
  let unit ← strField body "unit" "unit" "missing or not a string"
  pure ⟨request, unit, (body.get "amount").bind Value.asU64⟩

def parseMeltRequest (body : Value) : Except HttpResponse MeltRequest := do
  let quote ← strField body "quote" "quote" "missing or not a string"
  let inputs ← arrayField body "inputs" "missing or not an array"
  let inputs ← inputs.mapM parseProof
  let outputs ← match body.get "outputs" with
    | some (.array (output :: rest)) => do
      let parsed ← (output :: rest).mapM parseBlindedMessage
      pure (some parsed)
    | _ => pure none
  pure ⟨quote, inputs, outputs⟩

def parseCheckStateRequest (body : Value) : Except HttpResponse CheckStateRequest := do
  let ys ← arrayField body "Ys" "missing or not an array (use capital Ys)"
  let ys ← ys.mapM parsePublicKeyValue
  pure ⟨ys⟩

/-- A hex string, or an object with one under `B_` or `Y`. -/
def parseRestoreItem (item : Value) : Except HttpResponse PublicKey :=
  match item with
  | .string s => parsePublicKeyFromHex s
  | .object members =>
    match ((Value.object members).get "B_").bind Value.asStr, ((Value.object members).get "Y").bind Value.asStr with
    | some bHex, _ => parsePublicKeyFromHex bHex
    | none, some yHex => parsePublicKeyFromHex yHex
    | none, none => .error (badRequest "outputs" "expected hex string or \x7b\"B_\": ...\x7d / \x7b\"Y\": ...\x7d object")
  | _ => .error (badRequest "outputs" "expected hex string or object")

def parseRestoreRequest (body : Value) : Except HttpResponse RestoreRequest := do
  let outputs ← arrayField body "outputs" "missing or not an array"
  let ys ← outputs.mapM parseRestoreItem
  pure ⟨ys⟩

/-! ### Responses -/

def nutToJson (id : String) (settings : NutSettings) : Value :=
  let methods : Value := .array
    (settings.methods.map fun m => .ofFields [("method", .string m.method), ("unit", .string m.unit)])
  if id = "4" ∨ id = "5" then .ofFields [("methods", methods), ("disabled", .bool false)]
  else if id = "19" then
    .ofFields [
      ("ttl", match settings.ttl with
        | some ttl => .number (.posInt ttl)
        | none => .null),
      ("cached_endpoints", .array (settings.cachedEndpoints.map fun e =>
        .ofFields [("method", .string e.method), ("path", .string e.path)]))]
  else if id = "20" then .ofFields [("supported", .bool (settings.supported.getD true))]
  else if id = "29" then
    let names : Value := .array (settings.methods.map fun m => .string m.method)
    match settings.maxBatchSize with
    | some max => .ofFields [("max_batch_size", .number (.posInt max)), ("methods", names)]
    | none => .ofFields [("methods", names)]
  else if id ∈ ["7", "8", "9", "10", "11", "12", "14"] then .ofFields [("supported", .bool true)]
  else .ofFields [("methods", methods)]

def mintInfoToJson (info : MintInfo) : Value :=
  let contacts : List Value := info.contact.map fun c => .ofFields [("method", .string c.method), ("info", .string c.info)]
  .ofFields [("name", .string info.name), ("pubkey", .string info.pubkey), ("version", .string info.version),
    ("description", .string info.description), ("description_long", .string ""), ("contact", .array contacts),
    ("motd", .string ""), ("nuts", .ofFields (info.nuts.map fun nut => (nut.1, nutToJson nut.1 nut.2)))]

def keysetToJson (keyset : KeySet) : Value :=
  .ofFields [("id", .string keyset.id), ("unit", .string keyset.unit),
    ("keys", .ofFields (keyset.keys.map fun kp => (toString kp.amount, .string (pointHex kp.pubkey))))]

def keysToJson (keys : KeysResponse) : Value := .ofFields [("keysets", .array (keys.keysets.map keysetToJson))]

def keysetInfoToJson (info : KeysetInfo) : Value :=
  .ofFields [("id", .string info.id), ("unit", .string info.unit), ("active", .bool info.active),
    ("input_fee_ppk", .number (.posInt info.inputFeePpk))]

def keysetsToJson (resp : KeysetsResponse) : Value := .ofFields [("keysets", .array (resp.keysets.map keysetInfoToJson))]

def mintQuoteResponseToJson (resp : Wire.MintQuoteResponse) : Value :=
  let obj := Value.ofFields [("quote", .string resp.quote), ("request", .string resp.request), ("paid", .bool resp.paid),
    ("state", .string resp.state), ("expiry", .number (.posInt resp.expiry)), ("amount", .number (.posInt resp.amount)),
    ("unit", .string resp.unit), ("amount_paid", .number (.posInt resp.amountPaid)),
    ("amount_issued", .number (.posInt resp.amountIssued)), ("updated_at", .number (.posInt resp.updatedAt)),
    ("method", .string resp.method)]
  match resp.pubkey with
  | some pubkey => obj.set "pubkey" (.string pubkey)
  | none => obj

def scalarHex (k : SecretKey) : String := Hex.encode (Crypto.toSecretBytes k)

def blindSignatureToJson (sig : BlindSignature) : Value :=
  let obj := Value.ofFields [("amount", .number (.posInt sig.amount)), ("id", .string sig.id),
    ("C_", .string (pointHex sig.c))]
  match sig.dleq with
  | some dleq => obj.set "dleq" (.ofFields [("e", .string (scalarHex dleq.e)), ("s", .string (scalarHex dleq.s))])
  | none => obj

def mintResponseToJson (resp : MintResponse) : Value :=
  .ofFields [("signatures", .array (resp.signatures.map blindSignatureToJson))]

def swapResponseToJson (resp : SwapResponse) : Value :=
  .ofFields [("signatures", .array (resp.signatures.map blindSignatureToJson))]

def meltQuoteResponseToJson (resp : Wire.MeltQuoteResponse) : Value :=
  .ofFields [("quote", .string resp.quote), ("amount", .number (.posInt resp.amount)),
    ("fee_reserve", .number (.posInt resp.feeReserve)), ("paid", .bool resp.paid), ("state", .string resp.state),
    ("expiry", .number (.posInt resp.expiry)), ("request", .string resp.request), ("unit", .string resp.unit),
    ("method", .string resp.method)]

/-- `json!` of an option. -/
def optStrToJson : Option String → Value
  | some s => .string s
  | none => .null

def changeToJson : Option (List BlindSignature) → Value
  | some sigs => .array (sigs.map blindSignatureToJson)
  | none => .null

def meltResponseToJson (resp : Wire.MeltResponse) : Value :=
  .ofFields [("paid", .bool resp.paid), ("state", .string resp.state),
    ("payment_preimage", optStrToJson resp.paymentPreimage), ("change", changeToJson resp.change),
    ("quote", .string resp.quote), ("amount", .number (.posInt resp.amount)),
    ("fee_reserve", .number (.posInt resp.feeReserve)), ("unit", .string resp.unit),
    ("expiry", .number (.posInt resp.expiry)), ("request", .string resp.request), ("method", .string resp.method)]

def proofStateToJson (state : ProofState) : Value :=
  .ofFields [("Y", .string (pointHex state.y)), ("state", .string state.state), ("witness", optStrToJson state.witness)]

def checkStateResponseToJson (resp : CheckStateResponse) : Value :=
  .ofFields [("states", .array (resp.states.map proofStateToJson))]

def restoreResponseToJson (resp : RestoreResponse) : Value :=
  .ofFields [("outputs", .array (resp.outputs.map fun o => .string (pointHex o.y))),
    ("signatures", .array (resp.outputs.map fun o => blindSignatureToJson o.signature))]

end

end Audit

end Micronuts
