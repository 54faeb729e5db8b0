import Mathlib.Data.Finmap
import Micronuts.Wire.Client

/-!
# Talking to the upstream mint (`micronuts-mint`: `upstream_wire.rs`, `upstream.rs`)

What the reserve reads out of the JSON of another mint: amounts as numbers or decimal strings, points as hex, the keyset of
its unit.
-/

namespace Micronuts

/-- `value[name]`: a member that is not there is null. -/
def Value.index (v : Value) (name : String) : Value := (v.get name).getD .null

structure PendingChange [Crypto] where
  secretHex : String
  blinder : SecretKey

structure UpstreamKeyset [Crypto] where
  id : String
  inputFeePpk : UInt64
  keys : Finmap fun _ : UInt64 => PublicKey

section
variable [SerdeJson]

def amountErr (field : String) (value : Value) : CashuError :=
  .protocol ("upstream field '" ++ field ++ "' is not an amount: " ++ SerdeJson.toText value)

/-- A number or a decimal string. -/
def jsonAmount (field : String) (value : Value) : Except CashuError UInt64 :=
  match value with
  | .number n => Except.okOr (Value.number n).asU64 (amountErr field value)
  | .string s => Except.okOr (parseU64 s) (amountErr field value)
  | _ => .error (amountErr field value)

def jsonAmountOr (field : String) (value : Option Value) (default : UInt64) : Except CashuError UInt64 :=
  match value with
  | none | some .null => .ok default
  | some v => jsonAmount field v

omit [SerdeJson] in
def jsonStr (field : String) (value : Value) : Except CashuError String :=
  Except.okOr value.asStr (.protocol ("upstream field '" ++ field ++ "' is not a string"))

variable [Crypto]

/-- A point as hex of its compressed form. -/
def jsonPoint (value : Value) : Except CashuError PublicKey := do
  let hexStr ← jsonStr "point" value
  let bytes ← Except.okOr (Hex.decode hexStr) (.protocol "upstream point is not hex")
  if bytes.length ≠ 33 then .error (.protocol "upstream point is not 33 bytes")
  else Except.okOr (Crypto.fromBytes bytes) (.protocol "upstream point is not a valid key")

def signaturesArray (value : Value) : Except CashuError (List Value) :=
  Except.okOr ((value.get "signatures").bind Value.asArray) (.protocol "upstream mint: no signatures array")

def proofJson (proof : Proof) : Value :=
  .ofFields [("amount", .number (.posInt proof.amount)), ("id", .string proof.id), ("secret", .string proof.secret),
    ("C", .string (Hex.encode (Crypto.toBytes proof.c)))]

def parseKeysetKeys (keyset : Value) : Except CashuError (Finmap fun _ : UInt64 => PublicKey) := do
  let entries ← Except.okOr ((keyset.get "keys").bind Value.asObject) (.protocol "upstream keyset: no keys map")
  entries.foldlM (fun keys (amount, pubkey) => do
    let parsed ← Except.okOr (parseU64 amount) (.protocol ("upstream keyset: bad amount key '" ++ amount ++ "'"))
    let point ← jsonPoint pubkey
    pure (keys.insert parsed point)) ∅

/-- The first active keyset of the unit. -/
def firstActive (unit : String) : List Value → Except CashuError UpstreamKeyset
  | [] => .error .keysetNotFound
  | keyset :: keysets =>
    let keysetUnit := ((keyset.get "unit").bind Value.asStr).getD ""
    let active := ((keyset.get "active").bind Value.asBool).getD true
    if keysetUnit ≠ unit ∨ ¬ active then firstActive unit keysets
    else do
      let id ← jsonStr "id" (keyset.index "id")
      let inputFeePpk ← jsonAmountOr "input_fee_ppk" (keyset.get "input_fee_ppk") 0
      let keys ← parseKeysetKeys keyset
      pure { id, inputFeePpk, keys }

def UpstreamKeyset.fromKeysResponse (value : Value) (unit : String) : Except CashuError UpstreamKeyset := do
  let keysets ← Except.okOr ((value.get "keysets").bind Value.asArray) (.protocol "upstream /v1/keys: no keysets array")
  firstActive unit keysets

end

end Micronuts
