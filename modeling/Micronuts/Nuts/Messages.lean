import Micronuts.Crypto

/-!
# Protocol messages (`cashu-core-lite`: `error`, NUT-00, 03, 04, 05, 07, 09, 12, 29)

The fields of the request and response types, and the error type both sides share. Quote states are
strings on the wire; here they are the enumerations `MintQuoteState` and `MeltQuoteState`.
-/

namespace Micronuts

inductive CashuError
  | transport (msg : String)
  | protocol (msg : String)
  | crypto (msg : String)
  | invalidAmount
  | quoteNotFound
  | quoteNotPaid
  | quoteAlreadyIssued
  | insufficientInputs
  | invalidProof
  | keysetNotFound
  | amountMismatch
  | unknown (msg : String)
  | storage (msg : String)
  | tokensAlreadySpent
  | meltAlreadyPaid
  | paymentFailed
  | spendConditionsNotMet
  | quoteSignatureInvalid
  | batchTooLarge
  | tooManyOutputs
  | batchQuoteNotUnique
deriving DecidableEq, Repr

/-- `Display`. -/
def CashuError.fmt : CashuError → String
  | .transport msg => "transport error: " ++ msg
  | .protocol msg => "protocol error: " ++ msg
  | .crypto msg => "crypto error: " ++ msg
  | .invalidAmount => "invalid amount"
  | .quoteNotFound => "quote not found"
  | .quoteNotPaid => "quote not paid"
  | .quoteAlreadyIssued => "quote already issued"
  | .insufficientInputs => "insufficient inputs"
  | .invalidProof => "invalid proof"
  | .keysetNotFound => "keyset not found"
  | .amountMismatch => "input/output amount mismatch"
  | .unknown msg => "unknown error: " ++ msg
  | .storage msg => "storage error: " ++ msg
  | .tokensAlreadySpent => "tokens already spent"
  | .meltAlreadyPaid => "melt already paid"
  | .paymentFailed => "payment failed"
  | .spendConditionsNotMet => "spend conditions are not met"
  | .quoteSignatureInvalid => "mint quote signature missing or invalid"
  | .batchTooLarge => "batch too large"
  | .tooManyOutputs => "too many outputs"
  | .batchQuoteNotUnique => "batch contains duplicate quote ids"

/-- `nut04::state`. -/
inductive MintQuoteState
  | unpaid
  | paid
  | issued
deriving DecidableEq, Repr

/-- `nut05::state` and the mint's own `MELT_STATE_FAILED`. -/
inductive MeltQuoteState
  | unpaid
  | pending
  | paid
  | failed
deriving DecidableEq, Repr

section
variable [Crypto]

structure BlindSignatureDleq where
  e : SecretKey
  s : SecretKey
deriving DecidableEq

structure ProofDleq where
  e : SecretKey
  s : SecretKey
  r : SecretKey
deriving DecidableEq

structure BlindedMessage where
  amount : UInt64
  id : String
  b : PublicKey
deriving DecidableEq

structure BlindSignature where
  amount : UInt64
  id : String
  c : PublicKey
  dleq : Option BlindSignatureDleq
deriving DecidableEq

structure Proof where
  amount : UInt64
  id : String
  secret : String
  c : PublicKey
  dleq : Option ProofDleq
  witness : Option String
deriving DecidableEq

instance : LawfulBEq Proof := inferInstance

structure SwapRequest where
  inputs : List Proof
  outputs : List BlindedMessage
deriving DecidableEq

structure SwapResponse where
  signatures : List BlindSignature
deriving DecidableEq

structure MintQuoteRequest where
  amount : UInt64
  unit : String
  pubkey : Option String
deriving DecidableEq

structure MintQuoteResponse where
  quote : String
  request : String
  paid : Bool
  state : MintQuoteState
  expiry : UInt64
  amount : UInt64
  unit : String
  amountPaid : UInt64
  amountIssued : UInt64
  updatedAt : UInt64
  method : String
  pubkey : Option String
deriving DecidableEq

structure MintRequest where
  quote : String
  outputs : List BlindedMessage
  signature : Option String
deriving DecidableEq

structure MintResponse where
  signatures : List BlindSignature
deriving DecidableEq

structure BatchCheckMintQuoteRequest where
  quotes : List String
deriving DecidableEq

structure BatchMintRequest where
  quotes : List String
  quoteAmounts : Option (List UInt64)
  outputs : List BlindedMessage
  signatures : Option (List (Option String))
deriving DecidableEq

def maxBatchQuotes : Nat := 50

def maxBatchOutputs : Nat := 1000

structure MeltQuoteRequest where
  request : String
  unit : String
  amount : Option UInt64
deriving DecidableEq

structure MeltQuoteResponse where
  quote : String
  amount : UInt64
  feeReserve : UInt64
  paid : Bool
  state : MeltQuoteState
  expiry : UInt64
  request : String
  unit : String
  method : String
deriving DecidableEq

structure MeltRequest where
  quote : String
  inputs : List Proof
  outputs : Option (List BlindedMessage)
deriving DecidableEq

structure MeltResponse where
  paid : Bool
  state : MeltQuoteState
  paymentPreimage : Option String
  change : Option (List BlindSignature)
  quote : String
  amount : UInt64
  feeReserve : UInt64
  unit : String
  expiry : UInt64
  request : String
  method : String
deriving DecidableEq

structure RestoreRequest where
  outputs : List PublicKey
deriving DecidableEq

structure RestoreOutput where
  y : PublicKey
  signature : BlindSignature
deriving DecidableEq

structure RestoreResponse where
  outputs : List RestoreOutput
deriving DecidableEq

end

namespace Toy

/-- A proof of the toy mint. -/
def coin (amount : UInt64) (secret : String) : Proof :=
  ⟨amount, "00c0ffee", secret, (amount.toUInt8 * fold (asBytes secret) : UInt8), none, none⟩

end Toy

end Micronuts
