import Micronuts.Nuts.Nut00

/-!
# Messages on the wire (`cashu-core-lite`: NUT-01, 02, 04, 05, 06, 07, 19)

The messages that a service may answer with. Quote states are any strings here, as the fields have them; the mint's own
calls only make those of `MintQuoteState` and `MeltQuoteState`.
-/

namespace Micronuts

structure ContactInfo where
  method : String
  info : String
deriving DecidableEq

structure PaymentMethod where
  method : String
  unit : String
deriving DecidableEq

structure CachedEndpoint where
  method : String
  path : String
deriving DecidableEq

structure NutSettings where
  methods : List PaymentMethod
  supported : Option Bool
  ttl : Option UInt64
  cachedEndpoints : List CachedEndpoint
  maxBatchSize : Option UInt64
deriving DecidableEq

structure MintInfo where
  name : String
  pubkey : String
  version : String
  description : String
  contact : List ContactInfo
  nuts : List (String × NutSettings)
deriving DecidableEq

structure KeysetInfo where
  id : String
  unit : String
  active : Bool
  inputFeePpk : UInt64
deriving DecidableEq

structure KeysetsResponse where
  keysets : List KeysetInfo
deriving DecidableEq

section
variable [Crypto]

structure KeysResponse where
  keysets : List KeySet
deriving DecidableEq

structure CheckStateRequest where
  ys : List PublicKey
deriving DecidableEq

structure ProofState where
  y : PublicKey
  state : String
  witness : Option String
deriving DecidableEq

structure CheckStateResponse where
  states : List ProofState
deriving DecidableEq

end

namespace Wire

structure MintQuoteResponse where
  quote : String
  request : String
  paid : Bool
  state : String
  expiry : UInt64
  amount : UInt64
  unit : String
  amountPaid : UInt64
  amountIssued : UInt64
  updatedAt : UInt64
  method : String
  pubkey : Option String
deriving DecidableEq

structure MeltQuoteResponse where
  quote : String
  amount : UInt64
  feeReserve : UInt64
  paid : Bool
  state : String
  expiry : UInt64
  request : String
  unit : String
  method : String
deriving DecidableEq

structure MeltResponse [Crypto] where
  paid : Bool
  state : String
  paymentPreimage : Option String
  change : Option (List BlindSignature)
  quote : String
  amount : UInt64
  feeReserve : UInt64
  unit : String
  expiry : UInt64
  request : String
  method : String
deriving DecidableEq

end Wire

end Micronuts
