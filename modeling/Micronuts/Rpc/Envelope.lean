import Micronuts.Lib.Codec
import Micronuts.Nuts.TokenEncode
import Micronuts.Nuts.Wire

/-!
# The mint over RPC (`cashu-core-lite`: `rpc.rs`, `keypair.rs`, `nuts/nut12.rs`)

The envelopes, their dispatch to a service and the client. The codecs of the keys and the proofs of equality are written
by hand, and each reads back what it wrote; `MinicborDerive` stands for the codecs that are derived, which do so when those
of their fields do.
-/

namespace Micronuts
open Decoder

structure MintQuoteLookupRequest where
  quote : String
deriving DecidableEq

structure MeltQuoteLookupRequest where
  quote : String
deriving DecidableEq

section
variable [Crypto]

inductive MintRpcMethod
  | getInfo
  | getKeys
  | getKeysets
  | mintQuote (request : MintQuoteRequest)
  | getMintQuote (request : MintQuoteLookupRequest)
  | mint (request : MintRequest)
  | meltQuote (request : MeltQuoteRequest)
  | getMeltQuote (request : MeltQuoteLookupRequest)
  | melt (request : MeltRequest)
  | swap (request : SwapRequest)
  | checkState (request : CheckStateRequest)
  | restore (request : RestoreRequest)
  | batchCheckMintQuotes (request : BatchCheckMintQuoteRequest)
  | batchMint (request : BatchMintRequest)
deriving DecidableEq

structure MintRpcRequest where
  id : UInt32
  method : MintRpcMethod
deriving DecidableEq

inductive MintRpcResult
  | getInfo (info : MintInfo)
  | getKeys (keys : KeysResponse)
  | getKeysets (keysets : KeysetsResponse)
  | mintQuote (response : Wire.MintQuoteResponse)
  | getMintQuote (response : Wire.MintQuoteResponse)
  | mint (response : MintResponse)
  | meltQuote (response : Wire.MeltQuoteResponse)
  | getMeltQuote (response : Wire.MeltQuoteResponse)
  | melt (response : Wire.MeltResponse)
  | swap (response : SwapResponse)
  | checkState (response : CheckStateResponse)
  | restore (response : RestoreResponse)
  | batchCheckMintQuotes (responses : List Wire.MintQuoteResponse)
  | batchMint (response : MintResponse)
deriving DecidableEq

inductive MintRpcPayload
  | success (result : MintRpcResult)
  | error (err : CashuError)
deriving DecidableEq

structure MintRpcResponse where
  id : UInt32
  payload : MintRpcPayload
deriving DecidableEq

/-! ### Codecs -/

section
variable [Minicbor] [MinicborCodec]
open MinicborCodec

def PublicKey.encode (p : PublicKey) : List UInt8 := putBytes (Crypto.toBytes p)

def PublicKey.decode : Decoder UInt8 PublicKey := do
  let bytes ← Minicbor.bytes
  if bytes.length = 33 then (Crypto.fromBytes bytes : Option PublicKey) else failure

def SecretKey.encode (k : SecretKey) : List UInt8 := putBytes (Crypto.toSecretBytes k)

def SecretKey.decode : Decoder UInt8 SecretKey := do
  let bytes ← Minicbor.bytes
  (Crypto.fromSlice bytes : Option SecretKey)

def BlindSignatureDleq.encode (dleq : BlindSignatureDleq) : List UInt8 :=
  putMap 2 ++ (putU64 0 ++ (putBytes (Crypto.toSecretBytes dleq.e) ++ (putU64 1 ++ putBytes (Crypto.toSecretBytes dleq.s))))

def BlindSignatureDleq.decode : Decoder UInt8 BlindSignatureDleq := do
  let len ← Minicbor.map
  if len ≠ some 2 then failure
  else do
    let _ ← Minicbor.u64
    let e ← decodeScalar
    let _ ← Minicbor.u64
    let s ← decodeScalar
    pure ⟨e, s⟩

theorem PublicKey.decode_reads (p : PublicKey) : Reads PublicKey.decode (PublicKey.encode p) p := by
  have hlen := Crypto.toBytes_length p
  refine (bytes_putBytes _ (by omega)).bind_pure ?_
  rw [if_pos hlen]
  exact Reads.lift (Crypto.fromBytes_toBytes p)

theorem SecretKey.decode_reads (k : SecretKey) : Reads SecretKey.decode (SecretKey.encode k) k := by
  have hlen := Crypto.toSecretBytes_length k
  exact (bytes_putBytes _ (by omega)).bind_pure (Reads.lift (Crypto.fromSlice_toSecretBytes k))

theorem BlindSignatureDleq.decode_reads (dleq : BlindSignatureDleq) : Reads BlindSignatureDleq.decode dleq.encode dleq := by
  refine (map_putMap 2).bind ?_
  rw [if_neg (by simp)]
  refine (u64_putU64 0).bind ((SecretKey.decode_reads dleq.e).bind ?_)
  exact (u64_putU64 1).bind ((SecretKey.decode_reads dleq.s).bind_pure (Reads.pure _))

/-- The codec of a field that may be missing: what it writes does not begin like the mark for that. -/
structure FieldCodec (α : Type) extends Codec UInt8 α where
  not_null : ∀ a, ∃ b tail, encode a = b :: tail ∧ b ≠ 0xf6 ∧ b ≠ 0xf7

omit [Crypto] in
theorem putMap_not_null (n : UInt64) (bs : List UInt8) :
    ∃ b tail, putMap n ++ bs = b :: tail ∧ b ≠ 0xf6 ∧ b ≠ 0xf7 := by
  obtain ⟨b, tail, hinput, hmajor⟩ := map_major _ _ _ (map_putMap n bs)
  refine ⟨b, tail, hinput, ?_, ?_⟩
  · rintro rfl
    exact absurd hmajor (by decide)
  · rintro rfl
    exact absurd hmajor (by decide)

def publicKeyCodec : Codec UInt8 PublicKey := ⟨PublicKey.encode, PublicKey.decode, PublicKey.decode_reads⟩

def BlindSignatureDleq.codec : FieldCodec BlindSignatureDleq where
  encode := BlindSignatureDleq.encode
  decode := BlindSignatureDleq.decode
  reads := BlindSignatureDleq.decode_reads
  not_null _ := putMap_not_null 2 _

def ProofDleq.codec : FieldCodec ProofDleq where
  encode := ProofDleq.encode
  decode := ProofDleq.decode
  reads := ProofDleq.decode_reads
  not_null _ := putMap_not_null 3 _

end

/-- The codecs that `minicbor` derives for the envelopes, from those of the fields that have their own; the text of its
errors, and that of the derived `Debug`. -/
class MinicborDerive where
  request : Codec UInt8 PublicKey → FieldCodec ProofDleq → FieldCodec MintRpcRequest
  response : Codec UInt8 PublicKey → FieldCodec BlindSignatureDleq → FieldCodec MintRpcResponse
  errorText : List UInt8 → String
  debug : MintRpcResult → String

section
variable [Minicbor] [MinicborCodec] [MinicborDerive]

def requestCodec : FieldCodec MintRpcRequest := MinicborDerive.request publicKeyCodec ProofDleq.codec

def responseCodec : FieldCodec MintRpcResponse := MinicborDerive.response publicKeyCodec BlindSignatureDleq.codec

def encodeRpcRequest (request : MintRpcRequest) : List UInt8 := requestCodec.encode request

def decodeRpcRequest (bytes : List UInt8) : Except CashuError MintRpcRequest :=
  match minicborDecode requestCodec.decode bytes with
  | some request => .ok request
  | none => .error (.protocol ("failed to decode rpc request: " ++ MinicborDerive.errorText bytes))

def encodeRpcResponse (response : MintRpcResponse) : List UInt8 := responseCodec.encode response

def decodeRpcResponse (bytes : List UInt8) : Except CashuError MintRpcResponse :=
  match minicborDecode responseCodec.decode bytes with
  | some response => .ok response
  | none => .error (.protocol ("failed to decode rpc response: " ++ MinicborDerive.errorText bytes))

theorem encodeRpcRequest_ne_nil (request : MintRpcRequest) : encodeRpcRequest request ≠ [] := by
  obtain ⟨b, tail, h, -⟩ := requestCodec.not_null request
  rw [encodeRpcRequest, h]
  exact List.cons_ne_nil b tail

theorem encodeRpcResponse_ne_nil (response : MintRpcResponse) : encodeRpcResponse response ≠ [] := by
  obtain ⟨b, tail, h, -⟩ := responseCodec.not_null response
  rw [encodeRpcResponse, h]
  exact List.cons_ne_nil b tail

theorem decodeRpcRequest_encodeRpcRequest (request : MintRpcRequest) :
    decodeRpcRequest (encodeRpcRequest request) = .ok request := by
  rw [decodeRpcRequest, encodeRpcRequest, minicborDecode, (requestCodec.reads request).run]
  rfl

theorem decodeRpcResponse_encodeRpcResponse (response : MintRpcResponse) :
    decodeRpcResponse (encodeRpcResponse response) = .ok response := by
  rw [decodeRpcResponse, encodeRpcResponse, minicborDecode, (responseCodec.reads response).run]
  rfl

end

/-! ### The service and its handler -/

structure MintService (σ : Type) where
  getInfo : σ → Except CashuError MintInfo × σ
  getKeys : σ → Except CashuError KeysResponse × σ
  getKeysets : σ → Except CashuError KeysetsResponse × σ
  postMintQuote : MintQuoteRequest → σ → Except CashuError Wire.MintQuoteResponse × σ
  getMintQuote : String → σ → Except CashuError Wire.MintQuoteResponse × σ
  postMint : MintRequest → σ → Except CashuError MintResponse × σ
  postMeltQuote : MeltQuoteRequest → σ → Except CashuError Wire.MeltQuoteResponse × σ
  getMeltQuote : String → σ → Except CashuError Wire.MeltQuoteResponse × σ
  postMelt : MeltRequest → σ → Except CashuError Wire.MeltResponse × σ
  postSwap : SwapRequest → σ → Except CashuError SwapResponse × σ
  postCheckState : CheckStateRequest → σ → Except CashuError CheckStateResponse × σ
  postRestore : RestoreRequest → σ → Except CashuError RestoreResponse × σ
  batchCheckMintQuotes : BatchCheckMintQuoteRequest → σ → Except CashuError (List Wire.MintQuoteResponse) × σ
  batchMint : BatchMintRequest → σ → Except CashuError MintResponse × σ

def rpcSuccess {α σ : Type} (result : Except CashuError α × σ) (success : α → MintRpcResult) : MintRpcPayload × σ :=
  match result.1 with
  | .ok value => (.success (success value), result.2)
  | .error err => (.error err, result.2)

structure MintRpcHandler (σ : Type) where
  service : σ
deriving DecidableEq

namespace MintRpcHandler
variable {σ : Type}

def dispatch (S : MintService σ) (service : σ) : MintRpcMethod → MintRpcPayload × σ
  | .getInfo => rpcSuccess (S.getInfo service) .getInfo
  | .getKeys => rpcSuccess (S.getKeys service) .getKeys
  | .getKeysets => rpcSuccess (S.getKeysets service) .getKeysets
  | .mintQuote body => rpcSuccess (S.postMintQuote body service) .mintQuote
  | .getMintQuote body => rpcSuccess (S.getMintQuote body.quote service) .getMintQuote
  | .mint body => rpcSuccess (S.postMint body service) .mint
  | .meltQuote body => rpcSuccess (S.postMeltQuote body service) .meltQuote
  | .getMeltQuote body => rpcSuccess (S.getMeltQuote body.quote service) .getMeltQuote
  | .melt body => rpcSuccess (S.postMelt body service) .melt
  | .swap body => rpcSuccess (S.postSwap body service) .swap
  | .checkState body => rpcSuccess (S.postCheckState body service) .checkState
  | .restore body => rpcSuccess (S.postRestore body service) .restore
  | .batchCheckMintQuotes body => rpcSuccess (S.batchCheckMintQuotes body service) .batchCheckMintQuotes
  | .batchMint body => rpcSuccess (S.batchMint body service) .batchMint

def handleRequest (S : MintService σ) (h : MintRpcHandler σ) (request : MintRpcRequest) :
    MintRpcResponse × MintRpcHandler σ :=
  let (payload, service) := dispatch S h.service request.method
  (⟨request.id, payload⟩, ⟨service⟩)

theorem handleRequest_id (S : MintService σ) (h : MintRpcHandler σ) (request : MintRpcRequest) :
    (h.handleRequest S request).1.id = request.id := by
  unfold handleRequest
  rfl

def handleBytes [Minicbor] [MinicborCodec] [MinicborDerive] (S : MintService σ) (h : MintRpcHandler σ)
    (requestBytes : List UInt8) : Except CashuError (List UInt8) × MintRpcHandler σ :=
  match decodeRpcRequest requestBytes with
  | .error err => (.error err, h)
  | .ok request =>
    let (response, h) := h.handleRequest S request
    (.ok (encodeRpcResponse response), h)

end MintRpcHandler

/-! ### The client -/

/-- `RpcByteTransport`. -/
abbrev Exchange (τ : Type) := τ → List UInt8 → Except CashuError (List UInt8) × τ

structure RpcMintClient (τ : Type) where
  transport : τ
  nextId : UInt32

namespace RpcMintClient
variable {τ α : Type} [Minicbor] [MinicborCodec] [MinicborDerive]

def new (transport : τ) : RpcMintClient τ := ⟨transport, 1⟩

def call (exchange : Exchange τ) (c : RpcMintClient τ) (method : MintRpcMethod) :
    Except CashuError MintRpcResult × RpcMintClient τ :=
  let requestId := c.nextId
  let c := { c with nextId := c.nextId + 1 }
  let (answer, transport) := exchange c.transport (encodeRpcRequest ⟨requestId, method⟩)
  let c := { c with transport }
  match answer.bind decodeRpcResponse with
  | .error err => (.error err, c)
  | .ok response =>
    if response.id ≠ requestId then (.error (.protocol "rpc response id mismatch"), c)
    else
      match response.payload with
      | .success result => (.ok result, c)
      | .error err => (.error err, c)

def unexpectedResult (method : String) (result : MintRpcResult) : CashuError :=
  .protocol ("unexpected rpc result for " ++ method ++ ": " ++ MinicborDerive.debug result)

/-- A call, and the result that the method takes. -/
def callFor (exchange : Exchange τ) (c : RpcMintClient τ) (name : String) (method : MintRpcMethod)
    (select : MintRpcResult → Option α) : Except CashuError α × RpcMintClient τ :=
  let (answer, c) := c.call exchange method
  match answer with
  | .error err => (.error err, c)
  | .ok result =>
    match select result with
    | some a => (.ok a, c)
    | none => (.error (unexpectedResult name result), c)

variable (exchange : Exchange τ) (c : RpcMintClient τ)

def getInfo : Except CashuError MintInfo × RpcMintClient τ :=
  c.callFor exchange "get_info" .getInfo fun | .getInfo info => some info | _ => none

def getKeys : Except CashuError KeysResponse × RpcMintClient τ :=
  c.callFor exchange "get_keys" .getKeys fun | .getKeys keys => some keys | _ => none

def getKeysets : Except CashuError KeysetsResponse × RpcMintClient τ :=
  c.callFor exchange "get_keysets" .getKeysets fun | .getKeysets keysets => some keysets | _ => none

def postMintQuote (request : MintQuoteRequest) : Except CashuError Wire.MintQuoteResponse × RpcMintClient τ :=
  c.callFor exchange "post_mint_quote" (.mintQuote request) fun | .mintQuote resp => some resp | _ => none

def getMintQuote (quoteId : String) : Except CashuError Wire.MintQuoteResponse × RpcMintClient τ :=
  c.callFor exchange "get_mint_quote" (.getMintQuote ⟨quoteId⟩) fun | .getMintQuote resp => some resp | _ => none

def postMint (request : MintRequest) : Except CashuError MintResponse × RpcMintClient τ :=
  c.callFor exchange "post_mint" (.mint request) fun | .mint resp => some resp | _ => none

def postMeltQuote (request : MeltQuoteRequest) : Except CashuError Wire.MeltQuoteResponse × RpcMintClient τ :=
  c.callFor exchange "post_melt_quote" (.meltQuote request) fun | .meltQuote resp => some resp | _ => none

def getMeltQuote (quoteId : String) : Except CashuError Wire.MeltQuoteResponse × RpcMintClient τ :=
  c.callFor exchange "get_melt_quote" (.getMeltQuote ⟨quoteId⟩) fun | .getMeltQuote resp => some resp | _ => none

def postMelt (request : MeltRequest) : Except CashuError Wire.MeltResponse × RpcMintClient τ :=
  c.callFor exchange "post_melt" (.melt request) fun | .melt resp => some resp | _ => none

def postSwap (request : SwapRequest) : Except CashuError SwapResponse × RpcMintClient τ :=
  c.callFor exchange "post_swap" (.swap request) fun | .swap resp => some resp | _ => none

def postCheckState (request : CheckStateRequest) : Except CashuError CheckStateResponse × RpcMintClient τ :=
  c.callFor exchange "post_check_state" (.checkState request) fun | .checkState resp => some resp | _ => none

def postRestore (request : RestoreRequest) : Except CashuError RestoreResponse × RpcMintClient τ :=
  c.callFor exchange "post_restore" (.restore request) fun | .restore resp => some resp | _ => none

end RpcMintClient

end

end Micronuts
