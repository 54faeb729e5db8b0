import Micronuts.Rpc.Envelope

/-!
# A call over RPC is a call of the service

With the handler of a service as its transport, the client's requests and the service's responses are read back as they were
written (`call_handleBytes`), so a call has the outcome of the service's method and leaves the service where the method does,
whatever the client's next id is. A sequence of calls is then the sequence of methods, by induction; that no call invokes a
method twice, or another one, is the same statement about a service that notes down its calls (`MintService.noting`).
-/

namespace Micronuts

section
variable [Crypto]

/-- A call of the trait `MintClient`. -/
inductive ClientCall
  | getInfo
  | getKeys
  | getKeysets
  | postMintQuote (request : MintQuoteRequest)
  | getMintQuote (quoteId : String)
  | postMint (request : MintRequest)
  | postMeltQuote (request : MeltQuoteRequest)
  | getMeltQuote (quoteId : String)
  | postMelt (request : MeltRequest)
  | postSwap (request : SwapRequest)
  | postCheckState (request : CheckStateRequest)
  | postRestore (request : RestoreRequest)

namespace ClientCall

def Answer : ClientCall → Type
  | .getInfo => MintInfo
  | .getKeys => KeysResponse
  | .getKeysets => KeysetsResponse
  | .postMintQuote _ | .getMintQuote _ => Wire.MintQuoteResponse
  | .postMint _ => MintResponse
  | .postMeltQuote _ | .getMeltQuote _ => Wire.MeltQuoteResponse
  | .postMelt _ => Wire.MeltResponse
  | .postSwap _ => SwapResponse
  | .postCheckState _ => CheckStateResponse
  | .postRestore _ => RestoreResponse

def method : ClientCall → MintRpcMethod
  | .getInfo => .getInfo
  | .getKeys => .getKeys
  | .getKeysets => .getKeysets
  | .postMintQuote request => .mintQuote request
  | .getMintQuote quoteId => .getMintQuote ⟨quoteId⟩
  | .postMint request => .mint request
  | .postMeltQuote request => .meltQuote request
  | .getMeltQuote quoteId => .getMeltQuote ⟨quoteId⟩
  | .postMelt request => .melt request
  | .postSwap request => .swap request
  | .postCheckState request => .checkState request
  | .postRestore request => .restore request

end ClientCall

/-- A call and what came of it. -/
abbrev ClientAnswer := Σ call : ClientCall, Except CashuError call.Answer

namespace MintService
variable {σ : Type}

/-- The call made on the service itself. -/
def answer (S : MintService σ) (service : σ) : (call : ClientCall) → Except CashuError call.Answer × σ
  | .getInfo => S.getInfo service
  | .getKeys => S.getKeys service
  | .getKeysets => S.getKeysets service
  | .postMintQuote request => S.postMintQuote request service
  | .getMintQuote quoteId => S.getMintQuote quoteId service
  | .postMint request => S.postMint request service
  | .postMeltQuote request => S.postMeltQuote request service
  | .getMeltQuote quoteId => S.getMeltQuote quoteId service
  | .postMelt request => S.postMelt request service
  | .postSwap request => S.postSwap request service
  | .postCheckState request => S.postCheckState request service
  | .postRestore request => S.postRestore request service

def answers (S : MintService σ) : List ClientCall → σ → List ClientAnswer × σ
  | [], service => ([], service)
  | call :: calls, service =>
    let (answer, service) := S.answer service call
    let (answers, service) := S.answers calls service
    (⟨call, answer⟩ :: answers, service)

/-- A method that is noted down when it runs. -/
def note {α : Type} (method : MintRpcMethod) (run : σ → Except CashuError α × σ) (s : σ × List MintRpcMethod) :
    Except CashuError α × σ × List MintRpcMethod :=
  let (result, service) := run s.1
  (result, service, s.2 ++ [method])

/-- The service, with the methods it ran and the requests they were given. -/
def noting (S : MintService σ) : MintService (σ × List MintRpcMethod) where
  getInfo := note .getInfo S.getInfo
  getKeys := note .getKeys S.getKeys
  getKeysets := note .getKeysets S.getKeysets
  postMintQuote request := note (.mintQuote request) (S.postMintQuote request)
  getMintQuote quote := note (.getMintQuote ⟨quote⟩) (S.getMintQuote quote)
  postMint request := note (.mint request) (S.postMint request)
  postMeltQuote request := note (.meltQuote request) (S.postMeltQuote request)
  getMeltQuote quote := note (.getMeltQuote ⟨quote⟩) (S.getMeltQuote quote)
  postMelt request := note (.melt request) (S.postMelt request)
  postSwap request := note (.swap request) (S.postSwap request)
  postCheckState request := note (.checkState request) (S.postCheckState request)
  postRestore request := note (.restore request) (S.postRestore request)
  batchCheckMintQuotes request := note (.batchCheckMintQuotes request) (S.batchCheckMintQuotes request)
  batchMint request := note (.batchMint request) (S.batchMint request)

theorem noting_answer (S : MintService σ) (service : σ) (ran : List MintRpcMethod) (call : ClientCall) :
    S.noting.answer (service, ran) call =
      ((S.answer service call).1, (S.answer service call).2, ran ++ [call.method]) := by
  cases call <;> rfl

theorem noting_answers (S : MintService σ) (calls : List ClientCall) (service : σ) (ran : List MintRpcMethod) :
    S.noting.answers calls (service, ran) =
      ((S.answers calls service).1, (S.answers calls service).2, ran ++ calls.map ClientCall.method) := by
  induction calls generalizing service ran with
  | nil => simp [answers]
  | cons call calls ih => simp [answers, noting_answer, ih]

end MintService

namespace RpcMintClient
variable {τ σ : Type} [Minicbor] [MinicborCodec] [MinicborDerive]

def perform (exchange : Exchange τ) (c : RpcMintClient τ) :
    (call : ClientCall) → Except CashuError call.Answer × RpcMintClient τ
  | .getInfo => c.getInfo exchange
  | .getKeys => c.getKeys exchange
  | .getKeysets => c.getKeysets exchange
  | .postMintQuote request => c.postMintQuote exchange request
  | .getMintQuote quoteId => c.getMintQuote exchange quoteId
  | .postMint request => c.postMint exchange request
  | .postMeltQuote request => c.postMeltQuote exchange request
  | .getMeltQuote quoteId => c.getMeltQuote exchange quoteId
  | .postMelt request => c.postMelt exchange request
  | .postSwap request => c.postSwap exchange request
  | .postCheckState request => c.postCheckState exchange request
  | .postRestore request => c.postRestore exchange request

def performAll (exchange : Exchange τ) : List ClientCall → RpcMintClient τ → List ClientAnswer × RpcMintClient τ
  | [], c => ([], c)
  | call :: calls, c =>
    let (answer, c) := c.perform exchange call
    let (answers, c) := performAll exchange calls c
    (⟨call, answer⟩ :: answers, c)

/-- The transport that hands the bytes to the handler. -/
def direct (S : MintService σ) : Exchange (MintRpcHandler σ) := fun handler bytes => handler.handleBytes S bytes

def payloadResult : MintRpcPayload → Except CashuError MintRpcResult
  | .success result => .ok result
  | .error err => .error err

variable (S : MintService σ) (service : σ) (id : UInt32)

theorem handleBytes_encode (method : MintRpcMethod) :
    MintRpcHandler.handleBytes S ⟨service⟩ (encodeRpcRequest ⟨id, method⟩) =
      (.ok (encodeRpcResponse ⟨id, (MintRpcHandler.dispatch S service method).1⟩),
        ⟨(MintRpcHandler.dispatch S service method).2⟩) := by
  simp only [MintRpcHandler.handleBytes, decodeRpcRequest_encodeRpcRequest]
  rfl

theorem call_handleBytes (method : MintRpcMethod) :
    RpcMintClient.call (direct S) ⟨⟨service⟩, id⟩ method =
      (payloadResult (MintRpcHandler.dispatch S service method).1,
        ⟨⟨(MintRpcHandler.dispatch S service method).2⟩, id + 1⟩) := by
  simp only [call, direct, handleBytes_encode, Except.bind, decodeRpcResponse_encodeRpcResponse]
  rw [if_neg (by simp)]
  cases (MintRpcHandler.dispatch S service method).1 <;> rfl

/-- A call whose method has an answer of its own kind, and takes that kind only. -/
theorem callFor_handleBytes {α : Type} {name : String} {method : MintRpcMethod} {select : MintRpcResult → Option α}
    {success : α → MintRpcResult} (run : σ → Except CashuError α × σ)
    (hdispatch : MintRpcHandler.dispatch S service method = rpcSuccess (run service) success)
    (hselect : ∀ a, select (success a) = some a) :
    callFor (direct S) ⟨⟨service⟩, id⟩ name method select = ((run service).1, ⟨⟨(run service).2⟩, id + 1⟩) := by
  rw [callFor, call_handleBytes, hdispatch]
  rcases run service with ⟨err | value, after⟩
  · rfl
  · simp [rpcSuccess, payloadResult, hselect]

theorem perform_handleBytes (call : ClientCall) :
    perform (direct S) ⟨⟨service⟩, id⟩ call =
      ((S.answer service call).1, ⟨⟨(S.answer service call).2⟩, id + 1⟩) := by
  cases call with
  | getInfo => exact callFor_handleBytes S service id S.getInfo rfl fun _ => rfl
  | getKeys => exact callFor_handleBytes S service id S.getKeys rfl fun _ => rfl
  | getKeysets => exact callFor_handleBytes S service id S.getKeysets rfl fun _ => rfl
  | postMintQuote request => exact callFor_handleBytes S service id (S.postMintQuote request) rfl fun _ => rfl
  | getMintQuote quoteId => exact callFor_handleBytes S service id (S.getMintQuote quoteId) rfl fun _ => rfl
  | postMint request => exact callFor_handleBytes S service id (S.postMint request) rfl fun _ => rfl
  | postMeltQuote request => exact callFor_handleBytes S service id (S.postMeltQuote request) rfl fun _ => rfl
  | getMeltQuote quoteId => exact callFor_handleBytes S service id (S.getMeltQuote quoteId) rfl fun _ => rfl
  | postMelt request => exact callFor_handleBytes S service id (S.postMelt request) rfl fun _ => rfl
  | postSwap request => exact callFor_handleBytes S service id (S.postSwap request) rfl fun _ => rfl
  | postCheckState request => exact callFor_handleBytes S service id (S.postCheckState request) rfl fun _ => rfl
  | postRestore request => exact callFor_handleBytes S service id (S.postRestore request) rfl fun _ => rfl

theorem performAll_handleBytes (calls : List ClientCall) :
    performAll (direct S) calls ⟨⟨service⟩, id⟩ =
      ((S.answers calls service).1, ⟨⟨(S.answers calls service).2⟩, id + UInt32.ofNat calls.length⟩) := by
  induction calls generalizing service id with
  | nil => simp [performAll, MintService.answers]
  | cons call calls ih =>
    have hid : id + UInt32.ofNat (calls.length + 1) = id + 1 + UInt32.ofNat calls.length := by
      rw [UInt32.ofNat_add, UInt32.add_comm (UInt32.ofNat calls.length), ← UInt32.add_assoc]
      rfl
    simp only [performAll, perform_handleBytes, ih, MintService.answers, List.length_cons, hid]

/-- Every sequence of calls, from every state of the service and every id, has the answers of the service itself and leaves it
in the same state; each call runs its own method, once; and the codecs written by hand read back what they write. -/
theorem transparent (calls : List ClientCall) :
    performAll (direct S) calls ⟨⟨service⟩, id⟩ =
        ((S.answers calls service).1, ⟨⟨(S.answers calls service).2⟩, id + UInt32.ofNat calls.length⟩) ∧
      performAll (direct S.noting) calls ⟨⟨service, []⟩, id⟩ =
        ((S.answers calls service).1,
          ⟨⟨(S.answers calls service).2, calls.map ClientCall.method⟩, id + UInt32.ofNat calls.length⟩) ∧
      (∀ key, Decoder.Reads PublicKey.decode (PublicKey.encode key) key) ∧
      (∀ key, Decoder.Reads SecretKey.decode (SecretKey.encode key) key) ∧
      (∀ dleq : BlindSignatureDleq, Decoder.Reads BlindSignatureDleq.decode dleq.encode dleq) ∧
      ∀ dleq : ProofDleq, Decoder.Reads ProofDleq.decode dleq.encode dleq := by
  refine ⟨performAll_handleBytes S service id calls, ?_, PublicKey.decode_reads, SecretKey.decode_reads,
    BlindSignatureDleq.decode_reads, ProofDleq.decode_reads⟩
  rw [performAll_handleBytes, MintService.noting_answers]
  rfl

end RpcMintClient

end

end Micronuts
