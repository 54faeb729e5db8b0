import Micronuts.Nuts.Blinding
import Micronuts.Rpc.Derived

/-!
# The mint as a service (`micronuts-fips-bridge`)

The adapter checks method and route, hands the payload to the RPC handler and only then compares the reply with the
response buffer (`HandleEnds`). An error before the mint has run leaves it as it was; the one behind it,
`PayloadTooLarge`, does not, and it alone is a `Transport` error to the client.
-/

namespace Micronuts

inductive ServiceMethod
  | get
  | post
  | put
  | delete
deriving DecidableEq

inductive ContentType
  | binary
  | json
  | text
deriving DecidableEq

inductive ServiceStatus
  | ok
  | created
  | badRequest
  | notFound
  | methodNotAllowed
  | payloadTooLarge
  | internalError
deriving DecidableEq

structure ServiceError where
  status : ServiceStatus
  message : String
deriving DecidableEq

namespace ServiceError

def badRequest (message : String) : ServiceError := ⟨.badRequest, message⟩

def internalError (message : String) : ServiceError := ⟨.internalError, message⟩

end ServiceError

structure ServiceRequest where
  method : ServiceMethod
  route : String
  payload : List UInt8

structure ServiceReply where
  status : ServiceStatus
  contentType : ContentType
  bodyLen : Nat
deriving DecidableEq

/-- `ServiceHandler::handle`; the last component is the response buffer. -/
abbrev ServiceHandler (η : Type) :=
  η → ServiceRequest → List UInt8 → Except ServiceError ServiceReply × η × List UInt8

def cashuRpcRoute : String := "/rpc/mint"

def cashuErrorToServiceError : CashuError → ServiceError
  | .protocol _ => .badRequest "rpc protocol error"
  | .transport _ => .internalError "rpc transport error"
  | _ => .internalError "mint handler error"

def serviceErrorToCashuError (error : ServiceError) : CashuError :=
  match error.status with
  | .badRequest => .protocol error.message
  | .notFound => .protocol error.message
  | .methodNotAllowed => .protocol error.message
  | .payloadTooLarge => .transport error.message
  | .internalError => .transport error.message
  | .ok | .created => .unknown error.message

structure ServiceHandlerTransport (η : Type) where
  handler : η
  responseBuffer : List UInt8
deriving DecidableEq

namespace ServiceHandlerTransport
variable {η : Type}

def withResponseCapacity (handler : η) (capacity : Nat) : ServiceHandlerTransport η := ⟨handler, List.replicate capacity 0⟩

def new (handler : η) : ServiceHandlerTransport η := withResponseCapacity handler (16 * 1024)

def exchange (handle : ServiceHandler η) : Exchange (ServiceHandlerTransport η) := fun t request =>
  let (reply, handler, responseBuffer) := handle t.handler ⟨.post, cashuRpcRoute, request⟩ t.responseBuffer
  let t : ServiceHandlerTransport η := ⟨handler, responseBuffer⟩
  match reply with
  | .error err => (.error (serviceErrorToCashuError err), t)
  | .ok reply =>
    if reply.status ≠ .ok then (.error (.protocol "service handler returned non-OK status"), t)
    else if t.responseBuffer.length < reply.bodyLen then
      (.error (.protocol "service reply body length exceeds buffer"), t)
    else (.ok (t.responseBuffer.take reply.bodyLen), t)

end ServiceHandlerTransport

structure CashuRpcServiceAdapter (σ : Type) where
  handler : MintRpcHandler σ

namespace CashuRpcServiceAdapter
variable {σ : Type}

section
variable [Crypto] [Minicbor] [MinicborCodec] [MinicborDerive]

def handle (S : MintService σ) : ServiceHandler (CashuRpcServiceAdapter σ) := fun a request response =>
  if request.method ≠ .post then (.error ⟨.methodNotAllowed, "cashu rpc requires POST"⟩, a, response)
  else if request.route ≠ cashuRpcRoute then (.error ⟨.notFound, "unknown route"⟩, a, response)
  else
    let (rpcResponse, handler) := a.handler.handleBytes S request.payload
    let a : CashuRpcServiceAdapter σ := ⟨handler⟩
    match rpcResponse with
    | .error err => (.error (cashuErrorToServiceError err), a, response)
    | .ok rpcResponse =>
      if response.length < rpcResponse.length then
        (.error ⟨.payloadTooLarge, "response buffer too small"⟩, a, response)
      else (.ok ⟨.ok, .binary, rpcResponse.length⟩, a, rpcResponse ++ response.drop rpcResponse.length)

/-- The encoded reply to a request that gets to the mint. -/
def reply (S : MintService σ) (a : CashuRpcServiceAdapter σ) (request : MintRpcRequest) : List UInt8 :=
  encodeRpcResponse (a.handler.handleRequest S request).1

def after (S : MintService σ) (a : CashuRpcServiceAdapter σ) (request : MintRpcRequest) : CashuRpcServiceAdapter σ :=
  ⟨(a.handler.handleRequest S request).2⟩

/-- The request gets to the mint, as `rpc`. -/
structure Dispatches (request : ServiceRequest) (rpc : MintRpcRequest) : Prop where
  method : request.method = .post
  route : request.route = cashuRpcRoute
  decodes : decodeRpcRequest request.payload = .ok rpc

/-- How a request ends. -/
inductive HandleEnds (S : MintService σ) (a : CashuRpcServiceAdapter σ) (request : ServiceRequest) (response : List UInt8) :
    Except ServiceError ServiceReply → CashuRpcServiceAdapter σ → List UInt8 → Prop
  | refused (err : ServiceError) (hno : ∀ rpc, ¬ Dispatches request rpc)
      (hstatus : err.status = .methodNotAllowed ∨ err.status = .notFound ∨ err.status = .badRequest) :
      HandleEnds S a request response (.error err) a response
  | tooLarge (rpc : MintRpcRequest) (hrpc : Dispatches request rpc) (hlen : response.length < (reply S a rpc).length) :
      HandleEnds S a request response (.error ⟨.payloadTooLarge, "response buffer too small"⟩) (after S a rpc) response
  | answered (rpc : MintRpcRequest) (hrpc : Dispatches request rpc) (hlen : (reply S a rpc).length ≤ response.length) :
      HandleEnds S a request response (.ok ⟨.ok, .binary, (reply S a rpc).length⟩) (after S a rpc)
        (reply S a rpc ++ response.drop (reply S a rpc).length)

variable (S : MintService σ) (a : CashuRpcServiceAdapter σ) (request : ServiceRequest) (response : List UInt8)

/-- Reading the bytes is all that can fail in the handler. -/
theorem decodeRpcRequest_error {bytes : List UInt8} {err : CashuError} (h : decodeRpcRequest bytes = .error err) :
    ∃ msg, err = .protocol msg := by
  rw [decodeRpcRequest] at h
  split at h <;> cases h
  exact ⟨_, rfl⟩

theorem handle_ends :
    HandleEnds S a request response (handle S a request response).1 (handle S a request response).2.1
      (handle S a request response).2.2 := by
  rw [handle]
  by_cases hmethod : request.method = .post
  · rw [if_neg (not_not.2 hmethod)]
    by_cases hroute : request.route = cashuRpcRoute
    · rw [if_neg (not_not.2 hroute), MintRpcHandler.handleBytes]
      rcases hdecode : decodeRpcRequest request.payload with err | rpc
      · obtain ⟨msg, rfl⟩ := decodeRpcRequest_error hdecode
        refine .refused _ ?_ (.inr (.inr rfl))
        rintro rpc ⟨-, -, hrpc⟩
        rw [hdecode] at hrpc
        cases hrpc
      · have hrpc : Dispatches request rpc := ⟨hmethod, hroute, hdecode⟩
        dsimp only
        split_ifs with hlen
        · exact .tooLarge rpc hrpc hlen
        · exact .answered rpc hrpc (Nat.le_of_not_lt hlen)
    · rw [if_pos hroute]
      exact .refused _ (fun rpc h => hroute h.route) (.inr (.inl rfl))
  · rw [if_pos hmethod]
    exact .refused _ (fun rpc h => hmethod h.method) (.inl rfl)

theorem Dispatches.unique {request : ServiceRequest} {rpc rpc' : MintRpcRequest} (h : Dispatches request rpc)
    (h' : Dispatches request rpc') : rpc = rpc' := by
  have := h.decodes.symm.trans h'.decodes
  cases this
  rfl

/-- The reply of the adapter has the status and the length that the transport asks for. -/
theorem exchange_ends (t : ServiceHandlerTransport (CashuRpcServiceAdapter σ)) (payload : List UInt8) (err : CashuError)
    (h : (t.exchange (handle S) payload).1 = .error err) :
    ((∃ msg, err = .protocol msg) ∧ (t.exchange (handle S) payload).2 = t) ∨
      (err = .transport "response buffer too small" ∧ ∃ rpc, decodeRpcRequest payload = .ok rpc ∧
        t.responseBuffer.length < (reply S t.handler rpc).length ∧
        (t.exchange (handle S) payload).2 = ⟨after S t.handler rpc, t.responseBuffer⟩) := by
  have hends := handle_ends S t.handler ⟨.post, cashuRpcRoute, payload⟩ t.responseBuffer
  simp only [ServiceHandlerTransport.exchange] at h ⊢
  generalize (handle S t.handler ⟨.post, cashuRpcRoute, payload⟩ t.responseBuffer).1 = result at h hends ⊢
  generalize (handle S t.handler ⟨.post, cashuRpcRoute, payload⟩ t.responseBuffer).2.1 = a at h hends ⊢
  generalize (handle S t.handler ⟨.post, cashuRpcRoute, payload⟩ t.responseBuffer).2.2 = response at h hends ⊢
  cases hends with
  | refused e hno hstatus =>
    cases h
    refine .inl ⟨?_, rfl⟩
    rw [serviceErrorToCashuError]
    rcases hstatus with hstatus | hstatus | hstatus
    all_goals rw [hstatus]; exact ⟨_, rfl⟩
  | tooLarge rpc hrpc hlen =>
    cases h
    exact .inr ⟨rfl, rpc, hrpc.decodes, hlen, rfl⟩
  | answered rpc hrpc hlen =>
    have hfits : ¬ (reply S t.handler rpc ++ t.responseBuffer.drop (reply S t.handler rpc).length).length <
        (reply S t.handler rpc).length := by simp
    simp only [ne_eq, not_true_eq_false, if_false, if_neg hfits] at h
    cases h

/-- An error leaves the mint as it was, but for a reply that is longer than the buffer; that one is an error of its own
status, and of its own kind to the client. -/
theorem errors_leave_the_mint (t : ServiceHandlerTransport (CashuRpcServiceAdapter σ)) (payload : List UInt8) :
    (∀ err, (handle S a request response).1 = .error err → err.status ≠ .payloadTooLarge →
        (handle S a request response).2.1 = a) ∧
      (∀ err, (handle S a request response).1 = .error err → err.status = .payloadTooLarge →
        ∃ rpc, Dispatches request rpc ∧ response.length < (reply S a rpc).length ∧
          (handle S a request response).2.1 = after S a rpc) ∧
      (∀ rpc, Dispatches request rpc → response.length < (reply S a rpc).length →
        (handle S a request response).1 = .error ⟨.payloadTooLarge, "response buffer too small"⟩) ∧
      (∀ err, (t.exchange (handle S) payload).1 = .error err →
        ((∃ msg, err = .protocol msg) ∧ (t.exchange (handle S) payload).2 = t) ∨
          (err = .transport "response buffer too small" ∧ ∃ rpc, decodeRpcRequest payload = .ok rpc ∧
            t.responseBuffer.length < (reply S t.handler rpc).length ∧
            (t.exchange (handle S) payload).2 = ⟨after S t.handler rpc, t.responseBuffer⟩)) := by
  have hends := handle_ends S a request response
  generalize (handle S a request response).1 = result at hends ⊢
  generalize (handle S a request response).2.1 = a' at hends ⊢
  generalize (handle S a request response).2.2 = response' at hends
  refine ⟨?_, ?_, ?_, exchange_ends S t payload⟩
  · intro err herr hstatus
    cases hends with
    | refused => rfl
    | tooLarge =>
      cases herr
      exact absurd rfl hstatus
    | answered => cases herr
  · intro err herr hstatus
    cases hends with
    | refused e hno h =>
      cases herr
      rw [hstatus] at h
      simp at h
    | tooLarge rpc hrpc hlen => exact ⟨rpc, hrpc, hlen, rfl⟩
    | answered => cases herr
  · intro rpc hrpc hlen
    cases hends with
    | refused e hno => exact absurd hrpc (hno rpc)
    | tooLarge => rfl
    | answered rpc' hrpc' hfits =>
      cases hrpc.unique hrpc'
      exact absurd hlen (Nat.not_lt.2 hfits)

end

section toy
open Toy32 ToyCbor ToyDerive

/-- The swap has taken place, and its reply of ten bytes does not fit into eight. -/
theorem swap_reported_failed :
    let request := encodeRpcRequest
      ⟨1, .swap ⟨[⟨1, "00c0ffee", "a", (5 : UInt8), none, none⟩], [⟨1, "00c0ffee", (3 : UInt8)⟩]⟩⟩
    let a : CashuRpcServiceAdapter Nat := ⟨⟨0⟩⟩
    let t := ServiceHandlerTransport.withResponseCapacity a 8
    (handle swapCounter a ⟨.post, cashuRpcRoute, request⟩ t.responseBuffer).1 =
        .error ⟨.payloadTooLarge, "response buffer too small"⟩ ∧
      (handle swapCounter a ⟨.post, cashuRpcRoute, request⟩ t.responseBuffer).2.1.handler.service = 1 ∧
      (t.exchange (handle swapCounter) request).1 = .error (.transport "response buffer too small") ∧
      (t.exchange (handle swapCounter) request).2.handler.handler.service = 1 := by
  decide +kernel

end toy

end CashuRpcServiceAdapter

end Micronuts
