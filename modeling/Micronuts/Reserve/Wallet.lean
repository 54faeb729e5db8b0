import Micronuts.Lib.Exec
import Micronuts.Lib.SwapRemove
import Micronuts.Nuts.Blinding
import Micronuts.Nuts.Nut00
import Micronuts.Reserve.Upstream

/-!
# The reserve wallet (`micronuts-mint`: `reserve.rs`)

The proofs of an upstream mint from which melts are settled, and the state file that has a snapshot of them. A method is an
`Exec` over the wallet, the file, the requests that have left and the number of random draws. The upstream answers through
`ReserveEnv`, each time as it likes; a save that fails stops the process.
-/

namespace Micronuts
open SwapRemove

inductive UpstreamRequest
  | get (url : String)
  | post (url : String) (body : Value)

/-- What `ureq` has of an answer: the status, and the body as text or as JSON. -/
inductive HttpAnswer
  | failed (err : String)
  | answered (status : Nat) (text : Option String) (json : Except String Value)

section
variable [Crypto]

structure ReserveWallet where
  baseUrl : String
  unit : String
  bootstrapSats : UInt64
  keyset : Option UpstreamKeyset
  proofs : List Proof

structure ProofSnap where
  amount : UInt64
  id : String
  secret : String
  cHex : String
deriving DecidableEq

/-- The snapshot has the keys of the keyset in any order, so they stay a map here. -/
structure ReserveSnapshot where
  baseUrl : String
  unit : String
  keyset : Option UpstreamKeyset
  proofs : List ProofSnap

/-- A save that fails leaves the file as it was or as it would be. -/
inductive SnapshotSave
  | saved
  | failed (written : Bool)

structure ReserveEnv where
  http : List UpstreamRequest → UpstreamRequest → HttpAnswer
  -- the secret and the blinder of each output, by the number of those before
  random : Nat → List UInt8 × SecretKey
  save : List UpstreamRequest → ReserveSnapshot → SnapshotSave
  payTimeoutSecs : UInt64

/-- The wallet, its state file if it has one, its requests, the newest first, and the number of its draws. -/
structure ReserveWorld where
  wallet : ReserveWallet
  file : Option ReserveSnapshot
  sent : List UpstreamRequest
  draws : Nat

abbrev ReserveM := Exec ReserveEnv ReserveWorld CashuError

def ProofSnap.of (p : Proof) : ProofSnap :=
  { amount := p.amount, id := p.id, secret := p.secret, cHex := Hex.encode (Crypto.toBytes p.c) }

namespace ReserveWallet

def snapshot (w : ReserveWallet) : ReserveSnapshot :=
  { baseUrl := w.baseUrl, unit := w.unit, keyset := w.keyset, proofs := w.proofs.map ProofSnap.of }

def balanceSats (w : ReserveWallet) : UInt64 := (UInt64.checkedSum Proof.amount w.proofs 0).getD 0xFFFFFFFFFFFFFFFF

/-! ### Selection and removal -/

def amountAt (w : ReserveWallet) (i : Nat) : UInt64 := (w.proofs[i]?.map Proof.amount).getD 0

/-- The loop over the indices, up to the first sum that is enough or does not fit. -/
def takeIndices (w : ReserveWallet) (target : UInt64) : UInt64 → List Nat → List Nat
  | _, [] => []
  | sum, idx :: order =>
    if target ≤ sum then []
    else
      match UInt64.checkedAdd sum (w.amountAt idx) with
      | some next => idx :: w.takeIndices target next order
      | none => []

/-- From the smallest amount up. -/
def selectCovering (w : ReserveWallet) (target : UInt64) : List Nat :=
  w.takeIndices target 0 ((List.range w.proofs.length).mergeSort fun i j => w.amountAt i ≤ w.amountAt j)

end ReserveWallet

namespace ReserveM

def modifyWallet (f : ReserveWallet → ReserveWallet) : ReserveM Unit :=
  Exec.modify fun w => { w with wallet := f w.wallet }

/-- The request leaves, whatever comes back. -/
def request (r : UpstreamRequest) : ReserveM HttpAnswer := fun env w =>
  (.ok (env.http w.sent r), { w with sent := r :: w.sent })

def draw : ReserveM (List UInt8 × SecretKey) := fun env w => (.ok (env.random w.draws), { w with draws := w.draws + 1 })

def persist : ReserveM Unit := fun env w =>
  match w.file with
  | none => (.ok (), w)
  | some _ =>
    match env.save w.sent w.wallet.snapshot with
    | .saved => (.ok (), { w with file := some w.wallet.snapshot })
    | .failed written => (.panic, if written then { w with file := some w.wallet.snapshot } else w)

def readAnswer (err : String → CashuError) (label : String) : HttpAnswer → Except CashuError Value
  | .failed e => .error (.transport (label ++ ": " ++ e))
  | .answered status text json =>
    if 400 ≤ status then
      .error (err (label ++ ": status " ++ toString status ++ ": " ++ text.getD "<unreadable body>"))
    else json.mapError fun e => .protocol (label ++ ": invalid JSON: " ++ e)

def upstreamGet (url : String) : ReserveM Value := do
  let answer ← request (.get url)
  Exec.lift (readAnswer .transport ("upstream GET " ++ url) answer)

def upstreamPost (url : String) (body : Value) : ReserveM Value := do
  let answer ← request (.post url body)
  Exec.lift (readAnswer .protocol ("upstream POST " ++ url) answer)

end ReserveM

variable [SerdeJson] [Curve]

namespace ReserveWallet
open ReserveM

def removeSelected (selected : List Nat) : ReserveM Unit := do
  let w ← Exec.get
  let doomed := selected.mergeSort (· ≤ ·)
  match removeAll w.wallet.proofs doomed.reverse with
  | some proofs => modifyWallet fun w => { w with proofs }
  | none => Exec.panic

def ensureKeyset : ReserveM UpstreamKeyset := do
  let w ← Exec.get
  match w.wallet.keyset with
  | some keyset => pure keyset
  | none => do
    let keys ← upstreamGet (w.wallet.baseUrl ++ "/v1/keys")
    let keyset ← Exec.lift (UpstreamKeyset.fromKeysResponse keys w.wallet.unit)
    modifyWallet fun w => { w with keyset := some keyset }
    pure keyset

/-- Outputs for the amounts, each with a secret and a blinder of its own. -/
def blindOutputs (keysetId : String) : List UInt64 → ReserveM (List Value × List PendingChange)
  | [] => pure ([], [])
  | amount :: amounts => do
    let (secret, blinder) ← draw
    let secretHex := Hex.encode secret
    let blinded ← Exec.okOr (blindMessage (asBytes secretHex) blinder) (.crypto "reserve blind_message failed")
    let output := Value.ofFields [("amount", .number (.posInt amount)),
      ("B_", .string (Hex.encode (Crypto.toBytes blinded))), ("id", .string keysetId)]
    let (outputs, pending) ← blindOutputs keysetId amounts
    pure (output :: outputs, { secretHex, blinder } :: pending)

/-! ### Signatures -/

/-- The proof of one signature, before it is summed and pushed. -/
def changeProof (keyset : UpstreamKeyset) (p : PendingChange) (sig : Value) : Except CashuError Proof := do
  let amount ← jsonAmount "signature amount" (sig.index "amount")
  let cPrime ← jsonPoint (sig.index "C_")
  let pubkey ← Except.okOr (keyset.keys.lookup amount) .keysetNotFound
  let c ← Except.okOr (unblindSignature cPrime p.blinder pubkey) (.crypto "reserve unblind failed")
  pure { amount, id := keyset.id, secret := p.secretHex, c, dleq := none, witness := none }

def pushUnblinded (keyset : UpstreamKeyset) : List (PendingChange × Value) → UInt64 → ReserveM UInt64
  | [], total => pure total
  | (p, sig) :: pairs, total => do
    let proof ← Exec.lift (changeProof keyset p sig)
    let total ← Exec.okOr (UInt64.checkedAdd total proof.amount) .invalidAmount
    modifyWallet fun w => { w with proofs := w.proofs ++ [proof] }
    pushUnblinded keyset pairs total

def appendUnblinded (pending : List PendingChange) (signatures : List Value) (keyset : UpstreamKeyset)
    (expectedChange : UInt64) : ReserveM Unit := do
  Exec.failIf (pending.length < signatures.length) (.protocol ("upstream returned " ++ toString signatures.length ++
    " change signatures for " ++ toString pending.length ++ " blanks"))
  let total ← pushUnblinded keyset (pending.zip signatures) 0
  Exec.failIf (total ≠ expectedChange) (.protocol ("upstream change sum " ++ toString total ++ " != expected overpay " ++
    toString expectedChange))

/-! ### Minting into the reserve -/

/-- The rounds of the poll that are left. -/
def pollUntilPaid (url : String) : Nat → ReserveM Bool
  | 0 => pure false
  | tries + 1 => do
    let quote ← upstreamGet url
    let state ← Exec.lift (jsonStr "state" (quote.index "state"))
    if state = "PAID" ∨ state = "ISSUED" then pure true else pollUntilPaid url tries

/-- `timeout_secs.saturating_mul(2).max(1)`. -/
def pollTries : ReserveM Nat := fun env w => (.ok (max (min (env.payTimeoutSecs.toNat * 2) (2 ^ 64 - 1)) 1), w)

/-- Up to the signatures that the upstream returns for a paid quote. -/
def mintUpstream (amountSat : UInt64) : ReserveM (UpstreamKeyset × List PendingChange × List Value) := do
  Exec.failIf (amountSat = 0) .invalidAmount
  let keyset ← ensureKeyset
  let w ← Exec.get
  let quote ← upstreamPost (w.wallet.baseUrl ++ "/v1/mint/quote/bolt11")
    (.ofFields [("amount", .number (.posInt amountSat)), ("unit", .string w.wallet.unit)])
  let quoteId ← Exec.lift (jsonStr "quote" (quote.index "quote"))
  let _ ← Exec.lift (jsonStr "request" (quote.index "request"))
  let tries ← pollTries
  let paid ← pollUntilPaid (w.wallet.baseUrl ++ "/v1/mint/quote/bolt11/" ++ quoteId) tries
  Exec.failIf (¬ paid) .quoteNotPaid
  let (outputs, pending) ← blindOutputs keyset.id (decomposeAmount amountSat)
  let minted ← upstreamPost (w.wallet.baseUrl ++ "/v1/mint/bolt11")
    (.ofFields [("quote", .string quoteId), ("outputs", .array outputs)])
  let signatures ← Exec.lift (signaturesArray minted)
  pure (keyset, pending, signatures)

def bootstrap (amountSat : UInt64) : ReserveM Unit := do
  let (keyset, pending, signatures) ← mintUpstream amountSat
  appendUnblinded pending signatures keyset amountSat
  persist

/-! ### Paying from the reserve -/

def stateOf (response : Value) : String := ((response.get "state").bind Value.asStr).getD ""

def isPaid (response : Value) : Bool :=
  ((response.get "paid").bind Value.asBool).getD false || stateOf response == "PAID"

/-- The change of a paid melt is credited as far as it goes; what is wrong with it is only logged. -/
def recoverChange (response : Value) (pending : List PendingChange) (keyset : UpstreamKeyset) (changeAmount : UInt64) :
    ReserveM Unit :=
  match (response.get "change").bind Value.asArray with
  | none | some [] => pure ()
  | some changeSigs => do
    let _ ← Exec.attempt (appendUnblinded pending changeSigs keyset changeAmount)
    pure ()

/-- From the answer to the melt on. -/
def meltAnswered (selected : List Nat) (pending : List PendingChange) (keyset : UpstreamKeyset) (changeAmount : UInt64)
    (response : Value) : ReserveM String :=
  if isPaid response then do
    removeSelected selected
    recoverChange response pending keyset changeAmount
    persist
    pure ((((response.get "payment_preimage").orElse fun _ => response.get "preimage").bind Value.asStr).getD "")
  else if stateOf response = "FAILED" then Exec.fail .paymentFailed
  else do
    removeSelected selected
    persist
    Exec.fail (.protocol ("upstream melt state ambiguous: " ++ stateOf response))

/-- `ppk.div_ceil(1000)` of the fee of all inputs. -/
def reserveFee (keyset : UpstreamKeyset) (inputs : Nat) : Option UInt64 :=
  (UInt64.checkedMul keyset.inputFeePpk (UInt64.ofNat inputs)).map fun ppk => UInt64.ofNat ((ppk.toNat + 999) / 1000)

/-- A melt that is ready to be posted. -/
structure ReserveMelt where
  selected : List Nat
  pending : List PendingChange
  keyset : UpstreamKeyset
  changeAmount : UInt64
  url : String
  body : Value

def meltBody (quoteId : String) (inputs : List Proof) (outputs : List Value) : Value :=
  .ofFields [("quote", .string quoteId), ("inputs", .array (inputs.map proofJson)), ("outputs", .array outputs)]

def prepareMelt (quoteId : String) (amountNeeded : UInt64) : ReserveM ReserveMelt := do
  let target ← Exec.okOr ((UInt64.checkedAdd amountNeeded (amountNeeded / 20)).bind (UInt64.checkedAdd · 1)) .invalidAmount
  let w ← Exec.get
  let selected := w.wallet.selectCovering target
  let selectedSum ← Exec.okOr (UInt64.checkedSum w.wallet.amountAt selected 0) .invalidAmount
  Exec.failIf (selectedSum < amountNeeded) .insufficientInputs
  let keyset ← ensureKeyset
  let inputFee ← Exec.okOr (reserveFee keyset selected.length) .invalidAmount
  let changeAmount ← Exec.okOr ((UInt64.checkedSub selectedSum amountNeeded).bind (UInt64.checkedSub · inputFee))
    .invalidAmount
  let (outputs, pending) ← blindOutputs keyset.id (if 0 < changeAmount then decomposeAmount changeAmount else [])
  pure { selected, pending, keyset, changeAmount
         url := w.wallet.baseUrl ++ "/v1/melt/bolt11"
         body := meltBody quoteId (entriesAt w.wallet.proofs selected) outputs }

def meltFrom (quoteId : String) (amountNeeded : UInt64) : ReserveM String := do
  let melt ← prepareMelt quoteId amountNeeded
  match ← Exec.attempt (upstreamPost melt.url melt.body) with
  -- an HTTP error on the melt is a definitive failure
  | .error _ => Exec.fail .paymentFailed
  | .ok response => meltAnswered melt.selected melt.pending melt.keyset melt.changeAmount response

def pay (quoteId : String) (amountNeeded : UInt64) : ReserveM String := do
  Exec.failIf (amountNeeded = 0) .invalidAmount
  let w ← Exec.get
  let balance := w.wallet.balanceSats
  if balance < amountNeeded then do
    let topup ← Exec.okOr (UInt64.checkedAdd (amountNeeded - balance) w.wallet.bootstrapSats) .invalidAmount
    bootstrap topup
    meltFrom quoteId amountNeeded
  else meltFrom quoteId amountNeeded

end ReserveWallet

end

end Micronuts
