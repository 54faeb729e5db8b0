import Micronuts.Nuts.TokenCompat
import Micronuts.Nuts.TokenEncode
import Micronuts.Nuts.Wire
import Micronuts.Wallet.Conditions
import Micronuts.Wallet.Denominations
import Micronuts.Wallet.Selection

/-!
# The wallet engine (`micronuts-wallet-core`: `engine.rs`)

The engine wraps the persistent wallet, keeps the history and the sends that nobody has claimed yet, and asks the mint for
quotes and states itself. The mint, the store and the clock answer through `EngineEnv`, each time in its own way: a call
out of the engine has a number, `calls` counts them.
-/

namespace Micronuts

/-! ### Records -/

inductive HistoryKind
  | mint
  | send
  | receive
  | melt
deriving DecidableEq, Repr

inductive HistoryStatus
  | complete
  | pending
  | reclaimed
deriving DecidableEq, Repr

structure HistoryEntry where
  kind : HistoryKind
  amount : UInt64
  detail : String
  tsSecs : UInt64
  status : HistoryStatus
deriving DecidableEq, Repr

/-- Ecash that was handed over; its proofs have left the wallet. -/
structure PendingSend where
  token : String
  amount : UInt64
  memo : Option String
  tsSecs : UInt64
  historyIdx : Nat
deriving DecidableEq, Repr

inductive PendingStatus
  | awaiting
  | claimed
deriving DecidableEq, Repr

/-- `matches!(err, CashuError::Transport(_))`. -/
def CashuError.isTransport : CashuError → Bool
  | .transport _ => true
  | _ => false

/-- `nut07::state::SPENT`. -/
def spentState : String := "SPENT"

section
variable [Crypto]

/-- What the engine meets at its calls, by their numbers. -/
structure EngineEnv where
  wallet : Nat → WalletEnv
  checkState : Nat → CheckStateRequest → Except CashuError CheckStateResponse
  postMeltQuote : Nat → MeltQuoteRequest → Except CashuError MeltQuoteResponse
  now : Nat → UInt64
  overflowChecks : Bool
  sameBuild : ∀ n, (wallet n).overflowChecks = overflowChecks

/-- `reconciles` is for the record only: the calls at which a send has reconciled, the newest first. -/
structure WalletEngine where
  mintUrl : String
  seed : List UInt8
  keysetId : String
  keys : KeySet
  feePpk : UInt64
  unit : String
  world : WalletWorld
  history : List HistoryEntry
  pending : List PendingSend
  calls : Nat
  reconciles : List Nat

abbrev EngineM := Exec EngineEnv WalletEngine CashuError

/-- `trim_end_matches('/')`. -/
def trimSlashes (s : String) : String := String.ofList (s.toList.reverse.dropWhile (· = '/')).reverse

/-- `SigningKey::from_bytes`. -/
class IdentityCrates [Bip340] where
  signingKeyFromBytes : List UInt8 → Option SigningKey

def ConditionError.fmt : ConditionError → String
  | .sigAllUnsupported => "SIG_ALL receive is not supported yet"
  | .multisigUnsupported required =>
    "lock requires " ++ toString required ++ " signatures; the wallet holds one identity key"
  | .preimageMissing => "HTLC lock needs a preimage to receive"
  | .preimageMismatch => "preimage does not hash to the HTLC lock"
  | .notOurLock => "locked to a key this wallet does not hold"
  | .malformedSecret => "malformed spending condition"
  | .derivationFailed => "identity derivation failed"
  | .signingFailed => "schnorr signing failed"

/-- The key of the wallet in locks, from its seed alone. -/
def deriveIdentity [Bip340] [IdentityCrates] (seed : List UInt8) : Except ConditionError SigningKey :=
  Except.okOr (IdentityCrates.signingKeyFromBytes (hmacSha256 seed (asBytes "micronuts/nut11/p2pk-identity/v1")))
    .derivationFailed

namespace WalletEngine
open Exec

def proofs (e : WalletEngine) : List Proof := e.world.wallet.proofs

/-- After a method of the wallet. -/
def after (e : WalletEngine) (world : WalletWorld) : WalletEngine := { e with world, calls := e.calls + 1 }

def setStatus (e : WalletEngine) (idx : Nat) (status : HistoryStatus) : WalletEngine :=
  { e with history := e.history.modify idx fun entry => { entry with status } }

def callWallet {α : Type} (m : WalletM α) : EngineM α := zoom (fun env e => env.wallet e.calls) world after m

/-- A call to the mint that is not the wallet's. -/
def ask {α : Type} (answer : EngineEnv → Nat → Except CashuError α) : EngineM α := fun env e =>
  match answer env e.calls with
  | .ok response => (.ok response, { e with calls := e.calls + 1 })
  | .error err => (.err err, { e with calls := e.calls + 1 })

/-! ### Arithmetic -/

def addU64 (a b : UInt64) : EngineM UInt64 := fun env e =>
  if env.overflowChecks ∧ 2 ^ 64 ≤ a.toNat + b.toNat then (.panic, e) else (.ok (a + b), e)

def subU64 (a b : UInt64) : EngineM UInt64 := fun env e =>
  if env.overflowChecks ∧ a < b then (.panic, e) else (.ok (a - b), e)

def mulU64 (a b : UInt64) : EngineM UInt64 := fun env e =>
  if env.overflowChecks ∧ 2 ^ 64 ≤ a.toNat * b.toNat then (.panic, e) else (.ok (a * b), e)

def sumAmounts : List Proof → UInt64 → EngineM UInt64
  | [], acc => pure acc
  | p :: ps, acc => do
    let acc ← addU64 acc p.amount
    sumAmounts ps acc

def divCeil (a b : UInt64) : UInt64 := if a % b = 0 then a / b else a / b + 1

/-- `(self.fee_ppk * count).div_ceil(1000)`. -/
def inputFee (count : Nat) : EngineM UInt64 := do
  let e ← get
  let product ← mulU64 e.feePpk (UInt64.ofNat count)
  pure (divCeil product 1000)

/-! ### Small methods -/

def clock : EngineM UInt64 := fun env e => (.ok (env.now e.calls), e)

def ensureConnected : EngineM Unit := do
  let e ← get
  failIf (e.keysetId = "") (.protocol "not connected — call connect() first")

def knownSecrets : EngineM (List String) := do
  let e ← get
  pure (e.proofs.map Proof.secret)

def balance : EngineM UInt64 := do
  let e ← get
  sumAmounts e.proofs 0

def record (kind : HistoryKind) (amount : UInt64) (detail : String) : EngineM Unit := fun env e =>
  (.ok (), { e with history := e.history ++ [⟨kind, amount, detail, env.now e.calls, .complete⟩] })

variable [Curve]

def verifyProof (keys : KeySet) (proof : Proof) : Except CashuError Unit := do
  let dleq ← Except.okOr proof.dleq (.crypto "mint signature carries no NUT-12 dleq — cannot verify")
  let key ← Except.okOr (keys.pubkey proof.amount) .keysetNotFound
  if verifyProofDleq (asBytes proof.secret) proof.c dleq key then pure ()
  else .error (.crypto "NUT-12 DLEQ verification failed")

def verifyProofs (keys : KeySet) (proofs : List Proof) : Except CashuError Unit := proofs.forM (verifyProof keys)

/-- Proofs that do not verify are taken out again. -/
def verifyOrRemove (fresh : List Proof) : EngineM Unit := do
  let e ← get
  match verifyProofs e.keys fresh with
  | .ok _ => pure ()
  | .error err => do
    let _ ← attempt (callWallet (removeProofs fresh))
    fail err

def verifyNewProofs (known : List String) : EngineM Unit := do
  let e ← get
  verifyOrRemove (e.proofs.filter (·.secret ∉ known))

def mintPaidQuote (quoteId : String) (amount : UInt64) : EngineM UInt64 := do
  ensureConnected
  let known ← knownSecrets
  let e ← get
  let minted ← callWallet (mintDeterministic quoteId amount e.keysetId e.keys)
  verifyNewProofs known
  record .mint minted ("quote " ++ quoteId)
  pure minted

/-! ### Reconciliation and restore -/

omit [Curve] in
/-- `hash_to_curve` of the secret. -/
def secretPoint (secret : String) : Except CashuError PublicKey :=
  Except.okOr (Crypto.hashToCurve (asBytes secret)) (.crypto "hash_to_curve failed")

def pruneSpent (spent : List String) : EngineM Nat :=
  if spent = [] then pure 0
  else do
    let e ← get
    let spentProofs := e.proofs.filter (·.secret ∈ spent)
    callWallet (removeProofs spentProofs)
    pure spentProofs.length

/-- The secrets of the points that the mint reports as spent. -/
def spentSecrets (rows : List (PublicKey × String)) (states : List ProofState) : List String :=
  let yToSecret := (∅ : Finmap fun _ : String => String).insertAll (rows.map fun (y, secret) => (pointHex y, secret))
  (states.filter (·.state = spentState)).filterMap fun s => yToSecret.lookup (pointHex s.y)

def reconcileStored (proofs : List Proof) : EngineM Nat := do
  let ys ← lift (proofs.mapM fun p => secretPoint p.secret)
  let response ← ask fun env n => env.checkState n ⟨ys⟩
  pruneSpent (spentSecrets (ys.zip (proofs.map Proof.secret)) response.states)

def reconcileSpent : EngineM Nat := do
  ensureConnected
  let e ← get
  if e.proofs = [] then pure 0 else reconcileStored e.proofs

def restore : EngineM Nat := do
  ensureConnected
  let known ← knownSecrets
  let e ← get
  let restored ← callWallet (Micronuts.restore e.keysetId e.keys)
  if 0 < restored then do
    verifyNewProofs known
    pure restored
  else pure restored

/-! ### Exact amounts -/

/-- The fee for what `spend(amount)` would select. -/
def swapFeeHint (amount : UInt64) : EngineM UInt64 := do
  let e ← get
  if e.feePpk = 0 then pure 0
  else do
    let selected ← callWallet (spend amount)
    let _ ← attempt (callWallet (undoSpend selected))
    inputFee selected.length

/-- `if self.reconcile_spent().is_ok() { let _ = self.restore(); }` -/
def reconcileThenRestore : EngineM Unit := do
  let e ← get
  let reconciled ← attempt reconcileSpent
  match reconciled with
  | .error _ => pure ()
  | .ok _ => do
    modify fun t => { t with reconciles := e.calls :: t.reconciles }
    let _ ← attempt restore
    pure ()

/-- After a swap that has failed with `err`: the selection goes back, and when the mint may not have been reached, held
proofs of exactly the amount are handed out instead. -/
def offlineFallback (amount : UInt64) (selected : List Proof) (err : CashuError) : EngineM (List Proof) := do
  let _ ← attempt (callWallet (undoSpend selected))
  if err.isTransport then do
    reconcileThenRestore
    let e ← get
    okOr (findExact e.proofs amount) err
  else fail err

/-- From the swap on: the selection becomes the coins of the amount and those to keep. -/
def composeSwap (amount keep : UInt64) (selected : List Proof) : EngineM (List Proof) := do
  let e ← get
  let swapped ← attempt (callWallet
    (swapDeterministic selected (decomposeAmount amount ++ decomposeAmount keep) e.keysetId e.keys))
  match swapped with
  | .ok fresh => pure (fresh.take (decomposeAmount amount).length)
  | .error err => offlineFallback amount selected err

def composeExact (amount : UInt64) : EngineM (List Proof) := do
  failIf (amount = 0) .invalidAmount
  let fee ← swapFeeHint amount
  let needed ← okOr (UInt64.checkedAdd amount fee) .invalidAmount
  let selected ← callWallet (spend needed)
  let selectedTotal ← sumAmounts selected 0
  let left ← subU64 selectedTotal amount
  let keep ← subU64 left fee
  composeSwap amount keep selected

/-! ### Melting -/

def meltDetail (outcome : MeltOutcome) : String :=
  match outcome.preimage with
  | some preimage => "preimage " ++ preimage
  | none => "no preimage"

def meltSwapFee (count : Nat) : EngineM UInt64 := do
  let e ← get
  if e.feePpk = 0 then pure 0 else inputFee count

/-- From the swap on that has brought the coins of the target. -/
def meltComposed (quote : MeltQuoteResponse) (meltFee : UInt64) (known : List String) :
    EngineM (Option (MeltQuoteResponse × MeltOutcome)) := do
  let e ← get
  -- the fee on the inputs goes inside the amount of the invoice
  let invoiceAmount ← addU64 quote.amount meltFee
  let outcome ← callWallet (meltDeterministic quote.quote invoiceAmount quote.feeReserve e.keysetId e.keys)
  verifyNewProofs known
  record .melt quote.amount (meltDetail outcome)
  pure (some (quote, outcome))

/-- From the decomposition of the change on; without one the method does not return, which is `none` here. -/
def meltPrepared (quote : MeltQuoteResponse) (meltFee target : UInt64) (known : List String) (all : List Proof)
    (change : Option (List UInt64)) : EngineM (Option (MeltQuoteResponse × MeltOutcome)) :=
  match change with
  | none => pure none
  | some change => do
    let e ← get
    let swapped ← attempt (callWallet (swapDeterministic all (decomposeAmount target ++ change) e.keysetId e.keys))
    match swapped with
    | .ok _ => meltComposed quote meltFee known
    | .error err => do
      let _ ← attempt (callWallet (undoSpend all))
      fail err

/-- From the spending of the balance on. -/
def meltSwept (quote : MeltQuoteResponse) (meltFee target total : UInt64) (known : List String) (all : List Proof) :
    EngineM (Option (MeltQuoteResponse × MeltOutcome)) := do
  let swapFee ← meltSwapFee all.length
  let left ← subU64 total swapFee
  let rest ← subU64 left target
  meltPrepared quote meltFee target known all (decomposeCapped rest (isolateLowestOne target))

def meltQuoted (quote : MeltQuoteResponse) : EngineM (Option (MeltQuoteResponse × MeltOutcome)) := do
  let base ← okOr (UInt64.checkedAdd quote.amount quote.feeReserve) .invalidAmount
  let meltFee ← inputFee (decomposeAmount base).length
  let target ← okOr (UInt64.checkedAdd base meltFee) .invalidAmount
  let total ← balance
  let known ← knownSecrets
  let all ← callWallet (spend total)
  meltSwept quote meltFee target total known all

def meltWith (invoice : String) (amount : Option UInt64) : EngineM (Option (MeltQuoteResponse × MeltOutcome)) := do
  ensureConnected
  let e ← get
  let quote ← ask fun env n => env.postMeltQuote n { request := invoice, unit := e.unit, amount }
  meltQuoted quote

/-! ### Sends in flight -/

section tokens
variable [Minicbor] [TokenCrates]

def decodedToken (token : String) : EngineM TokenV4 :=
  lift ((decodeTokenAny token).mapError fun e => .protocol ("invalid token: " ++ e.fmt))

def probePending (pending : PendingSend) : EngineM PendingStatus := do
  let token ← decodedToken pending.token
  let ys ← lift (token.proofs.mapM fun p => secretPoint p.secret)
  let response ← ask fun env n => env.checkState n ⟨ys⟩
  pure (if response.states ≠ [] ∧ ∀ s ∈ response.states, s.state = spentState then .claimed else .awaiting)

omit [Curve] [Minicbor] [TokenCrates] in
def finalizeClaimed (index : Nat) : EngineM Unit :=
  modify fun e => e.pending[index]?.elim e fun pending =>
    { e.setStatus pending.historyIdx .complete with pending := e.pending.eraseIdx index }

def noSuchPending : CashuError := .protocol "no such pending send"

def checkPendingSend (index : Nat) : EngineM PendingStatus := do
  ensureConnected
  let e ← get
  let pending ← okOr e.pending[index]? noSuchPending
  let status ← probePending pending
  if status = .claimed then do
    finalizeClaimed index
    pure status
  else pure status

/-- The loop of `check_all_pending`: each round passes over a record or drops it. -/
def checkPendingFrom : (rounds : Nat) → (index : Nat) → List PendingStatus → EngineM (List PendingStatus)
  | 0, _, statuses => pure statuses
  | rounds + 1, index, statuses => do
    let e ← get
    match e.pending[index]? with
    | none => pure statuses
    | some pending => do
      let status ← probePending pending
      if status = .claimed then do
        finalizeClaimed index
        checkPendingFrom rounds index (statuses ++ [status])
      else checkPendingFrom rounds (index + 1) (statuses ++ [status])

def checkAllPending : EngineM (List PendingStatus) := do
  ensureConnected
  let e ← get
  checkPendingFrom e.pending.length 0 []

omit [Curve] [Minicbor] [TokenCrates] in
def tokenProofToWallet (proof : Token.Proof) (keysetId : String) : Except CashuError Proof :=
  if proof.c.length ≠ 33 then .error .invalidProof
  else (Except.okOr (Crypto.fromBytes proof.c) .invalidProof).map fun c =>
    { amount := proof.amount, id := keysetId, secret := proof.secret, c, dleq := proof.dleq, witness := none }

/-- After a failed swap: the recipient may have been first. -/
def reclaimFailed (index : Nat) (pending : PendingSend) : EngineM UInt64 := do
  let probed ← attempt (probePending pending)
  if probed.toOption = some .claimed then do
    finalizeClaimed index
    fail (.protocol "already claimed by the recipient")
  else fail (.protocol "already claimed by the recipient")

def reclaimPending (index : Nat) : EngineM UInt64 := do
  ensureConnected
  let e ← get
  let pending ← okOr e.pending[index]? noSuchPending
  let token ← decodedToken pending.token
  let inputs ← lift (token.proofs.mapM fun p => tokenProofToWallet p p.keysetId)
  let total ← sumAmounts inputs 0
  let known ← knownSecrets
  let swapFee ← inputFee inputs.length
  let net ← okOr (UInt64.checkedSub total swapFee) .insufficientInputs
  let swapped ← attempt (callWallet (swapDeterministic inputs (decomposeAmount net) e.keysetId e.keys))
  match swapped with
  | .error _ => reclaimFailed index pending
  | .ok _ => do
    verifyNewProofs known
    modify fun t => { t.setStatus pending.historyIdx .reclaimed with pending := t.pending.filter (· ≠ pending) }
    record .receive net "ecash reclaimed"
    pure net

end tokens

/-! ### Sending -/

section send
variable [Minicbor] [MinicborCodec] [TokenCrates]

omit [Curve] [Minicbor] [MinicborCodec] [TokenCrates] in
def sentToken (e : WalletEngine) (memo : Option String) (proofs : List Proof) : TokenV4 where
  mint := e.mintUrl
  unit := e.unit
  memo := memo
  tokens := [{ keysetId := e.keysetId, proofs := proofs.map fun p =>
    { amount := p.amount, keysetId := p.id, secret := p.secret, c := Crypto.toBytes p.c, dleq := p.dleq } }]

omit [Curve] [Minicbor] [MinicborCodec] [TokenCrates] in
/-- The entry of the history becomes a pending one, and a record of the send points to it. -/
def recordSend (amount : UInt64) (memo : Option String) (token : String) : EngineM Unit := do
  let e ← get
  let historyIdx := e.history.length
  record .send amount "ecash to QR"
  modify fun t => t.setStatus historyIdx .pending
  modify fun t => { t with pending := t.pending ++
    [{ token, amount, memo, tsSecs := (t.history[historyIdx]?.map HistoryEntry.tsSecs).getD 0, historyIdx }] }

def sendToken (amount : UInt64) (memo : Option String) : EngineM String := do
  ensureConnected
  let sendProofs ← composeExact amount
  let e ← get
  let wire ← okOr (encodeTokenWire (e.sentToken memo sendProofs))
    (.protocol ("token encode failed: " ++ TokenCrates.encodeTokenError))
  callWallet (removeProofs sendProofs)
  recordSend amount memo wire
  pure wire

end send

/-! ### Receiving -/

section receive
variable [Bip340] [IdentityCrates] [Minicbor] [TokenCrates]

omit [Curve] [Bip340] [IdentityCrates] [Minicbor] [TokenCrates] in
/-- The id of a V3 token may be the beginning of the active keyset's. -/
def resolveV3KeysetPrefix (groupId active : String) : String :=
  if (asBytes groupId).length = 16 ∧ (asBytes groupId).isPrefixOf (asBytes active) then active else groupId

omit [Curve] [IdentityCrates] [Minicbor] [TokenCrates] in
/-- A proof of the token as an input, with the witness that its lock asks for. -/
def unlockInput (ctx : UnlockContext) (keysetId : String) (proof : Token.Proof) : Except CashuError Proof := do
  let input ← tokenProofToWallet proof keysetId
  let witness ← (witnessForSecret input.secret ctx).mapError fun e => .protocol ("locked input: " ++ e.fmt)
  pure { input with witness }

omit [IdentityCrates] [Minicbor] [TokenCrates] in
/-- One group of a token, in a swap of its own; gives what is left of it after the fee. -/
def receiveGroup (ctx : UnlockContext) (group : TokenV4Token) : EngineM UInt64 := do
  let e ← get
  let inputs ← lift (group.proofs.mapM (unlockInput ctx (resolveV3KeysetPrefix group.keysetId e.keysetId)))
  let groupTotal ← sumAmounts inputs 0
  let swapFee ← inputFee inputs.length
  let net ← okOr (UInt64.checkedSub groupTotal swapFee) .insufficientInputs
  let fresh ← callWallet (swapDeterministic inputs (decomposeAmount net) e.keysetId e.keys)
  verifyOrRemove fresh
  pure net

omit [IdentityCrates] [Minicbor] [TokenCrates] in
def receiveGroups (ctx : UnlockContext) : List TokenV4Token → UInt64 → EngineM UInt64
  | [], total => pure total
  | group :: groups, total => do
    let net ← receiveGroup ctx group
    let total ← addU64 total net
    receiveGroups ctx groups total

def receiveTokenWith (tokenStr : String) (preimage : Option String) : EngineM UInt64 := do
  ensureConnected
  let token ← decodedToken tokenStr
  let e ← get
  failIf (trimSlashes token.mint ≠ e.mintUrl)
    (.protocol ("token is from a different mint: " ++ token.mint ++ " (active: " ++ e.mintUrl ++ ")"))
  let identity ← lift ((deriveIdentity e.seed).mapError fun err => .protocol err.fmt)
  let now ← clock
  let total ← receiveGroups { identity, preimage, now } token.tokens 0
  record .receive total "ecash token"
  pure total

end receive

end WalletEngine

end

end Micronuts
