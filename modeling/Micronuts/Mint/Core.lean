import Micronuts.Mint.Spending
import Micronuts.Mint.World
import Micronuts.Nuts.Nut20

/-!
# The mint's operations (`micronuts-mint`: `mint_core.rs`)

The long methods are cut where they begin to change the tables: `postMintChecks`, `batchMintChecks`,
`swapClaim` and `meltClaim` are the first parts of `post_mint`, `batch_mint`, `post_swap` and
`post_melt`. An early return keeps what was written before it.
-/

namespace Micronuts
open MintM Exec

-- irreducible: unification would count up to it
@[irreducible] def quoteTtlSecs : UInt64 := 3600

variable [Crypto]

/-! ### Internal helpers -/

def quoteExpiry : MintM UInt64 := do
  let now ← nowSecs
  okOr (UInt64.checkedAdd now quoteTtlSecs) .invalidAmount

/-- The fields of an entry after the backend reported its invoice paid. -/
def MintQuoteEntry.settle (e : MintQuoteEntry) (updatedAt : UInt64) : MintQuoteEntry :=
  { e with state := .paid, amountPaid := e.amount, updatedAt }

/-- Give the fields of `new` to the entry `old`. -/
def writeMintQuote (id : String) (old new : MintQuoteEntry) : MintM Unit := Exec.modify fun w =>
  { w with
    mint := w.mint.putMintQuote id new
    trace := .quoteWritten id old new :: w.trace }

/-- Lazily settle an unpaid quote; past its expiry it stays unpaid. -/
def refreshMintQuoteState (quoteId : String) : MintM Unit := do
  let w ← Exec.get
  let entry ← okOr (w.mint.mintQuotes.lookup quoteId) .quoteNotFound
  if entry.state ≠ .unpaid then pure ()
  else do
    let now ← nowSecs
    if entry.expiry < now then pure ()
    else do
      let settled ← isSettled entry.request
      if settled then do
        let now ← nowSecs
        let updatedAt ← nextUpdatedAt now entry.updatedAt
        writeMintQuote quoteId entry (entry.settle updatedAt)
        persist
      else pure ()

def proofYHex (secret : String) : Except CashuError String := do
  let y ← Except.okOr (Crypto.hashToCurve (asBytes secret)) (.crypto "hash_to_curve failed")
  pure (pointHex y)

def verifyQuoteSignature (pubkeyHex quoteId : String) (outputs : List BlindedMessage)
    (signatureHex : Option String) : Except CashuError Unit := do
  let signatureHex ← Except.okOr signatureHex .quoteSignatureInvalid
  let signature ← Except.okOr (Crypto.signatureFromStr signatureHex) .quoteSignatureInvalid
  let pubkey ← Except.okOr (parseCompressedPubkey pubkeyHex) .quoteSignatureInvalid
  if Crypto.verify pubkey (quoteSigMessage quoteId outputs) signature then pure ()
  else .error .quoteSignatureInvalid

def outputSum (outputs : List BlindedMessage) : Option UInt64 := UInt64.checkedSum BlindedMessage.amount outputs 0

def DemoKeyset.inputFeeTotal (ks : DemoKeyset) (inputs : List Proof) : Except CashuError UInt64 := do
  let sumPpk ← Except.okOr (UInt64.checkedMul ks.inputFeePpk (UInt64.ofNat inputs.length)) .invalidAmount
  let v ← Except.okOr (UInt64.checkedAdd sumPpk 999) .invalidAmount
  pure (v / 1000)

/-- Blank outputs are skipped. -/
def DemoKeyset.checkOutputsSignable (ks : DemoKeyset) (outputs : List BlindedMessage) : Except CashuError Unit :=
  if outputs.all fun o => o.amount = 0 || (ks.getSecretKey o.amount).isSome then .ok ()
  else .error .keysetNotFound

/-- One proof against the keyset, the spent set and the mint's key. -/
def DemoMint.verifyProof (m : DemoMint) (proof : Proof) : Except CashuError Unit :=
  if proof.id ≠ m.keyset.id then .error .keysetNotFound
  else do
    let y ← proofYHex proof.secret
    if y ∈ m.spentYs then .error .tokensAlreadySpent
    else do
      let sk ← Except.okOr (m.keyset.getSecretKey proof.amount) .keysetNotFound
      if Crypto.verifyMessage sk proof.c (asBytes proof.secret) then pure ()
      else .error (.crypto "verify_message failed")

/-- The loop of `verify_proofs`, from the running `total`. -/
def DemoMint.verifyProofs (m : DemoMint) : List Proof → UInt64 → Except CashuError UInt64
  | [], total => .ok total
  | proof :: proofs, total => do
    m.verifyProof proof
    let total ← Except.okOr (UInt64.checkedAdd total proof.amount) .invalidAmount
    m.verifyProofs proofs total

/-- No `y` is spent or comes twice. -/
def unclaimed (spent : Finset String) : Finset String → List String → Bool
  | _, [] => true
  | batch, y :: ys => if y ∈ spent ∨ y ∈ batch then false else unclaimed spent (insert y batch) ys

/-- All inputs are marked spent, or none. -/
def claimProofs (proofs : List Proof) : MintM Unit := do
  let ys ← Exec.lift (proofs.mapM fun p => proofYHex p.secret)
  let w ← Exec.get
  failIf (unclaimed w.mint.spentYs ∅ ys = false) .tokensAlreadySpent
  modifyMint fun m => m.spend ys

def releaseY (spent : Finset String) (proof : Proof) : Finset String :=
  match proofYHex proof.secret with
  | .ok y => spent.erase y
  | .error _ => spent

/-- The rollback loop of a failed payment. -/
def releaseProofs (proofs : List Proof) : MintM Unit :=
  modifyMint fun m => { m with spentYs := proofs.foldl releaseY m.spentYs }

def setMeltState (quoteId : String) (state : MeltQuoteState) : MintM Unit := do
  let w ← Exec.get
  let entry ← okOr (w.mint.meltQuotes.lookup quoteId) .quoteNotFound
  modifyMint fun m => m.putMeltQuote quoteId { entry with state }

/-! ### Signing -/

/-- `C_ = k * B_` and its DLEQ proof. -/
def signOutput (output : BlindedMessage) : MintM BlindSignature := do
  let w ← Exec.get
  let sk ← okOr (w.mint.keyset.getSecretKey output.amount) .keysetNotFound
  let c ← okOr (Crypto.signMessage sk output.b) (.crypto "cashu::dhke::sign_message failed")
  failIf (Crypto.idValid w.mint.keyset.id = false) (.crypto "invalid keyset id")
  let nonce ← dleqNonce
  let dleq ← okOr (Crypto.proveDleq nonce sk output.b c) (.crypto "DLEQ construction failed")
  pure { amount := output.amount, id := w.mint.keyset.id, c, dleq := some ⟨dleq.1, dleq.2⟩ }

/-- Each signature is recorded before the next output is looked at. -/
def signOutputs : List BlindedMessage → MintM (List BlindSignature)
  | [] => pure []
  | output :: outputs => do
    let sig ← signOutput output
    modifyMint fun m => m.recordIssued output sig
    let sigs ← signOutputs outputs
    pure (sig :: sigs)

/-! ### NUT-04: mint quotes and minting -/

/-- `nut04::MintQuoteResponse` of an entry. -/
def mintQuoteResponse (quoteId : String) (e : MintQuoteEntry) : MintQuoteResponse where
  quote := quoteId
  request := e.request
  paid := e.state = .paid || e.state = .issued
  state := e.state
  expiry := e.expiry
  amount := e.amount
  unit := e.unit
  amountPaid := e.amountPaid
  amountIssued := e.amountIssued
  updatedAt := e.updatedAt
  method := "bolt11"
  pubkey := e.pubkey

def newMintQuote (request : MintQuoteRequest) (invoice : String) (expiry now : UInt64) : MintQuoteEntry where
  amount := request.amount
  unit := request.unit
  request := invoice
  state := .unpaid
  expiry
  amountPaid := 0
  amountIssued := 0
  updatedAt := now
  pubkey := request.pubkey

def postMintQuote (request : MintQuoteRequest) : MintM MintQuoteResponse := do
  failIf (request.amount = 0) .invalidAmount
  let quoteId ← nowV7
  let invoice ← createInvoice request.amount
  let expiry ← quoteExpiry
  let now ← nowSecs
  let entry := newMintQuote request invoice expiry now
  modifyMint fun m => m.putMintQuote quoteId entry
  persist
  pure (mintQuoteResponse quoteId entry)

def getMintQuote (quoteId : String) : MintM MintQuoteResponse := do
  refreshMintQuoteState quoteId
  let w ← Exec.get
  let entry ← okOr (w.mint.mintQuotes.lookup quoteId) .quoteNotFound
  pure (mintQuoteResponse quoteId entry)

/-- The error for a quote that is not in state `PAID`. -/
def notPaidError (state : MintQuoteState) : CashuError :=
  if state = .issued then .quoteAlreadyIssued else .quoteNotPaid

/-- `post_mint` up to the first signature: what was issued before, and the sum of the outputs. -/
def postMintChecks (request : MintRequest) : MintM (UInt64 × UInt64) := do
  refreshMintQuoteState request.quote
  let w ← Exec.get
  let entry ← okOr (w.mint.mintQuotes.lookup request.quote) .quoteNotFound
  failIf (entry.state ≠ .paid) (notPaidError entry.state)
  Exec.lift (match entry.pubkey with
    | some pubkeyHex => verifyQuoteSignature pubkeyHex request.quote request.outputs request.signature
    | none => .ok ())
  let mintable ← okOr (UInt64.checkedSub entry.amountPaid entry.amountIssued)
    (.protocol "amount_issued exceeded amount_paid")
  let sum ← okOr (outputSum request.outputs) .invalidAmount
  failIf (mintable < sum) .amountMismatch
  pure (entry.amountIssued, sum)

/-- The entry after `sum` more was issued. -/
def MintQuoteEntry.mint (e : MintQuoteEntry) (issued updatedAt : UInt64) : MintQuoteEntry :=
  { e with amountIssued := issued, state := if issued = e.amountPaid then .issued else e.state, updatedAt }

def postMint (request : MintRequest) : MintM MintResponse := do
  let (amountIssued, sum) ← postMintChecks request
  let signatures ← signOutputs request.outputs
  let now ← nowSecs
  let w ← Exec.get
  let entry ← okOr (w.mint.mintQuotes.lookup request.quote) .quoteNotFound
  let issued ← okOr (UInt64.checkedAdd amountIssued sum) .invalidAmount
  let updatedAt ← nextUpdatedAt now entry.updatedAt
  writeMintQuote request.quote entry (entry.mint issued updatedAt)
  persist
  pure ⟨signatures⟩

/-! ### NUT-29: batches -/

def getMintQuotes : List String → MintM (List MintQuoteResponse)
  | [] => pure []
  | quoteId :: quotes => do
    let response ← getMintQuote quoteId
    let responses ← getMintQuotes quotes
    pure (response :: responses)

def batchCheckMintQuotes (request : BatchCheckMintQuoteRequest) : MintM (List MintQuoteResponse) := do
  failIf (maxBatchQuotes < request.quotes.length) .batchTooLarge
  getMintQuotes request.quotes

structure LoadedQuote where
  quoteId : String
  amount : UInt64
  pubkey : Option String
deriving DecidableEq

/-- The body of the loop that refreshes and loads the quotes. -/
def loadQuote (quoteAmounts : Option (List UInt64)) (i : Nat) (quoteId : String) : MintM LoadedQuote := do
  refreshMintQuoteState quoteId
  let w ← Exec.get
  let entry ← okOr (w.mint.mintQuotes.lookup quoteId) .quoteNotFound
  failIf (entry.state ≠ .paid) (notPaidError entry.state)
  failIf (entry.unit ≠ "sat" ∨ entry.amount = 0) .amountMismatch
  failIf (quoteAmounts.any fun amounts => amounts[i]? ≠ some entry.amount) .amountMismatch
  pure ⟨quoteId, entry.amount, entry.pubkey⟩

/-- The quotes from position `i`, with the sum of their amounts added to `total`. -/
def loadQuotes (quoteAmounts : Option (List UInt64)) : Nat → List String → UInt64 → MintM (List LoadedQuote × UInt64)
  | _, [], total => pure ([], total)
  | i, quoteId :: quotes, total => do
    let entry ← loadQuote quoteAmounts i quoteId
    let total ← okOr (UInt64.checkedAdd total entry.amount) .invalidAmount
    let (entries, total) ← loadQuotes quoteAmounts (i + 1) quotes total
    pure (entry :: entries, total)

def verifyBatchSignature (outputs : List BlindedMessage) (entry : LoadedQuote) (signature : Option String) :
    Except CashuError Unit :=
  match entry.pubkey, signature with
  | some pubkeyHex, some signatureHex => verifyQuoteSignature pubkeyHex entry.quoteId outputs (some signatureHex)
  | some _, none => .error .quoteSignatureInvalid
  | none, some _ => .error .quoteSignatureInvalid
  | none, none => .ok ()

def verifyBatchSignaturePairs (outputs : List BlindedMessage) :
    List (LoadedQuote × Option String) → Except CashuError Unit
  | [] => .ok ()
  | (entry, signature) :: pairs => do
    verifyBatchSignature outputs entry signature
    verifyBatchSignaturePairs outputs pairs

/-- A locked batch needs the array; an array that is there is checked entry by entry. -/
def verifyBatchSignatures (request : BatchMintRequest) (entries : List LoadedQuote) : Except CashuError Unit :=
  match request.signatures with
  | none => if entries.any (·.pubkey.isSome) then .error .quoteSignatureInvalid else .ok ()
  | some signatures =>
    if signatures.length ≠ request.quotes.length then .error .quoteSignatureInvalid
    else verifyBatchSignaturePairs request.outputs (entries.zip signatures)

/-- `batch_mint` up to the first signature. -/
def batchMintChecks (request : BatchMintRequest) : MintM (List LoadedQuote) := do
  failIf (maxBatchOutputs < request.outputs.length) .tooManyOutputs
  failIf (request.quotes = []) (.protocol "batch mint requires at least one quote")
  failIf (maxBatchQuotes < request.quotes.length) .batchTooLarge
  failIf (¬ request.quotes.Nodup) .batchQuoteNotUnique
  failIf (request.quoteAmounts.any fun amounts => amounts.length ≠ request.quotes.length) .amountMismatch
  let (entries, totalAmount) ← loadQuotes request.quoteAmounts 0 request.quotes 0
  Exec.lift (verifyBatchSignatures request entries)
  let sum ← okOr (outputSum request.outputs) .invalidAmount
  failIf (sum ≠ totalAmount) .amountMismatch
  let w ← Exec.get
  Exec.lift (w.mint.keyset.checkOutputsSignable request.outputs)
  pure entries

/-- The entry after a batch mint; `amountIssued` is overwritten. -/
def MintQuoteEntry.batchMint (e : MintQuoteEntry) (amount updatedAt : UInt64) : MintQuoteEntry :=
  { e with amountIssued := amount, state := .issued, updatedAt }

def issueQuotes (now : UInt64) : List LoadedQuote → MintM Unit
  | [] => pure ()
  | loaded :: entries => do
    let w ← Exec.get
    let entry ← okOr (w.mint.mintQuotes.lookup loaded.quoteId) .quoteNotFound
    let updatedAt ← nextUpdatedAt now entry.updatedAt
    writeMintQuote loaded.quoteId entry (entry.batchMint loaded.amount updatedAt)
    issueQuotes now entries

def batchMint (request : BatchMintRequest) : MintM MintResponse := do
  let entries ← batchMintChecks request
  let signatures ← signOutputs request.outputs
  let now ← nowSecs
  issueQuotes now entries
  persist
  pure ⟨signatures⟩

/-! ### NUT-05: melting -/

/-- `nut05::MeltQuoteResponse` of an entry. -/
def meltQuoteResponse (quoteId : String) (e : MeltQuoteEntry) : MeltQuoteResponse where
  quote := quoteId
  amount := e.amount
  feeReserve := e.feeReserve
  paid := e.state = .paid
  state := e.state
  expiry := e.expiry
  request := e.request
  unit := e.unit
  method := "bolt11"

def postMeltQuote (request : MeltQuoteRequest) : MintM MeltQuoteResponse := do
  let amount ← lookupAmount request.request
  let quoteId ← nowV7
  let expiry ← quoteExpiry
  let entry : MeltQuoteEntry :=
    { amount, feeReserve := 0, unit := request.unit, request := request.request, state := .unpaid, expiry }
  modifyMint fun m => m.putMeltQuote quoteId entry
  persist
  pure (meltQuoteResponse quoteId entry)

def DemoMint.getMeltQuote (m : DemoMint) (quoteId : String) : Except CashuError MeltQuoteResponse := do
  let entry ← Except.okOr (m.meltQuotes.lookup quoteId) .quoteNotFound
  pure (meltQuoteResponse quoteId entry)

/-- Only an unpaid quote is melted. -/
def meltGate : MeltQuoteState → Except CashuError Unit
  | .paid => .error .meltAlreadyPaid
  | .unpaid => .ok ()
  | .failed => .error .paymentFailed
  | .pending => .error (.protocol "melt quote in unexpected state")

/-- The change outputs that fit in the budget, blank ones included; what is left of the budget; the
number of blanks. -/
def fillChange : List BlindedMessage → UInt64 → List BlindedMessage × UInt64 × Nat
  | [], budget => ([], budget, 0)
  | o :: outputs, budget =>
    if o.amount = 0 then
      let (filled, left, blanks) := fillChange outputs budget
      (o :: filled, left, blanks + 1)
    else if o.amount ≤ budget then
      let (filled, left, blanks) := fillChange outputs (budget - o.amount)
      (o :: filled, left, blanks)
    else fillChange outputs budget

/-- The loop `while left > 0`; each round takes off at least one, so `left` rounds are enough. -/
def DemoKeyset.pieces (ks : DemoKeyset) : Nat → UInt64 → Except CashuError (List UInt64)
  | 0, _ => .ok []
  | n + 1, left =>
    if left = 0 then .ok []
    else do
      let key ← Except.okOr (ks.keys.reverse.find? fun key => key.1 ≤ left) .invalidAmount
      let rest ← ks.pieces n (left - key.1)
      pure (key.1 :: rest)

/-- The pieces go to the blank outputs in order. -/
def assignPieces : List BlindedMessage → List UInt64 → List BlindedMessage
  | [], _ => []
  | o :: outputs, pieces =>
    if o.amount = 0 then
      match pieces with
      | [] => o :: assignPieces outputs []
      | amount :: pieces => { o with amount } :: assignPieces outputs pieces
    else o :: assignPieces outputs pieces

def DemoKeyset.imprintBlankOutputs (ks : DemoKeyset) (outputs : List BlindedMessage) (remainder : UInt64)
    (blankCount : Nat) : Except CashuError (List BlindedMessage) := do
  let pieces ← ks.pieces remainder.toNat remainder
  if blankCount < pieces.length then .error .amountMismatch else pure (assignPieces outputs pieces)

/-- The change outputs of a melt, imprinted. -/
def DemoKeyset.changeOutputs (ks : DemoKeyset) (outputs : List BlindedMessage) (inputSum required : UInt64) :
    Except CashuError (List BlindedMessage) := do
  let overpay ← Except.okOr (UInt64.checkedSub inputSum required) .amountMismatch
  let (filled, budget, blankCount) := fillChange outputs overpay
  ks.checkOutputsSignable filled
  if 0 < blankCount then ks.imprintBlankOutputs filled budget blankCount else pure filled

structure MeltPlan where
  amount : UInt64
  invoice : String
  changeOutputs : Option (List BlindedMessage)

def meltRequired (amount feeReserve fee : UInt64) : Option UInt64 :=
  (UInt64.checkedAdd amount feeReserve).bind (UInt64.checkedAdd · fee)

/-- `post_melt` up to the claim. -/
def meltChecks (request : MeltRequest) : MintM MeltPlan := do
  let w ← Exec.get
  let entry ← okOr (w.mint.meltQuotes.lookup request.quote) .quoteNotFound
  Exec.lift (meltGate entry.state)
  let inputSum ← Exec.lift (w.mint.verifyProofs request.inputs 0)
  let now ← nowSecs
  Exec.lift (verifySpendingConditions request.inputs request.outputs (some request.quote) now)
  let fee ← Exec.lift (w.mint.keyset.inputFeeTotal request.inputs)
  let required ← okOr (meltRequired entry.amount entry.feeReserve fee) .invalidAmount
  failIf (inputSum < required) .insufficientInputs
  let changeOutputs ← Exec.lift (match request.outputs with
    | some outputs => (w.mint.keyset.changeOutputs outputs inputSum required).map some
    | none => .ok none)
  pure ⟨entry.amount, entry.request, changeOutputs⟩

/-- `post_melt` up to the payment: the inputs are claimed and the claim is saved. -/
def meltClaim (request : MeltRequest) : MintM MeltPlan := do
  let plan ← meltChecks request
  claimProofs request.inputs
  setMeltState request.quote .pending
  persist
  pure plan

/-- Only imprinted outputs are signed. -/
def signChange : Option (List BlindedMessage) → MintM (Option (List BlindSignature))
  | none => pure none
  | some outputs => do
    let filled := outputs.filter fun o => 0 < o.amount
    if filled = [] then pure none
    else do
      let signatures ← signOutputs filled
      pure (some signatures)

def meltPaid (request : MeltRequest) (plan : MeltPlan) (preimage : String) : MintM MeltResponse := do
  let change ← signChange plan.changeOutputs
  setMeltState request.quote .paid
  persist
  let w ← Exec.get
  let entry ← okOr (w.mint.meltQuotes.lookup request.quote) .quoteNotFound
  pure { paid := true, state := .paid, paymentPreimage := some preimage, change, quote := request.quote,
         amount := entry.amount, feeReserve := entry.feeReserve, unit := entry.unit, expiry := entry.expiry,
         request := entry.request, method := "bolt11" }

def meltFailed (request : MeltRequest) : MintM MeltResponse := do
  releaseProofs request.inputs
  setMeltState request.quote .failed
  persist
  Exec.fail .paymentFailed

def postMelt (request : MeltRequest) : MintM MeltResponse := do
  let plan ← meltClaim request
  let answer ← payInvoice request plan.invoice plan.amount
  match answer with
  | .ok preimage => meltPaid request plan preimage
  | .error _ => meltFailed request

/-! ### NUT-03: swapping -/

/-- `post_swap` up to the claim. -/
def swapChecks (request : SwapRequest) : MintM Unit := do
  let w ← Exec.get
  let inputSum ← Exec.lift (w.mint.verifyProofs request.inputs 0)
  let now ← nowSecs
  Exec.lift (verifySpendingConditions request.inputs (some request.outputs) none now)
  let sum ← okOr (outputSum request.outputs) .invalidAmount
  let fee ← Exec.lift (w.mint.keyset.inputFeeTotal request.inputs)
  let required ← okOr (UInt64.checkedAdd sum fee) .invalidAmount
  failIf (inputSum ≠ required) .amountMismatch
  Exec.lift (w.mint.keyset.checkOutputsSignable request.outputs)

/-- `post_swap` up to the first signature. -/
def swapClaim (request : SwapRequest) : MintM Unit := do
  swapChecks request
  claimProofs request.inputs

def postSwap (request : SwapRequest) : MintM SwapResponse := do
  swapClaim request
  let signatures ← signOutputs request.outputs
  persist
  pure ⟨signatures⟩

/-! ### NUT-09: restoring -/

def DemoMint.postRestore (m : DemoMint) (request : RestoreRequest) : RestoreResponse where
  outputs := request.outputs.filterMap fun b => (m.issuedOutputs.lookup (pointHex b)).map (⟨b, ·⟩)

end Micronuts
