import Mathlib.Data.List.Sort
import Micronuts.Lib.Checked
import Micronuts.Lib.Exec
import Micronuts.Lib.Table
import Micronuts.Nuts.Nut00
import Micronuts.Nuts.Nut13

/-!
# The persistent wallet (`cashu-core-lite`: `persistent.rs`, `wallet.rs`, `store.rs`)

A wallet holds its proofs and the counter of the next output in memory; `persist` writes both to the store as one
`Envelope`. A method is an `Exec` over the wallet, the blob in its store, and the requests that have left it. The mint
and the store answer through `WalletEnv`; each method asks the mint at most once.
-/

namespace Micronuts

def restoreHeadroom : UInt32 := 64

def envelopeVersion : UInt32 := 1

def u32Max : UInt32 := 0xFFFFFFFF

def saturatingAdd (a b : UInt32) : UInt32 := if a.toNat + b.toNat < 2 ^ 32 then a + b else u32Max

inductive StoreError
  | unavailable
  | failed (msg : String)
deriving DecidableEq, Repr

def storeError : StoreError → CashuError
  | .unavailable => .storage "store unavailable"
  | .failed _ => .storage "store write failed"

section
variable [Crypto]

structure Envelope where
  version : UInt32
  counter : UInt32
  proofs : List Proof
  seedId : List UInt8
deriving DecidableEq

/-- The store is left with one blob or the other, also by a save that reports an error. -/
inductive SaveResult
  | saved
  | failed (e : StoreError) (written : Bool)

structure WalletEnv where
  postMint : MintRequest → Except CashuError MintResponse
  postMelt : MeltRequest → Except CashuError MeltResponse
  postSwap : SwapRequest → Except CashuError SwapResponse
  postRestore : RestoreRequest → Except CashuError RestoreResponse
  save : Envelope → SaveResult
  overflowChecks : Bool

structure PersistentWallet where
  seed : List UInt8
  seedId : List UInt8
  counter : UInt32
  proofs : List Proof
deriving DecidableEq

inductive WalletRequest
  | mint (request : MintRequest)
  | melt (request : MeltRequest)
  | swap (request : SwapRequest)
  | restore (request : RestoreRequest)
deriving DecidableEq

/-- The wallet, the blob that its store reads back, and its requests, the newest first. -/
structure WalletWorld where
  wallet : PersistentWallet
  blob : Option Envelope
  sent : List WalletRequest

abbrev WalletM := Exec WalletEnv WalletWorld CashuError

def seedFingerprint (seed : List UInt8) : List UInt8 :=
  (Crypto.sha256 (seed ++ asBytes "CCL1-seed-fingerprint")).take 8

/-- `decode_envelope`, on a blob that decodes. -/
def openEnvelope (envelope : Envelope) (expectedSeedId : List UInt8) : Option (UInt32 × List Proof) :=
  if envelope.version ≠ envelopeVersion ∨ envelope.seedId ≠ expectedSeedId then none
  else some (envelope.counter, envelope.proofs)

/-- `PersistentWallet::new` over a store that loads; a blob that does not decode is none. -/
def PersistentWallet.new (blob : Option Envelope) (seed : List UInt8) : PersistentWallet :=
  let seedId := seedFingerprint seed
  let (counter, proofs) := (blob.bind (openEnvelope · seedId)).getD (0, [])
  { seed, seedId, counter, proofs }

def PersistentWallet.envelope (w : PersistentWallet) : Envelope where
  version := envelopeVersion
  counter := w.counter
  proofs := w.proofs
  seedId := w.seedId

namespace WalletM

def modifyWallet (f : PersistentWallet → PersistentWallet) : WalletM Unit :=
  Exec.modify fun w => { w with wallet := f w.wallet }

def wallet : WalletM PersistentWallet := do
  let w ← Exec.get
  pure w.wallet

/-- The request leaves the wallet, whatever comes back. -/
def post {α : Type} (request : WalletRequest) (answer : WalletEnv → Except CashuError α) : WalletM α := fun env w =>
  match answer env with
  | .ok response => (.ok response, { w with sent := request :: w.sent })
  | .error e => (.err e, { w with sent := request :: w.sent })

def postMint (request : MintRequest) : WalletM MintResponse := post (.mint request) fun env => env.postMint request

def postMelt (request : MeltRequest) : WalletM MeltResponse := post (.melt request) fun env => env.postMelt request

def postSwap (request : SwapRequest) : WalletM SwapResponse := post (.swap request) fun env => env.postSwap request

def postRestore (request : RestoreRequest) : WalletM RestoreResponse :=
  post (.restore request) fun env => env.postRestore request

def persist : WalletM Unit := fun env w =>
  match env.save w.wallet.envelope with
  | .saved => (.ok (), { w with blob := some w.wallet.envelope })
  | .failed e written => (.err (storeError e), if written then { w with blob := some w.wallet.envelope } else w)

/-! ### Machine arithmetic -/

/-- `a + b`: a panic or a wrapped sum. -/
def addU64 (a b : UInt64) : WalletM UInt64 := fun env w =>
  if env.overflowChecks ∧ 2 ^ 64 ≤ a.toNat + b.toNat then (.panic, w) else (.ok (a + b), w)

def addU32 (a b : UInt32) : WalletM UInt32 := fun env w =>
  if env.overflowChecks ∧ 2 ^ 32 ≤ a.toNat + b.toNat then (.panic, w) else (.ok (a + b), w)

def sumAmounts : List Proof → UInt64 → WalletM UInt64
  | [], acc => pure acc
  | p :: ps, acc => do
    let acc ← addU64 acc p.amount
    sumAmounts ps acc

end WalletM

/-! ### Outputs and proofs -/

structure PendingOutput where
  secret : List UInt8
  blinder : SecretKey
  amount : UInt64
deriving DecidableEq

/-- `String::from_utf8`. -/
def fromUtf8 (bytes : List UInt8) : Option String := String.fromUTF8? ⟨⟨bytes⟩⟩

variable [Curve]

/-- The loop of `deterministic_outputs`, from index `i` of the amounts. -/
def deterministicOutputsFrom (keysetId : String) : UInt32 → List UInt64 →
    WalletM (List BlindedMessage × List PendingOutput)
  | _, [] => pure ([], [])
  | i, amount :: amounts => do
    let w ← WalletM.wallet
    let idx ← WalletM.addU32 w.counter i
    let derived ← Exec.lift (deriveOutput w.seed keysetId idx)
    let (messages, pending) ← deterministicOutputsFrom keysetId (i + 1) amounts
    pure ({ amount, id := keysetId, b := derived.blinded } :: messages,
      { secret := asBytes derived.secretHex, blinder := derived.blinder, amount } :: pending)

def deterministicOutputs (amounts : List UInt64) (keysetId : String) :
    WalletM (List BlindedMessage × List PendingOutput) :=
  deterministicOutputsFrom keysetId 0 amounts

/-- `self.counter = self.counter.saturating_add(pending.len() as u32)`. -/
def advanceCounter (pending : List PendingOutput) : WalletM Unit :=
  WalletM.modifyWallet fun w => { w with counter := saturatingAdd w.counter (UInt32.ofNat pending.length) }

def unblindOne (mintKeys : KeySet) (p : PendingOutput) (sig : BlindSignature) : Except CashuError Proof := do
  let mintPubkey ← Except.okOr (mintKeys.pubkey p.amount) .keysetNotFound
  let c ← Except.okOr (unblindSignature sig.c p.blinder mintPubkey) (.crypto "unblind failed")
  let secret ← Except.okOr (fromUtf8 p.secret) (.crypto "invalid secret string")
  pure { amount := p.amount, id := sig.id, secret, c, dleq := sig.dleq.map fun d => ⟨d.e, d.s, p.blinder⟩,
         witness := none }

def unblindToProofs (pending : List PendingOutput) (signatures : List BlindSignature) (mintKeys : KeySet) :
    Except CashuError (List Proof) :=
  if pending.length ≠ signatures.length then .error (.protocol "signature count mismatch")
  else (pending.zip signatures).mapM fun (p, sig) => unblindOne mintKeys p sig

def verifyFreshProof (mintKeys : KeySet) (proof : Proof) : Except CashuError Unit := do
  let dleq ← Except.okOr proof.dleq (.crypto "mint signature carries no NUT-12 dleq — refusing to credit")
  let key ← Except.okOr (mintKeys.pubkey proof.amount) .keysetNotFound
  if verifyProofDleq (asBytes proof.secret) proof.c dleq key then pure ()
  else .error (.crypto "NUT-12 DLEQ verification failed — refusing to credit")

def verifyFresh (mintKeys : KeySet) : List Proof → Except CashuError Unit
  | [] => .ok ()
  | proof :: proofs => do
    verifyFreshProof mintKeys proof
    verifyFresh mintKeys proofs

def creditProofs (proofs : List Proof) : WalletM Unit :=
  WalletM.modifyWallet fun w => { w with proofs := w.proofs ++ proofs }

/-! ### Mint and swap -/

def mintDeterministic (quoteId : String) (amount : UInt64) (keysetId : String) (mintKeys : KeySet) :
    WalletM UInt64 := do
  let amounts := decomposeAmount amount
  Exec.failIf (amounts = []) .invalidAmount
  let (outputs, pending) ← deterministicOutputs amounts keysetId
  advanceCounter pending
  let response ← WalletM.postMint { quote := quoteId, outputs, signature := none }
  let proofs ← Exec.lift (unblindToProofs pending response.signatures mintKeys)
  let minted ← WalletM.sumAmounts proofs 0
  Exec.lift (verifyFresh mintKeys proofs)
  creditProofs proofs
  WalletM.persist
  pure minted

def swapDeterministic (inputs : List Proof) (newAmounts : List UInt64) (keysetId : String) (mintKeys : KeySet) :
    WalletM (List Proof) := do
  Exec.failIf (newAmounts = []) .invalidAmount
  let (outputs, pending) ← deterministicOutputs newAmounts keysetId
  advanceCounter pending
  let response ← WalletM.postSwap { inputs, outputs }
  let proofs ← Exec.lift (unblindToProofs pending response.signatures mintKeys)
  Exec.lift (verifyFresh mintKeys proofs)
  creditProofs proofs
  WalletM.persist
  pure proofs

/-! ### Melt -/

/-- The `take_while` of `select_covering`. -/
def takeCovering (amount : UInt64) : UInt64 → List Proof → WalletM (List Proof)
  | _, [] => pure []
  | acc, p :: ps =>
    if amount ≤ acc then pure []
    else do
      let acc ← WalletM.addU64 acc p.amount
      let rest ← takeCovering amount acc ps
      pure (p :: rest)

/-- The largest proofs first; equal ones keep their order. -/
def selectCovering (amount : UInt64) : WalletM (List Proof) := do
  let w ← WalletM.wallet
  let total ← WalletM.sumAmounts w.proofs 0
  Exec.failIf (total < amount) .insufficientInputs
  takeCovering amount 0 (w.proofs.mergeSort fun p q => q.amount ≤ p.amount)

/-- The change of a melt: signatures go to the blanks by position, with amounts that the mint chose. -/
def unblindChange (mintKeys : KeySet) : List (PendingOutput × BlindSignature) → UInt64 →
    WalletM (List Proof × UInt64)
  | [], changeSats => pure ([], changeSats)
  | (pending, sig) :: change, changeSats => do
    let mintPubkey ← Exec.okOr (mintKeys.pubkey sig.amount) .keysetNotFound
    let c ← Exec.okOr (unblindSignature sig.c pending.blinder mintPubkey) (.crypto "change unblind failed")
    let changeSats ← WalletM.addU64 changeSats sig.amount
    let secret ← Exec.okOr (fromUtf8 pending.secret) (.crypto "invalid secret string")
    let (proofs, changeSats) ← unblindChange mintKeys change changeSats
    pure ({ amount := sig.amount, id := sig.id, secret, c,
            dleq := sig.dleq.map fun d => ⟨d.e, d.s, pending.blinder⟩, witness := none } :: proofs, changeSats)

structure MeltOutcome where
  paid : Bool
  preimage : Option String
  changeSats : UInt64
deriving DecidableEq

def meltDeterministic (quoteId : String) (invoiceAmount feeReserve : UInt64) (keysetId : String)
    (mintKeys : KeySet) : WalletM MeltOutcome := do
  let totalNeeded ← Exec.okOr (UInt64.checkedAdd invoiceAmount feeReserve) .invalidAmount
  Exec.failIf (totalNeeded = 0) .invalidAmount
  let selected ← selectCovering totalNeeded
  let (blanks, pendingBlanks) ← deterministicOutputs (decomposeAmount feeReserve) keysetId
  advanceCounter pendingBlanks
  let response ← WalletM.postMelt { quote := quoteId, inputs := selected, outputs := some blanks }
  if ¬ response.paid then do
    -- the inputs stay, the counter is saved ahead of the blanks
    WalletM.persist
    pure { paid := false, preimage := response.paymentPreimage, changeSats := 0 }
  else do
    let (changeProofs, changeSats) ← unblindChange mintKeys (pendingBlanks.zip (response.change.getD [])) 0
    Exec.lift (verifyFresh mintKeys changeProofs)
    WalletM.modifyWallet fun w => { w with proofs := w.proofs.filter (· ∉ selected) ++ changeProofs }
    WalletM.persist
    pure { paid := true, preimage := response.paymentPreimage, changeSats }

/-! ### Restore -/

/-- The derived outputs of the indices below `end`. -/
def scanOutputs (seed : List UInt8) (keysetId : String) (end_ : UInt32) : Except CashuError (List DerivedOutput) :=
  (List.range end_.toNat).mapM fun idx => deriveOutput seed keysetId (UInt32.ofNat idx)

/-- The rows of `by_blinded`, in the order of their insertion. -/
def blindedRows (scanned : List DerivedOutput) : List (String × UInt32 × DerivedOutput) :=
  scanned.zipIdx.map fun (d, idx) => (pointHex d.blinded, UInt32.ofNat idx, d)

structure Restored where
  known : List String
  proofs : List Proof
  added : Nat
  maxIdx : Option UInt32

/-- One output of the response: foreign and known ones are passed over. -/
def restoreOutput (byBlinded : Finmap fun _ : String => UInt32 × DerivedOutput) (mintKeys : KeySet) (acc : Restored)
    (out : RestoreOutput) : Except CashuError Restored :=
  match byBlinded.lookup (pointHex out.y) with
  | none => .ok acc
  | some (idx, derived) =>
    if acc.known.contains derived.secretHex then .ok acc
    else do
      let mintPubkey ← Except.okOr (mintKeys.pubkey out.signature.amount) .keysetNotFound
      let c ← Except.okOr (unblindSignature out.signature.c derived.blinder mintPubkey) (.crypto "unblind failed")
      let proof : Proof :=
        { amount := out.signature.amount, id := out.signature.id, secret := derived.secretHex, c,
          dleq := out.signature.dleq.map fun d => ⟨d.e, d.s, derived.blinder⟩, witness := none }
      pure { known := derived.secretHex :: acc.known, proofs := acc.proofs ++ [proof], added := acc.added + 1,
             maxIdx := some (acc.maxIdx.elim idx fun m => max m idx) }

def restore (keysetId : String) (mintKeys : KeySet) : WalletM Nat := do
  let w ← WalletM.wallet
  let scanned ← Exec.lift (scanOutputs w.seed keysetId (saturatingAdd w.counter restoreHeadroom))
  let byBlinded := (∅ : Finmap fun _ : String => UInt32 × DerivedOutput).insertAll (blindedRows scanned)
  let response ← WalletM.postRestore { outputs := scanned.map DerivedOutput.blinded }
  let restored ← Exec.lift (response.outputs.foldlM (restoreOutput byBlinded mintKeys)
    { known := w.proofs.map Proof.secret, proofs := [], added := 0, maxIdx := none })
  Exec.lift (verifyFresh mintKeys restored.proofs)
  -- the largest index is below `end`, so its successor fits
  WalletM.modifyWallet fun w => { w with
    proofs := w.proofs ++ restored.proofs
    counter := restored.maxIdx.elim w.counter fun m => max w.counter (m + 1) }
  if 0 < restored.added then WalletM.persist
  pure restored.added

end

end Micronuts
