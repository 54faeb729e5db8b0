import Micronuts.Gate.Offline
import Micronuts.Lib.Run

/-!
# The gate controller and the runs of a gate (`walletport`: `gate.rs`)

A scan is a call of the validator on the token in the scanned text, and drives the board by its outcome. In a run of a
gate calls and scans alternate with restarts over the store, each with mints and keysets of its own.
-/

namespace Micronuts
open Exec

inductive RejectionReason
  | notAToken
  | undecodable
  | untrustedMint
  | lockedSecret
  | replay
  | invalidProof
  | other
deriving DecidableEq, Repr

def RejectionReason.fromError : WalletPortError → RejectionReason
  | .decode => .undecodable
  | .untrustedMint _ => .untrustedMint
  | .lockedSecret => .lockedSecret
  | .replay => .replay
  | .invalidProof _ => .invalidProof
  | _ => .other

inductive GateAction
  | opens (totalSats : UInt64)
  | underpaid (totalSats needed : UInt64)
  | rejected (reason : RejectionReason)
deriving DecidableEq, Repr

/-- The calls of `GateIo`. -/
inductive IoCall
  | opens
  | signalOk
  | signalErr (reason : RejectionReason)
  | status (line : String)
deriving DecidableEq, Repr

/-! ### Scans -/

/-- `find("cashuB")`, as the text from there on. -/
def findToken : List Char → Option (List Char)
  | [] => none
  | c :: cs => if "cashuB".toList.isPrefixOf (c :: cs) then some (c :: cs) else findToken cs

def isTokenChar (c : Char) : Bool := c.isAlphanum || c = '-' || c = '_' || c = '='

def extractCashuToken (payload : String) : Option String := do
  let text ← findToken (Text.trim payload).toList
  let rest := text.drop "cashuB".length
  pure ("cashuB" ++ String.ofList (rest.takeWhile isTokenChar))

section
variable [Crypto] [Curve] [Minicbor] [RingCodec]

/-- The action for the firmware, and what the board was told before it. -/
def handleScan (priceSats : UInt64) (payload : String) : Exec GateEnv GateWorld Empty (GateAction × List IoCall) :=
  fun env w =>
    match extractCashuToken payload with
    | none => (.ok (.rejected .notAToken, [.signalErr .notAToken]), w)
    | some token =>
      match (verifyToken token priceSats).run env w with
      | (.ok (.opens total), t) => (.ok (.opens total, [.opens, .signalOk, .status "open"]), t)
      | (.ok (.underpaid total), t) => (.ok (.underpaid total priceSats, [.signalErr .other, .status "underpaid"]), t)
      | (.err e, t) => (.ok (.rejected (.fromError e), [.signalErr (.fromError e)]), t)
      | (.panic, t) => (.panic, t)

/-! ### Runs -/

inductive GateAct
  | verify (env : GateEnv) (tokenWire : String) (priceSats : UInt64)
  | scan (env : GateEnv) (payload : String) (priceSats : UInt64)
  | restart (acceptedMints : List String) (pinnedKeysets : List KeySet)

inductive GateStep : GateWorld → GateAct → GateWorld → Prop
  | verify {w t : GateWorld} {env : GateEnv} {tokenWire : String} {priceSats : UInt64}
      {o : Outcome WalletPortError GateDecision} (run : (verifyToken tokenWire priceSats).run env w = (o, t)) :
      GateStep w (.verify env tokenWire priceSats) t
  | scan {w t : GateWorld} {env : GateEnv} {payload : String} {priceSats : UInt64}
      {o : Outcome Empty (GateAction × List IoCall)} (run : (handleScan priceSats payload).run env w = (o, t)) :
      GateStep w (.scan env payload priceSats) t
  | restart {w : GateWorld} {acceptedMints : List String} {pinnedKeysets : List KeySet} {v : OfflineGateValidator}
      (opened : OfflineGateValidator.new acceptedMints pinnedKeysets (.ok w.blob) = .ok v) :
      GateStep w (.restart acceptedMints pinnedKeysets) { w with validator := v }

/-- A gate whose validator has just been built over its store. -/
def GateWorld.Opened (w : GateWorld) : Prop :=
  ∃ acceptedMints pinnedKeysets, OfflineGateValidator.new acceptedMints pinnedKeysets (.ok w.blob) = .ok w.validator

/-- A call of `verify_token`. -/
structure GateCall where
  env : GateEnv
  tokenWire : String
  priceSats : UInt64

/-- The call that an action makes: a scan one on the token that it has found. -/
def GateAct.call : GateAct → Option GateCall
  | .verify env tokenWire priceSats => some ⟨env, tokenWire, priceSats⟩
  | .scan env payload priceSats => (extractCashuToken payload).map fun token => ⟨env, token, priceSats⟩
  | .restart _ _ => none

def GateCall.outcome (c : GateCall) (w : GateWorld) : Outcome WalletPortError GateDecision :=
  ((verifyToken c.tokenWire c.priceSats).run c.env w).1

def GateCall.world (c : GateCall) (w : GateWorld) : GateWorld := ((verifyToken c.tokenWire c.priceSats).run c.env w).2

section
variable {w t : GateWorld} {c : GateCall}

theorem GateCall.ends (c : GateCall) (w : GateWorld) :
    VerifyEnds c.env c.tokenWire c.priceSats w (c.outcome w) (c.world w) :=
  verifyToken_ends c.tokenWire c.priceSats

theorem GateCall.step (c : GateCall) (w : GateWorld) :
    GateStep w (.verify c.env c.tokenWire c.priceSats) (c.world w) :=
  .verify (Prod.eta ((verifyToken c.tokenWire c.priceSats).run c.env w)).symm

theorem handleScan_none {env : GateEnv} {payload : String} {priceSats : UInt64} (h : extractCashuToken payload = none) :
    (handleScan priceSats payload).run env w = (.ok (.rejected .notAToken, [.signalErr .notAToken]), w) := by
  simp only [Exec.run, handleScan, h]

theorem handleScan_some {env : GateEnv} {payload token : String} {priceSats : UInt64}
    (h : extractCashuToken payload = some token) : (handleScan priceSats payload).run env w =
      match (verifyToken token priceSats).run env w with
      | (.ok (.opens total), t) => (.ok (.opens total, [.opens, .signalOk, .status "open"]), t)
      | (.ok (.underpaid total), t) => (.ok (.underpaid total priceSats, [.signalErr .other, .status "underpaid"]), t)
      | (.err e, t) => (.ok (.rejected (.fromError e), [.signalErr (.fromError e)]), t)
      | (.panic, t) => (.panic, t) := by
  simp only [Exec.run, handleScan, h]

theorem handleScan_world {env : GateEnv} {payload token : String} {priceSats : UInt64}
    (h : extractCashuToken payload = some token) :
    ((handleScan priceSats payload).run env w).2 = ((verifyToken token priceSats).run env w).2 := by
  rw [handleScan_some h]
  rcases (verifyToken token priceSats).run env w with ⟨(_ | _) | _ | _, t⟩ <;> rfl

theorem GateStep.world {a : GateAct} (h : GateStep w a t) (hcall : a.call = some c) : t = c.world w := by
  rcases h with hrun | hrun | -
  · cases hcall
    rw [GateCall.world, hrun]
  · rw [GateAct.call, Option.map_eq_some_iff] at hcall
    obtain ⟨token, htoken, rfl⟩ := hcall
    rw [GateCall.world, ← handleScan_world htoken, hrun]
  · cases hcall

theorem GateStep.of_call {a : GateAct} (h : GateStep w a t) (hcall : a.call = some c) :
    VerifyEnds c.env c.tokenWire c.priceSats w (c.outcome w) t := by
  rw [h.world hcall]
  exact c.ends w

/-- A step that makes no call leaves the store, and the validator too unless it builds it anew. -/
theorem GateStep.of_no_call {a : GateAct} (h : GateStep w a t) (hcall : a.call = none) :
    t = w ∨ t.blob = w.blob ∧ t.Opened := by
  rcases h with - | hrun | hopened
  · cases hcall
  · rw [GateAct.call, Option.map_eq_none_iff] at hcall
    have hsame := (handleScan_none hcall).symm.trans hrun
    exact .inl (congrArg Prod.snd hsame).symm
  · exact .inr ⟨rfl, _, _, hopened⟩

/-- The board is told to open on the decision alone. -/
theorem handleScan_opens {env : GateEnv} {payload : String} {priceSats : UInt64} {action : GateAction} {io : List IoCall}
    (h : (handleScan priceSats payload).run env w = (.ok (action, io), t)) :
    IoCall.opens ∈ io ↔ ∃ token total, extractCashuToken payload = some token ∧
      (verifyToken token priceSats).run env w = (.ok (.opens total), t) ∧ action = .opens total := by
  rcases htoken : extractCashuToken payload with - | token
  · rw [handleScan_none htoken] at h
    cases h
    simp
  · rw [handleScan_some htoken] at h
    rcases hverify : (verifyToken token priceSats).run env w with ⟨(total | total) | e | -, t'⟩ <;>
      rw [hverify] at h <;> cases h
    · exact iff_of_true (by simp) ⟨token, total, rfl, hverify, rfl⟩
    · refine iff_of_false (by simp) ?_
      rintro ⟨_, _, -, -, hne⟩
      cases hne
    · refine iff_of_false (by simp) ?_
      rintro ⟨_, _, -, -, hne⟩
      cases hne

end

end

end Micronuts
