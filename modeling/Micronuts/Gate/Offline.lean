import Mathlib.Data.Bool.AllAny
import Micronuts.Gate.WalletPort
import Micronuts.Lib.Ring
import Micronuts.Nuts.Blinding
import Micronuts.Wallet.Persistent

/-!
# The offline gate (`walletport`: `offline.rs`)

A validator checks a token against pinned keysets, without its mint, and marks the secrets of a token that pays as
spent: first in its ring in memory, then in its store. A call ends in one of the ways of `VerifyEnds`.
-/

namespace Micronuts
open Exec

def spentRingCapacity : Nat := 4096

inductive GateDecision
  | opens (totalSats : UInt64)
  | underpaid (totalSats : UInt64)
deriving DecidableEq, Repr

structure SpentRing where
  version : UInt32
  secrets : List String

/-- The codec that is derived for `SpentRing`. -/
class RingCodec where
  toVec : SpentRing → Option (List UInt8)
  decode : List UInt8 → Option SpentRing
  decode_toVec : ∀ ring blob, toVec ring = some blob → decode blob = some ring

section
variable [Crypto]

structure OfflineGateValidator where
  trust : TrustModel
  pinnedKeysets : List KeySet
  spent : List String

/-- The validator and the blob that its store reads back. -/
structure GateWorld where
  validator : OfflineGateValidator
  blob : Option (List UInt8)

structure GateEnv where
  save : List UInt8 → SaveResult
  overflowChecks : Bool

abbrev GateM := Exec GateEnv GateWorld WalletPortError

section new
variable [RingCodec]

omit [Crypto] in
/-- A blob that does not decode, or not with version 1, is an empty ring. -/
def loadRing (blob : List UInt8) : List String :=
  (((RingCodec.decode blob).filter fun r => r.version = 1).map SpentRing.secrets).getD []

def OfflineGateValidator.new (acceptedMints : List String) (pinnedKeysets : List KeySet)
    (load : Except StoreError (Option (List UInt8))) : Except WalletPortError OfflineGateValidator :=
  let trust := { acceptedMints, allowUntrusted := false }
  match load with
  | .ok (some blob) => .ok { trust, pinnedKeysets, spent := loadRing blob }
  | .ok none => .ok { trust, pinnedKeysets, spent := [] }
  | .error _ => .error (.storage "store unavailable")

/-- The ring that the store holds. -/
def GateWorld.saved (w : GateWorld) : List String := w.blob.elim [] loadRing

end new

/-! ### One call -/

def TokenV4.secrets (token : TokenV4) : List String := token.proofs.map Token.Proof.secret

/-- The ring after the secrets of a token. -/
def GateWorld.spend (w : GateWorld) (token : TokenV4) : GateWorld :=
  { w with validator := { w.validator with spent := Ring.push spentRingCapacity w.validator.spent token.secrets } }

@[simp] theorem spend_trust (w : GateWorld) (token : TokenV4) : (w.spend token).validator.trust = w.validator.trust := by
  simp only [GateWorld.spend]

@[simp] theorem spend_spent (w : GateWorld) (token : TokenV4) :
    (w.spend token).validator.spent = Ring.push spentRingCapacity w.validator.spent token.secrets := by
  simp only [GateWorld.spend]

@[simp] theorem spend_blob (w : GateWorld) (token : TokenV4) : (w.spend token).blob = w.blob := by
  simp only [GateWorld.spend]

namespace GateM

def validator : GateM OfflineGateValidator := do
  let w ← Exec.get
  pure w.validator

def totalAmount (token : TokenV4) : GateM UInt64 := fun env w =>
  match token.totalAmount env.overflowChecks with
  | some total => (.ok total, w)
  | none => (.panic, w)

def persist [RingCodec] : GateM Unit := fun env w =>
  match RingCodec.toVec ⟨1, w.validator.spent⟩ with
  | none => (.err (.storage "ring encode failed"), w)
  | some blob =>
    match env.save blob with
    | .saved => (.ok (), { w with blob := some blob })
    | .failed _ written => (.err (.storage "ring save failed"), if written then { w with blob := some blob } else w)

end GateM

variable [Curve]

/-- The checks of one proof, in the order of the source. -/
def checkProof (v : OfflineGateValidator) (proof : Token.Proof) : Except WalletPortError Unit :=
  if secretHasSpendingConditions proof.secret then .error .lockedSecret
  else if v.spent.contains proof.secret then .error .replay
  else do
    let dleq ← Except.okOr proof.dleq
      (.invalidProof "proof carries no NUT-12 dleq — offline verification impossible")
    let keyset ← Except.okOr (findKeyset v.pinnedKeysets proof.keysetId) (.invalidProof "proof keyset not pinned")
    let pubkey ← Except.okOr (keyset.pubkey proof.amount) (.invalidProof "no pinned key for denomination")
    let _ ← Except.okOr (Hex.decode proof.secret) (.invalidProof "secret not hex")
    let cPoint ← Except.okOr (Crypto.fromBytes proof.c) (.invalidProof "C not a point")
    if verifyProofDleq (asBytes proof.secret) cPoint dleq pubkey then pure ()
    else .error (.invalidProof "DLEQ verification failed")

/-- The proof verifies under the pinned key of its keyset and amount. -/
def VerifiesPinned (pinned : List KeySet) (p : Token.Proof) : Prop :=
  ∃ dleq keyset pubkey c, p.dleq = some dleq ∧ findKeyset pinned p.keysetId = some keyset ∧
    keyset.pubkey p.amount = some pubkey ∧ Crypto.fromBytes p.c = some c ∧
    verifyProofDleq (asBytes p.secret) c dleq pubkey = true

theorem checkProof_eq_ok {v : OfflineGateValidator} {p : Token.Proof} : checkProof v p = .ok () ↔
    secretHasSpendingConditions p.secret = false ∧ p.secret ∉ v.spent ∧ (∃ bytes, Hex.decode p.secret = some bytes) ∧
      VerifiesPinned v.pinnedKeysets p := by
  unfold checkProof VerifiesPinned
  by_cases hlocked : secretHasSpendingConditions p.secret = true
  · simp [hlocked]
  · by_cases hspent : p.secret ∈ v.spent
    · simp [hlocked, hspent]
    · rw [if_neg hlocked, if_neg (by simpa using hspent)]
      simp only [Except.bind_eq_ok, Except.okOr_eq_ok, Bool.not_eq_true] at hlocked ⊢
      constructor
      · rintro ⟨dleq, hdleq, keyset, hkeyset, pubkey, hkey, bytes, hhex, c, hc, hverify⟩
        refine ⟨hlocked, hspent, ⟨bytes, hhex⟩, dleq, keyset, pubkey, c, hdleq, hkeyset, hkey, hc, ?_⟩
        split at hverify
        · next hverifies => exact hverifies
        · cases hverify
      · rintro ⟨-, -, ⟨bytes, hhex⟩, dleq, keyset, pubkey, c, hdleq, hkeyset, hkey, hc, hverify⟩
        exact ⟨dleq, hdleq, keyset, hkeyset, pubkey, hkey, bytes, hhex, c, hc, if_pos hverify⟩

/-- A proof is refused as locked, as a replay or as invalid. -/
theorem checkProof_eq_error {v : OfflineGateValidator} {p : Token.Proof} {e : WalletPortError}
    (h : checkProof v p = .error e) : e = .lockedSecret ∨ e = .replay ∨ ∃ msg, e = .invalidProof msg := by
  unfold checkProof at h
  split at h
  · cases h
    exact .inl rfl
  · split at h
    · cases h
      exact .inr (.inl rfl)
    · refine .inr (.inr ?_)
      simp only [Except.bind_eq_error, Except.okOr_eq_error] at h
      rcases h with ⟨-, rfl⟩ | ⟨_, -, ⟨-, rfl⟩ | ⟨_, -, ⟨-, rfl⟩ | ⟨_, -, ⟨-, rfl⟩ | ⟨_, -, ⟨-, rfl⟩ | ⟨_, -, h⟩⟩⟩⟩⟩
      · exact ⟨_, rfl⟩
      · exact ⟨_, rfl⟩
      · exact ⟨_, rfl⟩
      · exact ⟨_, rfl⟩
      · exact ⟨_, rfl⟩
      · split at h
        · cases h
        · cases h
          exact ⟨_, rfl⟩

variable [Minicbor] [RingCodec]

def verifyToken (tokenWire : String) (priceSats : UInt64) : GateM GateDecision := do
  let token ← Exec.lift (decodeTokenOrErr tokenWire)
  let v ← GateM.validator
  Exec.failIf (v.trust.mintAccepted token.mint = false) (.untrustedMint token.mint)
  Exec.lift (token.proofs.forM (checkProof v))
  let total ← GateM.totalAmount token
  if total < priceSats then pure (.underpaid total)
  else do
    -- pushed, and trimmed from the front, before the save
    Exec.modify fun w => w.spend token
    GateM.persist
    pure (.opens total)

/-! ### How a call ends -/

/-- The token passes every check but the price. -/
structure Admitted (v : OfflineGateValidator) (tokenWire : String) (token : TokenV4) : Prop where
  decoded : decodeTokenOrErr tokenWire = .ok token
  accepted : v.trust.mintAccepted token.mint = true
  checked : ∀ p ∈ token.proofs, checkProof v p = .ok ()

/-- What `persist` leaves; by the contract of a store a failed save is the old blob or the whole new one. -/
inductive RingSaves (env : GateEnv) (w : GateWorld) : Outcome WalletPortError Unit → GateWorld → Prop
  | saved {blob} (encoded : RingCodec.toVec ⟨1, w.validator.spent⟩ = some blob) (saved : env.save blob = .saved) :
      RingSaves env w (.ok ()) { w with blob := some blob }
  | failed {msg t} (validator : t.validator = w.validator)
      (blob : t.blob = w.blob ∨ ∃ blob, RingCodec.toVec ⟨1, w.validator.spent⟩ = some blob ∧ t.blob = some blob) :
      RingSaves env w (.err (.storage msg)) t

inductive VerifyEnds (env : GateEnv) (tokenWire : String) (priceSats : UInt64) (w : GateWorld) :
    Outcome WalletPortError GateDecision → GateWorld → Prop
  | undecoded (undecoded : decodeTokenOrErr tokenWire = .error .decode) :
      VerifyEnds env tokenWire priceSats w (.err .decode) w
  | untrusted {token} (decoded : decodeTokenOrErr tokenWire = .ok token)
      (untrusted : w.validator.trust.mintAccepted token.mint = false) :
      VerifyEnds env tokenWire priceSats w (.err (.untrustedMint token.mint)) w
  | refused {token e} (decoded : decodeTokenOrErr tokenWire = .ok token)
      (accepted : w.validator.trust.mintAccepted token.mint = true)
      (refused : token.proofs.forM (checkProof w.validator) = .error e) :
      VerifyEnds env tokenWire priceSats w (.err e) w
  | overflowed {token} (admitted : Admitted w.validator tokenWire token)
      (overflow : token.totalAmount env.overflowChecks = none) : VerifyEnds env tokenWire priceSats w .panic w
  | underpaid {token total} (admitted : Admitted w.validator tokenWire token)
      (amount : token.totalAmount env.overflowChecks = some total) (short : total < priceSats) :
      VerifyEnds env tokenWire priceSats w (.ok (.underpaid total)) w
  | pays {token total o t} (admitted : Admitted w.validator tokenWire token)
      (amount : token.totalAmount env.overflowChecks = some total) (price : priceSats ≤ total)
      (saves : RingSaves env (w.spend token) o t) :
      VerifyEnds env tokenWire priceSats w (o.map fun _ => .opens total) t

section
variable {env : GateEnv} {w : GateWorld}

/-- How a call ends for a token that decodes. -/
theorem VerifyEnds.of_decoded {tokenWire : String} {priceSats : UInt64} {t : GateWorld} {token : TokenV4}
    {o : Outcome WalletPortError GateDecision} (h : VerifyEnds env tokenWire priceSats w o t)
    (hdecode : decodeTokenOrErr tokenWire = .ok token) :
    (w.validator.trust.mintAccepted token.mint = false ∧ o = .err (.untrustedMint token.mint) ∧ t = w) ∨
      (w.validator.trust.mintAccepted token.mint = true ∧
        ∃ e, token.proofs.forM (checkProof w.validator) = .error e ∧ o = .err e ∧ t = w) ∨
      Admitted w.validator tokenWire token := by
  have hsame : ∀ {token'}, decodeTokenOrErr tokenWire = .ok token' → token' = token := by
    intro token' hdecoded
    exact Except.ok.inj (hdecoded.symm.trans hdecode)
  rcases h with ⟨hundecoded⟩ | ⟨hdecoded, hmint⟩ | ⟨hdecoded, hmint, hrefused⟩ | ⟨hadmitted, -⟩ | ⟨hadmitted, -⟩ |
    ⟨hadmitted, -⟩
  · rw [hdecode] at hundecoded
    cases hundecoded
  · obtain rfl := hsame hdecoded
    exact .inl ⟨hmint, rfl, rfl⟩
  · obtain rfl := hsame hdecoded
    exact .inr (.inl ⟨hmint, _, hrefused, rfl, rfl⟩)
  · obtain rfl := hsame hadmitted.decoded
    exact .inr (.inr hadmitted)
  · obtain rfl := hsame hadmitted.decoded
    exact .inr (.inr hadmitted)
  · obtain rfl := hsame hadmitted.decoded
    exact .inr (.inr hadmitted)

theorem VerifyEnds.of_undecoded {tokenWire : String} {priceSats : UInt64} {t : GateWorld} {e : WalletPortError}
    {o : Outcome WalletPortError GateDecision} (h : VerifyEnds env tokenWire priceSats w o t)
    (hdecode : decodeTokenOrErr tokenWire = .error e) : o = .err .decode := by
  have hnot : ∀ {token}, decodeTokenOrErr tokenWire ≠ .ok token := by
    intro token hdecoded
    rw [hdecode] at hdecoded
    cases hdecoded
  rcases h with - | ⟨hdecoded, -⟩ | ⟨hdecoded, -⟩ | ⟨hadmitted, -⟩ | ⟨hadmitted, -⟩ | ⟨hadmitted, -⟩
  · rfl
  · exact absurd hdecoded hnot
  · exact absurd hdecoded hnot
  · exact absurd hadmitted.decoded hnot
  · exact absurd hadmitted.decoded hnot
  · exact absurd hadmitted.decoded hnot

/-- A call changes the ring at most. -/
theorem VerifyEnds.trust {tokenWire : String} {priceSats : UInt64} {t : GateWorld}
    {o : Outcome WalletPortError GateDecision} (h : VerifyEnds env tokenWire priceSats w o t) :
    t.validator.trust = w.validator.trust := by
  rcases h with - | - | - | - | - | ⟨-, -, -, - | ⟨hvalidator, -⟩⟩
  · rfl
  · rfl
  · rfl
  · rfl
  · rfl
  · simp
  · rw [hvalidator]
    simp

omit [Curve] [Minicbor] in
theorem persist_saves : GateM.persist.Ends env w (RingSaves env w) := by
  unfold Ends Exec.run GateM.persist
  rcases henc : RingCodec.toVec ⟨1, w.validator.spent⟩ with - | blob
  · exact .failed rfl (.inl rfl)
  · dsimp only
    rcases hsave : env.save blob with - | ⟨e, written⟩
    · exact .saved henc hsave
    · cases written with
      | false => exact .failed rfl (.inl rfl)
      | true => exact .failed rfl (.inr ⟨blob, henc, rfl⟩)

theorem verifyToken_ends (tokenWire : String) (priceSats : UInt64) :
    (verifyToken tokenWire priceSats).Ends env w (VerifyEnds env tokenWire priceSats w) := by
  refine Ends.bind_lift (fun token hdecode => ?_) fun e hdecode => ?_
  · refine Ends.bind_get (Ends.bind_failIf (fun hmint => ?_) fun hmint => .untrusted hdecode hmint)
    have hmint := Bool.eq_true_of_not_eq_false hmint
    refine Ends.bind_lift (fun _ hchecks => ?_) fun e hchecks => .refused hdecode hmint hchecks
    have hadmitted : Admitted w.validator tokenWire token := ⟨hdecode, hmint, Except.forM_eq_ok.1 hchecks⟩
    have htotal : (GateM.totalAmount token).Ends env w fun o t => t = w ∧
        ((∃ total, token.totalAmount env.overflowChecks = some total ∧ o = .ok total) ∨
          token.totalAmount env.overflowChecks = none ∧ o = .panic) := by
      unfold Ends Exec.run GateM.totalAmount
      rcases token.totalAmount env.overflowChecks with - | total
      · exact ⟨rfl, .inr ⟨rfl, rfl⟩⟩
      · exact ⟨rfl, .inl ⟨total, rfl, rfl⟩⟩
    refine htotal.bind ?_ ?_ ?_
    · rintro total t ⟨rfl, ⟨total', hamount, heq⟩ | ⟨-, heq⟩⟩
      · cases heq
        split
        · next hshort => exact .underpaid hadmitted hamount hshort
        · next hprice =>
          refine Ends.bind_modify (Ends.bind_pure (persist_saves.mono fun o t hsaves => ?_))
          exact .pays hadmitted hamount (UInt64.not_lt.1 hprice) hsaves
      · cases heq
    · rintro e t ⟨-, ⟨_, -, heq⟩ | ⟨-, heq⟩⟩ <;> cases heq
    · rintro t ⟨rfl, ⟨_, -, heq⟩ | ⟨hoverflow, -⟩⟩
      · cases heq
      · exact .overflowed hadmitted hoverflow
  · obtain ⟨-, rfl⟩ := Except.okOr_eq_error.1 hdecode
    exact .undecoded hdecode

/-- An admitted token that pays opens the gate when its ring is saved. -/
theorem Admitted.opens {tokenWire : String} {token : TokenV4} {priceSats total : UInt64} {blob : List UInt8}
    (h : Admitted w.validator tokenWire token) (htotal : token.totalAmount env.overflowChecks = some total)
    (hprice : priceSats ≤ total) (hencode : RingCodec.toVec ⟨1, (w.spend token).validator.spent⟩ = some blob)
    (hsave : env.save blob = .saved) : (verifyToken tokenWire priceSats).run env w =
      (.ok (.opens total), { w.spend token with blob := some blob }) := by
  suffices hends : (verifyToken tokenWire priceSats).Ends env w fun o t =>
      o = .ok (.opens total) ∧ t = { w.spend token with blob := some blob } from Prod.ext hends.1 hends.2
  refine Ends.bind_lift (fun token' hdecode => ?_) fun e herror => ?_
  · obtain rfl := Except.ok.inj (hdecode.symm.trans h.decoded)
    refine Ends.bind_get (Ends.bind_failIf (fun _ => ?_) fun hmint => ?_)
    · refine Ends.bind_lift (fun _ _ => ?_) fun e hchecks => ?_
      · have hamount : (GateM.totalAmount token').Ends env w fun o t => o = .ok total ∧ t = w := by
          unfold Ends Exec.run GateM.totalAmount
          rw [htotal]
          exact ⟨rfl, rfl⟩
        refine hamount.bind ?_ (fun _ _ heq => by cases heq.1) (fun _ heq => by cases heq.1)
        rintro total' t ⟨heq, rfl⟩
        cases heq
        rw [if_neg (UInt64.not_lt.2 hprice)]
        refine Ends.bind_modify ?_
        have hpersist : GateM.persist.Ends env (t.spend token') fun o t' =>
            o = .ok () ∧ t' = { t.spend token' with blob := some blob } := by
          unfold Ends Exec.run GateM.persist
          rw [hencode]
          dsimp only
          rw [hsave]
          exact ⟨rfl, rfl⟩
        refine hpersist.bind ?_ (fun _ _ heq => by cases heq.1) (fun _ heq => by cases heq.1)
        rintro _ t' ⟨-, rfl⟩
        exact Ends.pure ⟨rfl, rfl⟩
      · rw [Except.forM_eq_ok.2 h.checked] at hchecks
        cases hchecks
    · rw [h.accepted] at hmint
      cases hmint
  · rw [h.decoded] at herror
    cases herror

end

end

/-! ### An instance to run the gate on -/

namespace ToyCbor
open Decoder

/-- The array of the version and the secrets, as long as every length fits in the head of an item. -/
def ringBytes (r : SpentRing) : Option (List UInt8) :=
  if r.version.toNat < 24 ∧ r.secrets.length < 24 ∧ ∀ s ∈ r.secrets, (asBytes s).length < 24 then
    some (0x82 :: UInt8.ofNat r.version.toNat :: UInt8.ofNat (0x80 + r.secrets.length) ::
      r.secrets.flatMap fun s => UInt8.ofNat (0x60 + (asBytes s).length) :: asBytes s)
  else none

def readRing : Decoder UInt8 SpentRing := do
  let len ← Minicbor.array
  if len ≠ some 2 then failure
  else do
    let version ← Minicbor.u64
    let secrets ← decodeArray Minicbor.str
    pure ⟨version.toUInt32, secrets⟩

theorem head_small {n : Nat} (hn : n < 24) (major : UInt8) (hmajor : major ∈ [0, 3, 4]) (t : List UInt8) :
    head (UInt8.ofNat (32 * major.toNat + n) :: t) = some ((major, UInt8.ofNat n, n), t) := by
  have hbits : ∀ n < 24, ([0, 3, 4] : List UInt8).all (fun m => UInt8.ofNat (32 * m.toNat + n) >>> 5 = m ∧
      UInt8.ofNat (32 * m.toNat + n) &&& 31 = UInt8.ofNat n ∧ UInt8.ofNat n < 24 ∧ (UInt8.ofNat n).toNat = n) = true := by
    decide
  obtain ⟨hshift, hinfo, hlt, hnat⟩ := List.all_iff_forall_prop.1 (hbits n hn) major hmajor
  show (argument _ t).bind _ = _
  rw [hinfo, argument, if_pos hlt, hshift, hnat]
  rfl

theorem lengthOf_small {n : Nat} (hn : n < 24) (t : List UInt8) :
    lengthOf 4 (UInt8.ofNat (0x80 + n) :: t) = some (some (UInt64.ofNat n), t) := by
  have hinfo : UInt8.ofNat n ≠ 31 := by
    have : ∀ n < 24, UInt8.ofNat n ≠ 31 := by decide
    exact this n hn
  have hhead := head_small hn 4 (by simp) t
  refine run_bind_eq_some.2 ⟨_, t, hhead, ?_⟩
  simp [hinfo]
  rfl

theorem text_small {s : String} (hs : (asBytes s).length < 24) (t : List UInt8) :
    text (UInt8.ofNat (0x60 + (asBytes s).length) :: (asBytes s ++ t)) = some (s, t) := by
  have hinfo : UInt8.ofNat (asBytes s).length ≠ 31 := by
    have : ∀ n < 24, UInt8.ofNat n ≠ 31 := by decide
    exact this _ hs
  have hhead := head_small hs 3 (by simp) (asBytes s ++ t)
  refine run_bind_eq_some.2 ⟨asBytes s, t, run_bind_eq_some.2 ⟨_, _, hhead, ?_⟩, ?_⟩
  · simp [hinfo, takeBytes]
  · rw [fromUTF8?_asBytes]
    rfl

theorem times_push_text {secrets : List String} (h : ∀ s ∈ secrets, (asBytes s).length < 24) (out : List String) :
    times (push text) secrets.length out
      (secrets.flatMap fun s => UInt8.ofNat (0x60 + (asBytes s).length) :: asBytes s) = some (out ++ secrets, []) := by
  induction secrets generalizing out with
  | nil => simp [times]; rfl
  | cons s secrets ih =>
    rw [List.forall_mem_cons] at h
    have hpush : ∀ t, push text out (UInt8.ofNat (0x60 + (asBytes s).length) :: (asBytes s ++ t)) = some (out ++ [s], t) :=
      fun t => run_bind_eq_some.2 ⟨s, t, text_small h.1 t, rfl⟩
    refine run_bind_eq_some.2 ⟨out ++ [s], _, hpush _, ?_⟩
    exact (ih h.2 (out ++ [s])).trans (by simp)

theorem readRing_ringBytes {r : SpentRing} {blob : List UInt8} (h : ringBytes r = some blob) :
    minicborDecode readRing blob = some r := by
  unfold ringBytes at h
  split at h
  · next hsmall =>
    obtain ⟨hversion, hcount, hsecrets⟩ := hsmall
    cases h
    have hinfo : ∀ n < 24, UInt8.ofNat n ≠ 31 := by decide
    have hu64 : ∀ t, unsigned (UInt8.ofNat r.version.toNat :: t) = some (UInt64.ofNat r.version.toNat, t) := by
      intro t
      have hhead := head_small hversion 0 (by simp) t
      rw [show 32 * (0 : UInt8).toNat + r.version.toNat = r.version.toNat by simp] at hhead
      refine run_bind_eq_some.2 ⟨_, t, hhead, ?_⟩
      show (if _ ∨ UInt8.ofNat r.version.toNat = 31 then failure else pure _ : Decoder UInt8 UInt64) t = _
      rw [if_neg (by simpa using hinfo _ hversion)]
      rfl
    have harray : decodeArray Minicbor.str (UInt8.ofNat (0x80 + r.secrets.length) ::
        r.secrets.flatMap fun s => UInt8.ofNat (0x60 + (asBytes s).length) :: asBytes s) = some (r.secrets, []) := by
      refine run_bind_eq_some.2 ⟨_, _, lengthOf_small hcount _, ?_⟩
      have hnat : (UInt64.ofNat r.secrets.length).toNat = r.secrets.length :=
        UInt64.toNat_ofNat_of_lt' (hcount.trans (by decide))
      show times (push text) (UInt64.ofNat r.secrets.length).toNat [] _ = _
      rw [hnat]
      exact times_push_text hsecrets []
    have hversion' : (UInt64.ofNat r.version.toNat).toUInt32 = r.version := by
      apply UInt32.toNat_inj.1
      simp
    have hread : readRing (0x82 :: UInt8.ofNat r.version.toNat :: UInt8.ofNat (0x80 + r.secrets.length) ::
        r.secrets.flatMap fun s => UInt8.ofNat (0x60 + (asBytes s).length) :: asBytes s) = some (r, []) := by
      refine run_bind_eq_some.2 ⟨some 2, _, @lengthOf_small 2 (by decide) _, ?_⟩
      refine run_bind_eq_some.2 ⟨_, _, hu64 _, run_bind_eq_some.2 ⟨_, _, harray, ?_⟩⟩
      rw [hversion']
      rfl
    rw [minicborDecode, hread]
    rfl
  · cases h

scoped instance ringCodec : RingCodec where
  toVec := ringBytes
  decode := minicborDecode readRing
  decode_toVec _ _ := readRing_ringBytes

end ToyCbor

end Micronuts
