import Micronuts.Wallet.Scan

/-!
# The wallet and the signatures of its mint

The mint may sign the outputs of a request while the call runs, at some time after it (`inFlight`), or never; the wallet
may be dropped at any point and opened again over its store. An output is named by its keyset and its index.
-/

namespace Micronuts
open Exec

/-! ### Indices -/

/-- `counter + i` for the outputs of a request. -/
def indicesFrom : UInt32 → Nat → List UInt32
  | _, 0 => []
  | c, n + 1 => c :: indicesFrom (c + 1) n

theorem indicesFrom_length (c : UInt32) (n : Nat) : (indicesFrom c n).length = n := by
  induction n generalizing c with
  | zero => rfl
  | succ n ih => rw [indicesFrom, List.length_cons, ih]

theorem toNat_succ {c : UInt32} (h : c.toNat + 1 < 2 ^ 32) : (c + 1).toNat = c.toNat + 1 := by
  rw [UInt32.toNat_add, UInt32.toNat_one, Nat.mod_eq_of_lt h]

/-- Below the last index nothing wraps. -/
theorem indicesFrom_toNat {c : UInt32} {n : Nat} (h : c.toNat + n < 2 ^ 32) :
    (indicesFrom c n).map UInt32.toNat = List.range' c.toNat n := by
  induction n generalizing c with
  | zero => rfl
  | succ n ih =>
    have hsucc := @toNat_succ c (by omega)
    rw [indicesFrom, List.map_cons, ih (by omega), hsucc, List.range'_succ]

theorem mem_indicesFrom {c i : UInt32} {n : Nat} (h : c.toNat + n < 2 ^ 32) (hi : i ∈ indicesFrom c n) :
    c.toNat ≤ i.toNat ∧ i.toNat < c.toNat + n := by
  have hmem : i.toNat ∈ (indicesFrom c n).map UInt32.toNat := List.mem_map_of_mem hi
  rw [indicesFrom_toNat h, List.mem_range'_1] at hmem
  exact hmem

theorem indicesFrom_nodup {c : UInt32} {n : Nat} (h : c.toNat + n < 2 ^ 32) : (indicesFrom c n).Nodup := by
  refine List.Nodup.of_map UInt32.toNat ?_
  rw [indicesFrom_toNat h]
  exact List.nodup_range'

theorem saturatingAdd_toNat (a b : UInt32) : (saturatingAdd a b).toNat = min (a.toNat + b.toNat) (2 ^ 32 - 1) := by
  unfold saturatingAdd
  split
  · next h =>
    rw [UInt32.toNat_add, Nat.mod_eq_of_lt h]
    omega
  · next h =>
    show 2 ^ 32 - 1 = _
    omega

theorem lt_window {c m : UInt32} (h : m < saturatingAdd c restoreHeadroom) :
    m.toNat < c.toNat + 64 ∧ m.toNat + 1 < 2 ^ 32 := by
  rw [UInt32.lt_iff_toNat_lt, saturatingAdd_toNat] at h
  have : restoreHeadroom.toNat = 64 := rfl
  omega

section
variable [Crypto]

/-- The counter of a restore goes past the largest index it has found, and stays in the window. -/
theorem restored_counter {w : WalletWorld} {derived : List DerivedOutput} {acc : Restored}
    (hmax : ∀ m, acc.maxIdx = some m → m < saturatingAdd w.wallet.counter restoreHeadroom) :
    w.wallet.counter.toNat ≤ ((w.scanned derived).restored acc).wallet.counter.toNat ∧
      ((w.scanned derived).restored acc).wallet.counter.toNat ≤
        (saturatingAdd w.wallet.counter restoreHeadroom).toNat ∧
      (acc.maxIdx = none → ((w.scanned derived).restored acc).wallet.counter = w.wallet.counter) ∧
      ∀ m, acc.maxIdx = some m → m.toNat < ((w.scanned derived).restored acc).wallet.counter.toNat ∧
        (((w.scanned derived).restored acc).wallet.counter = w.wallet.counter ∨
          ((w.scanned derived).restored acc).wallet.counter = m + 1) := by
  have hcounter : ((w.scanned derived).restored acc).wallet.counter =
      acc.maxIdx.elim w.wallet.counter fun m => max w.wallet.counter (m + 1) := rfl
  have hc : w.wallet.counter.toNat ≤ (saturatingAdd w.wallet.counter restoreHeadroom).toNat := by
    have := w.wallet.counter.toNat_lt
    rw [saturatingAdd_toNat]
    omega
  rw [hcounter]
  rcases hm : acc.maxIdx with - | m
  · exact ⟨le_refl _, hc, fun _ => rfl, by simp⟩
  · have hlt := UInt32.lt_iff_toNat_lt.1 (hmax m hm)
    have hsucc := @toNat_succ m (lt_window (hmax m hm)).2
    rw [Option.elim_some, toNat_max, hsucc]
    refine ⟨by omega, by omega, by simp, ?_⟩
    rintro _ ⟨⟩
    refine ⟨by omega, ?_⟩
    rw [max_eq_ite]
    split
    · exact .inr rfl
    · exact .inl rfl

/-! ### The world -/

/-- An output of the wallet with the mint's signature on it. -/
structure SignedOutput where
  keysetId : String
  index : UInt32
  signature : BlindSignature
deriving DecidableEq

def SignedOutput.key (x : SignedOutput) : String × UInt32 := (x.keysetId, x.index)

/-- The wallet with the outputs that the mint may still sign and those that it has signed, and the secrets that mint,
swap and melt have credited. -/
structure IssueWorld extends WalletWorld where
  inFlight : List (String × UInt32)
  signed : List SignedOutput
  credited : List String

/-- The indices of the outputs that have left between the two worlds. -/
def requestedIndices (w t : WalletWorld) : List UInt32 :=
  indicesFrom w.wallet.counter ((t.sent.take (t.sent.length - w.sent.length)).flatMap WalletRequest.outputs).length

def creditedProofs (w t : WalletWorld) : WalletCall → List Proof
  | .restore => []
  | _ => t.wallet.proofs.filter (· ∉ w.wallet.proofs)

/-- A call, with what the mint signs of it at once; what the mint does later with an output in flight; a reopening. -/
inductive IssueAct
  | call (env : WalletEnv) (keysetId : String) (mintKeys : KeySet) (call : WalletCall) (signs : List SignedOutput)
  | sign (output : SignedOutput)
  | reject (key : String × UInt32)
  | reopen

def IssueWorld.afterCall (s : IssueWorld) (t : WalletWorld) (keysetId : String) (call : WalletCall)
    (signs : List SignedOutput) : IssueWorld where
  toWalletWorld := t
  inFlight := ((requestedIndices s.toWalletWorld t).map (keysetId, ·)).diff (signs.map SignedOutput.key) ++ s.inFlight
  signed := signs ++ s.signed
  credited := (creditedProofs s.toWalletWorld t call).map Proof.secret ++ s.credited

@[simp] theorem IssueWorld.afterCall_toWalletWorld (s : IssueWorld) (t : WalletWorld) (keysetId : String)
    (call : WalletCall) (signs : List SignedOutput) : (s.afterCall t keysetId call signs).toWalletWorld = t := rfl

variable [Curve]

inductive IssueStep : IssueWorld → IssueAct → IssueWorld → Prop
  | call {s t env keysetId mintKeys call signs} {o : Outcome CashuError Unit}
      (exec : (call.exec keysetId mintKeys).run env s.toWalletWorld = (o, t))
      (part : (signs.map SignedOutput.key).Sublist ((requestedIndices s.toWalletWorld t).map (keysetId, ·))) :
      IssueStep s (.call env keysetId mintKeys call signs) (s.afterCall t keysetId call signs)
  | sign {s x} (sent : x.key ∈ s.inFlight) :
      IssueStep s (.sign x) { s with inFlight := s.inFlight.erase x.key, signed := x :: s.signed }
  | reject {s k} (sent : k ∈ s.inFlight) : IssueStep s (.reject k) { s with inFlight := s.inFlight.erase k }
  | reopen {s} : IssueStep s .reopen { s with toWalletWorld := s.toWalletWorld.reopen }

/-- A wallet on an empty store. -/
def IssueWorld.start (seed : List UInt8) : IssueWorld where
  wallet := .new none seed
  blob := none
  sent := []
  inFlight := []
  signed := []
  credited := []

/-! ### What leaves with a call -/

omit [Curve] in
theorem requestedIndices_of_sent_eq {w t : WalletWorld} (h : t.sent = w.sent) : requestedIndices w t = [] := by
  rw [requestedIndices, h, Nat.sub_self]
  rfl

omit [Curve] in
theorem requestedIndices_of_sent_cons {w t : WalletWorld} {r : WalletRequest} (h : t.sent = r :: w.sent) :
    requestedIndices w t = indicesFrom w.wallet.counter r.outputs.length := by
  have hone : (r :: w.sent).length - w.sent.length = 1 := by rw [List.length_cons]; omega
  rw [requestedIndices, h, hone]
  simp

theorem Derives.forall₂ {seed : List UInt8} {keysetId : String} {c : UInt32} {derived : List DerivedOutput}
    (h : Derives seed keysetId c derived) :
    List.Forall₂ (fun i d => deriveOutput seed keysetId i = .ok d) (indicesFrom c derived.length) derived := by
  induction derived generalizing c with
  | nil => exact .nil
  | cons d derived ih => exact .cons h.1 (ih h.2)

theorem Sends.length {w : WalletWorld} {keysetId : String} {amounts : List UInt64} {r : WalletRequest}
    {derived : List DerivedOutput} (h : Sends w keysetId amounts r derived) : r.outputs.length = derived.length := by
  obtain ⟨-, hlen, houtputs⟩ := h
  rw [houtputs, messagesOf, List.length_map, List.length_zip, hlen, Nat.min_self]

/-- A request holds the blinded messages of its indices. -/
theorem Sends.blinded {w : WalletWorld} {keysetId : String} {amounts : List UInt64} {r : WalletRequest}
    {derived : List DerivedOutput} (h : Sends w keysetId amounts r derived) :
    List.Forall₂ (fun i (m : BlindedMessage) => ∃ d, deriveOutput w.wallet.seed keysetId i = .ok d ∧ m.b = d.blinded)
      (indicesFrom w.wallet.counter r.outputs.length) r.outputs := by
  have hlength := h.length
  obtain ⟨hderives, hlen, houtputs⟩ := h
  rw [hlength, houtputs, messagesOf, List.forall₂_map_right_iff]
  have hall := hderives.forall₂
  generalize indicesFrom w.wallet.counter derived.length = indices at hall
  clear hderives hlength houtputs
  induction hall generalizing amounts with
  | nil => rw [List.zip_nil_right]; exact .nil
  | @cons i d indices derived hd hall ih =>
    rcases amounts with - | ⟨amount, amounts⟩
    · cases hlen
    · exact .cons ⟨d, hd, rfl⟩ (ih (Nat.succ.inj hlen))

/-! ### What a call leaves -/

section left
variable {env : WalletEnv} {keysetId : String} {mintKeys : KeySet} {w t : WalletWorld}

omit [Curve] in
/-- A save touches the blob alone. -/
theorem Saves.world {α : Type} {v : WalletWorld} {o : Outcome CashuError α} (h : Saves env v o t) :
    t.wallet = v.wallet ∧ t.sent = v.sent := by
  unfold Saves at h
  split at h
  · obtain ⟨-, rfl⟩ := h
    exact ⟨rfl, rfl⟩
  · obtain ⟨-, rfl⟩ := h
    split
    · exact ⟨rfl, rfl⟩
    · exact ⟨rfl, rfl⟩

/-- The request of an issuing call, if it left, asks for the indices from the counter on. -/
structure Requests (w t : WalletWorld) (amounts : List UInt64) : Prop where
  seed : t.wallet.seed = w.wallet.seed
  indices : requestedIndices w t = [] ∧ t.wallet = w.wallet ∨
    requestedIndices w t = indicesFrom w.wallet.counter amounts.length ∧
      t.wallet.counter = saturatingAdd w.wallet.counter (UInt32.ofNat amounts.length)

theorem IssueEnds.requests {α : Type} {amounts : List UInt64} {o : Outcome CashuError α}
    (h : IssueEnds env keysetId mintKeys amounts w o t) : Requests w t amounts := by
  rcases h with - | ⟨hsends, -⟩ | ⟨hsends, -, -, -, hsaves⟩
  · exact ⟨rfl, .inl ⟨requestedIndices_of_sent_eq rfl, rfl⟩⟩
  · refine ⟨rfl, .inr ⟨?_, by rw [← hsends.2.1]; rfl⟩⟩
    rw [requestedIndices_of_sent_cons rfl, hsends.length, hsends.2.1]
  · obtain ⟨hwallet, hsent⟩ := hsaves.world
    refine ⟨by rw [hwallet]; rfl, .inr ⟨?_, by rw [hwallet, ← hsends.2.1]; rfl⟩⟩
    rw [requestedIndices_of_sent_cons hsent, hsends.length, hsends.2.1]

theorem RestoreEnds.requests {o : Outcome CashuError Nat} (h : RestoreEnds env keysetId mintKeys w o t) :
    t.wallet.seed = w.wallet.seed ∧ requestedIndices w t = [] := by
  have hnone : ∀ {t : WalletWorld} {request : RestoreRequest}, t.sent = .restore request :: w.sent →
      requestedIndices w t = [] := fun h => requestedIndices_of_sent_cons h
  rcases h with - | - | ⟨-, -, -, -, -, hsaves⟩
  · exact ⟨rfl, requestedIndices_of_sent_eq rfl⟩
  · exact ⟨rfl, hnone rfl⟩
  · split at hsaves
    · obtain ⟨hwallet, hsent⟩ := hsaves.world
      exact ⟨by rw [hwallet]; rfl, hnone hsent⟩
    · obtain ⟨-, rfl⟩ := hsaves
      exact ⟨rfl, hnone rfl⟩

/-- A call asks for nothing or for one output for each of its amounts. -/
theorem WalletEnds.requests {call : WalletCall} {o : Outcome CashuError Unit}
    (h : WalletEnds env keysetId mintKeys w call o t) : t.wallet.seed = w.wallet.seed ∧
      (requestedIndices w t = [] ∨ requestedIndices w t = indicesFrom w.wallet.counter call.amounts.length) := by
  rcases h with ⟨-, h⟩ | h
  · exact ⟨h.requests.seed, h.requests.indices.imp And.left And.left⟩
  · exact ⟨h.requests.1, .inl h.requests.2⟩

end left

theorem IssueStep.seed {s s' : IssueWorld} {a : IssueAct} (h : IssueStep s a s') : s'.wallet.seed = s.wallet.seed := by
  rcases h with ⟨hexec, -⟩ | - | - | -
  · exact ((walletCall_ends _).elim hexec).requests.1
  · rfl
  · rfl
  · rfl

theorem Run.wallet_seed {s₀ s : IssueWorld} {h : List (Step IssueWorld IssueAct)} (hrun : Run IssueStep s₀ h s) :
    s.wallet.seed = s₀.wallet.seed := by
  induction hrun with
  | nil => rfl
  | snoc _ hstep ih => exact hstep.seed.trans ih

end

section toy
open Toy32

namespace Toy32

/-- What a digest makes of one more byte. -/
def absorb (digest b : UInt8) : UInt8 := digest * 251 + b

@[irreducible] def digest (bytes : List UInt8) : UInt8 := bytes.foldl absorb 1

theorem sha256_eq (bytes : List UInt8) : Crypto.sha256 bytes = Toy.bytes32 (digest bytes) := by
  rw [digest]
  rfl

theorem digest_append (bs bs' : List UInt8) : digest (bs ++ bs') = bs'.foldl absorb (digest bs) := by
  simp only [digest, List.foldl_append]

/-- What comes first in a digest: of one byte after zeros, of either half of a derivation, and of a secret. -/
theorem digests : digest (List.replicate 31 0) = 179 ∧
    digest (([1] ++ List.replicate 63 0 : List UInt8).map (· ^^^ 0x36) ++
      (asBytes "Cashu_KDF_HMAC_SHA256" ++ [0, 192, 255, 238])) = 79 ∧
    digest (([1] ++ List.replicate 63 0 : List UInt8).map (· ^^^ 0x5c) ++ List.replicate 31 0) = 92 ∧
    digest (domainSeparator ++ List.replicate 62 48) = 88 := by
  decide +kernel

theorem digest_bytes32 (k : UInt8) (bs : List UInt8) : digest (Toy.bytes32 k ++ bs) = (k :: bs).foldl absorb 179 := by
  rw [Toy.bytes32, List.append_assoc, digest_append, digests.1]
  rfl

/-- A derivation reads the index and the type after what is the same for all of them. -/
def derived (i : UInt32) (kind : UInt8) : UInt8 := absorb 92 ((toBeBytes 8 i.toNat ++ [kind]).foldl absorb 79)

theorem derive_eq (kind : UInt8) (i : UInt32) : derive kind [1] "00c0ffee" i = .ok (Toy.bytes32 (derived i kind)) := by
  obtain ⟨-, hinner, houter, -⟩ := digests
  have hid : hexDecodeKeysetId "00c0ffee" = .ok [0, 192, 255, 238] := by decide
  have hhmac : ∀ message : List UInt8, hmacSha256 [1] message =
      Crypto.sha256 (([1] ++ List.replicate 63 0 : List UInt8).map (· ^^^ 0x5c) ++
        Crypto.sha256 (([1] ++ List.replicate 63 0 : List UInt8).map (· ^^^ 0x36) ++ message)) := fun _ => rfl
  rw [derive, hid]
  show Except.ok (hmacSha256 [1] (asBytes "Cashu_KDF_HMAC_SHA256" ++ [0, 192, 255, 238] ++ toBeBytes 8 i.toNat ++ [kind])) = _
  rw [hhmac, sha256_eq, sha256_eq, List.append_assoc _ (toBeBytes 8 i.toNat), ← List.append_assoc _ (asBytes _ ++ _),
    digest_append _ (toBeBytes 8 i.toNat ++ _), hinner]
  refine congrArg (fun b => Except.ok (Toy.bytes32 b)) ?_
  rw [Toy.bytes32, ← List.append_assoc, digest_append, houter]
  rfl

/-- The point of a secret of 32 bytes, of which the last is `b`. -/
def hexPoint (b : UInt8) : UInt8 :=
  [[(Hex.digit (b.toNat / 16)).toUInt8, (Hex.digit (b.toNat % 16)).toUInt8].foldl absorb 88, 0, 0, 0, 0].foldl absorb 179

theorem tryCounters_first {msgHash : List UInt8} {fuel counter : Nat} {p : PublicKey}
    (h : Crypto.fromBytes (0x02 :: Crypto.sha256 (msgHash ++ (toBeBytes 4 counter).reverse)) = some p) :
    tryCounters msgHash (fuel + 1) counter = some p := by
  rw [tryCounters, h]

theorem hashToCurve_encode (b : UInt8) : hashToCurve (asBytes (Hex.encode (Toy.bytes32 b))) = some (hexPoint b : UInt8) := by
  obtain ⟨-, -, -, hzeros⟩ := digests
  have hbytes : asBytes (Hex.encode (Toy.bytes32 b)) =
      List.replicate 62 48 ++ [(Hex.digit (b.toNat / 16)).toUInt8, (Hex.digit (b.toNat % 16)).toUInt8] := by
    rw [asBytes_encode, Toy.bytes32, List.flatMap_append, List.flatMap_singleton]
    rfl
  refine @tryCounters_first _ 65535 0 _ ?_
  rw [hbytes, ← List.append_assoc, sha256_eq, sha256_eq, digest_append (domainSeparator ++ _), hzeros, digest_bytes32]
  rfl

/-- The output of an index. -/
def outputAt (i : UInt32) : DerivedOutput :=
  ⟨Hex.encode (Toy.bytes32 (derived i 0)), derived i 1, (hexPoint (derived i 0) + derived i 1 : UInt8)⟩

theorem deriveOutput_of {i : UInt32} {x y : UInt8} (hsecret : deriveSecret [1] "00c0ffee" i = .ok (Toy.bytes32 x))
    (hblinder : deriveBlinder [1] "00c0ffee" i = .ok (Toy.bytes32 y)) (hpoint : hexPoint x + y ≠ 0) :
    deriveOutput [1] "00c0ffee" i = .ok ⟨Hex.encode (Toy.bytes32 x), y, (hexPoint x + y : UInt8)⟩ := by
  have hslice : Crypto.fromSlice (Toy.bytes32 y) = some (y : UInt8) := rfl
  have hblind : blindMessage (asBytes (Hex.encode (Toy.bytes32 x))) (y : UInt8) = some (hexPoint x + y : UInt8) := by
    rw [blindMessage, hashToCurve_encode]
    exact if_neg hpoint
  simp only [deriveOutput, hsecret, hblinder, bind, Except.bind, hslice, Except.okOr, Option.elim_some, hblind]
  rfl

/-- The first 65 points are no neutral elements, and these and the secrets are distinct. -/
theorem points : (∀ n ∈ List.range 65, hexPoint (derived (UInt32.ofNat n) 0) + derived (UInt32.ofNat n) 1 ≠ 0) ∧
    ((List.range 65).map fun i => derived (UInt32.ofNat i) 0).Nodup ∧
    ((List.range 65).map fun i => (outputAt (UInt32.ofNat i)).blinded).Nodup := by
  decide +kernel

theorem deriveOutput_eq {i : UInt32} (hi : i.toNat < 65) : deriveOutput [1] "00c0ffee" i = .ok (outputAt i) := by
  have hpoint := points.1 i.toNat (List.mem_range.2 hi)
  rw [UInt32.ofNat_toNat] at hpoint
  exact deriveOutput_of (derive_eq 0 _) (derive_eq 1 _) hpoint

theorem scanOutputs_eq {end_ : UInt32} (hend : end_.toNat ≤ 65) :
    scanOutputs [1] "00c0ffee" end_ = .ok ((List.range end_.toNat).map fun i => outputAt (UInt32.ofNat i)) := by
  refine Except.mapM_eq_ok.2 (List.forall₂_map_right_iff.2 (List.forall₂_same.2 fun i hi => deriveOutput_eq ?_))
  rw [List.mem_range] at hi
  rw [UInt32.toNat_ofNat_of_lt' (by simp only [UInt32.size]; omega)]
  omega

theorem bytes32_injective : Function.Injective Toy.bytes32 := by
  intro k k' h
  exact List.singleton_inj.1 (List.append_cancel_left h)

/-- The first 65 indices derive, to distinct outputs. -/
theorem scan : ∃ derived, scanOutputs [1] "00c0ffee" 65 = .ok derived ∧
    (derived.map DerivedOutput.secretHex).Nodup ∧ (derived.map DerivedOutput.blinded).Nodup := by
  obtain ⟨-, hsecrets, hblinded⟩ := points
  refine ⟨_, scanOutputs_eq (by decide), ?_, by rwa [List.map_map]⟩
  have hencode : Function.Injective fun b => Hex.encode (Toy.bytes32 b) :=
    fun _ _ h => bytes32_injective (Hex.encode_injective h)
  have hmap := hsecrets.map hencode
  rw [List.map_map] at hmap ⊢
  exact hmap

/-- The output of index `i`, whose blinded message is `b`, with the mint's signature. -/
def signedOutput (i : UInt32) (b : UInt8) : SignedOutput := ⟨"00c0ffee", i, sign 3 b 1⟩

def start : IssueWorld := .start [1]

@[irreducible] def issue (env : WalletEnv) (call : WalletCall) (s : IssueWorld) : WalletWorld :=
  (call.exec "00c0ffee" (keys 3)).run env s.toWalletWorld |>.2

theorem issue_step (env : WalletEnv) (call : WalletCall) (s : IssueWorld) {signs : List SignedOutput}
    (h : (signs.map SignedOutput.key).Sublist
      ((requestedIndices s.toWalletWorld (issue env call s)).map fun i => ("00c0ffee", i))) :
    IssueStep s (.call env "00c0ffee" (keys 3) call signs) (s.afterCall (issue env call s) "00c0ffee" call signs) := by
  unfold issue at h ⊢
  exact .call Prod.mk.eta.symm h

theorem signed_part {indices : List UInt32} {i : UInt32} {b : UInt8} (h : indices = [i]) :
    ([signedOutput i b].map SignedOutput.key).Sublist (indices.map fun i => ("00c0ffee", i)) := by
  rw [h]
  exact List.Sublist.refl _

/-- A mint of 1, signed at index 0. -/
def minted : IssueWorld :=
  start.afterCall (issue (env .saved) (.mint "q" 1) start) "00c0ffee" (.mint "q" 1) [signedOutput 0 76]

def mintedHistory : List (Step IssueWorld IssueAct) :=
  [⟨start, .call (env .saved) "00c0ffee" (keys 3) (.mint "q" 1) [signedOutput 0 76], minted⟩]

theorem minted_indices :
    requestedIndices start.toWalletWorld (issue (env .saved) (.mint "q" 1) start) = [0] := by
  unfold issue
  decide +kernel

theorem minted_run : Run IssueStep start mintedHistory minted :=
  Run.nil.snoc (issue_step _ _ start (signed_part minted_indices))

theorem first_output : deriveOutput [1] "00c0ffee" 0 =
    .ok ⟨"0000000000000000000000000000000000000000000000000000000000000009", (10 : UInt8), (76 : UInt8)⟩ :=
  (deriveOutput_eq (by decide)).trans (by decide)

end Toy32

end toy

end Micronuts
