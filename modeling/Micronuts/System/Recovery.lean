import Micronuts.System.Coins
import Micronuts.Wallet.Recovery

/-!
# Recovery from the mint itself

A wallet that has only its seed restores against the mint's own restore index. Other wallets may have used the mint, and it
may have been restarted: as long as it has signed no output of the seed more than 64 indices beyond another, the loop of
restores ends, with a coin for each output that the mint has signed and with no other (`recovers_from_mint`).
-/

namespace Micronuts
open Exec

section
variable [Crypto] [Curve]

namespace DemoMint

/-- The mint's signature on the output of an index. -/
def signatureAt (m : DemoMint) (seed : List UInt8) (keysetId : String) (i : UInt32) : Option BlindSignature :=
  (deriveOutput seed keysetId i).toOption.bind fun d => m.issuedOutputs.lookup (pointHex d.blinded)

/-- The outputs of the indices below `N` that the mint has signed. -/
def signedFor (m : DemoMint) (seed : List UInt8) (keysetId : String) (N : Nat) : List SignedOutput :=
  (List.range N).filterMap fun i => (m.signatureAt seed keysetId (UInt32.ofNat i)).map (⟨keysetId, UInt32.ofNat i, ·⟩)

variable {m : DemoMint} {seed : List UInt8} {keysetId : String} {N : Nat}

theorem signatureAt_eq_some {i : UInt32} {sig : BlindSignature} : m.signatureAt seed keysetId i = some sig ↔
    ∃ d, deriveOutput seed keysetId i = .ok d ∧ m.issuedOutputs.lookup (pointHex d.blinded) = some sig := by
  rw [signatureAt, Option.bind_eq_some_iff]
  rcases deriveOutput seed keysetId i with e | d
  · simp [Except.toOption]
  · simp [Except.toOption]

theorem mem_signedFor (hN : N ≤ 2 ^ 32) {x : SignedOutput} : x ∈ m.signedFor seed keysetId N ↔
    x.keysetId = keysetId ∧ x.index.toNat < N ∧ m.signatureAt seed keysetId x.index = some x.signature := by
  simp only [signedFor, List.mem_filterMap, List.mem_range, Option.map_eq_some_iff]
  constructor
  · rintro ⟨i, hi, sig, hsig, rfl⟩
    have hnat : (UInt32.ofNat i).toNat = i := UInt32.toNat_ofNat_of_lt' (by simp only [UInt32.size]; omega)
    exact ⟨rfl, by dsimp only; omega, hsig⟩
  · rintro ⟨rfl, hi, hsig⟩
    exact ⟨x.index.toNat, hi, x.signature, by rwa [UInt32.ofNat_toNat], by rw [UInt32.ofNat_toNat]⟩

end DemoMint

/-! ### The mint in place of an honest answer -/

section serve
variable {env : WalletEnv} {m : DemoMint} {seed : List UInt8} {keysetId : String} {mintKeys : KeySet} {N : Nat}
  {w t : WalletWorld}

/-- The mint answers the restores. -/
def ServesRestore (env : WalletEnv) (m : DemoMint) : Prop := ∀ request, env.postRestore request = .ok (m.postRestore request)

omit [Curve] in
theorem DemoMint.mem_postRestore {outputs : List PublicKey} {out : RestoreOutput} :
    out ∈ (m.postRestore ⟨outputs⟩).outputs ↔ out.y ∈ outputs ∧
    m.issuedOutputs.lookup (pointHex out.y) = some out.signature := by
  simp only [DemoMint.postRestore, List.mem_filterMap, Option.map_eq_some_iff]
  constructor
  · rintro ⟨b, hb, sig, hsig, rfl⟩
    exact ⟨hb, hsig⟩
  · rintro ⟨hb, hsig⟩
    exact ⟨out.y, hb, out.signature, hsig, rfl⟩

/-- The point is the blinded message of an index below `N`. -/
def OwnPoint (seed : List UInt8) (keysetId : String) (N : Nat) (y : PublicKey) : Prop :=
  ∃ i : UInt32, i.toNat < N ∧ ∃ d, deriveOutput seed keysetId i = .ok d ∧ d.blinded = y

open Classical in
/-- What the mint answers, without what it has signed for others. -/
noncomputable def ownAnswers (env : WalletEnv) (m : DemoMint) (seed : List UInt8) (keysetId : String) (N : Nat) : WalletEnv :=
  { env with
    postRestore := fun request => .ok ⟨(m.postRestore request).outputs.filter fun out => OwnPoint seed keysetId N out.y⟩ }

theorem ownAnswers_honest (hN : N ≤ 2 ^ 32) :
    HonestRestore (ownAnswers env m seed keysetId N) seed (m.signedFor seed keysetId N) := by
  intro outputs
  refine ⟨_, rfl, fun out => ?_⟩
  simp only [List.mem_filter, DemoMint.mem_postRestore, decide_eq_true_eq]
  constructor
  · rintro ⟨⟨hmem, hrow⟩, i, hi, d, hd, hy⟩
    have hsig : m.signatureAt seed keysetId i = some out.signature :=
      DemoMint.signatureAt_eq_some.2 ⟨d, hd, by rw [hy]; exact hrow⟩
    refine ⟨⟨keysetId, i, out.signature⟩, (DemoMint.mem_signedFor hN).2 ⟨rfl, hi, hsig⟩, d, hd, by rwa [hy], ?_⟩
    rw [hy]
  · rintro ⟨x, hx, d, hd, hmem, rfl⟩
    obtain ⟨hK, hi, hsig⟩ := (DemoMint.mem_signedFor hN).1 hx
    rw [hK] at hd
    obtain ⟨d', hd', hrow⟩ := DemoMint.signatureAt_eq_some.1 hsig
    rw [hd] at hd'
    cases hd'
    exact ⟨⟨hmem, hrow⟩, x.index, hi, d, hd, rfl⟩

/-- A restore asks for the outputs of its window and for nothing else. -/
theorem restore_congr {answer : RestoreRequest → Except CashuError RestoreResponse}
    (hsame : ∀ derived, scanOutputs w.wallet.seed keysetId (saturatingAdd w.wallet.counter restoreHeadroom) = .ok derived →
      answer ⟨derived.map DerivedOutput.blinded⟩ = env.postRestore ⟨derived.map DerivedOutput.blinded⟩) :
    (restore keysetId mintKeys).run { env with postRestore := answer } w = (restore keysetId mintKeys).run env w := by
  unfold restore
  refine run_bind_congr rfl fun v t hv => ?_
  cases hv
  refine run_bind_congr rfl fun derived t hscan => ?_
  obtain ⟨hscan, rfl⟩ := lift_run_ok hscan
  refine run_bind_congr ?_ fun response t _ => ?_
  · simp only [run, WalletM.postRestore, WalletM.post, hsame derived hscan]
  · refine run_bind_congr rfl fun acc t _ => run_bind_congr rfl fun _ t _ => run_bind_congr rfl fun _ t _ => ?_
    by_cases hadded : 0 < acc.added
    · simp only [if_pos hadded]
      exact run_bind_congr rfl fun _ t _ => rfl
    · simp only [if_neg hadded]
      rfl

/-! ### The loop -/

variable (hN : N ≤ 2 ^ 32) (hseed : Derivable seed keysetId {keysetId} N)
  (hs : Scannable seed keysetId mintKeys {keysetId} N (m.signedFor seed keysetId N)) (hserves : ServesRestore env m)
include hN hseed hs hserves

theorem Restoring.run_own (hw : Restoring seed keysetId mintKeys (m.signedFor seed keysetId N) w.wallet) :
    (restore keysetId mintKeys).run (ownAnswers env m seed keysetId N) w = (restore keysetId mintKeys).run env w := by
  classical
  refine restore_congr fun derived hscan => ?_
  rw [hserves]
  congr 2
  refine List.filter_eq_self.2 fun out hout => decide_eq_true ?_
  obtain ⟨d, hd, hy⟩ := List.mem_map.1 (DemoMint.mem_postRestore.1 hout).1
  obtain ⟨i, hi, rfl⟩ := List.getElem_of_mem hd
  rw [hw.seeded] at hscan
  obtain ⟨hlt, hderive⟩ := (scanOutputs_get hscan).1 (List.getElem?_eq_getElem hi)
  have hwindow := hw.window_le hseed hs
  have hnat : (UInt32.ofNat i).toNat = i := UInt32.toNat_ofNat_of_lt' (by simp only [UInt32.size]; omega)
  exact ⟨UInt32.ofNat i, by omega, _, hderive, hy⟩

theorem Restoring.step_own (hw : Restoring seed keysetId mintKeys (m.signedFor seed keysetId N) w.wallet)
    {o : Outcome CashuError Nat} (hrun : (restore keysetId mintKeys).run env w = (o, t)) :
    (restore keysetId mintKeys).run (ownAnswers env m seed keysetId N) w = (o, t) ∧
      Restoring seed keysetId mintKeys (m.signedFor seed keysetId N) t.wallet := by
  rw [← hw.run_own hN hseed hs hserves] at hrun
  exact ⟨hrun, ((hw.step hseed hs (ownAnswers_honest hN)).elim hrun).1⟩

/-- The mint's own answers lead through the same loop. -/
theorem RestoreLoop.own (hw : Restoring seed keysetId mintKeys (m.signedFor seed keysetId N) w.wallet)
    (h : RestoreLoop env keysetId mintKeys w t) : RestoreLoop (ownAnswers env m seed keysetId N) keysetId mintKeys w t ∧
      Restoring seed keysetId mintKeys (m.signedFor seed keysetId N) t.wallet := by
  induction h with
  | done hrun =>
    obtain ⟨hown, ht⟩ := hw.step_own hN hseed hs hserves hrun
    exact ⟨.done hown, ht⟩
  | again hrun hmore _ ih =>
    obtain ⟨hown, hu⟩ := hw.step_own hN hseed hs hserves hrun
    obtain ⟨hrest, ht⟩ := ih hu
    exact ⟨.again hown hmore hrest, ht⟩

theorem RestoreLoop.of_own (hw : Restoring seed keysetId mintKeys (m.signedFor seed keysetId N) w.wallet)
    (h : RestoreLoop (ownAnswers env m seed keysetId N) keysetId mintKeys w t) : RestoreLoop env keysetId mintKeys w t := by
  induction h with
  | done hrun =>
    rw [hw.run_own hN hseed hs hserves] at hrun
    exact .done hrun
  | again hrun hmore _ ih =>
    rw [hw.run_own hN hseed hs hserves] at hrun
    exact .again hrun hmore (ih (hw.step_own hN hseed hs hserves hrun).2)

end serve

/-! ### Every run of the mint -/

variable [ScalarArithmetic] [CurveGroup] [SharedDhke] {ks : DemoKeyset} {seed : List UInt8} {N : Nat} {store : Bool}
  {h : History} {w : World}

/-- The indices below `N` that the mint has signed. -/
def DemoMint.signedBelow (m : DemoMint) (seed : List UInt8) (keysetId : String) (N : Nat) : Set Nat :=
  {i | i < N ∧ (m.signatureAt seed keysetId (UInt32.ofNat i)).isSome}

omit [ScalarArithmetic] [CurveGroup] [SharedDhke] in
theorem mem_signedBelow {m : DemoMint} {keysetId : String} {i : UInt32} :
    i.toNat ∈ m.signedBelow seed keysetId N ↔ i.toNat < N ∧ ∃ sig, m.signatureAt seed keysetId i = some sig := by
  rw [DemoMint.signedBelow, Set.mem_ofPred_eq, UInt32.ofNat_toNat, Option.isSome_iff_exists]

/-- What is in the mint's index of the outputs of a seed can be scanned if it has no gaps and `N` is past it. -/
theorem scannable_of_run (hrun : Run DurableStep (World.init ks store) h w) (hks : ks.Derived) (htotal : SignTotal ks)
    (hN : N < 2 ^ 32) (hgaps : GapsAtMost 64 (w.mint.signedBelow seed ks.id N))
    (hroom : ∀ i ∈ w.mint.signedBelow seed ks.id N, i + 65 ≤ N) :
    Scannable seed ks.id ks.toPublicKeyset {ks.id} N (w.mint.signedFor seed ks.id N) := by
  have hmem := fun x => @DemoMint.mem_signedFor _ _ w.mint seed ks.id N hN.le x
  have hbound : ∀ x ∈ w.mint.signedFor seed ks.id N, x.index.toNat + 65 ≤ N := by
    intro x hx
    obtain ⟨-, hlt, hsig⟩ := (hmem x).1 hx
    exact hroom _ (mem_signedBelow.2 ⟨hlt, _, hsig⟩)
  have hset : signedIndices ks.id (w.mint.signedFor seed ks.id N) = w.mint.signedBelow seed ks.id N := by
    ext i
    constructor
    · rintro ⟨x, hx, -, rfl⟩
      obtain ⟨-, hlt, hsig⟩ := (hmem x).1 hx
      exact mem_signedBelow.2 ⟨hlt, _, hsig⟩
    · rintro ⟨hlt, hsome⟩
      obtain ⟨sig, hsig⟩ := Option.isSome_iff_exists.1 hsome
      have hnat : (UInt32.ofNat i).toNat = i := UInt32.toNat_ofNat_of_lt' (by simp only [UInt32.size]; omega)
      exact ⟨⟨ks.id, UInt32.ofNat i, sig⟩, (hmem _).2 ⟨rfl, by rwa [hnat], hsig⟩, rfl, hnat⟩
  refine ⟨⟨fun x hx _ => ?_, fun x hx y hy _ hkey => ?_, fun x hx _ => ?_, by rwa [hset]⟩, fun x hx => ?_⟩
  · have hmax : u32Max.toNat = 2 ^ 32 - 1 := rfl
    have := hbound x hx
    rw [UInt32.lt_iff_toNat_lt]
    omega
  · obtain ⟨-, -, hx⟩ := (hmem x).1 hx
    obtain ⟨-, -, hy⟩ := (hmem y).1 hy
    obtain ⟨K, i, sig⟩ := x
    obtain ⟨K', i', sig'⟩ := y
    cases hkey
    rw [hx] at hy
    cases hy
    rfl
  · obtain ⟨hK, -, hsig⟩ := (hmem x).1 hx
    obtain ⟨d, hd, hrow⟩ := DemoMint.signatureAt_eq_some.1 hsig
    have hgenuine := (Grants.indexed hrow).genuineOn hrun
    obtain ⟨p, ⟨key, c, hkey, hc, hp⟩, hverified, -⟩ := hgenuine.exists_coin hks htotal (deriveOutput_blinds hd)
    exact ⟨p, ⟨d, key, c, by rw [hK]; exact hd, hkey, hc, hp⟩, hverified⟩
  · have := hbound x hx
    have hsucc := @toNat_succ x.index (by omega)
    have hroom : restoreHeadroom.toNat = 64 := rfl
    refine ⟨((hmem x).1 hx).1, by omega, ?_⟩
    rw [windowAfter, saturatingAdd_toNat, hsucc]
    omega

omit [ScalarArithmetic] [CurveGroup] [SharedDhke] in
theorem deriveOutput_ordinary {keysetId : String} {i : UInt32} {d : DerivedOutput}
    (h : deriveOutput seed keysetId i = .ok d) :
    Secret.parse d.secretHex = none := by
  obtain ⟨secret, -, h⟩ := Except.bind_eq_ok.1 h
  obtain ⟨bytes, -, h⟩ := Except.bind_eq_ok.1 h
  obtain ⟨blinder, -, h⟩ := Except.bind_eq_ok.1 h
  obtain ⟨blinded, -, h⟩ := Except.bind_eq_ok.1 h
  cases h
  exact Secret.parse_of_hex (Hex.decode_encode secret)

/-- A fresh wallet of the seed gets through its restores against the mint, whatever run the mint has had. It then holds one
coin for each of its outputs in the mint's index and no other; each verifies and is genuine, and its counter is past them. -/
theorem recovers_from_mint (hrun : Run DurableStep (World.init ks store) h w) (hks : ks.Derived) (htotal : SignTotal ks)
    (hseed : Derivable seed ks.id {ks.id} N) (hN : N < 2 ^ 32) (hgaps : GapsAtMost 64 (w.mint.signedBelow seed ks.id N))
    (hroom : ∀ i ∈ w.mint.signedBelow seed ks.id N, i + 65 ≤ N) {env : WalletEnv} (hserves : ServesRestore env w.mint)
    {v : WalletWorld} (hfresh : v.wallet = .new none seed) :
    (∃ t, RestoreLoop env ks.id ks.toPublicKeyset v t) ∧ ∀ t, RestoreLoop env ks.id ks.toPublicKeyset v t →
      (∀ p, p ∈ t.wallet.proofs ↔ ∃ i d sig, i.toNat < N ∧ deriveOutput seed ks.id i = .ok d ∧
        w.mint.issuedOutputs.lookup (pointHex d.blinded) = some sig ∧ CoinOf ks.toPublicKeyset d sig p) ∧
      (t.wallet.proofs.map Proof.secret).Nodup ∧
      (∀ p ∈ t.wallet.proofs, Holds h w ks p ∧ Verified ks.toPublicKeyset p ∧ Genuine ks p) ∧
      ∀ i ∈ w.mint.signedBelow seed ks.id N, i < t.wallet.counter.toNat := by
  have hs := scannable_of_run hrun hks htotal hN hgaps hroom
  have hmem := fun x => @DemoMint.mem_signedFor _ _ w.mint seed ks.id N hN.le x
  have hhonest := @ownAnswers_honest _ _ env w.mint seed ks.id N hN.le
  have hstart : Restoring seed ks.id ks.toPublicKeyset (w.mint.signedFor seed ks.id N) v.wallet := by
    rw [hfresh]
    exact .start seed
  obtain ⟨u, hu⟩ := hstart.loop hseed hs hhonest
  refine ⟨⟨u, hu.of_own hN.le hseed hs hserves hstart⟩, fun t ht => ?_⟩
  obtain ⟨hown, hrestored⟩ := ht.own hN.le hseed hs hserves hstart
  have hall := hstart.loop_complete hseed hs hhonest hown
  have hcoins : ∀ p, p ∈ t.wallet.proofs ↔ ∃ i d sig, i.toNat < N ∧ deriveOutput seed ks.id i = .ok d ∧
      w.mint.issuedOutputs.lookup (pointHex d.blinded) = some sig ∧ CoinOf ks.toPublicKeyset d sig p := by
    intro p
    constructor
    · intro hp
      obtain ⟨x, hx, hK, -, d, key, c, hd, hkey, hc, rfl⟩ := hrestored.proofs p hp
      obtain ⟨-, hlt, hsig⟩ := (hmem x).1 hx
      obtain ⟨d', hd', hrow⟩ := DemoMint.signatureAt_eq_some.1 hsig
      rw [hK, hd'] at hd
      cases hd
      exact ⟨x.index, _, x.signature, hlt, hd', hrow, key, c, hkey, hc, rfl⟩
    · rintro ⟨i, d, sig, hlt, hd, hrow, hcoin⟩
      have hx := (hmem ⟨ks.id, i, sig⟩).2 ⟨rfl, hlt, DemoMint.signatureAt_eq_some.2 ⟨d, hd, hrow⟩⟩
      obtain ⟨q, hq, d', key, c, hd', hkey, hc, hqc⟩ := hall _ hx rfl
      rw [hd] at hd'
      cases hd'
      rwa [hcoin.unique ⟨key, c, hkey, hc, hqc⟩]
  refine ⟨hcoins, hrestored.nodup, fun p hp => ?_, fun i hi => ?_⟩
  · obtain ⟨i, d, sig, -, hd, hrow, hcoin⟩ := (hcoins p).1 hp
    have hheld : Holds h w ks p := ⟨d, sig, deriveOutput_blinds hd, deriveOutput_ordinary hd, .indexed hrow, hcoin⟩
    exact ⟨hheld, hheld.accepted hrun hks htotal⟩
  · obtain ⟨hlt, hsome⟩ := hi
    obtain ⟨sig, hsig⟩ := Option.isSome_iff_exists.1 hsome
    have hnat : (UInt32.ofNat i).toNat = i := UInt32.toNat_ofNat_of_lt' (by simp only [UInt32.size]; omega)
    have hx := (hmem ⟨ks.id, UInt32.ofNat i, sig⟩).2 ⟨rfl, by rwa [hnat], hsig⟩
    obtain ⟨p, hp, hpx⟩ := hall _ hx rfl
    obtain ⟨y, hy, -, hbelow, hpy⟩ := hrestored.proofs p hp
    obtain rfl := hs.eq_of_secret hseed hx hy rfl hpx hpy rfl
    rw [UInt32.lt_iff_toNat_lt, hnat] at hbelow
    exact hbelow

end

section toy

namespace ToySystem

def absorb (digest b : UInt8) : UInt8 := digest * 251 + b

theorem digest_append (bs bs' : List UInt8) : digest (bs ++ bs') = bs'.foldl absorb (digest bs) := by
  simp only [digest, List.foldl_append]
  rfl

/-- What comes first in a digest: of either half of a derivation, of a secret, and of one byte after zeros. -/
theorem digests :
    digest (([1] ++ List.replicate 63 0 : List UInt8).map (· ^^^ 0x36) ++
      (asBytes "Cashu_KDF_HMAC_SHA256" ++ [0, 0, 0, 0, 0, 0, 0, 0])) = 220 ∧
    digest (([1] ++ List.replicate 63 0 : List UInt8).map (· ^^^ 0x5c) ++ List.replicate 31 0) = 92 ∧
    digest (domainSeparator ++ List.replicate 62 48) = 88 ∧ digest (List.replicate 31 0) = 179 := by
  decide +kernel

/-- A derivation reads the counter and the type after what is the same for all of them. -/
def derived (i : UInt32) (kind : UInt8) : UInt8 := absorb 92 ((toBeBytes 8 i.toNat ++ [kind]).foldl absorb 220)

theorem derive_eq (kind : UInt8) (i : UInt32) : derive kind [1] keyset.id i = .ok (Toy.bytes32 (derived i kind)) := by
  obtain ⟨hinner, houter, -, -⟩ := digests
  have hid : hexDecodeKeysetId keyset.id = .ok [0, 0, 0, 0, 0, 0, 0, 0] := by decide
  have hhmac : ∀ message : List UInt8, hmacSha256 [1] message =
      Toy.bytes32 (digest (([1] ++ List.replicate 63 0 : List UInt8).map (· ^^^ 0x5c) ++
        Toy.bytes32 (digest (([1] ++ List.replicate 63 0 : List UInt8).map (· ^^^ 0x36) ++ message)))) := fun _ => rfl
  rw [derive, hid]
  show Except.ok (hmacSha256 [1]
      (asBytes "Cashu_KDF_HMAC_SHA256" ++ [0, 0, 0, 0, 0, 0, 0, 0] ++ toBeBytes 8 i.toNat ++ [kind])) = _
  rw [hhmac, List.append_assoc _ (toBeBytes 8 i.toNat), ← List.append_assoc _ (asBytes _ ++ _),
    digest_append _ (toBeBytes 8 i.toNat ++ _),
    hinner]
  refine congrArg (fun b => Except.ok (Toy.bytes32 b)) ?_
  rw [Toy.bytes32, ← List.append_assoc, digest_append, houter]
  rfl

/-- The point of a secret of 32 bytes, of which the last is `b`. -/
def hexHash (b : UInt8) : UInt8 :=
  [[(Hex.digit (b.toNat / 16)).toUInt8, (Hex.digit (b.toNat % 16)).toUInt8].foldl absorb 88, 0, 0, 0, 0].foldl absorb 179

theorem hash_encode (b : UInt8) : hash (asBytes (Hex.encode (Toy.bytes32 b))) = hexHash b := by
  obtain ⟨-, -, hzeros, hfirst⟩ := digests
  have hbytes : asBytes (Hex.encode (Toy.bytes32 b)) =
      List.replicate 62 48 ++ [(Hex.digit (b.toNat / 16)).toUInt8, (Hex.digit (b.toNat % 16)).toUInt8] := by
    rw [asBytes_encode, Toy.bytes32, List.flatMap_append, List.flatMap_singleton]
    rfl
  rw [hash, hbytes, ← List.append_assoc, digest_append (domainSeparator ++ _), hzeros, Toy.bytes32, List.append_assoc,
    digest_append,
    hfirst]
  rfl

theorem blindMessage_encode (x y : UInt8) :
    blindMessage (asBytes (Hex.encode (Toy.bytes32 x))) y = some (hexHash x + y : UInt8) := by
  rw [blindMessage, hashToCurve_eq, hash_encode]
  rfl

theorem deriveOutput_of {i : UInt32} {x y : UInt8} (hsecret : deriveSecret [1] keyset.id i = .ok (Toy.bytes32 x))
    (hblinder : deriveBlinder [1] keyset.id i = .ok (Toy.bytes32 y)) :
    deriveOutput [1] keyset.id i = .ok ⟨Hex.encode (Toy.bytes32 x), y, (hexHash x + y : UInt8)⟩ := by
  have hslice : Crypto.fromSlice (Toy.bytes32 y) = some (y : UInt8) := rfl
  have hblind : blindMessage (asBytes (Hex.encode (Toy.bytes32 x))) y = some (hexHash x + y : UInt8) :=
    blindMessage_encode x y
  simp only [deriveOutput, hsecret, hblinder, bind, Except.bind, hslice, Except.okOr, Option.elim_some, hblind]
  rfl

/-- The output of an index. -/
def outputAt (i : UInt32) : DerivedOutput :=
  ⟨Hex.encode (Toy.bytes32 (derived i 0)), derived i 1, (hexHash (derived i 0) + derived i 1 : UInt8)⟩

theorem deriveOutput_eq (i : UInt32) : deriveOutput [1] keyset.id i = .ok (outputAt i) :=
  deriveOutput_of (derive_eq 0 i) (derive_eq 1 i)

theorem bytes32_injective : Function.Injective Toy.bytes32 := by
  intro k k' h
  exact List.singleton_inj.1 (List.append_cancel_left h)

/-- The first 65 indices derive, to distinct outputs. -/
theorem derivable : Derivable [1] keyset.id {keyset.id} 65 := by
  have hscan : scanOutputs [1] keyset.id 65 = .ok ((List.range 65).map fun i => outputAt (UInt32.ofNat i)) :=
    Except.mapM_eq_ok.2 (List.forall₂_map_right_iff.2 (List.forall₂_same.2 fun i _ => deriveOutput_eq _))
  have hsecrets : ((List.range 65).map fun i => derived (UInt32.ofNat i) 0).Nodup := by decide
  have hblinded : ((List.range 65).map fun i => (outputAt (UInt32.ofNat i)).blinded).Nodup := by decide
  refine ⟨fun i _ => ⟨_, deriveOutput_eq i⟩, distinctOutputs_of_scan hscan ?_ (by rwa [List.map_map]), rfl, by decide⟩
  rw [List.map_map]
  show ((List.range 65).map fun i => Hex.encode (Toy.bytes32 (derived (UInt32.ofNat i) 0))).Nodup
  have hencode : Function.Injective fun b => Hex.encode (Toy.bytes32 b) :=
    fun _ _ h => bytes32_injective (Hex.encode_injective h)
  have hmap := hsecrets.map hencode
  rwa [List.map_map] at hmap

/-- The mint signs the first output of the seed. -/
def seededCalls : List (Call × Env) :=
  [(.postMintQuote ⟨2, "sat", none⟩, Toy.env), (.postMint ⟨"0190-q1", [⟨2, keyset.id, (252 : UInt8)⟩], none⟩, Toy.env)]

def seeded : History × World := replay (World.init keyset true) seededCalls

/-- All calls return, and the first output alone is signed. -/
theorem seeded_signs : History.returns seeded.1 = true ∧ seeded.2.mint.issuedOutputs.keys = {pointHex (252 : UInt8)} ∧
    (seeded.2.mint.signatureAt [1] keyset.id (UInt32.ofNat 0)).isSome = true := by
  decide +kernel

theorem first_blinded : (deriveOutput [1] keyset.id 0).toOption.map DerivedOutput.blinded = some (252 : UInt8) := by
  rw [deriveOutput_eq]
  decide

theorem seeded_first {i : Nat} (hi : i ∈ seeded.2.mint.signedBelow [1] keyset.id 65) : i = 0 := by
  obtain ⟨hlt, hsome⟩ := hi
  obtain ⟨sig, hsig⟩ := Option.isSome_iff_exists.1 hsome
  obtain ⟨d, hd, hrow⟩ := DemoMint.signatureAt_eq_some.1 hsig
  have hkey : pointHex d.blinded ∈ seeded.2.mint.issuedOutputs.keys := Finmap.mem_keys.2 (Finmap.mem_of_lookup_eq_some hrow)
  rw [seeded_signs.2.1, Finset.mem_singleton] at hkey
  obtain ⟨d₀, hd₀⟩ := derivable.derives 0 (by decide)
  have hfirst := first_blinded
  rw [hd₀] at hfirst
  have hnat : (UInt32.ofNat i).toNat = i := UInt32.toNat_ofNat_of_lt' (by simp only [UInt32.size]; omega)
  have hsame := (derivable.distinct.blinded _ rfl _ rfl (UInt32.ofNat i) 0 (by rwa [hnat]) (by decide) d d₀ hd hd₀
    ((pointHex_injective hkey).trans (Option.some.inj hfirst).symm)).2
  rw [← hnat, hsame]
  rfl

def restoringEnv : WalletEnv where
  postMint _ := .error .quoteNotFound
  postMelt _ := .error .quoteNotFound
  postSwap _ := .error .invalidProof
  postRestore request := .ok (seeded.2.mint.postRestore request)
  save _ := .saved
  overflowChecks := false

def fresh : WalletWorld := ⟨.new none [1], none, []⟩

end ToySystem

open ToySystem
theorem recovers_from_mint_toy :
    (0 : Nat) ∈ seeded.2.mint.signedBelow [1] keyset.id 65 ∧
    ∃ t, RestoreLoop restoringEnv keyset.id keyset.toPublicKeyset fresh t ∧
      (∀ p ∈ t.wallet.proofs, Verified keyset.toPublicKeyset p ∧ Genuine keyset p) ∧
      ∀ i ∈ seeded.2.mint.signedBelow [1] keyset.id 65, i < t.wallet.counter.toNat := by
  have hrun : Run DurableStep (World.init keyset true) seeded.1 seeded.2 :=
    (run_replay seeded_signs.1).mono fun _ _ _ => .inl
  have hgaps : GapsAtMost 64 (seeded.2.mint.signedBelow [1] keyset.id 65) := by
    intro i hi
    rw [seeded_first hi]
    exact .inl (by decide)
  have hroom : ∀ i ∈ seeded.2.mint.signedBelow [1] keyset.id 65, i + 65 ≤ 65 := by
    intro i hi
    rw [seeded_first hi]
  have hserves : ServesRestore restoringEnv seeded.2.mint := fun _ => rfl
  obtain ⟨⟨t, hloop⟩, hall⟩ := recovers_from_mint hrun keyset_derived (signTotal keyset) derivable (by decide) hgaps hroom
    hserves (v := fresh) rfl
  obtain ⟨-, -, haccepted, hcounter⟩ := hall t hloop
  exact ⟨⟨by decide, seeded_signs.2.2⟩, t, hloop, fun p hp => (haccepted p hp).2, hcounter⟩

end toy

end Micronuts
