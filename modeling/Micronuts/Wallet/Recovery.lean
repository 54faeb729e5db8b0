import Micronuts.Lib.Window
import Micronuts.Wallet.Signing

/-!
# Recovery from the seed

A wallet whose blob is lost starts again at index zero and restores until nothing comes. It finds every output that the
mint has signed as long as the mint has never signed more than 64 indices beyond those it had signed before. A call that
the mint rejects moves the counter all the same, and nothing keeps such calls from moving it further than that.
-/

namespace Micronuts
open Exec

section
variable [Crypto] [Curve]

/-- The proof that the mint's signature makes. -/
def SignedOutput.UnblindsTo (mintKeys : KeySet) (seed : List UInt8) (x : SignedOutput) (p : Proof) : Prop :=
  ∃ d key c, deriveOutput seed x.keysetId x.index = .ok d ∧ mintKeys.pubkey x.signature.amount = some key ∧
    unblindSignature x.signature.c d.blinder key = some c ∧ p = restoredProof x.signature d c

/-- The mint answers a restore with what it has signed, and with nothing else. -/
def HonestRestore (env : WalletEnv) (seed : List UInt8) (signed : List SignedOutput) : Prop :=
  ∀ outputs, ∃ response, env.postRestore ⟨outputs⟩ = .ok response ∧ ∀ out, out ∈ response.outputs ↔
    ∃ x ∈ signed, ∃ d, deriveOutput seed x.keysetId x.index = .ok d ∧ d.blinded ∈ outputs ∧ out = ⟨d.blinded, x.signature⟩

/-- `restore`, called until it returns 0. -/
inductive RestoreLoop (env : WalletEnv) (keysetId : String) (mintKeys : KeySet) : WalletWorld → WalletWorld → Prop
  | done {w t} (exec : (restore keysetId mintKeys).run env w = (.ok 0, t)) : RestoreLoop env keysetId mintKeys w t
  | again {w u t o} (exec : (restore keysetId mintKeys).run env w = (o, u)) (more : o ≠ .ok 0)
      (rest : RestoreLoop env keysetId mintKeys u t) : RestoreLoop env keysetId mintKeys w t

/-- A fresh wallet of the seed gets to the end of its restores, and then holds the proof of every output of the keyset
that the mint has signed. -/
def Recoverable (keysetId : String) (mintKeys : KeySet) (s : IssueWorld) : Prop :=
  ∀ env w, HonestRestore env s.wallet.seed s.signed → w.wallet = .new none s.wallet.seed →
    (∃ t, RestoreLoop env keysetId mintKeys w t) ∧ ∀ t, RestoreLoop env keysetId mintKeys w t →
      ∀ x ∈ s.signed, x.keysetId = keysetId → ∃ p ∈ t.wallet.proofs, x.UnblindsTo mintKeys s.wallet.seed p

theorem SignedOutput.UnblindsTo.eq {mintKeys : KeySet} {seed : List UInt8} {x : SignedOutput} {p q : Proof}
    (hp : x.UnblindsTo mintKeys seed p) (hq : x.UnblindsTo mintKeys seed q) : p = q := by
  obtain ⟨d, key, c, hd, hkey, hc, rfl⟩ := hp
  obtain ⟨d', key', c', hd', hkey', hc', rfl⟩ := hq
  rw [hd] at hd'
  cases hd'
  rw [hkey] at hkey'
  cases hkey'
  rw [hc] at hc'
  cases hc'
  rfl

/-! ### What the mint has signed -/

/-- The indices of the keyset that the mint has signed. -/
def signedIndices (keysetId : String) (signed : List SignedOutput) : Set Nat :=
  {i | ∃ x ∈ signed, x.keysetId = keysetId ∧ x.index.toNat = i}

/-- The window of a wallet whose last index is `i`. -/
def windowAfter (i : UInt32) : UInt32 := saturatingAdd (i + 1) restoreHeadroom

/-- What an honest mint has signed for the keyset, with no gap that a window misses. -/
structure SignedInReach (seed : List UInt8) (keysetId : String) (mintKeys : KeySet) (signed : List SignedOutput) :
    Prop where
  below : ∀ x ∈ signed, x.keysetId = keysetId → x.index < u32Max
  unique : ∀ x ∈ signed, ∀ y ∈ signed, x.keysetId = keysetId → x.key = y.key → x = y
  genuine : ∀ x ∈ signed, x.keysetId = keysetId → ∃ p, x.UnblindsTo mintKeys seed p ∧ Verified mintKeys p
  gaps : GapsAtMost 64 (signedIndices keysetId signed)

/-- All of it is among the indices below `N`, with the windows of its scans. -/
structure Scannable (seed : List UInt8) (keysetId : String) (mintKeys : KeySet) (keysets : Set String) (N : Nat)
    (signed : List SignedOutput) : Prop extends SignedInReach seed keysetId mintKeys signed where
  covered : ∀ x ∈ signed, x.keysetId ∈ keysets ∧ x.index.toNat < N ∧ (windowAfter x.index).toNat ≤ N

/-- Between two restores of a fresh wallet. -/
structure Restoring (seed : List UInt8) (keysetId : String) (mintKeys : KeySet) (signed : List SignedOutput)
    (w : PersistentWallet) : Prop where
  seeded : w.seed = seed
  proofs : ∀ p ∈ w.proofs, ∃ x ∈ signed, x.keysetId = keysetId ∧ x.index < w.counter ∧ x.UnblindsTo mintKeys seed p
  nodup : (w.proofs.map Proof.secret).Nodup
  below : ∀ x ∈ signed, x.keysetId = keysetId → x.index < w.counter → ∃ p ∈ w.proofs, x.UnblindsTo mintKeys seed p
  counter : w.counter = 0 ∨ ∃ x ∈ signed, x.keysetId = keysetId ∧ w.counter = x.index + 1

/-- The indices below `N` derive, and to distinct outputs. -/
structure Derivable (seed : List UInt8) (keysetId : String) (keysets : Set String) (N : Nat) : Prop where
  derives : ∀ i : UInt32, i.toNat < N → ∃ d, deriveOutput seed keysetId i = .ok d
  distinct : DistinctOutputs seed keysets N
  keyset : keysetId ∈ keysets
  first : 64 ≤ N

section restore
variable {env : WalletEnv} {seed : List UInt8} {keysetId : String} {mintKeys : KeySet} {keysets : Set String} {N : Nat}
  {signed : List SignedOutput} {w : WalletWorld} {derived : List DerivedOutput} {end_ : UInt32}

theorem scanOutputs_isOk (hseed : Derivable seed keysetId keysets N) (hN : end_.toNat ≤ N) :
    ∃ derived, scanOutputs seed keysetId end_ = .ok derived := by
  refine Except.mapM_isOk fun i hi => hseed.derives _ ?_
  rw [List.mem_range] at hi
  have := end_.toNat_lt
  rw [UInt32.toNat_ofNat_of_lt' (by simp only [UInt32.size]; omega)]
  omega

theorem Restoring.window_le (hseed : Derivable seed keysetId keysets N)
    (hs : Scannable seed keysetId mintKeys keysets N signed) (hw : Restoring seed keysetId mintKeys signed w.wallet) :
    (saturatingAdd w.wallet.counter restoreHeadroom).toNat ≤ N := by
  rcases hw.counter with hzero | ⟨x, hx, hK, hcounter⟩
  · rw [hzero]
    exact hseed.first
  · rw [hcounter]
    exact (hs.covered x hx).2.2

/-- An answer for a scanned output is the signature on the output of that index. -/
theorem HonestRestore.of_answer {response : RestoreResponse} {outputs : List PublicKey} {out : RestoreOutput}
    {idx : UInt32} {d : DerivedOutput} (hseed : Derivable seed keysetId keysets N)
    (hs : Scannable seed keysetId mintKeys keysets N signed)
    (hresponse : ∀ out, out ∈ response.outputs ↔ ∃ x ∈ signed, ∃ d, deriveOutput seed x.keysetId x.index = .ok d ∧
      d.blinded ∈ outputs ∧ out = ⟨d.blinded, x.signature⟩)
    (hout : out ∈ response.outputs) (hscan : scanOutputs seed keysetId end_ = .ok derived) (hN : end_.toNat ≤ N)
    (hrow : (byBlinded derived).lookup (pointHex out.y) = some (idx, d)) :
    ∃ x ∈ signed, x.keysetId = keysetId ∧ x.index = idx ∧ idx < end_ ∧ deriveOutput seed keysetId idx = .ok d ∧
      out.signature = x.signature := by
  obtain ⟨hlt, hd, hy⟩ := of_lookup_byBlinded hscan hrow
  obtain ⟨x, hx, d', hd', -, rfl⟩ := (hresponse out).1 hout
  obtain ⟨hkeyset, hindex, -⟩ := hs.covered x hx
  have hbelow := UInt32.lt_iff_toNat_lt.1 hlt
  obtain ⟨hK, hidx⟩ := hseed.distinct.blinded _ hkeyset _ hseed.keyset _ _ hindex (by omega) d' d hd' hd hy
  exact ⟨x, hx, hK, hidx, hlt, hd, rfl⟩

/-- Two signed outputs with proofs of one secret are the same. -/
theorem Scannable.eq_of_secret {x y : SignedOutput} {p q : Proof} (hseed : Derivable seed keysetId keysets N)
    (hs : Scannable seed keysetId mintKeys keysets N signed) (hx : x ∈ signed) (hy : y ∈ signed)
    (hxK : x.keysetId = keysetId) (hp : x.UnblindsTo mintKeys seed p) (hq : y.UnblindsTo mintKeys seed q)
    (hsecret : p.secret = q.secret) :
    x = y := by
  obtain ⟨d, key, c, hd, -, -, rfl⟩ := hp
  obtain ⟨d', key', c', hd', -, -, rfl⟩ := hq
  obtain ⟨hkx, hix, -⟩ := hs.covered x hx
  obtain ⟨hky, hiy, -⟩ := hs.covered y hy
  obtain ⟨hK, hidx⟩ := hseed.distinct.secret _ hkx _ hky _ _ hix hiy d d' hd hd' hsecret
  exact hs.unique x hx y hy hxK (Prod.ext hK hidx)

/-! ### One restore -/

/-- What an honest mint answers to the scan of the window. -/
structure RestoreAnswer (seed : List UInt8) (keysetId : String) (signed : List SignedOutput) (w : WalletWorld)
    (derived : List DerivedOutput) (response : RestoreResponse) : Prop where
  scans : scanOutputs seed keysetId (saturatingAdd w.wallet.counter restoreHeadroom) = .ok derived
  answers : ∀ out, out ∈ response.outputs ↔ ∃ x ∈ signed, ∃ d, deriveOutput seed x.keysetId x.index = .ok d ∧
    d.blinded ∈ derived.map DerivedOutput.blinded ∧ out = ⟨d.blinded, x.signature⟩

section found
variable {response : RestoreResponse} {acc : Restored}

theorem found_row (hseed : Derivable seed keysetId keysets N) (hs : Scannable seed keysetId mintKeys keysets N signed)
    (hw : Restoring seed keysetId mintKeys signed w.wallet) (hanswer : RestoreAnswer seed keysetId signed w derived response)
    (hfinds : Finds w mintKeys derived response.outputs acc) {p : Proof} (hp : p ∈ acc.proofs) :
    ∃ x ∈ signed, x.keysetId = keysetId ∧ x.UnblindsTo mintKeys seed p ∧
      ∃ m, acc.maxIdx = some m ∧ x.index.toNat ≤ m.toNat := by
  obtain ⟨out, hout, idx, m, ⟨d, key, c, hrow, hkey, hc, rfl⟩, hm, hle⟩ := hfinds.finding.answers p hp
  obtain ⟨x, hx, hK, rfl, -, hd, hsig⟩ :=
    HonestRestore.of_answer hseed hs hanswer.answers hout hanswer.scans (hw.window_le hseed hs) hrow
  rw [hsig] at hkey hc ⊢
  exact ⟨x, hx, hK, ⟨d, key, c, by rw [hK]; exact hd, hkey, hc, rfl⟩, m, hm, hle⟩

theorem found_max (hseed : Derivable seed keysetId keysets N) (hs : Scannable seed keysetId mintKeys keysets N signed)
    (hw : Restoring seed keysetId mintKeys signed w.wallet) (hanswer : RestoreAnswer seed keysetId signed w derived response)
    (hfinds : Finds w mintKeys derived response.outputs acc) {m : UInt32} (hm : acc.maxIdx = some m) :
    ∃ x ∈ signed, x.keysetId = keysetId ∧ x.index = m ∧ m < saturatingAdd w.wallet.counter restoreHeadroom := by
  obtain ⟨out, hout, d, hrow⟩ := hfinds.finding.maxIdx m hm
  obtain ⟨x, hx, hK, hidx, hlt, -, -⟩ :=
    HonestRestore.of_answer hseed hs hanswer.answers hout hanswer.scans (hw.window_le hseed hs) hrow
  exact ⟨x, hx, hK, hidx, hlt⟩

/-- Everything that the mint has signed in the window is found, or was held. -/
theorem found_all (hseed : Derivable seed keysetId keysets N) (hs : Scannable seed keysetId mintKeys keysets N signed)
    (hw : Restoring seed keysetId mintKeys signed w.wallet) (hanswer : RestoreAnswer seed keysetId signed w derived response)
    (hfinds : Finds w mintKeys derived response.outputs acc) {x : SignedOutput} (hx : x ∈ signed)
    (hK : x.keysetId = keysetId) (hlt : x.index < saturatingAdd w.wallet.counter restoreHeadroom) :
    ∃ p ∈ w.wallet.proofs ++ acc.proofs, x.UnblindsTo mintKeys seed p := by
  obtain ⟨p, hp, -⟩ := hs.genuine x hx hK
  have hpx := hp
  obtain ⟨d, key, c, hd, hkey, hc, rfl⟩ := hpx
  have hd' := hd
  rw [hK] at hd'
  have hrow := lookup_byBlinded hanswer.scans hseed.distinct hseed.keyset (hw.window_le hseed hs) hlt hd'
  have hget : derived[x.index.toNat]? = some d :=
    (scanOutputs_get hanswer.scans).2 ⟨UInt32.lt_iff_toNat_lt.1 hlt, by rwa [UInt32.ofNat_toNat]⟩
  have hscanned : d.blinded ∈ derived.map DerivedOutput.blinded := List.mem_map_of_mem (List.mem_of_getElem? hget)
  have hout := (hanswer.answers _).2 ⟨x, hx, d, hd, hscanned, rfl⟩
  have hknown := (hfinds.finding.known _).1 (hfinds.finding.seen _ hout _ _ hrow)
  have hheld : ∃ q ∈ w.wallet.proofs ++ acc.proofs, q.secret = d.secretHex := by
    rcases hknown with hold | hnew
    · obtain ⟨q, hq, hsecret⟩ := List.mem_map.1 hold
      exact ⟨q, List.mem_append_left _ hq, hsecret⟩
    · obtain ⟨q, hq, hsecret⟩ := List.mem_map.1 hnew
      exact ⟨q, List.mem_append_right _ hq, hsecret⟩
  obtain ⟨q, hq, hsecret⟩ := hheld
  have hrowq : ∃ y ∈ signed, y.keysetId = keysetId ∧ y.UnblindsTo mintKeys seed q := by
    rcases List.mem_append.1 hq with hq | hq
    · obtain ⟨y, hy, hKy, -, hqy⟩ := hw.proofs q hq
      exact ⟨y, hy, hKy, hqy⟩
    · obtain ⟨y, hy, hKy, hqy, -⟩ := found_row hseed hs hw hanswer hfinds hq
      exact ⟨y, hy, hKy, hqy⟩
  obtain ⟨y, hy, hKy, hqy⟩ := hrowq
  obtain rfl := hs.eq_of_secret hseed hy hx hKy hqy hp hsecret
  exact ⟨q, hq, hqy⟩

theorem Restoring.found (hseed : Derivable seed keysetId keysets N)
    (hs : Scannable seed keysetId mintKeys keysets N signed) (hw : Restoring seed keysetId mintKeys signed w.wallet)
    (hanswer : RestoreAnswer seed keysetId signed w derived response)
    (hfinds : Finds w mintKeys derived response.outputs acc) :
    Restoring seed keysetId mintKeys signed ((w.scanned derived).restored acc).wallet := by
  have hmax := fun m hm => found_max hseed hs hw hanswer hfinds (m := m) hm
  obtain ⟨hge, hle, hsame, hnext⟩ := @restored_counter _ w derived acc fun m hm => by
    obtain ⟨x, -, -, -, hlt⟩ := hmax m hm
    exact hlt
  refine ⟨hw.seeded, fun p hp => ?_, ?_, fun x hx hK hlt => ?_, ?_⟩
  · rcases List.mem_append.1 hp with hp | hp
    · obtain ⟨x, hx, hK, hlt, hpx⟩ := hw.proofs p hp
      rw [UInt32.lt_iff_toNat_lt] at hlt
      exact ⟨x, hx, hK, UInt32.lt_iff_toNat_lt.2 (by omega), hpx⟩
    · obtain ⟨x, hx, hK, hpx, m, hm, hxm⟩ := found_row hseed hs hw hanswer hfinds hp
      have hpast := (hnext m hm).1
      exact ⟨x, hx, hK, UInt32.lt_iff_toNat_lt.2 (by omega), hpx⟩
  · show ((w.wallet.proofs ++ acc.proofs).map Proof.secret).Nodup
    rw [List.map_append, List.nodup_append]
    refine ⟨hw.nodup, hfinds.finding.nodup, fun a ha b hb => ?_⟩
    obtain ⟨p, hp, rfl⟩ := List.mem_map.1 hb
    rintro rfl
    exact hfinds.finding.new p hp ha
  · refine found_all hseed hs hw hanswer hfinds hx hK (UInt32.lt_iff_toNat_lt.2 ?_)
    exact (UInt32.lt_iff_toNat_lt.1 hlt).trans_le hle
  · rcases hm : acc.maxIdx with - | m
    · rw [hsame hm]
      exact hw.counter
    · rcases (hnext m hm).2 with hsame | hsucc
      · rw [hsame]
        exact hw.counter
      · obtain ⟨x, hx, hK, rfl, -⟩ := hmax m hm
        exact .inr ⟨x, hx, hK, hsucc⟩

/-- When a restore finds nothing, nothing is left to be found. -/
theorem Restoring.complete (hseed : Derivable seed keysetId keysets N)
    (hs : Scannable seed keysetId mintKeys keysets N signed) (hw : Restoring seed keysetId mintKeys signed w.wallet)
    (hanswer : RestoreAnswer seed keysetId signed w derived response)
    (hfinds : Finds w mintKeys derived response.outputs acc) (hnone : acc.proofs = []) {x : SignedOutput}
    (hx : x ∈ signed) (hK : x.keysetId = keysetId) : ∃ p ∈ w.wallet.proofs, x.UnblindsTo mintKeys seed p := by
  have hall := fun {x : SignedOutput} hx hK hlt => @found_all _ _ seed keysetId mintKeys keysets N signed w derived
    response acc hseed hs hw hanswer hfinds x hx hK hlt
  rw [hnone, List.append_nil] at hall
  by_contra hlost
  have hpast : w.wallet.counter.toNat ≤ x.index.toNat := by
    by_contra hlt
    exact hlost (hw.below x hx hK (UInt32.lt_iff_toNat_lt.2 (by omega)))
  obtain ⟨j, ⟨y, hy, hKy, rfl⟩, hge, hlt⟩ := hs.gaps.exists_next ⟨x, hx, hK, rfl⟩ hpast
  have hwindow : y.index < saturatingAdd w.wallet.counter restoreHeadroom := by
    have hbound := UInt32.lt_iff_toNat_lt.1 (hs.below y hy hKy)
    have hmax : u32Max.toNat = 2 ^ 32 - 1 := rfl
    have hroom : restoreHeadroom.toNat = 64 := rfl
    rw [UInt32.lt_iff_toNat_lt, saturatingAdd_toNat]
    omega
  obtain ⟨p, hp, hpy⟩ := hall hy hKy hwindow
  obtain ⟨z, hz, -, hzlt, hpz⟩ := hw.proofs p hp
  obtain rfl := hs.eq_of_secret hseed hy hz hKy hpy hpz rfl
  rw [UInt32.lt_iff_toNat_lt] at hzlt
  omega

theorem found_isOk (hseed : Derivable seed keysetId keysets N) (hs : Scannable seed keysetId mintKeys keysets N signed)
    (hw : Restoring seed keysetId mintKeys signed w.wallet)
    (hanswer : RestoreAnswer seed keysetId signed w derived response) :
    ∃ acc, Finds w mintKeys derived response.outputs acc := by
  refine restoreOutputs_isOk _ fun out hout idx d hrow => ?_
  obtain ⟨x, hx, hK, rfl, -, hd, hsig⟩ :=
    HonestRestore.of_answer hseed hs hanswer.answers hout hanswer.scans (hw.window_le hseed hs) hrow
  obtain ⟨p, ⟨d', key, c, hd', hkey, hc, -⟩, -⟩ := hs.genuine x hx hK
  rw [hK, hd] at hd'
  cases hd'
  exact ⟨_, d, key, c, hrow, by rw [hsig]; exact hkey, by rw [hsig]; exact hc, rfl⟩

theorem found_verified (hseed : Derivable seed keysetId keysets N)
    (hs : Scannable seed keysetId mintKeys keysets N signed) (hw : Restoring seed keysetId mintKeys signed w.wallet)
    (hanswer : RestoreAnswer seed keysetId signed w derived response)
    (hfinds : Finds w mintKeys derived response.outputs acc) {p : Proof} (hp : p ∈ acc.proofs) : Verified mintKeys p := by
  obtain ⟨x, hx, hK, hpx, -⟩ := found_row hseed hs hw hanswer hfinds hp
  obtain ⟨q, hq, hverified⟩ := hs.genuine x hx hK
  rw [hpx.eq hq]
  exact hverified

/-- A restore against an honest mint finds something or ends the loop with everything found. -/
theorem Restoring.step (hseed : Derivable seed keysetId keysets N)
    (hs : Scannable seed keysetId mintKeys keysets N signed) (hw : Restoring seed keysetId mintKeys signed w.wallet)
    (hmint : HonestRestore env seed signed) :
    (restore keysetId mintKeys).Ends env w fun o t => Restoring seed keysetId mintKeys signed t.wallet ∧
      (o = .ok 0 → ∀ x ∈ signed, x.keysetId = keysetId → ∃ p ∈ t.wallet.proofs, x.UnblindsTo mintKeys seed p) ∧
      (o ≠ .ok 0 → w.wallet.proofs.length < t.wallet.proofs.length) := by
  have hscannable := scanOutputs_isOk hseed (hw.window_le hseed hs)
  rw [← hw.seeded] at hscannable
  refine restore_ends.mono fun o t h => ?_
  rcases h with ⟨hfails, -⟩ | ⟨hscan, hfails, -⟩ | ⟨hscan, hpost, hfinds, -, hvalue, hsaves⟩
  · obtain ⟨derived, hscan⟩ := hscannable
    exact absurd hscan (hfails derived)
  · obtain ⟨response, hpost, hanswers⟩ := hmint (List.map DerivedOutput.blinded _)
    rw [hw.seeded] at hscan
    obtain ⟨acc, hfinds⟩ := found_isOk hseed hs hw ⟨hscan, hanswers⟩
    obtain ⟨p, hp, hnot⟩ := hfails response acc hpost hfinds
    exact absurd (found_verified hseed hs hw ⟨hscan, hanswers⟩ hfinds hp) hnot
  · obtain ⟨response', hpost', hanswers⟩ := hmint (List.map DerivedOutput.blinded _)
    obtain rfl := Except.ok.inj (hpost.symm.trans hpost')
    rw [hw.seeded] at hscan
    have hanswer : RestoreAnswer _ _ _ _ _ _ := ⟨hscan, hanswers⟩
    have hfound := hw.found hseed hs hanswer hfinds
    have hadded := hfinds.finding.added
    split at hsaves
    · next hpos =>
      obtain ⟨hwallet, -, -⟩ := hsaves.blob
      rw [hwallet]
      refine ⟨hfound, ?_, fun _ => ?_⟩
      · rintro rfl
        have := hvalue 0 rfl
        omega
      · show w.wallet.proofs.length < (w.wallet.proofs ++ _).length
        rw [List.length_append]
        omega
    · next hzero =>
      obtain ⟨hok, rfl⟩ := hsaves
      refine ⟨hfound, fun _ x hx hK => ?_, fun hmore => ?_⟩
      · obtain ⟨p, hp, hpx⟩ := hw.complete hseed hs hanswer hfinds (List.length_eq_zero_iff.1 (by omega)) hx hK
        exact ⟨p, List.mem_append_left _ hp, hpx⟩
      · rcases o with n | e | -
        · obtain rfl : n = 0 := by rw [hvalue n rfl]; omega
          exact absurd rfl hmore
        · cases hok
        · cases hok

end found

/-! ### The loop -/

theorem Restoring.length_le (hw : Restoring seed keysetId mintKeys signed w.wallet) :
    w.wallet.proofs.length ≤ signed.length := by
  have hsub : w.wallet.proofs.map (fun p => some p.secret) ⊆ signed.map fun x =>
      (deriveOutput seed x.keysetId x.index).toOption.map DerivedOutput.secretHex := by
    intro s hs
    obtain ⟨p, hp, rfl⟩ := List.mem_map.1 hs
    obtain ⟨x, hx, -, -, d, key, c, hd, -, -, rfl⟩ := hw.proofs p hp
    exact List.mem_map.2 ⟨x, hx, by rw [hd]; rfl⟩
  have hnodup : (w.wallet.proofs.map fun p => some p.secret).Nodup := by
    have := hw.nodup.map (Option.some_injective String)
    rwa [List.map_map] at this
  have hlen := (hnodup.subperm hsub).length_le
  rwa [List.length_map, List.length_map] at hlen

/-- Every restore but the last finds a proof, and there are no more proofs than signed outputs. -/
theorem Restoring.loop (hseed : Derivable seed keysetId keysets N)
    (hs : Scannable seed keysetId mintKeys keysets N signed) (hmint : HonestRestore env seed signed)
    (hw : Restoring seed keysetId mintKeys signed w.wallet) : ∃ t, RestoreLoop env keysetId mintKeys w t := by
  generalize hleft : signed.length - w.wallet.proofs.length = left
  induction left using Nat.strong_induction_on generalizing w with
  | _ left ih =>
    rcases hrun : (restore keysetId mintKeys).run env w with ⟨o, t⟩
    obtain ⟨ht, -, hmore⟩ := (hw.step hseed hs hmint).elim hrun
    by_cases ho : o = .ok 0
    · subst ho
      exact ⟨t, .done hrun⟩
    · have hgrows := hmore ho
      have hbound := ht.length_le
      obtain ⟨u, hloop⟩ := ih _ (by omega) ht rfl
      exact ⟨u, .again hrun ho hloop⟩

theorem Restoring.loop_complete (hseed : Derivable seed keysetId keysets N)
    (hs : Scannable seed keysetId mintKeys keysets N signed) (hmint : HonestRestore env seed signed)
    (hw : Restoring seed keysetId mintKeys signed w.wallet) {t : WalletWorld}
    (hloop : RestoreLoop env keysetId mintKeys w t) :
    ∀ x ∈ signed, x.keysetId = keysetId → ∃ p ∈ t.wallet.proofs, x.UnblindsTo mintKeys seed p := by
  induction hloop with
  | done hrun =>
    obtain ⟨-, hdone, -⟩ := (hw.step hseed hs hmint).elim hrun
    exact hdone rfl
  | again hrun _ _ ih =>
    obtain ⟨hu, -⟩ := (hw.step hseed hs hmint).elim hrun
    exact ih hu

theorem Restoring.start (seed : List UInt8) : Restoring seed keysetId mintKeys signed (.new none seed) where
  seeded := rfl
  proofs := fun p hp => by cases hp
  nodup := List.nodup_nil
  below := fun x _ _ hlt => by
    have : x.index.toNat < (0 : UInt32).toNat := UInt32.lt_iff_toNat_lt.1 hlt
    exact absurd this (Nat.not_lt_zero _)
  counter := .inl rfl

theorem Scannable.recoverable {s : IssueWorld} (hseed : Derivable s.wallet.seed keysetId keysets N)
    (hs : Scannable s.wallet.seed keysetId mintKeys keysets N s.signed) : Recoverable keysetId mintKeys s := by
  intro env w hmint hfresh
  have hw : Restoring s.wallet.seed keysetId mintKeys s.signed w.wallet := by
    rw [hfresh]
    exact .start _
  exact ⟨hw.loop hseed hs hmint, fun t hloop => hw.loop_complete hseed hs hmint hloop⟩

end restore

/-! ### Runs -/

def IssueAct.signs : IssueAct → List SignedOutput
  | .call _ _ _ _ signs => signs
  | .sign output => [output]
  | .reject _ | .reopen => []

/-- Minted and swapped outputs are signed together. -/
def WalletCall.Whole : WalletCall → Prop
  | .mint .. | .swap .. => True
  | .melt .. | .restore => False

omit [Curve] in
theorem WalletCall.amounts_of_not_whole (call : WalletCall) (h : ¬ call.Whole) : call.amounts.length ≤ 64 := by
  rcases call with ⟨quoteId, amount⟩ | ⟨inputs, newAmounts⟩ | ⟨quoteId, invoiceAmount, feeReserve⟩ | -
  · exact (h trivial).elim
  · exact (h trivial).elim
  · exact decomposeAmount_length feeReserve
  · exact Nat.zero_le 64

/-- The signatures of a step are good ones, and answer a mint or a swap as a whole. -/
structure SignsHonestly (keysetId : String) (mintKeys : KeySet) (e : Step IssueWorld IssueAct) : Prop where
  genuine : ∀ x ∈ e.act.signs, x.keysetId = keysetId →
    ∃ p, x.UnblindsTo mintKeys e.pre.wallet.seed p ∧ Verified mintKeys p
  whole : ∀ env K keys call signs, e.act = .call env K keys call signs → call.Whole →
    signs = [] ∨ signs.map SignedOutput.key =
      (requestedIndices e.pre.toWalletWorld e.post.toWalletWorld).map (K, ·)

/-- The first output that a step signs is in the first window or at most 64 beyond one signed before, the last index is
not used, and what was signed before is signed alike. -/
structure SignsInReach (keysetId : String) (e : Step IssueWorld IssueAct) : Prop where
  near : ∀ x, e.act.signs.head? = some x → x.keysetId = keysetId →
    x.index.toNat < 64 ∨ ∃ y ∈ e.pre.signed, y.keysetId = keysetId ∧ x.index.toNat ≤ y.index.toNat + 64
  below : ∀ x ∈ e.act.signs, x.keysetId = keysetId → x.index < u32Max
  once : ∀ x ∈ e.act.signs, ∀ y ∈ e.act.signs ++ e.pre.signed, x.keysetId = keysetId → x.key = y.key → x = y

theorem IssueStep.signed {s s' : IssueWorld} {a : IssueAct} (h : IssueStep s a s') :
    s'.signed = a.signs ++ s.signed := by
  rcases h with - | - | - | - <;> rfl

section indices

omit [Crypto] [Curve]

theorem indicesFrom_chain {c : UInt32} {n : Nat} (h : ∀ i ∈ indicesFrom c n, i < u32Max) :
    ((indicesFrom c n).map UInt32.toNat).IsChain fun a b => b < 64 ∨ b ≤ a + 64 := by
  induction n generalizing c with
  | zero => exact .nil
  | succ n ih =>
    rcases n with - | n
    · exact .singleton _
    · have hc := UInt32.lt_iff_toNat_lt.1 (h c (List.mem_cons_self ..))
      have hmax : u32Max.toNat = 2 ^ 32 - 1 := rfl
      have hsucc := @toNat_succ c (by omega)
      refine .cons_cons (.inr ?_) (ih fun i hi => h i (List.mem_cons_of_mem _ hi))
      omega

theorem mem_indicesFrom_mod {c i : UInt32} {n : Nat} (hi : i ∈ indicesFrom c n) :
    ∃ k < n, i.toNat = (c.toNat + k) % 2 ^ 32 := by
  induction n generalizing c with
  | zero => cases hi
  | succ n ih =>
    rcases List.mem_cons.1 hi with rfl | hi
    · exact ⟨0, by omega, by have := i.toNat_lt; omega⟩
    · obtain ⟨k, hk, hik⟩ := ih hi
      rw [UInt32.toNat_add, UInt32.toNat_one] at hik
      exact ⟨k + 1, by omega, by omega⟩

/-- In a request of at most 64 outputs no index is further than that beyond one before it, also where they wrap. -/
theorem indicesFrom_pairwise {c : UInt32} {n : Nat} (h : n ≤ 64) :
    (indicesFrom c n).Pairwise fun a b => b.toNat < 64 ∨ b.toNat ≤ a.toNat + 64 := by
  induction n generalizing c with
  | zero => exact .nil
  | succ n ih =>
    refine .cons (fun i hi => ?_) (ih (by omega))
    obtain ⟨k, hk, hik⟩ := mem_indicesFrom_mod hi
    have hc := c.toNat_lt
    rw [UInt32.toNat_add, UInt32.toNat_one] at hik
    omega

end indices

section step
variable {seed : List UInt8} {keysetId : String} {mintKeys : KeySet} {s s' : IssueWorld} {a : IssueAct}

omit [Crypto] [Curve] in
theorem map_snd_pair (keysetId : String) (indices : List UInt32) :
    (indices.map fun i => (keysetId, i)).map Prod.snd = indices := by
  rw [List.map_map]
  exact List.map_id _

omit [Curve] in
theorem map_index (signs : List SignedOutput) :
    signs.map SignedOutput.index = (signs.map SignedOutput.key).map Prod.snd := by
  rw [List.map_map]
  rfl

/-- What one step signs has no gaps within it. -/
theorem IssueStep.signs_chain (h : IssueStep s a s') (hhonest : SignsHonestly keysetId mintKeys ⟨s, a, s'⟩)
    (hbelow : ∀ x ∈ a.signs, x.index < u32Max) :
    ((a.signs.map SignedOutput.index).map UInt32.toNat).IsChain fun i j => j < 64 ∨ j ≤ i + 64 := by
  rcases h with @⟨t, env, K, keys, call, signs, o, hexec, hpart⟩ | - | - | -
  · obtain ⟨-, hindices⟩ := ((walletCall_ends call).elim hexec).requests
    have hsub : (signs.map SignedOutput.index).Sublist (requestedIndices s.toWalletWorld t) := by
      have := hpart.map Prod.snd
      rwa [map_snd_pair, ← map_index] at this
    by_cases hwhole : call.Whole
    · rcases hhonest.whole _ _ _ _ _ rfl hwhole with hnone | hall
      · show ((signs.map SignedOutput.index).map UInt32.toNat).IsChain _
        rw [hnone]
        exact .nil
      · have heq : signs.map SignedOutput.index = requestedIndices s.toWalletWorld t := by
          rw [map_index, hall]
          exact map_snd_pair K _
        show ((signs.map SignedOutput.index).map UInt32.toNat).IsChain _
        have hmem : ∀ i ∈ signs.map SignedOutput.index, i < u32Max := by
          intro i hi
          obtain ⟨x, hx, rfl⟩ := List.mem_map.1 hi
          exact hbelow x hx
        rw [heq] at hmem ⊢
        rcases hindices with hnone | hfrom
        · rw [hnone]
          exact .nil
        · rw [hfrom] at hmem ⊢
          exact indicesFrom_chain hmem
    · rw [List.isChain_map]
      refine List.Pairwise.isChain (List.Pairwise.sublist hsub ?_)
      rcases hindices with hnone | hfrom
      · rw [hnone]
        exact .nil
      · rw [hfrom]
        exact indicesFrom_pairwise (call.amounts_of_not_whole hwhole)
  · exact .singleton _
  · exact .nil
  · exact .nil

theorem IssueStep.signs_keyset (h : IssueStep s a s') : ∃ K, ∀ x ∈ a.signs, x.keysetId = K := by
  rcases h with @⟨t, env, K, keys, call, signs, o, hexec, hpart⟩ | @⟨x, -⟩ | - | -
  · refine ⟨K, fun x hx => ?_⟩
    obtain ⟨i, -, heq⟩ := List.mem_map.1 (hpart.subset (List.mem_map_of_mem (f := SignedOutput.key) hx))
    exact (congrArg Prod.fst heq).symm
  · exact ⟨x.keysetId, by simp [IssueAct.signs]⟩
  · exact ⟨"", by simp [IssueAct.signs]⟩
  · exact ⟨"", by simp [IssueAct.signs]⟩

theorem IssueStep.gaps (h : IssueStep s a s') (hs : GapsAtMost 64 (signedIndices keysetId s.signed))
    (hhonest : SignsHonestly keysetId mintKeys ⟨s, a, s'⟩) (hreach : SignsInReach keysetId ⟨s, a, s'⟩) :
    GapsAtMost 64 (signedIndices keysetId s'.signed) := by
  obtain ⟨K, hK⟩ := h.signs_keyset
  by_cases heq : K = keysetId
  · subst heq
    have hset : signedIndices K s'.signed =
        signedIndices K s.signed ∪ {i | i ∈ (a.signs.map SignedOutput.index).map UInt32.toNat} := by
      ext i
      simp only [signedIndices, h.signed, List.mem_append, Set.mem_union, Set.mem_ofPred_eq, List.map_map, List.mem_map,
        Function.comp_apply]
      constructor
      · rintro ⟨x, hx | hx, hxK, hi⟩
        · exact .inr ⟨x, hx, hi⟩
        · exact .inl ⟨x, hx, hxK, hi⟩
      · rintro (⟨x, hx, hxK, hi⟩ | ⟨x, hx, hi⟩)
        · exact ⟨x, .inr hx, hxK, hi⟩
        · exact ⟨x, .inl hx, hK x hx, hi⟩
    rw [hset]
    refine hs.insertList ?_ (h.signs_chain hhonest fun x hx => hreach.below x hx (hK x hx))
    intro i hi
    rw [List.map_map, List.head?_map, Option.map_eq_some_iff] at hi
    obtain ⟨x, hx, rfl⟩ := hi
    rcases hreach.near x hx (hK x (List.mem_of_mem_head? hx)) with hfirst | ⟨y, hy, hyK, hle⟩
    · exact .inl hfirst
    · exact .inr ⟨_, ⟨y, hy, hyK, rfl⟩, hle⟩
  · have hset : signedIndices keysetId s'.signed = signedIndices keysetId s.signed := by
      ext i
      simp only [signedIndices, h.signed, List.mem_append, Set.mem_ofPred_eq]
      constructor
      · rintro ⟨x, hx | hx, hxK, hi⟩
        · exact absurd ((hK x hx).symm.trans hxK) heq
        · exact ⟨x, hx, hxK, hi⟩
      · rintro ⟨x, hx, hxK, hi⟩
        exact ⟨x, .inr hx, hxK, hi⟩
    rwa [hset]

theorem IssueStep.signedInReach (h : IssueStep s a s') (hs : SignedInReach s.wallet.seed keysetId mintKeys s.signed)
    (hhonest : SignsHonestly keysetId mintKeys ⟨s, a, s'⟩) (hreach : SignsInReach keysetId ⟨s, a, s'⟩) :
    SignedInReach s'.wallet.seed keysetId mintKeys s'.signed where
  below := by
    rw [h.signed]
    intro x hx hK
    rcases List.mem_append.1 hx with hx | hx
    · exact hreach.below x hx hK
    · exact hs.below x hx hK
  unique := by
    rw [h.signed]
    intro x hx y hy hK hkey
    rcases List.mem_append.1 hx with hx | hx
    · exact hreach.once x hx y hy hK hkey
    · rcases List.mem_append.1 hy with hy | hy
      · have hyK : y.keysetId = keysetId := (congrArg Prod.fst hkey).symm.trans hK
        exact (hreach.once y hy x (List.mem_append_right _ hx) hyK hkey.symm).symm
      · exact hs.unique x hx y hy hK hkey
  genuine := by
    rw [h.signed, h.seed]
    intro x hx hK
    rcases List.mem_append.1 hx with hx | hx
    · exact hhonest.genuine x hx hK
    · exact hs.genuine x hx hK
  gaps := h.gaps hs.gaps hhonest hreach

end step

/-- In a run in which the mint never signs out of reach, a wallet that has lost its store recovers all it has signed. -/
theorem history_recoverable {seed : List UInt8} {keysetId : String} {mintKeys : KeySet} {keysets : Set String} {N : Nat}
    {h : List (Step IssueWorld IssueAct)} {s : IssueWorld} (hrun : Run IssueStep (.start seed) h s)
    (hseed : Derivable seed keysetId keysets N)
    (hcovered : ∀ x ∈ s.signed, x.keysetId ∈ keysets ∧ x.index.toNat < N ∧ (windowAfter x.index).toNat ≤ N)
    (hhonest : ∀ e ∈ h, SignsHonestly keysetId mintKeys e) (hreach : ∀ e ∈ h, SignsInReach keysetId e) :
    Recoverable keysetId mintKeys s := by
  have hstart : SignedInReach seed keysetId mintKeys [] := by
    refine ⟨by simp, by simp, by simp, fun i hi => ?_⟩
    obtain ⟨x, hx, -⟩ := hi
    cases hx
  have hsigned : SignedInReach s.wallet.seed keysetId mintKeys s.signed := by
    refine hrun.invariant_state (G := fun e => SignsHonestly keysetId mintKeys e ∧ SignsInReach keysetId e)
      (I := fun s => SignedInReach s.wallet.seed keysetId mintKeys s.signed) hstart ?_
      fun e he => ⟨hhonest e he, hreach e he⟩
    rintro s a s' ⟨hhonest, hreach⟩ hs hstep
    exact hstep.signedInReach hs hhonest hreach
  obtain rfl : s.wallet.seed = seed := Run.wallet_seed hrun
  exact Scannable.recoverable hseed ⟨hsigned, hcovered⟩

end

section toy
open Toy32

namespace Toy32

theorem derivable : Derivable [1] "00c0ffee" {"00c0ffee"} 65 := by
  obtain ⟨derived, hscan, hsecret, hblinded⟩ := scan
  refine ⟨fun i hi => ?_, distinctOutputs_of_scan hscan hsecret hblinded, rfl, by decide⟩
  have hlen := scanOutputs_length hscan
  have h65 : (65 : UInt32).toNat = 65 := rfl
  have hget := (scanOutputs_get hscan (i := i.toNat)).1 (List.getElem?_eq_getElem (by omega))
  rw [UInt32.ofNat_toNat] at hget
  exact ⟨_, hget.2⟩

/-- A step that signs its one output. -/
theorem issue_honest {env : WalletEnv} {call : WalletCall} {s : IssueWorld} {i : UInt32} {b : UInt8}
    (hindices : requestedIndices s.toWalletWorld (issue env call s) = [i]) (hgenuine :
      ∃ p, (signedOutput i b).UnblindsTo (keys 3) s.wallet.seed p ∧ Verified (keys 3) p) :
    SignsHonestly "00c0ffee" (keys 3) ⟨s, .call env "00c0ffee" (keys 3) call [signedOutput i b],
      s.afterCall (issue env call s) "00c0ffee" call [signedOutput i b]⟩ := by
  refine ⟨fun x hx _ => ?_, ?_⟩
  · rw [List.mem_singleton.1 hx]
    exact hgenuine
  · rintro _ _ _ _ _ ⟨⟩ -
    right
    rw [IssueWorld.afterCall_toWalletWorld, hindices]
    rfl

theorem coins_verify :
    verifyFreshProof (keys 3) (restoredProof (sign 3 76 1)
      ⟨"0000000000000000000000000000000000000000000000000000000000000009", (10 : UInt8), (76 : UInt8)⟩ (198 : UInt8)) =
        .ok () ∧
    verifyFreshProof (keys 3) (restoredProof (sign 3 125 1)
      ⟨"00000000000000000000000000000000000000000000000000000000000000c9", (202 : UInt8), (125 : UInt8)⟩ (25 : UInt8)) =
        .ok () := by
  decide +kernel

theorem minted_genuine : ∃ p, (signedOutput 0 76).UnblindsTo (keys 3) [1] p ∧ Verified (keys 3) p := by
  refine ⟨restoredProof (sign 3 76 1)
    ⟨"0000000000000000000000000000000000000000000000000000000000000009", (10 : UInt8), (76 : UInt8)⟩ (198 : UInt8),
    ⟨_, (3 : UInt8), (198 : UInt8), first_output, by decide, ?_, rfl⟩, verifyFreshProof_eq_ok.1 coins_verify.1⟩
  decide

/-- A mint of all 64 denominations that the mint rejects. -/
def rejecting : WalletEnv := { env .saved with postMint := fun _ => .error .quoteNotPaid }

def rejected : IssueWorld :=
  start.afterCall (issue rejecting (.mint "q" 0xFFFFFFFFFFFFFFFF) start) "00c0ffee" (.mint "q" 0xFFFFFFFFFFFFFFFF) []

/-- After it, a mint of 1, signed at index 64. -/
def beyond : IssueWorld :=
  rejected.afterCall (issue (env .saved) (.mint "r" 1) rejected) "00c0ffee" (.mint "r" 1) [signedOutput 64 125]

def beyondHistory : List (Step IssueWorld IssueAct) :=
  [⟨start, .call rejecting "00c0ffee" (keys 3) (.mint "q" 0xFFFFFFFFFFFFFFFF) [], rejected⟩,
    ⟨rejected, .call (env .saved) "00c0ffee" (keys 3) (.mint "r" 1) [signedOutput 64 125], beyond⟩]

/-- The outputs of the amounts, from index `i`. -/
def outputsFrom : UInt32 → List UInt64 → List BlindedMessage × List PendingOutput
  | _, [] => ([], [])
  | i, amount :: amounts =>
    ({ amount, id := "00c0ffee", b := (outputAt i).blinded } :: (outputsFrom (i + 1) amounts).1,
      { secret := asBytes (outputAt i).secretHex, blinder := (outputAt i).blinder, amount } ::
      (outputsFrom (i + 1) amounts).2)

theorem outputsFrom_length (i : UInt32) (amounts : List UInt64) : (outputsFrom i amounts).2.length = amounts.length := by
  induction amounts generalizing i with
  | nil => rfl
  | cons amount amounts ih => exact congrArg Nat.succ (ih (i + 1))

theorem outputs_run {env : WalletEnv} {i : UInt32} {amounts : List UInt64} (hroom : i.toNat + amounts.length ≤ 65) :
    (deterministicOutputsFrom "00c0ffee" i amounts).run env start.toWalletWorld =
      (.ok (outputsFrom i amounts), start.toWalletWorld) := by
  induction amounts generalizing i with
  | nil => rfl
  | cons amount amounts ih =>
    rw [List.length_cons] at hroom
    have hnext : (i + 1).toNat = i.toNat + 1 := by
      rw [UInt32.toNat_add, UInt32.toNat_one]
      omega
    have hwallet : WalletM.wallet.run env start.toWalletWorld = (.ok start.wallet, start.toWalletWorld) := rfl
    have hindex : (WalletM.addU32 start.wallet.counter i).run env start.toWalletWorld = (.ok i, start.toWalletWorld) := by
      have hzero : start.wallet.counter = 0 := rfl
      have hlt := i.toNat_lt
      rw [hzero, run, WalletM.addU32, if_neg (by rw [UInt32.toNat_zero]; omega), UInt32.zero_add]
    have hderive : deriveOutput start.wallet.seed "00c0ffee" i = .ok (outputAt i) := deriveOutput_eq (by omega)
    rw [deterministicOutputsFrom, run_bind_of_ok hwallet, run_bind_of_ok hindex, run_bind_of_ok (lift_run hderive),
      run_bind_of_ok (ih (by omega))]
    rfl

/-- The request of the rejected mint has left the wallet, and its indices are used. -/
theorem rejected_world : rejected.toWalletWorld = ⟨{ PersistentWallet.new none [1] with counter := 64 }, none,
    [.mint ⟨"q", (outputsFrom 0 (decomposeAmount 0xFFFFFFFFFFFFFFFF)).1, none⟩]⟩ := by
  have hlength : (decomposeAmount 0xFFFFFFFFFFFFFFFF).length = 64 := by decide
  have hsome : decomposeAmount 0xFFFFFFFFFFFFFFFF ≠ [] := List.ne_nil_of_length_pos (by omega)
  have houtputs : (deterministicOutputs (decomposeAmount 0xFFFFFFFFFFFFFFFF) "00c0ffee").run rejecting
      start.toWalletWorld = _ :=
    outputs_run (by rw [hlength]; decide)
  have hmint : (mintDeterministic "q" 0xFFFFFFFFFFFFFFFF "00c0ffee" (keys 3)).run rejecting start.toWalletWorld =
      (.err .quoteNotPaid, ⟨{ PersistentWallet.new none [1] with counter := 64 }, none,
        [.mint ⟨"q", (outputsFrom 0 (decomposeAmount 0xFFFFFFFFFFFFFFFF)).1, none⟩]⟩) := by
    have hcounter : saturatingAdd 0 (UInt32.ofNat (outputsFrom 0 (decomposeAmount 0xFFFFFFFFFFFFFFFF)).2.length) = 64 := by
      rw [outputsFrom_length, hlength]
      rfl
    rw [mintDeterministic, run_bind_of_ok (failIf_pass hsome), run_bind_of_ok houtputs, ← hcounter]
    rfl
  show issue rejecting (.mint "q" 0xFFFFFFFFFFFFFFFF) start = _
  rw [issue, WalletCall.exec, run_bind_of_err hmint]

theorem beyond_indices :
    requestedIndices rejected.toWalletWorld (issue (env .saved) (.mint "r" 1) rejected) = [64] := by
  rw [issue, rejected_world]
  decide +kernel

theorem rejected_step :
    IssueStep start (.call rejecting "00c0ffee" (keys 3) (.mint "q" 0xFFFFFFFFFFFFFFFF) []) rejected :=
  issue_step _ _ start (List.nil_sublist _)

theorem beyond_run : Run IssueStep start beyondHistory beyond :=
  (Run.nil.snoc rejected_step).snoc (issue_step _ _ rejected (signed_part beyond_indices))

theorem beyond_output : deriveOutput [1] "00c0ffee" 64 =
    .ok ⟨"00000000000000000000000000000000000000000000000000000000000000c9", (202 : UInt8), (125 : UInt8)⟩ :=
  (deriveOutput_eq (by decide)).trans (by decide)

theorem beyond_genuine :
    ∃ p, (signedOutput 64 125).UnblindsTo (keys 3) [1] p ∧ Verified (keys 3) p := by
  refine ⟨restoredProof (sign 3 125 1)
    ⟨"00000000000000000000000000000000000000000000000000000000000000c9", (202 : UInt8), (125 : UInt8)⟩ (25 : UInt8),
    ⟨_, (3 : UInt8), (25 : UInt8), beyond_output, by decide, ?_, rfl⟩, verifyFreshProof_eq_ok.1 coins_verify.2⟩
  decide

/-- The mint answers for index 64. -/
def restoring : WalletEnv :=
  { env .saved with
    postRestore := fun r => .ok ⟨if (125 : UInt8) ∈ r.outputs then [⟨(125 : UInt8), sign 3 125 1⟩] else []⟩ }

/-- The first restore of a fresh wallet stops before index 64. -/
theorem restoring_nothing : (restore "00c0ffee" (keys 3)).Ends restoring fresh fun o t => o = .ok 0 ∧
    t.wallet.proofs = [] := by
  have hscan : scanOutputs [1] "00c0ffee" 64 = .ok ((List.range 64).map fun i => outputAt (UInt32.ofNat i)) :=
    scanOutputs_eq (by decide)
  have habsent : (125 : UInt8) ∉ ((List.range 64).map fun i => outputAt (UInt32.ofNat i)).map DerivedOutput.blinded := by
    decide
  have hanswer : restoring.postRestore ⟨((List.range 64).map fun i => outputAt (UInt32.ofNat i)).map DerivedOutput.blinded⟩ =
      .ok ⟨[]⟩ := congrArg (fun outputs => Except.ok (RestoreResponse.mk outputs)) (if_neg habsent)
  refine restore_ends.mono fun o t h => ?_
  rcases h with ⟨hfails, -⟩ | ⟨hscan', hfails, -⟩ | ⟨hscan', hanswer', hfinds, -, hvalue, hsaves⟩
  · exact absurd hscan (hfails _)
  · obtain rfl := Except.ok.inj (hscan.symm.trans hscan')
    obtain ⟨p, hp, -⟩ := hfails ⟨[]⟩ _ hanswer rfl
    cases hp
  · obtain rfl := Except.ok.inj (hscan.symm.trans hscan')
    obtain rfl := Except.ok.inj (hanswer.symm.trans hanswer')
    cases hfinds
    rw [if_neg (Nat.lt_irrefl 0)] at hsaves
    obtain ⟨hok, rfl⟩ := hsaves
    rcases o with n | x | -
    · exact ⟨congrArg _ (hvalue n rfl), rfl⟩
    · cases hok
    · cases hok

theorem restoring_honest : HonestRestore restoring [1] beyond.signed := by
  intro outputs
  refine ⟨_, rfl, fun out => ?_⟩
  have hsigned : beyond.signed = [signedOutput 64 125] := rfl
  rw [hsigned]
  constructor
  · intro hout
    split at hout
    · next hmem =>
      rw [List.mem_singleton.1 hout]
      exact ⟨_, List.mem_singleton.2 rfl, _, beyond_output, hmem, rfl⟩
    · cases hout
  · rintro ⟨x, hx, d, hd, hmem, rfl⟩
    obtain rfl := List.mem_singleton.1 hx
    have hderived : deriveOutput [1] "00c0ffee" 64 = .ok d := hd
    rw [beyond_output] at hderived
    cases hderived
    rw [if_pos hmem]
    exact List.mem_singleton.2 rfl

end Toy32

theorem history_recoverable_toy : Recoverable "00c0ffee" (keys 3) minted := by
  have hsigned : minted.signed = [signedOutput 0 76] := rfl
  refine history_recoverable minted_run derivable ?_ ?_ ?_
  · rw [hsigned]
    intro x hx
    rw [List.mem_singleton.1 hx]
    exact ⟨rfl, by decide, by decide⟩
  · intro e he
    rw [List.mem_singleton.1 he]
    exact issue_honest minted_indices minted_genuine
  · intro e he
    rw [List.mem_singleton.1 he]
    refine ⟨fun x hx _ => ?_, fun x hx _ => ?_, fun x hx y hy _ _ => ?_⟩
    · cases hx
      exact .inl (by decide)
    · rw [List.mem_singleton.1 hx]
      decide
    · rw [List.mem_singleton.1 hx, List.mem_singleton.1 hy]

/-- After a rejected mint of 64 outputs the mint signs index 64, and the first restore of a fresh wallet returns 0. -/
theorem beyond_unrecoverable : Run IssueStep start beyondHistory beyond ∧
    (∀ e ∈ beyondHistory, SignsHonestly "00c0ffee" (keys 3) e) ∧ ¬ Recoverable "00c0ffee" (keys 3) beyond := by
  have hrejected : rejected.wallet.seed = [1] := rejected_step.seed
  have hbeyond : beyond.wallet.seed = [1] := Run.wallet_seed beyond_run
  refine ⟨beyond_run, fun e he => ?_, fun hall => ?_⟩
  · rcases List.mem_pair.1 he with rfl | rfl
    · exact ⟨by simp [IssueAct.signs], by rintro _ _ _ _ _ ⟨⟩ -; exact .inl rfl⟩
    · exact issue_honest beyond_indices (by rw [hrejected]; exact beyond_genuine)
  · rcases hrun : (restore "00c0ffee" (keys 3)).run restoring fresh with ⟨o, t⟩
    obtain ⟨rfl, hempty⟩ := restoring_nothing.elim hrun
    have hmint : HonestRestore restoring beyond.wallet.seed beyond.signed := by
      rw [hbeyond]
      exact restoring_honest
    have hfresh : fresh.wallet = .new none beyond.wallet.seed := by
      rw [hbeyond]
      rfl
    obtain ⟨p, hp, -⟩ := (hall restoring fresh hmint hfresh).2 t (.done hrun) (signedOutput 64 125)
      (List.mem_singleton.2 rfl) rfl
    rw [hempty] at hp
    cases hp

end toy

end Micronuts
