import Micronuts.Wallet.Recovery

/-!
# No index is signed twice

The counter moves past the indices of a request before the request leaves, but the store learns of it only with the next
save. A wallet opened again from an older blob starts over at indices that the mint may have signed. It has caught up
on a keyset when a restore of the keyset has gone through against a mint that answers in full, with nothing in flight
and the window past what was signed. When no output of a keyset leaves the wallet before that, no index is signed
twice.
-/

namespace Micronuts
open Exec

section
variable [Crypto] [Curve]

/-! ### Catching up -/

/-- The wallet is opened with a smaller counter than it was closed with. -/
def LosesCounter (e : Step IssueWorld IssueAct) : Prop :=
  e.act = .reopen ∧ e.post.wallet.counter < e.pre.wallet.counter

/-- The mint answers a restore for every output of the keyset that it has signed. -/
def AnswersInFull (env : WalletEnv) (keysetId : String) (s : IssueWorld) : Prop :=
  ∀ outputs response, env.postRestore ⟨outputs⟩ = .ok response → ∀ x ∈ s.signed, x.keysetId = keysetId →
    ∀ d, deriveOutput s.wallet.seed x.keysetId x.index = .ok d → d.blinded ∈ outputs →
      ∃ out ∈ response.outputs, out.y = d.blinded

structure CatchesUp (keysetId : String) (e : Step IssueWorld IssueAct) : Prop where
  restores : ∃ env mintKeys signs, e.act = .call env keysetId mintKeys .restore signs ∧
    AnswersInFull env keysetId e.pre ∧ ((restore keysetId mintKeys).run env e.pre.toWalletWorld).1.isOk = true
  settled : ∀ k ∈ e.pre.inFlight, k.1 ≠ keysetId
  window : ∀ x ∈ e.pre.signed, x.keysetId = keysetId → x.index < saturatingAdd e.pre.wallet.counter restoreHeadroom

def CaughtUp (keysetId : String) (h : List (Step IssueWorld IssueAct)) : Prop :=
  ∀ h₁ e h₂, h = h₁ ++ e :: h₂ → LosesCounter e → ∃ e' ∈ h₂, CatchesUp keysetId e'

/-- What a call asks for and scans stays below `N`, and a call asks for outputs only where the wallet has caught up. -/
structure CarefulStep (keysets : Set String) (N : Nat) (h : List (Step IssueWorld IssueAct))
    (e : Step IssueWorld IssueAct) : Prop where
  asks : ∀ env K keys call signs, e.act = .call env K keys call signs →
    requestedIndices e.pre.toWalletWorld e.post.toWalletWorld ≠ [] →
      K ∈ keysets ∧ e.pre.wallet.counter.toNat + call.amounts.length ≤ N ∧ CaughtUp K h
  scans : ∀ env K keys signs, e.act = .call env K keys .restore signs →
    K ∈ keysets ∧ (saturatingAdd e.pre.wallet.counter restoreHeadroom).toNat ≤ N

def Careful (keysets : Set String) (N : Nat) (h : List (Step IssueWorld IssueAct)) : Prop :=
  ∀ h₁ e h₂, h = h₁ ++ e :: h₂ → CarefulStep keysets N h₁ e

/-- The mint has signed what a mint, a swap or a melt credits. -/
def RecordsCredited (e : Step IssueWorld IssueAct) : Prop :=
  ∀ env K keys call signs, e.act = .call env K keys call signs →
    ∀ p ∈ creditedProofs e.pre.toWalletWorld e.post.toWalletWorld call, ∃ x ∈ signs, ∃ d,
      deriveOutput e.pre.wallet.seed K x.index = .ok d ∧ d.secretHex = p.secret

theorem CaughtUp.snoc {keysetId : String} {h : List (Step IssueWorld IssueAct)} {e : Step IssueWorld IssueAct}
    (hup : CaughtUp keysetId (h ++ [e])) : CatchesUp keysetId e ∨ CaughtUp keysetId h ∧ ¬ LosesCounter e := by
  by_cases hcatch : CatchesUp keysetId e
  · exact .inl hcatch
  · refine .inr ⟨fun h₁ e₁ h₂ heq hloses => ?_, fun hloses => ?_⟩
    · obtain ⟨e', he', hcatches⟩ := hup h₁ e₁ (h₂ ++ [e]) (by rw [heq]; simp) hloses
      rcases List.mem_append.1 he' with he' | he'
      · exact ⟨e', he', hcatches⟩
      · rw [List.mem_singleton.1 he'] at hcatches
        exact absurd hcatches hcatch
    · obtain ⟨e', he', -⟩ := hup h e [] rfl hloses
      cases he'

/-! ### The invariant -/

/-- The proofs are those of distinct indices below the counter. -/
structure HeldBelow (seed : List UInt8) (keysets : Set String) (counter : UInt32) (proofs : List Proof) : Prop where
  nodup : (proofs.map Proof.secret).Nodup
  below : ∀ p ∈ proofs, ∃ K ∈ keysets, ∃ i d, i.toNat < counter.toNat ∧ deriveOutput seed K i = .ok d ∧
    d.secretHex = p.secret

/-- The outputs that the mint has signed or may still sign. -/
def IssueWorld.keys (s : IssueWorld) : List (String × UInt32) := s.signed.map SignedOutput.key ++ s.inFlight

structure WalletSafe (seed : List UInt8) (keysets : Set String) (N : Nat) (w : WalletWorld) : Prop where
  seeded : w.wallet.seed = seed ∧ w.wallet.seedId = seedFingerprint seed
  bound : w.wallet.counter.toNat ≤ N
  memory : HeldBelow seed keysets w.wallet.counter w.wallet.proofs
  store : ∀ b, w.blob = some b → openEnvelope b (seedFingerprint seed) = some (b.counter, b.proofs) ∧
    b.counter.toNat ≤ w.wallet.counter.toNat ∧ HeldBelow seed keysets b.counter b.proofs

structure IndicesSafe (seed : List UInt8) (keysets : Set String) (N : Nat) (h : List (Step IssueWorld IssueAct))
    (s : IssueWorld) : Prop where
  wallet : WalletSafe seed keysets N s.toWalletWorld
  known : ∀ k ∈ s.keys, k.1 ∈ keysets ∧ k.2.toNat < N
  nodup : s.keys.Nodup
  credited : s.credited.Nodup ∧ ∀ c ∈ s.credited, ∃ x ∈ s.signed, ∃ d,
    deriveOutput seed x.keysetId x.index = .ok d ∧ d.secretHex = c
  fresh : ∀ K, CaughtUp K h → ∀ k ∈ s.keys, k.1 = K → k.2.toNat < s.wallet.counter.toNat

/-! ### What a call credits -/

section call
variable {env : WalletEnv} {seed : List UInt8} {keysetId : String} {mintKeys : KeySet} {keysets : Set String} {N : Nat}
  {w t : WalletWorld} {amounts : List UInt64} {c : UInt32} {derived : List DerivedOutput} {proofs : List Proof}

theorem Derives.exists_index (h : Derives seed keysetId c derived) {d : DerivedOutput} (hd : d ∈ derived) :
    ∃ i ∈ indicesFrom c derived.length, deriveOutput seed keysetId i = .ok d := by
  induction derived generalizing c with
  | nil => cases hd
  | cons d' derived ih =>
    rcases List.mem_cons.1 hd with rfl | hd
    · exact ⟨c, List.mem_cons_self .., h.1⟩
    · obtain ⟨i, hi, hid⟩ := ih h.2 hd
      exact ⟨i, List.mem_cons_of_mem _ hi, hid⟩

theorem Derives.secrets_nodup (hdistinct : DistinctOutputs seed keysets N) (hK : keysetId ∈ keysets) (hN : N < 2 ^ 32)
    (hc : c.toNat + derived.length ≤ N) (h : Derives seed keysetId c derived) :
    (derived.map DerivedOutput.secretHex).Nodup := by
  induction derived generalizing c with
  | nil => exact List.nodup_nil
  | cons d derived ih =>
    rw [List.length_cons] at hc
    have hsucc := @toNat_succ c (by omega)
    have hc' : (c + 1).toNat + derived.length ≤ N := by omega
    refine List.nodup_cons.2 ⟨fun hmem => ?_, ih hc' h.2⟩
    obtain ⟨d', hd', hsecret⟩ := List.mem_map.1 hmem
    obtain ⟨i, hi, hid⟩ := h.2.exists_index hd'
    obtain ⟨hge, hlt⟩ := mem_indicesFrom (by omega) hi
    obtain ⟨-, heq⟩ := hdistinct.secret _ hK _ hK i c (by omega) (by omega) d' d hid h.1 hsecret
    rw [heq] at hge
    omega

/-- An issuing call leaves the wallet as it is, or moves its counter past the request and credits derived secrets. -/
structure Issued (w t : WalletWorld) (keysetId : String) (amounts : List UInt64) (derived : List DerivedOutput)
    (kept new : List Proof) : Prop where
  indices : requestedIndices w t = indicesFrom w.wallet.counter amounts.length
  derives : Derives w.wallet.seed keysetId w.wallet.counter derived
  length : derived.length = amounts.length
  old : kept.Sublist w.wallet.proofs
  secrets : ∃ n, new.map Proof.secret = (derived.take n).map DerivedOutput.secretHex
  wallet : t.wallet = { w.wallet with
    counter := saturatingAdd w.wallet.counter (UInt32.ofNat amounts.length), proofs := kept ++ new }
  blob : t.blob = w.blob ∨ t.blob = some t.wallet.envelope

theorem IssueEnds.issued {α : Type} {o : Outcome CashuError α} (h : IssueEnds env keysetId mintKeys amounts w o t) :
    t = w ∨ ∃ derived kept new, Issued w t keysetId amounts derived kept new := by
  rcases h with - | ⟨hsends, -⟩ | ⟨hsends, hkept, hsecrets, -, hsaves⟩
  · exact .inl rfl
  · refine .inr ⟨_, w.wallet.proofs, [], ?_, hsends.1, hsends.2.1, List.Sublist.refl _, ⟨0, rfl⟩, ?_, .inl rfl⟩
    · rw [requestedIndices_of_sent_cons rfl, hsends.length, hsends.2.1]
    · rw [List.append_nil, ← hsends.2.1]
      rfl
  · obtain ⟨hwallet, hsent⟩ := hsaves.world
    refine .inr ⟨_, _, _, ?_, hsends.1, hsends.2.1, hkept, ⟨_, hsecrets⟩, ?_, hsaves.blob.2.1⟩
    · rw [requestedIndices_of_sent_cons hsent, hsends.length, hsends.2.1]
    · rw [hwallet, ← hsends.2.1]
      rfl

theorem Issued.counter {kept new : List Proof} (h : Issued w t keysetId amounts derived kept new) (hN : N < 2 ^ 32)
    (hc : w.wallet.counter.toNat + amounts.length ≤ N) :
    t.wallet.counter.toNat = w.wallet.counter.toNat + amounts.length := by
  have hlen : (UInt32.ofNat amounts.length).toNat = amounts.length :=
    UInt32.toNat_ofNat_of_lt' (by simp only [UInt32.size]; omega)
  rw [h.wallet, saturatingAdd_toNat, hlen]
  omega

/-- The new proofs are those of indices that were not below the counter. -/
theorem HeldBelow.issue {kept new : List Proof} (hheld : HeldBelow w.wallet.seed keysets w.wallet.counter w.wallet.proofs)
    (h : Issued w t keysetId amounts derived kept new) (hdistinct : DistinctOutputs w.wallet.seed keysets N)
    (hN : N < 2 ^ 32) (hK : amounts ≠ [] → keysetId ∈ keysets)
    (hc : w.wallet.counter.toNat + amounts.length ≤ N) :
    HeldBelow w.wallet.seed keysets t.wallet.counter t.wallet.proofs := by
  have hcounter := h.counter hN hc
  have hlen := h.length
  obtain ⟨n, hsecrets⟩ := h.secrets
  have hproofs : t.wallet.proofs = kept ++ new := by rw [h.wallet]
  have hnew : ∀ s ∈ new.map Proof.secret, keysetId ∈ keysets ∧ ∃ i d,
      w.wallet.counter.toNat ≤ i.toNat ∧ i.toNat < t.wallet.counter.toNat ∧
        deriveOutput w.wallet.seed keysetId i = .ok d ∧ d.secretHex = s := by
    intro s hs
    rw [hsecrets] at hs
    obtain ⟨d, hd, rfl⟩ := List.mem_map.1 hs
    have hd := List.mem_of_mem_take hd
    obtain ⟨i, hi, hid⟩ := h.derives.exists_index hd
    obtain ⟨hge, hlt⟩ := mem_indicesFrom (by omega) hi
    refine ⟨hK ?_, i, d, hge, by omega, hid, rfl⟩
    rintro rfl
    rw [List.length_nil] at hlen
    rw [List.eq_nil_of_length_eq_zero hlen] at hd
    cases hd
  rw [hproofs]
  constructor
  · rw [List.map_append, List.nodup_append]
    refine ⟨hheld.nodup.sublist (h.old.map _), ?_, fun a ha b hb hab => ?_⟩
    · rw [hsecrets]
      by_cases hnone : amounts = []
      · subst hnone
        rw [List.eq_nil_of_length_eq_zero hlen, List.take_nil]
        exact List.nodup_nil
      · rw [List.map_take]
        exact (h.derives.secrets_nodup hdistinct (hK hnone) hN (by omega)).sublist (List.take_sublist _ _)
    · subst hab
      obtain ⟨p, hp, rfl⟩ := List.mem_map.1 ha
      obtain ⟨K, hKs, i, d, hi, hd, hsecret⟩ := hheld.below p (h.old.subset hp)
      obtain ⟨hkeyset, j, d', hge, hlt, hd', hsecret'⟩ := hnew _ hb
      obtain ⟨-, heq⟩ := hdistinct.secret _ hKs _ hkeyset i j (by omega) (by omega) d d' hd hd'
        (hsecret.trans hsecret'.symm)
      rw [heq] at hi
      omega
  · intro p hp
    rcases List.mem_append.1 hp with hp | hp
    · obtain ⟨K, hKs, i, d, hi, hrest⟩ := hheld.below p (h.old.subset hp)
      exact ⟨K, hKs, i, d, by omega, hrest⟩
    · obtain ⟨hkeyset, i, d, -, hlt, hrest⟩ := hnew p.secret (List.mem_map_of_mem hp)
      exact ⟨keysetId, hkeyset, i, d, hlt, hrest⟩

/-! ### What a restore credits -/

section restored
variable {response : RestoreResponse} {acc : Restored}

theorem maxIdx_lt (hscan : scanOutputs w.wallet.seed keysetId (saturatingAdd w.wallet.counter restoreHeadroom) = .ok derived)
    (hfinds : Finds w mintKeys derived response.outputs acc) :
    ∀ m, acc.maxIdx = some m → m < saturatingAdd w.wallet.counter restoreHeadroom := by
  intro m hm
  obtain ⟨out, -, d, hrow⟩ := hfinds.finding.maxIdx m hm
  exact (of_lookup_byBlinded hscan hrow).1

/-- A restored proof is that of an index below the new counter. -/
theorem restored_below
    (hscan : scanOutputs w.wallet.seed keysetId (saturatingAdd w.wallet.counter restoreHeadroom) = .ok derived)
    (hfinds : Finds w mintKeys derived response.outputs acc) {p : Proof} (hp : p ∈ acc.proofs) :
    ∃ i d, i.toNat < ((w.scanned derived).restored acc).wallet.counter.toNat ∧
      deriveOutput w.wallet.seed keysetId i = .ok d ∧ d.secretHex = p.secret := by
  obtain ⟨out, -, idx, m, ⟨d, key, c, hrow, -, -, rfl⟩, hm, hle⟩ := hfinds.finding.answers p hp
  obtain ⟨-, -, -, hnext⟩ := @restored_counter _ w derived acc (maxIdx_lt hscan hfinds)
  have hlt := (hnext m hm).1
  exact ⟨idx, d, by omega, (of_lookup_byBlinded hscan hrow).2.1, rfl⟩

theorem HeldBelow.restore (hheld : HeldBelow w.wallet.seed keysets w.wallet.counter w.wallet.proofs)
    (hscan : scanOutputs w.wallet.seed keysetId (saturatingAdd w.wallet.counter restoreHeadroom) = .ok derived)
    (hfinds : Finds w mintKeys derived response.outputs acc) (hK : keysetId ∈ keysets) :
    HeldBelow w.wallet.seed keysets ((w.scanned derived).restored acc).wallet.counter
      ((w.scanned derived).restored acc).wallet.proofs := by
  obtain ⟨hge, -⟩ := @restored_counter _ w derived acc (maxIdx_lt hscan hfinds)
  constructor
  · show ((w.wallet.proofs ++ acc.proofs).map Proof.secret).Nodup
    rw [List.map_append, List.nodup_append]
    refine ⟨hheld.nodup, hfinds.finding.nodup, fun a ha b hb hab => ?_⟩
    subst hab
    obtain ⟨p, hp, rfl⟩ := List.mem_map.1 hb
    exact hfinds.finding.new p hp ha
  · intro p hp
    rcases List.mem_append.1 hp with hp | hp
    · obtain ⟨K, hKs, i, d, hi, hrest⟩ := hheld.below p hp
      exact ⟨K, hKs, i, d, by omega, hrest⟩
    · exact ⟨keysetId, hK, restored_below hscan hfinds hp⟩

/-- Against a mint that answers in full the counter goes past everything signed in the window. -/
theorem signed_below_restored {s : IssueWorld} (hheld : HeldBelow s.wallet.seed keysets s.wallet.counter s.wallet.proofs)
    (hscan : scanOutputs s.wallet.seed keysetId (saturatingAdd s.wallet.counter restoreHeadroom) = .ok derived)
    (hpost : env.postRestore ⟨derived.map DerivedOutput.blinded⟩ = .ok response)
    (hfinds : Finds s.toWalletWorld mintKeys derived response.outputs acc) (hK : keysetId ∈ keysets)
    (hdistinct : DistinctOutputs s.wallet.seed keysets N)
    (hend : (saturatingAdd s.wallet.counter restoreHeadroom).toNat ≤ N) (hfull : AnswersInFull env keysetId s)
    {x : SignedOutput} (hx : x ∈ s.signed) (hxK : x.keysetId = keysetId)
    (hwindow : x.index < saturatingAdd s.wallet.counter restoreHeadroom) :
    x.index.toNat < ((s.toWalletWorld.scanned derived).restored acc).wallet.counter.toNat := by
  obtain ⟨hge, hle, -, -⟩ := @restored_counter _ s.toWalletWorld derived acc (maxIdx_lt hscan hfinds)
  have hlt := UInt32.lt_iff_toNat_lt.1 hwindow
  have hheld' := hheld.restore hscan hfinds hK
  have hd := List.getElem?_eq_getElem (l := derived) (i := x.index.toNat) (by rw [scanOutputs_length hscan]; exact hlt)
  have hdx := ((scanOutputs_get hscan).1 hd).2
  rw [UInt32.ofNat_toNat] at hdx
  subst hxK
  have hrow := lookup_byBlinded hscan hdistinct hK hend hwindow hdx
  obtain ⟨out, hout, hy⟩ := hfull _ _ hpost x hx rfl _ hdx (List.mem_map_of_mem (List.mem_of_getElem? hd))
  rw [← hy] at hrow
  have hknown := (hfinds.finding.known _).1 (hfinds.finding.seen out hout _ _ hrow)
  obtain ⟨p, hp, hsecret⟩ : ∃ p ∈ s.wallet.proofs ++ acc.proofs, p.secret = _ := by
    rw [← List.mem_append, ← List.map_append] at hknown
    exact List.mem_map.1 hknown
  obtain ⟨K, hKs, i, d', hi, hd', hsecret'⟩ := hheld'.below p hp
  obtain ⟨-, heq⟩ := hdistinct.secret _ hKs _ hK i x.index (by omega) (by omega) d' _ hd' hdx
    (hsecret'.trans hsecret)
  rwa [← heq]

end restored

/-! ### The wallet -/

/-- A wallet that moves on, with a blob that is the old one or the whole wallet. -/
theorem WalletSafe.moved (hw : WalletSafe seed keysets N w)
    (hseed : t.wallet.seed = w.wallet.seed ∧ t.wallet.seedId = w.wallet.seedId) (hbound : t.wallet.counter.toNat ≤ N)
    (hge : w.wallet.counter.toNat ≤ t.wallet.counter.toNat) (hheld : HeldBelow seed keysets t.wallet.counter t.wallet.proofs)
    (hblob : t.blob = w.blob ∨ t.blob = some t.wallet.envelope) : WalletSafe seed keysets N t where
  seeded := by rw [hseed.1, hseed.2]; exact hw.seeded
  bound := hbound
  memory := hheld
  store := fun b hb => by
    rcases hblob with hblob | hblob
    · obtain ⟨hopen, hle, hheldb⟩ := hw.store b (hblob ▸ hb)
      exact ⟨hopen, hle.trans hge, hheldb⟩
    · rw [hblob] at hb
      cases hb
      refine ⟨if_neg ?_, le_refl _, hheld⟩
      rintro (hversion | hid)
      · exact hversion rfl
      · exact hid (hseed.2.trans hw.seeded.2)

theorem WalletSafe.issue {kept new : List Proof} (hw : WalletSafe w.wallet.seed keysets N w)
    (h : Issued w t keysetId amounts derived kept new) (hdistinct : DistinctOutputs w.wallet.seed keysets N)
    (hN : N < 2 ^ 32) (hK : amounts ≠ [] → keysetId ∈ keysets) (hc : w.wallet.counter.toNat + amounts.length ≤ N) :
    WalletSafe w.wallet.seed keysets N t := by
  have hcounter := h.counter hN hc
  refine hw.moved ?_ (by omega) (by omega) (hw.memory.issue h hdistinct hN hK hc) h.blob
  rw [h.wallet]
  exact ⟨rfl, rfl⟩

theorem WalletSafe.restore {o : Outcome CashuError Nat} (hw : WalletSafe w.wallet.seed keysets N w)
    (h : RestoreEnds env keysetId mintKeys w o t) (hK : keysetId ∈ keysets)
    (hend : (saturatingAdd w.wallet.counter restoreHeadroom).toNat ≤ N) :
    WalletSafe w.wallet.seed keysets N t ∧ w.wallet.counter.toNat ≤ t.wallet.counter.toNat := by
  rcases h with - | - | @⟨_, derived, response, acc, hscan, -, hfinds, -, -, hsaves⟩
  · exact ⟨hw, le_refl _⟩
  · exact ⟨hw.moved ⟨rfl, rfl⟩ hw.bound (le_refl _) hw.memory (.inl rfl), le_refl _⟩
  · obtain ⟨hge, hle, -, -⟩ := @restored_counter _ w derived acc (maxIdx_lt hscan hfinds)
    have hheld := hw.memory.restore hscan hfinds hK
    split at hsaves
    · obtain ⟨hwallet, hblob, -⟩ := hsaves.blob
      refine ⟨hw.moved ?_ ?_ ?_ ?_ hblob, ?_⟩ <;> rw [hwallet]
      · exact ⟨rfl, rfl⟩
      · omega
      · exact hge
      · exact hheld
      · exact hge
    · obtain ⟨-, rfl⟩ := hsaves
      exact ⟨hw.moved ⟨rfl, rfl⟩ (by omega) hge hheld (.inl rfl), hge⟩

theorem WalletSafe.reopen (hw : WalletSafe seed keysets N w) :
    WalletSafe seed keysets N w.reopen ∧ w.reopen.wallet.counter.toNat ≤ w.wallet.counter.toNat := by
  obtain ⟨hseed, hid⟩ := hw.seeded
  rcases hblob : w.blob with - | b
  · have hnew : w.reopen.wallet = ⟨seed, seedFingerprint seed, 0, []⟩ := by
      rw [WalletWorld.reopen, hblob, hseed]
      rfl
    refine ⟨⟨by rw [hnew]; exact ⟨rfl, rfl⟩, by rw [hnew]; exact Nat.zero_le _, ?_, fun b hb => ?_⟩, ?_⟩
    · rw [hnew]
      exact ⟨List.nodup_nil, by simp⟩
    · rw [show w.reopen.blob = none from hblob] at hb
      cases hb
    · rw [hnew]
      exact Nat.zero_le _
  · obtain ⟨hopen, hle, hheld⟩ := hw.store b hblob
    have hnew : w.reopen.wallet = ⟨seed, seedFingerprint seed, b.counter, b.proofs⟩ := by
      rw [WalletWorld.reopen, hblob, hseed]
      show PersistentWallet.new (some b) seed = _
      simp only [PersistentWallet.new, Option.bind_some, hopen, Option.getD_some]
    refine ⟨⟨by rw [hnew]; exact ⟨rfl, rfl⟩, by rw [hnew]; exact hle.trans hw.bound, by rw [hnew]; exact hheld,
      fun b' hb => ?_⟩, by rw [hnew]; exact hle⟩
    rw [show w.reopen.blob = some b from hblob] at hb
    cases hb
    exact ⟨hopen, by rw [hnew], hheld⟩

end call

/-! ### The steps -/

section steps
variable {seed : List UInt8} {keysets : Set String} {N : Nat} {h : List (Step IssueWorld IssueAct)} {s : IssueWorld}

omit [Curve] in
/-- A call adds the indices that it asks for. -/
theorem IssueWorld.keys_afterCall {t : WalletWorld} {keysetId : String} {call : WalletCall} {signs : List SignedOutput}
    (hpart : (signs.map SignedOutput.key).Sublist ((requestedIndices s.toWalletWorld t).map (keysetId, ·))) :
    (s.afterCall t keysetId call signs).keys.Perm ((requestedIndices s.toWalletWorld t).map (keysetId, ·) ++ s.keys) := by
  have hdiff := List.subperm_append_diff_self_of_count_le fun k _ => hpart.count_le k
  show ((signs ++ s.signed).map SignedOutput.key ++ (((requestedIndices s.toWalletWorld t).map (keysetId, ·)).diff
    (signs.map SignedOutput.key) ++ s.inFlight)).Perm _
  rw [List.map_append, List.append_assoc]
  refine ((List.perm_append_comm_assoc ..).append_left _).trans ?_
  rw [← List.append_assoc]
  exact hdiff.append_right _

omit [Curve] in
theorem IssueWorld.keys_sign {x : SignedOutput} (hsent : x.key ∈ s.inFlight) :
    ({ s with inFlight := s.inFlight.erase x.key, signed := x :: s.signed } : IssueWorld).keys.Perm s.keys := by
  show (x.key :: (s.signed.map SignedOutput.key ++ s.inFlight.erase x.key)).Perm _
  refine List.perm_middle.symm.trans ?_
  exact (List.perm_cons_erase hsent).symm.append_left _

/-- The indices that a call asks for are those between the old counter and the new one. -/
structure AsksFresh (seed : List UInt8) (keysets : Set String) (N : Nat) (keysetId : String) (w t : WalletWorld) :
    Prop where
  wallet : WalletSafe seed keysets N t
  grows : w.wallet.counter.toNat ≤ t.wallet.counter.toNat
  nodup : (requestedIndices w t).Nodup
  indices : ∀ i ∈ requestedIndices w t,
    keysetId ∈ keysets ∧ w.wallet.counter.toNat ≤ i.toNat ∧ i.toNat < t.wallet.counter.toNat

theorem IssueEnds.asksFresh {env : WalletEnv} {keysetId : String} {mintKeys : KeySet} {amounts : List UInt64}
    {w t : WalletWorld} {o : Outcome CashuError Unit} (hw : WalletSafe w.wallet.seed keysets N w)
    (hdistinct : DistinctOutputs w.wallet.seed keysets N) (hN : N < 2 ^ 32)
    (hends : IssueEnds env keysetId mintKeys amounts w o t)
    (hasks : requestedIndices w t ≠ [] → keysetId ∈ keysets ∧ w.wallet.counter.toNat + amounts.length ≤ N) :
    AsksFresh w.wallet.seed keysets N keysetId w t := by
  rcases hends.issued with rfl | ⟨derived, kept, new, h⟩
  · have hnone : requestedIndices t t = [] := requestedIndices_of_sent_eq rfl
    exact ⟨hw, le_refl _, by rw [hnone]; exact List.nodup_nil, by rw [hnone]; simp⟩
  · have hpos : amounts ≠ [] → requestedIndices w t ≠ [] := by
      rw [h.indices]
      rcases amounts with - | ⟨a, amounts⟩
      · intro hne
        exact absurd rfl hne
      · simp [indicesFrom]
    have hc : w.wallet.counter.toNat + amounts.length ≤ N := by
      by_cases hnone : amounts = []
      · rw [hnone]
        exact hw.bound
      · exact (hasks (hpos hnone)).2
    have hcounter := h.counter hN hc
    refine ⟨hw.issue h hdistinct hN (fun hne => (hasks (hpos hne)).1) hc, by omega, ?_, fun i hi => ?_⟩
    · rw [h.indices]
      exact indicesFrom_nodup (by omega)
    · refine ⟨(hasks (List.ne_nil_of_mem hi)).1, ?_⟩
      rw [h.indices] at hi
      have := mem_indicesFrom (by omega) hi
      omega

omit [Curve] in
theorem creditedProofs_sublist (w t : WalletWorld) (call : WalletCall) :
    (creditedProofs w t call).Sublist t.wallet.proofs := by
  rcases call with - | - | - | -
  · exact List.filter_sublist
  · exact List.filter_sublist
  · exact List.filter_sublist
  · exact List.nil_sublist _

/-- A call whose indices are fresh, and that moves the counter past the keysets on which it has caught up. -/
theorem IndicesSafe.call {env : WalletEnv} {keysetId : String} {mintKeys : KeySet} {call : WalletCall}
    {signs : List SignedOutput} {t : WalletWorld} {h' : List (Step IssueWorld IssueAct)}
    (hs : IndicesSafe s.wallet.seed keysets N h s) (hdistinct : DistinctOutputs s.wallet.seed keysets N)
    (hasks : AsksFresh s.wallet.seed keysets N keysetId s.toWalletWorld t)
    (hpart : (signs.map SignedOutput.key).Sublist ((requestedIndices s.toWalletWorld t).map (keysetId, ·)))
    (hup : requestedIndices s.toWalletWorld t ≠ [] → CaughtUp keysetId h)
    (hrecords : RecordsCredited ⟨s, .call env keysetId mintKeys call signs, s.afterCall t keysetId call signs⟩)
    (hfresh : ∀ K, CaughtUp K h' → ∀ k ∈ s.keys, k.1 = K → k.2.toNat < t.wallet.counter.toNat) :
    IndicesSafe s.wallet.seed keysets N h' (s.afterCall t keysetId call signs) := by
  have hperm : (s.afterCall t keysetId call signs).keys.Perm _ := IssueWorld.keys_afterCall hpart
  have hbound := hasks.wallet.bound
  have hapart : ∀ i ∈ requestedIndices s.toWalletWorld t, (keysetId, i) ∉ s.keys := by
    intro i hi hmem
    have hbelow : i.toNat < s.wallet.counter.toNat := hs.fresh keysetId (hup (List.ne_nil_of_mem hi)) _ hmem rfl
    have hge := (hasks.indices i hi).2.1
    omega
  have hsigns : ∀ x ∈ signs, x.keysetId = keysetId ∧ x.index ∈ requestedIndices s.toWalletWorld t := by
    intro x hx
    obtain ⟨i, hi, heq⟩ := List.mem_map.1 (hpart.subset (List.mem_map_of_mem hx))
    obtain ⟨hK, hidx⟩ := Prod.mk.inj heq
    exact ⟨hK.symm, hidx ▸ hi⟩
  have hcredits : ∀ c ∈ (creditedProofs s.toWalletWorld t call).map Proof.secret, ∃ x ∈ signs, ∃ d,
      deriveOutput s.wallet.seed x.keysetId x.index = .ok d ∧ d.secretHex = c := by
    intro c hc
    obtain ⟨p, hp, rfl⟩ := List.mem_map.1 hc
    obtain ⟨x, hx, d, hd, hsecret⟩ := hrecords _ _ _ _ _ rfl p hp
    refine ⟨x, hx, d, ?_, hsecret⟩
    rw [(hsigns x hx).1]
    exact hd
  refine ⟨hasks.wallet, fun k hk => ?_, hperm.nodup_iff.2 ?_, ⟨?_, fun c hc => ?_⟩, fun K hK k hk hkK => ?_⟩
  · rcases List.mem_append.1 (hperm.mem_iff.1 hk) with hk | hk
    · obtain ⟨i, hi, rfl⟩ := List.mem_map.1 hk
      obtain ⟨hkeyset, -, hlt⟩ := hasks.indices i hi
      exact ⟨hkeyset, hlt.trans_le hbound⟩
    · exact hs.known k hk
  · refine List.nodup_append.2 ⟨hasks.nodup.map (Prod.mk_right_injective keysetId), hs.nodup, ?_⟩
    rintro _ hk _ hk' rfl
    obtain ⟨i, hi, rfl⟩ := List.mem_map.1 hk
    exact hapart i hi hk'
  · show ((creditedProofs s.toWalletWorld t call).map Proof.secret ++ s.credited).Nodup
    refine List.nodup_append.2 ⟨?_, hs.credited.1, ?_⟩
    · exact hasks.wallet.memory.nodup.sublist ((creditedProofs_sublist ..).map _)
    · rintro c hc _ hc' rfl
      obtain ⟨x, hx, d, hd, hsecret⟩ := hcredits c hc
      obtain ⟨y, hy, d', hd', hsecret'⟩ := hs.credited.2 c hc'
      obtain ⟨hK, hi⟩ := hsigns x hx
      have hy' : y.key ∈ s.keys := List.mem_append_left _ (List.mem_map_of_mem hy)
      obtain ⟨hyK, hyN⟩ := hs.known _ hy'
      obtain ⟨hkeyset, -, hlt⟩ := hasks.indices _ hi
      obtain ⟨hKy, hiy⟩ := hdistinct.secret _ (hK ▸ hkeyset) _ hyK x.index y.index (by omega) hyN d d' hd hd'
        (hsecret.trans hsecret'.symm)
      refine hapart _ hi ?_
      rw [← hK, hKy, hiy]
      exact hy'
  · rcases List.mem_append.1 hc with hc | hc
    · obtain ⟨x, hx, hrest⟩ := hcredits c hc
      exact ⟨x, List.mem_append_left _ hx, hrest⟩
    · obtain ⟨x, hx, hrest⟩ := hs.credited.2 c hc
      exact ⟨x, List.mem_append_right _ hx, hrest⟩
  · rcases List.mem_append.1 (hperm.mem_iff.1 hk) with hk | hk
    · obtain ⟨i, hi, rfl⟩ := List.mem_map.1 hk
      exact (hasks.indices i hi).2.2
    · exact hfresh K hK k hk hkK

theorem CatchesUp.not_issue {env : WalletEnv} {K keysetId : String} {mintKeys : KeySet} {call : WalletCall}
    {signs : List SignedOutput} {s s' : IssueWorld} (hcall : call ≠ .restore) :
    ¬ CatchesUp K ⟨s, .call env keysetId mintKeys call signs, s'⟩ := by
  rintro ⟨⟨_, _, _, hact, -⟩, -, -⟩
  cases hact
  exact hcall rfl

/-- A restore that catches up brings the counter past all that the mint has signed for the keyset. -/
theorem CatchesUp.below {env : WalletEnv} {K keysetId : String} {mintKeys : KeySet} {signs : List SignedOutput}
    {t : WalletWorld} {s' : IssueWorld} {o : Outcome CashuError Nat} (hs : IndicesSafe s.wallet.seed keysets N h s)
    (hdistinct : DistinctOutputs s.wallet.seed keysets N)
    (hscans : keysetId ∈ keysets ∧ (saturatingAdd s.wallet.counter restoreHeadroom).toNat ≤ N)
    (hrun : (restore keysetId mintKeys).run env s.toWalletWorld = (o, t))
    (hcatch : CatchesUp K ⟨s, .call env keysetId mintKeys .restore signs, s'⟩) {k : String × UInt32} (hk : k ∈ s.keys)
    (hkK : k.1 = K) : k.2.toNat < t.wallet.counter.toNat := by
  obtain ⟨⟨_, _, _, hact, hfull, hok⟩, hsettled, hwindow⟩ := hcatch
  cases hact
  rw [hrun] at hok
  rcases List.mem_append.1 hk with hsigned | hflight
  · obtain ⟨x, hx, rfl⟩ := List.mem_map.1 hsigned
    have hends := restore_ends.elim hrun
    rcases hends with ⟨-, hstop⟩ | ⟨-, -, hstop⟩ | @⟨_, derived, response, acc, hscan, hpost, hfinds, -, -, hsaves⟩
    · rw [hstop] at hok; cases hok
    · rw [hstop] at hok; cases hok
    · have hbelow := signed_below_restored hs.wallet.memory hscan hpost hfinds hscans.1 hdistinct hscans.2 hfull hx hkK
        (hwindow x hx hkK)
      split at hsaves
      · rw [hsaves.world.1]
        exact hbelow
      · rw [hsaves.2]
        exact hbelow
  · exact absurd hkK (hsettled k hflight)

theorem restore_exec_world (env : WalletEnv) (keysetId : String) (mintKeys : KeySet) (w : WalletWorld) :
    ((WalletCall.restore.exec keysetId mintKeys).run env w).2 = ((restore keysetId mintKeys).run env w).2 := by
  rw [WalletCall.exec, run_bind]
  rcases (restore keysetId mintKeys).run env w with ⟨n | e | -, t⟩ <;> rfl

theorem IndicesSafe.step {a : IssueAct} {s' : IssueWorld} (hs : IndicesSafe s.wallet.seed keysets N h s)
    (hdistinct : DistinctOutputs s.wallet.seed keysets N) (hN : N < 2 ^ 32) (hstep : IssueStep s a s')
    (hcareful : CarefulStep keysets N h ⟨s, a, s'⟩) (hrecords : RecordsCredited ⟨s, a, s'⟩) :
    IndicesSafe s.wallet.seed keysets N (h ++ [⟨s, a, s'⟩]) s' := by
  have hquiet : (∀ K, ¬ CatchesUp K ⟨s, a, s'⟩) → ∀ K, CaughtUp K (h ++ [⟨s, a, s'⟩]) →
      CaughtUp K h ∧ ¬ LosesCounter ⟨s, a, s'⟩ := fun hnot K hup => hup.snoc.resolve_left (hnot K)
  rcases hstep with @⟨t, env, K, keys, call, signs, o, hexec, hpart⟩ | @⟨x, hsent⟩ | @⟨k, hsent⟩ | -
  · rcases (walletCall_ends call).elim hexec with ⟨hcall, hends⟩ | ⟨hends⟩
    · have hasks := hends.asksFresh hs.wallet hdistinct hN fun hne => by
        obtain ⟨hkeyset, hc, -⟩ := hcareful.asks _ _ _ _ _ rfl hne
        exact ⟨hkeyset, hc⟩
      refine hs.call hdistinct hasks hpart (fun hne => (hcareful.asks _ _ _ _ _ rfl hne).2.2) hrecords ?_
      intro K' hup k hk hkK
      have hold := hs.fresh K' (hquiet (fun K => CatchesUp.not_issue hcall) K' hup).1 k hk hkK
      exact hold.trans_le hasks.grows
    · obtain ⟨o', hrun⟩ : ∃ o', (restore K keys).run env s.toWalletWorld = (o', t) :=
        ⟨_, Prod.ext rfl ((restore_exec_world ..).symm.trans (congrArg Prod.snd hexec))⟩
      have hscans := hcareful.scans _ _ _ _ rfl
      obtain ⟨hwallet, hgrows⟩ := hs.wallet.restore (restore_ends.elim hrun) hscans.1 hscans.2
      have hnone := (restore_ends.elim hrun).requests.2
      have hasks : AsksFresh s.wallet.seed keysets N K s.toWalletWorld t :=
        ⟨hwallet, hgrows, by rw [hnone]; exact List.nodup_nil, by rw [hnone]; simp⟩
      refine hs.call hdistinct hasks hpart (fun hne => absurd hnone hne) hrecords fun K' hup k hk hkK => ?_
      rcases hup.snoc with hcatch | ⟨hold, -⟩
      · exact hcatch.below hs hdistinct hscans hrun hk hkK
      · exact (hs.fresh K' hold k hk hkK).trans_le hgrows
  · have hperm := IssueWorld.keys_sign hsent
    have hquiet := hquiet fun K hcatch => by obtain ⟨⟨_, _, _, hact, -⟩, -, -⟩ := hcatch; cases hact
    refine ⟨hs.wallet, fun k hk => hs.known k (hperm.mem_iff.1 hk), hperm.nodup_iff.2 hs.nodup, ⟨hs.credited.1, ?_⟩,
      fun K hup k hk => hs.fresh K (hquiet K hup).1 k (hperm.mem_iff.1 hk)⟩
    intro c hc
    obtain ⟨y, hy, hrest⟩ := hs.credited.2 c hc
    exact ⟨y, List.mem_cons_of_mem _ hy, hrest⟩
  · have hsub : ({ s with inFlight := s.inFlight.erase k } : IssueWorld).keys.Sublist s.keys :=
      List.erase_sublist.append_left _
    have hquiet := hquiet fun K hcatch => by obtain ⟨⟨_, _, _, hact, -⟩, -, -⟩ := hcatch; cases hact
    exact ⟨hs.wallet, fun k hk => hs.known k (hsub.subset hk), hs.nodup.sublist hsub, hs.credited,
      fun K hup k hk => hs.fresh K (hquiet K hup).1 k (hsub.subset hk)⟩
  · obtain ⟨hwallet, hle⟩ := hs.wallet.reopen
    have hquiet := hquiet fun K hcatch => by obtain ⟨⟨_, _, _, hact, -⟩, -, -⟩ := hcatch; cases hact
    refine ⟨hwallet, hs.known, hs.nodup, hs.credited, fun K hup k hk hkK => ?_⟩
    obtain ⟨hold, hkept⟩ := hquiet K hup
    have hbelow := hs.fresh K hold k hk hkK
    by_contra hge
    exact hkept ⟨rfl, UInt32.lt_iff_toNat_lt.2 ((not_lt.1 hge).trans_lt hbelow)⟩

end steps

/-! ### Runs -/

/-- The indices of a request count up from the counter, and the counter ends past them. -/
def CountsUp (e : Step IssueWorld IssueAct) : Prop :=
  ∀ env K keys call signs, e.act = .call env K keys call signs →
    (requestedIndices e.pre.toWalletWorld e.post.toWalletWorld).map UInt32.toNat =
        List.range' e.pre.wallet.counter.toNat (requestedIndices e.pre.toWalletWorld e.post.toWalletWorld).length ∧
      e.pre.wallet.counter.toNat + (requestedIndices e.pre.toWalletWorld e.post.toWalletWorld).length ≤
        e.post.wallet.counter.toNat

section runs
variable {seed : List UInt8} {keysets : Set String} {N : Nat} {h : List (Step IssueWorld IssueAct)} {s s' : IssueWorld}

theorem IssueStep.countsUp {a : IssueAct} (hstep : IssueStep s a s') (hs : IndicesSafe s.wallet.seed keysets N h s)
    (hN : N < 2 ^ 32) (hcareful : CarefulStep keysets N h ⟨s, a, s'⟩) : CountsUp ⟨s, a, s'⟩ := by
  intro env K keys call signs hact
  rcases hstep with @⟨t, env, K, keys, call, signs, o, hexec, -⟩ | - | - | -
  · cases hact
    rcases (walletCall_ends call).elim hexec with ⟨hcall, hends⟩ | ⟨hends⟩
    · have hasks := hcareful.asks _ _ _ _ _ rfl
      rw [IssueWorld.afterCall_toWalletWorld] at hasks ⊢
      show _ = List.range' s.wallet.counter.toNat _ ∧ s.wallet.counter.toNat + _ ≤ t.wallet.counter.toNat
      rcases hends.issued with rfl | ⟨derived, kept, new, h⟩
      · rw [requestedIndices_of_sent_eq rfl]
        exact ⟨rfl, le_refl _⟩
      · rw [h.indices] at hasks ⊢
        rw [indicesFrom_length]
        have hc : s.wallet.counter.toNat + call.amounts.length ≤ N := by
          rcases hlen : call.amounts.length with - | n
          · exact hs.wallet.bound
          · rw [hlen] at hasks
            exact (hasks (by simp [indicesFrom])).2.1
        exact ⟨indicesFrom_toNat (by omega), (h.counter hN hc).ge⟩
    · obtain ⟨hK, hend⟩ := hcareful.scans _ _ _ _ rfl
      rw [IssueWorld.afterCall_toWalletWorld, hends.requests.2]
      exact ⟨rfl, (hs.wallet.restore hends hK hend).2⟩
  · cases hact
  · cases hact
  · cases hact

theorem IndicesSafe.start (seed : List UInt8) : IndicesSafe seed keysets N [] (.start seed) where
  wallet :=
    { seeded := ⟨rfl, rfl⟩
      bound := Nat.zero_le _
      memory := ⟨List.nodup_nil, fun p hp => by cases hp⟩
      store := fun b hb => by cases hb }
  known := fun k hk => by cases hk
  nodup := List.nodup_nil
  credited := ⟨List.nodup_nil, fun c hc => by cases hc⟩
  fresh := fun K _ k hk => by cases hk

/-- In a run in which the wallet catches up before it asks again, no index is signed twice, or is both signed and in flight;
no secret is credited twice by mint, swap or melt, and none is held twice. -/
theorem no_index_signed_twice (hrun : Run IssueStep (.start seed) h s) (hdistinct : DistinctOutputs seed keysets N)
    (hN : N < 2 ^ 32) (hcareful : Careful keysets N h) (hrecords : ∀ e ∈ h, RecordsCredited e) :
    (s.signed.map SignedOutput.key ++ s.inFlight).Nodup ∧ s.credited.Nodup ∧ (s.wallet.proofs.map Proof.secret).Nodup ∧
      (s.stored.map Proof.secret).Nodup ∧ ∀ e ∈ h, CountsUp e := by
  have hsafe : s.wallet.seed = seed ∧ IndicesSafe s.wallet.seed keysets N h s ∧ ∀ e ∈ h, CountsUp e := by
    refine hrun.invariant (P := fun h => Careful keysets N h ∧ ∀ e ∈ h, RecordsCredited e)
      (I := fun h s => s.wallet.seed = seed ∧ IndicesSafe s.wallet.seed keysets N h s ∧ ∀ e ∈ h, CountsUp e)
      ((Run.PrefixClosed.forall_split _).and (Run.PrefixClosed.forall_mem _)) ⟨rfl, .start seed, by simp⟩ ?_
      ⟨hcareful, hrecords⟩
    rintro h s a s' - ⟨hcareful, hrecords⟩ ⟨rfl, hs, hcounts⟩ hstep
    have hcareful := hcareful h _ [] rfl
    have hs' := hs.step hdistinct hN hstep hcareful (hrecords _ (by simp))
    rw [← hstep.seed] at hs' ⊢
    refine ⟨rfl, hs', fun e he => ?_⟩
    rcases List.mem_append.1 he with he | he
    · exact hcounts e he
    · rw [List.mem_singleton.1 he]
      exact hstep.countsUp hs hN hcareful
  obtain ⟨rfl, hs, hcounts⟩ := hsafe
  refine ⟨hs.nodup, hs.credited.1, hs.wallet.memory.nodup, ?_, hcounts⟩
  unfold WalletWorld.stored
  rcases hblob : s.blob with - | b
  · exact List.nodup_nil
  · exact (hs.wallet.store b hblob).2.2.nodup

end runs

end

section toy
open Toy32

namespace Toy32

/-- What a step credits is the proof of its one output. -/
theorem issue_records {env : WalletEnv} {call : WalletCall} {s : IssueWorld} {i : UInt32} {b : UInt8} {d : DerivedOutput}
    (hd : deriveOutput s.wallet.seed "00c0ffee" i = .ok d)
    (hcredited : ∀ p ∈ creditedProofs s.toWalletWorld (issue env call s) call, d.secretHex = p.secret) :
    RecordsCredited ⟨s, .call env "00c0ffee" (keys 3) call [signedOutput i b],
      s.afterCall (issue env call s) "00c0ffee" call [signedOutput i b]⟩ := by
  rintro _ _ _ _ _ ⟨⟩ p hp
  exact ⟨_, List.mem_singleton.2 rfl, d, hd, hcredited p hp⟩

theorem minted_credited : ∀ p ∈ creditedProofs start.toWalletWorld (issue (env .saved) (.mint "q" 1) start) (.mint "q" 1),
    "0000000000000000000000000000000000000000000000000000000000000009" = p.secret := by
  unfold issue
  decide +kernel

/-- The mint signs, and its response is lost. -/
def losing : WalletEnv := { env .saved with postMint := fun _ => .error (.transport "timed out") }

def lost : IssueWorld :=
  start.afterCall (issue losing (.mint "q" 1) start) "00c0ffee" (.mint "q" 1) [signedOutput 0 76]

/-- Then the wallet is opened again over its store, which is empty. -/
def reopened : IssueWorld := { lost with toWalletWorld := lost.toWalletWorld.reopen }

/-- A mint of 1 for another quote. -/
def reused : IssueWorld :=
  reopened.afterCall (issue (env .saved) (.mint "r" 1) reopened) "00c0ffee" (.mint "r" 1) [signedOutput 0 76]

def reusedHistory : List (Step IssueWorld IssueAct) :=
  [⟨start, .call losing "00c0ffee" (keys 3) (.mint "q" 1) [signedOutput 0 76], lost⟩, ⟨lost, .reopen, reopened⟩,
    ⟨reopened, .call (env .saved) "00c0ffee" (keys 3) (.mint "r" 1) [signedOutput 0 76], reused⟩]

theorem lost_indices : requestedIndices start.toWalletWorld (issue losing (.mint "q" 1) start) = [0] := by
  unfold issue
  decide +kernel

theorem reused_indices :
    requestedIndices reopened.toWalletWorld (issue (env .saved) (.mint "r" 1) reopened) = [0] := by
  unfold reopened lost issue
  decide +kernel

theorem reused_run : Run IssueStep start reusedHistory reused :=
  ((Run.nil.snoc (issue_step _ _ start (signed_part lost_indices))).snoc .reopen).snoc
    (issue_step _ _ reopened (signed_part reused_indices))

end Toy32

theorem no_index_signed_twice_toy : (minted.signed.map SignedOutput.key ++ minted.inFlight).Nodup ∧ minted.credited.Nodup ∧
    (minted.wallet.proofs.map Proof.secret).Nodup ∧ (minted.stored.map Proof.secret).Nodup ∧
      ∀ e ∈ mintedHistory, CountsUp e := by
  refine no_index_signed_twice minted_run derivable.distinct (by decide) ?_ fun e he => ?_
  · rintro h₁ e h₂ hsplit
    obtain ⟨rfl, rfl, rfl⟩ : h₁ = [] ∧ e = _ ∧ h₂ = [] := by
      rcases h₁ with - | ⟨a, h₁⟩
      · obtain ⟨he, hnil⟩ := List.cons.inj hsplit
        exact ⟨rfl, he.symm, hnil.symm⟩
      · obtain ⟨-, hnil⟩ := List.cons.inj hsplit
        exact absurd hnil.symm (by simp)
    refine ⟨?_, ?_⟩
    · rintro _ _ _ _ _ ⟨⟩ -
      refine ⟨rfl, by decide, fun h₁ e h₂ hsplit => ?_⟩
      exact absurd hsplit.symm (by simp)
    · rintro _ _ _ _ ⟨⟩
  · rw [List.mem_singleton.1 he]
    exact issue_records first_output minted_credited

/-- Two mints are signed at index 0. -/
theorem reused_twice : Run IssueStep start reusedHistory reused ∧ ¬ (reused.signed.map SignedOutput.key).Nodup := by
  refine ⟨reused_run, fun hnodup => ?_⟩
  have htwice : [("00c0ffee", (0 : UInt32)), ("00c0ffee", 0)].Nodup := hnodup
  simp at htwice

end toy

end Micronuts
