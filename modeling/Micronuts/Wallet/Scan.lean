import Micronuts.Wallet.Credits

/-!
# What a restore finds

A restore derives the outputs below its window, asks the mint for their signatures, and makes a proof of every answer
whose secret the wallet does not hold. `Finding` is what its loop knows after the answers `seen` so far.
-/

namespace Micronuts
open Exec

theorem max_eq_ite (a b : UInt32) : max a b = if a ≤ b then b else a := rfl

theorem toNat_max (a b : UInt32) : (max a b).toNat = max a.toNat b.toNat := by
  rw [max_eq_ite]
  split
  · next h => rw [max_eq_right (UInt32.le_iff_toNat_le.1 h)]
  · next h =>
    rw [UInt32.le_iff_toNat_le] at h
    rw [max_eq_left (by omega)]

section
variable [Crypto]

/-! ### Distinct outputs -/

section distinct
variable [Curve]

/-- No two indices below `N` of these keysets give the same secret or the same blinded message. -/
structure DistinctOutputs (seed : List UInt8) (keysets : Set String) (N : Nat) : Prop where
  secret : ∀ K ∈ keysets, ∀ K' ∈ keysets, ∀ i j : UInt32, i.toNat < N → j.toNat < N → ∀ d d',
    deriveOutput seed K i = .ok d → deriveOutput seed K' j = .ok d' → d.secretHex = d'.secretHex → K = K' ∧ i = j
  blinded : ∀ K ∈ keysets, ∀ K' ∈ keysets, ∀ i j : UInt32, i.toNat < N → j.toNat < N → ∀ d d',
    deriveOutput seed K i = .ok d → deriveOutput seed K' j = .ok d' → d.blinded = d'.blinded → K = K' ∧ i = j

variable {seed : List UInt8} {keysetId : String} {keysets : Set String} {N : Nat} {end_ : UInt32}
  {derived : List DerivedOutput}

theorem scanOutputs_length (h : scanOutputs seed keysetId end_ = .ok derived) : derived.length = end_.toNat := by
  rw [← (Except.mapM_eq_ok.1 h).length_eq, List.length_range]

/-- The outputs that a restore asks for are those of one scan. -/
theorem scanOutputs_unique {end' : UInt32} {derived' : List DerivedOutput}
    (h : scanOutputs seed keysetId end_ = .ok derived) (h' : scanOutputs seed keysetId end' = .ok derived')
    (hasked : derived.map DerivedOutput.blinded = derived'.map DerivedOutput.blinded) : derived = derived' := by
  have hlength := congrArg List.length hasked
  rw [List.length_map, List.length_map, scanOutputs_length h, scanOutputs_length h'] at hlength
  obtain rfl := UInt32.toNat_inj.1 hlength
  exact Except.ok.inj (h.symm.trans h')

theorem scanOutputs_get {i : Nat} {d : DerivedOutput} (h : scanOutputs seed keysetId end_ = .ok derived) :
    derived[i]? = some d ↔ i < end_.toNat ∧ deriveOutput seed keysetId (UInt32.ofNat i) = .ok d := by
  have hall := List.forall₂_iff_get.1 (Except.mapM_eq_ok.1 h)
  obtain ⟨hlen, hget⟩ := hall
  rw [List.length_range] at hlen
  constructor
  · intro hd
    obtain ⟨hi, rfl⟩ := List.getElem?_eq_some_iff.1 hd
    refine ⟨by omega, ?_⟩
    have := hget i (by rw [List.length_range]; omega) hi
    simpa using this
  · rintro ⟨hi, hd⟩
    have := hget i (by rw [List.length_range]; omega) (by omega)
    rw [List.get_eq_getElem, List.getElem_range, hd] at this
    rw [List.getElem?_eq_getElem (by omega)]
    exact congrArg some (Except.ok.inj this).symm

/-- One scan without repetitions shows its indices distinct. -/
theorem distinctOutputs_of_scan (hscan : scanOutputs seed keysetId end_ = .ok derived)
    (hsecret : (derived.map DerivedOutput.secretHex).Nodup) (hblinded : (derived.map DerivedOutput.blinded).Nodup) :
    DistinctOutputs seed {keysetId} end_.toNat := by
  have hat : ∀ i : UInt32, i.toNat < end_.toNat → ∀ d, deriveOutput seed keysetId i = .ok d →
      derived[i.toNat]? = some d := by
    intro i hi d hd
    exact (scanOutputs_get hscan).2 ⟨hi, by rwa [UInt32.ofNat_toNat]⟩
  have hinj : ∀ {α : Type} (f : DerivedOutput → α), (derived.map f).Nodup → ∀ i j : UInt32, i.toNat < end_.toNat →
      j.toNat < end_.toNat → ∀ d d', deriveOutput seed keysetId i = .ok d → deriveOutput seed keysetId j = .ok d' →
      f d = f d' → i = j := by
    intro α f hnodup i j hi hj d d' hd hd' heq
    have hdi := hat i hi d hd
    have hlen := scanOutputs_length hscan
    refine UInt32.toNat_inj.1 ((List.getElem?_inj (by rw [List.length_map]; omega) hnodup).1 ?_)
    rw [List.getElem?_map, List.getElem?_map, hdi, hat j hj d' hd', Option.map_some, Option.map_some, heq]
  constructor
  · rintro K hK K' hK' i j hi hj d d' hd hd' heq
    rw [Set.mem_singleton_iff] at hK hK'
    subst hK hK'
    exact ⟨rfl, hinj _ hsecret i j hi hj d d' hd hd' heq⟩
  · rintro K hK K' hK' i j hi hj d d' hd hd' heq
    rw [Set.mem_singleton_iff] at hK hK'
    subst hK hK'
    exact ⟨rfl, hinj _ hblinded i j hi hj d d' hd hd' heq⟩

theorem mem_blindedRows {hex : String} {idx : UInt32} {d : DerivedOutput}
    (hscan : scanOutputs seed keysetId end_ = .ok derived) :
    (hex, idx, d) ∈ blindedRows derived ↔
      idx < end_ ∧ deriveOutput seed keysetId idx = .ok d ∧ hex = pointHex d.blinded := by
  have hlen := scanOutputs_length hscan
  have hsize := end_.toNat_lt
  simp only [blindedRows, List.mem_map, Prod.exists, List.mem_zipIdx_iff_getElem?, Prod.mk.injEq]
  constructor
  · rintro ⟨d, i, hget, rfl, rfl, rfl⟩
    obtain ⟨hi, hd⟩ := (scanOutputs_get hscan).1 hget
    refine ⟨?_, hd, rfl⟩
    rw [UInt32.lt_iff_toNat_lt, UInt32.toNat_ofNat_of_lt' (by simp only [UInt32.size]; omega)]
    exact hi
  · rintro ⟨hlt, hd, rfl⟩
    refine ⟨d, idx.toNat, (scanOutputs_get hscan).2 ⟨UInt32.lt_iff_toNat_lt.1 hlt, ?_⟩, rfl, UInt32.ofNat_toNat, rfl⟩
    rw [UInt32.ofNat_toNat]
    exact hd

theorem of_lookup_byBlinded {y : PublicKey} {idx : UInt32} {d : DerivedOutput}
    (hscan : scanOutputs seed keysetId end_ = .ok derived)
    (h : (byBlinded derived).lookup (pointHex y) = some (idx, d)) :
    idx < end_ ∧ deriveOutput seed keysetId idx = .ok d ∧ y = d.blinded := by
  rcases Finmap.mem_of_lookup_insertAll h with hmem | hnone
  · obtain ⟨hlt, hd, hhex⟩ := (mem_blindedRows hscan).1 hmem
    exact ⟨hlt, hd, pointHex_injective hhex⟩
  · simp at hnone

theorem lookup_byBlinded {idx : UInt32} {d : DerivedOutput} (hscan : scanOutputs seed keysetId end_ = .ok derived)
    (hdistinct : DistinctOutputs seed keysets N) (hK : keysetId ∈ keysets) (hN : end_.toNat ≤ N) (hlt : idx < end_)
    (hd : deriveOutput seed keysetId idx = .ok d) :
    (byBlinded derived).lookup (pointHex d.blinded) = some (idx, d) := by
  refine Finmap.lookup_insertAll_of_mem ?_ ((mem_blindedRows hscan).2 ⟨hlt, hd, rfl⟩)
  have hsize := end_.toNat_lt
  rw [blindedRows, List.map_map]
  refine List.Nodup.map_on ?_ (List.Nodup.of_map Prod.snd (List.nodup_zipIdx_map_snd derived))
  rintro ⟨d, i⟩ hi ⟨d', j⟩ hj heq
  obtain ⟨hi, hd⟩ := (scanOutputs_get hscan).1 (List.mem_zipIdx_iff_getElem?.1 hi)
  obtain ⟨hj, hd'⟩ := (scanOutputs_get hscan).1 (List.mem_zipIdx_iff_getElem?.1 hj)
  have hnat : ∀ n < end_.toNat, (UInt32.ofNat n).toNat = n := fun n hn =>
    UInt32.toNat_ofNat_of_lt' (by simp only [UInt32.size]; omega)
  obtain ⟨-, hij⟩ := hdistinct.blinded _ hK _ hK _ _ (by rw [hnat i hi]; omega) (by rw [hnat j hj]; omega) d d' hd hd'
    (pointHex_injective heq)
  have hnij : i = j := by rw [← hnat i hi, ← hnat j hj, hij]
  subst hnij
  rw [hd] at hd'
  cases hd'
  rfl

end distinct

/-! ### The loop over the answers -/

/-- The proof that a signature and a derived output make, unblinded to `c`. -/
def restoredProof (sig : BlindSignature) (d : DerivedOutput) (c : PublicKey) : Proof where
  amount := sig.amount
  id := sig.id
  secret := d.secretHex
  c := c
  dleq := sig.dleq.map fun dleq => ⟨dleq.e, dleq.s, d.blinder⟩
  witness := none

section loop
variable [Curve] {rows : Finmap fun _ : String => UInt32 × DerivedOutput} {mintKeys : KeySet} {old : List String}

/-- `p` comes of the output's signature and of the derived output that it answers. -/
structure Answers (rows : Finmap fun _ : String => UInt32 × DerivedOutput) (mintKeys : KeySet) (out : RestoreOutput)
    (idx : UInt32) (p : Proof) : Prop where
  row : ∃ d key c, rows.lookup (pointHex out.y) = some (idx, d) ∧ mintKeys.pubkey out.signature.amount = some key ∧
    unblindSignature out.signature.c d.blinder key = some c ∧ p = restoredProof out.signature d c

/-- What the loop has made of the answers `seen`, for a wallet that held the secrets `old`. -/
structure Finding (rows : Finmap fun _ : String => UInt32 × DerivedOutput) (mintKeys : KeySet) (old : List String)
    (seen : List RestoreOutput) (acc : Restored) : Prop where
  known : ∀ s, s ∈ acc.known ↔ s ∈ old ∨ s ∈ acc.proofs.map Proof.secret
  nodup : (acc.proofs.map Proof.secret).Nodup
  new : ∀ p ∈ acc.proofs, p.secret ∉ old
  answers : ∀ p ∈ acc.proofs, ∃ out ∈ seen, ∃ idx m, Answers rows mintKeys out idx p ∧
    acc.maxIdx = some m ∧ idx.toNat ≤ m.toNat
  maxIdx : ∀ m, acc.maxIdx = some m → ∃ out ∈ seen, ∃ d, rows.lookup (pointHex out.y) = some (m, d)
  seen : ∀ out ∈ seen, ∀ idx d, rows.lookup (pointHex out.y) = some (idx, d) → d.secretHex ∈ acc.known
  added : acc.added = acc.proofs.length

theorem Finding.start : Finding rows mintKeys old [] ⟨old, [], 0, none⟩ where
  known := by simp
  nodup := List.nodup_nil
  new := by simp
  answers := by simp
  maxIdx := by simp
  seen := by simp
  added := rfl

/-- An answer that is passed over. -/
theorem Finding.skip {seen : List RestoreOutput} {acc : Restored} {out : RestoreOutput}
    (h : Finding rows mintKeys old seen acc)
    (hskip : ∀ idx d, rows.lookup (pointHex out.y) = some (idx, d) → d.secretHex ∈ acc.known) :
    Finding rows mintKeys old (seen ++ [out]) acc where
  known := h.known
  nodup := h.nodup
  new := h.new
  answers := fun p hp => by
    obtain ⟨out', hout', hrest⟩ := h.answers p hp
    exact ⟨out', List.mem_append_left _ hout', hrest⟩
  maxIdx := fun m hm => by
    obtain ⟨out', hout', hrest⟩ := h.maxIdx m hm
    exact ⟨out', List.mem_append_left _ hout', hrest⟩
  seen := fun out' hout' => by
    rcases List.mem_append.1 hout' with hout' | hout'
    · exact h.seen out' hout'
    · rw [List.mem_singleton.1 hout']; exact hskip
  added := h.added

/-- An answer whose proof is added. -/
theorem Finding.add {seen : List RestoreOutput} {acc : Restored} {out : RestoreOutput} {idx : UInt32}
    {d : DerivedOutput} {key c : PublicKey} (h : Finding rows mintKeys old seen acc)
    (hrow : rows.lookup (pointHex out.y) = some (idx, d)) (hkey : mintKeys.pubkey out.signature.amount = some key)
    (hc : unblindSignature out.signature.c d.blinder key = some c) (hnew : d.secretHex ∉ acc.known) :
    Finding rows mintKeys old (seen ++ [out])
      ⟨d.secretHex :: acc.known, acc.proofs ++ [restoredProof out.signature d c], acc.added + 1,
        some (acc.maxIdx.elim idx fun m => max m idx)⟩ := by
  have hnot := mt (h.known _).2 hnew
  rw [not_or] at hnot
  have hle : ∀ m, acc.maxIdx = some m → m.toNat ≤ (acc.maxIdx.elim idx fun m => max m idx).toNat := by
    intro m hm
    rw [hm, Option.elim_some, toNat_max]
    exact le_max_left ..
  have hidx : idx.toNat ≤ (acc.maxIdx.elim idx fun m => max m idx).toNat := by
    rcases acc.maxIdx with - | m
    · exact le_refl _
    · rw [Option.elim_some, toNat_max]
      exact le_max_right ..
  refine ⟨fun s => ?_, ?_, fun p hp => ?_, fun p hp => ?_, ?_, fun out' hout' => ?_, ?_⟩
  · rw [List.mem_cons, h.known s, List.map_append, List.mem_append]
    simp only [List.mem_map, List.map_singleton, List.mem_singleton, restoredProof]
    constructor
    · rintro (rfl | hold | hp)
      · exact .inr (.inr rfl)
      · exact .inl hold
      · exact .inr (.inl hp)
    · rintro (hold | hp | rfl)
      · exact .inr (.inl hold)
      · exact .inr (.inr hp)
      · exact .inl rfl
  · rw [List.map_append, List.nodup_append]
    refine ⟨h.nodup, by simp, fun a ha b hb => ?_⟩
    rw [List.map_singleton, List.mem_singleton] at hb
    subst hb
    rintro rfl
    exact hnot.2 ha
  · rcases List.mem_append.1 hp with hp | hp
    · exact h.new p hp
    · rw [List.mem_singleton.1 hp]
      exact hnot.1
  · rcases List.mem_append.1 hp with hp | hp
    · obtain ⟨out', hout', i, m, hanswers, hm, hi⟩ := h.answers p hp
      exact ⟨out', List.mem_append_left _ hout', i, _, hanswers, rfl, hi.trans (hle m hm)⟩
    · rw [List.mem_singleton.1 hp]
      exact ⟨out, by simp, idx, _, ⟨d, key, c, hrow, hkey, hc, rfl⟩, rfl, hidx⟩
  · rintro m hm
    obtain rfl := Option.some.inj hm
    rcases hmax : acc.maxIdx with - | m
    · exact ⟨out, by simp, d, hrow⟩
    · obtain ⟨out', hout', d', hrow'⟩ := h.maxIdx m hmax
      rw [Option.elim_some, max_eq_ite]
      split
      · exact ⟨out, by simp, d, hrow⟩
      · exact ⟨out', List.mem_append_left _ hout', d', hrow'⟩
  · rcases List.mem_append.1 hout' with hout' | hout'
    · exact fun i d' hrow' => List.mem_cons_of_mem _ (h.seen out' hout' i d' hrow')
    · rw [List.mem_singleton.1 hout']
      intro i d' hrow'
      rw [hrow] at hrow'
      cases hrow'
      exact List.mem_cons_self ..
  · rw [List.length_append, h.added]; rfl

theorem Finding.step {seen : List RestoreOutput} {acc acc' : Restored} {out : RestoreOutput}
    (h : Finding rows mintKeys old seen acc) (hstep : restoreOutput rows mintKeys acc out = .ok acc') :
    Finding rows mintKeys old (seen ++ [out]) acc' := by
  unfold restoreOutput at hstep
  split at hstep
  · next hrow =>
    cases hstep
    exact h.skip fun idx d h' => by rw [hrow] at h'; cases h'
  · next idx d hrow =>
    split at hstep
    · next hknown =>
      cases hstep
      refine h.skip fun i d' h' => ?_
      rw [hrow] at h'
      cases h'
      exact List.contains_iff_mem.1 hknown
    · next hknown =>
      obtain ⟨key, hkey, hstep⟩ := Except.bind_eq_ok.1 hstep
      obtain ⟨c, hc, hstep⟩ := Except.bind_eq_ok.1 hstep
      cases hstep
      exact h.add hrow (Except.okOr_eq_ok.1 hkey) (Except.okOr_eq_ok.1 hc) fun hmem =>
        hknown (List.contains_iff_mem.2 hmem)

theorem Finding.run {seen outputs : List RestoreOutput} {acc acc' : Restored}
    (h : Finding rows mintKeys old seen acc) (hrun : outputs.foldlM (restoreOutput rows mintKeys) acc = .ok acc') :
    Finding rows mintKeys old (seen ++ outputs) acc' := by
  induction outputs generalizing seen acc with
  | nil =>
    cases hrun
    rwa [List.append_nil]
  | cons out outputs ih =>
    rw [List.foldlM_cons] at hrun
    obtain ⟨mid, hmid, hrun⟩ := Except.bind_eq_ok.1 hrun
    rw [List.append_cons]
    exact ih (h.step hmid) hrun

theorem Finds.finding {w : WalletWorld} {derived : List DerivedOutput} {outputs : List RestoreOutput} {acc : Restored}
    (h : Finds w mintKeys derived outputs acc) :
    Finding (byBlinded derived) mintKeys (w.wallet.proofs.map Proof.secret) outputs acc := Finding.start.run h

/-- The loop ends when every answer to an output of the wallet unblinds. -/
theorem restoreOutputs_isOk {outputs : List RestoreOutput} (acc : Restored)
    (h : ∀ out ∈ outputs, ∀ idx d, rows.lookup (pointHex out.y) = some (idx, d) → ∃ p, Answers rows mintKeys out idx p) :
    ∃ acc', outputs.foldlM (restoreOutput rows mintKeys) acc = .ok acc' := by
  induction outputs generalizing acc with
  | nil => exact ⟨acc, rfl⟩
  | cons out outputs ih =>
    have hstep : ∃ mid, restoreOutput rows mintKeys acc out = .ok mid := by
      unfold restoreOutput
      split
      · exact ⟨_, rfl⟩
      · next idx d hrow =>
        split
        · exact ⟨_, rfl⟩
        · obtain ⟨p, d', key, c, hrow', hkey, hc, -⟩ := h out (List.mem_cons_self ..) idx d hrow
          rw [hrow] at hrow'
          cases hrow'
          exact ⟨_, Except.bind_eq_ok.2 ⟨key, Except.okOr_eq_ok.2 hkey,
            Except.bind_eq_ok.2 ⟨c, Except.okOr_eq_ok.2 hc, rfl⟩⟩⟩
    obtain ⟨mid, hmid⟩ := hstep
    obtain ⟨acc', hacc'⟩ := ih mid fun out hout => h out (List.mem_cons_of_mem _ hout)
    exact ⟨acc', by rw [List.foldlM_cons, hmid]; exact hacc'⟩

end loop

end

end Micronuts
