import Micronuts.Wallet.Selection

/-!
# How a swap of the wallet ends

`Lands` is all that a swap needs to come to something: indices for its outputs, an answer that unblinds, and proofs that
verify. A swap that does not land leaves the proofs and the store alone; one that does credits the proofs and saves
(`RotationEnds`). The amounts are those that were asked for.
-/

namespace Micronuts
open WalletM Exec

section
variable [Crypto]

/-- No index of an output is past the last one. -/
def IndicesFit (env : WalletEnv) (w : WalletWorld) (n : Nat) : Prop :=
  env.overflowChecks = true → ∀ i < n, w.wallet.counter.toNat + i % 2 ^ 32 < 2 ^ 32

variable [Curve]

/-! ### The outputs -/

/-- How the derivation of outputs ends, from index `k` of the amounts. -/
inductive OutputsEnd (env : WalletEnv) (keysetId : String) (amounts : List UInt64) (w : WalletWorld) (k : Nat) :
    Outcome CashuError (List BlindedMessage × List PendingOutput) → Prop
  | made {derived} (derives : Derives w.wallet.seed keysetId (w.wallet.counter + UInt32.ofNat k) derived)
      (count : derived.length = amounts.length)
      (fits : env.overflowChecks = true → ∀ i < amounts.length, w.wallet.counter.toNat + (k + i) % 2 ^ 32 < 2 ^ 32) :
      OutputsEnd env keysetId amounts w k (.ok (messagesOf keysetId amounts derived, pendingOf amounts derived))
  | underivable {e} (fails : ∀ derived, derived.length = amounts.length →
      ¬ Derives w.wallet.seed keysetId (w.wallet.counter + UInt32.ofNat k) derived) :
      OutputsEnd env keysetId amounts w k (.err e)
  | overflow (checks : env.overflowChecks = true) {i} (lt : i < amounts.length)
      (past : 2 ^ 32 ≤ w.wallet.counter.toNat + (k + i) % 2 ^ 32) : OutputsEnd env keysetId amounts w k .panic

section outputs
variable {env : WalletEnv} {w : WalletWorld} {keysetId : String}

omit [Crypto] [Curve] in
/-- The index of the next output. -/
theorem ofNat_succ (k : Nat) : UInt32.ofNat k + 1 = UInt32.ofNat (k + 1) := by
  rw [UInt32.ofNat_add]
  rfl

omit [Curve] in
theorem nextIndex_past {k : Nat} (h : env.overflowChecks = true ∧ 2 ^ 32 ≤ w.wallet.counter.toNat + k % 2 ^ 32) :
    (addU32 w.wallet.counter (UInt32.ofNat k)).run env w = (.panic, w) := by
  have hk : (UInt32.ofNat k).toNat = k % 2 ^ 32 := UInt32.toNat_ofNat
  simp only [run, addU32, hk]
  rw [if_pos h]

omit [Curve] in
theorem nextIndex_fits {k : Nat} (h : ¬ (env.overflowChecks = true ∧ 2 ^ 32 ≤ w.wallet.counter.toNat + k % 2 ^ 32)) :
    (addU32 w.wallet.counter (UInt32.ofNat k)).run env w = (.ok (w.wallet.counter + UInt32.ofNat k), w) := by
  have hk : (UInt32.ofNat k).toNat = k % 2 ^ 32 := UInt32.toNat_ofNat
  simp only [run, addU32, hk]
  rw [if_neg h]

theorem deterministicOutputsFrom_outputs (k : Nat) (amounts : List UInt64) :
    (deterministicOutputsFrom keysetId (UInt32.ofNat k) amounts).Ends env w
      fun o t => t = w ∧ OutputsEnd env keysetId amounts w k o := by
  induction amounts generalizing k with
  | nil =>
    have hnil : Derives w.wallet.seed keysetId (w.wallet.counter + UInt32.ofNat k) [] := trivial
    exact Ends.pure ⟨rfl, .made hnil rfl (by simp)⟩
  | cons amount amounts ih =>
    have hnext : w.wallet.counter + UInt32.ofNat k + 1 = w.wallet.counter + UInt32.ofNat (k + 1) := by
      rw [UInt32.add_assoc, ofNat_succ]
    refine bind_wallet ?_
    by_cases hpast : env.overflowChecks = true ∧ 2 ^ 32 ≤ w.wallet.counter.toNat + k % 2 ^ 32
    · refine Ends.of_run (run_bind_of_panic (nextIndex_past hpast)) ⟨rfl, ?_⟩
      exact .overflow hpast.1 (Nat.zero_lt_succ _) (by simpa using hpast.2)
    · refine Ends.bind_run (nextIndex_fits hpast) (Ends.bind_lift (fun d hd => ?_) fun e he => ⟨rfl, .underivable ?_⟩)
      · rw [ofNat_succ]
        refine Ends.bind (ih (k + 1)) ?_ ?_ ?_
        · rintro _ t ⟨rfl, @⟨derived, hderives, hcount, hfits⟩⟩
          have hcons : Derives t.wallet.seed keysetId (t.wallet.counter + UInt32.ofNat k) (d :: derived) :=
            ⟨hd, by rwa [hnext]⟩
          refine Ends.pure ⟨rfl, .made hcons (congrArg Nat.succ hcount) ?_⟩
          intro hchecks i hi
          rcases i with - | i
          · rw [Nat.add_zero]
            by_contra hlt
            exact hpast ⟨hchecks, by omega⟩
          · have := hfits hchecks i (by simpa using hi)
            rwa [Nat.add_right_comm, Nat.add_assoc] at this
        · rintro e t ⟨rfl, - | hfails⟩
          refine ⟨rfl, .underivable ?_⟩
          rintro (- | ⟨d', derived⟩) hlen hderives
          · cases hlen
          · exact hfails derived (Nat.succ.inj hlen) (hnext ▸ hderives.2)
        · rintro t ⟨rfl, - | - | ⟨hchecks, hi, hpast'⟩⟩
          refine ⟨rfl, .overflow hchecks (Nat.succ_lt_succ hi) ?_⟩
          rwa [Nat.add_right_comm, Nat.add_assoc] at hpast'
      · rintro (- | ⟨d, derived⟩) hlen hderives
        · cases hlen
        · exact absurd (he.symm.trans hderives.1) (by simp)

theorem deterministicOutputs_outputs (amounts : List UInt64) :
    (deterministicOutputs amounts keysetId).Ends env w fun o t => t = w ∧ OutputsEnd env keysetId amounts w 0 o :=
  deterministicOutputsFrom_outputs 0 amounts

end outputs

/-! ### The swap -/

/-- The swap comes to these proofs: its outputs have indices, the mint's answer unblinds, and the proofs verify. -/
structure Lands (env : WalletEnv) (keysetId : String) (mintKeys : KeySet) (w : WalletWorld) (inputs : List Proof)
    (amounts : List UInt64) (derived : List DerivedOutput) (fresh : List Proof) : Prop where
  nonempty : amounts ≠ []
  fits : IndicesFit env w amounts.length
  derives : Derives w.wallet.seed keysetId w.wallet.counter derived
  count : derived.length = amounts.length
  answered : ∃ response, env.postSwap ⟨inputs, messagesOf keysetId amounts derived⟩ = .ok response ∧
    unblindToProofs (pendingOf amounts derived) response.signatures mintKeys = .ok fresh
  verified : ∀ p ∈ fresh, Verified mintKeys p

/-- How a swap of `inputs` into outputs of `amounts` ends. -/
inductive RotationEnds (env : WalletEnv) (keysetId : String) (mintKeys : KeySet) (inputs : List Proof)
    (amounts : List UInt64) (w : WalletWorld) : Outcome CashuError (List Proof) → WalletWorld → Prop
  | refused {o} (stopped : o.isOk = false)
      (fails : ∀ derived fresh, ¬ Lands env keysetId mintKeys w inputs amounts derived fresh)
      (panics : o = .panic → ¬ IndicesFit env w amounts.length) : RotationEnds env keysetId mintKeys inputs amounts w o w
  | lost {e derived} (count : derived.length = amounts.length)
      (derives : Derives w.wallet.seed keysetId w.wallet.counter derived)
      (fails : ∀ derived fresh, ¬ Lands env keysetId mintKeys w inputs amounts derived fresh) :
      RotationEnds env keysetId mintKeys inputs amounts w (.err e)
        (w.request (.swap ⟨inputs, messagesOf keysetId amounts derived⟩) amounts.length)
  | credited {o t derived fresh} (lands : Lands env keysetId mintKeys w inputs amounts derived fresh)
      (value : ∀ ps, o = .ok ps → ps = fresh)
      (saves : Saves env ((w.request (.swap ⟨inputs, messagesOf keysetId amounts derived⟩) amounts.length).withProofs
        (w.wallet.proofs ++ fresh)) o t) : RotationEnds env keysetId mintKeys inputs amounts w o t

section swap
variable {env : WalletEnv} {w : WalletWorld} {keysetId : String} {mintKeys : KeySet} {inputs fresh : List Proof}
  {amounts : List UInt64} {derived : List DerivedOutput}

/-- The outputs of an index are those that its derivation gives. -/
theorem Derives.unique {seed : List UInt8} {idx : UInt32} {d d' : List DerivedOutput} (h : Derives seed keysetId idx d)
    (h' : Derives seed keysetId idx d') (hlen : d.length = d'.length) : d = d' := by
  induction d generalizing idx d' with
  | nil => exact (List.eq_nil_of_length_eq_zero hlen.symm).symm
  | cons x d ih =>
    rcases d' with - | ⟨x', d'⟩
    · cases hlen
    · obtain rfl : x = x' := Except.ok.inj (h.1.symm.trans h'.1)
      rw [ih h.2 h'.2 (Nat.succ.inj hlen)]

theorem unblindOne_amount {p : PendingOutput} {sig : BlindSignature} {proof : Proof}
    (h : unblindOne mintKeys p sig = .ok proof) : proof.amount = p.amount := by
  obtain ⟨_, -, h⟩ := Except.bind_eq_ok.1 h
  obtain ⟨_, -, h⟩ := Except.bind_eq_ok.1 h
  obtain ⟨_, -, h⟩ := Except.bind_eq_ok.1 h
  cases h
  rfl

theorem unblindToProofs_amounts {pending : List PendingOutput} {sigs : List BlindSignature}
    (h : unblindToProofs pending sigs mintKeys = .ok fresh) :
    fresh.map Proof.amount = pending.map PendingOutput.amount := by
  unfold unblindToProofs at h
  split at h
  · cases h
  · next hcount =>
    rw [not_not] at hcount
    have hall := Except.mapM_eq_ok.1 h
    have hamounts : fresh.map Proof.amount = (pending.zip sigs).map fun x => x.1.amount := by
      clear h
      generalize pending.zip sigs = pairs at hall ⊢
      induction hall with
      | nil => rfl
      | cons hone _ ih => rw [List.map_cons, List.map_cons, ih, unblindOne_amount hone]
    have hzip : ((pending.zip sigs).map fun x => x.1.amount) =
        ((pending.zip sigs).map Prod.fst).map PendingOutput.amount := by
      rw [List.map_map]
      rfl
    rw [hamounts, hzip, List.map_fst_zip (by omega)]

omit [Curve] in
theorem pendingOf_amounts (h : derived.length = amounts.length) :
    (pendingOf amounts derived).map PendingOutput.amount = amounts := by
  rw [pendingOf, List.map_map]
  exact List.map_fst_zip (by omega)

theorem Lands.amounts_eq (h : Lands env keysetId mintKeys w inputs amounts derived fresh) :
    fresh.map Proof.amount = amounts := by
  obtain ⟨response, -, hunblind⟩ := h.answered
  rw [unblindToProofs_amounts hunblind, pendingOf_amounts h.count]

theorem Lands.value (h : Lands env keysetId mintKeys w inputs amounts derived fresh) :
    proofsValue fresh = (amounts.map UInt64.toNat).sum := by
  rw [← h.amounts_eq, List.map_map]
  rfl

theorem Lands.secrets (h : Lands env keysetId mintKeys w inputs amounts derived fresh) :
    fresh.map Proof.secret = derived.map DerivedOutput.secretHex := by
  obtain ⟨response, -, hunblind⟩ := h.answered
  exact unblindToProofs_secrets h.count hunblind

/-- The answer of the mint settles what a swap lands with. -/
theorem Lands.unique {derived' : List DerivedOutput} {fresh' : List Proof}
    (h : Lands env keysetId mintKeys w inputs amounts derived fresh)
    (h' : Lands env keysetId mintKeys w inputs amounts derived' fresh') : derived = derived' ∧ fresh = fresh' := by
  obtain rfl : derived = derived' := h.derives.unique h'.derives (h.count.trans h'.count.symm)
  obtain ⟨response, hresponse, hunblind⟩ := h.answered
  obtain ⟨response', hresponse', hunblind'⟩ := h'.answered
  obtain rfl := Except.ok.inj (hresponse.symm.trans hresponse')
  exact ⟨rfl, Except.ok.inj (hunblind.symm.trans hunblind')⟩

theorem swapDeterministic_rotates :
    (swapDeterministic inputs amounts keysetId mintKeys).Ends env w
      (RotationEnds env keysetId mintKeys inputs amounts w) := by
  refine Ends.bind_failIf (fun hne => ?_) fun hempty => .refused rfl (fun _ _ hlands => hlands.nonempty hempty) (by simp)
  refine Ends.bind (deterministicOutputs_outputs amounts) ?_ ?_ ?_
  · rintro _ t ⟨rfl, @⟨derived, hderives, hcount, hfits⟩⟩
    have hzero : t.wallet.counter + UInt32.ofNat 0 = t.wallet.counter := UInt32.add_zero ..
    simp only [Nat.zero_add, hzero] at hderives hfits
    have hpending : (pendingOf amounts derived).length = amounts.length := (pendingOf_length hcount).trans hcount
    -- any proofs that the swap could land with come from this answer
    have hanswer : ∀ {d fresh}, Lands env keysetId mintKeys t inputs amounts d fresh → ∃ response,
        env.postSwap ⟨inputs, messagesOf keysetId amounts derived⟩ = .ok response ∧
          unblindToProofs (pendingOf amounts derived) response.signatures mintKeys = .ok fresh := by
      intro d fresh h
      obtain rfl : d = derived := h.derives.unique hderives (h.count.trans hcount.symm)
      exact h.answered
    simp only [advanceCounter, hpending]
    refine bind_modifyWallet (bind_post (fun response hresponse => ?_) fun e he => .lost hcount hderives ?_)
    · refine Ends.bind_lift (fun fresh hfresh => ?_) fun e he => .lost hcount hderives ?_
      · refine Ends.bind_lift (fun _ hverify => bind_modifyWallet ?_) fun e he => .lost hcount hderives ?_
        · have hlands : Lands env keysetId mintKeys t inputs amounts derived fresh :=
            ⟨hne, hfits, hderives, hcount, ⟨response, hresponse, hfresh⟩, verifyFresh_eq_ok.1 hverify⟩
          exact ((saves_ends fresh).and (saves_value fresh)).mono fun o t h => .credited hlands h.2 h.1
        · intro d fresh' hlands
          obtain ⟨response', hresponse', hfresh'⟩ := hanswer hlands
          obtain rfl := Except.ok.inj (hresponse.symm.trans hresponse')
          obtain rfl := Except.ok.inj (hfresh.symm.trans hfresh')
          cases he.symm.trans (verifyFresh_eq_ok.2 hlands.verified)
      · intro d fresh' hlands
        obtain ⟨response', hresponse', hfresh'⟩ := hanswer hlands
        obtain rfl := Except.ok.inj (hresponse.symm.trans hresponse')
        cases he.symm.trans hfresh'
    · intro d fresh' hlands
      obtain ⟨response', hresponse', -⟩ := hanswer hlands
      cases he.symm.trans hresponse'
  · rintro e t ⟨rfl, - | hfails⟩
    have hzero : t.wallet.counter + UInt32.ofNat 0 = t.wallet.counter := UInt32.add_zero ..
    rw [hzero] at hfails
    exact .refused rfl (fun d _ hlands => hfails d hlands.count hlands.derives) (by simp)
  · rintro t ⟨rfl, - | - | ⟨hchecks, hi, hpast⟩⟩
    have hnot : ¬ IndicesFit env t amounts.length := by
      intro hfits
      have := hfits hchecks _ hi
      rw [Nat.zero_add] at hpast
      omega
    exact .refused rfl (fun _ _ hlands => hnot hlands.fits) fun _ => hnot

end swap

/-! ### Indices past the last one -/

/-- From index `k` of `n` outputs on, one that can be reached is past the last index. -/
def PastLast (env : WalletEnv) (w : WalletWorld) (keysetId : String) (k n : Nat) : Prop :=
  env.overflowChecks = true ∧ ∃ i < n, 2 ^ 32 ≤ w.wallet.counter.toNat + (k + i) % 2 ^ 32 ∧
    ∃ derived : List DerivedOutput, derived.length = i ∧
      Derives w.wallet.seed keysetId (w.wallet.counter + UInt32.ofNat k) derived

section indices
variable {env : WalletEnv} {w : WalletWorld} {keysetId : String} {k n : Nat}

theorem pastLast_succ {d : DerivedOutput}
    (hd : deriveOutput w.wallet.seed keysetId (w.wallet.counter + UInt32.ofNat k) = .ok d)
    (hfits : ¬ (env.overflowChecks = true ∧ 2 ^ 32 ≤ w.wallet.counter.toNat + k % 2 ^ 32)) :
    PastLast env w keysetId k (n + 1) ↔ PastLast env w keysetId (k + 1) n := by
  have hnext : w.wallet.counter + UInt32.ofNat k + 1 = w.wallet.counter + UInt32.ofNat (k + 1) := by
    rw [UInt32.add_assoc, ofNat_succ]
  constructor
  · rintro ⟨hchecks, i, hi, hpast, derived, hlen, hderives⟩
    rcases derived with - | ⟨d', derived⟩
    · obtain rfl : i = 0 := hlen.symm
      exact absurd ⟨hchecks, hpast⟩ hfits
    · obtain rfl : i = derived.length + 1 := hlen.symm
      refine ⟨hchecks, derived.length, by omega, ?_, derived, rfl, hnext ▸ hderives.2⟩
      rwa [Nat.add_assoc, Nat.add_comm 1]
  · rintro ⟨hchecks, i, hi, hpast, derived, hlen, hderives⟩
    refine ⟨hchecks, i + 1, by omega, ?_, d :: derived, by rw [List.length_cons, hlen], hd, ?_⟩
    · rwa [Nat.add_assoc, Nat.add_comm 1] at hpast
    · rwa [hnext]

theorem IndicesFit.not_pastLast (h : IndicesFit env w n) : ¬ PastLast env w keysetId 0 n := by
  rintro ⟨hchecks, i, hi, hpast, -⟩
  have hfits := h hchecks i hi
  rw [Nat.zero_add] at hpast
  omega

theorem deterministicOutputsFrom_panic (k : Nat) (amounts : List UInt64) :
    (deterministicOutputsFrom keysetId (UInt32.ofNat k) amounts).Ends env w fun o _ =>
      o = .panic ↔ PastLast env w keysetId k amounts.length := by
  induction amounts generalizing k with
  | nil => exact Ends.pure (iff_of_false (by simp) fun ⟨_, i, hi, _⟩ => absurd hi (Nat.not_lt_zero i))
  | cons amount amounts ih =>
    refine bind_wallet ?_
    by_cases hpast : env.overflowChecks = true ∧ 2 ^ 32 ≤ w.wallet.counter.toNat + k % 2 ^ 32
    · refine Ends.of_run (run_bind_of_panic (nextIndex_past hpast)) (iff_of_true rfl ?_)
      exact ⟨hpast.1, 0, Nat.succ_pos _, by simpa using hpast.2, [], rfl, trivial⟩
    · refine Ends.bind_run (nextIndex_fits hpast) (Ends.bind_lift (fun d hd => ?_) fun x hx => iff_of_false (by simp) ?_)
      · rw [ofNat_succ, List.length_cons, pastLast_succ hd hpast]
        refine Ends.bind (ih (k + 1)) (fun _ _ h => ?_) (fun _ _ h => ?_) fun _ h => ?_
        · exact Ends.pure (iff_of_false (by simp) fun hpast => by cases h.2 hpast)
        · exact iff_of_false (by simp) fun hpast => by cases h.2 hpast
        · exact h
      · rintro ⟨hchecks, i, -, hi, derived, rfl, hderives⟩
        rcases derived with - | ⟨d, derived⟩
        · exact hpast ⟨hchecks, hi⟩
        · cases hx.symm.trans hderives.1

variable {mintKeys : KeySet} {inputs : List Proof} {amounts : List UInt64}

/-- A swap panics just when it gets to such an index. -/
theorem swapDeterministic_panic : (swapDeterministic inputs amounts keysetId mintKeys).Ends env w fun o _ =>
    o = .panic ↔ PastLast env w keysetId 0 amounts.length := by
  refine Ends.bind_failIf (fun hne => ?_) fun hempty => iff_of_false (by simp) ?_
  · refine Ends.bind (deterministicOutputsFrom_panic 0 amounts) ?_ (fun _ _ h => ?_) fun _ h => ?_
    · rintro ⟨outputs, pending⟩ t h
      have hfits : ¬ PastLast env w keysetId 0 amounts.length := fun hpast => by cases h.2 hpast
      have hrest : ∀ {o : Outcome CashuError (List Proof)}, o ≠ .panic →
          (o = .panic ↔ PastLast env w keysetId 0 amounts.length) :=
        fun ho => iff_of_false ho hfits
      refine bind_modifyWallet (bind_post (fun response _ => ?_) fun _ _ => hrest (by simp))
      refine Ends.bind_lift (fun fresh _ => ?_) fun _ _ => hrest (by simp)
      refine Ends.bind_lift (fun _ _ => bind_modifyWallet ?_) fun _ _ => hrest (by simp)
      exact (saves_ends fresh).mono fun o u hsaves => hrest hsaves.ne_panic
    · exact iff_of_false (by simp) fun hpast => by cases h.2 hpast
    · exact iff_of_true rfl (h.1 rfl)
  · rw [hempty]
    exact fun ⟨_, i, hi, _⟩ => absurd hi (Nat.not_lt_zero i)

end indices

end

end Micronuts
