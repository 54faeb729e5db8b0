import Micronuts.Mint.Core

/-!
# Inputs: verified, claimed, released

What `verifyProofs` and `claimProofs` promise about a list of inputs. A claim takes `Y`s that are
distinct and unspent, so releasing the same inputs gives back the spent set from before.
-/

namespace Micronuts
open MintM Exec
variable [Crypto]

/-- The face value of a list of proofs. -/
def proofsValue (proofs : List Proof) : Nat := (proofs.map fun p => p.amount.toNat).sum

/-- `verify_proof` accepts `p` whatever else has been spent. -/
structure Genuine (ks : DemoKeyset) (p : Proof) : Prop where
  id : p.id = ks.id
  signed : ∃ sk, ks.getSecretKey p.amount = some sk ∧ Crypto.verifyMessage sk p.c (asBytes p.secret) = true

theorem proofYHex_eq_ok {secret y : String} :
    proofYHex secret = .ok y ↔ ∃ p, Crypto.hashToCurve (asBytes secret) = some p ∧ pointHex p = y := by
  simp only [proofYHex, Except.bind_eq_ok, Except.okOr_eq_ok]
  constructor
  · rintro ⟨p, hp, h⟩; cases h; exact ⟨p, hp, rfl⟩
  · rintro ⟨p, hp, rfl⟩; exact ⟨p, hp, rfl⟩

namespace DemoMint
variable {m : DemoMint} {proofs : List Proof} {total sum : UInt64}

theorem verifyProof_ok {p : Proof} (h : m.verifyProof p = .ok ()) :
    Genuine m.keyset p ∧ ∃ y, proofYHex p.secret = .ok y ∧ y ∉ m.spentYs := by
  unfold verifyProof at h
  split at h
  · cases h
  · next hid =>
    obtain ⟨y, hy, h⟩ := Except.bind_eq_ok.1 h
    split at h
    · cases h
    · next hspent =>
      obtain ⟨sk, hsk, h⟩ := Except.bind_eq_ok.1 h
      split at h
      · next hv => exact ⟨⟨not_not.1 hid, sk, Except.okOr_eq_ok.1 hsk, hv⟩, y, hy, hspent⟩
      · cases h

/-- The sum of verified proofs is their face value, and each was accepted. -/
theorem verifyProofs_ok (h : m.verifyProofs proofs total = .ok sum) :
    sum.toNat = total.toNat + proofsValue proofs ∧ ∀ p ∈ proofs, m.verifyProof p = .ok () := by
  induction proofs generalizing total with
  | nil => cases h; exact ⟨by simp [proofsValue], by simp⟩
  | cons p proofs ih =>
    obtain ⟨⟨⟩, hp, h⟩ := Except.bind_eq_ok.1 h
    obtain ⟨total', ht, h⟩ := Except.bind_eq_ok.1 h
    have ht := UInt64.checkedAdd_eq_some.1 (Except.okOr_eq_ok.1 ht)
    obtain ⟨hsum, hall⟩ := ih h
    refine ⟨?_, ?_⟩
    · rw [hsum, ht]; simp only [proofsValue, List.map_cons, List.sum_cons]; omega
    · intro q hq
      rcases List.mem_cons.1 hq with rfl | hq
      · exact hp
      · exact hall q hq

theorem mem_spend {ys : List String} {y : String} : y ∈ (m.spend ys).spentYs ↔ y ∈ m.spentYs ∨ y ∈ ys := by
  rw [spend_spentYs]
  generalize m.spentYs = spent
  induction ys generalizing spent with
  | nil => simp
  | cons a ys ih =>
    rw [List.foldl_cons, ih, Finset.mem_insert, List.mem_cons]; tauto

end DemoMint

omit [Crypto] in
theorem unclaimed_iff {spent batch : Finset String} {ys : List String} :
    unclaimed spent batch ys = true ↔ ys.Nodup ∧ ∀ y ∈ ys, y ∉ spent ∧ y ∉ batch := by
  induction ys generalizing batch with
  | nil => simp [unclaimed]
  | cons y ys ih =>
    unfold unclaimed
    split
    · next h => simp only [Bool.false_eq_true, false_iff, List.forall_mem_cons]; tauto
    · next h =>
      rw [ih, List.nodup_cons, List.forall_mem_cons]
      simp only [Finset.mem_insert, not_or]
      constructor
      · rintro ⟨hnd, hall⟩
        exact ⟨⟨fun hy => (hall y hy).2.1 rfl, hnd⟩, by tauto, fun z hz => ⟨(hall z hz).1, (hall z hz).2.2⟩⟩
      · rintro ⟨⟨hy, hnd⟩, -, hall⟩
        exact ⟨hnd, fun z hz => ⟨(hall z hz).1, fun hzy => hy (hzy ▸ hz), (hall z hz).2⟩⟩

/-- `claim_proofs` takes the inputs, whose `Y`s are `ys`. -/
structure Claims (m : DemoMint) (proofs : List Proof) (ys : List String) : Prop where
  hashed : List.Forall₂ (fun (p : Proof) y => proofYHex p.secret = .ok y) proofs ys
  nodup : ys.Nodup
  unspent : ∀ y ∈ ys, y ∉ m.spentYs

namespace Claims
variable {m : DemoMint} {proofs : List Proof} {ys ys' : List String}

theorem mem_iff (h : Claims m proofs ys) {y : String} : y ∈ ys ↔ ∃ p ∈ proofs, proofYHex p.secret = .ok y := by
  obtain ⟨h, -, -⟩ := h
  induction h with
  | nil => simp
  | cons hp _ ih =>
    rw [List.mem_cons, ih, List.exists_mem_cons_iff, hp, Except.ok.injEq, eq_comm (a := y)]

theorem unique (h : Claims m proofs ys) (h' : Claims m proofs ys') : ys = ys' := by
  obtain ⟨h, -, -⟩ := h
  obtain ⟨h', -, -⟩ := h'
  induction h generalizing ys' with
  | nil => cases h'; rfl
  | cons hp _ ih =>
    obtain ⟨y', ys'', hp', hrest, rfl⟩ := List.forall₂_cons_left_iff.1 h'
    rw [hp] at hp'; cases hp'
    rw [ih hrest]

theorem ne_nil (h : Claims m proofs ys) (hp : proofs ≠ []) : ys ≠ [] := by
  rintro rfl
  exact hp (List.forall₂_nil_right_iff.1 h.hashed)

theorem hashed_of_mem (h : Claims m proofs ys) {p : Proof} (hp : p ∈ proofs) :
    ∃ y, proofYHex p.secret = .ok y := by
  obtain ⟨h, -, -⟩ := h
  induction h with
  | nil => simp at hp
  | cons hq _ ih =>
    rcases List.mem_cons.1 hp with rfl | hp
    · exact ⟨_, hq⟩
    · exact ih hp

/-- A claim changes the spent set as soon as there is an input. -/
theorem spend_eq_iff (h : Claims m proofs ys) : (m.spend ys).spentYs = m.spentYs ↔ proofs = [] := by
  constructor
  · intro heq
    by_contra hne
    obtain ⟨y, hy⟩ := List.exists_mem_of_ne_nil ys (h.ne_nil hne)
    exact h.unspent y hy (heq ▸ DemoMint.mem_spend.2 (.inr hy))
  · rintro rfl
    obtain rfl := List.forall₂_nil_left_iff.1 h.hashed
    rfl

/-- Every claimed input is in the spent set afterwards. -/
theorem spent (h : Claims m proofs ys) {p : Proof} (hp : p ∈ proofs) :
    ∃ y, proofYHex p.secret = .ok y ∧ y ∈ (m.spend ys).spentYs := by
  obtain ⟨y, hy⟩ := h.hashed_of_mem hp
  exact ⟨y, hy, DemoMint.mem_spend.2 (.inr (h.mem_iff.2 ⟨p, hp, hy⟩))⟩

end Claims

theorem mem_foldl_releaseY {spent : Finset String} {proofs : List Proof} {y : String} :
    y ∈ proofs.foldl releaseY spent ↔ y ∈ spent ∧ ∀ p ∈ proofs, proofYHex p.secret ≠ .ok y := by
  induction proofs generalizing spent with
  | nil => simp
  | cons p proofs ih =>
    rw [List.foldl_cons, ih, List.forall_mem_cons]
    unfold releaseY
    cases hp : proofYHex p.secret with
    | error e => simp
    | ok y' =>
      simp only [Finset.mem_erase, ne_eq, Except.ok.injEq, eq_comm (a := y')]
      tauto

/-- Releasing the claimed inputs restores the spent set. -/
theorem Claims.release {m : DemoMint} {proofs : List Proof} {ys : List String} (h : Claims m proofs ys) :
    proofs.foldl releaseY (m.spend ys).spentYs = m.spentYs := by
  ext y
  rw [mem_foldl_releaseY, DemoMint.mem_spend]
  have hmem := h.mem_iff (y := y)
  constructor
  · rintro ⟨hy | hy, hno⟩
    · exact hy
    · obtain ⟨p, hp, hpy⟩ := hmem.1 hy
      exact absurd hpy (hno p hp)
  · intro hy
    exact ⟨.inl hy, fun p hp hpy => h.unspent y (hmem.2 ⟨p, hp, hpy⟩) hy⟩

section ends
variable {env : Env} {w : World}

/-- The claim takes every input or leaves the mint alone. -/
theorem claimProofs_ends (proofs : List Proof) : (claimProofs proofs).Ends env w fun o t =>
    match o with
    | .ok _ => ∃ ys, Claims w.mint proofs ys ∧ t = { w with mint := w.mint.spend ys }
    | .err _ => t = w ∧ ¬ ∃ ys, Claims w.mint proofs ys
    | .panic => False := by
  refine Ends.bind_lift (fun ys hys => Ends.bind_get (Ends.bind_failIf (fun hun => ?_) fun hun => ?_)) fun e he => ?_
  · rw [Bool.not_eq_false, unclaimed_iff] at hun
    exact ⟨ys, ⟨Except.mapM_eq_ok.1 hys, hun.1, fun y hy => (hun.2 y hy).1⟩, rfl⟩
  · refine ⟨rfl, ?_⟩
    rintro ⟨ys', h⟩
    have hys' := Except.mapM_eq_ok.2 h.hashed
    rw [hys] at hys'; cases hys'
    rw [unclaimed_iff.2 ⟨h.nodup, fun y hy => ⟨h.unspent y hy, Finset.notMem_empty y⟩⟩] at hun
    cases hun
  · refine ⟨rfl, ?_⟩
    rintro ⟨ys', h⟩
    rw [Except.mapM_eq_ok.2 h.hashed] at he
    cases he

end ends

end Micronuts
