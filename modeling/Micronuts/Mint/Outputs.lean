import Micronuts.Mint.Core

/-!
# Outputs: signed, recorded, filled as change

`signOutputs` records every signature before it looks at the next output, so a refusal leaves the
signatures of the outputs before it in the restore index (`SignStops`). The change outputs of a melt
never add up to more than the overpay.
-/

namespace Micronuts
open MintM Exec
variable [Crypto]

def outputsValue (outputs : List BlindedMessage) : Nat := (outputs.map fun o => o.amount.toNat).sum

def signaturesValue (sigs : List BlindSignature) : Nat := (sigs.map fun s => s.amount.toNat).sum

theorem outputsValue_cons (o : BlindedMessage) (outputs : List BlindedMessage) :
    outputsValue (o :: outputs) = o.amount.toNat + outputsValue outputs := rfl

theorem outputSum_eq_some {outputs : List BlindedMessage} {sum : UInt64} (h : outputSum outputs = some sum) :
    sum.toNat = outputsValue outputs := by
  rw [UInt64.checkedSum_eq_some.1 h]; exact Nat.zero_add _

/-- The mint has a key for the output's amount. -/
def DemoKeyset.Signable (ks : DemoKeyset) (o : BlindedMessage) : Prop := (ks.getSecretKey o.amount).isSome = true

instance (ks : DemoKeyset) (o : BlindedMessage) : Decidable (ks.Signable o) := by
  unfold DemoKeyset.Signable; infer_instance

/-- `cashu` signs every point and proves every signature, and reads the mint's own keyset id. -/
structure SignTotal (ks : DemoKeyset) : Prop where
  sign : ∀ k b, ∃ c, Crypto.signMessage k b = some c
  idValid : Crypto.idValid ks.id = true
  dleq : ∀ nonce k b c, ∃ d, Crypto.proveDleq nonce k b c = some d

/-- `sigs` are signatures on `outputs`, in order. -/
def Signed (ks : DemoKeyset) (outputs : List BlindedMessage) (sigs : List BlindSignature) : Prop :=
  List.Forall₂ (fun o s => s.amount = o.amount ∧ s.id = ks.id ∧ ks.Signable o) outputs sigs

/-- Signing stopped after `done`: with total primitives, at an output without a key. -/
def SignStops (ks : DemoKeyset) (outputs done : List BlindedMessage) : Prop :=
  ∃ o rest, outputs = done ++ o :: rest ∧ (SignTotal ks → ¬ ks.Signable o)

namespace Signed
variable {ks : DemoKeyset} {outputs : List BlindedMessage} {sigs : List BlindSignature}

theorem value (h : Signed ks outputs sigs) : signaturesValue sigs = outputsValue outputs := by
  induction h with
  | nil => rfl
  | @cons o s outputs sigs hos _ ih =>
    have hcons : signaturesValue (s :: sigs) = s.amount.toNat + signaturesValue sigs := rfl
    rw [hcons, outputsValue_cons, ih, hos.1]

theorem signable (h : Signed ks outputs sigs) : ∀ o ∈ outputs, ks.Signable o := by
  induction h with
  | nil => simp
  | cons hos _ ih => exact List.forall_mem_cons.2 ⟨hos.2.2, ih⟩

end Signed

/-- The rows of the restore index for signed outputs. -/
def indexRows (pairs : List (BlindedMessage × BlindSignature)) : List (String × BlindSignature) :=
  pairs.map fun p => (pointHex p.1.b, p.2)

namespace DemoMint

/-- The restore index after `sigs` were given for `outputs`. -/
def record (m : DemoMint) (outputs : List BlindedMessage) (sigs : List BlindSignature) : DemoMint :=
  (outputs.zip sigs).foldl (fun m p => m.recordIssued p.1 p.2) m

variable (m : DemoMint) (outputs : List BlindedMessage) (sigs : List BlindSignature)

/-- Only the restore index changes. -/
theorem record_frame : m.record outputs sigs = { m with issuedOutputs := (m.record outputs sigs).issuedOutputs } := by
  unfold record
  generalize outputs.zip sigs = pairs
  induction pairs generalizing m with
  | nil => rfl
  | cons p pairs ih => rw [List.foldl_cons, ih]; rfl

@[simp] theorem record_keyset : (m.record outputs sigs).keyset = m.keyset := by rw [record_frame]

@[simp] theorem record_mintQuotes : (m.record outputs sigs).mintQuotes = m.mintQuotes := by rw [record_frame]

@[simp] theorem record_meltQuotes : (m.record outputs sigs).meltQuotes = m.meltQuotes := by rw [record_frame]

@[simp] theorem record_spentYs : (m.record outputs sigs).spentYs = m.spentYs := by rw [record_frame]

@[simp] theorem record_store : (m.record outputs sigs).store = m.store := by rw [record_frame]

theorem record_putMeltQuote (id : String) (q : MeltQuoteEntry) :
    (m.putMeltQuote id q).record outputs sigs = (m.record outputs sigs).putMeltQuote id q := by
  unfold record
  generalize outputs.zip sigs = pairs
  induction pairs generalizing m with
  | nil => rfl
  | cons p pairs ih => exact ih (m.recordIssued p.1 p.2)

theorem record_issuedOutputs : (m.record outputs sigs).issuedOutputs =
    m.issuedOutputs.insertAll (indexRows (outputs.zip sigs)) := by
  unfold record
  generalize outputs.zip sigs = pairs
  induction pairs generalizing m with
  | nil => rfl
  | cons p pairs ih => exact ih (m.recordIssued p.1 p.2)

end DemoMint

section ends
variable {env : Env} {w : World}

theorem signOutput_ends (output : BlindedMessage) : (signOutput output).Ends env w fun o t =>
    t.mint = w.mint ∧ t.trace = w.trace ∧
      match o with
      | .ok sig => sig.amount = output.amount ∧ sig.id = w.mint.keyset.id ∧ w.mint.keyset.Signable output
      | .err _ => SignTotal w.mint.keyset → ¬ w.mint.keyset.Signable output
      | .panic => False := by
  unfold signOutput
  refine Ends.bind_get (Ends.bind_okOr (fun sk hsk => ?_) fun hnone => ?_)
  · refine Ends.bind_okOr (fun c hc => ?_) fun hnone => ?_
    · refine Ends.bind_failIf (fun hid => ?_) fun hid => ?_
      · refine bind_ask (fun nonce _ => ?_) fun e he => by cases he
        refine Ends.bind_okOr (fun d _ => ?_) fun hnone => ?_
        · exact Ends.pure ⟨rfl, rfl, rfl, rfl, by rw [DemoKeyset.Signable, hsk]; rfl⟩
        · refine ⟨rfl, rfl, fun htotal => ?_⟩
          obtain ⟨d, hd⟩ := htotal.dleq nonce sk output.b c
          rw [hnone] at hd; cases hd
      · refine ⟨rfl, rfl, fun htotal => ?_⟩
        rw [htotal.idValid] at hid; cases hid
    · refine ⟨rfl, rfl, fun htotal => ?_⟩
      obtain ⟨c, hc⟩ := htotal.sign sk output.b
      rw [hnone] at hc; cases hc
  · exact ⟨rfl, rfl, fun _ => by rw [DemoKeyset.Signable, hnone]; simp⟩

/-- Signing records exactly the signatures it made, and refuses at the first output it cannot sign. -/
theorem signOutputs_ends (outputs : List BlindedMessage) : (signOutputs outputs).Ends env w fun o t =>
    t.trace = w.trace ∧
      match o with
      | .ok sigs => Signed w.mint.keyset outputs sigs ∧ t.mint = w.mint.record outputs sigs
      | .err _ => ∃ done sigs, SignStops w.mint.keyset outputs done ∧ Signed w.mint.keyset done sigs ∧
          t.mint = w.mint.record done sigs
      | .panic => False := by
  induction outputs generalizing w with
  | nil => exact Ends.pure ⟨rfl, .nil, rfl⟩
  | cons output outputs ih =>
    unfold signOutputs
    refine Ends.bind (signOutput_ends output) ?_ ?_ ?_
    · rintro sig t ⟨hm, htr, hsig⟩
      refine bind_modifyMint (Ends.bind ih ?_ ?_ ?_)
      · rintro sigs t' ⟨htr', hsigned, hm'⟩
        simp only [hm, DemoMint.recordIssued_keyset] at hsigned hm'
        exact Ends.pure ⟨htr'.trans htr, .cons hsig hsigned, hm'⟩
      · rintro e t' ⟨htr', done, sigs, ⟨o, rest, rfl, hstop⟩, hsigned, hm'⟩
        simp only [hm, DemoMint.recordIssued_keyset] at hstop hsigned hm'
        exact ⟨htr'.trans htr, output :: done, sig :: sigs, ⟨o, rest, rfl, hstop⟩, .cons hsig hsigned, hm'⟩
      · rintro t' ⟨_, h⟩; exact h.elim
    · rintro e t ⟨hm, htr, hstop⟩
      exact ⟨htr, [], [], ⟨output, outputs, rfl, hstop⟩, .nil, hm⟩
    · rintro t ⟨_, _, h⟩; exact h.elim

end ends

theorem SignStops.not_all {ks : DemoKeyset} {outputs done : List BlindedMessage} (h : SignStops ks outputs done)
    (htotal : SignTotal ks) : ∃ o ∈ outputs, ¬ ks.Signable o := by
  obtain ⟨o, rest, rfl, hstop⟩ := h
  exact ⟨o, by simp, hstop htotal⟩

/-! ### Change -/

namespace DemoKeyset
variable {ks : DemoKeyset} {outputs : List BlindedMessage}

theorem signable_iff (o : BlindedMessage) : ks.Signable o ↔ o.amount ∈ denominations :=
  ks.getSecretKey_isSome o.amount

theorem not_signable_of_zero {o : BlindedMessage} (h : o.amount = 0) : ¬ ks.Signable o := by
  rw [signable_iff, h]; decide

theorem checkOutputsSignable_ok :
    ks.checkOutputsSignable outputs = .ok () ↔ ∀ o ∈ outputs, o.amount ≠ 0 → ks.Signable o := by
  unfold checkOutputsSignable
  simp only [List.all_eq_true, Bool.or_eq_true, decide_eq_true_eq]
  split
  · next h => exact ⟨fun _ o ho h0 => (h o ho).resolve_left h0, fun _ => rfl⟩
  · next h =>
    constructor
    · intro h'; cases h'
    · intro h'; exact absurd (fun o ho => or_iff_not_imp_left.2 (h' o ho)) h

/-- After the check, an output without a key is a blank one. -/
theorem zero_of_checked (h : ks.checkOutputsSignable outputs = .ok ()) {o : BlindedMessage} (ho : o ∈ outputs)
    (hs : ¬ ks.Signable o) : o.amount = 0 :=
  by_contra fun h0 => hs (checkOutputsSignable_ok.1 h o ho h0)

end DemoKeyset

theorem fillChange_value (outputs : List BlindedMessage) (budget : UInt64) :
    outputsValue (fillChange outputs budget).1 + (fillChange outputs budget).2.1.toNat = budget.toNat := by
  fun_induction fillChange outputs budget with
  | case1 budget => exact Nat.zero_add _
  | case2 budget o outputs h0 filled left blanks heq ih =>
    rw [heq] at ih
    rw [outputsValue_cons, h0]; simpa using ih
  | case3 budget o outputs h0 hle filled left blanks heq ih =>
    rw [heq, UInt64.toNat_sub_of_le _ _ hle] at ih
    rw [UInt64.le_iff_toNat_le] at hle
    rw [outputsValue_cons]; dsimp only at ih ⊢; omega
  | case4 budget o outputs h0 hle ih => exact ih

theorem pieces_ok {ks : DemoKeyset} {n : Nat} {left : UInt64} {ps : List UInt64} (h : ks.pieces n left = .ok ps)
    (hn : left.toNat ≤ n) : (ps.map UInt64.toNat).sum = left.toNat ∧ ∀ p ∈ ps, p ∈ denominations := by
  induction n generalizing left ps with
  | zero => cases h; exact ⟨(Nat.le_zero.1 hn).symm, by simp⟩
  | succ n ih =>
    unfold DemoKeyset.pieces at h
    split at h
    · next h0 => cases h; rw [h0]; exact ⟨rfl, by simp⟩
    · next h0 =>
      obtain ⟨key, hkey, h⟩ := Except.bind_eq_ok.1 h
      obtain ⟨rest, hrest, h⟩ := Except.bind_eq_ok.1 h
      cases h
      have hkey := Except.okOr_eq_ok.1 hkey
      have hle : key.1 ≤ left := by simpa using List.find?_some hkey
      have hden : key.1 ∈ denominations := by
        rw [← ks.amounts]
        exact List.mem_map_of_mem (List.mem_reverse.1 (List.mem_of_find?_eq_some hkey))
      have hpos : 0 < key.1.toNat := denominations_pos key.1 hden
      have hsub := UInt64.toNat_sub_of_le _ _ hle
      rw [UInt64.le_iff_toNat_le] at hle
      obtain ⟨hsum, hall⟩ := ih hrest (by omega)
      refine ⟨?_, List.forall_mem_cons.2 ⟨hden, hall⟩⟩
      rw [List.map_cons, List.sum_cons, hsum]; omega

theorem assignPieces_value (outputs : List BlindedMessage) (ps : List UInt64) :
    outputsValue (assignPieces outputs ps) ≤ outputsValue outputs + (ps.map UInt64.toNat).sum := by
  fun_induction assignPieces outputs ps with
  | case1 => simp [outputsValue]
  | case2 o outputs h0 ih => rw [outputsValue_cons, outputsValue_cons]; omega
  | case3 o outputs h0 p ps ih =>
    rw [outputsValue_cons, outputsValue_cons, List.map_cons, List.sum_cons]; dsimp only; omega
  | case4 o outputs ps h0 ih => rw [outputsValue_cons, outputsValue_cons]; omega

/-- An imprinted amount is one that was there or one of the pieces. -/
theorem mem_assignPieces {outputs : List BlindedMessage} {ps : List UInt64} {o : BlindedMessage}
    (h : o ∈ assignPieces outputs ps) : (∃ o' ∈ outputs, o'.amount = o.amount) ∨ o.amount ∈ ps := by
  fun_induction assignPieces outputs ps with
  | case1 => simp at h
  | case2 o' outputs h0 ih =>
    rcases List.mem_cons.1 h with rfl | h
    · exact .inl ⟨o, by simp, rfl⟩
    · exact (ih h).imp_left fun ⟨o'', ho, ha⟩ => ⟨o'', List.mem_cons_of_mem _ ho, ha⟩
  | case3 o' outputs h0 p ps ih =>
    rcases List.mem_cons.1 h with rfl | h
    · exact .inr (by simp)
    · rcases ih h with ⟨o'', ho, ha⟩ | hp
      · exact .inl ⟨o'', List.mem_cons_of_mem _ ho, ha⟩
      · exact .inr (List.mem_cons_of_mem _ hp)
  | case4 o' outputs ps h0 ih =>
    rcases List.mem_cons.1 h with rfl | h
    · exact .inl ⟨o, by simp, rfl⟩
    · exact (ih h).imp_left fun ⟨o'', ho, ha⟩ => ⟨o'', List.mem_cons_of_mem _ ho, ha⟩

/-- The change fits in the overpay, and every imprinted output can be signed. -/
theorem changeOutputs_ok {ks : DemoKeyset} {outputs change : List BlindedMessage} {inputSum required : UInt64}
    (h : ks.changeOutputs outputs inputSum required = .ok change) :
    outputsValue change + required.toNat ≤ inputSum.toNat ∧ ∀ o ∈ change, o.amount ≠ 0 → ks.Signable o := by
  unfold DemoKeyset.changeOutputs at h
  obtain ⟨overpay, hover, h⟩ := Except.bind_eq_ok.1 h
  have hover := UInt64.checkedSub_eq_some.1 (Except.okOr_eq_ok.1 hover)
  have hfill := fillChange_value outputs overpay
  generalize fillChange outputs overpay = fill at h hfill
  obtain ⟨filled, budget, blanks⟩ := fill
  obtain ⟨⟨⟩, hcheck, h⟩ := Except.bind_eq_ok.1 h
  have hcheck := DemoKeyset.checkOutputsSignable_ok.1 hcheck
  dsimp only at h hfill
  split at h
  · obtain ⟨ps, hps, h⟩ := Except.bind_eq_ok.1 h
    obtain ⟨hsum, hden⟩ := pieces_ok hps (Nat.le_refl _)
    split at h
    · cases h
    · cases h
      have := assignPieces_value filled ps
      refine ⟨by omega, fun o ho h0 => ?_⟩
      rcases mem_assignPieces ho with ⟨o', ho', ha⟩ | hp
      · rw [DemoKeyset.signable_iff, ← ha, ← DemoKeyset.signable_iff]
        exact hcheck o' ho' (by rwa [ha])
      · exact (DemoKeyset.signable_iff o).2 (hden _ hp)
  · cases h; exact ⟨by omega, hcheck⟩

end Micronuts
