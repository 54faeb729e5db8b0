import Micronuts.Mint.Spends
import Micronuts.Mint.Runs

/-!
# The change of a melt

The explicit outputs that fit are taken in the order of the request, and what they leave of the overpay is spread over the
blank ones, largest denomination first. A blank one that gets nothing is not signed.
-/

namespace Micronuts
open MintM Exec

section
variable [Crypto]

/-- A signature of the mint on the point `b`. -/
def DemoKeyset.Signs (ks : DemoKeyset) (b : PublicKey) (s : BlindSignature) : Prop :=
  s.id = ks.id ∧ ∃ sk, ks.getSecretKey s.amount = some sk ∧ Crypto.signMessage sk b = some s.c

/-- What the signatures on the change outputs are, for an overpay. -/
structure ChangeFits (ks : DemoKeyset) (outputs : List BlindedMessage) (overpay : Nat) (sigs : List BlindSignature) :
    Prop where
  sum_le : signaturesValue sigs ≤ overpay
  positive : ∀ s ∈ sigs, s.amount ≠ 0
  inOrder : ∃ chosen : List BlindedMessage, chosen.Sublist outputs ∧
    List.Forall₂ (fun o s => ks.Signs o.b s ∧ (o.amount ≠ 0 → s.amount = o.amount)) chosen sigs
  exact : (∃ o ∈ outputs, o.amount = 0) → signaturesValue sigs = overpay

/-! ### Filling -/

def blanks (outputs : List BlindedMessage) : Nat := outputs.countP fun o => o.amount = 0

theorem fillChange_sublist (outputs : List BlindedMessage) (budget : UInt64) :
    (fillChange outputs budget).1.Sublist outputs := by
  fun_induction fillChange outputs budget with
  | case1 budget => exact .slnil
  | case2 o outputs budget h0 filled left blanks heq ih =>
    rw [heq] at ih
    exact ih.cons_cons o
  | case3 o outputs budget h0 hle filled left blanks heq ih =>
    rw [heq] at ih
    exact ih.cons_cons o
  | case4 o outputs budget h0 hle ih => exact ih.cons o

/-- All blank outputs stay, and they are counted. -/
theorem fillChange_blanks (outputs : List BlindedMessage) (budget : UInt64) :
    (fillChange outputs budget).2.2 = blanks outputs ∧ blanks (fillChange outputs budget).1 = blanks outputs := by
  fun_induction fillChange outputs budget with
  | case1 budget => exact ⟨rfl, rfl⟩
  | case2 o outputs budget h0 filled left blanks heq ih =>
    rw [heq] at ih
    simpa [Micronuts.blanks, h0] using ih
  | case3 o outputs budget h0 hle filled left blanks heq ih =>
    rw [heq] at ih
    simpa [Micronuts.blanks, h0] using ih
  | case4 o outputs budget h0 hle ih => simpa [blanks, h0] using ih

/-- An output after the pieces have been assigned: a blank one may have an amount now. -/
def Imprinted (o f : BlindedMessage) : Prop := f.b = o.b ∧ (o.amount ≠ 0 → f.amount = o.amount)

theorem assignPieces_imprinted (outputs : List BlindedMessage) (ps : List UInt64) :
    List.Forall₂ Imprinted outputs (assignPieces outputs ps) := by
  fun_induction assignPieces outputs ps with
  | case1 => exact .nil
  | case2 o outputs h0 ih => exact .cons ⟨rfl, fun _ => rfl⟩ ih
  | case3 o outputs h0 p ps ih => exact .cons ⟨rfl, fun h => absurd h0 h⟩ ih
  | case4 o outputs ps h0 ih => exact .cons ⟨rfl, fun _ => rfl⟩ ih

/-- With a blank output for each of them, all pieces are assigned. -/
theorem assignPieces_value_eq {outputs : List BlindedMessage} {ps : List UInt64} (h : ps.length ≤ blanks outputs) :
    outputsValue (assignPieces outputs ps) = outputsValue outputs + (ps.map UInt64.toNat).sum := by
  fun_induction assignPieces outputs ps with
  | case1 ps =>
    rw [blanks, List.countP_nil, Nat.le_zero, List.length_eq_zero_iff] at h
    rw [h]
    rfl
  | case2 o outputs h0 ih => rw [outputsValue_cons, ih (Nat.zero_le _), outputsValue_cons, Nat.add_assoc]
  | case3 o outputs h0 p ps ih =>
    have hps : ps.length ≤ blanks outputs := by simpa [blanks, h0] using h
    rw [outputsValue_cons, ih hps, outputsValue_cons, h0, List.map_cons, List.sum_cons]
    simp only [UInt64.toNat_zero]
    omega
  | case4 o outputs ps h0 ih =>
    have hps : ps.length ≤ blanks outputs := by simpa [blanks, h0] using h
    rw [outputsValue_cons, ih hps, outputsValue_cons, Nat.add_assoc]

/-- A blank output that got nothing is not signed. -/
theorem signatures_positive {ks : DemoKeyset} {outputs : List BlindedMessage} {sigs : List BlindSignature}
    (h : List.Forall₂ (fun o s => ks.Signs o.b s ∧ s.amount = o.amount) (outputs.filter fun o => 0 < o.amount) sigs) :
    ∀ s ∈ sigs, s.amount ≠ 0 := by
  intro s hs h0
  obtain ⟨i, hi, rfl⟩ := List.getElem_of_mem hs
  have hi' : i < (outputs.filter fun o => 0 < o.amount).length := h.length_eq ▸ hi
  have hamount := (h.get hi' hi).2
  have hpos := (List.mem_filter.1 (List.getElem_mem hi')).2
  simp only [List.get_eq_getElem] at hamount
  rw [← hamount, h0] at hpos
  simp at hpos

/-- Outputs without an amount do not count. -/
theorem outputsValue_filter_pos (outputs : List BlindedMessage) :
    outputsValue (outputs.filter fun o => 0 < o.amount) = outputsValue outputs := by
  induction outputs with
  | nil => rfl
  | cons o outputs ih =>
    by_cases hpos : 0 < o.amount
    · rw [List.filter_cons_of_pos (by simpa using hpos), outputsValue_cons, outputsValue_cons, ih]
    · have h0 : o.amount.toNat = 0 := by
        rw [UInt64.lt_iff_toNat_lt] at hpos
        simpa using hpos
      rw [List.filter_cons_of_neg (by simpa using hpos), outputsValue_cons, ih, h0, Nat.zero_add]

/-- The change outputs of a melt that passes its checks. -/
theorem changeOutputs_fits {ks : DemoKeyset} {outputs change : List BlindedMessage} {inputSum required : UInt64}
    (h : ks.changeOutputs outputs inputSum required = .ok change) :
    (∃ chosen : List BlindedMessage, chosen.Sublist outputs ∧ List.Forall₂ Imprinted chosen change) ∧
      ((∃ o ∈ outputs, o.amount = 0) → outputsValue change + required.toNat = inputSum.toNat) := by
  unfold DemoKeyset.changeOutputs at h
  obtain ⟨overpay, hover, h⟩ := Except.bind_eq_ok.1 h
  have hover := UInt64.checkedSub_eq_some.1 (Except.okOr_eq_ok.1 hover)
  have hfill := fillChange_value outputs overpay
  have hsub := fillChange_sublist outputs overpay
  obtain ⟨hcount, hblanks⟩ := fillChange_blanks outputs overpay
  generalize fillChange outputs overpay = fill at h hfill hsub hcount hblanks
  obtain ⟨filled, budget, blankCount⟩ := fill
  obtain ⟨⟨⟩, -, h⟩ := Except.bind_eq_ok.1 h
  dsimp only at h hfill hsub hcount hblanks
  by_cases hsome : 0 < blankCount
  · rw [if_pos hsome] at h
    obtain ⟨ps, hps, h⟩ := Except.bind_eq_ok.1 h
    obtain ⟨hsum, -⟩ := pieces_ok hps (Nat.le_refl _)
    split at h
    · cases h
    · next hlen =>
      cases h
      have hlen : ps.length ≤ blanks filled := by
        rw [hblanks, ← hcount]
        exact Nat.le_of_not_lt hlen
      have hvalue := assignPieces_value_eq hlen
      refine ⟨⟨filled, hsub, assignPieces_imprinted filled ps⟩, fun _ => ?_⟩
      rw [hvalue, hsum]
      omega
  · rw [if_neg hsome] at h
    cases h
    refine ⟨⟨change, hsub, List.forall₂_same.2 fun o _ => ⟨rfl, fun _ => rfl⟩⟩, ?_⟩
    rintro ⟨o, ho, h0⟩
    have hpos : 0 < blanks outputs := List.countP_pos_iff.2 ⟨o, ho, by simpa using h0⟩
    rw [hcount] at hsome
    exact absurd hpos hsome

/-! ### Signing -/

section runs
variable {env : Env} {w t : World}

theorem signOutput_signs (output : BlindedMessage) : (signOutput output).Ends env w fun o t =>
    t.mint.keyset = w.mint.keyset ∧ ∀ sig, o = .ok sig → w.mint.keyset.Signs output.b sig ∧ sig.amount = output.amount := by
  unfold signOutput
  refine Ends.bind_get (Ends.bind_okOr (fun sk hsk => ?_) fun _ => ⟨rfl, nofun⟩)
  refine Ends.bind_okOr (fun c hc => ?_) fun _ => ⟨rfl, nofun⟩
  refine Ends.bind_failIf (fun _ => ?_) fun _ => ⟨rfl, nofun⟩
  refine bind_ask (fun nonce _ => ?_) fun _ _ => ⟨rfl, nofun⟩
  refine Ends.bind_okOr (fun d _ => ?_) fun _ => ⟨rfl, nofun⟩
  refine Ends.pure ⟨rfl, ?_⟩
  rintro sig h
  cases h
  exact ⟨⟨rfl, sk, hsk, hc⟩, rfl⟩

theorem signOutputs_signs {outputs : List BlindedMessage} {sigs : List BlindSignature}
    (h : (signOutputs outputs).run env w = (.ok sigs, t)) :
    List.Forall₂ (fun o s => w.mint.keyset.Signs o.b s ∧ s.amount = o.amount) outputs sigs := by
  induction outputs generalizing w sigs with
  | nil =>
    cases h
    exact .nil
  | cons output outputs ih =>
    obtain ⟨sig, w₁, hsig, h⟩ := run_bind_ok h
    obtain ⟨⟨⟩, w₂, hrecord, h⟩ := run_bind_ok h
    obtain ⟨sigs', w₃, hsigs, h⟩ := run_bind_ok h
    cases h
    cases hrecord
    obtain ⟨hks, hsigned⟩ := (signOutput_signs output).elim hsig
    have hrest := ih hsigs
    simp only [DemoMint.recordIssued_keyset, hks] at hrest
    exact .cons (hsigned sig rfl) hrest

theorem signChange_signs {changeOutputs : Option (List BlindedMessage)} {change : Option (List BlindSignature)}
    (h : (signChange changeOutputs).run env w = (.ok change, t)) :
    List.Forall₂ (fun o s => w.mint.keyset.Signs o.b s ∧ s.amount = o.amount)
      ((changeOutputs.getD []).filter fun o => 0 < o.amount) (change.getD []) := by
  cases changeOutputs with
  | none =>
    cases h
    exact .nil
  | some outputs =>
    simp only [signChange] at h
    split at h
    · next hnone =>
      cases h
      simp only [Option.getD_some, hnone]
      exact .nil
    · obtain ⟨sigs, w₁, hsigs, h⟩ := run_bind_ok h
      cases h
      exact signOutputs_signs hsigs

/-- The change outputs that `post_melt` settles on before it pays. -/
def ChangePlanned (m : DemoMint) (request : MeltRequest) (changeOutputs : Option (List BlindedMessage)) : Prop :=
  ∃ q inputSum fee required, m.meltQuotes.lookup request.quote = some q ∧
    m.verifyProofs request.inputs 0 = .ok inputSum ∧ m.keyset.inputFeeTotal request.inputs = .ok fee ∧
    meltRequired q.amount q.feeReserve fee = some required ∧ required ≤ inputSum ∧
    (match request.outputs with
      | some outputs => (m.keyset.changeOutputs outputs inputSum required).map some
      | none => .ok none) = .ok changeOutputs

theorem meltChecks_planned (request : MeltRequest) : (meltChecks request).Ends env w fun o _ =>
    ∀ plan, o = .ok plan → ChangePlanned w.mint request plan.changeOutputs := by
  refine Ends.bind_get (Ends.bind_okOr (fun q hq => ?_) fun _ => nofun)
  refine Ends.bind_lift (fun _ hgate => ?_) fun _ _ => nofun
  refine Ends.bind_lift (fun inputSum hverify => ?_) fun _ _ => nofun
  refine bind_nowSecs fun now => ?_
  refine Ends.bind_lift (fun _ hcond => ?_) fun _ _ => nofun
  refine Ends.bind_lift (fun fee hfee => ?_) fun _ _ => nofun
  refine Ends.bind_okOr (fun required hreq => ?_) fun _ => nofun
  refine Ends.bind_failIf (fun hle => ?_) fun _ => nofun
  refine Ends.bind_lift (fun change hchange => ?_) fun _ _ => nofun
  refine Ends.pure ?_
  rintro plan h
  cases h
  exact ⟨q, inputSum, fee, required, hq, hverify, hfee, hreq, UInt64.not_lt.1 hle, hchange⟩

theorem meltClaim_planned {request : MeltRequest} {plan : MeltPlan} (h : (meltClaim request).run env w = (.ok plan, t)) :
    t.mint.keyset = w.mint.keyset ∧ ChangePlanned w.mint request plan.changeOutputs := by
  obtain ⟨q, ys, -, -, hm, -⟩ := (meltClaim_ends request).elim h
  refine ⟨by rw [hm]; rfl, ?_⟩
  obtain ⟨plan', w₁, hchecks, h⟩ := run_bind_ok h
  obtain ⟨⟨⟩, w₂, -, h⟩ := run_bind_ok h
  obtain ⟨⟨⟩, w₃, -, h⟩ := run_bind_ok h
  obtain ⟨⟨⟩, w₄, -, h⟩ := run_bind_ok h
  cases h
  exact (meltChecks_planned request).elim hchecks plan rfl

/-- The change that a melt returns is signed on the outputs it planned. -/
theorem postMelt_change {request : MeltRequest} {resp : MeltResponse} (h : (postMelt request).run env w = (.ok resp, t)) :
    ∃ changeOutputs, ChangePlanned w.mint request changeOutputs ∧
      List.Forall₂ (fun o s => w.mint.keyset.Signs o.b s ∧ s.amount = o.amount)
        ((changeOutputs.getD []).filter fun o => 0 < o.amount) (resp.change.getD []) := by
  obtain ⟨plan, w₁, hclaim, h⟩ := run_bind_ok h
  obtain ⟨answer, w₂, hpay, h⟩ := run_bind_ok h
  obtain ⟨hks, hplanned⟩ := meltClaim_planned hclaim
  cases hpay
  cases hanswer : env.payInvoice plan.invoice plan.amount with
  | error e =>
    rw [hanswer] at h
    obtain ⟨⟨⟩, w₃, -, h⟩ := run_bind_ok h
    obtain ⟨⟨⟩, w₄, -, h⟩ := run_bind_ok h
    obtain ⟨⟨⟩, w₅, -, h⟩ := run_bind_ok h
    cases h
  | ok preimage =>
    rw [hanswer] at h
    obtain ⟨change, w₃, hsigned, h⟩ := run_bind_ok h
    obtain ⟨⟨⟩, w₄, -, h⟩ := run_bind_ok h
    obtain ⟨⟨⟩, w₅, -, h⟩ := run_bind_ok h
    obtain ⟨w₅', w₆, -, h⟩ := run_bind_ok h
    obtain ⟨entry, w₇, -, h⟩ := run_bind_ok h
    cases h
    have hsigs := signChange_signs hsigned
    rw [hks] at hsigs
    exact ⟨plan.changeOutputs, hplanned, hsigs⟩

/-! ### The change and the overpay -/

/-- Signatures on the outputs with an amount are in the order of the outputs they were imprinted from. -/
theorem inOrder_of_imprinted {ks : DemoKeyset} {chosen filled : List BlindedMessage} {sigs : List BlindSignature}
    (himprinted : List.Forall₂ Imprinted chosen filled)
    (hsigs : List.Forall₂ (fun o s => ks.Signs o.b s ∧ s.amount = o.amount) (filled.filter fun o => 0 < o.amount) sigs) :
    ∃ signed : List BlindedMessage, signed.Sublist chosen ∧
      List.Forall₂ (fun o s => ks.Signs o.b s ∧ (o.amount ≠ 0 → s.amount = o.amount)) signed sigs := by
  induction himprinted generalizing sigs with
  | nil =>
    cases hsigs
    exact ⟨[], .slnil, .nil⟩
  | @cons o f chosen filled hof _ ih =>
    by_cases hpos : 0 < f.amount
    · rw [List.filter_cons_of_pos (by simpa using hpos)] at hsigs
      rcases hsigs with - | ⟨⟨hsigns, hamount⟩, hsigs⟩
      obtain ⟨signed, hsub, hall⟩ := ih hsigs
      refine ⟨o :: signed, hsub.cons_cons o, .cons ⟨?_, fun h0 => ?_⟩ hall⟩
      · rw [← hof.1]
        exact hsigns
      · rw [hamount, hof.2 h0]
    · rw [List.filter_cons_of_neg (by simpa using hpos)] at hsigs
      obtain ⟨signed, hsub, hall⟩ := ih hsigs
      exact ⟨signed, hsub.cons o, hall⟩

theorem signaturesValue_eq {ks : DemoKeyset} {outputs : List BlindedMessage} {sigs : List BlindSignature}
    (h : List.Forall₂ (fun o s => ks.Signs o.b s ∧ s.amount = o.amount) outputs sigs) :
    signaturesValue sigs = outputsValue outputs := by
  induction h with
  | nil => rfl
  | @cons o s outputs sigs hos _ ih =>
    have hcons : signaturesValue (s :: sigs) = s.amount.toNat + signaturesValue sigs := rfl
    rw [hcons, outputsValue_cons, ih, hos.2]

/-- A melt that goes through returns change within the overpay, and all of it when there is a blank output. -/
theorem melt_change {request : MeltRequest} {resp : MeltResponse} (h : (postMelt request).run env w = (.ok resp, t)) :
    ∃ q fee, w.mint.meltQuotes.lookup request.quote = some q ∧ w.mint.keyset.inputFeeTotal request.inputs = .ok fee ∧
      q.amount.toNat + q.feeReserve.toNat + fee.toNat ≤ proofsValue request.inputs ∧
      ChangeFits w.mint.keyset (request.outputs.getD [])
        (proofsValue request.inputs - (q.amount.toNat + q.feeReserve.toNat + fee.toNat)) (resp.change.getD []) := by
  obtain ⟨changeOutputs, ⟨q, inputSum, fee, required, hq, hverify, hfee, hreq, hle, hchange⟩, hsigs⟩ := postMelt_change h
  have hin : inputSum.toNat = proofsValue request.inputs := (DemoMint.verifyProofs_ok hverify).1.trans (Nat.zero_add _)
  rw [UInt64.le_iff_toNat_le, hin, meltRequired_eq_some hreq] at hle
  refine ⟨q, fee, hq, hfee, hle, ?_⟩
  have hpositive := signatures_positive hsigs
  have hvalue := signaturesValue_eq hsigs
  rw [outputsValue_filter_pos] at hvalue
  rcases hout : request.outputs with - | outputs
  · rw [hout] at hchange
    cases hchange
    have hnil := List.forall₂_nil_left_iff.1 hsigs
    rw [hnil]
    exact ⟨Nat.zero_le _, nofun, ⟨[], .slnil, .nil⟩, by simp⟩
  · rw [hout] at hchange
    rcases hmade : w.mint.keyset.changeOutputs outputs inputSum required with e | change
    · simp only [hmade] at hchange
      cases hchange
    simp only [hmade] at hchange
    cases hchange
    obtain ⟨⟨chosen, hsub, himprinted⟩, hexact⟩ := changeOutputs_fits hmade
    obtain ⟨hfits, -⟩ := changeOutputs_ok hmade
    rw [hin, meltRequired_eq_some hreq] at hexact hfits
    simp only [Option.getD_some] at hvalue hsigs ⊢
    refine ⟨by omega, hpositive, ?_, ?_⟩
    · obtain ⟨signed, hsigned, hall⟩ := inOrder_of_imprinted himprinted hsigs
      exact ⟨signed, hsigned.trans hsub, hall⟩
    · intro hblank
      have := hexact hblank
      omega

end runs

end

section toy
open Toy

/-- An overpay of six, of which one is asked for; two blank outputs share the rest, and one stays empty. -/
def overpaid : MeltRequest :=
  ⟨"0190-q1", [coin 8 "eight"], some [⟨0, "00c0ffee", (5 : UInt8)⟩, ⟨1, "00c0ffee", (6 : UInt8)⟩,
    ⟨16, "00c0ffee", (7 : UInt8)⟩, ⟨0, "00c0ffee", (8 : UInt8)⟩, ⟨0, "00c0ffee", (9 : UInt8)⟩]⟩

def quoted : World := ((postMeltQuote ⟨"lnbc2", "sat", none⟩).run env (World.init keyset true)).2

theorem melt_change_toy : ∃ resp t, (postMelt overpaid).run env quoted.begin = (.ok resp, t) ∧
    ((resp.change.getD []).map BlindSignature.amount) = [4, 1, 1] ∧
    ∃ overpay, ChangeFits quoted.begin.mint.keyset (overpaid.outputs.getD []) overpay (resp.change.getD []) := by
  have hok : ((postMelt overpaid).run env quoted.begin).1.isOk = true := by decide +kernel
  rcases hrun : (postMelt overpaid).run env quoted.begin with ⟨⟨resp⟩ | e | -, t⟩
  · have hamounts : ((postMelt overpaid).run env quoted.begin).1.map
        (fun resp => (resp.change.getD []).map BlindSignature.amount) =
        .ok [4, 1, 1] := by decide +kernel
    rw [hrun] at hamounts
    obtain ⟨q, fee, -, -, -, hfits⟩ := melt_change hrun
    exact ⟨resp, t, rfl, Outcome.ok.inj hamounts, _, hfits⟩
  · rw [hrun] at hok
    cases hok
  · rw [hrun] at hok
    cases hok

end toy

end Micronuts
