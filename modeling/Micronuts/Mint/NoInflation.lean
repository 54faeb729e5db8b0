import Micronuts.Lib.Ledger
import Micronuts.Mint.Issuance

/-!
# No inflation

The mint is a `Ledger`: quotes are paid and minted on, swaps and melts exchange inputs for new signatures and
payments. Every call makes moves of the ledger, so the signatures that were granted are covered; and those that
a client can have, from responses or by restoring, were granted.
-/

namespace Micronuts
open Exec Finmap

/-- What the mint paid for a melt quote. -/
def paidOutOf (q : MeltQuoteEntry) : Nat := if q.state = .paid then q.amount.toNat else 0

/-- Every element of a list counts at least once. -/
theorem sum_toFinset_le {α : Type} [DecidableEq α] (l : List α) (f : α → Nat) :
    ∑ a ∈ l.toFinset, f a ≤ (l.map f).sum := by
  rw [Finset.sum_list_map_count]
  refine Finset.sum_le_sum fun a ha => ?_
  have hcount : 0 < l.count a := List.count_pos_iff.2 (List.mem_toFinset.1 ha)
  exact Nat.le_mul_of_pos_left _ hcount

/-- The state of one quote goes from unpaid to `state`. -/
theorem paidOut_insert {t : Finmap fun _ : String => MeltQuoteEntry} {id : String} {q : MeltQuoteEntry}
    (found : t.lookup id = some q) (unpaid : q.state = .unpaid) (state : MeltQuoteState) :
    rowSum paidOutOf (t.insert id { q with state }) =
      rowSum paidOutOf t + if state = .paid then q.amount.toNat else 0 := by
  have hput := rowSum_insert_old (f := paidOutOf) (v := { q with state }) found
  have hold : paidOutOf q = 0 := by simp [paidOutOf, unpaid]
  rw [hold] at hput
  exact hput

section
variable [Crypto]

/-! ### Exchanges -/

/-- The value of the signatures of a swap, or of the change of a melt. -/
def reissuedBy : Call → Outcome CashuError Response → Nat
  | .postSwap _, .ok r => signaturesValue r.signatures
  | .postMelt _, .ok r => signaturesValue r.signatures
  | _, _ => 0

/-- The value of the inputs of an `Ok` swap or melt. -/
def redeemedBy : Call → Outcome CashuError Response → Nat
  | .postSwap request, .ok _ => proofsValue request.inputs
  | .postMelt request, .ok _ => proofsValue request.inputs
  | _, _ => 0

/-- Nothing is paid out on quotes but by a melt. -/
theorem MeltQuotesAfter.paidOut_eq {a : Act} {w : World} {t : Finmap fun _ : String => MeltQuoteEntry}
    (h : MeltQuotesAfter a.env w a.call t) (hfresh : Fresh w a) (hcall : ∀ request, a.call ≠ .postMelt request) :
    rowSum paidOutOf t = rowSum paidOutOf w.mint.meltQuotes := by
  cases h with
  | same => rfl
  | created call q unpaid =>
    have hnone := (hfresh.lookup (show Micronuts.drawn a = some a.env.nowV7 by rw [Micronuts.drawn, call])).2
    have hzero : paidOutOf q = 0 := by simp [paidOutOf, unpaid]
    rw [rowSum_insert_new hnone, hzero, Nat.zero_add]
  | melted call q found unpaid state left => exact absurd call (hcall _)

/-- What a call gives and pays out is covered by the inputs it takes. -/
theorem CallEnds.exchange {a : Act} {w : World} {out : Outcome CashuError Response} {m : DemoMint} {tr : List Event}
    (h : CallEnds a.env w a.call out m tr) (hfresh : Fresh w a) :
    ∃ paid, rowSum paidOutOf m.meltQuotes = rowSum paidOutOf w.mint.meltQuotes + paid ∧
      reissuedBy a.call out + paid ≤ redeemedBy a.call out := by
  have hquiet : (∀ request, a.call ≠ .postMelt request) → reissuedBy a.call out ≤ redeemedBy a.call out →
      ∃ paid, rowSum paidOutOf m.meltQuotes = rowSum paidOutOf w.mint.meltQuotes + paid ∧
        reissuedBy a.call out + paid ≤ redeemedBy a.call out :=
    fun hcall hle => ⟨0, h.meltQuotes.paidOut_eq hfresh hcall, hle⟩
  obtain ⟨call, env, ending⟩ := a
  dsimp only at h hquiet ⊢
  cases call with
  | postMelt request =>
    cases h with
    | refused settled => exact ⟨0, by rw [settled.meltQuotes]; rfl, Nat.le_refl _⟩
    | looked looks settled => exact looks.elim
    | @meltPaid _ plan w₁ q ys preimage change m claimed passed claims answer signed mint_eq =>
      subst mint_eq
      refine ⟨q.amount.toNat, ?_, ?_⟩
      · rw [DemoMint.putMeltQuote_meltQuotes, DemoMint.record_meltQuotes]
        exact paidOut_insert passed.found passed.unpaid .paid
      · obtain ⟨fee, -, hcovers⟩ := passed.covers
        have hvalue : reissuedBy (.postMelt request) (.ok (.melted (meltResponse request q preimage change))) =
          outputsValue plan.filled := signed.value
        rw [hvalue]
        show _ ≤ proofsValue request.inputs
        omega
    | meltFailed request claimed passed claims answer mint_eq =>
      subst mint_eq
      exact ⟨0, paidOut_insert passed.found passed.unpaid .failed, Nat.le_refl _⟩
    | meltStopped request claimed passed claims answer notTotal mint_eq =>
      subst mint_eq
      rw [DemoMint.record_meltQuotes]
      exact ⟨0, paidOut_insert passed.found passed.unpaid .pending, Nat.le_refl _⟩
  | postSwap request =>
    refine hquiet (fun _ h => by cases h) ?_
    cases h with
    | refused settled => exact Nat.le_refl _
    | looked looks settled => exact looks.elim
    | @swapped _ ys sigs m passed claims signed mint_eq =>
      obtain ⟨fee, -, hbalance⟩ := passed.balance
      have hvalue : reissuedBy (.postSwap request) (.ok (.swapped ⟨sigs⟩)) = outputsValue request.outputs := signed.value
      rw [hvalue]
      show _ ≤ proofsValue request.inputs
      omega
    | swapStopped request claimed passed claims mint_eq stops signed => exact Nat.le_refl _
  | postMintQuote request => exact hquiet (fun _ h => by cases h) (Nat.le_refl _)
  | getMintQuote quoteId => exact hquiet (fun _ h => by cases h) (Nat.le_refl _)
  | batchCheckMintQuotes request => exact hquiet (fun _ h => by cases h) (Nat.le_refl _)
  | postMint request => exact hquiet (fun _ h => by cases h) (Nat.le_refl _)
  | batchMint request => exact hquiet (fun _ h => by cases h) (Nat.le_refl _)
  | postMeltQuote request => exact hquiet (fun _ h => by cases h) (Nat.le_refl _)
  | getMeltQuote quoteId => exact hquiet (fun _ h => by cases h) (Nat.le_refl _)
  | postRestore request => exact hquiet (fun _ h => by cases h) (Nat.le_refl _)

/-! ### The mint as a ledger -/

def Step.reissued (e : Step World Act) : Nat :=
  match e.act.ending with
  | .returned out => reissuedBy e.act.call out
  | .crashed _ => 0

def Step.redeemed (e : Step World Act) : Nat :=
  match e.act.ending with
  | .returned out => redeemedBy e.act.call out
  | .crashed _ => 0

def reissuedValue (h : History) : Nat := (h.map Step.reissued).sum

def redeemedValue (h : History) : Nat := (h.map Step.redeemed).sum

/-- The books of the mint: paid quotes, minted tokens, inputs taken, tokens and payments given for them. -/
def ledger (h : History) (w : World) : Ledger where
  deposited := rowSum paidOf w.mint.mintQuotes
  withdrawn := mintedValue h
  redeemed := redeemedValue h
  reissued := reissuedValue h
  paidOut := rowSum paidOutOf w.mint.meltQuotes

theorem IssuedIs.covered {h : History} {w : World} (hI : IssuedIs h w) :
    mintedValue h ≤ rowSum paidOf w.mint.mintQuotes := by
  rw [← hI.total]
  refine rowSum_mono fun id => rowAt_le (fun id e he => ?_) id
  exact UInt64.le_iff_toNat_le.1 (hI.ok id e he).issued_le

/-- One call makes moves of the ledger. -/
theorem CallStep.moves {h : History} {w w' : World} {a : Act} (hstep : CallStep w a w') (hfresh : Fresh w a)
    (hpart : ¬ Step.ReissuesPart ⟨w, a, w'⟩) (hI : IssuedIs h w) :
    Ledger.Moves (ledger h w) (ledger (h ++ [⟨w, a, w'⟩]) w') := by
  have hI' : IssuedIs (h ++ [⟨w, a, w'⟩]) w' := hstep.issuedIs hfresh hpart hI
  obtain ⟨out, hout, hends⟩ := hstep.exists_ends
  obtain ⟨n, hn⟩ := Nat.exists_eq_add_of_le (rowSum_mono (hends.paid_le (a := a) hI.ok hfresh))
  obtain ⟨paid, hpaid, hcover⟩ := hends.exchange (a := a) hfresh
  have hminted := mintedValue_append h ⟨w, a, w'⟩
  have hreissued : reissuedValue (h ++ [⟨w, a, w'⟩]) = reissuedValue h + reissuedBy a.call out := by
    simp [reissuedValue, Step.reissued, hout]
  have hredeemed : redeemedValue (h ++ [⟨w, a, w'⟩]) = redeemedValue h + redeemedBy a.call out := by
    simp [redeemedValue, Step.redeemed, hout]
  let l₁ : Ledger := { ledger h w with deposited := (ledger h w).deposited + n }
  let l₂ : Ledger := { l₁ with withdrawn := l₁.withdrawn + Step.minted ⟨w, a, w'⟩ }
  let l₃ : Ledger := { l₂ with
    redeemed := l₂.redeemed + redeemedBy a.call out
    reissued := l₂.reissued + reissuedBy a.call out
    paidOut := l₂.paidOut + paid }
  have hwithdraw : l₁.withdrawn + Step.minted ⟨w, a, w'⟩ ≤ l₁.deposited := by
    have hcovered := hI'.covered
    rw [hminted, hn] at hcovered
    exact hcovered
  have hend : l₃ = ledger (h ++ [⟨w, a, w'⟩]) w' := by
    unfold ledger
    rw [hn, hpaid, hminted, hreissued, hredeemed]
    rfl
  have h₁ : Ledger.Moves (ledger h w) l₁ := .of_move (.deposit _ n)
  have h₂ : Ledger.Moves l₁ l₂ := .of_move (.withdraw _ _ hwithdraw)
  have h₃ : Ledger.Moves l₂ l₃ := .of_move (.exchange _ _ _ _ hcover)
  exact hend ▸ (h₁.trans h₂).trans h₃

/-- A run of the mint is a run of the ledger from empty books. -/
theorem ledger_of_run {ks : DemoKeyset} {store : Bool} {h : History} {w : World}
    (hrun : Run CallStep (World.init ks store) h w) (huuid : UuidsDistinct h) (hpart : ∀ e ∈ h, ¬ Step.ReissuesPart e) :
    Ledger.Moves Ledger.empty (ledger h w) := by
  suffices hI : IssuedIs h w ∧ Ledger.Moves Ledger.empty (ledger h w) from hI.2
  refine CallStep.invariant (I := fun h w => IssuedIs h w ∧ Ledger.Moves Ledger.empty (ledger h w))
    (G := fun e => ¬ Step.ReissuesPart e) ?_ ?_ hrun huuid hpart
  · exact ⟨issuedIs_of_run .nil (by simp [UuidsDistinct, History.drawn]) (by simp), .refl _⟩
  · rintro h w a w' hpart hfresh ⟨hI, hmoves⟩ hstep
    exact ⟨hstep.issuedIs hfresh hpart hI, hmoves.trans (hstep.moves hfresh hpart hI)⟩

/-! ### What a client can have -/

/-- The `(B_, amount)` pairs that a step hands out, in a response or by restoring. -/
def Step.handedOut (e : Step World Act) : List (PublicKey × UInt64) :=
  match e.act.call, e.act.ending with
  | .postRestore _, .returned (.ok (.restored r)) => r.outputs.map fun out => (out.y, out.signature.amount)
  | _, _ => (Step.granted e).map fun p => (p.1.b, p.2.amount)

def obtained (h : History) : Finset (PublicKey × UInt64) := (h.flatMap Step.handedOut).toFinset

def obtainedValue (h : History) : Nat := ∑ p ∈ obtained h, p.2.toNat

/-- The pairs that responses carried. -/
def grantedPairs (h : History) : List (PublicKey × UInt64) :=
  h.flatMap fun e => (Step.granted e).map fun p => (p.1.b, p.2.amount)

theorem zip_value_le (outputs : List BlindedMessage) (sigs : List BlindSignature) :
    ((outputs.zip sigs).map fun p => p.2.amount.toNat).sum ≤ signaturesValue sigs := by
  induction outputs generalizing sigs with
  | nil => simp
  | cons o outputs ih =>
    cases sigs with
    | nil => simp
    | cons s sigs =>
      have hcons : signaturesValue (s :: sigs) = s.amount.toNat + signaturesValue sigs := rfl
      have hrest := ih sigs
      rw [List.zip_cons_cons, List.map_cons, List.sum_cons, hcons]
      dsimp only
      omega

/-- What a response carries is minted or reissued. -/
theorem granted_value_le (env : Env) (w : World) (c : Call) (out : Outcome CashuError Response) :
    ((granted env w c out).map fun p => p.2.amount.toNat).sum ≤ mintedBy c out + reissuedBy c out := by
  cases out with
  | err e => exact Nat.zero_le _
  | panic => exact Nat.zero_le _
  | ok r =>
    have hzip := zip_value_le (c.outputsIn env w) r.signatures
    cases c with
    | postMint request => exact hzip
    | batchMint request => exact hzip
    | postSwap request => exact hzip.trans (Nat.le_add_left _ _)
    | postMelt request => exact hzip.trans (Nat.le_add_left _ _)
    | postMintQuote request => exact Nat.zero_le _
    | getMintQuote quoteId => exact Nat.zero_le _
    | batchCheckMintQuotes request => exact Nat.zero_le _
    | postMeltQuote request => exact Nat.zero_le _
    | getMeltQuote quoteId => exact Nat.zero_le _
    | postRestore request => exact Nat.zero_le _

theorem grantedPairs_value_le (h : History) :
    ((grantedPairs h).map fun p => p.2.toNat).sum ≤ mintedValue h + reissuedValue h := by
  induction h with
  | nil => exact Nat.le_refl _
  | cons e h ih =>
    have hstep : ((Step.granted e).map fun p => p.2.amount.toNat).sum ≤ Step.minted e + Step.reissued e := by
      unfold Step.granted Step.minted Step.reissued
      cases e.act.ending with
      | returned out => exact granted_value_le _ _ _ out
      | crashed lost => exact Nat.zero_le _
    have hpairs : ((grantedPairs (e :: h)).map fun p => p.2.toNat).sum =
        ((Step.granted e).map fun p => p.2.amount.toNat).sum + ((grantedPairs h).map fun p => p.2.toNat).sum := by
      simp [grantedPairs, Function.comp_def]
    have hminted : mintedValue (e :: h) = Step.minted e + mintedValue h := rfl
    have hreissued : reissuedValue (e :: h) = Step.reissued e + reissuedValue h := rfl
    omega

theorem CallEnds.restored_eq {env : Env} {w : World} {request : RestoreRequest} {r : RestoreResponse} {m : DemoMint}
    {tr : List Event} (h : CallEnds env w (.postRestore request) (.ok (.restored r)) m tr) :
    r = w.mint.postRestore request := by
  cases h with
  | looked looks settled => exact looks.elim
  | restored request => rfl

/-- A client has only pairs that some response carried. -/
theorem obtained_granted {ks : DemoKeyset} {store : Bool} {h : History} {w : World}
    (hrun : Run CallStep (World.init ks store) h w) (htotal : SignTotal ks) (hpart : ∀ e ∈ h, ¬ Step.PartlySigns e)
    {p : PublicKey × UInt64} (hp : p ∈ obtained h) : p ∈ grantedPairs h := by
  obtain ⟨e, he, hmem⟩ := List.mem_flatMap.1 (List.mem_toFinset.1 hp)
  unfold Step.handedOut at hmem
  split at hmem
  · next request r hcall hret =>
    obtain ⟨h₁, h₂, rfl, hrun₁⟩ := hrun.before_of_mem he
    have hstep : CallStep e.pre e.act e.post := hrun.step_of_mem he
    have hends := hstep.ends hret
    rw [hcall] at hends
    obtain rfl := hends.restored_eq
    obtain ⟨out, hout, rfl⟩ := List.mem_map.1 hmem
    obtain ⟨b, -, hb⟩ := List.mem_filterMap.1 hout
    obtain ⟨sig, hsig, rfl⟩ := Option.map_eq_some_iff.1 hb
    have hpart₁ : ∀ e ∈ h₁, ¬ Step.PartlySigns e := fun e he => hpart e (List.mem_append_left _ he)
    obtain ⟨e', he', o, ho, hkey⟩ := indexGranted_of_run hrun₁ htotal hpart₁ _ sig hsig
    have hgranted := List.mem_map_of_mem (f := fun p : BlindedMessage × BlindSignature => (p.1.b, p.2.amount)) ho
    rw [pointHex_injective hkey] at hgranted
    exact List.mem_flatMap.2 ⟨e', List.mem_append_left _ he', hgranted⟩
  · exact List.mem_flatMap.2 ⟨e, he, hmem⟩

/-- What clients can have, and what was paid for them, is covered by what they paid and gave back. -/
theorem no_inflation {ks : DemoKeyset} {store : Bool} {h : History} {w : World}
    (hrun : Run CallStep (World.init ks store) h w) (htotal : SignTotal ks) (huuid : UuidsDistinct h)
    (hpart : ∀ e ∈ h, ¬ Step.PartlySigns e ∧ ¬ Step.ReissuesPart e) :
    obtainedValue h + rowSum paidOutOf w.mint.meltQuotes ≤ rowSum paidOf w.mint.mintQuotes + redeemedValue h := by
  have hsubset : obtained h ⊆ (grantedPairs h).toFinset := fun p hp =>
    List.mem_toFinset.2 (obtained_granted hrun htotal (fun e he => (hpart e he).1) hp)
  have hobtained : obtainedValue h ≤ mintedValue h + reissuedValue h :=
    calc obtainedValue h ≤ ∑ p ∈ (grantedPairs h).toFinset, p.2.toNat := Finset.sum_le_sum_of_subset hsubset
      _ ≤ ((grantedPairs h).map fun p => p.2.toNat).sum := sum_toFinset_le _ _
      _ ≤ mintedValue h + reissuedValue h := grantedPairs_value_le h
  have hmoves := ledger_of_run hrun huuid fun e he => (hpart e he).2
  have hsolvent := (hmoves.solvent .empty).issued_le
  exact (Nat.add_le_add_right hobtained _).trans hsolvent

end

section toy
open Toy

theorem no_inflation_toy :
    obtainedValue (replay (World.init keyset true) mintingCalls).1 +
        rowSum paidOutOf (replay (World.init keyset true) mintingCalls).2.mint.meltQuotes ≤
      rowSum paidOf (replay (World.init keyset true) mintingCalls).2.mint.mintQuotes +
        redeemedValue (replay (World.init keyset true) mintingCalls).1 :=
  no_inflation (run_replay (by decide +kernel)) signTotal (by decide +kernel) (by decide +kernel)

/-- The half-signed outputs, the signature that was recorded for them, and the whole quote once more. -/
def inflatingCalls : List (Call × Env) :=
  halfSignedCalls ++ [(.postRestore ⟨[(5 : UInt8)]⟩, env), (.postMint ⟨"0190-q1", [⟨4, "00c0ffee", (7 : UInt8)⟩], none⟩, env)]

/-- Five are obtained for a quote of four. -/
theorem inflation : ∃ h w, Run CallStep (World.init keyset true) h w ∧ UuidsDistinct h ∧
    rowSum paidOf w.mint.mintQuotes + redeemedValue h <
      obtainedValue h + rowSum paidOutOf w.mint.meltQuotes := by
  refine ⟨_, _, @run_replay _ _ inflatingCalls (by decide +kernel), by decide +kernel, ?_⟩
  decide +kernel

end toy

end Micronuts
