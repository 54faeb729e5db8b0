import Micronuts.Mint.QuoteLifecycle
import Micronuts.Mint.Restore

/-!
# Issued against quotes

The table of mint quotes counts what was paid and what was issued. Every minting call adds the value of its
outputs to `amountIssued`, but for a batch that names a quote of which a part was issued before: it is charged with
the whole amount, and the part is forgotten (`ReissuesPart`).
-/

namespace Micronuts
open Exec Finmap

def issuedOf (e : MintQuoteEntry) : Nat := e.amountIssued.toNat

def paidOf (e : MintQuoteEntry) : Nat := e.amountPaid.toNat

section
variable [Crypto]

/-! ### What was paid -/

theorem Writes.paid_le {t₀ t : MintQuotes} {tr₀ tr : List Event} (h : Writes t₀ tr₀ t tr) (hok : QuotesOk t₀)
    (id : String) : rowAt paidOf t₀ id ≤ rowAt paidOf t id := by
  induction h with
  | refl => exact Nat.le_refl _
  | @write t tr id' old new before found write ih =>
    rw [rowAt_insert]
    split
    · next hid =>
      subst hid
      rw [rowAt_of_lookup found] at ih
      refine ih.trans ?_
      have hold := before.ok hok _ _ found
      cases write with
      | settle unpaid later => rw [paidOf, (hold.unpaid_counters unpaid).1]; exact Nat.zero_le _
      | mint paid grows le later => exact Nat.le_refl _
      | batchMint paid later => exact Nat.le_refl _
    · exact ih
  | saved _ _ ih => exact ih
  | paid _ _ _ _ ih => exact ih

theorem CallEnds.paid_le {a : Act} {w : World} {out : Outcome CashuError Response} {m : DemoMint} {tr : List Event}
    (h : CallEnds a.env w a.call out m tr) (hok : QuotesOk w.mint.mintQuotes) (hfresh : Fresh w a) (id : String) :
    rowAt paidOf w.mint.mintQuotes id ≤ rowAt paidOf m.mintQuotes id := by
  rcases h.mintQuotes with hwrites | ⟨request, invoice, expiry, now, hcall, -, hm, -⟩
  · exact hwrites.paid_le hok id
  · have hnone := (hfresh.lookup (show drawn a = some a.env.nowV7 by rw [drawn, hcall])).1
    rw [hm, rowAt_insert]
    split
    · next hid => rw [rowAt, hid, hnone]; exact Nat.zero_le _
    · exact Nat.le_refl _

/-! ### What was issued -/

def mintedBy : Call → Outcome CashuError Response → Nat
  | .postMint _, .ok r => signaturesValue r.signatures
  | .batchMint _, .ok r => signaturesValue r.signatures
  | _, _ => 0

def Call.quotes : Call → List String
  | .postMint request => [request.quote]
  | .batchMint request => request.quotes
  | _ => []

theorem mintedBy_err (c : Call) (e : CashuError) : mintedBy c (.err e) = 0 := by cases c <;> rfl

theorem mintedBy_looks {c : Call} (h : c.Looks) (r : Response) : mintedBy c (.ok r) = 0 := by
  cases c <;> first | rfl | exact h.elim

/-- A batch that gets to signing names a quote of which a part was issued before. -/
def ReissuesPart (env : Env) (w : World) : Call → Prop
  | .batchMint request => checksPass env w (.batchMint request) = true ∧
      ∃ id ∈ request.quotes, rowAt issuedOf w.mint.mintQuotes id ≠ 0
  | _ => False

instance (env : Env) (w : World) : DecidablePred (ReissuesPart env w)
  | .batchMint request => inferInstanceAs (Decidable (checksPass env w (.batchMint request) = true ∧
      ∃ id ∈ request.quotes, rowAt issuedOf w.mint.mintQuotes id ≠ 0))
  | .postMintQuote _ | .getMintQuote _ | .batchCheckMintQuotes _ | .postMint _ | .postMeltQuote _ | .getMeltQuote _ |
    .postMelt _ | .postSwap _ | .postRestore _ => inferInstanceAs (Decidable False)

theorem Settles.rowAt_issued {m m' : DemoMint} {tr tr' : List Event} (h : Settles m tr m' tr') (id : String) :
    rowAt issuedOf m'.mintQuotes id = rowAt issuedOf m.mintQuotes id := by
  induction h with
  | refl => rfl
  | settle _ found _ _ ih =>
    rw [DemoMint.putMintQuote_mintQuotes, rowAt_insert]
    split
    · next hid =>
      rw [← ih, hid, rowAt_of_lookup found]; rfl
    · exact ih

/-- A batch over quotes of which nothing was issued adds their amounts. -/
theorem Issues.issued {m m' : DemoMint} {tr tr' : List Event} {entries : List LoadedQuote}
    (h : Issues m tr entries m' tr') (hnd : (entries.map LoadedQuote.quoteId).Nodup)
    (hload : ∀ l ∈ entries, Loaded m l) (hzero : ∀ l ∈ entries, rowAt issuedOf m.mintQuotes l.quoteId = 0) :
    rowSum issuedOf m'.mintQuotes = rowSum issuedOf m.mintQuotes + loadedValue entries ∧
      ∀ id, id ∉ entries.map LoadedQuote.quoteId → rowAt issuedOf m'.mintQuotes id = rowAt issuedOf m.mintQuotes id := by
  induction entries generalizing m tr with
  | nil => cases h; exact ⟨rfl, fun _ _ => rfl⟩
  | cons l entries ih =>
    obtain ⟨e, u, found, -, hamount, -, hload', rest⟩ := h.cons_loaded hnd hload
    rw [List.map_cons, List.nodup_cons] at hnd
    have hrow : ∀ id, id ≠ l.quoteId → rowAt issuedOf (m.putMintQuote l.quoteId (e.batchMint l.amount u)).mintQuotes id =
        rowAt issuedOf m.mintQuotes id := by
      intro id hid
      rw [DemoMint.putMintQuote_mintQuotes, rowAt_insert, if_neg hid]
    have hzero' : ∀ l' ∈ entries,
        rowAt issuedOf (m.putMintQuote l.quoteId (e.batchMint l.amount u)).mintQuotes l'.quoteId = 0 := by
      intro l' hl'
      rw [hrow _ fun heq => hnd.1 (heq ▸ List.mem_map_of_mem hl')]
      exact hzero l' (List.mem_cons_of_mem _ hl')
    obtain ⟨hsum, hrest⟩ := ih rest hnd.2 hload' hzero'
    have hput := rowSum_insert_old (f := issuedOf) (v := e.batchMint l.amount u) found
    have hl := hzero l (List.mem_cons_self ..)
    rw [rowAt_of_lookup found] at hl
    have hnew : issuedOf (e.batchMint l.amount u) = l.amount.toNat := rfl
    have hcons : loadedValue (l :: entries) = l.amount.toNat + loadedValue entries := rfl
    refine ⟨?_, fun id hid => ?_⟩
    · rw [hsum, DemoMint.putMintQuote_mintQuotes]; omega
    · rw [List.map_cons, List.mem_cons, not_or] at hid
      rw [hrest id hid.2, hrow id hid.1]

/-- What a call does to the issued amounts: nothing, or it adds what it minted on the quotes it names. -/
structure IssuedAfter (w : World) (c : Call) (out : Outcome CashuError Response) (t : MintQuotes) : Prop where
  sum : rowSum issuedOf t = rowSum issuedOf w.mint.mintQuotes + mintedBy c out
  others : ∀ id, out.isOk = false ∨ id ∉ c.quotes → rowAt issuedOf t id = rowAt issuedOf w.mint.mintQuotes id

theorem IssuedAfter.same {w : World} {c : Call} {out : Outcome CashuError Response} {t : MintQuotes}
    (hzero : mintedBy c out = 0) (h : ∀ id, rowAt issuedOf t id = rowAt issuedOf w.mint.mintQuotes id) :
    IssuedAfter w c out t :=
  ⟨by rw [hzero, Nat.add_zero]; exact rowSum_congr h, fun id _ => h id⟩

theorem CallEnds.issued {a : Act} {w : World} {out : Outcome CashuError Response} {m : DemoMint} {tr : List Event}
    (h : CallEnds a.env w a.call out m tr) (hfresh : Fresh w a) (hpart : ¬ ReissuesPart a.env w a.call) :
    IssuedAfter w a.call out m.mintQuotes := by
  obtain ⟨call, env, ending⟩ := a
  dsimp only at h hpart ⊢
  cases h with
  | refused settled => exact .same (mintedBy_err _ _) settled.rowAt_issued
  | looked looks settled => exact .same (mintedBy_looks looks _) settled.rowAt_issued
  | restored request => exact .same rfl fun _ => rfl
  | mintQuoteCreated request invoice expiry now positive new mint_eq =>
    subst mint_eq new
    have hnone := (hfresh.lookup rfl).1
    refine .same rfl fun id => ?_
    rw [DemoMint.putMintQuote_mintQuotes, rowAt_insert]
    split
    · next hid => rw [rowAt, hid, hnone]; rfl
    · rfl
  | meltQuoteCreated request unpaid mint_eq => subst mint_eq; exact .same rfl fun _ => rfl
  | @minted request m' tr' e sum issued u sigs settled passed signed later issued_eq m mint_eq =>
    subst mint_eq
    have hput := rowSum_insert_old (f := issuedOf) (v := e.mint issued u) passed.found
    have hsettled : rowSum issuedOf m'.mintQuotes = rowSum issuedOf w.mint.mintQuotes :=
      rowSum_congr settled.rowAt_issued
    have hminted : mintedBy (.postMint request) (.ok (.minted ⟨sigs⟩)) = sum.toNat := by
      rw [passed.sum_eq]; exact signed.value
    have hnew : issuedOf (e.mint issued u) = e.amountIssued.toNat + sum.toNat := issued_eq
    have hold : issuedOf e = e.amountIssued.toNat := rfl
    rw [DemoMint.putMintQuote_mintQuotes, DemoMint.record_mintQuotes]
    refine ⟨by omega, fun id hid => ?_⟩
    have hne : id ≠ request.quote := by simpa [Outcome.isOk, Call.quotes] using hid
    rw [rowAt_insert, if_neg hne, settled.rowAt_issued]
  | mintStopped request checks settled stops signed =>
    rw [DemoMint.record_mintQuotes]; exact .same rfl settled.rowAt_issued
  | @batchMinted request entries w₁ m tr' sigs checks settled passed signed issues =>
    have hzero : ∀ l ∈ entries, rowAt issuedOf (w₁.mint.record request.outputs sigs).mintQuotes l.quoteId = 0 := by
      intro l hl
      rw [DemoMint.record_mintQuotes, settled.rowAt_issued]
      by_contra hne
      have hid : l.quoteId ∈ request.quotes := by rw [← passed.ids]; exact List.mem_map_of_mem hl
      exact hpart ⟨by simp [checksPass, checks, Outcome.isOk], l.quoteId, hid, hne⟩
    obtain ⟨hsum, hothers⟩ := issues.issued (by rw [passed.ids]; exact passed.nodup)
      (fun l hl => (passed.loaded l hl).record request.outputs sigs) hzero
    rw [DemoMint.record_mintQuotes] at hsum hothers
    have hminted : mintedBy (.batchMint request) (.ok (.minted ⟨sigs⟩)) = loadedValue entries := by
      rw [← passed.balance]; exact signed.value
    refine ⟨?_, fun id hid => ?_⟩
    · rw [hsum, hminted, rowSum_congr settled.rowAt_issued]
    · have hmem : id ∉ request.quotes := by simpa [Outcome.isOk, Call.quotes] using hid
      rw [hothers id (by rwa [passed.ids]), settled.rowAt_issued]
  | batchStopped request checks settled stops signed =>
    rw [DemoMint.record_mintQuotes]; exact .same rfl settled.rowAt_issued
  | swapped request passed claims signed mint_eq =>
    subst mint_eq
    rw [DemoMint.record_mintQuotes]; exact .same rfl fun _ => rfl
  | swapStopped request claimed passed claims mint_eq stops signed =>
    rw [DemoMint.record_mintQuotes, mint_eq]; exact .same rfl fun _ => rfl
  | meltPaid request claimed passed claims answer signed mint_eq =>
    subst mint_eq
    rw [DemoMint.putMeltQuote_mintQuotes, DemoMint.record_mintQuotes]; exact .same rfl fun _ => rfl
  | meltFailed request claimed passed claims answer mint_eq => subst mint_eq; exact .same rfl fun _ => rfl
  | meltStopped request claimed passed claims answer notTotal mint_eq =>
    subst mint_eq
    rw [DemoMint.record_mintQuotes]; exact .same rfl fun _ => rfl

/-- The value of a batch fits in what its quotes had left. -/
theorem CallEnds.batch_le {env : Env} {w : World} {request : BatchMintRequest} {r : Response} {m : DemoMint}
    {tr : List Event} (h : CallEnds env w (.batchMint request) (.ok r) m tr) (hok : QuotesOk w.mint.mintQuotes)
    (hpart : ¬ ReissuesPart env w (.batchMint request)) : signaturesValue r.signatures ≤
      (request.quotes.map fun id => rowAt paidOf m.mintQuotes id - rowAt issuedOf w.mint.mintQuotes id).sum := by
  cases h with
  | looked looks settled => exact looks.elim
  | @batchMinted request entries w₁ m tr' sigs checks settled passed signed issues =>
    have hok₁ : QuotesOk w₁.mint.mintQuotes := settled.writes.ok hok
    have hwrites := issues.writes (by rw [passed.ids]; exact passed.nodup)
      fun l hl => (passed.loaded l hl).record request.outputs sigs
    rw [DemoMint.record_mintQuotes] at hwrites
    have hvalue : signaturesValue sigs = loadedValue entries := by rw [← passed.balance]; exact signed.value
    show signaturesValue sigs ≤ _
    rw [hvalue, loadedValue, ← passed.ids, List.map_map]
    refine List.sum_le_sum fun l hl => ?_
    obtain ⟨e, he, hpaid, hamount, -⟩ := passed.loaded l hl
    have hle := hwrites.paid_le hok₁ l.quoteId
    rw [rowAt_of_lookup he, paidOf, (hok₁ _ _ he).paid_amount hpaid, hamount] at hle
    have hzero : rowAt issuedOf w.mint.mintQuotes l.quoteId = 0 := by
      by_contra hne
      have hid : l.quoteId ∈ request.quotes := by rw [← passed.ids]; exact List.mem_map_of_mem hl
      exact hpart ⟨by simp [checksPass, checks, Outcome.isOk], l.quoteId, hid, hne⟩
    simp only [Function.comp_apply]
    omega

/-! ### Runs -/

def Step.minted (e : Step World Act) : Nat :=
  match e.act.ending with
  | .returned out => mintedBy e.act.call out
  | .crashed _ => 0

/-- The quotes that an `Ok` minting call names. -/
def Step.quotes (e : Step World Act) : List String :=
  match e.act.ending with
  | .returned (.ok _) => e.act.call.quotes
  | _ => []

def Step.ReissuesPart (e : Step World Act) : Prop := Micronuts.ReissuesPart e.act.env e.pre.begin e.act.call

instance (e : Step World Act) : Decidable (Step.ReissuesPart e) :=
  inferInstanceAs (Decidable (Micronuts.ReissuesPart e.act.env e.pre.begin e.act.call))

def mintedValue (h : History) : Nat := (h.map Step.minted).sum

def namedQuotes (h : History) : Finset String := (h.flatMap Step.quotes).toFinset

theorem mintedValue_append (h : History) (e : Step World Act) : mintedValue (h ++ [e]) = mintedValue h + Step.minted e := by
  simp [mintedValue]

/-- The issued amounts are exactly what was minted, and on named quotes only. -/
structure IssuedIs (h : History) (w : World) : Prop where
  ok : QuotesOk w.mint.mintQuotes
  total : rowSum issuedOf w.mint.mintQuotes = mintedValue h
  named : ∀ id, id ∉ namedQuotes h → rowAt issuedOf w.mint.mintQuotes id = 0

theorem CallStep.issuedIs {h : History} {w w' : World} {a : Act} (hstep : CallStep w a w') (hfresh : Fresh w a)
    (hpart : ¬ Step.ReissuesPart ⟨w, a, w'⟩) (hI : IssuedIs h w) : IssuedIs (h ++ [⟨w, a, w'⟩]) w' := by
  obtain ⟨out, hout, hends⟩ := hstep.exists_ends
  obtain ⟨hsum, hothers⟩ := hends.issued (a := a) hfresh hpart
  refine ⟨hstep.quotesOk hI.ok, ?_, fun id hid => ?_⟩
  · have hminted : Step.minted ⟨w, a, w'⟩ = mintedBy a.call out := by simp only [Step.minted, hout]
    rw [hsum, mintedValue_append, hminted]
    exact congrArg (· + _) hI.total
  · simp only [namedQuotes, List.flatMap_append, List.flatMap_singleton, List.mem_toFinset, List.mem_append,
      not_or] at hid
    have hnot : out.isOk = false ∨ id ∉ a.call.quotes := by
      cases out with
      | ok r => right; simpa only [Step.quotes, hout] using hid.2
      | err e => exact .inl rfl
      | panic => exact .inl rfl
    rw [hothers id hnot]
    exact hI.named id (by simpa [namedQuotes] using hid.1)

theorem issuedIs_of_run {ks : DemoKeyset} {store : Bool} {h : History} {w : World}
    (hrun : Run CallStep (World.init ks store) h w) (huuid : UuidsDistinct h) (hpart : ∀ e ∈ h, ¬ Step.ReissuesPart e) :
    IssuedIs h w := by
  refine CallStep.invariant (G := fun e => ¬ Step.ReissuesPart e) ?_ ?_ hrun huuid hpart
  · exact ⟨fun id e he => by simp [World.init, World.boot, DemoMint.fresh] at he, rowSum_empty _, fun id _ => rfl⟩
  · exact fun h w a w' hpart hfresh hI hstep => hstep.issuedIs hfresh hpart hI

/-- What was minted is covered by what was paid on the named quotes, and each batch by what its quotes had left. -/
structure IssuedWithinPaid (h : History) (w : World) : Prop where
  total : mintedValue h ≤ ∑ id ∈ namedQuotes h, rowAt paidOf w.mint.mintQuotes id
  batches : ∀ e ∈ h, ∀ request r, e.act.call = .batchMint request → e.act.ending = .returned (.ok r) →
    signaturesValue r.signatures ≤
      (request.quotes.map fun id => rowAt paidOf e.post.mint.mintQuotes id - rowAt issuedOf e.pre.mint.mintQuotes id).sum

theorem issued_within_paid {ks : DemoKeyset} {store : Bool} {h : History} {w : World}
    (hrun : Run CallStep (World.init ks store) h w) (huuid : UuidsDistinct h) (hpart : ∀ e ∈ h, ¬ Step.ReissuesPart e) :
    IssuedWithinPaid h w := by
  constructor
  · obtain ⟨hok, htotal, hnamed⟩ := issuedIs_of_run hrun huuid hpart
    rw [← htotal]
    refine (rowSum_le_sum _ hnamed).trans (Finset.sum_le_sum fun id _ => rowAt_le ?_ id)
    exact fun id e he => UInt64.le_iff_toNat_le.1 (hok id e he).issued_le
  · intro e he request r hcall hret
    obtain ⟨h₁, h₂, rfl, hrun₁⟩ := hrun.before_of_mem he
    have hstep : CallStep e.pre e.act e.post := hrun.step_of_mem he
    have hends := hstep.ends hret
    rw [hcall] at hends
    have hok : QuotesOk e.pre.mint.mintQuotes := quotesOk_of_run hrun₁
    have hpart := hpart e he
    unfold Step.ReissuesPart at hpart
    rw [hcall] at hpart
    exact hends.batch_le hok hpart

end

section toy
open Toy

theorem issued_within_paid_toy :
    IssuedWithinPaid (replay (World.init keyset true) mintingCalls).1 (replay (World.init keyset true) mintingCalls).2 :=
  issued_within_paid (run_replay (by decide +kernel)) (by decide +kernel) (by decide +kernel)

/-- A quote of two, from which one is minted, and then two in a batch. -/
def reissuingCalls : List (Call × Env) :=
  [(.postMintQuote ⟨2, "sat", none⟩, env), (.postMint ⟨"0190-q1", [⟨1, "00c0ffee", (5 : UInt8)⟩], none⟩, env),
   (.batchMint ⟨["0190-q1"], none, [⟨2, "00c0ffee", (6 : UInt8)⟩], none⟩, env)]

/-- Three are minted on the quote of two. -/
theorem issued_beyond_paid : ∃ h w, Run CallStep (World.init keyset true) h w ∧ UuidsDistinct h ∧
    ¬ IssuedWithinPaid h w := by
  refine ⟨_, _, @run_replay _ _ reissuingCalls (by decide +kernel), by decide +kernel, fun h => ?_⟩
  have htotal := h.total
  revert htotal
  decide +kernel

end toy

end Micronuts
