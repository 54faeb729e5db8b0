import Micronuts.Mint.StateCheck

/-!
# A spent coin has been presented

Points enter the spent set with a swap or a melt that has them among its inputs, and a snapshot has no others. So what a run
has spent, through restarts from any snapshot that was durable, was an input of one of its calls (`presented_of_run`).
-/

namespace Micronuts
open MintM Exec

section
variable [Crypto]

/-- The call has an input with this point. -/
def Call.Presents : Call → String → Prop
  | .postSwap request, y => ∃ p ∈ request.inputs, proofYHex p.secret = .ok y
  | .postMelt request, y => ∃ p ∈ request.inputs, proofYHex p.secret = .ok y
  | _, _ => False

/-- The snapshot has spent points of `S` only. -/
def Event.SpentIn (S : Set String) : Event → Prop
  | .saved snap => ∀ y ∈ snap.spentYs, y ∈ S
  | .payInvoice .. => True
  | .quoteWritten .. => True

section calls
variable {env : Env} {w : World} {c : Call} {out : Outcome CashuError Response} {m : DemoMint} {tr : List Event}
    {S : Set String}

theorem Claims.spend_subset {proofs : List Proof} {ys : List String} (h : Claims w.mint proofs ys)
    (hspent : ∀ y ∈ w.mint.spentYs, y ∈ S) (hinputs : ∀ y, (∃ p ∈ proofs, proofYHex p.secret = .ok y) → y ∈ S) :
    ∀ y ∈ (w.mint.spend ys).spentYs, y ∈ S := by
  intro y hy
  rcases DemoMint.mem_spend.1 hy with hy | hy
  · exact hspent y hy
  · exact hinputs y (h.mem_iff.1 hy)

variable (hspent : ∀ y ∈ w.mint.spentYs, y ∈ S) (hpresents : ∀ y, c.Presents y → y ∈ S)
include hspent hpresents

theorem CallEnds.spent_subset (h : CallEnds env w c out m tr) : ∀ y ∈ m.spentYs, y ∈ S := by
  by_cases hswap : ∃ request, c = .postSwap request
  · obtain ⟨request, rfl⟩ := hswap
    cases h with
    | refused settled => rw [settled.spentYs]; exact hspent
    | looked looks settled => rw [settled.spentYs]; exact hspent
    | swapped request passed claims signed mint_eq =>
      rw [mint_eq, DemoMint.record_spentYs]
      exact claims.spend_subset hspent hpresents
    | swapStopped request claimed passed claims mint_eq stops signed =>
      rw [DemoMint.record_spentYs, mint_eq]
      exact claims.spend_subset hspent hpresents
  by_cases hmelt : ∃ request, c = .postMelt request
  · obtain ⟨request, rfl⟩ := hmelt
    cases h with
    | refused settled => rw [settled.spentYs]; exact hspent
    | looked looks settled => rw [settled.spentYs]; exact hspent
    | meltPaid request claimed passed claims answer signed mint_eq =>
      rw [mint_eq, DemoMint.putMeltQuote_spentYs, DemoMint.record_spentYs]
      exact claims.spend_subset hspent hpresents
    | meltFailed request claimed passed claims answer mint_eq => rw [mint_eq]; exact hspent
    | meltStopped request claimed passed claims answer notTotal mint_eq =>
      rw [mint_eq, DemoMint.record_spentYs]
      exact claims.spend_subset hspent hpresents
  rw [h.spentYs_eq (fun r hr => hswap ⟨r, hr⟩) fun r hr => hmelt ⟨r, hr⟩]
  exact hspent

/-- Every snapshot of the call has the points that were spent before it or that it presents. -/
theorem CallEnds.grows_spent (h : CallEnds env w c out m tr) : Grows (Event.SpentIn S) w.trace tr := by
  have hm : m.store = true → Event.SpentIn S (.saved m.snapshot) := fun _ => h.spent_subset hspent hpresents
  have hsettled : ∀ {m₁ tr₁}, Settles w.mint w.trace m₁ tr₁ → Grows (Event.SpentIn S) w.trace tr₁ := by
    refine fun settled => settled.grows.mono fun e he => ?_
    cases e with
    | saved snap =>
      intro y hy
      rw [he.2.1] at hy
      exact hspent y hy
    | payInvoice request invoice amount => trivial
    | quoteWritten id old new => trivial
  have hmelt : ∀ {request : MeltRequest} {q : MeltQuoteEntry} {ys : List String} {invoice : String} {amount : UInt64},
      c = .postMelt request → Claims w.mint request.inputs ys → Grows (Event.SpentIn S) w.trace
        (.payInvoice request invoice amount :: persisted (w.mint.meltPending request.quote q ys) w.trace) := by
    rintro request q ys invoice amount rfl claims
    exact .cons (grows_persisted .refl fun _ => claims.spend_subset hspent hpresents) trivial
  cases h with
  | refused settled => exact hsettled settled
  | looked looks settled => exact hsettled settled
  | restored request => exact .refl
  | mintQuoteCreated request invoice expiry now positive new mint_eq => exact grows_persisted .refl hm
  | meltQuoteCreated request unpaid mint_eq => exact grows_persisted .refl hm
  | minted request settled passed signed later issued_eq mint_eq =>
    exact grows_persisted (.cons (hsettled settled) trivial) hm
  | mintStopped request checks settled stops signed => exact hsettled settled
  | batchMinted request checks settled passed signed issues =>
    exact grows_persisted ((hsettled settled).trans (issues.grows fun _ _ _ => trivial)) hm
  | batchStopped request checks settled stops signed => exact hsettled settled
  | swapped request passed claims signed mint_eq => exact grows_persisted .refl hm
  | swapStopped request claimed passed claims mint_eq stops signed => exact .refl
  | meltPaid request claimed passed claims answer signed mint_eq => exact grows_persisted (hmelt rfl claims) hm
  | meltFailed request claimed passed claims answer mint_eq => exact grows_persisted (hmelt rfl claims) hm
  | meltStopped request claimed passed claims answer notTotal mint_eq => exact hmelt rfl claims

end calls

/-! ### Runs -/

/-- The points of the mint and of its durable snapshot are in `S`. -/
structure SpentIn (S : Set String) (w : World) : Prop where
  spent : ∀ y ∈ w.mint.spentYs, y ∈ S
  saved : ∀ snap, lastSaved w.trace = some snap → ∀ y ∈ snap.spentYs, y ∈ S

theorem SpentIn.mono {S T : Set String} {w : World} (h : SpentIn S w) (hST : S ⊆ T) : SpentIn T w where
  spent := fun y hy => hST (h.spent y hy)
  saved := fun snap hsnap y hy => hST (h.saved snap hsnap y hy)

theorem SpentIn.init (S : Set String) (ks : DemoKeyset) (store : Bool) : SpentIn S (World.init ks store) := by
  refine ⟨by simp [World.init, World.boot, DemoMint.fresh], fun snap hsnap => ?_⟩
  cases store with
  | false => simp [World.init, World.boot, DemoMint.fresh, persisted, lastSaved] at hsnap
  | true =>
    cases hsnap
    simp [DemoMint.snapshot, DemoMint.fresh]

theorem SpentIn.step {S : Set String} {w w' : World} {a : Act} (h : SpentIn S w) (hpresents : ∀ y, a.call.Presents y → y ∈ S)
    (hstep : DurableStep w a w') : SpentIn S w' := by
  have hbegin : SpentIn S w.begin := ⟨h.spent, h.saved⟩
  have hlast : ∀ {tr : List Event}, Grows (Event.SpentIn S) w.trace tr → ∀ snap, lastSaved tr = some snap →
      ∀ y ∈ snap.spentYs, y ∈ S := by
    intro tr hgrows snap hsnap
    rcases lastSaved_of_grows hgrows hsnap with hnew | hold
    · exact hnew
    · exact h.saved snap hold
  rcases hstep with hcall | hcrash
  · obtain ⟨out, -, hends⟩ := hcall.exists_ends
    have hgrows := hends.grows_spent hbegin.spent hpresents
    exact ⟨hends.spent_subset hbegin.spent hpresents, hlast hgrows⟩
  · obtain ⟨out, m, tr, snap, hends, hlow, hcut, hsaved, hrestore⟩ := hcrash.exists_ends
    have hgrows := hends.grows_spent hbegin.spent hpresents
    have hsnaps := hlast (hgrows.cut hlow hcut)
    refine ⟨?_, hsnaps⟩
    rw [(DemoMint.restore_eq_some hrestore).2.2.2.2]
    exact hsnaps snap hsaved

/-- The points that the calls of a history have presented. -/
def History.presented (h : History) : Set String := {y | ∃ e ∈ h, e.act.call.Presents y}

theorem presented_of_run {ks : DemoKeyset} {store : Bool} {h : History} {w : World}
    (hrun : Run DurableStep (World.init ks store) h w) : SpentIn h.presented w := by
  induction hrun with
  | nil => exact .init _ ks store
  | @snoc h w w' a _ hstep ih =>
    refine (ih.mono ?_).step (fun y hy => ⟨⟨w, a, w'⟩, by simp, hy⟩) hstep
    rintro y ⟨e, he, hy⟩
    exact ⟨e, List.mem_append_left _ he, hy⟩

end

end Micronuts
