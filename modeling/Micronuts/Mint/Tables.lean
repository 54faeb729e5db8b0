import Micronuts.Lib.Log
import Micronuts.Mint.Calls

/-!
# What one call does to the tables

One inversion lemma for each table, so that an invariant of a table need not look at all the ways a
call ends. An entry of the mint quotes is written in one of three ways (`QuoteWrite`), and every write is
in the trace. A melt quote leaves `UNPAID` at most once. The spent set only grows, in memory and in
whatever the call saves.
-/

namespace Micronuts
variable [Crypto]

/-! ### Mint quotes -/

/-- The three ways to write an entry. -/
inductive QuoteWrite (old : MintQuoteEntry) : MintQuoteEntry → Prop
  | settle {u} (unpaid : old.state = .unpaid) (later : Later old.updatedAt u) : QuoteWrite old (old.settle u)
  | mint {issued u} (paid : old.state = .paid) (grows : old.amountIssued ≤ issued)
      (le : issued ≤ old.amountPaid) (later : Later old.updatedAt u) : QuoteWrite old (old.mint issued u)
  | batchMint {u} (paid : old.state = .paid) (later : Later old.updatedAt u) :
      QuoteWrite old (old.batchMint old.amount u)

/-- The writes to the table that the trace records, from the older trace `tr₀`. -/
inductive Writes (t₀ : Finmap fun _ : String => MintQuoteEntry) (tr₀ : List Event) :
    (Finmap fun _ : String => MintQuoteEntry) → List Event → Prop
  | refl : Writes t₀ tr₀ t₀ tr₀
  | write {t tr id old new} (before : Writes t₀ tr₀ t tr) (found : t.lookup id = some old)
      (write : QuoteWrite old new) : Writes t₀ tr₀ (t.insert id new) (.quoteWritten id old new :: tr)
  | saved {t tr} (before : Writes t₀ tr₀ t tr) (snap : MintStateSnapshot) : Writes t₀ tr₀ t (.saved snap :: tr)
  | paid {t tr} (before : Writes t₀ tr₀ t tr) (request : MeltRequest) (invoice : String) (amount : UInt64) :
      Writes t₀ tr₀ t (.payInvoice request invoice amount :: tr)

namespace Writes
variable {t₀ t t' : Finmap fun _ : String => MintQuoteEntry} {tr₀ tr tr' : List Event}

theorem persisted (h : Writes t₀ tr₀ t tr) (m : DemoMint) : Writes t₀ tr₀ t (persisted m tr) := by
  unfold Micronuts.persisted
  split
  · exact .saved h _
  · exact h

theorem trans (h : Writes t₀ tr₀ t tr) (h' : Writes t tr t' tr') : Writes t₀ tr₀ t' tr' := by
  induction h' with
  | refl => exact h
  | write _ found write ih => exact .write ih found write
  | saved _ snap ih => exact .saved ih snap
  | paid _ request invoice amount ih => exact .paid ih request invoice amount

theorem suffix (h : Writes t₀ tr₀ t tr) : tr₀ <:+ tr := by
  induction h with
  | refl => exact List.suffix_refl _
  | write _ _ _ ih => exact ih.trans (List.suffix_cons _ _)
  | saved _ _ ih => exact ih.trans (List.suffix_cons _ _)
  | paid _ _ _ _ ih => exact ih.trans (List.suffix_cons _ _)

/-- Writes overwrite rows, they add none. -/
theorem keys (h : Writes t₀ tr₀ t tr) : t.keys = t₀.keys := by
  induction h with
  | refl => rfl
  | @write t tr id old new _ found _ ih =>
    have hid : id ∈ t.keys := Finmap.mem_keys.2 (Finmap.mem_of_lookup_eq_some found)
    rw [Finmap.keys_insert, Finset.insert_eq_self.2 hid, ih]
  | saved _ _ ih => exact ih
  | paid _ _ _ _ ih => exact ih

end Writes

theorem Settles.writes {m m' : DemoMint} {tr tr' : List Event} (h : Settles m tr m' tr') :
    Writes m.mintQuotes tr m'.mintQuotes tr' := by
  induction h with
  | refl => exact .refl
  | settle _ found unpaid later ih => exact (Writes.write ih found (.settle unpaid later)).persisted _

/-- The first write of a batch, with what was loaded about its quote; the rest is as loaded after it. -/
theorem Issues.cons_loaded {m m' : DemoMint} {tr tr' : List Event} {l : LoadedQuote} {entries : List LoadedQuote}
    (h : Issues m tr (l :: entries) m' tr') (hnd : ((l :: entries).map LoadedQuote.quoteId).Nodup)
    (hload : ∀ l' ∈ l :: entries, Loaded m l') :
    ∃ e u, m.mintQuotes.lookup l.quoteId = some e ∧ e.state = .paid ∧ e.amount = l.amount ∧ Later e.updatedAt u ∧
      (∀ l' ∈ entries, Loaded (m.putMintQuote l.quoteId (e.batchMint l.amount u)) l') ∧
      Issues (m.putMintQuote l.quoteId (e.batchMint l.amount u))
        (.quoteWritten l.quoteId e (e.batchMint l.amount u) :: tr) entries m' tr' := by
  cases h with
  | @cons m tr m' tr' l entries e u found later rest =>
    obtain ⟨hl, hentries⟩ := List.forall_mem_cons.1 hload
    obtain ⟨e', he', hpaid, hamount, -⟩ := hl
    rw [found] at he'; cases he'
    rw [List.map_cons, List.nodup_cons] at hnd
    refine ⟨e, u, found, hpaid, hamount, later, fun l' hl' => ?_, rest⟩
    obtain ⟨e', he', hrest⟩ := hentries l' hl'
    have hne : l'.quoteId ≠ l.quoteId := fun heq => hnd.1 (heq ▸ List.mem_map_of_mem hl')
    refine ⟨e', ?_, hrest⟩
    rw [DemoMint.putMintQuote_mintQuotes, Finmap.lookup_insert_of_ne _ hne, he']

theorem Loaded.record {m : DemoMint} {l : LoadedQuote} (h : Loaded m l) (outputs : List BlindedMessage)
    (sigs : List BlindSignature) : Loaded (m.record outputs sigs) l := by
  obtain ⟨e, he, hrest⟩ := h
  exact ⟨e, by rw [DemoMint.record_mintQuotes, he], hrest⟩

theorem Issues.writes {m m' : DemoMint} {tr tr' : List Event} {entries : List LoadedQuote}
    (h : Issues m tr entries m' tr') (hnd : (entries.map LoadedQuote.quoteId).Nodup)
    (hload : ∀ l ∈ entries, Loaded m l) : Writes m.mintQuotes tr m'.mintQuotes tr' := by
  induction entries generalizing m tr with
  | nil => cases h; exact .refl
  | cons l entries ih =>
    obtain ⟨e, u, found, hpaid, hamount, later, hload', rest⟩ := h.cons_loaded hnd hload
    have hnd' := (List.nodup_cons.1 (by rwa [List.map_cons] at hnd)).2
    rw [← hamount] at hload' rest
    exact (Writes.write .refl found (.batchMint hpaid later)).trans (ih rest hnd' hload')

section calls
variable {env : Env} {w : World} {c : Call} {out : Outcome CashuError Response} {m : DemoMint} {tr : List Event}

/-- The mint quotes after a call: written to, or with one quote more. -/
theorem CallEnds.mintQuotes (h : CallEnds env w c out m tr) :
    Writes w.mint.mintQuotes w.trace m.mintQuotes tr ∨
    ∃ request invoice expiry now, c = .postMintQuote request ∧ request.amount ≠ 0 ∧
      m.mintQuotes = w.mint.mintQuotes.insert env.nowV7 (newMintQuote request invoice expiry now) ∧
      tr = persisted m w.trace := by
  cases h with
  | mintQuoteCreated request invoice expiry now positive new mint_eq =>
    subst new mint_eq
    exact .inr ⟨request, invoice, expiry, now, rfl, positive, rfl, rfl⟩
  | refused settled => exact .inl settled.writes
  | looked looks settled => exact .inl settled.writes
  | restored request => exact .inl .refl
  | meltQuoteCreated request unpaid mint_eq =>
    subst mint_eq; exact .inl (Writes.refl.persisted _)
  | @minted request m' tr' e sum issued u sigs settled passed signed later issued_eq m mint_eq =>
    subst mint_eq
    rw [DemoMint.putMintQuote_mintQuotes, DemoMint.record_mintQuotes]
    have hle : issued ≤ e.amountPaid := by
      have := passed.mintable
      rw [UInt64.le_iff_toNat_le]; omega
    have hgrows : e.amountIssued ≤ issued := by rw [UInt64.le_iff_toNat_le]; omega
    have hwrite : QuoteWrite e (e.mint issued u) := .mint passed.paid hgrows hle later
    exact .inl (settled.writes.trans (Writes.persisted (.write .refl passed.found hwrite) _))
  | mintStopped request checks settled stops signed =>
    rw [DemoMint.record_mintQuotes]; exact .inl settled.writes
  | batchMinted request checks settled passed signed issues =>
    have hissues := issues.writes (by rw [passed.ids]; exact passed.nodup)
      fun l hl => (passed.loaded l hl).record request.outputs _
    rw [DemoMint.record_mintQuotes] at hissues
    exact .inl (settled.writes.trans (hissues.persisted _))
  | batchStopped request checks settled stops signed =>
    rw [DemoMint.record_mintQuotes]; exact .inl settled.writes
  | swapped request passed claims signed mint_eq =>
    subst mint_eq
    rw [DemoMint.record_mintQuotes]; exact .inl (Writes.refl.persisted _)
  | swapStopped request claimed passed claims mint_eq stops signed =>
    rw [DemoMint.record_mintQuotes, mint_eq]; exact .inl .refl
  | meltPaid request claimed passed claims answer signed mint_eq =>
    subst mint_eq
    rw [DemoMint.putMeltQuote_mintQuotes, DemoMint.record_mintQuotes]
    exact .inl (Writes.persisted (.paid (Writes.refl.persisted _) _ _ _) _)
  | meltFailed request claimed passed claims answer mint_eq =>
    subst mint_eq
    exact .inl (Writes.persisted (.paid (Writes.refl.persisted _) _ _ _) _)
  | meltStopped request claimed passed claims answer notTotal mint_eq =>
    subst mint_eq
    rw [DemoMint.record_mintQuotes]
    exact .inl (.paid (Writes.refl.persisted _) _ _ _)

end calls

/-! ### Melt quotes -/

/-- What a call can do to the melt quotes: nothing, a new quote, or one quote that leaves `UNPAID`. -/
inductive MeltQuotesAfter (env : Env) (w : World) (c : Call) : (Finmap fun _ : String => MeltQuoteEntry) → Prop
  | same : MeltQuotesAfter env w c w.mint.meltQuotes
  | created {request} (call : c = .postMeltQuote request) (q : MeltQuoteEntry) (unpaid : q.state = .unpaid) :
      MeltQuotesAfter env w c (w.mint.meltQuotes.insert env.nowV7 q)
  | melted {request} (call : c = .postMelt request) (q : MeltQuoteEntry)
      (found : w.mint.meltQuotes.lookup request.quote = some q)
      (unpaid : q.state = .unpaid) (state : MeltQuoteState) (left : state ≠ .unpaid) :
      MeltQuotesAfter env w c (w.mint.meltQuotes.insert request.quote { q with state })

section calls
variable {env : Env} {w : World} {c : Call} {out : Outcome CashuError Response} {m : DemoMint} {tr : List Event}

theorem CallEnds.meltQuotes (h : CallEnds env w c out m tr) : MeltQuotesAfter env w c m.meltQuotes := by
  cases h with
  | refused settled => rw [settled.meltQuotes]; exact .same
  | looked looks settled => rw [settled.meltQuotes]; exact .same
  | restored request => exact .same
  | mintQuoteCreated request invoice expiry now positive new mint_eq => subst mint_eq; exact .same
  | meltQuoteCreated request unpaid mint_eq => subst mint_eq; exact .created rfl _ unpaid
  | minted request settled passed signed later issued_eq mint_eq =>
    subst mint_eq
    rw [DemoMint.putMintQuote_meltQuotes, DemoMint.record_meltQuotes, settled.meltQuotes]; exact .same
  | mintStopped request checks settled stops signed =>
    rw [DemoMint.record_meltQuotes, settled.meltQuotes]; exact .same
  | batchMinted request checks settled passed signed issues =>
    rw [issues.frame]
    dsimp only
    rw [DemoMint.record_meltQuotes, settled.meltQuotes]; exact .same
  | batchStopped request checks settled stops signed =>
    rw [DemoMint.record_meltQuotes, settled.meltQuotes]; exact .same
  | swapped request passed claims signed mint_eq =>
    subst mint_eq
    rw [DemoMint.record_meltQuotes]; exact .same
  | swapStopped request claimed passed claims mint_eq stops signed =>
    rw [DemoMint.record_meltQuotes, mint_eq]; exact .same
  | meltPaid request claimed passed claims answer signed mint_eq =>
    subst mint_eq
    rw [DemoMint.putMeltQuote_meltQuotes, DemoMint.record_meltQuotes]
    exact .melted rfl _ passed.found passed.unpaid .paid (by decide)
  | meltFailed request claimed passed claims answer mint_eq =>
    subst mint_eq
    exact .melted rfl _ passed.found passed.unpaid .failed (by decide)
  | meltStopped request claimed passed claims answer notTotal mint_eq =>
    subst mint_eq
    rw [DemoMint.record_meltQuotes]
    exact .melted rfl _ passed.found passed.unpaid .pending (by decide)

end calls

/-- The keyset and the store are never replaced. -/
theorem CallEnds.config {env : Env} {w : World} {c : Call} {out : Outcome CashuError Response} {m : DemoMint}
    {tr : List Event} (h : CallEnds env w c out m tr) : m.keyset = w.mint.keyset ∧ m.store = w.mint.store := by
  cases h with
  | refused settled => exact ⟨settled.keyset, settled.store⟩
  | looked looks settled => exact ⟨settled.keyset, settled.store⟩
  | restored request => exact ⟨rfl, rfl⟩
  | mintQuoteCreated request invoice expiry now positive new mint_eq => subst mint_eq; exact ⟨rfl, rfl⟩
  | meltQuoteCreated request unpaid mint_eq => subst mint_eq; exact ⟨rfl, rfl⟩
  | minted request settled passed signed later issued_eq mint_eq =>
    subst mint_eq; simp [settled.keyset, settled.store]
  | mintStopped request checks settled stops signed => simp [settled.keyset, settled.store]
  | batchMinted request checks settled passed signed issues =>
    rw [issues.frame]; simp [settled.keyset, settled.store]
  | batchStopped request checks settled stops signed => simp [settled.keyset, settled.store]
  | swapped request passed claims signed mint_eq => subst mint_eq; simp
  | swapStopped request claimed passed claims mint_eq stops signed => simp [mint_eq]
  | meltPaid request claimed passed claims answer signed mint_eq => subst mint_eq; simp
  | meltFailed request claimed passed claims answer mint_eq => subst mint_eq; exact ⟨rfl, rfl⟩
  | meltStopped request claimed passed claims answer notTotal mint_eq =>
    subst mint_eq; simp [DemoMint.meltPending]

/-! ### What a call does outside, and the spent set -/

theorem grows_persisted {P : Event → Prop} {tr₀ tr : List Event} {m : DemoMint} (h : Grows P tr₀ tr)
    (hm : m.store = true → P (.saved m.snapshot)) : Grows P tr₀ (persisted m tr) := by
  unfold persisted
  split
  · next hstore => exact .cons h (hm hstore)
  · exact h

/-- What is last saved is new or was last saved before. -/
theorem lastSaved_of_grows {P : Event → Prop} {tr₀ tr : List Event} {snap : MintStateSnapshot} (h : Grows P tr₀ tr)
    (hlast : lastSaved tr = some snap) : P (.saved snap) ∨ lastSaved tr₀ = some snap := by
  induction h with
  | refl => exact .inr hlast
  | @cons tr e before holds ih =>
    cases e with
    | saved snap' => cases hlast; exact .inl holds
    | payInvoice request invoice amount => exact ih hlast
    | quoteWritten id old new => exact ih hlast

/-- A snapshot that has the spent set and the melt quotes of `m`, or a write to a mint quote. -/
def Event.Plain (m : DemoMint) : Event → Prop
  | .saved snap => m.store = true ∧ snap.spentYs = m.spentYs ∧ snap.meltQuotes = m.meltQuotes
  | .payInvoice .. => False
  | .quoteWritten .. => True

theorem Settles.grows {m m' : DemoMint} {tr tr' : List Event} (h : Settles m tr m' tr') :
    Grows (Event.Plain m) tr tr' := by
  induction h with
  | refl => exact .refl
  | settle before found unpaid later ih =>
    refine grows_persisted (.cons ih trivial) fun hstore => ⟨?_, before.spentYs, before.meltQuotes⟩
    exact before.store.symm.trans hstore

theorem Issues.grows {m m' : DemoMint} {tr tr' : List Event} {entries : List LoadedQuote} {P : Event → Prop}
    (h : Issues m tr entries m' tr') (hP : ∀ id old new, P (.quoteWritten id old new)) : Grows P tr tr' := by
  induction h with
  | nil => exact .refl
  | cons found later rest ih => exact (Grows.cons .refl (hP _ _ _)).trans ih

/-- What a call may save: the spent set with more in it, and melt quotes as after the call. -/
structure SavedBy (env : Env) (w : World) (c : Call) (snap : MintStateSnapshot) : Prop where
  store : w.mint.store = true
  spentYs : w.mint.spentYs ⊆ snap.spentYs
  meltQuotes : MeltQuotesAfter env w c snap.meltQuotes

/-- The payment that a melt asks for: its quote, and inputs that the mint signed and that cover amount and fees. -/
structure PaymentCovered (m : DemoMint) (request : MeltRequest) (invoice : String) (amount : UInt64) : Prop where
  verified : ∀ p ∈ request.inputs, Genuine m.keyset p
  quote : ∃ q, m.meltQuotes.lookup request.quote = some q ∧ q.amount = amount ∧ q.request = invoice ∧
    ∃ fee, m.keyset.inputFeeTotal request.inputs = .ok fee ∧
      q.amount.toNat + q.feeReserve.toNat + fee.toNat ≤ proofsValue request.inputs

/-- What a call may do outside. -/
def EventBy (env : Env) (w : World) (c : Call) : Event → Prop
  | .saved snap => SavedBy env w c snap
  | .payInvoice request invoice amount => c = .postMelt request ∧ PaymentCovered w.mint request invoice amount
  | .quoteWritten .. => True

section calls
variable {env : Env} {w : World} {c : Call} {out : Outcome CashuError Response} {m : DemoMint} {tr : List Event}

theorem CallEnds.spentYs (h : CallEnds env w c out m tr) : w.mint.spentYs ⊆ m.spentYs := by
  have hspend : ∀ ys, w.mint.spentYs ⊆ (w.mint.spend ys).spentYs := fun ys y hy => DemoMint.mem_spend.2 (.inl hy)
  cases h with
  | refused settled => rw [settled.spentYs]
  | looked looks settled => rw [settled.spentYs]
  | restored request => exact Finset.Subset.refl _
  | mintQuoteCreated request invoice expiry now positive new mint_eq => subst mint_eq; exact Finset.Subset.refl _
  | meltQuoteCreated request unpaid mint_eq => subst mint_eq; exact Finset.Subset.refl _
  | minted request settled passed signed later issued_eq mint_eq =>
    subst mint_eq
    rw [DemoMint.putMintQuote_spentYs, DemoMint.record_spentYs, settled.spentYs]
  | mintStopped request checks settled stops signed => rw [DemoMint.record_spentYs, settled.spentYs]
  | batchMinted request checks settled passed signed issues =>
    rw [issues.frame]
    dsimp only
    rw [DemoMint.record_spentYs, settled.spentYs]
  | batchStopped request checks settled stops signed => rw [DemoMint.record_spentYs, settled.spentYs]
  | swapped request passed claims signed mint_eq =>
    subst mint_eq
    rw [DemoMint.record_spentYs]; exact hspend _
  | swapStopped request claimed passed claims mint_eq stops signed =>
    rw [DemoMint.record_spentYs, mint_eq]; exact hspend _
  | meltPaid request claimed passed claims answer signed mint_eq =>
    subst mint_eq
    rw [DemoMint.putMeltQuote_spentYs, DemoMint.record_spentYs]; exact hspend _
  | meltFailed request claimed passed claims answer mint_eq => subst mint_eq; exact Finset.Subset.refl _
  | meltStopped request claimed passed claims answer notTotal mint_eq =>
    subst mint_eq
    rw [DemoMint.record_spentYs]; exact hspend _

theorem MeltPassed.payment {request : MeltRequest} {q : MeltQuoteEntry} {plan : MeltPlan}
    (passed : MeltPassed w.mint request q plan) : PaymentCovered w.mint request plan.invoice plan.amount := by
  refine ⟨fun p hp => (DemoMint.verifyProof_ok (passed.verified p hp)).1, q, passed.found, passed.amount.symm,
    passed.invoice.symm, ?_⟩
  obtain ⟨fee, hfee, hcovers⟩ := passed.covers
  exact ⟨fee, hfee, by omega⟩

theorem CallEnds.grows (h : CallEnds env w c out m tr) : Grows (EventBy env w c) w.trace tr := by
  have hm : m.store = true → SavedBy env w c m.snapshot :=
    fun hstore => ⟨h.config.2.symm.trans hstore, h.spentYs, h.meltQuotes⟩
  have hsettled : ∀ {m₁ tr₁}, Settles w.mint w.trace m₁ tr₁ → Grows (EventBy env w c) w.trace tr₁ := by
    refine fun settled => settled.grows.mono fun e he => ?_
    cases e with
    | saved snap =>
      obtain ⟨hstore, hspent, hmelt⟩ := he
      exact ⟨hstore, by rw [hspent], by rw [hmelt]; exact .same⟩
    | payInvoice request invoice amount => exact he.elim
    | quoteWritten id old new => trivial
  have hmelt : ∀ {request : MeltRequest} {q ys plan}, c = .postMelt request →
      MeltPassed w.mint request q plan → Grows (EventBy env w c) w.trace
        (.payInvoice request plan.invoice plan.amount :: persisted (w.mint.meltPending request.quote q ys) w.trace) := by
    intro request q ys plan hc passed
    refine .cons (grows_persisted .refl fun hstore => ⟨hstore, ?_, ?_⟩) ⟨hc, passed.payment⟩
    · exact fun y hy => DemoMint.mem_spend.2 (.inl hy)
    · exact .melted hc q passed.found passed.unpaid .pending (by decide)
  cases h with
  | refused settled => exact hsettled settled
  | looked looks settled => exact hsettled settled
  | restored request => exact .refl
  | mintQuoteCreated request invoice expiry now positive new mint_eq => exact grows_persisted .refl hm
  | meltQuoteCreated request unpaid mint_eq => exact grows_persisted .refl hm
  | minted request settled passed signed later issued_eq mint_eq =>
    exact grows_persisted (.cons (hsettled settled) trivial) hm
  | mintStopped request checks settled stops signed => exact hsettled settled
  | batchMinted request checks settled passed signed issues =>
    exact grows_persisted ((hsettled settled).trans (issues.grows fun _ _ _ => trivial)) hm
  | batchStopped request checks settled stops signed => exact hsettled settled
  | swapped request passed claims signed mint_eq => exact grows_persisted .refl hm
  | swapStopped request claimed passed claims mint_eq stops signed => exact .refl
  | meltPaid request claimed passed claims answer signed mint_eq => exact grows_persisted (hmelt rfl passed) hm
  | meltFailed request claimed passed claims answer mint_eq => exact grows_persisted (hmelt rfl passed) hm
  | meltStopped request claimed passed claims answer notTotal mint_eq => exact hmelt rfl passed

/-- What is last saved at some point of the call was saved by the call or before it. -/
theorem CallEnds.lastSaved_cut (h : CallEnds env w c out m tr) {cut : List Event} {snap : MintStateSnapshot}
    (hlow : w.trace <:+ cut) (hcut : cut <:+ tr) (hlast : lastSaved cut = some snap) :
    SavedBy env w c snap ∨ lastSaved w.trace = some snap :=
  lastSaved_of_grows (h.grows.cut hlow hcut) hlast

end calls

end Micronuts
