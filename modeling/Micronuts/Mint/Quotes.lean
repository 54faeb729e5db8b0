import Micronuts.Mint.Inputs
import Micronuts.Mint.Outputs

/-!
# Mint quotes: settled, minted, batched

`Settles` lists the unpaid quotes that a call found paid on its way, each written and saved at once;
the quote calls all begin with such a part. `Issues` lists the quotes a batch mint writes. What the
checks of `postMint` and `batchMint` found out about the quotes is in `MintPassed` and `BatchPassed`.
-/

namespace Micronuts
open MintM Exec
variable [Crypto]

/-! ### Settling -/

/-- `u` is a new `updatedAt` for an entry that had `old`. -/
def Later (old u : UInt64) : Prop := old ≠ u64Max → old < u

omit [Crypto] in
theorem later_max (old now : UInt64) : Later old (max now (old + 1)) := by
  intro h
  have hlt : old < old + 1 := by
    have := old.toNat_lt
    have h : old.toNat ≠ 2 ^ 64 - 1 := fun h' => h (UInt64.toNat_inj.1 h')
    rw [UInt64.lt_iff_toNat_lt, UInt64.toNat_add]
    simp only [UInt64.reduceToNat]; omega
  show old < if now ≤ old + 1 then old + 1 else now
  split
  · exact hlt
  · next hle =>
    rw [UInt64.le_iff_toNat_le] at hle
    rw [UInt64.lt_iff_toNat_lt] at hlt ⊢
    omega

/-- The unpaid quotes that a call found paid, one after another. -/
inductive Settles (m : DemoMint) (tr : List Event) : DemoMint → List Event → Prop
  | refl : Settles m tr m tr
  | settle {m₁ tr₁ id e u} (before : Settles m tr m₁ tr₁) (found : m₁.mintQuotes.lookup id = some e)
      (unpaid : e.state = .unpaid) (later : Later e.updatedAt u) :
      Settles m tr (m₁.putMintQuote id (e.settle u))
        (persisted (m₁.putMintQuote id (e.settle u)) (.quoteWritten id e (e.settle u) :: tr₁))

namespace Settles
variable {m m' m'' : DemoMint} {tr tr' tr'' : List Event}

theorem trans (h : Settles m tr m' tr') (h' : Settles m' tr' m'' tr'') : Settles m tr m'' tr'' := by
  induction h' with
  | refl => exact h
  | settle _ found unpaid later ih => exact .settle ih found unpaid later

theorem frame (h : Settles m tr m' tr') : m' = { m with mintQuotes := m'.mintQuotes } := by
  induction h with
  | refl => rfl
  | settle _ _ _ _ ih => rw [ih]; rfl

theorem keyset (h : Settles m tr m' tr') : m'.keyset = m.keyset := by rw [h.frame]

theorem store (h : Settles m tr m' tr') : m'.store = m.store := by rw [h.frame]

theorem meltQuotes (h : Settles m tr m' tr') : m'.meltQuotes = m.meltQuotes := by rw [h.frame]

theorem spentYs (h : Settles m tr m' tr') : m'.spentYs = m.spentYs := by rw [h.frame]

theorem issuedOutputs (h : Settles m tr m' tr') : m'.issuedOutputs = m.issuedOutputs := by rw [h.frame]

/-- A quote that is not unpaid is not touched. -/
theorem lookup_of_ne (h : Settles m tr m' tr') {id : String} {e : MintQuoteEntry}
    (he : m.mintQuotes.lookup id = some e) (hs : e.state ≠ .unpaid) : m'.mintQuotes.lookup id = some e := by
  induction h with
  | refl => exact he
  | @settle m₁ tr₁ id' e' u _ found unpaid _ ih =>
    rw [DemoMint.putMintQuote_mintQuotes, Finmap.lookup_insert_eq]
    split
    · next hid =>
      subst hid; rw [ih] at found; cases found
      exact absurd unpaid hs
    · exact ih

theorem suffix (h : Settles m tr m' tr') : tr <:+ tr' := by
  induction h with
  | refl => exact List.suffix_refl _
  | settle _ _ _ _ ih => exact ih.trans ((List.suffix_cons _ _).trans (suffix_persisted _ _))

end Settles

/-- How a part of a call ends that only settles quotes. -/
def SettleEnds {α : Type} (w : World) (o : Outcome CashuError α) (t : World) : Prop :=
  match o with
  | .panic => ∃ m' tr', Settles w.mint w.trace m' tr' ∧ t.trace <:+ tr'
  | _ => Settles w.mint w.trace t.mint t.trace

section ends
variable {env : Env} {w : World}

theorem refreshMintQuoteState_ends (quoteId : String) :
    (refreshMintQuoteState quoteId).Ends env w (SettleEnds w) := by
  unfold refreshMintQuoteState
  refine Ends.bind_get (Ends.bind_okOr (fun e he => ?_) fun _ => Settles.refl)
  split
  · exact Ends.pure .refl
  · next hunpaid =>
    refine bind_nowSecs fun now => ?_
    split
    · exact Ends.pure .refl
    · refine bind_ask (fun settled _ => ?_) fun _ _ => .refl
      split
      · refine bind_nowSecs fun now => bind_nextUpdatedAt (Ends.bind_modify ?_) ⟨_, _, .refl, List.suffix_refl _⟩
        have hs : Settles w.mint w.trace _ _ := .settle .refl he (not_not.1 hunpaid) (later_max e.updatedAt now)
        refine persist_ends.mono fun o t ht => ?_
        cases o with
        | ok u => obtain ⟨n, rfl⟩ := ht; exact hs
        | err e => exact ht.elim
        | panic => subst ht; exact ⟨_, _, hs, suffix_persisted _ _⟩
      · exact Ends.pure .refl

theorem getMintQuote_ends (quoteId : String) : (getMintQuote quoteId).Ends env w (SettleEnds w) := by
  refine Ends.bind (refreshMintQuoteState_ends quoteId) ?_ (fun _ _ h => h) (fun _ h => h)
  rintro ⟨⟩ t ht
  exact Ends.bind_get (Ends.bind_okOr (fun e _ => Ends.pure ht) fun _ => ht)

end ends

/-- A second part that only settles quotes, after a first. -/
theorem SettleEnds.trans {α : Type} {w t t' : World} {o : Outcome CashuError α}
    (h : Settles w.mint w.trace t.mint t.trace) (h' : SettleEnds t o t') : SettleEnds w o t' := by
  cases o with
  | ok a => exact h.trans h'
  | err e => exact h.trans h'
  | panic => obtain ⟨m', tr', hs, hsuf⟩ := h'; exact ⟨m', tr', h.trans hs, hsuf⟩

section ends
variable {env : Env} {w : World}

theorem getMintQuotes_ends (quotes : List String) : (getMintQuotes quotes).Ends env w (SettleEnds w) := by
  induction quotes generalizing w with
  | nil => exact Ends.pure .refl
  | cons quoteId quotes ih =>
    refine Ends.bind (getMintQuote_ends quoteId) ?_ (fun _ _ h => h) (fun _ h => h)
    intro r t ht
    refine Ends.bind_pure (ih.mono fun o t' ht' => ?_)
    cases o <;> exact SettleEnds.trans ht ht'

/-! ### Minting on one quote -/

/-- What `postMint` knows when it begins to sign. -/
structure MintPassed (m : DemoMint) (request : MintRequest) (e : MintQuoteEntry) (sum : UInt64) : Prop where
  found : m.mintQuotes.lookup request.quote = some e
  paid : e.state = .paid
  unlocked : ∀ pubkeyHex, e.pubkey = some pubkeyHex →
    verifyQuoteSignature pubkeyHex request.quote request.outputs request.signature = .ok ()
  sum_eq : sum.toNat = outputsValue request.outputs
  mintable : e.amountIssued.toNat + sum.toNat ≤ e.amountPaid.toNat

theorem postMintChecks_ends (request : MintRequest) : (postMintChecks request).Ends env w fun o t =>
    SettleEnds w o t ∧ ∀ issued sum, o = .ok (issued, sum) →
      ∃ e, MintPassed t.mint request e sum ∧ e.amountIssued = issued := by
  refine Ends.bind (refreshMintQuoteState_ends request.quote) ?_ ?_ ?_
  · rintro ⟨⟩ t ht
    have herr : ∀ e : CashuError, SettleEnds w (.err e : Outcome CashuError (UInt64 × UInt64)) t ∧
        ∀ issued sum, (.err e : Outcome CashuError (UInt64 × UInt64)) = .ok (issued, sum) →
          ∃ e, MintPassed t.mint request e sum ∧ e.amountIssued = issued :=
      fun e => ⟨ht, fun _ _ h => by cases h⟩
    refine Ends.bind_get (Ends.bind_okOr (fun e he => ?_) fun _ => herr _)
    refine Ends.bind_failIf (fun hpaid => ?_) fun _ => herr _
    refine Ends.bind_lift (fun _ hsig => ?_) fun _ _ => herr _
    refine Ends.bind_okOr (fun mintable hmintable => ?_) fun _ => herr _
    refine Ends.bind_okOr (fun sum hsum => ?_) fun _ => herr _
    refine Ends.bind_failIf (fun hle => ?_) fun _ => herr _
    refine Ends.pure ⟨ht, ?_⟩
    rintro issued sum ⟨⟩
    have hmintable := UInt64.checkedSub_eq_some.1 hmintable
    rw [UInt64.lt_iff_toNat_lt] at hle
    refine ⟨e, ⟨he, not_not.1 hpaid, ?_, outputSum_eq_some hsum, by omega⟩, rfl⟩
    intro pubkeyHex hpk
    rw [hpk] at hsig; exact hsig
  · exact fun e t ht => ⟨ht, fun _ _ h => by cases h⟩
  · exact fun t ht => ⟨ht, fun _ _ h => by cases h⟩

/-! ### Minting on a batch of quotes -/

/-- A loaded quote is in the table, paid, with its amount and key. -/
def Loaded (m : DemoMint) (l : LoadedQuote) : Prop :=
  ∃ e, m.mintQuotes.lookup l.quoteId = some e ∧ e.state = .paid ∧ e.amount = l.amount ∧ e.pubkey = l.pubkey

theorem Settles.loaded {m m' : DemoMint} {tr tr' : List Event} (h : Settles m tr m' tr') {l : LoadedQuote}
    (hl : Loaded m l) : Loaded m' l := by
  obtain ⟨e, he, hpaid, hrest⟩ := hl
  exact ⟨e, h.lookup_of_ne he (by rw [hpaid]; decide), hpaid, hrest⟩

theorem loadQuote_ends (quoteAmounts : Option (List UInt64)) (i : Nat) (quoteId : String) :
    (loadQuote quoteAmounts i quoteId).Ends env w fun o t =>
      SettleEnds w o t ∧ ∀ l, o = .ok l → Loaded t.mint l ∧ l.quoteId = quoteId := by
  refine Ends.bind (refreshMintQuoteState_ends quoteId) ?_ ?_ ?_
  · rintro ⟨⟩ t ht
    have herr : ∀ e : CashuError, SettleEnds w (.err e : Outcome CashuError LoadedQuote) t ∧
        ∀ l, (.err e : Outcome CashuError LoadedQuote) = .ok l → Loaded t.mint l ∧ l.quoteId = quoteId :=
      fun e => ⟨ht, fun _ h => by cases h⟩
    refine Ends.bind_get (Ends.bind_okOr (fun e he => ?_) fun _ => herr _)
    refine Ends.bind_failIf (fun hpaid => ?_) fun _ => herr _
    refine Ends.bind_failIf (fun _ => ?_) fun _ => herr _
    refine Ends.bind_failIf (fun _ => ?_) fun _ => herr _
    refine Ends.pure ⟨ht, ?_⟩
    rintro l ⟨⟩
    exact ⟨⟨e, he, not_not.1 hpaid, rfl, rfl⟩, rfl⟩
  · exact fun e t ht => ⟨ht, fun _ h => by cases h⟩
  · exact fun t ht => ⟨ht, fun _ h => by cases h⟩

def loadedValue (entries : List LoadedQuote) : Nat := (entries.map fun l => l.amount.toNat).sum

theorem loadQuotes_ends (quoteAmounts : Option (List UInt64)) (i : Nat) (quotes : List String) (total : UInt64) :
    (loadQuotes quoteAmounts i quotes total).Ends env w fun o t =>
      SettleEnds w o t ∧ ∀ entries total', o = .ok (entries, total') →
        (∀ l ∈ entries, Loaded t.mint l) ∧ entries.map LoadedQuote.quoteId = quotes ∧
          total'.toNat = total.toNat + loadedValue entries := by
  induction quotes generalizing w i total with
  | nil =>
    refine Ends.pure ⟨.refl, ?_⟩
    rintro entries total' ⟨⟩
    exact ⟨by simp, rfl, rfl⟩
  | cons quoteId quotes ih =>
    refine Ends.bind (loadQuote_ends quoteAmounts i quoteId) ?_ ?_ ?_
    · rintro l t ⟨ht, hl⟩
      obtain ⟨hl, hid⟩ := hl l rfl
      refine Ends.bind_okOr (fun sum hsum => ?_) fun _ => ⟨ht, fun _ _ h => by cases h⟩
      have hsum := UInt64.checkedAdd_eq_some.1 hsum
      refine Ends.bind (ih (i + 1) sum) ?_ ?_ ?_
      · rintro ⟨entries, total'⟩ t' ⟨ht', hrest⟩
        obtain ⟨hall, hids, htotal⟩ := hrest entries total' rfl
        refine Ends.pure ⟨SettleEnds.trans ht ht', ?_⟩
        rintro _ _ ⟨⟩
        refine ⟨List.forall_mem_cons.2 ⟨Settles.loaded ht' hl, hall⟩, by rw [List.map_cons, hid, hids], ?_⟩
        have hcons : loadedValue (l :: entries) = l.amount.toNat + loadedValue entries := rfl
        omega
      · exact fun e t' ht' => ⟨SettleEnds.trans ht ht'.1, fun _ _ h => by cases h⟩
      · exact fun t' ht' => ⟨SettleEnds.trans ht ht'.1, fun _ _ h => by cases h⟩
    · exact fun e t ht => ⟨ht.1, fun _ _ h => by cases h⟩
    · exact fun t ht => ⟨ht.1, fun _ _ h => by cases h⟩

/-- What `batchMint` knows when it begins to sign. -/
structure BatchPassed (m : DemoMint) (request : BatchMintRequest) (entries : List LoadedQuote) : Prop where
  loaded : ∀ l ∈ entries, Loaded m l
  ids : entries.map LoadedQuote.quoteId = request.quotes
  nodup : request.quotes.Nodup
  unlocked : verifyBatchSignatures request entries = .ok ()
  balance : outputsValue request.outputs = loadedValue entries
  signable : m.keyset.checkOutputsSignable request.outputs = .ok ()

theorem batchMintChecks_ends (request : BatchMintRequest) : (batchMintChecks request).Ends env w fun o t =>
    SettleEnds w o t ∧ ∀ entries, o = .ok entries → BatchPassed t.mint request entries := by
  have herr : ∀ (e : CashuError) (t : World), Settles w.mint w.trace t.mint t.trace →
      SettleEnds w (.err e : Outcome CashuError (List LoadedQuote)) t ∧
        ∀ entries, (.err e : Outcome CashuError (List LoadedQuote)) = .ok entries → BatchPassed t.mint request entries :=
    fun e t ht => ⟨ht, fun _ h => by cases h⟩
  refine Ends.bind_failIf (fun _ => ?_) fun _ => herr _ _ .refl
  refine Ends.bind_failIf (fun _ => ?_) fun _ => herr _ _ .refl
  refine Ends.bind_failIf (fun _ => ?_) fun _ => herr _ _ .refl
  refine Ends.bind_failIf (fun hnd => ?_) fun _ => herr _ _ .refl
  refine Ends.bind_failIf (fun _ => ?_) fun _ => herr _ _ .refl
  refine Ends.bind (loadQuotes_ends request.quoteAmounts 0 request.quotes 0) ?_ ?_ ?_
  · rintro ⟨entries, total⟩ t ⟨ht, hload⟩
    obtain ⟨hall, hids, htotal⟩ := hload entries total rfl
    refine Ends.bind_lift (fun _ hsigs => ?_) fun _ _ => herr _ _ ht
    refine Ends.bind_okOr (fun sum hsum => ?_) fun _ => herr _ _ ht
    refine Ends.bind_failIf (fun hbal => ?_) fun _ => herr _ _ ht
    refine Ends.bind_get (Ends.bind_lift (fun _ hcheck => ?_) fun _ _ => herr _ _ ht)
    refine Ends.pure ⟨ht, ?_⟩
    rintro entries ⟨⟩
    have hsum := outputSum_eq_some hsum
    rw [not_not.1 hbal, htotal] at hsum
    exact ⟨hall, hids, not_not.1 hnd, hsigs, hsum.symm.trans (Nat.zero_add _), hcheck⟩
  · exact fun e t ht => ⟨ht.1, fun _ h => by cases h⟩
  · exact fun t ht => ⟨ht.1, fun _ h => by cases h⟩

end ends

/-- The loaded quotes are written one after another. -/
inductive Issues : DemoMint → List Event → List LoadedQuote → DemoMint → List Event → Prop
  | nil {m tr} : Issues m tr [] m tr
  | cons {m tr m' tr' l entries e u} (found : m.mintQuotes.lookup l.quoteId = some e) (later : Later e.updatedAt u)
      (rest : Issues (m.putMintQuote l.quoteId (e.batchMint l.amount u))
        (.quoteWritten l.quoteId e (e.batchMint l.amount u) :: tr) entries m' tr') :
      Issues m tr (l :: entries) m' tr'

namespace Issues
variable {m m' : DemoMint} {tr tr' : List Event} {entries : List LoadedQuote}

theorem frame (h : Issues m tr entries m' tr') : m' = { m with mintQuotes := m'.mintQuotes } := by
  induction h with
  | nil => rfl
  | cons _ _ _ ih => rw [ih]; rfl

theorem suffix (h : Issues m tr entries m' tr') : tr <:+ tr' := by
  induction h with
  | nil => exact List.suffix_refl _
  | cons _ _ _ ih => exact (List.suffix_cons _ _).trans ih

/-- Where every quote is in the table the writes can all be made. -/
theorem exists_of_found (m : DemoMint) (tr : List Event)
    (hall : ∀ l ∈ entries, (m.mintQuotes.lookup l.quoteId).isSome) : ∃ m' tr', Issues m tr entries m' tr' := by
  induction entries generalizing m tr with
  | nil => exact ⟨m, tr, .nil⟩
  | cons l entries ih =>
    obtain ⟨hl, hall⟩ := List.forall_mem_cons.1 hall
    obtain ⟨e, he⟩ := Option.isSome_iff_exists.1 hl
    let new := e.batchMint l.amount (max 0 (e.updatedAt + 1))
    obtain ⟨m', tr', h⟩ := ih (m.putMintQuote l.quoteId new) (.quoteWritten l.quoteId e new :: tr) fun l' hl' => by
      rw [DemoMint.putMintQuote_mintQuotes, Finmap.lookup_insert_eq]
      split
      · rfl
      · exact hall l' hl'
    exact ⟨m', tr', .cons he (later_max _ _) h⟩

end Issues

theorem issueQuotes_ends {env : Env} {w : World} (now : UInt64) {entries : List LoadedQuote}
    (hall : ∀ l ∈ entries, (w.mint.mintQuotes.lookup l.quoteId).isSome) :
    (issueQuotes now entries).Ends env w fun o t =>
      match o with
      | .ok _ => Issues w.mint w.trace entries t.mint t.trace
      | .err _ => False
      | .panic => ∃ m' tr', Issues w.mint w.trace entries m' tr' ∧ t.trace <:+ tr' := by
  induction entries generalizing w with
  | nil => exact Ends.pure .nil
  | cons l entries ih =>
    have hall' := (List.forall_mem_cons.1 hall).2
    refine Ends.bind_get (Ends.bind_okOr (fun e he => ?_) fun hnone => ?_)
    · refine bind_nextUpdatedAt (Ends.bind_modify ?_) ?_
      · refine (ih fun l' hl' => ?_).mono fun o t ht => ?_
        · show ((w.mint.putMintQuote l.quoteId _).mintQuotes.lookup l'.quoteId).isSome
          rw [DemoMint.putMintQuote_mintQuotes, Finmap.lookup_insert_eq]
          split
          · rfl
          · exact hall' l' hl'
        · cases o with
          | ok u => exact .cons he (later_max _ _) ht
          | err e => exact ht
          | panic =>
            obtain ⟨m', tr', h, hsuf⟩ := ht
            exact ⟨m', tr', .cons he (later_max _ _) h, hsuf⟩
      · obtain ⟨m', tr', h⟩ := Issues.exists_of_found w.mint w.trace hall
        exact ⟨m', tr', h, h.suffix⟩
    · have := hall l (by simp)
      rw [hnone] at this; cases this

end Micronuts
