import Mathlib.Logic.Relation
import Micronuts.Mint.Runs

/-!
# The life of a mint quote

`QuoteOk` ties the state of an entry to its two counters; every write keeps it. `QuoteMove` is what one
write may change. `updated_at + 1` wraps at the end of the 64-bit range, so that a write moves the entry
forward in time only where the old `updated_at` is not the largest number (`NoWrap`).
-/

namespace Micronuts
open Relation (ReflTransGen)

structure QuoteOk (e : MintQuoteEntry) : Prop where
  positive : 0 < e.amount
  paid_eq : e.amountPaid = if e.state = .unpaid then 0 else e.amount
  issued_le : e.amountIssued ≤ e.amountPaid
  issued_iff : e.state = .issued ↔ e.amountIssued = e.amountPaid ∧ 0 < e.amountPaid

/-- What one write may do to an entry. -/
structure QuoteMove (old new : MintQuoteEntry) : Prop where
  state : old.state = .unpaid ∧ new.state = .paid ∨ old.state = .paid ∧ new.state = .paid ∨
    old.state = .paid ∧ new.state = .issued
  amount : new.amount = old.amount
  issued : old.amountIssued ≤ new.amountIssued
  updated : old.updatedAt < new.updatedAt

namespace QuoteOk
variable {e : MintQuoteEntry}

theorem unpaid_counters (h : QuoteOk e) (hs : e.state = .unpaid) : e.amountPaid = 0 ∧ e.amountIssued = 0 := by
  have hp : e.amountPaid = 0 := by rw [h.paid_eq, if_pos hs]
  have hle := h.issued_le
  rw [hp, UInt64.le_iff_toNat_le] at hle
  refine ⟨hp, UInt64.toNat_inj.1 ?_⟩
  simpa using hle

theorem paid_amount (h : QuoteOk e) (hs : e.state = .paid) : e.amountPaid = e.amount := by
  rw [h.paid_eq, if_neg (by rw [hs]; decide)]

end QuoteOk

theorem newMintQuote_ok {request : MintQuoteRequest} (h : request.amount ≠ 0) (invoice : String) (expiry now : UInt64) :
    QuoteOk (newMintQuote request invoice expiry now) := by
  have hpos : 0 < request.amount := by
    have hne : request.amount.toNat ≠ 0 := fun h0 => h (UInt64.toNat_inj.1 (by simpa using h0))
    rw [UInt64.lt_iff_toNat_lt, UInt64.toNat_zero]; omega
  refine ⟨hpos, rfl, UInt64.le_refl 0, ?_⟩
  simp [newMintQuote]

section
variable [Crypto]

namespace QuoteWrite
variable {old new : MintQuoteEntry}

omit [Crypto] in
/-- Every write keeps the state and the counters in step. -/
theorem ok (hw : QuoteWrite old new) (h : QuoteOk old) : QuoteOk new := by
  have hpos := h.positive
  cases hw with
  | settle unpaid later =>
    obtain ⟨-, hissued⟩ := h.unpaid_counters unpaid
    have hne : (0 : UInt64) ≠ old.amount := by
      rintro h0; rw [← h0] at hpos; exact absurd hpos (by decide)
    refine ⟨hpos, rfl, ?_, ?_⟩
    · show old.amountIssued ≤ old.amount
      rw [hissued]; exact UInt64.zero_le
    · simp [MintQuoteEntry.settle, hissued, hne]
  | @mint issued u paid grows le later =>
    have hpaid := h.paid_amount paid
    have hstate : (old.mint issued u).state = if issued = old.amountPaid then .issued else .paid := by
      rw [← paid]; rfl
    refine ⟨hpos, ?_, le, ?_⟩
    · show old.amountPaid = _
      rw [hstate, hpaid]
      split <;> simp [MintQuoteEntry.mint]
    · rw [hstate]
      show _ ↔ issued = old.amountPaid ∧ 0 < old.amountPaid
      split
      · next heq => simp [heq, hpaid, hpos]
      · next hne => simp [hne]
  | batchMint paid later =>
    have hpaid := h.paid_amount paid
    refine ⟨hpos, ?_, ?_, ?_⟩
    · simpa [MintQuoteEntry.batchMint] using hpaid
    · exact hpaid ▸ UInt64.le_refl _
    · simp [MintQuoteEntry.batchMint, hpaid, hpos]

omit [Crypto] in
/-- Every write is a move, unless the time of the old entry is the last one. -/
theorem move (hw : QuoteWrite old new) (h : QuoteOk old) (hmax : old.updatedAt ≠ u64Max) : QuoteMove old new := by
  cases hw with
  | settle unpaid later => exact ⟨.inl ⟨unpaid, rfl⟩, rfl, UInt64.le_refl _, later hmax⟩
  | @mint issued u paid grows le later =>
    refine ⟨?_, rfl, grows, later hmax⟩
    by_cases heq : issued = old.amountPaid
    · exact .inr (.inr ⟨paid, by simp [MintQuoteEntry.mint, heq]⟩)
    · exact .inr (.inl ⟨paid, by simp [MintQuoteEntry.mint, heq, paid]⟩)
  | batchMint paid later =>
    refine ⟨.inr (.inr ⟨paid, rfl⟩), rfl, ?_, later hmax⟩
    show old.amountIssued ≤ old.amount
    rw [← h.paid_amount paid]; exact h.issued_le

end QuoteWrite

/-! ### The table -/

abbrev MintQuotes := Finmap fun _ : String => MintQuoteEntry

def QuotesOk (t : MintQuotes) : Prop := ∀ id e, t.lookup id = some e → QuoteOk e

/-- `updated_at + 1` is in range where the event says that it was computed. -/
def Event.InRange : Event → Prop
  | .quoteWritten _ old _ => old.updatedAt ≠ u64Max
  | .saved _ | .payInvoice .. => True

instance : DecidablePred Event.InRange
  | .quoteWritten _ old _ => inferInstanceAs (Decidable (old.updatedAt ≠ u64Max))
  | .saved _ | .payInvoice .. => inferInstanceAs (Decidable True)

def NoWrap (tr : List Event) : Prop := ∀ ev ∈ tr, ev.InRange

instance (tr : List Event) : Decidable (NoWrap tr) := inferInstanceAs (Decidable (∀ ev ∈ tr, ev.InRange))

theorem NoWrap.tail {e : Event} {tr : List Event} (h : NoWrap (e :: tr)) : NoWrap tr :=
  fun ev hev => h ev (List.mem_cons_of_mem _ hev)

omit [Crypto] in
theorem QuotesOk.insert {t : MintQuotes} (h : QuotesOk t) (id : String) {e : MintQuoteEntry} (he : QuoteOk e) :
    QuotesOk (t.insert id e) := by
  intro id' e' hlook
  rw [Finmap.lookup_insert_eq] at hlook
  split at hlook
  · cases hlook; exact he
  · exact h id' e' hlook

namespace Writes
variable {t₀ t : MintQuotes} {tr₀ tr : List Event}

theorem ok (h : Writes t₀ tr₀ t tr) (hok : QuotesOk t₀) : QuotesOk t := by
  induction h with
  | refl => exact hok
  | write _ found write ih => exact ih.insert _ (write.ok (ih _ _ found))
  | saved _ _ ih => exact ih
  | paid _ _ _ _ ih => exact ih

/-- Each entry only moves. -/
theorem moves (h : Writes t₀ tr₀ t tr) (hok : QuotesOk t₀) (hwrap : NoWrap tr) {id : String} {old : MintQuoteEntry}
    (hold : t₀.lookup id = some old) : ∃ new, t.lookup id = some new ∧ ReflTransGen QuoteMove old new := by
  induction h with
  | refl => exact ⟨old, hold, .refl⟩
  | @write t tr id' e e' before found write ih =>
    obtain ⟨new, hnew, hmoves⟩ := ih hwrap.tail
    by_cases hid : id = id'
    · subst hid
      rw [found] at hnew; cases hnew
      have hmove := write.move (before.ok hok _ _ found) (hwrap _ (List.mem_cons_self ..))
      exact ⟨e', Finmap.lookup_insert _, hmoves.tail hmove⟩
    · exact ⟨new, by rw [Finmap.lookup_insert_of_ne _ hid, hnew], hmoves⟩
  | saved _ _ ih => exact ih hwrap.tail
  | paid _ _ _ _ ih => exact ih hwrap.tail

/-- What the trace says was written is a move. -/
theorem written (h : Writes t₀ tr₀ t tr) (hok : QuotesOk t₀) (hwrap : NoWrap tr) {id : String}
    {old new : MintQuoteEntry} (hw : .quoteWritten id old new ∈ tr) :
    .quoteWritten id old new ∈ tr₀ ∨ QuoteMove old new := by
  induction h with
  | refl => exact .inl hw
  | @write t tr id' e e' before found write ih =>
    rcases List.mem_cons.1 hw with heq | hw
    · cases heq
      exact .inr (write.move (before.ok hok _ _ found) (hwrap _ (List.mem_cons_self ..)))
    · exact ih hwrap.tail hw
  | saved _ _ ih =>
    rcases List.mem_cons.1 hw with heq | hw
    · cases heq
    · exact ih hwrap.tail hw
  | paid _ _ _ _ ih =>
    rcases List.mem_cons.1 hw with heq | hw
    · cases heq
    · exact ih hwrap.tail hw

end Writes

/-! ### Runs -/

/-- The lifecycle of all quotes over one step. -/
structure LifecycleStep (e : Step World Act) : Prop where
  ok : ∀ id q, e.post.mint.mintQuotes.lookup id = some q → QuoteOk q
  moves : ∀ id old, e.pre.mint.mintQuotes.lookup id = some old →
    ∃ new, e.post.mint.mintQuotes.lookup id = some new ∧ ReflTransGen QuoteMove old new
  written : ∀ id old new, .quoteWritten id old new ∈ e.post.trace → QuoteMove old new

theorem CallStep.quotesOk {w w' : World} {a : Act} (hstep : CallStep w a w') (h : QuotesOk w.mint.mintQuotes) :
    QuotesOk w'.mint.mintQuotes := by
  obtain ⟨out, -, hends⟩ := hstep.exists_ends
  rcases hends.mintQuotes with hwrites | ⟨request, invoice, expiry, now, -, hpos, hm, -⟩
  · exact hwrites.ok h
  · rw [hm]; exact h.insert _ (newMintQuote_ok hpos invoice expiry now)

theorem quotesOk_of_run {ks : DemoKeyset} {store : Bool} {h : History} {w : World}
    (hrun : Run CallStep (World.init ks store) h w) : QuotesOk w.mint.mintQuotes := by
  induction hrun with
  | nil => intro id e he; simp [World.init, World.boot, DemoMint.fresh] at he
  | snoc _ hstep ih => exact hstep.quotesOk ih

theorem CallStep.lifecycle {w w' : World} {a : Act} (hstep : CallStep w a w') (hfresh : Fresh w a)
    (hwrap : NoWrap w'.trace) (hok : QuotesOk w.mint.mintQuotes)
    (hold : ∀ id old new, .quoteWritten id old new ∈ w.trace → QuoteMove old new) : LifecycleStep ⟨w, a, w'⟩ := by
  obtain ⟨out, -, hends⟩ := hstep.exists_ends
  refine ⟨hstep.quotesOk hok, fun id old hlook => ?_, fun id old new hw => ?_⟩
  · rcases hends.mintQuotes with hwrites | ⟨request, invoice, expiry, now, hcall, hpos, hm, -⟩
    · exact hwrites.moves hok hwrap hlook
    · have hne : id ≠ a.env.nowV7 := by
        rintro rfl
        have hnone := (hfresh.lookup (show drawn a = some a.env.nowV7 by rw [drawn, hcall])).1
        rw [hnone] at hlook; cases hlook
      refine ⟨old, ?_, .refl⟩
      dsimp only
      rw [hm, Finmap.lookup_insert_of_ne _ hne]; exact hlook
  · rcases hends.mintQuotes with hwrites | ⟨request, invoice, expiry, now, -, -, -, htr⟩
    · rcases hwrites.written hok hwrap hw with hw | hmove
      · exact hold id old new hw
      · exact hmove
    · dsimp only at hw
      rw [htr] at hw
      unfold persisted at hw
      split at hw
      · rcases List.mem_cons.1 hw with heq | hw
        · cases heq
        · exact hold id old new hw
      · exact hold id old new hw

/-- Every quote only goes from `UNPAID` to `PAID` to `ISSUED`, its counters say which, and every write is later. -/
theorem mintQuote_lifecycle {ks : DemoKeyset} {store : Bool} {h : History} {w : World}
    (hrun : Run CallStep (World.init ks store) h w) (huuid : UuidsDistinct h)
    (hwrap : ∀ e ∈ h, NoWrap e.post.trace) : ∀ e ∈ h, LifecycleStep e := by
  let I : History → World → Prop := fun h w => (∀ e ∈ h, LifecycleStep e) ∧ QuotesOk w.mint.mintQuotes ∧
    ∀ id old new, .quoteWritten id old new ∈ w.trace → QuoteMove old new
  suffices hI : I h w from hI.1
  refine CallStep.invariant (G := fun e => NoWrap e.post.trace) ?_ ?_ hrun huuid hwrap
  · refine ⟨by simp, fun id e he => by simp [World.init, World.boot, DemoMint.fresh] at he, fun id old new hw => ?_⟩
    simp only [World.init, World.boot, persisted] at hw
    split at hw <;> simp at hw
  · rintro h w a w' hwrap hfresh ⟨hsteps, hok, hold⟩ hstep
    have hlast := hstep.lifecycle hfresh hwrap hok hold
    refine ⟨fun e he => ?_, hstep.quotesOk hok, hlast.written⟩
    rcases List.mem_append.1 he with he | he
    · exact hsteps e he
    · rw [List.mem_singleton.1 he]; exact hlast

end

section toy
open Toy

theorem mintQuote_lifecycle_toy : (replay (World.init keyset true) mintingCalls).1 ≠ [] ∧
    ∀ e ∈ (replay (World.init keyset true) mintingCalls).1, LifecycleStep e :=
  ⟨by decide +kernel, mintQuote_lifecycle (run_replay (by decide +kernel)) (by decide +kernel) (by decide +kernel)⟩

/-- A quote of two that is settled at the last second there is, and then minted from at the first. -/
def wrappingCalls : List (Call × Env) :=
  [(.postMintQuote ⟨2, "sat", none⟩, Toy.env),
   (.getMintQuote "0190-q1", { Toy.env with nowSecs := fun n => if n = 0 then 100 else u64Max }),
   (.postMint ⟨"0190-q1", [⟨1, "00c0ffee", (5 : UInt8)⟩], none⟩, { Toy.env with nowSecs := fun _ => 0 })]

/-- After the last second the time of an entry can fall back. -/
theorem mintQuote_updatedAt_wraps : ∃ h w, Run CallStep (World.init keyset true) h w ∧ UuidsDistinct h ∧
    ∃ e ∈ h, ∃ id old new, e.pre.mint.mintQuotes.lookup id = some old ∧
      e.post.mint.mintQuotes.lookup id = some new ∧ new.updatedAt < old.updatedAt := by
  refine ⟨(replay (World.init keyset true) wrappingCalls).1, _, run_replay (by decide +kernel), by decide +kernel, ?_⟩
  refine ⟨_, List.mem_of_getElem? (i := 2) rfl, "0190-q1", ⟨2, "sat", "lnbc1", .paid, 3700, 2, 0, u64Max, none⟩,
    ⟨2, "sat", "lnbc1", .paid, 3700, 2, 1, 0, none⟩, ?_, ?_, ?_⟩
  · decide +kernel
  · decide +kernel
  · decide

end toy

end Micronuts
