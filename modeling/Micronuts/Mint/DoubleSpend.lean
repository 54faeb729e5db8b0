import Micronuts.Mint.Runs

/-!
# No double spend

The inputs that `Ok` swaps and melts took are in the spent set, and in the last saved one. So no later call
takes them again, also after a restart. A failed melt releases its own inputs only, and these were not spent
before it.
-/

namespace Micronuts
open Exec

section
variable [Crypto]

/-- The inputs of an `Ok` swap or melt. -/
def takenBy : Call → Outcome CashuError Response → List Proof
  | .postSwap request, .ok _ => request.inputs
  | .postMelt request, .ok _ => request.inputs
  | _, _ => []

/-- A call that takes inputs found them unspent; afterwards they are spent, and saved as spent. -/
theorem CallEnds.takes {env : Env} {w : World} {c : Call} {out : Outcome CashuError Response} {m : DemoMint}
    {tr : List Event} (h : CallEnds env w c out m tr) : ∃ ys, Claims w.mint (takenBy c out) ys ∧
      (∀ y ∈ ys, y ∈ m.spentYs) ∧ (ys ≠ [] → m.store = true → lastSaved tr = some m.snapshot) := by
  have hnone : takenBy c out = [] → ∃ ys, Claims w.mint (takenBy c out) ys ∧
      (∀ y ∈ ys, y ∈ m.spentYs) ∧ (ys ≠ [] → m.store = true → lastSaved tr = some m.snapshot) := by
    intro htaken
    rw [htaken]
    exact ⟨[], ⟨.nil, List.nodup_nil, by simp⟩, by simp, by simp⟩
  cases out with
  | err e => exact hnone (by cases c <;> rfl)
  | panic => exact hnone (by cases c <;> rfl)
  | ok r =>
    cases c with
    | postSwap request =>
      cases h with
      | looked looks settled => exact looks.elim
      | @swapped _ ys sigs m passed claims signed mint_eq =>
        subst mint_eq
        refine ⟨ys, claims, fun y hy => ?_, fun _ hstore => lastSaved_persisted hstore _⟩
        rw [DemoMint.record_spentYs]; exact DemoMint.mem_spend.2 (.inr hy)
    | postMelt request =>
      cases h with
      | looked looks settled => exact looks.elim
      | @meltPaid _ plan w₁ q ys preimage change m claimed passed claims answer signed mint_eq =>
        subst mint_eq
        refine ⟨ys, claims, fun y hy => ?_, fun _ hstore => lastSaved_persisted hstore _⟩
        rw [DemoMint.putMeltQuote_spentYs, DemoMint.record_spentYs]; exact DemoMint.mem_spend.2 (.inr hy)
    | postMintQuote request => exact hnone rfl
    | getMintQuote quoteId => exact hnone rfl
    | batchCheckMintQuotes request => exact hnone rfl
    | postMint request => exact hnone rfl
    | batchMint request => exact hnone rfl
    | postMeltQuote request => exact hnone rfl
    | getMeltQuote quoteId => exact hnone rfl
    | postRestore request => exact hnone rfl

def Step.taken (e : Step World Act) : List Proof :=
  match e.act.ending with
  | .returned out => takenBy e.act.call out
  | .crashed _ => []

/-- The `Y`s of all inputs that `Ok` swaps and melts took, in order. -/
def takenYs (h : History) : List (Except CashuError String) :=
  (h.flatMap Step.taken).map fun p => proofYHex p.secret

/-- `y` is spent, also after a restart. -/
structure Held (y : String) (w : World) : Prop where
  memory : y ∈ w.mint.spentYs
  saved : ∀ snap, lastSaved w.trace = some snap → y ∈ snap.spentYs

theorem takenYs_append (h : History) (e : Step World Act) :
    takenYs (h ++ [e]) = takenYs h ++ (Step.taken e).map fun p => proofYHex p.secret := by
  simp [takenYs]

theorem Claims.map_eq {m : DemoMint} {proofs : List Proof} {ys : List String} (h : Claims m proofs ys) :
    (proofs.map fun p => proofYHex p.secret) = ys.map .ok := by
  obtain ⟨h, -, -⟩ := h
  induction h with
  | nil => rfl
  | cons hp _ ih => rw [List.map_cons, List.map_cons, hp, ih]

section steps
variable {h : History} {w w' : World} {a : Act} {y : String}

/-- What a call takes, as the history lists it. -/
theorem CallStep.takes (hstep : CallStep w a w') : ∃ ys, Claims w.mint (Step.taken ⟨w, a, w'⟩) ys ∧
    takenYs (h ++ [⟨w, a, w'⟩]) = takenYs h ++ ys.map .ok ∧ (∀ y ∈ ys, y ∈ w'.mint.spentYs) ∧
    (ys ≠ [] → w'.mint.store = true → lastSaved w'.trace = some w'.mint.snapshot) := by
  obtain ⟨out, hout, hends⟩ := hstep.exists_ends
  obtain ⟨ys, hclaims, hheld, hsaved⟩ := hends.takes
  have htaken : Step.taken ⟨w, a, w'⟩ = takenBy a.call out := by simp only [Step.taken, hout]
  refine ⟨ys, htaken ▸ hclaims, ?_, hheld, hsaved⟩
  rw [takenYs_append, htaken, hclaims.map_eq]

theorem CrashStep.takes (hstep : CrashStep w a w') : takenYs (h ++ [⟨w, a, w'⟩]) = takenYs h := by
  obtain ⟨lost, cut, snap, m, hend, -⟩ := hstep
  rw [takenYs_append]
  simp [Step.taken, hend]

namespace Held

theorem callStep (hy : Held y w) (hstep : CallStep w a w') : Held y w' := by
  obtain ⟨out, -, hends⟩ := hstep.exists_ends
  refine ⟨hends.spentYs hy.memory, fun snap hsnap => ?_⟩
  -- whatever is last saved now has the old spent set in it, or was there before
  rcases hends.lastSaved_cut hends.grows.suffix (List.suffix_refl _) hsnap with hby | hold
  · exact hby.spentYs hy.memory
  · exact hy.saved snap hold

theorem crashStep (hy : Held y w) (hstep : CrashStep w a w') : Held y w' := by
  obtain ⟨out, m, tr, snap, hends, hlow, hcut, hlast, hrestore⟩ := hstep.exists_ends
  obtain ⟨-, -, -, -, hspent⟩ := DemoMint.restore_eq_some hrestore
  have hsnap : y ∈ snap.spentYs := by
    rcases hends.lastSaved_cut hlow hcut hlast with hby | hold
    · exact hby.spentYs hy.memory
    · exact hy.saved snap hold
  refine ⟨by rw [hspent]; exact hsnap, fun snap' hsnap' => ?_⟩
  rw [hlast] at hsnap'; cases hsnap'
  exact hsnap

/-- A held `Y` is held for good, and nothing takes it. -/
theorem of_run (hy : Held y w) (hrun : Run DurableStep w h w') : Held y w' ∧ .ok y ∉ takenYs h := by
  induction hrun with
  | nil => exact ⟨hy, by simp [takenYs]⟩
  | snoc _ hstep ih =>
    obtain ⟨hheld, hno⟩ := ih
    rcases hstep with hcall | hcrash
    · obtain ⟨ys, hclaims, htaken, -, -⟩ := hcall.takes
      refine ⟨hheld.callStep hcall, fun hmem => ?_⟩
      rw [htaken] at hmem
      rcases List.mem_append.1 hmem with hmem | hmem
      · exact hno hmem
      · obtain ⟨y', hy', heq⟩ := List.mem_map.1 hmem
        cases heq
        exact hclaims.unspent y hy' hheld.memory
    · exact ⟨hheld.crashStep hcrash, by rw [hcrash.takes]; exact hno⟩

end Held

/-- All that was taken is held, and was taken once. -/
structure Spent (h : History) (w : World) : Prop where
  nodup : (takenYs h).Nodup
  held : ∀ r ∈ takenYs h, ∃ y, r = .ok y ∧ Held y w
  /-- Without a store nothing is ever saved. -/
  unsaved : w.mint.store = false → lastSaved w.trace = none

namespace Spent

theorem init (ks : DemoKeyset) (store : Bool) : Spent [] (World.init ks store) := by
  refine ⟨List.nodup_nil, by simp [takenYs], fun hstore => ?_⟩
  obtain rfl : store = false := hstore
  rfl

/-- What is last saved was saved by this call, with a store, or before it. -/
theorem unsaved_of_cut (hI : Spent h w) {env : Env} {c : Call} (hfalse : w.mint.store = false)
    (hcut : ∀ snap, lastSaved w'.trace = some snap → SavedBy env w.begin c snap ∨ lastSaved w.trace = some snap) :
    lastSaved w'.trace = none := by
  cases hlast : lastSaved w'.trace with
  | none => rfl
  | some snap =>
    rcases hcut snap hlast with hby | hold
    · have htrue : w.mint.store = true := hby.store
      rw [hfalse] at htrue; cases htrue
    · rw [hI.unsaved hfalse] at hold; cases hold

theorem callStep (hI : Spent h w) (hstep : CallStep w a w') : Spent (h ++ [⟨w, a, w'⟩]) w' := by
  obtain ⟨ys, hclaims, htaken, hheld, hsaved⟩ := hstep.takes
  obtain ⟨out, hout, hends⟩ := hstep.exists_ends
  have hunsaved : w'.mint.store = false → lastSaved w'.trace = none := fun hfalse =>
    hI.unsaved_of_cut (hends.config.2.symm.trans hfalse) fun snap hsnap =>
      hends.lastSaved_cut hends.grows.suffix (List.suffix_refl _) hsnap
  refine ⟨?_, fun r hr => ?_, hunsaved⟩
  · rw [htaken, List.nodup_append]
    refine ⟨hI.nodup, hclaims.nodup.map fun _ _ h => by cases h; rfl, fun r hr r' hr' heq => ?_⟩
    obtain ⟨y, rfl, hy⟩ := hI.held r hr
    obtain ⟨y', hy', rfl⟩ := List.mem_map.1 hr'
    cases heq
    exact hclaims.unspent y hy' hy.memory
  · rw [htaken] at hr
    rcases List.mem_append.1 hr with hr | hr
    · obtain ⟨y, rfl, hy⟩ := hI.held r hr
      exact ⟨y, rfl, hy.callStep hstep⟩
    · obtain ⟨y, hy, rfl⟩ := List.mem_map.1 hr
      refine ⟨y, rfl, hheld y hy, fun snap hsnap => ?_⟩
      cases hst : w'.mint.store with
      | false => rw [hunsaved hst] at hsnap; cases hsnap
      | true =>
        rw [hsaved (List.ne_nil_of_mem hy) hst] at hsnap
        cases hsnap
        exact hheld y hy

theorem crashStep (hI : Spent h w) (hstep : CrashStep w a w') : Spent (h ++ [⟨w, a, w'⟩]) w' := by
  obtain ⟨out, m, tr, snap, hends, hlow, hcut, -, hrestore⟩ := hstep.exists_ends
  obtain ⟨-, hstore, -⟩ := DemoMint.restore_eq_some hrestore
  refine ⟨by rw [hstep.takes]; exact hI.nodup, fun r hr => ?_, fun hfalse => ?_⟩
  · rw [hstep.takes] at hr
    obtain ⟨y, rfl, hy⟩ := hI.held r hr
    exact ⟨y, rfl, hy.crashStep hstep⟩
  · exact hI.unsaved_of_cut (hstore.symm.trans hfalse) fun snap hsnap => hends.lastSaved_cut hlow hcut hsnap

theorem of_run {ks : DemoKeyset} {store : Bool} (hrun : Run DurableStep (World.init ks store) h w) : Spent h w := by
  induction hrun with
  | nil => exact .init ks store
  | snoc _ hstep ih =>
    rcases hstep with hcall | hcrash
    · exact ih.callStep hcall
    · exact ih.crashStep hcrash

end Spent

end steps

/-- Over any run with restarts, no `Y` comes twice among the inputs that were taken. -/
theorem no_double_spend {ks : DemoKeyset} {store : Bool} {h : History} {w : World}
    (hrun : Run DurableStep (World.init ks store) h w) : (takenYs h).Nodup :=
  (Spent.of_run hrun).nodup

end

section toy
open Toy

/-- A swap, and the same inputs in a melt afterwards. -/
def respendingCalls : List (Call × Env) :=
  [(.postMeltQuote ⟨"lnbc2", "sat", none⟩, env), (.postSwap ⟨[coin 2 "two"], [⟨2, "00c0ffee", (5 : UInt8)⟩]⟩, env),
   (.postMelt ⟨"0190-q1", [coin 2 "two"], none⟩, env)]

theorem no_double_spend_toy : (takenYs (replay (World.init keyset true) respendingCalls).1).Nodup :=
  no_double_spend ((run_replay (by decide +kernel)).mono fun _ _ _ => .inl)

end toy

end Micronuts
