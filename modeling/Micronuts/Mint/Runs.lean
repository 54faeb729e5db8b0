import Micronuts.Lib.Run
import Micronuts.Mint.Tables

/-!
# Runs of the mint

In a run every call gets its own answers from outside. `CallStep` is a call that returns, with `Ok`
or `Err`. `DurableStep` also lets the process stop at any point of a call: what the call did outside
after that point is lost, and the mint comes back with the tables of the last saved snapshot.
-/

namespace Micronuts
open Exec
section
variable [Crypto]

inductive Ending
  | returned (out : Outcome CashuError Response)
  /-- The last `lost` effects of the call did not happen. -/
  | crashed (lost : Nat)
deriving DecidableEq

structure Act where
  call : Call
  env : Env
  ending : Ending

abbrev History := List (Step World Act)

/-- A mint that is put into service: with a store its tables are saved first (`with_state_store`). -/
def World.boot (m : DemoMint) : World := ⟨m, persisted m [], 0⟩

/-- A new call numbers its questions from `0`. -/
def World.begin (w : World) : World := { w with asked := 0 }

/-- A new mint without quotes. -/
def World.init (ks : DemoKeyset) (store : Bool) : World := .boot (.fresh ks store)

/-- A call that returns. -/
def CallStep (w : World) (a : Act) (w' : World) : Prop :=
  ∃ out, a.ending = .returned out ∧ out ≠ .panic ∧ (exec a.call).run a.env w.begin = (out, w')

/-- A call during which the process stops, and the restart after it. -/
def CrashStep (w : World) (a : Act) (w' : World) : Prop :=
  ∃ lost cut snap m, a.ending = .crashed lost ∧ cut = ((exec a.call).run a.env w.begin).2.trace.drop lost ∧
    w.trace <:+ cut ∧ lastSaved cut = some snap ∧ w.mint.restore snap = some m ∧ w' = ⟨m, cut, 0⟩

def DurableStep (w : World) (a : Act) (w' : World) : Prop := CallStep w a w' ∨ CrashStep w a w'

/-- A call, run on `w`, is a step if it returns. -/
theorem CallStep.of_exec {w : World} (call : Call) (env : Env) (h : ((exec call).run env w.begin).1 ≠ .panic) :
    CallStep w ⟨call, env, .returned ((exec call).run env w.begin).1⟩ ((exec call).run env w.begin).2 :=
  ⟨_, rfl, h, rfl⟩

theorem CallStep.ends {w w' : World} {a : Act} {out : Outcome CashuError Response} (h : CallStep w a w')
    (hout : a.ending = .returned out) : CallEnds a.env w.begin a.call out w'.mint w'.trace := by
  obtain ⟨out', hout', hne, hrun⟩ := h
  obtain rfl : out' = out := by rw [hout] at hout'; cases hout'; rfl
  have hfin := (@exec_ends _ a.env w.begin a.call).elim hrun
  cases out' with
  | ok r => exact hfin
  | err e => exact hfin
  | panic => exact absurd rfl hne

theorem CallStep.exists_ends {w w' : World} {a : Act} (h : CallStep w a w') :
    ∃ out, a.ending = .returned out ∧ CallEnds a.env w.begin a.call out w'.mint w'.trace := by
  have ⟨out, hout, _⟩ := h
  exact ⟨out, hout, h.ends hout⟩

/-- What is durable at a crash is a part of what some way to end the call leaves behind. -/
theorem CrashStep.exists_ends {w w' : World} {a : Act} (h : CrashStep w a w') :
    ∃ out m tr snap, CallEnds a.env w.begin a.call out m tr ∧ w.trace <:+ w'.trace ∧ w'.trace <:+ tr ∧
      lastSaved w'.trace = some snap ∧ w.mint.restore snap = some w'.mint := by
  obtain ⟨lost, cut, snap, m, -, rfl, hsuf, hsaved, hrestore, rfl⟩ := h
  have hfin := @exec_ends _ a.env w.begin a.call
  unfold Ends at hfin
  have hdrop := List.drop_suffix lost ((exec a.call).run a.env w.begin).2.trace
  generalize (exec a.call).run a.env w.begin = r at *
  obtain ⟨out, t⟩ := r
  cases out with
  | ok r => exact ⟨_, _, _, snap, hfin, hsuf, hdrop, hsaved, hrestore⟩
  | err e => exact ⟨_, _, _, snap, hfin, hsuf, hdrop, hsaved, hrestore⟩
  | panic =>
    obtain ⟨out, m', tr, hends, htr⟩ := hfin
    exact ⟨out, m', tr, snap, hends, hsuf, hdrop.trans htr, hsaved, hrestore⟩

/-- The keyset and the store are those of the start. -/
theorem config_of_run {w₀ w : World} {h : History} (hrun : Run CallStep w₀ h w) :
    w.mint.keyset = w₀.mint.keyset ∧ w.mint.store = w₀.mint.store := by
  induction hrun with
  | nil => exact ⟨rfl, rfl⟩
  | snoc _ hstep ih =>
    obtain ⟨out, -, hends⟩ := hstep.exists_ends
    exact ⟨hends.config.1.trans ih.1, hends.config.2.trans ih.2⟩

/-! ### Runs that are executed -/

/-- Run the calls one after another. -/
def replay : World → List (Call × Env) → History × World
  | w, [] => ([], w)
  | w, (call, env) :: calls =>
    let r := (exec call).run env w.begin
    let rest := replay r.2 calls
    (⟨w, ⟨call, env, .returned r.1⟩, r.2⟩ :: rest.1, rest.2)

/-- No call of the history ended in a panic. -/
def History.returns (h : History) : Bool := h.all fun e => e.act.ending ≠ .returned .panic

/-- Calls that return make a run. -/
theorem run_replay {w : World} {calls : List (Call × Env)} (h : History.returns (replay w calls).1 = true) :
    Run CallStep w (replay w calls).1 (replay w calls).2 := by
  suffices hgen : ∀ w₀ h₀ w, Run CallStep w₀ h₀ w → History.returns (replay w calls).1 = true →
      Run CallStep w₀ (h₀ ++ (replay w calls).1) (replay w calls).2 by
    simpa using hgen w [] w .nil h
  clear h
  induction calls with
  | nil => intro w₀ h₀ w hrun _; simpa [replay] using hrun
  | cons c calls ih =>
    obtain ⟨call, env⟩ := c
    intro w₀ h₀ w hrun hret
    simp only [replay, History.returns, List.all_cons, Bool.and_eq_true, decide_eq_true_eq, ne_eq] at hret ⊢
    have hstep := CallStep.of_exec call env fun hp => hret.1 (by rw [hp])
    have := ih w₀ _ _ (hrun.snoc hstep) hret.2
    rwa [List.append_assoc] at this

/-! ### Quote ids -/

/-- The id that a call takes from `uuid` for a new quote. -/
def drawn (a : Act) : Option String :=
  match a.call with
  | .postMintQuote _ | .postMeltQuote _ => some a.env.nowV7
  | _ => none

def History.drawn (h : History) : List String := h.filterMap fun e => Micronuts.drawn e.act

/-- `uuid` does not give the same id twice. -/
def UuidsDistinct (h : History) : Prop := h.drawn.Nodup

instance (h : History) : Decidable (UuidsDistinct h) := inferInstanceAs (Decidable h.drawn.Nodup)

def DemoMint.quoteIds (m : DemoMint) : Finset String := m.mintQuotes.keys ∪ m.meltQuotes.keys

theorem DemoMint.mem_quoteIds {m : DemoMint} {id : String} :
    id ∈ m.quoteIds ↔ (m.mintQuotes.lookup id).isSome ∨ (m.meltQuotes.lookup id).isSome := by
  simp only [quoteIds, Finset.mem_union, Finmap.mem_keys, Finmap.lookup_isSome]

/-- The id a call draws is not in use. -/
def Fresh (w : World) (a : Act) : Prop := ∀ id, drawn a = some id → id ∉ w.mint.quoteIds

theorem Fresh.lookup {w : World} {a : Act} (h : Fresh w a) {id : String} (hid : drawn a = some id) :
    w.mint.mintQuotes.lookup id = none ∧ w.mint.meltQuotes.lookup id = none := by
  have := h id hid
  simpa [DemoMint.mem_quoteIds] using this

theorem MeltQuotesAfter.keys {w : World} {a : Act} {t : Finmap fun _ : String => MeltQuoteEntry}
    (h : MeltQuotesAfter a.env w a.call t) {id : String} (hid : id ∈ t.keys) :
    id ∈ w.mint.meltQuotes.keys ∨ drawn a = some id := by
  cases h with
  | same => exact .inl hid
  | created call q unpaid =>
    rw [Finmap.keys_insert] at hid
    rcases Finset.mem_insert.1 hid with rfl | hid
    · exact .inr (by rw [drawn, call])
    · exact .inl hid
  | melted call q found unpaid state left =>
    rw [Finmap.keys_insert] at hid
    rcases Finset.mem_insert.1 hid with rfl | hid
    · exact .inl (Finmap.mem_keys.2 (Finmap.mem_of_lookup_eq_some found))
    · exact .inl hid

/-- A call adds no quote but the one whose id it draws. -/
theorem CallEnds.quoteIds {a : Act} {w : World} {out : Outcome CashuError Response} {m : DemoMint} {tr : List Event}
    (h : CallEnds a.env w a.call out m tr) {id : String} (hid : id ∈ m.quoteIds) :
    id ∈ w.mint.quoteIds ∨ drawn a = some id := by
  unfold DemoMint.quoteIds at hid ⊢
  rcases Finset.mem_union.1 hid with hid | hid
  · rcases h.mintQuotes with hwrites | ⟨request, invoice, expiry, now, hc, -, hm, -⟩
    · rw [hwrites.keys] at hid
      exact .inl (Finset.mem_union_left _ hid)
    · rw [hm, Finmap.keys_insert] at hid
      rcases Finset.mem_insert.1 hid with rfl | hid
      · exact .inr (by rw [drawn, hc])
      · exact .inl (Finset.mem_union_left _ hid)
  · exact (h.meltQuotes.keys hid).imp_left (Finset.mem_union_right _)

theorem CallStep.quoteIds {w w' : World} {a : Act} (h : CallStep w a w') {id : String}
    (hid : id ∈ w'.mint.quoteIds) : id ∈ w.mint.quoteIds ∨ drawn a = some id := by
  obtain ⟨out, -, hends⟩ := h.exists_ends
  exact hends.quoteIds hid

/-- In a run from a mint without quotes, all quotes have drawn ids. -/
theorem quoteIds_drawn {ks : DemoKeyset} {store : Bool} {h : History} {w : World}
    (hrun : Run CallStep (World.init ks store) h w) {id : String} (hid : id ∈ w.mint.quoteIds) : id ∈ h.drawn := by
  induction hrun with
  | nil => simp [World.init, World.boot, DemoMint.fresh, DemoMint.quoteIds] at hid
  | @snoc h w w' a hrun hstep ih =>
    simp only [History.drawn, List.filterMap_append, List.mem_append]
    rcases hstep.quoteIds hid with hid | hid
    · exact .inl (ih hid)
    · exact .inr (by simp [hid])

/-- The last step of a history with distinct ids draws an unused one. -/
theorem fresh_of_distinct {ks : DemoKeyset} {store : Bool} {h : History} {w w' : World} {a : Act}
    (hrun : Run CallStep (World.init ks store) h w) (huuid : UuidsDistinct (h ++ [⟨w, a, w'⟩])) : Fresh w a := by
  intro id hdraw hid
  have hmem := quoteIds_drawn hrun hid
  simp only [UuidsDistinct, History.drawn, List.filterMap_append, List.filterMap_cons, List.filterMap_nil, hdraw,
    List.nodup_append] at huuid
  exact huuid.2.2 id hmem id (by simp) rfl

/-- The induction over runs of calls that return: every step draws a fresh id and meets the guard `G`. -/
theorem CallStep.invariant {ks : DemoKeyset} {store : Bool} {G : Step World Act → Prop} {I : History → World → Prop}
    (init : I [] (World.init ks store))
    (step : ∀ h w a w', G ⟨w, a, w'⟩ → Fresh w a → I h w → CallStep w a w' → I (h ++ [⟨w, a, w'⟩]) w')
    {h : History} {w : World} (hrun : Run CallStep (World.init ks store) h w) (huuid : UuidsDistinct h)
    (hG : ∀ e ∈ h, G e) : I h w := by
  have hP : Run.PrefixClosed fun h : History => UuidsDistinct h ∧ ∀ e ∈ h, G e :=
    (Run.PrefixClosed.nodup_filterMap _).and (Run.PrefixClosed.forall_mem G)
  refine Run.invariant hP init (fun h w a w' hrun hh hI hstep => ?_) hrun ⟨huuid, hG⟩
  exact step h w a w' (hh.2 _ (by simp)) (fresh_of_distinct hrun hh.1) hI hstep

end

/-! ### A run to look at -/

namespace Toy

theorem signTotal {ks : DemoKeyset} : SignTotal ks := ⟨fun _ _ => ⟨_, rfl⟩, rfl, fun _ _ _ _ => ⟨_, rfl⟩⟩

/-- A quote of two, from which one is minted and then one more. -/
def mintingCalls : List (Call × Env) :=
  [(.postMintQuote ⟨2, "sat", none⟩, env), (.postMint ⟨"0190-q1", [⟨1, "00c0ffee", (5 : UInt8)⟩], none⟩, env),
   (.postMint ⟨"0190-q1", [⟨1, "00c0ffee", (6 : UInt8)⟩], none⟩, env)]

end Toy

end Micronuts
