import Micronuts.Lib.Checked
import Micronuts.Lib.Exec
import Micronuts.Mint.State

/-!
# The mint and what is outside it

A method of the mint is an `Exec` over the `World`: the mint, the `trace` of what it did outside (the
newest event first), and a count of the questions it asked during the call. The clock, the Lightning
backend, the store and the random draws answer through `Env`; whoever is asked twice may give two
answers. A failed save stops the process, so it is a panic.
-/

namespace Micronuts

/-- What the outside answers during one call. Questions asked more than once are numbered. -/
structure Env where
  nowSecs : Nat → UInt64
  nowV7 : String
  createInvoice : UInt64 → Except CashuError String
  isSettled : Nat → String → Except CashuError Bool
  lookupAmount : String → Except CashuError UInt64
  payInvoice : String → UInt64 → Except CashuError String
  save : Nat → Except String Unit
  dleqNonce : Nat → Nat
  /-- A build that checks `+` for overflow; the release profile wraps. -/
  overflowChecks : Bool

/-- A clock that stands still, a backend that pays and is paid, a store that saves. -/
def Toy.env : Env where
  nowSecs _ := 100
  nowV7 := "0190-q1"
  createInvoice _ := .ok "lnbc1"
  isSettled _ _ := .ok true
  lookupAmount _ := .ok 2
  payInvoice _ _ := .ok "preimage"
  save _ := .ok ()
  dleqNonce n := n
  overflowChecks := false

def u64Max : UInt64 := 0xFFFFFFFFFFFFFFFF

variable [Crypto]

inductive Event
  | saved (snap : MintStateSnapshot)
  | payInvoice (request : MeltRequest) (invoice : String) (amount : UInt64)
  -- a history variable: `mint_quotes.get_mut(id)` was given the fields of `new`
  | quoteWritten (id : String) (old new : MintQuoteEntry)

structure World where
  mint : DemoMint
  trace : List Event
  asked : Nat

/-- What `StateStore::load` finds. -/
def lastSaved : List Event → Option MintStateSnapshot
  | [] => none
  | .saved snap :: _ => some snap
  | .payInvoice .. :: trace => lastSaved trace
  | .quoteWritten .. :: trace => lastSaved trace

abbrev MintM := Exec Env World CashuError

namespace MintM
variable {α β : Type}

def ask (f : Env → Nat → Except CashuError α) : MintM α := fun env w =>
  match f env w.asked with
  | .ok a => (.ok a, { w with asked := w.asked + 1 })
  | .error e => (.err e, { w with asked := w.asked + 1 })

def nowSecs : MintM UInt64 := ask fun env n => .ok (env.nowSecs n)

def nowV7 : MintM String := ask fun env _ => .ok env.nowV7

def dleqNonce : MintM Nat := ask fun env n => .ok (env.dleqNonce n)

def createInvoice (amount : UInt64) : MintM String := ask fun env _ => env.createInvoice amount

def isSettled (invoice : String) : MintM Bool := ask fun env n => env.isSettled n invoice

def lookupAmount (invoice : String) : MintM UInt64 := ask fun env _ => env.lookupAmount invoice

/-- The backend is called, whatever it answers. -/
def payInvoice (request : MeltRequest) (invoice : String) (amount : UInt64) : MintM (Except CashuError String) :=
  fun env w => (.ok (env.payInvoice invoice amount), { w with trace := .payInvoice request invoice amount :: w.trace })

def modifyMint (f : DemoMint → DemoMint) : MintM Unit := Exec.modify fun w => { w with mint := f w.mint }

/-- `entry.updated_at + 1`, at least `now`. -/
def nextUpdatedAt (now updatedAt : UInt64) : MintM UInt64 := fun env w =>
  if env.overflowChecks ∧ updatedAt = u64Max then (.panic, w)
  else (.ok (max now (updatedAt + 1)), w)

def persist : MintM Unit := fun env w =>
  if w.mint.store then
    match env.save w.asked with
    | .ok () => (.ok (), { w with trace := .saved w.mint.snapshot :: w.trace, asked := w.asked + 1 })
    | .error _ => (.panic, w)
  else (.ok (), w)

end MintM

/-- The trace after a successful `persist`. -/
def persisted (m : DemoMint) (trace : List Event) : List Event :=
  if m.store then .saved m.snapshot :: trace else trace

theorem suffix_persisted (m : DemoMint) (trace : List Event) : trace <:+ persisted m trace := by
  unfold persisted
  split
  · exact List.suffix_cons _ _
  · exact List.suffix_refl _

theorem lastSaved_persisted {m : DemoMint} (h : m.store = true) (trace : List Event) :
    lastSaved (persisted m trace) = some m.snapshot := by
  simp [persisted, h, lastSaved]

theorem lastSaved_persisted_unstored {m : DemoMint} (h : m.store = false) (trace : List Event) :
    lastSaved (persisted m trace) = lastSaved trace := by
  simp [persisted, h]

/-! ### Rules for the questions and effects -/

namespace MintM
open Exec (Ends run run_bind)
variable {α β : Type} {env : Env} {w : World} {Q : Outcome CashuError β → World → Prop}

theorem bind_ask {f : Env → Nat → Except CashuError α} {k : α → MintM β}
    (hok : ∀ a, f env w.asked = .ok a → (k a).Ends env { w with asked := w.asked + 1 } Q)
    (herr : ∀ e, f env w.asked = .error e → Q (.err e) { w with asked := w.asked + 1 }) :
    (ask f >>= k).Ends env w Q := by
  unfold Ends
  rw [run_bind]
  simp only [run, ask]
  cases hf : f env w.asked with
  | ok a => exact hok a hf
  | error e => exact herr e hf

theorem bind_nowSecs {k : UInt64 → MintM β}
    (h : ∀ now, (k now).Ends env { w with asked := w.asked + 1 } Q) : (nowSecs >>= k).Ends env w Q :=
  h _

theorem bind_payInvoice {request : MeltRequest} {invoice : String} {amount : UInt64}
    {k : Except CashuError String → MintM β}
    (h : (k (env.payInvoice invoice amount)).Ends env
      { w with trace := .payInvoice request invoice amount :: w.trace } Q) :
    (payInvoice request invoice amount >>= k).Ends env w Q := h

theorem bind_modifyMint {f : DemoMint → DemoMint} {k : Unit → MintM β}
    (h : (k ()).Ends env { w with mint := f w.mint } Q) : (modifyMint f >>= k).Ends env w Q := h

theorem bind_nextUpdatedAt {now updatedAt : UInt64} {k : UInt64 → MintM β}
    (hok : (k (max now (updatedAt + 1))).Ends env w Q) (hpanic : Q .panic w) :
    (nextUpdatedAt now updatedAt >>= k).Ends env w Q := by
  unfold Ends
  rw [run_bind]
  simp only [run, nextUpdatedAt]
  by_cases h : env.overflowChecks ∧ updatedAt = u64Max
  · rw [if_pos h]; exact hpanic
  · rw [if_neg h]; exact hok

/-- The snapshot is in the store, or the process has stopped. -/
theorem persist_ends : persist.Ends env w fun o t =>
    match o with
    | .ok _ => ∃ n, t = { w with trace := persisted w.mint w.trace, asked := n }
    | .err _ => False
    | .panic => t = w := by
  unfold Ends
  simp only [run, persist]
  unfold persisted
  by_cases hs : w.mint.store = true
  · simp only [hs, ↓reduceIte]
    cases env.save w.asked with
    | ok u => exact ⟨_, rfl⟩
    | error e => rfl
  · simp only [hs]
    exact ⟨w.asked, rfl⟩

theorem bind_persist {k : Unit → MintM β}
    (hok : ∀ n, (k ()).Ends env { w with trace := persisted w.mint w.trace, asked := n } Q)
    (hpanic : Q .panic w) : (persist >>= k).Ends env w Q := by
  refine Ends.bind persist_ends ?_ ?_ ?_
  · rintro ⟨⟩ t ⟨n, rfl⟩; exact hok n
  · rintro e t ⟨⟩
  · rintro t rfl; exact hpanic

end MintM

end Micronuts
