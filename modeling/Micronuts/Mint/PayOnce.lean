import Micronuts.Mint.DoubleSpend

/-!
# Pay at most once

A payment goes out only after a snapshot was saved in which the quote is `PENDING` and its inputs are spent, and
no quote goes back to `UNPAID`. So however the process stops, the mint that comes back does not pay for the quote
again. `TraceOk` states this for every point of a trace; it needs that ids of quotes are not reused.
-/

namespace Micronuts
open Exec

abbrev MeltQuotes := Finmap fun _ : String => MeltQuoteEntry

/-- The quote has left `UNPAID`. -/
def Committed (t : MeltQuotes) (id : String) : Prop := ∃ q, t.lookup id = some q ∧ q.state ≠ .unpaid

theorem Committed.insert {t : MeltQuotes} {id k : String} {q : MeltQuoteEntry} (h : id = k ∨ Committed t id)
    (hq : q.state ≠ .unpaid) : Committed (t.insert k q) id := by
  by_cases hid : id = k
  · subst hid; exact ⟨q, Finmap.lookup_insert _, hq⟩
  · obtain ⟨q', hq', hs⟩ := h.resolve_left hid
    exact ⟨q', by rw [Finmap.lookup_insert_of_ne _ hid, hq'], hs⟩

theorem Committed.of_insert {t : MeltQuotes} {id k : String} {q : MeltQuoteEntry} (h : Committed (t.insert k q) id) :
    id = k ∨ Committed t id := by
  by_cases hid : id = k
  · exact .inl hid
  · obtain ⟨q', hq', hs⟩ := h
    rw [Finmap.lookup_insert_of_ne _ hid] at hq'
    exact .inr ⟨q', hq', hs⟩

section
variable [Crypto]

def Event.paidQuote : Event → Option String
  | .payInvoice request _ _ => some request.quote
  | .saved _ | .quoteWritten .. => none

/-- The quotes for which the backend was asked to pay. -/
def paidQuotes (tr : List Event) : List String := tr.filterMap Event.paidQuote

/-- The snapshot holds the claim that the payment rests on. -/
structure DurableClaim (ks : DemoKeyset) (request : MeltRequest) (invoice : String) (amount : UInt64)
    (snap : MintStateSnapshot) : Prop where
  spent : ∀ p ∈ request.inputs, ∃ y, proofYHex p.secret = .ok y ∧ y ∈ snap.spentYs
  pending : ∃ q, snap.meltQuotes.lookup request.quote = some q ∧ q.state = .pending ∧ q.amount = amount ∧
    q.request = invoice ∧ ∃ fee, ks.inputFeeTotal request.inputs = .ok fee ∧
      q.amount.toNat + q.feeReserve.toNat + fee.toNat ≤ proofsValue request.inputs
  verified : ∀ p ∈ request.inputs, Genuine ks p

/-- What holds of an event after the older events `tr`, for a mint with or without a store. -/
def EventOk (ks : DemoKeyset) (store : Bool) : Event → List Event → Prop
  | .saved snap, tr => ∀ id ∈ paidQuotes tr, Committed snap.meltQuotes id
  | .payInvoice request invoice amount, tr => request.quote ∉ paidQuotes tr ∧
      (store = true → ∃ snap, lastSaved tr = some snap ∧ DurableClaim ks request invoice amount snap)
  | .quoteWritten .., _ => True

def TraceOk (ks : DemoKeyset) (store : Bool) : List Event → Prop
  | [] => True
  | e :: tr => EventOk ks store e tr ∧ TraceOk ks store tr

namespace TraceOk
variable {ks : DemoKeyset} {store : Bool} {tr cut : List Event}

theorem of_suffix (h : TraceOk ks store tr) (hcut : cut <:+ tr) : TraceOk ks store cut := by
  induction tr with
  | nil => rw [List.suffix_nil.1 hcut]; trivial
  | cons e tr ih =>
    rcases List.suffix_cons_iff.1 hcut with rfl | hcut
    · exact h
    · exact ih h.2 hcut

/-- The last saved snapshot knows every payment that was made. -/
theorem committed_lastSaved (h : TraceOk ks true tr) {snap : MintStateSnapshot} (hlast : lastSaved tr = some snap) :
    ∀ id ∈ paidQuotes tr, Committed snap.meltQuotes id := by
  induction tr with
  | nil => intro id hid; simp [paidQuotes] at hid
  | cons e tr ih =>
    obtain ⟨he, htr⟩ := h
    cases e with
    | saved s => cases hlast; exact he
    | quoteWritten id old new => exact ih htr hlast
    | payInvoice request invoice amount =>
      have hlast : lastSaved tr = some snap := hlast
      intro id hid
      rcases List.mem_cons.1 (show id ∈ request.quote :: paidQuotes tr from hid) with rfl | hid
      · obtain ⟨snap', hlast', hclaim⟩ := he.2 rfl
        rw [hlast] at hlast'; cases hlast'
        obtain ⟨q, hq, hpending, -⟩ := hclaim.pending
        exact ⟨q, hq, by rw [hpending]; decide⟩
      · exact ih htr hlast id hid

theorem paid_nodup (h : TraceOk ks store tr) : (paidQuotes tr).Nodup := by
  induction tr with
  | nil => exact List.nodup_nil
  | cons e tr ih =>
    obtain ⟨he, htr⟩ := h
    cases e with
    | saved s => exact ih htr
    | quoteWritten id old new => exact ih htr
    | payInvoice request invoice amount => exact List.nodup_cons.2 ⟨he.1, ih htr⟩

end TraceOk

/-- A trace in order, and a mint that knows every payment in it. -/
structure PaidOk (m : DemoMint) (tr : List Event) : Prop where
  trace : TraceOk m.keyset m.store tr
  committed : ∀ id ∈ paidQuotes tr, Committed m.meltQuotes id

namespace PaidOk
variable {m m' : DemoMint} {tr tr' : List Event}

theorem persist (h : PaidOk m tr) : PaidOk m (persisted m tr) := by
  unfold persisted
  split
  · exact ⟨⟨h.committed, h.trace⟩, h.committed⟩
  · exact h

theorem written (h : PaidOk m tr) (id : String) (old new : MintQuoteEntry) : PaidOk m (.quoteWritten id old new :: tr) :=
  ⟨⟨trivial, h.trace⟩, h.committed⟩

/-- The other tables do not matter. -/
theorem congr (h : PaidOk m tr) (hks : m'.keyset = m.keyset) (hst : m'.store = m.store)
    (hmelt : ∀ id ∈ paidQuotes tr, Committed m'.meltQuotes id) : PaidOk m' tr :=
  ⟨by rw [hks, hst]; exact h.trace, hmelt⟩

theorem settles (h : PaidOk m tr) (hs : Settles m tr m' tr') : PaidOk m' tr' := by
  induction hs with
  | refl => exact h
  | @settle m₁ tr₁ id e u before found unpaid later ih =>
    have hwritten : PaidOk (m₁.putMintQuote id (e.settle u)) (.quoteWritten id e (e.settle u) :: tr₁) :=
      (ih.written _ _ _).congr rfl rfl ih.committed
    exact hwritten.persist

theorem issues {entries : List LoadedQuote} (h : PaidOk m tr) (hi : Issues m tr entries m' tr') : PaidOk m' tr' := by
  induction hi with
  | nil => exact h
  | cons found later rest ih => exact ih ((h.written _ _ _).congr rfl rfl h.committed)

theorem record (h : PaidOk m tr) (outputs : List BlindedMessage) (sigs : List BlindSignature) :
    PaidOk (m.record outputs sigs) tr :=
  h.congr (by rw [DemoMint.record_keyset]) (by rw [DemoMint.record_store])
    (by rw [DemoMint.record_meltQuotes]; exact h.committed)

end PaidOk

theorem paidQuotes_persisted (m : DemoMint) (tr : List Event) : paidQuotes (persisted m tr) = paidQuotes tr := by
  unfold persisted
  split <;> rfl

/-- The claim of a melt makes the payment good. -/
theorem PaidOk.paying {w : World} {request : MeltRequest} {q : MeltQuoteEntry} {plan : MeltPlan} {ys : List String}
    (h : PaidOk w.mint w.trace) (passed : MeltPassed w.mint request q plan)
    (claims : Claims w.mint request.inputs ys) : PaidOk (w.mint.meltPending request.quote q ys)
      (.payInvoice request plan.invoice plan.amount :: persisted (w.mint.meltPending request.quote q ys) w.trace) := by
  have hpending : ∀ id, id = request.quote ∨ id ∈ paidQuotes w.trace →
      Committed (w.mint.meltPending request.quote q ys).meltQuotes id :=
    fun id hid => Committed.insert (hid.imp_right (h.committed id)) fun hs => by cases hs
  have hclaimed : PaidOk (w.mint.meltPending request.quote q ys) w.trace :=
    h.congr rfl rfl fun id hid => hpending id (.inr hid)
  have hnot : request.quote ∉ paidQuotes w.trace := by
    intro hid
    obtain ⟨q', hq', hs⟩ := h.committed _ hid
    rw [passed.found] at hq'; cases hq'
    exact hs passed.unpaid
  have hclaim : DurableClaim w.mint.keyset request plan.invoice plan.amount
      (w.mint.meltPending request.quote q ys).snapshot := by
    refine ⟨fun p hp => claims.spent hp, ?_, fun p hp => (DemoMint.verifyProof_ok (passed.verified p hp)).1⟩
    obtain ⟨fee, hfee, hcovers⟩ := passed.covers
    exact ⟨{ q with state := .pending }, Finmap.lookup_insert _, rfl, passed.amount.symm, passed.invoice.symm, fee, hfee,
      by dsimp only; omega⟩
  have hsaved := hclaimed.persist
  refine ⟨⟨⟨?_, fun hstore => ⟨_, lastSaved_persisted hstore w.trace, hclaim⟩⟩, hsaved.trace⟩, fun id hid => ?_⟩
  · rw [paidQuotes_persisted]; exact hnot
  · rcases List.mem_cons.1 (show id ∈ request.quote :: paidQuotes (persisted _ w.trace) from hid) with hid | hid
    · exact hpending id (.inl hid)
    · rw [paidQuotes_persisted] at hid
      exact hpending id (.inr hid)

/-- The quote that was pending may get another state. -/
theorem PaidOk.decided {m m' : DemoMint} {tr : List Event} {id : String} {q : MeltQuoteEntry} {ys : List String}
    (h : PaidOk (m.meltPending id q ys) tr) (hks : m'.keyset = m.keyset) (hst : m'.store = m.store) {state : MeltQuoteState}
    (hmelt : m'.meltQuotes = m.meltQuotes.insert id { q with state }) (hs : state ≠ .unpaid) : PaidOk m' tr := by
  refine h.congr hks hst fun id' hid' => ?_
  rw [hmelt]
  exact Committed.insert (h.committed id' hid').of_insert hs

/-- Every call keeps the trace in order. -/
theorem CallEnds.paidOk {a : Act} {w : World} {out : Outcome CashuError Response} {m : DemoMint} {tr : List Event}
    (h : CallEnds a.env w a.call out m tr) (hfresh : ∀ id, drawn a = some id → id ∉ w.mint.meltQuotes.keys)
    (hI : PaidOk w.mint w.trace) : PaidOk m tr := by
  have hst : m.store = w.mint.store := h.config.2
  obtain ⟨call, env, ending⟩ := a
  dsimp only at h
  cases h with
  | refused settled => exact hI.settles settled
  | looked looks settled => exact hI.settles settled
  | restored request => exact hI
  | @mintQuoteCreated request invoice expiry now positive e new m mint_eq =>
    subst mint_eq
    have hput : PaidOk (w.mint.putMintQuote env.nowV7 e) w.trace := hI.congr rfl rfl hI.committed
    exact hput.persist
  | @meltQuoteCreated request q unpaid m mint_eq =>
    subst mint_eq
    have hput : PaidOk (w.mint.putMeltQuote env.nowV7 q) w.trace := by
      refine hI.congr rfl rfl fun id hid => ?_
      obtain ⟨q', hq', hs⟩ := hI.committed id hid
      have hne : id ≠ env.nowV7 := by
        rintro rfl
        exact hfresh _ rfl (Finmap.mem_keys.2 (Finmap.mem_of_lookup_eq_some hq'))
      exact ⟨q', by rw [DemoMint.putMeltQuote_meltQuotes, Finmap.lookup_insert_of_ne _ hne, hq'], hs⟩
    exact hput.persist
  | @minted request m' tr' e sum issued u sigs settled passed signed later issued_eq m mint_eq =>
    subst mint_eq
    have hrecorded := ((hI.settles settled).written request.quote e (e.mint issued u)).record request.outputs sigs
    have hput : PaidOk ((m'.record request.outputs sigs).putMintQuote request.quote (e.mint issued u))
        (.quoteWritten request.quote e (e.mint issued u) :: tr') := hrecorded.congr rfl rfl hrecorded.committed
    exact hput.persist
  | mintStopped request checks settled stops signed => exact (hI.settles settled).record _ _
  | batchMinted request checks settled passed signed issues =>
    exact (((hI.settles settled).record _ _).issues issues).persist
  | batchStopped request checks settled stops signed => exact (hI.settles settled).record _ _
  | @swapped request ys sigs m passed claims signed mint_eq =>
    subst mint_eq
    have hspent : PaidOk (w.mint.spend ys) w.trace := hI.congr rfl rfl hI.committed
    exact (hspent.record _ _).persist
  | @swapStopped request err w₁ ys done sigs claimed passed claims mint_eq stops signed =>
    have hspent : PaidOk (w.mint.spend ys) w.trace := hI.congr rfl rfl hI.committed
    rw [mint_eq]
    exact hspent.record _ _
  | @meltPaid request plan w₁ q ys preimage change m claimed passed claims answer signed mint_eq =>
    have hks : m.keyset = w.mint.keyset := by rw [mint_eq]; simp
    have hmelt : m.meltQuotes = w.mint.meltQuotes.insert request.quote { q with state := .paid } := by
      rw [mint_eq, DemoMint.putMeltQuote_meltQuotes, DemoMint.record_meltQuotes]; rfl
    exact ((hI.paying passed claims).decided hks hst hmelt fun hs => by cases hs).persist
  | @meltFailed request plan w₁ q ys err m claimed passed claims answer mint_eq =>
    have hks : m.keyset = w.mint.keyset := by rw [mint_eq]; rfl
    have hmelt : m.meltQuotes = w.mint.meltQuotes.insert request.quote { q with state := .failed } := by
      rw [mint_eq, DemoMint.putMeltQuote_meltQuotes]
    exact ((hI.paying passed claims).decided hks hst hmelt fun hs => by cases hs).persist
  | meltStopped request claimed passed claims answer notTotal mint_eq =>
    subst mint_eq
    exact (hI.paying passed claims).record _ _

/-! ### Runs with restarts -/

/-- The trace is in order, and the melt quotes, also the saved ones, have ids that were drawn. -/
structure PayInv (h : History) (w : World) : Prop where
  paid : PaidOk w.mint w.trace
  ids : ∀ id ∈ w.mint.meltQuotes.keys, id ∈ h.drawn
  saved : ∀ snap, lastSaved w.trace = some snap → w.mint.store = true ∧ ∀ id ∈ snap.meltQuotes.keys, id ∈ h.drawn

theorem drawn_append (h : History) (e : Step World Act) :
    History.drawn (h ++ [e]) = h.drawn ++ (drawn e.act).toList := by
  cases hd : drawn e.act <;> simp [History.drawn, hd]

/-- An id that a melt quote has after the call is drawn now or was drawn before. -/
theorem MeltQuotesAfter.drawn {h : History} {w : World} {t : MeltQuotes} (e : Step World Act)
    (ht : MeltQuotesAfter e.act.env w e.act.call t) (hids : ∀ id ∈ w.mint.meltQuotes.keys, id ∈ h.drawn) :
    ∀ id ∈ t.keys, id ∈ History.drawn (h ++ [e]) := by
  intro id hid
  rw [drawn_append]
  rcases ht.keys hid with hid | hid
  · exact List.mem_append_left _ (hids id hid)
  · exact List.mem_append_right _ (by rw [hid]; simp)

namespace PayInv
variable {h : History} {w w' : World} {a : Act}

theorem fresh (hI : PayInv h w) (huuid : UuidsDistinct (h ++ [⟨w, a, w'⟩])) :
    ∀ id, drawn a = some id → id ∉ w.mint.meltQuotes.keys := by
  intro id hdraw hid
  rw [UuidsDistinct, drawn_append, hdraw, List.nodup_append] at huuid
  exact huuid.2.2 id (hI.ids id hid) id (by simp) rfl

/-- Whatever a call has last saved at some point, its melt quotes have drawn ids. -/
theorem saved_cut {out : Outcome CashuError Response} {m : DemoMint} {tr cut : List Event} {snap : MintStateSnapshot}
    (hI : PayInv h w) (hends : CallEnds a.env w.begin a.call out m tr) (hlow : w.trace <:+ cut) (hcut : cut <:+ tr)
    (hlast : lastSaved cut = some snap) (w' : World) :
    w.mint.store = true ∧ ∀ id ∈ snap.meltQuotes.keys, id ∈ History.drawn (h ++ [⟨w, a, w'⟩]) := by
  rcases hends.lastSaved_cut hlow hcut hlast with hby | hold
  · exact ⟨hby.store, hby.meltQuotes.drawn ⟨w, a, w'⟩ hI.ids⟩
  · obtain ⟨hstore, hids⟩ := hI.saved snap hold
    refine ⟨hstore, fun id hid => ?_⟩
    rw [drawn_append]
    exact List.mem_append_left _ (hids id hid)

theorem callStep (hI : PayInv h w) (huuid : UuidsDistinct (h ++ [⟨w, a, w'⟩])) (hstep : CallStep w a w') :
    PayInv (h ++ [⟨w, a, w'⟩]) w' := by
  obtain ⟨out, -, hends⟩ := hstep.exists_ends
  refine ⟨hends.paidOk (w := w.begin) (hI.fresh huuid) hI.paid, hends.meltQuotes.drawn ⟨w, a, w'⟩ hI.ids,
    fun snap hlast => ?_⟩
  obtain ⟨hstore, hids⟩ := hI.saved_cut hends hends.grows.suffix (List.suffix_refl _) hlast w'
  exact ⟨hends.config.2.trans hstore, hids⟩

theorem crashStep (hI : PayInv h w) (huuid : UuidsDistinct (h ++ [⟨w, a, w'⟩])) (hstep : CrashStep w a w') :
    PayInv (h ++ [⟨w, a, w'⟩]) w' := by
  obtain ⟨out, m, tr, snap, hends, hlow, hcut, hlast, hrestore⟩ := hstep.exists_ends
  obtain ⟨hks, hst, -, hmelt, -⟩ := DemoMint.restore_eq_some hrestore
  obtain ⟨hstore, hids⟩ := hI.saved_cut hends hlow hcut hlast w'
  have hpaid : PaidOk m tr := hends.paidOk (w := w.begin) (hI.fresh huuid) hI.paid
  have htrace : TraceOk w.mint.keyset true w'.trace := by
    have htr := hpaid.trace.of_suffix hcut
    rwa [hends.config.1, hends.config.2, show w.begin.mint.store = true from hstore] at htr
  refine ⟨⟨by rw [hks, hst, hstore]; exact htrace, ?_⟩, by rw [hmelt]; exact hids, fun snap' hlast' => ?_⟩
  · rw [hmelt]; exact htrace.committed_lastSaved hlast
  · rw [hlast] at hlast'; cases hlast'
    exact ⟨hst.trans hstore, hids⟩

end PayInv

theorem config_of_durable_run {w₀ w : World} {h : History} (hrun : Run DurableStep w₀ h w) :
    w.mint.keyset = w₀.mint.keyset ∧ w.mint.store = w₀.mint.store := by
  induction hrun with
  | nil => exact ⟨rfl, rfl⟩
  | snoc _ hstep ih =>
    rcases hstep with hcall | hcrash
    · obtain ⟨out, -, hends⟩ := hcall.exists_ends
      exact ⟨hends.config.1.trans ih.1, hends.config.2.trans ih.2⟩
    · obtain ⟨out, m, tr, snap, -, -, -, -, hrestore⟩ := hcrash.exists_ends
      obtain ⟨hks, hst, -⟩ := DemoMint.restore_eq_some hrestore
      exact ⟨hks.trans ih.1, hst.trans ih.2⟩

theorem payInv_of_run {ks : DemoKeyset} {store : Bool} {h : History} {w : World}
    (hrun : Run DurableStep (World.init ks store) h w) (huuid : UuidsDistinct h) : PayInv h w := by
  refine Run.invariant (P := UuidsDistinct) (Run.PrefixClosed.nodup_filterMap _) ?_ ?_ hrun huuid
  · have hempty : PaidOk (DemoMint.fresh ks store) [] := ⟨trivial, by simp [paidQuotes]⟩
    refine ⟨hempty.persist, by simp [World.init, World.boot, DemoMint.fresh], fun snap hlast => ?_⟩
    cases store with
    | false => cases hlast
    | true =>
      cases hlast
      exact ⟨rfl, by simp [DemoMint.snapshot, DemoMint.fresh]⟩
  · rintro h w a w' - huuid hI (hcall | hcrash)
    · exact hI.callStep huuid hcall
    · exact hI.crashStep huuid hcrash

/-- What a step asks the backend to pay is covered by the inputs. -/
theorem DurableStep.covered {w w' : World} {a : Act} (hstep : DurableStep w a w') {newer : List Event}
    (hnew : w'.trace = newer ++ w.trace) {request : MeltRequest} {invoice : String} {amount : UInt64}
    (hpay : .payInvoice request invoice amount ∈ newer) : PaymentCovered w.mint request invoice amount := by
  have hgrows : Grows (EventBy a.env w.begin a.call) w.trace w'.trace := by
    rcases hstep with hcall | hcrash
    · obtain ⟨out, -, hends⟩ := hcall.exists_ends
      exact hends.grows
    · obtain ⟨out, m, tr, snap, hends, hlow, hcut, -⟩ := hcrash.exists_ends
      exact hends.grows.cut hlow hcut
  rw [hnew] at hgrows
  exact (hgrows.new _ hpay).2

/-- The backend is asked to pay once for a quote, each time on inputs that cover it, and with a store each time on a
claim that the store has. -/
structure PaysOnce (ks : DemoKeyset) (store : Bool) (h : History) (tr : List Event) : Prop where
  once : (paidQuotes tr).Nodup
  claimed : store = true → ∀ newer older request invoice amount,
    tr = newer ++ .payInvoice request invoice amount :: older →
      ∃ snap, lastSaved older = some snap ∧ DurableClaim ks request invoice amount snap
  covered : ∀ e ∈ h, ∀ newer, e.post.trace = newer ++ e.pre.trace → ∀ request invoice amount,
    .payInvoice request invoice amount ∈ newer → PaymentCovered e.pre.mint request invoice amount

theorem pays_once {ks : DemoKeyset} {store : Bool} {h : History} {w : World}
    (hrun : Run DurableStep (World.init ks store) h w) (huuid : UuidsDistinct h) : PaysOnce ks store h w.trace := by
  have htrace := (payInv_of_run hrun huuid).paid.trace
  obtain ⟨hks, hst⟩ := config_of_durable_run hrun
  rw [hks, hst] at htrace
  refine ⟨htrace.paid_nodup, fun hstore newer older request invoice amount heq => ?_, fun e he newer hnew _ _ _ hpay => ?_⟩
  · have hsuffix : .payInvoice request invoice amount :: older <:+ w.trace := ⟨newer, heq.symm⟩
    obtain ⟨⟨-, hclaim⟩, -⟩ := htrace.of_suffix hsuffix
    exact hclaim hstore
  · exact (hrun.step_of_mem he).covered hnew hpay

end

section toy
open Toy

/-- A quote that is paid, the same quote once more, and a quote whose payment fails. -/
def payingCalls : List (Call × Env) :=
  [(.postMeltQuote ⟨"lnbc2", "sat", none⟩, env), (.postMelt ⟨"0190-q1", [coin 2 "two"], none⟩, env),
   (.postMelt ⟨"0190-q1", [coin 4 "four"], none⟩, env),
   (.postMeltQuote ⟨"lnbc3", "sat", none⟩, { env with nowV7 := "0190-q2" }),
   (.postMelt ⟨"0190-q2", [coin 4 "four"], none⟩, { env with payInvoice := fun _ _ => .error .paymentFailed })]

theorem pays_once_toy : PaysOnce keyset true (replay (World.init keyset true) payingCalls).1
    (replay (World.init keyset true) payingCalls).2.trace :=
  pays_once ((run_replay (by decide +kernel)).mono fun _ _ _ => .inl) (by decide +kernel)

example : paidQuotes (replay (World.init keyset true) payingCalls).2.trace = ["0190-q2", "0190-q1"] := by
  decide +kernel

end toy

end Micronuts
