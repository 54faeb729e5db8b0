import Micronuts.Lib.Upholds
import Micronuts.Mint.MeltChange

/-!
# What a signature of the mint is

Every signature in the restore index is that of the key of its amount on the blinded message it is filed under, with a DLEQ
proof for the same key (`GenuineOn`). Signing is the one place where the index changes; a snapshot and the restart from it
keep its rows. So whatever the mint answers, at once or from a restored index, it has signed with the key that the answer
names (`answers_genuine`).
-/

namespace Micronuts
open MintM Exec

section
variable [Crypto]

/-- The key of the amount signed `b`, and proved it. -/
structure GenuineOn (ks : DemoKeyset) (b : PublicKey) (sig : BlindSignature) : Prop where
  id_eq : sig.id = ks.id
  signed : ∃ sk nonce d, ks.getSecretKey sig.amount = some sk ∧ Crypto.signMessage sk b = some sig.c ∧
    Crypto.proveDleq nonce sk b sig.c = some d ∧ sig.dleq = some ⟨d.1, d.2⟩

/-- The signature of the output's own amount. -/
def GenuineFor (ks : DemoKeyset) (o : BlindedMessage) (sig : BlindSignature) : Prop :=
  sig.amount = o.amount ∧ GenuineOn ks o.b sig

def GenuineRow (ks : DemoKeyset) (row : String) (sig : BlindSignature) : Prop := ∃ b, pointHex b = row ∧ GenuineOn ks b sig

/-- The rows of the index, and those of every snapshot in the store. -/
structure SignsTruly (ks : DemoKeyset) (w : World) : Prop where
  keyset : w.mint.keyset = ks
  index : ∀ row sig, w.mint.issuedOutputs.lookup row = some sig → GenuineRow ks row sig
  saved : ∀ snap, .saved snap ∈ w.trace → ∀ row s, snap.issuedOutputs.lookup row = some s →
    ∃ sig, s = signatureSnap sig ∧ GenuineRow ks row sig

variable {ks : DemoKeyset}

theorem GenuineRow.genuineOn {b : PublicKey} {sig : BlindSignature} (h : GenuineRow ks (pointHex b) sig) :
    GenuineOn ks b sig := by
  obtain ⟨b', hb, hgenuine⟩ := h
  rwa [← pointHex_injective hb]

namespace SignsTruly
variable {w w' : World}

theorem of_eq (h : SignsTruly ks w) (hks : w'.mint.keyset = w.mint.keyset)
    (hindex : w'.mint.issuedOutputs = w.mint.issuedOutputs) (htrace : w'.trace = w.trace) : SignsTruly ks w' where
  keyset := hks.trans h.keyset
  index := by rw [hindex]; exact h.index
  saved := by rw [htrace]; exact h.saved

theorem init (ks : DemoKeyset) (store : Bool) : SignsTruly ks (World.init ks store) := by
  refine ⟨rfl, fun row sig h => by simp [World.init, World.boot, DemoMint.fresh] at h, fun snap hsnap row s hs => ?_⟩
  cases store with
  | false => simp [World.init, World.boot, DemoMint.fresh, persisted] at hsnap
  | true =>
    simp only [World.init, World.boot, DemoMint.fresh, persisted, ↓reduceIte, List.mem_singleton, Event.saved.injEq] at hsnap
    subst hsnap
    simp [DemoMint.snapshot] at hs

/-- Asking, also of the backend, writes no snapshot. -/
theorem unsaved (h : SignsTruly ks w) {e : Event} (he : ∀ snap, e ≠ .saved snap) :
    SignsTruly ks { w with trace := e :: w.trace } where
  keyset := h.keyset
  index := h.index
  saved := by
    intro snap hsnap
    rcases List.mem_cons.1 hsnap with heq | hsnap
    · exact absurd heq.symm (he snap)
    · exact h.saved snap hsnap

theorem save (h : SignsTruly ks w) (n : Nat) :
    SignsTruly ks { w with trace := .saved w.mint.snapshot :: w.trace, asked := n } where
  keyset := h.keyset
  index := h.index
  saved := by
    intro snap hsnap row s hs
    rcases List.mem_cons.1 hsnap with heq | hsnap
    · cases heq
      rw [DemoMint.snapshot, Finmap.lookup_mapRows, Option.map_eq_some_iff] at hs
      obtain ⟨sig, hsig, rfl⟩ := hs
      exact ⟨sig, rfl, h.index row sig hsig⟩
    · exact h.saved snap hsnap row s hs

theorem record (h : SignsTruly ks w) {o : BlindedMessage} {sig : BlindSignature} (hsig : GenuineOn ks o.b sig) :
    SignsTruly ks { w with mint := w.mint.recordIssued o sig } where
  keyset := h.keyset
  index := by
    intro row sig' hrow
    rw [DemoMint.recordIssued_issuedOutputs, Finmap.lookup_insert_eq] at hrow
    split at hrow
    · next heq =>
      cases hrow
      exact ⟨o.b, heq.symm, hsig⟩
    · exact h.index row sig' hrow
  saved := h.saved

/-- A restart reads the rows back as they were signed. -/
theorem restore (h : SignsTruly ks w) {snap : MintStateSnapshot} {m m' : DemoMint} (hsnap : .saved snap ∈ w.trace)
    (hrestore : m.restore snap = some m') (row : String) (sig : BlindSignature)
    (hrow : m'.issuedOutputs.lookup row = some sig) : GenuineRow ks row sig := by
  unfold DemoMint.restore at hrestore
  dsimp only at hrestore
  split at hrestore
  · cases hrestore
    rw [Finmap.lookup_filterMapRows] at hrow
    obtain ⟨s, hs, hsig⟩ := Option.bind_eq_some_iff.1 hrow
    obtain ⟨sig', rfl, hgenuine⟩ := h.saved snap hsnap row s hs
    rw [signatureOfSnap_signatureSnap] at hsig
    cases hsig
    exact hgenuine
  · cases hrestore

end SignsTruly

/-! ### The statements of a method -/

section statements
variable {α : Type}

theorem upholds_ask {f : Env → Nat → Except CashuError α} : Upholds (SignsTruly ks) (ask f) fun _ => True := by
  intro env w hw
  unfold Ends
  simp only [run, ask]
  cases f env w.asked with
  | ok a => exact ⟨hw.of_eq rfl rfl rfl, fun _ _ => trivial⟩
  | error e => exact ⟨hw.of_eq rfl rfl rfl, fun _ _ => trivial⟩

theorem upholds_modifyMint {f : DemoMint → DemoMint} (hks : ∀ m, (f m).keyset = m.keyset)
    (hindex : ∀ m, (f m).issuedOutputs = m.issuedOutputs) : Upholds (SignsTruly ks) (modifyMint f) fun _ => True :=
  .modify fun _ hw => hw.of_eq (hks _) (hindex _) rfl

theorem upholds_persist : Upholds (SignsTruly ks) persist fun _ => True := by
  intro env w hw
  unfold Ends
  simp only [run, persist]
  split
  · cases env.save w.asked with
    | ok u => exact ⟨hw.save _, fun _ _ => trivial⟩
    | error e => exact ⟨hw, fun _ _ => trivial⟩
  · exact ⟨hw, fun _ _ => trivial⟩

theorem upholds_payInvoice {request : MeltRequest} {invoice : String} {amount : UInt64} :
    Upholds (SignsTruly ks) (payInvoice request invoice amount) fun _ => True := by
  intro env w hw
  exact ⟨hw.unsaved (by simp), fun _ _ => trivial⟩

theorem upholds_nextUpdatedAt {now updatedAt : UInt64} :
    Upholds (SignsTruly ks) (nextUpdatedAt now updatedAt) fun _ => True := by
  intro env w hw
  unfold Ends
  simp only [run, nextUpdatedAt]
  split <;> exact ⟨hw, fun _ _ => trivial⟩

theorem upholds_writeMintQuote {id : String} {old new : MintQuoteEntry} :
    Upholds (SignsTruly ks) (writeMintQuote id old new) fun _ => True :=
  .modify fun w hw => @SignsTruly.of_eq _ _ _ { w with mint := w.mint.putMintQuote id new, trace := _ }
    (hw.unsaved (by simp)) rfl rfl rfl

theorem upholds_setMeltState {quoteId : String} {state : MeltQuoteState} :
    Upholds (SignsTruly ks) (setMeltState quoteId state) fun _ => True :=
  .bind .get fun _ _ => .bind .okOr fun _ _ => upholds_modifyMint (fun _ => rfl) fun _ => rfl

theorem upholds_claimProofs {proofs : List Proof} : Upholds (SignsTruly ks) (claimProofs proofs) fun _ => True :=
  .bind .lift fun _ _ => .bind .get fun _ _ => .bind .failIf fun _ _ =>
    upholds_modifyMint (fun _ => rfl) fun _ => rfl

theorem upholds_refreshMintQuoteState {quoteId : String} :
    Upholds (SignsTruly ks) (refreshMintQuoteState quoteId) fun _ => True := by
  refine .bind .get fun w _ => .bind .okOr fun entry _ => ?_
  split
  · exact .pure trivial
  · refine .bind upholds_ask fun now _ => ?_
    split
    · exact .pure trivial
    · refine .bind upholds_ask fun settled _ => ?_
      split
      · exact .bind upholds_ask fun _ _ => .bind upholds_nextUpdatedAt fun _ _ =>
          .bind upholds_writeMintQuote fun _ _ => upholds_persist
      · exact .pure trivial

end statements

/-! ### Signing -/

theorem upholds_signOutput {o : BlindedMessage} : Upholds (SignsTruly ks) (signOutput o) fun sig => GenuineFor ks o sig := by
  refine .bind .get fun w hw => .bind .okOr fun sk hsk => .bind .okOr fun c hc => ?_
  refine .bind .failIf fun _ _ => .bind upholds_ask fun nonce _ => .bind .okOr fun d hd => .pure ?_
  rw [hw.keyset] at hsk ⊢
  exact ⟨rfl, rfl, sk, nonce, d, hsk, hc, hd, rfl⟩

theorem upholds_signOutputs (outputs : List BlindedMessage) :
    Upholds (SignsTruly ks) (signOutputs outputs) fun sigs => List.Forall₂ (GenuineFor ks) outputs sigs := by
  induction outputs with
  | nil => exact .pure .nil
  | cons o outputs ih =>
    refine .bind upholds_signOutput fun sig hsig => ?_
    have hrecord : Upholds (SignsTruly ks) (modifyMint fun m => m.recordIssued o sig) fun _ => True :=
      .modify fun w hw => hw.record hsig.2
    exact .bind hrecord fun _ _ => .bind ih fun sigs hsigs => .pure (.cons hsig hsigs)

/-! ### The methods -/

section methods

theorem upholds_getMintQuote {quoteId : String} : Upholds (SignsTruly ks) (getMintQuote quoteId) fun _ => True :=
  .bind upholds_refreshMintQuoteState fun _ _ => .bind .get fun _ _ => .bind .okOr fun _ _ => .pure trivial

theorem upholds_getMintQuotes {quotes : List String} : Upholds (SignsTruly ks) (getMintQuotes quotes) fun _ => True := by
  induction quotes with
  | nil => exact .pure trivial
  | cons quoteId quotes ih => exact .bind upholds_getMintQuote fun _ _ => .bind ih fun _ _ => .pure trivial

theorem upholds_quoteExpiry : Upholds (SignsTruly ks) quoteExpiry fun _ => True :=
  .bind upholds_ask fun _ _ => Upholds.okOr.mono fun _ _ => trivial

theorem upholds_postMintQuote {request : MintQuoteRequest} :
    Upholds (SignsTruly ks) (postMintQuote request) fun _ => True :=
  .bind .failIf fun _ _ => .bind upholds_ask fun _ _ => .bind upholds_ask fun _ _ => .bind upholds_quoteExpiry fun _ _ =>
    .bind upholds_ask fun _ _ => .bind (upholds_modifyMint (fun _ => rfl) fun _ => rfl) fun _ _ =>
      .bind upholds_persist fun _ _ => .pure trivial

theorem upholds_postMeltQuote {request : MeltQuoteRequest} :
    Upholds (SignsTruly ks) (postMeltQuote request) fun _ => True :=
  .bind upholds_ask fun _ _ => .bind upholds_ask fun _ _ => .bind upholds_quoteExpiry fun _ _ =>
    .bind (upholds_modifyMint (fun _ => rfl) fun _ => rfl) fun _ _ => .bind upholds_persist fun _ _ => .pure trivial

theorem upholds_postMint {request : MintRequest} : Upholds (SignsTruly ks) (postMint request) fun r =>
    List.Forall₂ (GenuineFor ks) request.outputs r.signatures := by
  have hchecks : Upholds (SignsTruly ks) (postMintChecks request) fun _ => True := by
    refine .bind upholds_refreshMintQuoteState fun _ _ => .bind .get fun w _ => .bind .okOr fun entry _ => ?_
    exact .bind .failIf fun _ _ => .bind .lift fun _ _ => .bind .okOr fun _ _ => .bind .okOr fun _ _ =>
      .bind .failIf fun _ _ => .pure trivial
  refine .bind hchecks fun _ _ => .bind (upholds_signOutputs _) fun sigs hsigs => .bind upholds_ask fun _ _ => ?_
  exact .bind .get fun _ _ => .bind .okOr fun _ _ => .bind .okOr fun _ _ => .bind upholds_nextUpdatedAt fun _ _ =>
    .bind upholds_writeMintQuote fun _ _ => .bind upholds_persist fun _ _ => .pure hsigs

theorem upholds_loadQuotes {amounts : Option (List UInt64)} {i : Nat} {quotes : List String} {total : UInt64} :
    Upholds (SignsTruly ks) (loadQuotes amounts i quotes total) fun _ => True := by
  induction quotes generalizing i total with
  | nil => exact .pure trivial
  | cons quoteId quotes ih =>
    have hload : Upholds (SignsTruly ks) (loadQuote amounts i quoteId) fun _ => True :=
      .bind upholds_refreshMintQuoteState fun _ _ => .bind .get fun _ _ => .bind .okOr fun _ _ =>
        .bind .failIf fun _ _ => .bind .failIf fun _ _ => .bind .failIf fun _ _ => .pure trivial
    exact .bind hload fun _ _ => .bind .okOr fun _ _ => .bind ih fun _ _ => .pure trivial

theorem upholds_issueQuotes {now : UInt64} {entries : List LoadedQuote} :
    Upholds (SignsTruly ks) (issueQuotes now entries) fun _ => True := by
  induction entries with
  | nil => exact .pure trivial
  | cons loaded entries ih =>
    exact .bind .get fun _ _ => .bind .okOr fun _ _ => .bind upholds_nextUpdatedAt fun _ _ =>
      .bind upholds_writeMintQuote fun _ _ => ih

theorem upholds_batchMint {request : BatchMintRequest} : Upholds (SignsTruly ks) (batchMint request) fun r =>
    List.Forall₂ (GenuineFor ks) request.outputs r.signatures := by
  have hchecks : Upholds (SignsTruly ks) (batchMintChecks request) fun _ => True := by
    refine .bind .failIf fun _ _ => .bind .failIf fun _ _ => .bind .failIf fun _ _ => .bind .failIf fun _ _ => ?_
    refine .bind .failIf fun _ _ => .bind upholds_loadQuotes fun _ _ => .bind .lift fun _ _ => .bind .okOr fun _ _ => ?_
    exact .bind .failIf fun _ _ => .bind .get fun _ _ => .bind .lift fun _ _ => .pure trivial
  refine .bind hchecks fun _ _ => .bind (upholds_signOutputs _) fun sigs hsigs => .bind upholds_ask fun _ _ => ?_
  exact .bind upholds_issueQuotes fun _ _ => .bind upholds_persist fun _ _ => .pure hsigs

theorem upholds_postSwap {request : SwapRequest} : Upholds (SignsTruly ks) (postSwap request) fun r =>
    List.Forall₂ (GenuineFor ks) request.outputs r.signatures := by
  have hchecks : Upholds (SignsTruly ks) (swapChecks request) fun _ => True := by
    refine .bind .get fun _ _ => .bind .lift fun _ _ => .bind upholds_ask fun _ _ => .bind .lift fun _ _ => ?_
    exact .bind .okOr fun _ _ => .bind .lift fun _ _ => .bind .okOr fun _ _ => .bind .failIf fun _ _ =>
      Upholds.lift.mono fun _ _ => trivial
  refine .bind (.bind hchecks fun _ _ => upholds_claimProofs) fun _ _ => ?_
  exact .bind (upholds_signOutputs _) fun sigs hsigs => .bind upholds_persist fun _ _ => .pure hsigs

def AllBlank (outputs : List BlindedMessage) : Prop := ∀ o ∈ outputs, o.amount = 0

theorem fillChange_allBlank {outputs : List BlindedMessage} (h : AllBlank outputs) (budget : UInt64) :
    (fillChange outputs budget).1 = outputs := by
  induction outputs with
  | nil => rfl
  | cons o outputs ih =>
    obtain ⟨h0, hrest⟩ := List.forall_mem_cons.1 h
    rw [fillChange, if_pos h0]
    exact congrArg (o :: ·) (ih hrest)

theorem assignPieces_nil (outputs : List BlindedMessage) : assignPieces outputs [] = outputs := by
  induction outputs with
  | nil => rfl
  | cons o outputs ih =>
    rw [assignPieces, ih]
    split <;> rfl

/-- Blank outputs get the pieces of the overpay one after the other. -/
theorem changeOutputs_allBlank {outputs change : List BlindedMessage} {inputSum required : UInt64}
    (h : ks.changeOutputs outputs inputSum required = .ok change) (hblank : AllBlank outputs) :
    ∃ ps : List UInt64, (∀ p ∈ ps, p ≠ 0) ∧ change = assignPieces outputs ps := by
  unfold DemoKeyset.changeOutputs at h
  obtain ⟨overpay, -, hfilled⟩ := Except.bind_eq_ok.1 h
  clear h
  have hfill := fillChange_allBlank hblank overpay
  generalize fillChange outputs overpay = fill at hfilled hfill
  obtain ⟨filled, budget, blankCount⟩ := fill
  dsimp only at hfill
  subst hfill
  obtain ⟨⟨⟩, -, hmade⟩ := Except.bind_eq_ok.1 hfilled
  split at hmade
  · obtain ⟨ps, hps, hassigned⟩ := Except.bind_eq_ok.1 hmade
    obtain ⟨-, hden⟩ := pieces_ok hps (Nat.le_refl _)
    split at hassigned
    · cases hassigned
    · cases hassigned
      refine ⟨ps, fun p hp h0 => ?_, rfl⟩
      have hpos := denominations_pos p (hden p hp)
      rw [h0] at hpos
      simp at hpos
  · cases hmade
    exact ⟨[], by simp, (assignPieces_nil change).symm⟩

/-- The outputs with a piece are the first ones. -/
theorem filter_assignPieces {outputs : List BlindedMessage} {ps : List UInt64} (hblank : AllBlank outputs)
    (hps : ∀ p ∈ ps, p ≠ 0) : (assignPieces outputs ps).filter (fun o => 0 < o.amount) =
      List.zipWith (fun o p => { o with amount := p }) outputs ps := by
  induction outputs generalizing ps with
  | nil => simp [assignPieces]
  | cons o outputs ih =>
    obtain ⟨h0, hrest⟩ := List.forall_mem_cons.1 hblank
    cases ps with
    | nil =>
      rw [assignPieces, if_pos h0, List.filter_cons_of_neg (by simp [h0]), ih hrest (by simp)]
      simp
    | cons p ps =>
      obtain ⟨hp, hps⟩ := List.forall_mem_cons.1 hps
      have hpos : 0 < p := UInt64.pos_iff_ne_zero.2 hp
      rw [assignPieces, if_pos h0, List.filter_cons_of_pos (by simpa using hpos), ih hrest hps]
      rfl

theorem genuine_of_pieces {outputs : List BlindedMessage} {ps : List UInt64} {sigs : List BlindSignature}
    (h : List.Forall₂ (GenuineFor ks) (List.zipWith (fun o p => { o with amount := p }) outputs ps) sigs) :
    List.Forall₂ (fun o s => GenuineOn ks o.b s) (outputs.take sigs.length) sigs := by
  induction outputs generalizing ps sigs with
  | nil =>
    cases h
    exact .nil
  | cons o outputs ih =>
    cases ps with
    | nil =>
      cases h
      exact .nil
    | cons p ps =>
      rcases h with - | ⟨⟨-, hgenuine⟩, hrest⟩
      exact .cons hgenuine (ih hrest)

/-- The outputs that change is signed on are some of the request's, in their order; blank ones are used in turn. -/
structure ChangeFrom (request : MeltRequest) (changeOutputs : Option (List BlindedMessage)) : Prop where
  chosen : ∃ chosen : List BlindedMessage, chosen.Sublist (request.outputs.getD []) ∧
    List.Forall₂ Imprinted chosen (changeOutputs.getD [])
  inTurn : AllBlank (request.outputs.getD []) → ∃ ps : List UInt64, (∀ p ∈ ps, p ≠ 0) ∧
    changeOutputs.getD [] = assignPieces (request.outputs.getD []) ps

theorem upholds_meltChecks {request : MeltRequest} :
    Upholds (SignsTruly ks) (meltChecks request) fun plan => ChangeFrom request plan.changeOutputs := by
  refine .bind .get fun w _ => .bind .okOr fun entry _ => .bind .lift fun _ _ => .bind .lift fun inputSum _ => ?_
  refine .bind upholds_ask fun _ _ => .bind .lift fun _ _ => .bind .lift fun fee _ => .bind .okOr fun required _ => ?_
  refine .bind .failIf fun _ _ => .bind .lift fun change hchange => .pure ?_
  rcases hout : request.outputs with - | outputs
  · rw [hout] at hchange
    cases hchange
    exact ⟨⟨[], by simp, by simp⟩, fun _ => ⟨[], by simp, by simp [hout, assignPieces]⟩⟩
  · rw [hout] at hchange
    rcases hmade : w.mint.keyset.changeOutputs outputs inputSum required with e | made
    · simp only [hmade] at hchange
      cases hchange
    · simp only [hmade] at hchange
      cases hchange
      obtain ⟨⟨chosen, hsub, himprinted⟩, -⟩ := changeOutputs_fits hmade
      refine ⟨⟨chosen, by rwa [hout], himprinted⟩, fun hblank => ?_⟩
      rw [hout] at hblank ⊢
      exact changeOutputs_allBlank hmade hblank

/-- A signature on the output's point, of the output's amount if it has one. -/
def ChangeOn (ks : DemoKeyset) (o : BlindedMessage) (sig : BlindSignature) : Prop :=
  GenuineOn ks o.b sig ∧ (o.amount ≠ 0 → sig.amount = o.amount)

theorem genuine_of_imprinted {chosen filled : List BlindedMessage} {sigs : List BlindSignature}
    (himprinted : List.Forall₂ Imprinted chosen filled)
    (hsigs : List.Forall₂ (GenuineFor ks) (filled.filter fun o => 0 < o.amount) sigs) :
    ∃ signed : List BlindedMessage, signed.Sublist chosen ∧ List.Forall₂ (ChangeOn ks) signed sigs := by
  induction himprinted generalizing sigs with
  | nil =>
    cases hsigs
    exact ⟨[], .slnil, .nil⟩
  | @cons o f chosen filled hof _ ih =>
    by_cases hpos : 0 < f.amount
    · rw [List.filter_cons_of_pos (by simpa using hpos)] at hsigs
      rcases hsigs with - | ⟨⟨hamount, hgenuine⟩, hsigs⟩
      obtain ⟨signed, hsub, hall⟩ := ih hsigs
      rw [hof.1] at hgenuine
      exact ⟨o :: signed, hsub.cons_cons o, .cons ⟨hgenuine, fun h0 => hamount.trans (hof.2 h0)⟩ hall⟩
    · rw [List.filter_cons_of_neg (by simpa using hpos)] at hsigs
      obtain ⟨signed, hsub, hall⟩ := ih hsigs
      exact ⟨signed, hsub.cons o, hall⟩

/-- The change keeps the order of the outputs; where all are blank, it is on the first ones. -/
structure ChangeTruly (ks : DemoKeyset) (outputs : List BlindedMessage) (change : List BlindSignature) : Prop where
  inOrder : ∃ signed : List BlindedMessage, signed.Sublist outputs ∧ List.Forall₂ (ChangeOn ks) signed change
  inTurn : AllBlank outputs → List.Forall₂ (fun o s => GenuineOn ks o.b s) (outputs.take change.length) change

theorem ChangeTruly.nil {outputs : List BlindedMessage} : ChangeTruly ks outputs [] :=
  ⟨⟨[], by simp, .nil⟩, fun _ => .nil⟩

theorem upholds_signChange {request : MeltRequest} {changeOutputs : Option (List BlindedMessage)}
    (hfrom : ChangeFrom request changeOutputs) : Upholds (SignsTruly ks) (signChange changeOutputs) fun change =>
      ChangeTruly ks (request.outputs.getD []) (change.getD []) := by
  obtain ⟨⟨chosen, hsub, himprinted⟩, hturn⟩ := hfrom
  rcases changeOutputs with - | outputs
  · exact .pure .nil
  · rw [signChange]
    split
    · exact .pure .nil
    · refine .bind (upholds_signOutputs _) fun sigs hsigs => .pure ⟨?_, fun hblank => ?_⟩
      · obtain ⟨signed, hsigned, hall⟩ := genuine_of_imprinted himprinted hsigs
        exact ⟨signed, hsigned.trans hsub, hall⟩
      · obtain ⟨ps, hps, hassigned⟩ := hturn hblank
        rw [Option.getD_some] at hassigned
        rw [hassigned, filter_assignPieces hblank hps] at hsigs
        exact genuine_of_pieces hsigs

theorem upholds_postMelt {request : MeltRequest} : Upholds (SignsTruly ks) (postMelt request) fun r =>
    ChangeTruly ks (request.outputs.getD []) (r.change.getD []) := by
  have hclaim : Upholds (SignsTruly ks) (meltClaim request) fun plan => ChangeFrom request plan.changeOutputs :=
    .bind upholds_meltChecks fun plan hplan => .bind upholds_claimProofs fun _ _ => .bind upholds_setMeltState fun _ _ =>
      .bind upholds_persist fun _ _ => .pure hplan
  refine .bind hclaim fun plan hplan => .bind upholds_payInvoice fun answer _ => ?_
  cases answer with
  | ok preimage =>
    refine .bind (upholds_signChange hplan) fun change hchange => .bind upholds_setMeltState fun _ _ => ?_
    exact .bind upholds_persist fun _ _ => .bind .get fun _ _ => .bind .okOr fun _ _ => .pure hchange
  | error e =>
    exact .bind (upholds_modifyMint (fun _ => rfl) fun _ => rfl) fun _ _ => .bind upholds_setMeltState fun _ _ =>
      .bind upholds_persist fun _ _ => .fail

/-- Every signature of an answer is on an output of the request; those of an issuing call have the amounts that were asked
for. -/
def AnswersTruly (ks : DemoKeyset) : Call → Response → Prop
  | .postMint request, .minted r => List.Forall₂ (GenuineFor ks) request.outputs r.signatures
  | .batchMint request, .minted r => List.Forall₂ (GenuineFor ks) request.outputs r.signatures
  | .postSwap request, .swapped r => List.Forall₂ (GenuineFor ks) request.outputs r.signatures
  | .postMelt request, .melted r => ChangeTruly ks (request.outputs.getD []) (r.change.getD [])
  | .postRestore request, .restored r => ∀ out ∈ r.outputs, out.y ∈ request.outputs ∧ GenuineOn ks out.y out.signature
  | _, _ => True

theorem upholds_exec (c : Call) : Upholds (SignsTruly ks) (exec c) (AnswersTruly ks c) := by
  cases c with
  | postMintQuote request => exact .bind upholds_postMintQuote fun _ _ => .pure trivial
  | getMintQuote quoteId => exact .bind upholds_getMintQuote fun _ _ => .pure trivial
  | batchCheckMintQuotes request =>
    exact .bind (.bind .failIf fun _ _ => upholds_getMintQuotes) fun _ _ => .pure trivial
  | postMint request => exact .bind upholds_postMint fun _ h => .pure h
  | batchMint request => exact .bind upholds_batchMint fun _ h => .pure h
  | postMeltQuote request => exact .bind upholds_postMeltQuote fun _ _ => .pure trivial
  | getMeltQuote quoteId => exact .bind .get fun _ _ => .bind .lift fun _ _ => .pure trivial
  | postMelt request => exact .bind upholds_postMelt fun _ h => .pure h
  | postSwap request => exact .bind upholds_postSwap fun _ h => .pure h
  | postRestore request =>
    refine .bind .get fun w hw => .pure fun out hout => ?_
    obtain ⟨b, hb, hrow⟩ := List.mem_filterMap.1 hout
    obtain ⟨sig, hsig, rfl⟩ := Option.map_eq_some_iff.1 hrow
    exact ⟨hb, (hw.index _ sig hsig).genuineOn⟩

end methods

/-! ### Runs -/

theorem mem_of_lastSaved {trace : List Event} {snap : MintStateSnapshot} (h : lastSaved trace = some snap) :
    .saved snap ∈ trace := by
  induction trace with
  | nil => cases h
  | cons e trace ih =>
    cases e with
    | saved snap' =>
      cases h
      exact List.mem_cons_self
    | payInvoice => exact List.mem_cons_of_mem _ (ih h)
    | quoteWritten => exact List.mem_cons_of_mem _ (ih h)

theorem SignsTruly.step {w w' : World} {a : Act} (h : SignsTruly ks w) (hstep : DurableStep w a w') :
    SignsTruly ks w' ∧ ∀ r, a.ending = .returned (.ok r) → AnswersTruly ks a.call r := by
  have hbegin : SignsTruly ks w.begin := h.of_eq rfl rfl rfl
  rcases hstep with ⟨out, hout, -, hrun⟩ | ⟨lost, cut, snap, m, hend, rfl, -, hsaved, hrestore, rfl⟩
  · obtain ⟨hw', hanswer⟩ := (upholds_exec a.call).elim hbegin hrun
    refine ⟨hw', fun r hr => ?_⟩
    rw [hout] at hr
    cases hr
    exact hanswer r rfl
  · have hends := upholds_exec a.call a.env w.begin hbegin
    unfold Ends at hends
    generalize ((exec a.call).run a.env w.begin).2 = t at hends hsaved ⊢
    obtain ⟨ht, -⟩ := hends
    have hcut : ∀ snap, .saved snap ∈ t.trace.drop lost → .saved snap ∈ t.trace := fun _ h => List.mem_of_mem_drop h
    have hlast : .saved snap ∈ t.trace := hcut snap (mem_of_lastSaved hsaved)
    refine ⟨⟨?_, fun row sig hrow => ht.restore hlast hrestore row sig hrow, fun snap' h => ht.saved snap' (hcut snap' h)⟩,
      ?_⟩
    · exact (DemoMint.restore_eq_some hrestore).1.trans h.keyset
    · rw [hend]
      simp

/-- The index is genuine after every run, and so was every answer. -/
theorem signsTruly_of_run {store : Bool} {h : History} {w : World} (hrun : Run DurableStep (World.init ks store) h w) :
    SignsTruly ks w ∧ ∀ e ∈ h, ∀ r, e.act.ending = .returned (.ok r) → AnswersTruly ks e.act.call r := by
  induction hrun with
  | nil => exact ⟨.init ks store, by simp⟩
  | snoc _ hstep ih =>
    obtain ⟨htruly, hanswers⟩ := ih
    obtain ⟨htruly', hanswer⟩ := htruly.step hstep
    refine ⟨htruly', fun e he => ?_⟩
    rcases List.mem_append.1 he with he | he
    · exact hanswers e he
    · obtain rfl := List.mem_singleton.1 he
      exact hanswer

/-- In every run, through restarts from the store, every signature in an answer or in the restore index was made by the key
of its amount on the blinded message it stands for. -/
theorem answers_genuine {store : Bool} {h : History} {w : World} (hrun : Run DurableStep (World.init ks store) h w) :
    (∀ e ∈ h, ∀ r, e.act.ending = .returned (.ok r) → AnswersTruly ks e.act.call r) ∧
    ∀ b sig, w.mint.issuedOutputs.lookup (pointHex b) = some sig → GenuineOn ks b sig := by
  obtain ⟨htruly, hanswers⟩ := signsTruly_of_run hrun
  exact ⟨hanswers, fun b sig hrow => (htruly.index _ sig hrow).genuineOn⟩

end

section toy
open Toy

/-- A quote of 2 is minted, and the output is restored. -/
def restoringCalls : List (Call × Env) :=
  [(.postMintQuote ⟨2, "sat", none⟩, env), (.postMint ⟨"0190-q1", [⟨2, "00c0ffee", (5 : UInt8)⟩], none⟩, env),
   (.postRestore ⟨[(5 : UInt8)]⟩, env)]

theorem answers_genuine_toy :
    (replay (World.init keyset true) restoringCalls).1.length = 3 ∧
    (∀ e ∈ (replay (World.init keyset true) restoringCalls).1, ∀ r, e.act.ending = .returned (.ok r) →
      AnswersTruly keyset e.act.call r) ∧
    ∀ b sig, (replay (World.init keyset true) restoringCalls).2.mint.issuedOutputs.lookup (pointHex b) = some sig →
      GenuineOn keyset b sig :=
  ⟨rfl, answers_genuine ((run_replay (by decide +kernel)).mono fun _ _ _ => .inl)⟩

end toy

end Micronuts
