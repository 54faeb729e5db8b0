import Micronuts.Mint.Restore

/-!
# Locked quotes

A quote that was created with a key keeps it: no write touches `pubkey`. Both minting calls look at the key of
every quote they name before they sign anything, so what was issued on a locked quote grows only in a call that
carries a signature on that quote and on the outputs that the call signs.
-/

namespace Micronuts
open Exec
section
variable [Crypto]

/-! ### What a signature opens -/

/-- The text `signatureHex` is a signature under `pubkeyHex` on the quote and the outputs. -/
def Opens (pubkeyHex quoteId : String) (outputs : List BlindedMessage) (signatureHex : String) : Prop :=
  ∃ signature pubkey, Crypto.signatureFromStr signatureHex = some signature ∧
    parseCompressedPubkey pubkeyHex = some pubkey ∧
    Crypto.verify pubkey (quoteSigMessage quoteId outputs) signature = true

/-- The call carries such a signature for the quote: `post_mint` in its only place, `batch_mint` in the place that
the quote has in the request. -/
def Call.Carries (pubkeyHex quoteId : String) : Call → Prop
  | .postMint request => request.quote = quoteId ∧
      ∃ s, request.signature = some s ∧ Opens pubkeyHex quoteId request.outputs s
  | .batchMint request => ∃ (i : Nat) (signatures : List (Option String)) (s : String),
      request.quotes[i]? = some quoteId ∧ request.signatures = some signatures ∧
        signatures[i]? = some (some s) ∧ Opens pubkeyHex quoteId request.outputs s
  | _ => False

theorem Call.Carries.not_looks {c : Call} {pubkeyHex quoteId : String} (h : c.Carries pubkeyHex quoteId) : ¬ c.Looks := by
  intro hlooks
  cases c <;> first | exact h.elim | exact hlooks.elim

theorem verifyQuoteSignature_ok {pubkeyHex quoteId : String} {outputs : List BlindedMessage}
    {signatureHex : Option String} (h : verifyQuoteSignature pubkeyHex quoteId outputs signatureHex = .ok ()) :
    ∃ s, signatureHex = some s ∧ Opens pubkeyHex quoteId outputs s := by
  obtain ⟨s, hs, h⟩ := Except.bind_eq_ok.1 h
  obtain ⟨signature, hsignature, h⟩ := Except.bind_eq_ok.1 h
  obtain ⟨pubkey, hpubkey, h⟩ := Except.bind_eq_ok.1 h
  refine ⟨s, Except.okOr_eq_ok.1 hs, signature, pubkey, Except.okOr_eq_ok.1 hsignature, Except.okOr_eq_ok.1 hpubkey, ?_⟩
  split at h
  · next hverify => exact hverify
  · cases h

theorem verifyBatchSignaturePairs_ok {outputs : List BlindedMessage} {pairs : List (LoadedQuote × Option String)}
    (h : verifyBatchSignaturePairs outputs pairs = .ok ()) : ∀ p ∈ pairs, verifyBatchSignature outputs p.1 p.2 = .ok () := by
  induction pairs with
  | nil => simp
  | cons p pairs ih =>
    obtain ⟨⟨⟩, hp, h⟩ := Except.bind_eq_ok.1 h
    exact List.forall_mem_cons.2 ⟨hp, ih h⟩

/-- A locked quote of a batch has its signature in its own place. -/
theorem BatchPassed.carries {m : DemoMint} {request : BatchMintRequest} {entries : List LoadedQuote}
    (h : BatchPassed m request entries) {l : LoadedQuote} (hl : l ∈ entries) {pubkeyHex : String}
    (hpk : l.pubkey = some pubkeyHex) : (Call.batchMint request).Carries pubkeyHex l.quoteId := by
  obtain ⟨i, hi, rfl⟩ := List.mem_iff_getElem.1 hl
  have hlen : entries.length = request.quotes.length := by rw [← h.ids, List.length_map]
  have hunlocked := h.unlocked
  unfold verifyBatchSignatures at hunlocked
  split at hunlocked
  · -- without the array no quote may be locked
    split at hunlocked
    · cases hunlocked
    · next hany =>
      refine absurd (List.any_eq_true.2 ⟨entries[i], hl, ?_⟩) hany
      rw [hpk]; rfl
  · next signatures hsignatures =>
    split at hunlocked
    · cases hunlocked
    · next hsigs =>
      have hi' : i < signatures.length := by
        have := not_not.1 hsigs
        omega
      have hpair : (entries[i], signatures[i]) ∈ entries.zip signatures := by
        rw [List.mem_iff_getElem]
        exact ⟨i, by rw [List.length_zip]; omega, List.getElem_zip⟩
      have hverify := verifyBatchSignaturePairs_ok hunlocked _ hpair
      unfold verifyBatchSignature at hverify
      dsimp only at hverify
      rw [hpk] at hverify
      cases hsig : signatures[i] with
      | none => rw [hsig] at hverify; cases hverify
      | some s =>
        rw [hsig] at hverify
        obtain ⟨s', hs', hopens⟩ := verifyQuoteSignature_ok hverify
        cases hs'
        refine ⟨i, signatures, s, ?_, hsignatures, ?_, hopens⟩
        · rw [← h.ids, List.getElem?_map, List.getElem?_eq_getElem hi]; rfl
        · rw [List.getElem?_eq_getElem hi', hsig]

/-! ### The key stays -/

theorem Writes.pubkey {t₀ t : Finmap fun _ : String => MintQuoteEntry} {tr₀ tr : List Event} (h : Writes t₀ tr₀ t tr)
    (id : String) : (t.lookup id).map MintQuoteEntry.pubkey = (t₀.lookup id).map MintQuoteEntry.pubkey := by
  induction h with
  | refl => rfl
  | @write t tr id' old new before found write ih =>
    rw [Finmap.lookup_insert_eq]
    split
    · next hid =>
      subst hid
      rw [← ih, found]
      cases write with
      | settle unpaid later => rfl
      | mint paid grows le later => rfl
      | batchMint paid later => rfl
    · exact ih
  | saved _ _ ih => exact ih
  | paid _ _ _ _ ih => exact ih

theorem Settles.amountIssued {m m' : DemoMint} {tr tr' : List Event} (h : Settles m tr m' tr') (id : String) :
    (m'.mintQuotes.lookup id).map MintQuoteEntry.amountIssued = (m.mintQuotes.lookup id).map MintQuoteEntry.amountIssued := by
  induction h with
  | refl => rfl
  | settle _ found _ _ ih =>
    rw [DemoMint.putMintQuote_mintQuotes, Finmap.lookup_insert_eq]
    split
    · next hid => rw [← ih, hid, found]; rfl
    · exact ih

/-- A batch leaves the quotes alone that it does not name. -/
theorem Issues.lookup_of_not_mem {m m' : DemoMint} {tr tr' : List Event} {entries : List LoadedQuote}
    (h : Issues m tr entries m' tr') {id : String} (hid : id ∉ entries.map LoadedQuote.quoteId) :
    m'.mintQuotes.lookup id = m.mintQuotes.lookup id := by
  induction h with
  | nil => rfl
  | cons found later rest ih =>
    rw [List.map_cons, List.mem_cons, not_or] at hid
    rw [ih hid.2, DemoMint.putMintQuote_mintQuotes, Finmap.lookup_insert_of_ne _ hid.1]

/-! ### What is issued on a locked quote -/

/-- Only an `Ok` call that carries the signature adds to what is issued on a locked quote. -/
theorem CallEnds.authorised {env : Env} {w : World} {c : Call} {out : Outcome CashuError Response} {m : DemoMint}
    {tr : List Event} (h : CallEnds env w c out m tr) {id : String} {old new : MintQuoteEntry}
    (hold : w.mint.mintQuotes.lookup id = some old) (hnew : m.mintQuotes.lookup id = some new)
    (hlt : old.amountIssued < new.amountIssued) {pubkeyHex : String} (hpk : old.pubkey = some pubkeyHex) :
    c.Carries pubkeyHex id ∧ ∃ r, out = .ok r := by
  -- where the issued amount of the quote is as before, there is nothing to show
  have hsame : ∀ {p : Prop}, (m.mintQuotes.lookup id).map MintQuoteEntry.amountIssued =
      (w.mint.mintQuotes.lookup id).map MintQuoteEntry.amountIssued → p := by
    intro p heq
    rw [hold, hnew] at heq
    have heq : new.amountIssued = old.amountIssued := by simpa using heq
    exact absurd (heq ▸ hlt) (UInt64.lt_irrefl _)
  have hsettled : ∀ {m₁ tr₁} {e : MintQuoteEntry}, Settles w.mint w.trace m₁ tr₁ → m₁.mintQuotes.lookup id = some e →
      e.pubkey = some pubkeyHex := by
    intro m₁ tr₁ e settled he
    have hkey := settled.writes.pubkey id
    rw [he, hold] at hkey
    have hkey : e.pubkey = old.pubkey := by simpa using hkey
    rw [hkey, hpk]
  cases h with
  | refused settled => exact hsame (settled.amountIssued id)
  | looked looks settled => exact hsame (settled.amountIssued id)
  | restored request => exact hsame rfl
  | mintQuoteCreated request invoice expiry now positive hentry mint_eq =>
    subst mint_eq hentry
    rw [DemoMint.putMintQuote_mintQuotes, Finmap.lookup_insert_eq] at hnew
    split at hnew
    · -- a new quote has issued nothing
      cases hnew
      exact absurd hlt (UInt64.not_lt.2 UInt64.zero_le)
    · rw [hold] at hnew; cases hnew
      exact absurd hlt (UInt64.lt_irrefl _)
  | meltQuoteCreated request unpaid mint_eq => subst mint_eq; exact hsame rfl
  | @minted request m' tr' e sum issued u sigs settled passed signed later issued_eq m mint_eq =>
    subst mint_eq
    rw [DemoMint.putMintQuote_mintQuotes, DemoMint.record_mintQuotes, Finmap.lookup_insert_eq] at hnew
    split at hnew
    · next hid =>
      subst hid
      obtain ⟨s, hs, hopens⟩ := verifyQuoteSignature_ok (passed.unlocked _ (hsettled settled passed.found))
      exact ⟨⟨rfl, s, hs, hopens⟩, _, rfl⟩
    · next hid =>
      refine hsame ?_
      rw [DemoMint.putMintQuote_mintQuotes, DemoMint.record_mintQuotes, Finmap.lookup_insert_of_ne _ hid]
      exact settled.amountIssued id
  | mintStopped request checks settled stops signed =>
    rw [DemoMint.record_mintQuotes] at hsame
    exact hsame (settled.amountIssued id)
  | @batchMinted request entries w₁ m tr' sigs checks settled passed signed issues =>
    by_cases hid : id ∈ entries.map LoadedQuote.quoteId
    · obtain ⟨l, hl, rfl⟩ := List.mem_map.1 hid
      obtain ⟨e, he, -, -, hkey⟩ := passed.loaded l hl
      exact ⟨passed.carries hl (hkey ▸ hsettled settled he), _, rfl⟩
    · refine hsame ?_
      rw [issues.lookup_of_not_mem hid, DemoMint.record_mintQuotes]
      exact settled.amountIssued id
  | batchStopped request checks settled stops signed =>
    rw [DemoMint.record_mintQuotes] at hsame
    exact hsame (settled.amountIssued id)
  | swapped request passed claims signed mint_eq =>
    subst mint_eq
    rw [DemoMint.record_mintQuotes] at hsame
    exact hsame rfl
  | swapStopped request claimed passed claims mint_eq stops signed =>
    rw [DemoMint.record_mintQuotes, mint_eq] at hsame
    exact hsame rfl
  | meltPaid request claimed passed claims answer signed mint_eq =>
    subst mint_eq
    rw [DemoMint.putMeltQuote_mintQuotes, DemoMint.record_mintQuotes] at hsame
    exact hsame rfl
  | meltFailed request claimed passed claims answer mint_eq => subst mint_eq; exact hsame rfl
  | meltStopped request claimed passed claims answer notTotal mint_eq =>
    subst mint_eq
    rw [DemoMint.record_mintQuotes] at hsame
    exact hsame rfl

/-! ### Runs -/

/-- The id and the key of the quote that a step created. -/
def Step.created (e : Step World Act) : Option (String × Option String) :=
  match e.act.call, e.act.ending with
  | .postMintQuote request, .returned (.ok _) => some (e.act.env.nowV7, request.pubkey)
  | _, _ => none

/-- The key that the quote was created with; should its id have come twice, the later one counts. -/
def History.lock (h : History) (id : String) : Option (Option String) :=
  h.reverse.findSome? fun e => (Step.created e).bind fun c => if c.1 = id then some c.2 else none

theorem History.lock_append (h : History) (e : Step World Act) (id : String) : History.lock (h ++ [e]) id =
    ((Step.created e).bind fun c => if c.1 = id then some c.2 else none).or (h.lock id) := by
  simp only [History.lock, List.reverse_append, List.reverse_singleton, List.singleton_append, List.findSome?_cons]
  split
  · next heq => rw [heq]; rfl
  · next heq => rw [heq]; rfl

/-- A step that created a quote put it into the table with its key; any other step leaves the keys alone. -/
theorem CallStep.pubkeys {w w' : World} {a : Act} (hstep : CallStep w a w') :
    (∃ e, Step.created ⟨w, a, w'⟩ = some (a.env.nowV7, e.pubkey) ∧
      w'.mint.mintQuotes = w.mint.mintQuotes.insert a.env.nowV7 e) ∨
    (Step.created ⟨w, a, w'⟩ = none ∧ ∀ id,
      (w'.mint.mintQuotes.lookup id).map MintQuoteEntry.pubkey =
        (w.mint.mintQuotes.lookup id).map MintQuoteEntry.pubkey) := by
  obtain ⟨out, hout, hends⟩ := hstep.exists_ends
  unfold Step.created
  dsimp only
  rw [hout]
  generalize w'.mint = m, w'.trace = tr at hends
  cases hcall : a.call with
  | postMintQuote request =>
    rw [hcall] at hends
    cases hends with
    | refused settled => exact .inr ⟨rfl, settled.writes.pubkey⟩
    | looked looks settled => exact looks.elim
    | mintQuoteCreated request invoice expiry now positive new mint_eq =>
      subst new
      exact .inl ⟨_, rfl, by rw [mint_eq]; rfl⟩
  | _ =>
    rw [hcall] at hends
    rcases hends.mintQuotes with hwrites | ⟨request, invoice, expiry, now, hc, -⟩
    · exact .inr ⟨rfl, hwrites.pubkey⟩
    · cases hc

/-- Every quote has the key that it was created with. -/
def LocksKept (h : History) (m : DemoMint) : Prop :=
  ∀ id e, m.mintQuotes.lookup id = some e → h.lock id = some e.pubkey

theorem CallStep.locksKept {h : History} {w w' : World} {a : Act} (hstep : CallStep w a w')
    (hI : LocksKept h w.mint) : LocksKept (h ++ [⟨w, a, w'⟩]) w'.mint := by
  intro id e he
  rw [History.lock_append]
  rcases hstep.pubkeys with ⟨e', hcreated, htable⟩ | ⟨hcreated, hkeys⟩
  · rw [hcreated]
    rw [htable, Finmap.lookup_insert_eq] at he
    split at he
    · next hid =>
      cases he
      simp [hid]
    · next hid => simpa [Ne.symm hid] using hI id e he
  · have hkey := hkeys id
    rw [he] at hkey
    obtain ⟨e₀, he₀, hpk⟩ := Option.map_eq_some_iff.1 hkey.symm
    rw [hcreated, ← hpk]
    exact hI id e₀ he₀

theorem locksKept_of_run {ks : DemoKeyset} {store : Bool} {h : History} {w : World}
    (hrun : Run CallStep (World.init ks store) h w) : LocksKept h w.mint := by
  induction hrun with
  | nil =>
    intro id e he
    simp [World.init, World.boot, DemoMint.fresh] at he
  | snoc _ hstep ih => exact hstep.locksKept ih

/-- What the step issued on the quote. -/
def Step.Issues (e : Step World Act) (id : String) : Prop :=
  ∃ old new, e.pre.mint.mintQuotes.lookup id = some old ∧ e.post.mint.mintQuotes.lookup id = some new ∧
    old.amountIssued < new.amountIssued

/-- The step is a call with a signature on the quote and on the outputs that it signed. -/
structure Step.Authorised (e : Step World Act) (pubkeyHex id : String) : Prop where
  carries : e.act.call.Carries pubkeyHex id
  signs : ∃ r, e.act.ending = .returned (.ok r) ∧
    Signed e.pre.mint.keyset (e.act.call.outputsIn e.act.env e.pre.begin) r.signatures

/-- Nothing is issued on a quote that was created with a key but in calls that are signed with it, and a message that
is signed stands for one quote and one list of outputs. -/
structure LocksHold (h : History) : Prop where
  authorised : ∀ h₁ e h₂ id pubkeyHex, h = h₁ ++ e :: h₂ → History.lock h₁ id = some (some pubkeyHex) → Step.Issues e id →
    Step.Authorised e pubkeyHex id
  injective : ∀ id id' outputs outputs', ShortBytes (asBytes id) → ShortBytes (asBytes id') →
    quoteSigMessage id outputs = quoteSigMessage id' outputs' →
      id = id' ∧ outputs.map (fun o => (o.amount, o.b)) = outputs'.map fun o => (o.amount, o.b)

theorem locks_hold {ks : DemoKeyset} {store : Bool} {h : History} {w : World}
    (hrun : Run CallStep (World.init ks store) h w) : LocksHold h := by
  constructor
  · rintro h₁ e h₂ id pubkeyHex rfl hlock ⟨old, new, hold, hnew, hlt⟩
    obtain ⟨hbefore, hstep⟩ := hrun.split
    have hkey := locksKept_of_run hbefore id old hold
    rw [hlock] at hkey
    obtain ⟨out, hout, hends⟩ := hstep.exists_ends
    obtain ⟨hcarries, r, rfl⟩ := hends.authorised hold hnew hlt (Option.some.inj hkey).symm
    exact ⟨hcarries, r, hout, hends.signed hcarries.not_looks⟩
  · intro id id' outputs outputs' hshort hshort' h
    exact quoteSigMessage_injective hshort hshort' h

end

section toy
open Toy

/-- A quote of two that is locked to a key, and a call that mints it with a signature. -/
def lockedCalls : List (Call × Env) :=
  let outputs : List BlindedMessage := [⟨2, "00c0ffee", (5 : UInt8)⟩]
  [(.postMintQuote ⟨2, "sat", some (pointHex (7 : UInt8))⟩, env),
   (.postMint ⟨"0190-q1", outputs, some (Hex.encode [7 + fold (quoteSigMessage "0190-q1" outputs)])⟩, env)]

theorem locks_hold_toy : LocksHold (replay (World.init keyset true) lockedCalls).1 :=
  locks_hold (run_replay (by decide +kernel))

example : ((replay (World.init keyset true) lockedCalls).2.mint.mintQuotes.lookup "0190-q1").map
    MintQuoteEntry.amountIssued = some 2 := by decide +kernel

end toy

end Micronuts
