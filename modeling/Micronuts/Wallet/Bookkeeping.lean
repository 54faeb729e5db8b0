import Mathlib.Logic.Relation
import Micronuts.Lib.Run
import Micronuts.Wallet.Steady

/-!
# The books of the engine (`micronuts-wallet-core`: `engine.rs`)

A pending send points to its entry of the history by the entry's place, and is itself dropped by its place or its value.
Every change of the books is one of three (`Books.Change`), and each keeps records and pending entries matched one to one
(`Books.Matched`).
-/

namespace Micronuts

/-! ### Records and entries -/

/-- The history, and the sends that nobody has claimed. -/
structure Books where
  history : List HistoryEntry
  pending : List PendingSend

namespace Books
variable {b b' : Books}

/-- A send that is not settled. -/
def Open (entry : HistoryEntry) : Prop := entry.kind = .send ∧ entry.status = .pending

/-- Records and open entries, one to one. -/
structure Matched (b : Books) : Prop where
  records : ∀ r ∈ b.pending, ∃ entry, b.history[r.historyIdx]? = some entry ∧ Open entry ∧ entry.amount = r.amount
  distinct : (b.pending.map PendingSend.historyIdx).Nodup
  entries : ∀ i entry, b.history[i]? = some entry → Open entry → ∃ r ∈ b.pending, r.historyIdx = i

/-- The record at a place is dropped, and its entry has its final status. -/
def settle (b : Books) (index : Nat) (r : PendingSend) (status : HistoryStatus) : Books where
  history := b.history.modify r.historyIdx fun entry => { entry with status }
  pending := b.pending.eraseIdx index

inductive Change (b : Books) : Books → Prop
  | record (entry : HistoryEntry) (complete : entry.status = .complete) : Change b ⟨b.history ++ [entry], b.pending⟩
  | send (entry : HistoryEntry) (r : PendingSend) (isOpen : Open entry) (amount : entry.amount = r.amount)
      (place : r.historyIdx = b.history.length) : Change b ⟨b.history ++ [entry], b.pending ++ [r]⟩
  | settle (index : Nat) (r : PendingSend) (status : HistoryStatus) (found : b.pending[index]? = some r)
      (settled : status ≠ .pending) : Change b (b.settle index r status)

/-- What a method of the engine does to the books. -/
abbrev Changes : Books → Books → Prop := Relation.ReflTransGen Change

theorem getElem?_append_singleton {α : Type} {l : List α} {a x : α} {i : Nat} (h : (l ++ [a])[i]? = some x) :
    l[i]? = some x ∨ i = l.length ∧ x = a := by
  rw [List.getElem?_append] at h
  split at h
  · exact .inl h
  · next hlt =>
    rw [List.getElem?_singleton] at h
    split_ifs at h
    cases h
    exact .inr ⟨by omega, rfl⟩

theorem Matched.lt (h : b.Matched) {r : PendingSend} (hr : r ∈ b.pending) : r.historyIdx < b.history.length := by
  obtain ⟨entry, hentry, -⟩ := h.records r hr
  exact (List.getElem?_eq_some_iff.1 hentry).1

/-- Records are told apart by the places of their entries. -/
theorem Matched.eq_of_historyIdx (h : b.Matched) {r r' : PendingSend} (hr : r ∈ b.pending) (hr' : r' ∈ b.pending)
    (heq : r.historyIdx = r'.historyIdx) : r = r' :=
  List.inj_on_of_nodup_map h.distinct hr hr' heq

theorem Matched.nodup (h : b.Matched) : b.pending.Nodup := List.Nodup.of_map _ h.distinct

theorem Matched.append (h : b.Matched) (entry : HistoryEntry) {r : PendingSend} (hr : r ∈ b.pending) :
    ∃ entry', (b.history ++ [entry])[r.historyIdx]? = some entry' ∧ Open entry' ∧ entry'.amount = r.amount := by
  rw [List.getElem?_append_left (h.lt hr)]
  exact h.records r hr

theorem Matched.record (h : b.Matched) {entry : HistoryEntry} (hcomplete : entry.status = .complete) :
    Matched ⟨b.history ++ [entry], b.pending⟩ := by
  refine ⟨fun r hr => h.append entry hr, h.distinct, fun i entry' hentry hopen => ?_⟩
  rcases getElem?_append_singleton hentry with hold | ⟨-, rfl⟩
  · exact h.entries i entry' hold hopen
  · exact absurd (hcomplete.symm.trans hopen.2) (by decide)

theorem Matched.send (h : b.Matched) {entry : HistoryEntry} {r : PendingSend} (hopen : Open entry)
    (hamount : entry.amount = r.amount) (hplace : r.historyIdx = b.history.length) :
    Matched ⟨b.history ++ [entry], b.pending ++ [r]⟩ := by
  refine ⟨fun r' hr' => ?_, ?_, fun i entry' hentry hopen' => ?_⟩
  · rcases List.mem_append.1 hr' with hold | hnew
    · exact h.append entry hold
    · obtain rfl := List.mem_singleton.1 hnew
      exact ⟨entry, by rw [hplace]; exact List.getElem?_concat_length, hopen, hamount⟩
  · rw [List.map_append, List.map_singleton]
    refine h.distinct.append (List.nodup_singleton _) ?_
    rw [List.disjoint_singleton]
    intro hmem
    obtain ⟨r', hr', heq⟩ := List.mem_map.1 hmem
    have := h.lt hr'
    omega
  · rcases getElem?_append_singleton hentry with hold | ⟨rfl, -⟩
    · obtain ⟨r', hr', hidx⟩ := h.entries i entry' hold hopen'
      exact ⟨r', List.mem_append_left _ hr', hidx⟩
    · exact ⟨r, List.mem_append_right _ (List.mem_singleton_self r), hplace⟩

/-- What is left of the records without the one at a place. -/
theorem Matched.mem_eraseIdx (h : b.Matched) {index : Nat} {r r' : PendingSend} (hr : b.pending[index]? = some r) :
    r' ∈ b.pending.eraseIdx index ↔ r' ∈ b.pending ∧ r' ≠ r := by
  obtain ⟨hlt, hget⟩ := List.getElem?_eq_some_iff.1 hr
  have herase : b.pending.eraseIdx index = b.pending.erase r := by
    rw [← hget, h.nodup.erase_getElem]
  rw [herase, h.nodup.mem_erase_iff, and_comm]

/-- The records of one value are one record. -/
theorem Matched.filter_ne (h : b.Matched) {index : Nat} {r : PendingSend} (hr : b.pending[index]? = some r) :
    b.pending.filter (· ≠ r) = b.pending.eraseIdx index := by
  obtain ⟨hlt, hget⟩ := List.getElem?_eq_some_iff.1 hr
  rw [← h.nodup.erase_getElem index hlt, hget, h.nodup.erase_eq_filter]
  exact List.filter_congr fun x _ => Bool.eq_iff_iff.2 (by simp)

theorem Matched.settle (h : b.Matched) {index : Nat} {r : PendingSend} {status : HistoryStatus}
    (hr : b.pending[index]? = some r) (hsettled : status ≠ .pending) : (b.settle index r status).Matched := by
  have hmem : r ∈ b.pending := List.mem_of_getElem? hr
  refine ⟨fun r' hr' => ?_, h.distinct.sublist ((List.eraseIdx_sublist ..).map _), fun i entry hentry hopen => ?_⟩
  · obtain ⟨hr', hne⟩ := (h.mem_eraseIdx hr).1 hr'
    obtain ⟨entry, hentry, hopen⟩ := h.records r' hr'
    have hplace : r.historyIdx ≠ r'.historyIdx := fun heq => hne (h.eq_of_historyIdx hr' hmem heq.symm)
    exact ⟨entry, by rw [Books.settle, List.getElem?_modify_ne _ _ hplace]; exact hentry, hopen⟩
  · rcases eq_or_ne r.historyIdx i with rfl | hplace
    · rw [Books.settle, List.getElem?_modify_eq] at hentry
      obtain ⟨entry', -, rfl⟩ := Option.map_eq_some_iff.1 hentry
      exact absurd hopen.2 hsettled
    · rw [Books.settle, List.getElem?_modify_ne _ _ hplace] at hentry
      obtain ⟨r', hr', hidx⟩ := h.entries i entry hentry hopen
      refine ⟨r', (h.mem_eraseIdx hr).2 ⟨hr', ?_⟩, hidx⟩
      rintro rfl
      exact hplace hidx

theorem Matched.change (h : b.Matched) (hchange : b.Change b') : b'.Matched := by
  cases hchange with
  | record entry complete => exact h.record complete
  | send entry r isOpen amount place => exact h.send isOpen amount place
  | settle index r status found settled => exact h.settle found settled

theorem Matched.changes (h : b.Matched) (hchanges : Changes b b') : b'.Matched := by
  induction hchanges with
  | refl => exact h
  | tail _ hchange ih => exact ih.change hchange

end Books

/-! ### Methods that leave the books -/

section
variable [Crypto]

namespace WalletEngine
open Exec

def books (e : WalletEngine) : Books := ⟨e.history, e.pending⟩

instance : Steady books := ⟨fun _ _ => rfl, fun _ _ => rfl⟩

/-- The method leaves the books alone. -/
abbrev Quiet {α : Type} (m : EngineM α) : Prop := Leaves books m

/-! ### Methods that change them -/

/-- How a method changes the books, from a state where they match. -/
def Keeps {α : Type} (m : EngineM α) : Prop :=
  ∀ env e, e.books.Matched → m.Ends env e fun _ t => Books.Changes e.books t.books

section changes
variable {α β : Type}

theorem Quiet.keeps {m : EngineM α} (h : Quiet m) : Keeps m :=
  fun env e _ => (h.ends env e).mono fun _ (t : WalletEngine) (ht : t.books = e.books) => ht ▸ .refl

theorem Keeps.bind {m : EngineM α} {f : α → EngineM β} (hm : Keeps m) (hf : ∀ a, Keeps (f a)) : Keeps (m >>= f) := by
  intro env e he
  refine Ends.bind_keeps (R := fun t : WalletEngine => Books.Changes e.books t.books) (hm env e he) fun a t ht => ?_
  exact (hf a env t (he.changes ht)).mono fun _ u hu => ht.trans hu

theorem record_changes (kind : HistoryKind) (amount : UInt64) (detail : String) : Keeps (record kind amount detail) :=
  fun _ _ _ => .single (.record _ rfl)

/-- The books are as they were up to here. -/
theorem Quiet.bind_changes {m : EngineM α} {f : α → EngineM β} {env : EngineEnv} {t : WalletEngine} {b : Books}
    (hm : Quiet m) (ht : t.books = b) (hf : ∀ a u, u.books = b → (f a).Ends env u fun _ v => Books.Changes b v.books) :
    (m >>= f).Ends env t fun _ v => Books.Changes b v.books := by
  refine Leaves.bind_ends hm (fun a u hu => hf a u (hu.trans ht)) ?_ ?_
  · intro _ u hu
    rw [hu, ht]
  · intro u hu
    rw [hu, ht]

omit [Crypto] in
theorem modify_concat {l : List HistoryEntry} {entry : HistoryEntry} {f : HistoryEntry → HistoryEntry} :
    (l ++ [entry]).modify l.length f = l ++ [f entry] := by
  rw [List.modify_eq_take_cons_drop (by simp)]
  simp

/-- One entry, and one record for it. -/
theorem recordSend_run (env : EngineEnv) (e : WalletEngine) (amount : UInt64) (memo : Option String) (token : String) :
    (recordSend amount memo token).run env e = (.ok (), { e with
      history := e.history ++ [⟨.send, amount, "ecash to QR", env.now e.calls, .pending⟩]
      pending := e.pending ++ [⟨token, amount, memo, env.now e.calls, e.history.length⟩] }) := by
  have hplace : ∀ entry : HistoryEntry, (e.history ++ [entry])[e.history.length]? = some entry := fun _ => by simp
  show (Outcome.ok (), ({ e with
    history := (e.history ++ [_]).modify e.history.length _
    pending := e.pending ++ [⟨token, amount, memo,
      ((((e.history ++ [_]).modify e.history.length _)[e.history.length]?).map HistoryEntry.tsSecs).getD 0, _⟩] } :
    WalletEngine)) = _
  rw [modify_concat, hplace]
  rfl

theorem recordSend_changes (amount : UInt64) (memo : Option String) (token : String) :
    Keeps (recordSend amount memo token) := by
  intro env e _
  refine Ends.of_run (recordSend_run env e amount memo token) ?_
  exact .single (.send _ _ ⟨rfl, rfl⟩ rfl rfl)

theorem finalizeClaimed_changes (index : Nat) : Keeps (finalizeClaimed index) := by
  intro env e _
  show Books.Changes e.books (books (e.pending[index]?.elim e _))
  rcases hr : e.pending[index]? with - | r
  · exact .refl
  · exact .single (.settle index r .complete hr (by decide))

variable [Curve]

theorem mintPaidQuote_changes (quoteId : String) (amount : UInt64) : Keeps (mintPaidQuote quoteId amount) := by
  refine (Quiet.keeps ensureConnected_leaves).bind fun _ => (Quiet.keeps knownSecrets_computes.leaves).bind fun known => ?_
  refine (Quiet.keeps .get).bind fun e => (Quiet.keeps (callWallet_leaves _)).bind fun minted => ?_
  exact (Quiet.keeps (verifyNewProofs_leaves known)).bind fun _ => (record_changes _ _ _).bind fun _ => Quiet.keeps (.pure _)

theorem meltComposed_changes (quote : MeltQuoteResponse) (meltFee : UInt64) (known : List String) :
    Keeps (meltComposed quote meltFee known) := by
  refine (Quiet.keeps .get).bind fun e => (Quiet.keeps (addU64_computes _ _).leaves).bind fun _ => ?_
  refine (Quiet.keeps (callWallet_leaves _)).bind fun _ => ?_
  exact (Quiet.keeps (verifyNewProofs_leaves known)).bind fun _ => (record_changes _ _ _).bind fun _ => Quiet.keeps (.pure _)

theorem meltPrepared_changes (quote : MeltQuoteResponse) (meltFee target : UInt64) (known : List String) (all : List Proof)
    (change : Option (List UInt64)) : Keeps (meltPrepared quote meltFee target known all change) := by
  cases change with
  | none => exact Quiet.keeps (.pure _)
  | some change =>
    refine (Quiet.keeps .get).bind fun e => (Quiet.keeps (callWallet_leaves _).attempt).bind fun swapped => ?_
    cases swapped with
    | ok => exact meltComposed_changes quote meltFee known
    | error err => exact (Quiet.keeps (callWallet_leaves _).attempt).bind fun _ => Quiet.keeps (.fail err)

theorem meltQuoted_changes (quote : MeltQuoteResponse) : Keeps (meltQuoted quote) := by
  refine (Quiet.keeps (.okOr _ _)).bind fun base => (Quiet.keeps (inputFee_computes _).leaves).bind fun meltFee => ?_
  refine (Quiet.keeps (.okOr _ _)).bind fun target => (Quiet.keeps balance_computes.leaves).bind fun total => ?_
  refine (Quiet.keeps knownSecrets_computes.leaves).bind fun known => (Quiet.keeps (callWallet_leaves _)).bind fun all => ?_
  refine (Quiet.keeps (meltSwapFee_leaves _)).bind fun _ => (Quiet.keeps (subU64_computes _ _).leaves).bind fun _ => ?_
  exact (Quiet.keeps (subU64_computes _ _).leaves).bind fun _ => meltPrepared_changes _ _ _ _ _ _

theorem meltWith_changes (invoice : String) (amount : Option UInt64) : Keeps (meltWith invoice amount) :=
  (Quiet.keeps ensureConnected_leaves).bind fun _ => (Quiet.keeps .get).bind fun _ =>
    (Quiet.keeps (ask_leaves _)).bind fun quote =>
    meltQuoted_changes quote

section tokens
variable [Minicbor] [TokenCrates]

theorem sendToken_changes [MinicborCodec] (amount : UInt64) (memo : Option String) : Keeps (sendToken amount memo) := by
  refine (Quiet.keeps ensureConnected_leaves).bind fun _ =>
    (Quiet.keeps (composeExact_leaves amount)).bind fun sendProofs => ?_
  refine (Quiet.keeps .get).bind fun e => (Quiet.keeps (.okOr _ _)).bind fun wire => ?_
  exact (Quiet.keeps (callWallet_leaves _)).bind fun _ => (recordSend_changes _ _ _).bind fun _ => Quiet.keeps (.pure _)

theorem receiveTokenWith_changes [Bip340] [IdentityCrates] (tokenStr : String) (preimage : Option String) :
    Keeps (receiveTokenWith tokenStr preimage) := by
  refine (Quiet.keeps ensureConnected_leaves).bind fun _ => (Quiet.keeps (decodedToken_leaves _)).bind fun token => ?_
  refine (Quiet.keeps .get).bind fun e => (Quiet.keeps (.failIf _ _)).bind fun _ => (Quiet.keeps (.lift _)).bind fun _ => ?_
  refine (Quiet.keeps clock_computes.leaves).bind fun now => (Quiet.keeps (receiveGroups_leaves _ _ _)).bind fun total => ?_
  exact (record_changes _ _ _).bind fun _ => Quiet.keeps (.pure _)

omit [Curve] in
theorem checkPendingSend_changes (index : Nat) : Keeps (checkPendingSend index) := by
  refine (Quiet.keeps ensureConnected_leaves).bind fun _ => (Quiet.keeps .get).bind fun e =>
    (Quiet.keeps (.okOr _ _)).bind fun r => ?_
  refine (Quiet.keeps (probePending_leaves r)).bind fun status => ?_
  split_ifs
  · exact (finalizeClaimed_changes index).bind fun _ => Quiet.keeps (.pure _)
  · exact Quiet.keeps (.pure _)

omit [Curve] in
theorem checkPendingFrom_changes (rounds index : Nat) (statuses : List PendingStatus) :
    Keeps (checkPendingFrom rounds index statuses) := by
  induction rounds generalizing index statuses with
  | zero => exact Quiet.keeps (.pure _)
  | succ rounds ih =>
    refine (Quiet.keeps .get).bind fun e => ?_
    split
    · exact Quiet.keeps (.pure _)
    · refine (Quiet.keeps (probePending_leaves _)).bind fun status => ?_
      split_ifs
      · exact (finalizeClaimed_changes index).bind fun _ => ih _ _
      · exact ih _ _

omit [Curve] in
theorem checkAllPending_changes : Keeps checkAllPending :=
  (Quiet.keeps ensureConnected_leaves).bind fun _ => (Quiet.keeps .get).bind fun _ => checkPendingFrom_changes _ _ _

omit [Curve] in
theorem reclaimFailed_changes (index : Nat) (r : PendingSend) : Keeps (reclaimFailed index r) := by
  refine (Quiet.keeps (probePending_leaves r).attempt).bind fun probed => ?_
  split_ifs
  · exact (finalizeClaimed_changes index).bind fun _ => Quiet.keeps (.fail _)
  · exact Quiet.keeps (.fail _)

theorem reclaimPending_changes (index : Nat) : Keeps (reclaimPending index) := by
  intro env e he
  refine Quiet.bind_changes ensureConnected_leaves rfl fun _ e₁ h₁ => Ends.bind_get ?_
  refine Ends.bind_okOr (fun r hr => ?_) fun _ => h₁ ▸ .refl
  have hr : e.books.pending[index]? = some r := by rw [← h₁]; exact hr
  refine Quiet.bind_changes (decodedToken_leaves _) h₁ fun token e₂ h₂ => ?_
  refine Quiet.bind_changes (.lift _) h₂ fun inputs e₃ h₃ => ?_
  refine Quiet.bind_changes (sumAmounts_computes _ _).leaves h₃ fun total e₄ h₄ => ?_
  refine Quiet.bind_changes knownSecrets_computes.leaves h₄ fun known e₅ h₅ => ?_
  refine Quiet.bind_changes (inputFee_computes _).leaves h₅ fun swapFee e₆ h₆ => ?_
  refine Quiet.bind_changes (.okOr _ _) h₆ fun net e₇ h₇ => ?_
  refine Quiet.bind_changes (callWallet_leaves _).attempt h₇ fun swapped e₈ h₈ => ?_
  cases swapped with
  | error =>
    rw [← h₈]
    exact reclaimFailed_changes index r env e₈ (h₈ ▸ he)
  | ok =>
    refine Quiet.bind_changes (verifyNewProofs_leaves known) h₈ fun _ e₉ h₉ => Ends.bind_modify ?_
    refine bind_record (.pure ?_)
    have hsettled : Books.Changes e.books (e.books.settle index r .reclaimed) := .single (.settle index r _ hr (by decide))
    have hhistory : e₉.history = e.books.history := congrArg Books.history h₉
    have hpending : e₉.pending.filter (· ≠ r) = e.books.pending.eraseIdx index := by
      rw [← he.filter_ne hr]
      exact congrArg (fun b : Books => b.pending.filter (· ≠ r)) h₉
    have hrecord : ∀ entry : HistoryEntry, entry.status = .complete → (e.books.settle index r .reclaimed).Change
        ⟨e₉.history.modify r.historyIdx (fun entry => { entry with status := .reclaimed }) ++ [entry],
          e₉.pending.filter (· ≠ r)⟩ := by
      intro entry hcomplete
      rw [hpending, hhistory]
      exact .record entry hcomplete
    exact hsettled.tail (hrecord _ rfl)

end tokens

end changes

/-! ### The loop over all records -/

section
variable [Minicbor] [TokenCrates]

/-- The answer that some probe of the record has given. -/
def Probed (env : EngineEnv) (r : PendingSend) (status : PendingStatus) : Prop :=
  ∃ u u', (probePending r).run env u = (.ok status, u')

omit [Crypto] [Minicbor] [TokenCrates] in
/-- The records with an answer, of this kind or not. -/
def withStatus (rs : List PendingSend) (statuses : List PendingStatus) (claimed : Bool) : List PendingSend :=
  ((rs.zip statuses).filter fun x => decide (x.2 = .claimed) = claimed).map Prod.fst

/-- The entries of the records have status complete. -/
def complete (history : List HistoryEntry) (rs : List PendingSend) : List HistoryEntry :=
  rs.foldl (fun history r => history.modify r.historyIdx fun entry => { entry with status := .complete }) history

/-- One status for each record in its place; those that are claimed are dropped and their entries completed, and no others. -/
structure ChecksAll (env : EngineEnv) (b b' : Books) (statuses : List PendingStatus) : Prop where
  probed : List.Forall₂ (Probed env) b.pending statuses
  pending : b'.pending = withStatus b.pending statuses false
  history : b'.history = complete b.history (withStatus b.pending statuses true)

section loop
variable {env : EngineEnv} {e t : WalletEngine} {kept todo : List PendingSend} {statuses out : List PendingStatus}

omit [Minicbor] [TokenCrates] in
theorem finalizeClaimed_run {index : Nat} {r : PendingSend} (hr : e.pending[index]? = some r) :
    (finalizeClaimed index).run env e =
      (.ok (), { e.setStatus r.historyIdx .complete with pending := e.pending.eraseIdx index }) := by
  show (Outcome.ok (), e.pending[index]?.elim e _) = _
  rw [hr]
  rfl

theorem probePending_books {r : PendingSend} {o : Outcome CashuError PendingStatus}
    (hprobe : (probePending r).run env e = (o, t)) : t.books = e.books :=
  (probePending_leaves r).elim hprobe

/-- After the last record the loop is over, however many rounds are left. -/
theorem checkPendingFrom_nil (rounds : Nat) (hpending : e.pending = kept) :
    (checkPendingFrom rounds kept.length statuses).run env e = (.ok statuses, e) := by
  have hnone : e.pending[kept.length]? = none := by simp [hpending]
  cases rounds with
  | zero => rfl
  | succ rounds =>
    rw [checkPendingFrom, run_bind_of_ok get_run, hnone]
    rfl

/-- A round drops its record or passes over it. -/
theorem checkPendingFrom_cons (rounds : Nat) {r : PendingSend} (hpending : e.pending = kept ++ r :: todo) :
    (checkPendingFrom (rounds + 1) kept.length statuses).run env e =
      match (probePending r).run env e with
      | (.ok .claimed, u) => (checkPendingFrom rounds kept.length (statuses ++ [.claimed])).run env
          { u.setStatus r.historyIdx .complete with pending := kept ++ todo }
      | (.ok .awaiting, u) => (checkPendingFrom rounds (kept ++ [r]).length (statuses ++ [.awaiting])).run env u
      | (.err x, u) => (.err x, u)
      | (.panic, u) => (.panic, u) := by
  have hr : e.pending[kept.length]? = some r := by simp [hpending]
  rw [checkPendingFrom, run_bind_of_ok get_run, hr]
  dsimp only
  rcases hprobe : (probePending r).run env e with ⟨(- | -) | x | -, u⟩
  · rw [run_bind_of_ok hprobe, if_neg (by decide), List.length_append]
    rfl
  · have hupending : u.pending = e.pending := congrArg Books.pending (probePending_books hprobe)
    have herase : u.pending.eraseIdx kept.length = kept ++ todo := by
      rw [hupending, hpending, List.eraseIdx_append_of_length_le (le_refl _), Nat.sub_self]
      rfl
    rw [run_bind_of_ok hprobe, if_pos rfl, run_bind_of_ok (finalizeClaimed_run (by rw [hupending]; exact hr)), herase]
  · exact run_bind_of_err hprobe
  · exact run_bind_of_panic hprobe

/-- As many rounds as there are records are enough. -/
theorem checkPendingFrom_rounds {rounds rounds' : Nat} (hrounds : todo.length ≤ rounds) (hrounds' : todo.length ≤ rounds')
    (hpending : e.pending = kept ++ todo) : (checkPendingFrom rounds kept.length statuses).run env e =
      (checkPendingFrom rounds' kept.length statuses).run env e := by
  induction todo generalizing e kept statuses rounds rounds' with
  | nil =>
    rw [List.append_nil] at hpending
    rw [checkPendingFrom_nil rounds hpending, checkPendingFrom_nil rounds' hpending]
  | cons r todo ih =>
    obtain ⟨rounds, rfl⟩ : ∃ n, rounds = n + 1 := ⟨rounds - 1, by simp at hrounds; omega⟩
    obtain ⟨rounds', rfl⟩ : ∃ n, rounds' = n + 1 := ⟨rounds' - 1, by simp at hrounds'; omega⟩
    simp only [List.length_cons, Nat.add_le_add_iff_right] at hrounds hrounds'
    rw [checkPendingFrom_cons rounds hpending, checkPendingFrom_cons rounds' hpending]
    rcases hprobe : (probePending r).run env e with ⟨(- | -) | x | -, u⟩
    · have hupending : u.pending = e.pending := congrArg Books.pending (probePending_books hprobe)
      exact ih hrounds hrounds' (by rw [hupending, hpending, List.append_assoc]; rfl)
    · exact ih hrounds hrounds' rfl
    · rfl
    · rfl

/-- What the rounds do to the records that are left. -/
theorem checkPendingFrom_ok {rounds : Nat} (hrounds : todo.length ≤ rounds) (hpending : e.pending = kept ++ todo)
    (hrun : (checkPendingFrom rounds kept.length statuses).run env e = (.ok out, t)) :
    ∃ new, out = statuses ++ new ∧ List.Forall₂ (Probed env) todo new ∧
      t.books = ⟨complete e.history (withStatus todo new true), kept ++ withStatus todo new false⟩ := by
  induction todo generalizing e kept statuses rounds with
  | nil =>
    rw [List.append_nil] at hpending
    rw [checkPendingFrom_nil rounds hpending] at hrun
    cases hrun
    exact ⟨[], by rw [List.append_nil], .nil, by rw [books, hpending]; simp [withStatus, complete]⟩
  | cons r todo ih =>
    obtain ⟨rounds, rfl⟩ : ∃ n, rounds = n + 1 := ⟨rounds - 1, by simp at hrounds; omega⟩
    rw [List.length_cons, Nat.add_le_add_iff_right] at hrounds
    rw [checkPendingFrom_cons rounds hpending] at hrun
    rcases hprobe : (probePending r).run env e with ⟨(- | -) | x | -, u⟩
    · rw [hprobe] at hrun
      have hbooks := probePending_books hprobe
      have hupending : u.pending = e.pending := congrArg Books.pending hbooks
      have huhistory : u.history = e.history := congrArg Books.history hbooks
      obtain ⟨new, rfl, hnew, ht⟩ := ih hrounds (by rw [hupending, hpending, List.append_assoc]; rfl) hrun
      refine ⟨.awaiting :: new, by simp, .cons ⟨e, u, hprobe⟩ hnew, ?_⟩
      rw [ht, huhistory, List.append_assoc]
      rfl
    · rw [hprobe] at hrun
      have huhistory : u.history = e.history := congrArg Books.history (probePending_books hprobe)
      obtain ⟨new, rfl, hnew, ht⟩ := ih hrounds rfl hrun
      refine ⟨.claimed :: new, by simp, .cons ⟨e, u, hprobe⟩ hnew, ?_⟩
      rw [ht, setStatus, huhistory]
      rfl
    · rw [hprobe] at hrun
      cases hrun
    · rw [hprobe] at hrun
      cases hrun

theorem checkAllPending_ok {statuses : List PendingStatus} (hrun : checkAllPending.run env e = (.ok statuses, t)) :
    ChecksAll env e.books t.books statuses := by
  obtain ⟨_, e₁, hconnected, hrun⟩ := run_bind_ok hrun
  have hbooks : e₁.books = e.books := ensureConnected_leaves.elim hconnected
  rw [run_bind_of_ok get_run] at hrun
  have hrun : (checkPendingFrom e₁.pending.length ([] : List PendingSend).length []).run env e₁ = (.ok statuses, t) := hrun
  obtain ⟨_, rfl, hnew, ht⟩ := checkPendingFrom_ok (le_refl _) rfl hrun
  have hpending : e₁.pending = e.books.pending := congrArg Books.pending hbooks
  have hhistory : e₁.history = e.books.history := congrArg Books.history hbooks
  rw [List.nil_append, hpending, hhistory] at ht
  rw [hpending] at hnew
  rw [ht]
  exact ⟨hnew, rfl, rfl⟩

end loop

end

/-! ### Runs of the engine -/

section
variable [Curve] [Bip340] [IdentityCrates] [Minicbor] [MinicborCodec] [TokenCrates]

/-- What is asked of an engine. -/
inductive EngineOp
  | mintPaidQuote (quoteId : String) (amount : UInt64)
  | send (amount : UInt64) (memo : Option String)
  | receive (token : String) (preimage : Option String)
  | checkPendingSend (index : Nat)
  | checkAllPending
  | reclaimPending (index : Nat)
  | melt (invoice : String) (amount : Option UInt64)
  | reconcileSpent
  | restore

def EngineOp.exec : EngineOp → EngineM Unit
  | mintPaidQuote quoteId amount => WalletEngine.mintPaidQuote quoteId amount >>= fun _ => pure ()
  | send amount memo => sendToken amount memo >>= fun _ => pure ()
  | receive token preimage => receiveTokenWith token preimage >>= fun _ => pure ()
  | checkPendingSend index => WalletEngine.checkPendingSend index >>= fun _ => pure ()
  | checkAllPending => WalletEngine.checkAllPending >>= fun _ => pure ()
  | reclaimPending index => WalletEngine.reclaimPending index >>= fun _ => pure ()
  | melt invoice amount => meltWith invoice amount >>= fun _ => pure ()
  | reconcileSpent => WalletEngine.reconcileSpent >>= fun _ => pure ()
  | restore => WalletEngine.restore >>= fun _ => pure ()

/-- A call, with all that it meets. -/
structure EngineCall where
  env : EngineEnv
  op : EngineOp

/-- The call ends in some way. -/
def EngineStep (e : WalletEngine) (a : EngineCall) (e' : WalletEngine) : Prop := ∃ o, a.op.exec.run a.env e = (o, e')

theorem EngineOp.keeps (op : EngineOp) : Keeps op.exec := by
  have hend : Keeps (pure () : EngineM Unit) := Quiet.keeps (.pure _)
  cases op with
  | mintPaidQuote quoteId amount => exact (mintPaidQuote_changes quoteId amount).bind fun _ => hend
  | send amount memo => exact (sendToken_changes amount memo).bind fun _ => hend
  | receive token preimage => exact (receiveTokenWith_changes token preimage).bind fun _ => hend
  | checkPendingSend index => exact (checkPendingSend_changes index).bind fun _ => hend
  | checkAllPending => exact checkAllPending_changes.bind fun _ => hend
  | reclaimPending index => exact (reclaimPending_changes index).bind fun _ => hend
  | melt invoice amount => exact (meltWith_changes invoice amount).bind fun _ => hend
  | reconcileSpent => exact (Quiet.keeps reconcileSpent_leaves).bind fun _ => hend
  | restore => exact (Quiet.keeps restore_leaves).bind fun _ => hend

theorem EngineStep.matched {e e' : WalletEngine} {a : EngineCall} (he : e.books.Matched) (hstep : EngineStep e a e') :
    e'.books.Matched := by
  obtain ⟨o, hrun⟩ := hstep
  exact he.changes ((a.op.keeps a.env e he).elim hrun)

/-- No send is in flight. -/
structure NoPendingSends (e : WalletEngine) : Prop where
  pending : e.pending = []
  history : ∀ entry ∈ e.history, ¬ Books.Open entry

omit [Curve] [Bip340] [IdentityCrates] [Minicbor] [MinicborCodec] [TokenCrates] in
theorem NoPendingSends.matched {e : WalletEngine} (h : e.NoPendingSends) : e.books.Matched where
  records r hr := by
    rw [show e.books.pending = [] from h.pending] at hr
    cases hr
  distinct := by
    rw [show e.books.pending = [] from h.pending]
    exact List.nodup_nil
  entries _ entry hentry hopen := absurd hopen (h.history entry (List.mem_of_getElem? hentry))

/-- In every run from an engine with no send in flight, records and open sends of the history are one to one; the loop over
all records needs one round for each at most, and when it succeeds it has settled those that are claimed and no others. -/
theorem pending_bookkeeping {e₀ e : WalletEngine} {h : List (Step WalletEngine EngineCall)} (hstart : e₀.NoPendingSends)
    (hrun : Run EngineStep e₀ h e) :
    (∀ r ∈ e.pending, ∃ entry, e.history[r.historyIdx]? = some entry ∧ Books.Open entry ∧ entry.amount = r.amount) ∧
    (e.pending.map PendingSend.historyIdx).Nodup ∧
    (∀ i entry, e.history[i]? = some entry → Books.Open entry → ∃! r, r ∈ e.pending ∧ r.historyIdx = i) ∧
    (∀ env rounds, e.pending.length ≤ rounds → (checkPendingFrom rounds 0 []).run env e =
      (checkPendingFrom e.pending.length 0 []).run env e) ∧
    ∀ env statuses t, checkAllPending.run env e = (.ok statuses, t) → ChecksAll env e.books t.books statuses := by
  have hmatched : e.books.Matched :=
    Run.invariant_state (G := fun _ => True) (I := fun e : WalletEngine => e.books.Matched) hstart.matched
      (fun _ _ _ _ he hstep => hstep.matched he) hrun fun _ _ => trivial
  refine ⟨hmatched.records, hmatched.distinct, fun i entry hentry hopen => ?_, fun env rounds hrounds => ?_,
    fun env statuses t => checkAllPending_ok⟩
  · obtain ⟨r, hr, hidx⟩ := hmatched.entries i entry hentry hopen
    exact ⟨r, ⟨hr, hidx⟩, fun r' ⟨hr', hidx'⟩ => hmatched.eq_of_historyIdx hr' hr (hidx'.trans hidx.symm)⟩
  · exact checkPendingFrom_rounds hrounds (le_refl _) (List.nil_append _).symm

end

end WalletEngine

end

section toy
open Toy32 ToyCbor ToyEngine WalletEngine

namespace ToyBooks

scoped instance bip340 : Bip340 :=
  @Bip340.mk Toy32.crypto UInt8 (fun k => (Toy.bytes33 k).drop 1) (fun k digest => some [k + Toy.fold digest]) id

/-- Any seed has a key. -/
scoped instance identity : IdentityCrates := ⟨fun bytes => some (Toy.fold bytes : UInt8)⟩

def online : EngineEnv := env (quote 4 0)

def purse : WalletEngine := holding 0 [coin 4 "s"]

/-- The engine after its only coin was sent. -/
@[irreducible] def afterSend : WalletEngine := ((sendToken 4 none).run online purse).2

def sent (r : Outcome CashuError String × WalletEngine) : Bool := r.1.isOk && r.2.pending.length = 1

theorem purse_sends : sent ((sendToken 4 none).run online purse) = true := by decide +kernel

theorem afterSend_pending : afterSend.pending.length = 1 := by
  have hsent := purse_sends
  rw [sent, Bool.and_eq_true] at hsent
  rw [afterSend]
  exact of_decide_eq_true hsent.2

theorem send_step : EngineStep purse ⟨online, .send 4 none⟩ afterSend := by
  rw [afterSend]
  have hrun : ((EngineOp.send 4 none).exec.run online purse).2 = ((sendToken 4 none).run online purse).2 := by
    show (Exec.run (sendToken 4 none >>= fun _ => pure ()) online purse).2 = _
    rw [Exec.run_bind]
    split <;> rename_i heq <;> rw [heq]
    rfl
  exact ⟨_, Prod.ext rfl hrun⟩

end ToyBooks

open ToyBooks

theorem pending_bookkeeping_toy : afterSend.pending.length = 1 ∧ (∀ r ∈ afterSend.pending, ∃ entry,
    afterSend.history[r.historyIdx]? = some entry ∧ Books.Open entry ∧ entry.amount = r.amount) ∧
    ∀ statuses t, checkAllPending.run online afterSend = (.ok statuses, t) →
      ChecksAll online afterSend.books t.books statuses := by
  obtain ⟨hrecords, -, -, -, hall⟩ := pending_bookkeeping ⟨rfl, fun _ h => by cases h⟩ (Run.nil.snoc send_step)
  exact ⟨afterSend_pending, hrecords, hall online⟩

end toy

end Micronuts
