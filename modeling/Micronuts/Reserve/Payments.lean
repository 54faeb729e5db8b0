import Micronuts.Reserve.Bootstrap
import Micronuts.Wallet.Denominations

/-!
# What a payment leaves (`micronuts-mint`: `reserve.rs`)

A melt goes out with inputs that are worth the amount, the fee and the change that it asks for (`prepareMelt_covers`).
Whatever is answered, exactly the selected proofs are given up, or none, and what changes is saved. What is not changed is
not saved either, so after a failed payment the file has the proofs only if it had them before; and an answer that is not
JSON is taken for a failure, though the melt may have been paid (`pay_accounts_iff`).
-/

namespace Micronuts
open Exec ReserveM SwapRemove

section
variable [Crypto]

namespace ReserveWallet

/-! ### The selection -/

section selection
variable {w : ReserveWallet}

theorem takeIndices_initial (w : ReserveWallet) (target sum : UInt64) (order : List Nat) :
    w.takeIndices target sum order <+: order := by
  induction order generalizing sum with
  | nil => exact List.nil_prefix
  | cons idx order ih =>
    rw [takeIndices]
    split
    · exact List.nil_prefix
    · split
      · exact List.cons_prefix_cons.2 ⟨rfl, ih _⟩
      · exact List.nil_prefix

/-- No index is selected twice, and each is that of a proof. -/
theorem selectCovering_indices (w : ReserveWallet) (target : UInt64) :
    (w.selectCovering target).Nodup ∧ ∀ i ∈ w.selectCovering target, i < w.proofs.length := by
  have hperm := List.mergeSort_perm (List.range w.proofs.length) fun i j => decide (w.amountAt i ≤ w.amountAt j)
  have hsub : (w.selectCovering target).Sublist
      ((List.range w.proofs.length).mergeSort fun i j => decide (w.amountAt i ≤ w.amountAt j)) :=
    (takeIndices_initial w target 0 _).sublist
  refine ⟨hsub.nodup (hperm.nodup_iff.2 List.nodup_range), fun i hi => ?_⟩
  exact List.mem_range.1 (hperm.mem_iff.1 (hsub.subset hi))

theorem proofsValue_entriesAt {selected : List Nat} (h : ∀ i ∈ selected, i < w.proofs.length) :
    proofsValue (entriesAt w.proofs selected) = (selected.map fun i => (w.amountAt i).toNat).sum := by
  induction selected with
  | nil => rfl
  | cons i selected ih =>
    rw [List.forall_mem_cons] at h
    have hi := List.getElem?_eq_getElem h.1
    rw [entriesAt, List.filterMap_cons, hi]
    rw [proofsValue_cons, List.map_cons, List.sum_cons, ← ih h.2, amountAt, hi]
    rfl

end selection

variable [SerdeJson] [Curve]

/-- What a melt goes out with: the inputs are worth the amount, the fee and the change that is asked for. -/
structure ReserveMelt.Covers (m : ReserveMelt) (quoteId : String) (amountNeeded : UInt64) (w : ReserveWorld) : Prop where
  nodup : m.selected.Nodup
  bound : ∀ i ∈ m.selected, i < w.wallet.proofs.length
  balanced : ∃ inputFee, reserveFee m.keyset m.selected.length = some inputFee ∧
    proofsValue (entriesAt w.wallet.proofs m.selected) = amountNeeded.toNat + inputFee.toNat + m.changeAmount.toNat
  body : ∃ (outputs : List Value) (amounts : List UInt64), m.body =
    meltBody quoteId (entriesAt w.wallet.proofs m.selected) outputs ∧
    outputs.map (fun output => (output.index "amount").asU64) = amounts.map some ∧
    (amounts.map UInt64.toNat).sum = m.changeAmount.toNat

section prepare
variable {env : ReserveEnv} {w : ReserveWorld} {quoteId : String} {amountNeeded : UInt64}

omit [SerdeJson] in
theorem blindOutputs_amounts (keysetId : String) (amounts : List UInt64) (w : ReserveWorld) :
    (blindOutputs keysetId amounts).Ends env w fun o _ => ∀ r, o = .ok r →
      r.1.map (fun output => (output.index "amount").asU64) = amounts.map some := by
  induction amounts generalizing w with
  | nil => rintro _ ⟨⟩; rfl
  | cons amount amounts ih =>
    refine Ends.bind_run (a := env.random w.draws) rfl ?_
    refine Ends.bind_okOr (fun blinded _ => ?_) fun _ => nofun
    refine Ends.bind (ih _) (fun r t hr => ?_) (fun e t _ => nofun) fun t _ => nofun
    rintro _ ⟨⟩
    rw [List.map_cons, List.map_cons, hr r rfl]
    simp [Value.index]

theorem prepareMelt_looks (quoteId : String) (amountNeeded : UInt64) : Looks (prepareMelt quoteId amountNeeded) := by
  refine (Looks.okOr _ _).bind fun target => Looks.get.bind fun w => (Looks.okOr _ _).bind fun selectedSum => ?_
  refine (Looks.failIf _ _).bind fun _ => ensureKeyset_looks.bind fun keyset => (Looks.okOr _ _).bind fun inputFee => ?_
  refine (Looks.okOr _ _).bind fun changeAmount => (blindOutputs_looks _ _).bind ?_
  rintro ⟨outputs, pending⟩
  exact .pure _

theorem prepareMelt_covers : (prepareMelt quoteId amountNeeded).Ends env w fun o _ => ∀ m, o = .ok m →
    m.Covers quoteId amountNeeded w := by
  refine Ends.bind_okOr (fun target _ => ?_) fun _ => nofun
  refine Ends.bind_get (Ends.bind_okOr (fun selectedSum hsum => ?_) fun _ => nofun)
  refine Ends.bind_failIf (fun _ => ?_) fun _ => nofun
  refine Ends.bind (P := fun _ _ => True) trivial (fun keyset v _ => ?_) (fun e v _ => nofun) fun v _ => nofun
  refine Ends.bind_okOr (fun inputFee hfee => ?_) fun _ => nofun
  refine Ends.bind_okOr (fun changeAmount hchange => ?_) fun _ => nofun
  refine Ends.bind (blindOutputs_amounts _ _ v) ?_ (fun e v _ => nofun) fun v _ => nofun
  rintro ⟨outputs, pending⟩ u hamounts
  rintro _ ⟨⟩
  obtain ⟨hnodup, hbound⟩ := selectCovering_indices w.wallet target
  obtain ⟨overpay, hover, hleft⟩ := Option.bind_eq_some_iff.1 hchange
  have hvalue := UInt64.checkedSum_eq_some.1 hsum
  rw [UInt64.toNat_zero, Nat.zero_add, ← proofsValue_entriesAt hbound] at hvalue
  have hoverpay := UInt64.checkedSub_eq_some.1 hover
  have hchangeAmount := UInt64.checkedSub_eq_some.1 hleft
  refine ⟨hnodup, hbound, ⟨inputFee, hfee, by dsimp only; omega⟩, outputs, _, rfl, hamounts _ rfl, ?_⟩
  split
  · exact (decomposeAmount_binary changeAmount).sum
  · next hzero =>
    rw [UInt64.lt_iff_toNat_lt, UInt64.toNat_zero] at hzero
    dsimp only
    rw [List.map_nil, List.sum_nil]
    omega

end prepare

/-! ### After the answer -/

/-- The world with these proofs in the wallet. -/
def withProofs (w : ReserveWorld) (proofs : List Proof) : ReserveWorld := { w with wallet := { w.wallet with proofs } }

/-- The change of a paid melt that can be used, one signature after the other. -/
def Recovered (m : ReserveMelt) (response : Value) (change : List Proof) : Prop :=
  match (response.get "change").bind Value.asArray with
  | none => change = []
  | some signatures =>
    if m.pending.length < signatures.length then change = []
    else ∃ o, Pushes m.keyset (m.pending.zip signatures) 0 change o

section answered
variable {env : ReserveEnv} {w : ReserveWorld}

omit [SerdeJson] [Curve] in
/-- The removal finds every index that was selected, and takes nothing else. -/
theorem removeSelected_run (env : ReserveEnv) {selected : List Nat} (hnodup : selected.Nodup)
    (hbound : ∀ i ∈ selected, i < w.wallet.proofs.length) : ∃ left,
      (removeSelected selected).run env w = (.ok (), withProofs w left) ∧
      (entriesAt w.wallet.proofs selected ++ left).Perm w.wallet.proofs := by
  have hperm : (selected.mergeSort (· ≤ ·)).reverse.Perm selected :=
    (List.reverse_perm _).trans (List.mergeSort_perm ..)
  have hdown : (selected.mergeSort (· ≤ ·)).reverse.Pairwise (· > ·) := by
    have hsorted : (selected.mergeSort (· ≤ ·)).Pairwise fun i j => decide (i ≤ j) = true :=
      List.pairwise_mergeSort (fun i j k hij hjk => by simp only [decide_eq_true_eq] at *; omega)
        (fun i j => by simp; omega) selected
    have hdistinct : (selected.mergeSort (· ≤ ·)).Nodup := (List.mergeSort_perm ..).nodup_iff.2 hnodup
    rw [List.pairwise_reverse]
    refine (hsorted.and hdistinct).imp fun {i j} h => ?_
    have hle := of_decide_eq_true h.1
    have hne := h.2
    omega
  obtain ⟨left, hremove, hall⟩ := removeAll_perm hdown fun i hi => hbound i (hperm.subset hi)
  refine ⟨left, ?_, ((hperm.filterMap _).append_right left).symm.trans hall⟩
  refine (run_bind_of_ok get_run).trans ?_
  dsimp only
  rw [hremove]
  rfl

theorem AppendEnds.pushed {pending : List PendingChange} {signatures : List Value} {keyset : UpstreamKeyset}
    {expected : UInt64} {o : Outcome CashuError Unit} {t : ReserveWorld}
    (h : AppendEnds pending signatures keyset expected w o t) : o ≠ .panic ∧ ∃ change, t = pushed w change ∧
      if pending.length < signatures.length then change = []
      else ∃ o', Pushes keyset (pending.zip signatures) 0 change o' := by
  rcases h with ⟨hmany⟩ | ⟨hfew, hpushes⟩ | ⟨hfew, hpushes, -⟩ | ⟨hfew, hpushes⟩
  · refine ⟨by simp, [], by simp [ReserveWallet.pushed], ?_⟩
    rw [if_pos hmany]
  · refine ⟨by simp, _, rfl, ?_⟩
    rw [if_neg (not_lt.2 hfew)]
    exact ⟨_, hpushes⟩
  · refine ⟨by simp, _, rfl, ?_⟩
    rw [if_neg (not_lt.2 hfew)]
    exact ⟨_, hpushes⟩
  · refine ⟨by simp, _, rfl, ?_⟩
    rw [if_neg (not_lt.2 hfew)]
    exact ⟨_, hpushes⟩

theorem recoverChange_run (env : ReserveEnv) (w : ReserveWorld) (m : ReserveMelt) (response : Value) : ∃ change,
    (recoverChange response m.pending m.keyset m.changeAmount).run env w = (.ok (), pushed w change) ∧
      Recovered m response change := by
  have hnone : pushed w [] = w := by simp [pushed]
  unfold recoverChange Recovered
  rcases (response.get "change").bind Value.asArray with - | - | ⟨sig, sigs⟩
  · exact ⟨[], by rw [hnone]; rfl, rfl⟩
  · exact ⟨[], by rw [hnone]; rfl, by simpa using ⟨_, Pushes.done⟩⟩
  · obtain ⟨hreturns, change, hpushed, hrecovered⟩ :=
      (appendUnblinded_ends env w m.pending (sig :: sigs) m.keyset m.changeAmount).pushed
    refine ⟨change, ?_, hrecovered⟩
    rw [← hpushed, run_bind]
    simp only [run, attempt] at hreturns ⊢
    rcases happend : appendUnblinded m.pending (sig :: sigs) m.keyset m.changeAmount env w with ⟨o, t⟩
    rw [happend] at hreturns
    cases o with
    | ok a => rfl
    | err e => rfl
    | panic => exact absurd rfl hreturns

end answered

/-! ### How a payment ends -/

/-- The melt of a payment is ready to be posted. -/
def Posts (env : ReserveEnv) (w : ReserveWorld) (quoteId : String) (amountNeeded : UInt64) (m : ReserveMelt)
    (v : ReserveWorld) : Prop :=
  amountNeeded ≠ 0 ∧ (prepareMelt quoteId amountNeeded).run env w = (.ok m, v)

/-- What comes back for the melt. -/
def meltReply (env : ReserveEnv) (v : ReserveWorld) (m : ReserveMelt) : HttpAnswer := env.http v.sent (.post m.url m.body)

/-- What `upstream_post` makes of it. -/
def meltAnswer (env : ReserveEnv) (v : ReserveWorld) (m : ReserveMelt) : Except CashuError Value :=
  readAnswer .protocol ("upstream POST " ++ m.url) (meltReply env v m)

/-- No answer, or one with an error status. -/
def HttpError : HttpAnswer → Prop
  | .failed _ => True
  | .answered status _ _ => 400 ≤ status

/-- An answer without an error status, whose body is this JSON. -/
def Reads : HttpAnswer → Value → Prop
  | .failed _, _ => False
  | .answered status _ json, response => status < 400 ∧ json = .ok response

/-- The answer is that the melt has failed. -/
def SaysFailed (response : Value) : Prop := isPaid response = false ∧ stateOf response = "FAILED"

def Fails (reply : HttpAnswer) : Prop := HttpError reply ∨ ∃ response, Reads reply response ∧ SaysFailed response

/-- Nothing is given up for a payment that fails; for one that is paid or may still be, exactly the inputs that cover it,
against the change that can be used. The file has the proofs of the wallet. -/
inductive PayAccounts (env : ReserveEnv) (w : ReserveWorld) (quoteId : String) (amountNeeded : UInt64) :
    Outcome CashuError String → ReserveWorld → Prop
  | refused {e : CashuError} {t : ReserveWorld} (unposted : ∀ m v, ¬ Posts env w quoteId amountNeeded m v)
      (kept : t.wallet.proofs = w.wallet.proofs) (stored : t.Agrees) : PayAccounts env w quoteId amountNeeded (.err e) t
  | failed {t v : ReserveWorld} {m : ReserveMelt} (posts : Posts env w quoteId amountNeeded m v)
      (covers : m.Covers quoteId amountNeeded w) (fails : Fails (meltReply env v m))
      (kept : t.wallet.proofs = w.wallet.proofs) (stored : t.Agrees) :
      PayAccounts env w quoteId amountNeeded (.err .paymentFailed) t
  | paid {t v : ReserveWorld} {m : ReserveMelt} {response : Value} {preimage : String} {left change : List Proof}
      (posts : Posts env w quoteId amountNeeded m v) (covers : m.Covers quoteId amountNeeded w)
      (answer : Reads (meltReply env v m) response) (paid : isPaid response = true)
      (all : (entriesAt w.wallet.proofs m.selected ++ left).Perm w.wallet.proofs) (recovered : Recovered m response change)
      (proofs : t.wallet.proofs = left ++ change) (stored : t.Agrees) :
      PayAccounts env w quoteId amountNeeded (.ok preimage) t
  | other {t v : ReserveWorld} {m : ReserveMelt} {text : String}
      (posts : Posts env w quoteId amountNeeded m v) (covers : m.Covers quoteId amountNeeded w)
      (unfailed : ¬ Fails (meltReply env v m))
      (unpaid : ∀ response, Reads (meltReply env v m) response → isPaid response = false)
      (state : ∀ response, Reads (meltReply env v m) response → text = "upstream melt state ambiguous: " ++ stateOf response)
      (all : (entriesAt w.wallet.proofs m.selected ++ t.wallet.proofs).Perm w.wallet.proofs) (stored : t.Agrees) :
      PayAccounts env w quoteId amountNeeded (.err (.protocol text)) t
  | stopped {t : ReserveWorld} {history : List UpstreamRequest} {snapshot : ReserveSnapshot} {written : Bool}
      (save : env.save history snapshot = .failed written) : PayAccounts env w quoteId amountNeeded .panic t

/-- The melt, if it is posted, meets an HTTP error or an answer that is JSON. -/
def Legible (env : ReserveEnv) (w : ReserveWorld) (quoteId : String) (amountNeeded : UInt64) : Prop :=
  ∀ m v, Posts env w quoteId amountNeeded m v → HttpError (meltReply env v m) ∨ ∃ response, Reads (meltReply env v m) response

/-- The melt is posted, and answered with JSON that says anything but that it has failed. -/
def Unfailed (env : ReserveEnv) (w : ReserveWorld) (quoteId : String) (amountNeeded : UInt64) : Prop :=
  ∃ m v response, Posts env w quoteId amountNeeded m v ∧ Reads (meltReply env v m) response ∧ ¬ SaysFailed response

section replies
variable {reply : HttpAnswer} {response response' : Value}

omit [Crypto] [SerdeJson] [Curve] in
theorem Reads.unique (h : Reads reply response) (h' : Reads reply response') : response = response' := by
  cases reply with
  | failed e => exact h.elim
  | answered status text json => exact Except.ok.inj (h.2.symm.trans h'.2)

omit [Crypto] [SerdeJson] [Curve] in
theorem Reads.not_httpError (h : Reads reply response) : ¬ HttpError reply := by
  cases reply with
  | failed e => exact h.elim
  | answered status text json => exact not_le.2 h.1

omit [Crypto] [SerdeJson] [Curve] in
/-- A reply is an HTTP error, JSON, or a body that is not. -/
theorem reply_cases (label : String) (reply : HttpAnswer) :
    (HttpError reply ∧ ∃ e, readAnswer .protocol label reply = .error e) ∨
    (∃ response, Reads reply response ∧ readAnswer .protocol label reply = .ok response) ∨
      ¬ HttpError reply ∧ (∀ response, ¬ Reads reply response) ∧ ∃ e, readAnswer .protocol label reply = .error e := by
  cases reply with
  | failed e => exact .inl ⟨trivial, _, rfl⟩
  | answered status text json =>
    by_cases hstatus : 400 ≤ status
    · exact .inl ⟨hstatus, _, if_pos hstatus⟩
    · have hread : readAnswer .protocol label (.answered status text json) = _ := if_neg hstatus
      cases json with
      | ok response => exact .inr (.inl ⟨response, ⟨not_le.1 hstatus, rfl⟩, hread⟩)
      | error e => exact .inr (.inr ⟨hstatus, by simp [Reads], _, hread⟩)

end replies

section pays
variable {env : ReserveEnv} {w v : ReserveWorld} {quoteId : String} {amountNeeded : UInt64} {m : ReserveMelt}

/-- From an answer on that does not say that the melt has failed, it is accounted for, whatever the file had before. -/
theorem meltAnswered_accounts {response : Value} (hposts : Posts env w quoteId amountNeeded m v)
    (hreads : Reads (meltReply env v m) response) (h : ¬ SaysFailed response) :
    (meltAnswered m.selected m.pending m.keyset m.changeAmount response).Ends env
      { v with sent := .post m.url m.body :: v.sent } (PayAccounts env w quoteId amountNeeded) := by
  have huntouched := (prepareMelt_looks quoteId amountNeeded env w).elim hposts.2
  have hcovers := prepareMelt_covers.elim hposts.2 m rfl
  have hbound : ∀ i ∈ m.selected, i < v.wallet.proofs.length := by
    rw [huntouched.2.proofs]
    exact hcovers.bound
  obtain ⟨left, hremove, hall⟩ :=
    removeSelected_run (w := { v with sent := .post m.url m.body :: v.sent }) env hcovers.nodup hbound
  dsimp only at hall
  rw [huntouched.2.proofs] at hall
  unfold meltAnswered
  split
  · next hpaid =>
    obtain ⟨change, hrecover, hrecovered⟩ :=
      recoverChange_run env (withProofs { v with sent := .post m.url m.body :: v.sent } left) m response
    refine Ends.bind_run hremove (Ends.bind_run hrecover (Ends.bind (persist_ends env _) ?_ ?_ ?_))
    · rintro _ t (⟨-, hwallet, hagrees⟩ | ⟨ho, -⟩)
      · exact .paid hposts hcovers hreads hpaid hall hrecovered (congrArg ReserveWallet.proofs hwallet) hagrees
      · cases ho
    · rintro e t (⟨ho, -⟩ | ⟨ho, -⟩) <;> cases ho
    · rintro t (⟨ho, -⟩ | ⟨-, _, _, _, hsave⟩)
      · cases ho
      · exact .stopped hsave
  · next hpaid =>
    rw [Bool.not_eq_true] at hpaid
    have hstate : stateOf response ≠ "FAILED" := fun hstate => h ⟨hpaid, hstate⟩
    have hunfailed : ¬ Fails (meltReply env v m) := by
      rintro (herror | ⟨response', hreads', hfailed⟩)
      · exact hreads.not_httpError herror
      · obtain rfl := hreads.unique hreads'
        exact h hfailed
    have hunpaid : ∀ response', Reads (meltReply env v m) response' → isPaid response' = false := by
      intro response' hreads'
      rw [← hreads.unique hreads']
      exact hpaid
    rw [if_neg hstate]
    refine Ends.bind_run hremove (Ends.bind (persist_ends env _) ?_ ?_ ?_)
    · rintro _ t (⟨-, hwallet, hagrees⟩ | ⟨ho, -⟩)
      · have hproofs : t.wallet.proofs = left := congrArg ReserveWallet.proofs hwallet
        rw [← hproofs] at hall
        refine .other hposts hcovers hunfailed hunpaid (fun response' hreads' => ?_) hall hagrees
        rw [hreads.unique hreads']
      · cases ho
    · rintro e t (⟨ho, -⟩ | ⟨ho, -⟩) <;> cases ho
    · rintro t (⟨ho, -⟩ | ⟨-, _, _, _, hsave⟩)
      · cases ho
      · exact .stopped hsave

section kept
variable {t : ReserveWorld} {e : CashuError}

theorem Posts.unique {m' : ReserveMelt} {v' : ReserveWorld} (h : Posts env w quoteId amountNeeded m v)
    (h' : Posts env w quoteId amountNeeded m' v') : m = m' ∧ v = v' := by
  have hsame := h.2.symm.trans h'.2
  cases hsame
  exact ⟨rfl, rfl⟩

/-- Both conditions, for the melt that is posted. -/
theorem legible_and_iff (hposts : Posts env w quoteId amountNeeded m v) :
    Legible env w quoteId amountNeeded ∧ (w.Agrees ∨ Unfailed env w quoteId amountNeeded) ↔
      (HttpError (meltReply env v m) ∨ ∃ response, Reads (meltReply env v m) response) ∧
        (w.Agrees ∨ ∃ response, Reads (meltReply env v m) response ∧ ¬ SaysFailed response) := by
  constructor
  · rintro ⟨hlegible, hagrees | ⟨m', v', response, hposts', hreads⟩⟩
    · exact ⟨hlegible m v hposts, .inl hagrees⟩
    · obtain ⟨rfl, rfl⟩ := hposts.unique hposts'
      exact ⟨hlegible m v hposts, .inr ⟨response, hreads⟩⟩
  · rintro ⟨hlegible, h⟩
    refine ⟨fun m' v' hposts' => ?_, h.imp_right fun ⟨response, hreads⟩ => ⟨m, v, response, hposts, hreads⟩⟩
    obtain ⟨rfl, rfl⟩ := hposts.unique hposts'
    exact hlegible

omit [SerdeJson] [Curve] in
/-- Where nothing is saved, the file is no better than it was. -/
theorem agrees_iff (h : w.Untouched t) : t.Agrees ↔ w.Agrees :=
  ⟨ReserveWorld.Untouched.agrees ⟨h.proofs.symm, h.file.symm⟩, h.agrees⟩

theorem refused_iff (hunposted : ∀ m v, ¬ Posts env w quoteId amountNeeded m v) (h : w.Untouched t) :
    PayAccounts env w quoteId amountNeeded (.err e) t ↔
      Legible env w quoteId amountNeeded ∧ (w.Agrees ∨ Unfailed env w quoteId amountNeeded) := by
  have hlegible : Legible env w quoteId amountNeeded := fun m v hposts => absurd hposts (hunposted m v)
  have hnone : ¬ Unfailed env w quoteId amountNeeded := by
    rintro ⟨m, v, -, hposts, -⟩
    exact hunposted m v hposts
  rw [and_iff_right hlegible, or_iff_left hnone, ← agrees_iff h]
  refine ⟨fun haccounts => ?_, .refused hunposted h.proofs⟩
  rcases haccounts with ⟨-, -, hstored⟩ | ⟨hposts⟩ | - | ⟨hposts⟩
  · exact hstored
  · exact absurd hposts (hunposted _ _)
  · exact absurd hposts (hunposted _ _)

/-- A failed payment leaves the proofs alone, and is right to just when the reply says so. -/
theorem failed_iff (hposts : Posts env w quoteId amountNeeded m v) (h : w.Untouched t) :
    PayAccounts env w quoteId amountNeeded (.err .paymentFailed) t ↔ Fails (meltReply env v m) ∧ w.Agrees := by
  rw [← agrees_iff h]
  refine ⟨fun haccounts => ?_, fun ⟨hfails, hstored⟩ =>
    .failed hposts (prepareMelt_covers.elim hposts.2 m rfl) hfails h.proofs hstored⟩
  rcases haccounts with ⟨hunposted, -, -⟩ | ⟨hposts', -, hfails, -, hstored⟩
  · exact absurd hposts (hunposted _ _)
  · obtain ⟨rfl, rfl⟩ := hposts.unique hposts'
    exact ⟨hfails, hstored⟩

end kept

omit [SerdeJson] [Curve] in
theorem upstreamPost_run (env : ReserveEnv) (v : ReserveWorld) (m : ReserveMelt) :
    (attempt (upstreamPost m.url m.body)).run env v =
      (.ok (meltAnswer env v m), { v with sent := .post m.url m.body :: v.sent }) := by
  show (attempt (Exec.lift (meltAnswer env v m))).run env { v with sent := .post m.url m.body :: v.sent } = _
  rcases meltAnswer env v m with e | response
  · rfl
  · rfl

theorem posted_accounts_iff (hposts : Posts env w quoteId amountNeeded m v) :
    (meltFrom quoteId amountNeeded).Ends env w (PayAccounts env w quoteId amountNeeded) ↔
      Legible env w quoteId amountNeeded ∧ (w.Agrees ∨ Unfailed env w quoteId amountNeeded) := by
  have huntouched := (prepareMelt_looks quoteId amountNeeded env w).elim hposts.2
  have hu : w.Untouched { v with sent := .post m.url m.body :: v.sent } := ⟨huntouched.2.proofs, huntouched.2.file⟩
  have hpost := upstreamPost_run env v m
  rw [legible_and_iff hposts]
  unfold meltFrom Ends
  rw [run_bind_of_ok hposts.2, run_bind_of_ok hpost]
  rcases reply_cases ("upstream POST " ++ m.url) (meltReply env v m) with
    ⟨herror, e, hanswer⟩ | ⟨response, hreads, hanswer⟩ | ⟨hnoerror, hnone, e, hanswer⟩
  · -- an HTTP error fails the payment
    rw [meltAnswer, hanswer]
    have hnone : ¬ ∃ response, Reads (meltReply env v m) response ∧ ¬ SaysFailed response :=
      fun ⟨response, hreads, _⟩ => hreads.not_httpError herror
    rw [and_iff_right (.inl herror), or_iff_left hnone]
    exact (failed_iff hposts hu).trans (and_iff_right (.inl herror))
  · rw [meltAnswer, hanswer, and_iff_right (.inr ⟨response, hreads⟩)]
    by_cases hfailed : SaysFailed response
    · have hrun : meltAnswered m.selected m.pending m.keyset m.changeAmount response = Exec.fail .paymentFailed := by
        rw [meltAnswered, if_neg (by simp [hfailed.1]), if_pos hfailed.2]
      have hnone : ¬ ∃ response', Reads (meltReply env v m) response' ∧ ¬ SaysFailed response' := by
        rintro ⟨response', hreads', hnot⟩
        obtain rfl := hreads.unique hreads'
        exact hnot hfailed
      dsimp only
      rw [hrun, or_iff_left hnone]
      exact (failed_iff hposts hu).trans (and_iff_right (.inr ⟨response, hreads, hfailed⟩))
    · exact iff_of_true (meltAnswered_accounts hposts hreads hfailed) (.inr ⟨response, hreads, hfailed⟩)
  · -- a body that is not JSON fails the payment as well, though the reply does not say so
    rw [meltAnswer, hanswer]
    have hunread : ¬ ∃ response, Reads (meltReply env v m) response := fun ⟨response, hreads⟩ => hnone response hreads
    refine iff_of_false (fun haccounts => ?_) fun h => h.1.elim hnoerror hunread
    rcases ((failed_iff hposts hu).1 haccounts).1 with herror | ⟨response, hreads, -⟩
    · exact hnoerror herror
    · exact hnone response hreads

theorem meltFrom_accounts_iff (hpos : amountNeeded ≠ 0) :
    (meltFrom quoteId amountNeeded).Ends env w (PayAccounts env w quoteId amountNeeded) ↔
      Legible env w quoteId amountNeeded ∧ (w.Agrees ∨ Unfailed env w quoteId amountNeeded) := by
  have huntouched := prepareMelt_looks quoteId amountNeeded env w
  unfold Ends at huntouched
  rcases hprepare : (prepareMelt quoteId amountNeeded).run env w with ⟨m | e | -, v⟩
  · exact posted_accounts_iff ⟨hpos, hprepare⟩
  · rw [hprepare] at huntouched
    unfold meltFrom Ends
    rw [run_bind_of_err hprepare]
    refine refused_iff (fun m v hposts => ?_) huntouched.2
    rw [hposts.2] at hprepare
    cases hprepare
  · rw [hprepare] at huntouched
    exact absurd rfl huntouched.1

theorem pay_ends_iff {Q : Outcome CashuError String → ReserveWorld → Prop} (hpos : amountNeeded ≠ 0)
    (hbalance : amountNeeded ≤ w.wallet.balanceSats) :
    (pay quoteId amountNeeded).Ends env w Q ↔ (meltFrom quoteId amountNeeded).Ends env w Q := by
  unfold Ends
  rw [pay, run_bind_of_ok (failIf_pass hpos), run_bind_of_ok get_run]
  dsimp only
  rw [if_neg (by rw [UInt64.lt_iff_toNat_lt, not_lt]; exact UInt64.le_iff_toNat_le.1 hbalance)]

/-- With a sufficient balance, a payment accounts for every proof just when the reply to its melt can be read, and the file
has the wallet's proofs before or the melt gets an answer that makes it save. -/
theorem pay_accounts_iff (hbalance : amountNeeded ≤ w.wallet.balanceSats) :
    (pay quoteId amountNeeded).Ends env w (PayAccounts env w quoteId amountNeeded) ↔
      Legible env w quoteId amountNeeded ∧ (w.Agrees ∨ Unfailed env w quoteId amountNeeded) := by
  by_cases hzero : amountNeeded = 0
  · unfold Ends
    rw [pay, run_bind_of_err (failIf_fail hzero)]
    exact refused_iff (fun m v h => h.1 hzero) .refl
  · exact (pay_ends_iff hzero hbalance).trans (meltFrom_accounts_iff hzero)

end pays

end ReserveWallet
end

section toy
open Toy32 ReserveWallet ToyReserve

namespace ToyReserve

def fundedWallet : ReserveWallet := { empty with proofs := [⟨4, "00c0ffee", "s", (3 : UInt8), none, none⟩] }

def funded : ReserveWorld := ⟨fundedWallet, some fundedWallet.snapshot, [.get "", .get "", .get ""], 0⟩

/-- After the bootstrap that failed. -/
def stranded : ReserveWorld := ((bootstrap 3).run env start).2

/-- The upstream answers every request with this. -/
def replying (reply : HttpAnswer) : ReserveEnv := { env with http := fun _ _ => reply }

def paid : HttpAnswer := okJson (.ofFields [("state", .string "PAID")])

def garbled : HttpAnswer := .answered 200 none (.error "expected value at line 1 column 1")

/-- What a payment comes to that the upstream calls pending. -/
def pendingAnswer : Except CashuError String :=
  match ((pay "m" 1).run (replying (okJson (.ofFields [("state", .string "PENDING")]))) funded).1 with
  | .ok preimage => .ok preimage
  | .err e => .error e
  | .panic => .error .paymentFailed

theorem pendingAnswer_eq : pendingAnswer = .error (.protocol "upstream melt state ambiguous: PENDING") := by decide +kernel

theorem exists_posts {reply : HttpAnswer} {w : ReserveWorld}
    (h : ((prepareMelt "m" 1).run (replying reply) w).1.isOk = true) :
    ∃ m v, Posts (replying reply) w "m" 1 m v := by
  rcases hrun : (prepareMelt "m" 1).run (replying reply) w with ⟨m | e | -, v⟩
  · exact ⟨m, v, by decide, hrun⟩
  · rw [hrun] at h
    cases h
  · rw [hrun] at h
    cases h

end ToyReserve

/-- A melt that is paid is saved, and with it the coin of the bootstrap. -/
theorem pay_accounts_toy : (pay "m" 1).Ends (replying paid) stranded (PayAccounts (replying paid) stranded "m" 1) := by
  have hreads : Reads paid (.ofFields [("state", .string "PAID")]) := ⟨by decide, rfl⟩
  obtain ⟨m, v, hposts⟩ := @exists_posts paid stranded (by decide +kernel)
  refine (pay_accounts_iff (by decide +kernel)).2 ⟨fun _ _ _ => .inr ⟨_, hreads⟩, .inr ⟨m, v, _, hposts, hreads, ?_⟩⟩
  rintro ⟨hunpaid, -⟩
  revert hunpaid
  decide

/-- The coin that a failed bootstrap left in memory is still not in the file when the next melt has failed. And a melt that is
answered with something else than JSON is taken for one that has failed. -/
theorem failed_pay_unsaved : ((1 : UInt64) ≤ stranded.wallet.balanceSats ∧
    ¬ (pay "m" 1).Ends env stranded (PayAccounts env stranded "m" 1)) ∧
    (1 : UInt64) ≤ funded.wallet.balanceSats ∧
    ¬ (pay "m" 1).Ends (replying garbled) funded (PayAccounts (replying garbled) funded "m" 1) := by
  refine ⟨⟨by decide +kernel, fun h => ?_⟩, by decide, fun h => ?_⟩
  · have hrun : ((pay "m" 1).run env stranded).1.isOk = false ∧
        ((pay "m" 1).run env stranded).2.wallet.proofs.length = 1 ∧
        ((pay "m" 1).run env stranded).2.file.map (fun snapshot => snapshot.proofs.length) = some 0 := by decide +kernel
    unfold Ends at h
    generalize ((pay "m" 1).run env stranded).1 = o at h hrun
    generalize ((pay "m" 1).run env stranded).2 = t at h hrun
    obtain ⟨hfails, hone, hfile⟩ := hrun
    have hstored : ¬ t.Agrees := by
      intro hagrees
      obtain ⟨snapshot, hsnapshot, hnone⟩ := Option.map_eq_some_iff.1 hfile
      rw [hagrees snapshot hsnapshot, List.length_map, hone] at hnone
      cases hnone
    rcases h with ⟨-, -, hagrees⟩ | ⟨-, -, -, -, hagrees⟩ | - | ⟨-, -, -, -, -, -, hagrees⟩ | ⟨hsave⟩
    · exact hstored hagrees
    · exact hstored hagrees
    · cases hfails
    · exact hstored hagrees
    · cases hsave
  · obtain ⟨m, v, hposts⟩ := @exists_posts garbled funded (by decide +kernel)
    rw [pay_ends_iff (by decide) (by decide), posted_accounts_iff hposts] at h
    rcases h.1 m v hposts with herror | ⟨response, hreads⟩
    · exact absurd herror (by decide : ¬ 400 ≤ 200)
    · cases hreads.2

end toy

end Micronuts
