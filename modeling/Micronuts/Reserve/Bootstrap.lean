import Micronuts.Reserve.Wallet
import Micronuts.Wallet.Selection

/-!
# What a bootstrap leaves (`micronuts-mint`: `reserve.rs`)

The signatures of an upstream are credited one by one, up to the first that cannot be used (`pushUnblinded_run`). A bootstrap
that fails there returns before it saves and takes nothing back, so it is all or nothing only when nothing was pushed or
everything fits (`bootstrap_atomic_iff`).
-/

namespace Micronuts
open Exec ReserveM

section
variable [Crypto]

/-- The file, where there is one, has the proofs of the wallet. -/
def ReserveWorld.Agrees (w : ReserveWorld) : Prop :=
  ∀ snapshot, w.file = some snapshot → snapshot.proofs = w.wallet.proofs.map ProofSnap.of

/-- Neither the proofs nor the file are touched. -/
structure ReserveWorld.Untouched (w t : ReserveWorld) : Prop where
  proofs : t.wallet.proofs = w.wallet.proofs
  file : t.file = w.file

section untouched
variable {env : ReserveEnv} {w t : ReserveWorld}

theorem ReserveWorld.Untouched.refl : w.Untouched w := ⟨rfl, rfl⟩

theorem ReserveWorld.Untouched.agrees (h : w.Untouched t) (hw : w.Agrees) : t.Agrees := by
  intro snapshot hsnapshot
  rw [h.file] at hsnapshot
  rw [h.proofs]
  exact hw snapshot hsnapshot

end untouched

/-- A statement that does not panic, and leaves proofs and file alone. -/
def Looks {α : Type} (m : ReserveM α) : Prop :=
  ∀ (env : ReserveEnv) (w : ReserveWorld), m.Ends env w fun o t => o ≠ .panic ∧ w.Untouched t

namespace Looks
variable {α β : Type}

theorem bind {m : ReserveM α} {k : α → ReserveM β} (h : Looks m) (hk : ∀ a, Looks (k a)) : Looks (m >>= k) := by
  intro env w
  refine Ends.bind (h env w) (fun a t ht => (hk a env t).mono fun o u hu => ?_) (fun e t ht => ⟨nofun, ht.2⟩) ?_
  · exact ⟨hu.1, hu.2.proofs.trans ht.2.proofs, hu.2.file.trans ht.2.file⟩
  · intro t ht
    exact absurd rfl ht.1

theorem of_run {m : ReserveM α} (h : ∀ env w, ∃ o t, m.run env w = (o, t) ∧ o ≠ .panic ∧ w.Untouched t) : Looks m := by
  intro env w
  obtain ⟨o, t, hrun, ho, ht⟩ := h env w
  exact Ends.of_run hrun ⟨ho, ht⟩

theorem pure (a : α) : Looks (Pure.pure a : ReserveM α) := of_run fun _ _ => ⟨_, _, rfl, nofun, .refl⟩

theorem lift (x : Except CashuError α) : Looks (Exec.lift x : ReserveM α) :=
  fun _ _ => Ends.of_lift (fun _ _ => ⟨nofun, .refl⟩) fun _ _ => ⟨nofun, .refl⟩

theorem okOr (x : Option α) (e : CashuError) : Looks (Exec.okOr x e : ReserveM α) := by
  refine of_run fun env w => ?_
  cases x with
  | none => exact ⟨_, _, rfl, nofun, .refl⟩
  | some a => exact ⟨_, _, rfl, nofun, .refl⟩

theorem failIf (c : Prop) [Decidable c] (e : CashuError) : Looks (Exec.failIf c e : ReserveM Unit) := by
  refine of_run fun env w => ?_
  by_cases hc : c
  · exact ⟨_, _, failIf_fail hc, nofun, .refl⟩
  · exact ⟨_, _, failIf_pass hc, nofun, .refl⟩

theorem get : Looks (Exec.get : ReserveM ReserveWorld) := of_run fun _ _ => ⟨_, _, rfl, nofun, .refl⟩

theorem upstreamGet (url : String) : Looks (ReserveM.upstreamGet url) :=
  bind (of_run fun _ _ => ⟨_, _, rfl, nofun, rfl, rfl⟩) fun _ => lift _

theorem upstreamPost (url : String) (body : Value) : Looks (ReserveM.upstreamPost url body) :=
  bind (of_run fun _ _ => ⟨_, _, rfl, nofun, rfl, rfl⟩) fun _ => lift _

end Looks

variable [SerdeJson] [Curve]

namespace ReserveWallet

omit [Curve] in
theorem ensureKeyset_looks : Looks ensureKeyset := by
  refine Looks.get.bind fun w => ?_
  cases w.wallet.keyset with
  | some keyset => exact .pure _
  | none =>
    refine (Looks.upstreamGet _).bind fun keys => (Looks.lift _).bind fun keyset => ?_
    exact Looks.bind (.of_run fun _ _ => ⟨_, _, rfl, nofun, rfl, rfl⟩) fun _ => .pure _

omit [SerdeJson] in
theorem blindOutputs_looks (keysetId : String) (amounts : List UInt64) : Looks (blindOutputs keysetId amounts) := by
  induction amounts with
  | nil => exact .pure _
  | cons amount amounts ih =>
    refine Looks.bind (.of_run fun _ _ => ⟨_, _, rfl, nofun, rfl, rfl⟩) ?_
    rintro ⟨secret, blinder⟩
    exact (Looks.okOr _ _).bind fun blinded => ih.bind fun _ => .pure _

omit [SerdeJson] [Curve] in
theorem pollUntilPaid_looks (url : String) (tries : Nat) : Looks (pollUntilPaid url tries) := by
  induction tries with
  | zero => exact .pure _
  | succ tries ih =>
    refine (Looks.upstreamGet _).bind fun quote => (Looks.lift _).bind fun state => ?_
    split
    · exact .pure _
    · exact ih

theorem mintUpstream_looks (amountSat : UInt64) : Looks (mintUpstream amountSat) := by
  refine (Looks.failIf _ _).bind fun _ => ensureKeyset_looks.bind fun keyset => Looks.get.bind fun w => ?_
  refine (Looks.upstreamPost _ _).bind fun quote => (Looks.lift _).bind fun quoteId => (Looks.lift _).bind fun _ => ?_
  refine Looks.bind (.of_run fun _ _ => ⟨_, _, rfl, nofun, .refl⟩) fun tries => (pollUntilPaid_looks _ _).bind fun paid => ?_
  refine (Looks.failIf _ _).bind fun _ => (blindOutputs_looks _ _).bind ?_
  rintro ⟨outputs, pending⟩
  exact (Looks.upstreamPost _ _).bind fun minted => (Looks.lift _).bind fun signatures => .pure _

/-! ### The loop over the signatures -/

/-- The signature of an output parses, and unblinds to the proof. -/
def Usable (keyset : UpstreamKeyset) (x : PendingChange × Value) (p : Proof) : Prop := changeProof keyset x.1 x.2 = .ok p

/-- What the loop pushes, and how it ends. -/
inductive Pushes (keyset : UpstreamKeyset) :
    List (PendingChange × Value) → UInt64 → List Proof → Outcome CashuError UInt64 → Prop
  | done {total : UInt64} : Pushes keyset [] total [] (.ok total)
  | unusable {x : PendingChange × Value} {pairs : List (PendingChange × Value)} {total : UInt64} {e : CashuError}
      (error : changeProof keyset x.1 x.2 = .error e) : Pushes keyset (x :: pairs) total [] (.err e)
  | overflow {x : PendingChange × Value} {pairs : List (PendingChange × Value)} {total : UInt64} {p : Proof}
      (usable : Usable keyset x p) (large : 2 ^ 64 ≤ total.toNat + p.amount.toNat) :
      Pushes keyset (x :: pairs) total [] (.err .invalidAmount)
  | push {x : PendingChange × Value} {pairs : List (PendingChange × Value)} {total total' : UInt64} {p : Proof}
      {new : List Proof} {o : Outcome CashuError UInt64} (usable : Usable keyset x p)
      (sum : total'.toNat = total.toNat + p.amount.toNat) (rest : Pushes keyset pairs total' new o) :
      Pushes keyset (x :: pairs) total (p :: new) o

/-- The wallet with new proofs. -/
def pushed (w : ReserveWorld) (new : List Proof) : ReserveWorld :=
  { w with wallet := { w.wallet with proofs := w.wallet.proofs ++ new } }

section pushes
variable {env : ReserveEnv} {w : ReserveWorld} {keyset : UpstreamKeyset} {pairs : List (PendingChange × Value)}
  {total s : UInt64} {new : List Proof} {o : Outcome CashuError UInt64}

theorem pushUnblinded_run (env : ReserveEnv) (w : ReserveWorld) (keyset : UpstreamKeyset)
    (pairs : List (PendingChange × Value)) (total : UInt64) : ∃ new o,
      (pushUnblinded keyset pairs total).run env w = (o, pushed w new) ∧ Pushes keyset pairs total new o := by
  induction pairs generalizing w total with
  | nil => exact ⟨[], _, by simp [pushUnblinded, pushed], .done⟩
  | cons x pairs ih =>
    obtain ⟨p, sig⟩ := x
    have hnone : pushed w [] = w := by simp [pushed]
    rcases hproof : changeProof keyset p sig with e | proof
    · refine ⟨[], .err e, ?_, .unusable hproof⟩
      rw [hnone, pushUnblinded, hproof]
      rfl
    · by_cases hover : 2 ^ 64 ≤ total.toNat + proof.amount.toNat
      · refine ⟨[], .err .invalidAmount, ?_, .overflow hproof hover⟩
        have hsum : UInt64.checkedAdd total proof.amount = none := if_neg (by omega)
        rw [hnone, pushUnblinded, run_bind_of_ok (lift_run hproof), hsum]
        rfl
      · obtain ⟨new, o, hrun, hpushes⟩ := ih (pushed w [proof]) (total + proof.amount)
        have hsum : UInt64.checkedAdd total proof.amount = some (total + proof.amount) := if_pos (by omega)
        refine ⟨proof :: new, o, ?_, .push hproof (UInt64.checkedAdd_eq_some.1 hsum) hpushes⟩
        rw [pushUnblinded, run_bind_of_ok (lift_run hproof), run_bind_of_ok (okOr_run hsum)]
        refine (run_bind_of_ok modify_run).trans (hrun.trans ?_)
        simp [pushed]

theorem Pushes.all (h : Pushes keyset pairs total new (.ok s)) :
    List.Forall₂ (Usable keyset) pairs new ∧ s.toNat = total.toNat + proofsValue new := by
  generalize ho : (Outcome.ok s : Outcome CashuError UInt64) = o at h
  induction h with
  | done =>
    cases ho
    exact ⟨.nil, by simp⟩
  | unusable => cases ho
  | overflow => cases ho
  | push husable hsum _ ih =>
    obtain ⟨hall, hvalue⟩ := ih ho
    refine ⟨.cons husable hall, ?_⟩
    rw [proofsValue_cons]
    omega

/-- A loop that stops cannot use all of the signatures, or their sum does not fit. -/
theorem Pushes.not_all {e : CashuError} {all : List Proof} (h : Pushes keyset pairs total new (.err e))
    (hall : List.Forall₂ (Usable keyset) pairs all) : 2 ^ 64 ≤ total.toNat + proofsValue all := by
  generalize ho : (Outcome.err e : Outcome CashuError UInt64) = o at h
  induction h generalizing all with
  | done => cases ho
  | unusable herror =>
    obtain ⟨p, _, hp, -, -⟩ := List.forall₂_cons_left_iff.1 hall
    rw [Usable, herror] at hp
    cases hp
  | overflow husable hover =>
    obtain ⟨p, _, hp, -, rfl⟩ := List.forall₂_cons_left_iff.1 hall
    obtain rfl := Except.ok.inj (husable.symm.trans hp)
    rw [proofsValue_cons]
    omega
  | push husable hsum _ ih =>
    obtain ⟨p, ps, hp, hps, rfl⟩ := List.forall₂_cons_left_iff.1 hall
    obtain rfl := Except.ok.inj (husable.symm.trans hp)
    have hle := ih hps ho
    rw [proofsValue_cons]
    omega

theorem usable_unique {as bs : List Proof} (ha : List.Forall₂ (Usable keyset) pairs as)
    (hb : List.Forall₂ (Usable keyset) pairs bs) : as = bs := by
  refine List.right_unique_forall₂' (fun x p q hp hq => ?_) ha hb
  exact Except.ok.inj (hp.symm.trans hq)

/-- Nothing is pushed just when the first signature cannot be used. -/
theorem Pushes.eq_nil_iff (h : Pushes keyset pairs 0 new o) :
    new = [] ↔ ∀ x, pairs.head? = some x → ∃ e, changeProof keyset x.1 x.2 = .error e := by
  cases h with
  | done => simp
  | unusable herror => exact iff_of_true rfl (by rintro _ ⟨⟩; exact ⟨_, herror⟩)
  | overflow husable hover =>
    have := UInt64.toNat_lt ‹Proof›.amount
    rw [UInt64.toNat_zero] at hover
    omega
  | push husable =>
    refine iff_of_false (by simp) fun hhead => ?_
    obtain ⟨e, he⟩ := hhead _ rfl
    rw [Usable, he] at husable
    cases husable

end pushes

/-- How the signatures are appended. -/
inductive AppendEnds (pending : List PendingChange) (signatures : List Value) (keyset : UpstreamKeyset)
    (expected : UInt64) (w : ReserveWorld) : Outcome CashuError Unit → ReserveWorld → Prop
  | tooMany {e : CashuError} (many : pending.length < signatures.length) :
      AppendEnds pending signatures keyset expected w (.err e) w
  | stopped {e e' : CashuError} {new : List Proof} (few : signatures.length ≤ pending.length)
      (pushes : Pushes keyset (pending.zip signatures) 0 new (.err e')) :
      AppendEnds pending signatures keyset expected w (.err e) (pushed w new)
  | unequal {e : CashuError} {s : UInt64} {new : List Proof} (few : signatures.length ≤ pending.length)
      (pushes : Pushes keyset (pending.zip signatures) 0 new (.ok s)) (ne : s ≠ expected) :
      AppendEnds pending signatures keyset expected w (.err e) (pushed w new)
  | appended {new : List Proof} (few : signatures.length ≤ pending.length)
      (pushes : Pushes keyset (pending.zip signatures) 0 new (.ok expected)) :
      AppendEnds pending signatures keyset expected w (.ok ()) (pushed w new)

theorem Pushes.ne_panic {keyset : UpstreamKeyset} {pairs : List (PendingChange × Value)} {total : UInt64}
    {new : List Proof} : ¬ Pushes keyset pairs total new .panic := by
  intro h
  generalize ho : (Outcome.panic : Outcome CashuError UInt64) = o at h
  induction h with
  | done => cases ho
  | unusable => cases ho
  | overflow => cases ho
  | push _ _ _ ih => exact ih ho

theorem appendUnblinded_ends (env : ReserveEnv) (w : ReserveWorld) (pending : List PendingChange)
    (signatures : List Value) (keyset : UpstreamKeyset) (expected : UInt64) :
    (appendUnblinded pending signatures keyset expected).Ends env w (AppendEnds pending signatures keyset expected w) := by
  refine Ends.bind_failIf (fun hfew => ?_) .tooMany
  rw [not_lt] at hfew
  obtain ⟨new, o, hrun, hpushes⟩ := pushUnblinded_run env w keyset (pending.zip signatures) 0
  refine Ends.bind (Ends.of_run (P := fun o' t => o' = o ∧ t = pushed w new) hrun ⟨rfl, rfl⟩) ?_ ?_ ?_
  · rintro s t ⟨rfl, rfl⟩
    by_cases hne : s ≠ expected
    · exact Ends.of_run (failIf_fail hne) (.unequal hfew hpushes hne)
    · refine Ends.of_run (failIf_pass hne) ?_
      rw [not_not] at hne
      subst hne
      exact .appended hfew hpushes
  · rintro e t ⟨rfl, rfl⟩
    exact .stopped hfew hpushes
  · rintro t ⟨rfl, rfl⟩
    exact absurd hpushes Pushes.ne_panic

/-! ### All or nothing -/

omit [SerdeJson] [Curve] in
/-- A save stops the process, or the file has the proofs. -/
theorem persist_ends (env : ReserveEnv) (w : ReserveWorld) : persist.Ends env w fun o t =>
    (o = .ok () ∧ t.wallet = w.wallet ∧ t.Agrees) ∨
      o = .panic ∧ ∃ history snapshot written, env.save history snapshot = .failed written := by
  unfold Ends
  simp only [run, persist]
  rcases hfile : w.file with - | old
  · refine .inl ⟨rfl, rfl, fun snapshot hsnapshot => ?_⟩
    rw [hfile] at hsnapshot
    cases hsnapshot
  · rcases hsave : env.save w.sent w.wallet.snapshot with - | written
    · refine .inl ⟨rfl, rfl, ?_⟩
      rintro _ ⟨⟩
      rfl
    · exact .inr ⟨rfl, _, _, _, hsave⟩

/-- The credit of a bootstrap is in the wallet and its file, or nothing of it is. -/
inductive CreditsAtomically (env : ReserveEnv) (amountSat : UInt64) (w : ReserveWorld) :
    Outcome CashuError Unit → ReserveWorld → Prop
  | refused {e : CashuError} {t : ReserveWorld} (untouched : w.Untouched t) : CreditsAtomically env amountSat w (.err e) t
  | credited {t : ReserveWorld} {new : List Proof} (proofs : t.wallet.proofs = w.wallet.proofs ++ new)
      (grown : proofsValue t.wallet.proofs = proofsValue w.wallet.proofs + amountSat.toNat) (stored : t.Agrees) :
      CreditsAtomically env amountSat w (.ok ()) t
  | stopped {t : ReserveWorld} {history : List UpstreamRequest} {snapshot : ReserveSnapshot} {written : Bool}
      (save : env.save history snapshot = .failed written) : CreditsAtomically env amountSat w .panic t

/-- There are too many signatures, or the first one cannot be used, or all can and are worth the amount. -/
def Clean (keyset : UpstreamKeyset) (pending : List PendingChange) (signatures : List Value) (amountSat : UInt64) : Prop :=
  pending.length < signatures.length ∨
    (∀ x, (pending.zip signatures).head? = some x → ∃ e, changeProof keyset x.1 x.2 = .error e) ∨
    ∃ new, List.Forall₂ (Usable keyset) (pending.zip signatures) new ∧ proofsValue new = amountSat.toNat

section bootstrap
variable {env : ReserveEnv} {w v : ReserveWorld} {keyset : UpstreamKeyset} {pending : List PendingChange}
  {signatures : List Value} {amountSat : UInt64}

theorem appended_atomic_iff (huntouched : w.Untouched v) :
    (appendUnblinded pending signatures keyset amountSat >>= fun _ => persist).Ends env v
      (CreditsAtomically env amountSat w) ↔ Clean keyset pending signatures amountSat := by
  -- an error after something was pushed is the one that shows
  have hpartial : ∀ {e : CashuError} {new : List Proof},
      CreditsAtomically env amountSat w (.err e) (pushed v new) ↔ new = [] := by
    intro e new
    constructor
    · rintro ⟨hproofs, -⟩
      rw [← huntouched.proofs] at hproofs
      simpa [pushed] using hproofs
    · rintro rfl
      refine .refused ⟨?_, huntouched.file⟩
      rw [← huntouched.proofs]
      exact List.append_nil _
  have hends := appendUnblinded_ends env v pending signatures keyset amountSat
  unfold Ends at hends ⊢
  rw [run_bind]
  rcases happend : (appendUnblinded pending signatures keyset amountSat).run env v with ⟨o, t⟩
  rw [happend] at hends
  rcases hends with ⟨hmany⟩ | ⟨hfew, hpushes⟩ | ⟨hfew, hpushes, hne⟩ | @⟨new, hfew, hpushes⟩
  · exact iff_of_true (.refused huntouched) (.inl hmany)
  · refine hpartial.trans (hpushes.eq_nil_iff.trans ⟨fun h => .inr (.inl h), ?_⟩)
    rintro (hmany | hhead | ⟨all, hall, hsum⟩)
    · omega
    · exact hhead
    · have hle := hpushes.not_all hall
      have hlt := amountSat.toNat_lt
      rw [UInt64.toNat_zero] at hle
      omega
  · refine hpartial.trans (hpushes.eq_nil_iff.trans ⟨fun h => .inr (.inl h), ?_⟩)
    rintro (hmany | hhead | ⟨all, hall, hsum⟩)
    · omega
    · exact hhead
    · obtain ⟨hnew, hvalue⟩ := hpushes.all
      obtain rfl := usable_unique hall hnew
      rw [UInt64.toNat_zero, Nat.zero_add, hsum] at hvalue
      exact absurd (UInt64.toNat_inj.1 hvalue) hne
  · obtain ⟨hnew, hvalue⟩ := hpushes.all
    rw [UInt64.toNat_zero, Nat.zero_add] at hvalue
    refine iff_of_true ?_ (.inr (.inr ⟨_, hnew, hvalue.symm⟩))
    have hpersist := persist_ends env (pushed v new)
    unfold Ends at hpersist
    show CreditsAtomically env amountSat w (persist.run env (pushed v new)).1 (persist.run env (pushed v new)).2
    rcases hpersist with ⟨ho, hwallet, hagrees⟩ | ⟨ho, _, _, _, hsave⟩
    · have hproofs : (persist.run env (pushed v new)).2.wallet.proofs = w.wallet.proofs ++ new := by
        rw [hwallet, ← huntouched.proofs]
        rfl
      rw [ho]
      refine .credited hproofs ?_ hagrees
      rw [hproofs, proofsValue_append, hvalue]
    · rw [ho]
      exact .stopped hsave

/-- A bootstrap is all or nothing just when the signatures that it is returned are clean. -/
theorem bootstrap_atomic_iff : (bootstrap amountSat).Ends env w (CreditsAtomically env amountSat w) ↔
    ∀ keyset pending signatures v, (mintUpstream amountSat).run env w = (.ok (keyset, pending, signatures), v) →
      Clean keyset pending signatures amountSat := by
  have huntouched := mintUpstream_looks amountSat env w
  unfold bootstrap Ends at *
  rw [run_bind]
  rcases hmint : (mintUpstream amountSat).run env w with ⟨⟨keyset, pending, signatures⟩ | e | -, v⟩
  · rw [hmint] at huntouched
    refine (appended_atomic_iff huntouched.2).trans ⟨?_, fun h => h _ _ _ _ rfl⟩
    rintro hclean _ _ _ _ ⟨⟩
    exact hclean
  · rw [hmint] at huntouched
    exact iff_of_true (.refused huntouched.2) nofun
  · rw [hmint] at huntouched
    exact absurd rfl huntouched.1

end bootstrap

end ReserveWallet
end

section toy
open Toy32 ReserveWallet

namespace ToyReserve

scoped instance serde : SerdeJson := ⟨fun v => if let .null := v then "null" else ""⟩

def keyset : UpstreamKeyset :=
  ⟨"00c0ffee", 0, ((∅ : Finmap fun _ : UInt64 => PublicKey).insert 1 (3 : UInt8)).insert 2 (6 : UInt8)⟩

def okJson (v : Value) : HttpAnswer := .answered 200 none (.ok v)

def signature : Value := .ofFields [("amount", .number (.posInt 1)), ("C_", .string (Hex.encode (Toy.bytes33 80)))]

/-- An upstream whose quote is paid, whose second signature is missing, and whose melts fail. -/
def upstream (sent : List UpstreamRequest) (_ : UpstreamRequest) : HttpAnswer :=
  match sent.length with
  | 0 => okJson (.ofFields [("quote", .string "q"), ("request", .string "lnbc")])
  | 1 => okJson (.ofFields [("state", .string "PAID")])
  | 2 => okJson (.ofFields [("signatures", .array [signature, .null])])
  | _ => okJson (.ofFields [("state", .string "FAILED")])

def env : ReserveEnv :=
  ⟨upstream, fun n => (List.replicate 32 (UInt8.ofNat n), UInt8.ofNat (n + 1)), fun _ _ => .saved, 5⟩

def empty : ReserveWallet := ⟨"http://upstream", "sat", 1000, some keyset, []⟩

def start : ReserveWorld := ⟨empty, some empty.snapshot, [], 0⟩

end ToyReserve

open ToyReserve

/-- The first coin stays in memory when the second signature is missing. -/
theorem bootstrap_keeps_part : ¬ (bootstrap 3).Ends env start (CreditsAtomically env 3 start) := by
  intro h
  have hrun : ((bootstrap 3).run env start).1.isOk = false ∧
      ((bootstrap 3).run env start).2.wallet.proofs.length = 1 := by decide +kernel
  unfold Ends at h
  generalize ((bootstrap 3).run env start).1 = o at h hrun
  generalize ((bootstrap 3).run env start).2 = t at h hrun
  rcases h with ⟨huntouched⟩ | - | ⟨hsave⟩
  · rw [huntouched.proofs] at hrun
    exact absurd hrun.2 (by decide)
  · cases hrun.1
  · cases hsave

end toy

end Micronuts
