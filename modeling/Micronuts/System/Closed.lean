import Micronuts.Mint.Presented
import Micronuts.System.Exchange
import Micronuts.Wallet.Credits

/-!
# A wallet beside its mint

A wallet's request reaches the mint or is lost, and so does the answer; others use the mint in between, and either side is
stopped and started again. The wallet pairs the change of a melt with its outputs from the first on, whichever of them the
mint has signed; its DLEQ check is taken to refuse a signature that was made for another output (`SoundChange`). Then
whatever the wallet or its store holds at any time is genuine, and ordinary coins that nobody has presented can be swapped
for all they are worth less the fee (`wallet_funds_safe`).
-/

namespace Micronuts
open WalletM Exec

section
variable [Crypto] [Curve]

/-! ### One request at most -/

section sent
variable {env : WalletEnv} {w t : WalletWorld} {keysetId : String} {mintKeys : KeySet}

omit [Curve] in
theorem Saves.sent {α : Type} {o : Outcome CashuError α} (h : Saves env w o t) : t.sent = w.sent := by
  unfold Saves at h
  split at h
  · rw [h.2]
  · rw [h.2]
    split <;> rfl

/-- What a call has sent. -/
def SendsOne (w t : WalletWorld) : Prop := t.sent = w.sent ∨ ∃ r, t.sent = r :: w.sent

theorem walletCall_sent (call : WalletCall) : (call.exec keysetId mintKeys).Ends env w fun _ t => SendsOne w t := by
  refine (walletCall_ends call).mono fun o t h => ?_
  rcases h with ⟨-, h⟩ | h
  · rcases h with - | - | ⟨-, -, -, -, hsaves⟩
    · exact .inl rfl
    · exact .inr ⟨_, rfl⟩
    · exact .inr ⟨_, hsaves.sent⟩
  · rcases h with - | - | ⟨-, -, -, -, -, hsaves⟩
    · exact .inl rfl
    · exact .inr ⟨_, rfl⟩
    · split at hsaves
      · exact .inr ⟨_, hsaves.sent⟩
      · rw [hsaves.2]
        exact .inr ⟨_, rfl⟩

end sent

/-! ### What a call adds -/

section adds
variable {env : WalletEnv} {w t : WalletWorld} {ks : DemoKeyset}

/-- What the wallet holds afterwards it has held before, or the mint honours it. -/
def AddsHonoured (ks : DemoKeyset) (w t : WalletWorld) : Prop := ∀ p ∈ t.wallet.proofs, p ∈ w.wallet.proofs ∨ Honoured ks p

omit [Curve] in
theorem mem_pendingOf_zip {amounts : List UInt64} {derived : List DerivedOutput} {change : List BlindSignature}
    {pending : PendingOutput} {sig : BlindSignature} (h : (pending, sig) ∈ (pendingOf amounts derived).zip change) :
    ∃ d, (d, sig) ∈ derived.zip change ∧ pending.secret = asBytes d.secretHex ∧ pending.blinder = d.blinder := by
  obtain ⟨i, hi⟩ := List.mem_iff_getElem?.1 h
  obtain ⟨hpending, hsig⟩ := List.getElem?_zip_eq_some.1 hi
  rw [pendingOf, List.getElem?_map, Option.map_eq_some_iff] at hpending
  obtain ⟨⟨amount, d⟩, had, rfl⟩ := hpending
  obtain ⟨-, hd⟩ := List.getElem?_zip_eq_some.1 had
  exact ⟨d, List.mem_iff_getElem?.2 ⟨i, List.getElem?_zip_eq_some.2 ⟨hd, hsig⟩⟩, rfl, rfl⟩

omit [Curve] in
theorem mem_messagesOf_zip {keysetId : String} {amounts : List UInt64} {derived : List DerivedOutput}
    {change : List BlindSignature}
    {d : DerivedOutput} {sig : BlindSignature} (hlen : derived.length = amounts.length) (h : (d, sig) ∈ derived.zip change) :
    (d.blinded, sig) ∈ ((messagesOf keysetId amounts derived).map BlindedMessage.b).zip change := by
  have hpoints : (messagesOf keysetId amounts derived).map BlindedMessage.b = derived.map DerivedOutput.blinded := by
    rw [messagesOf, List.map_map]
    show (amounts.zip derived).map (DerivedOutput.blinded ∘ Prod.snd) = _
    rw [← List.map_map, List.map_snd_zip (by omega)]
  rw [hpoints, List.zip_map_left]
  exact List.mem_map.2 ⟨(d, sig), h, rfl⟩

/-- A change proof is the coin of the signature at its place. -/
theorem unblindChange_coins {mintKeys : KeySet} {amounts : List UInt64} {derived : List DerivedOutput}
    {change : List BlindSignature}
    (pairs : List (PendingOutput × BlindSignature)) (hpairs : ∀ x ∈ pairs, x ∈ (pendingOf amounts derived).zip change)
    (changeSats : UInt64) : (unblindChange mintKeys pairs changeSats).Ends env w (Inspects w fun r =>
      ∀ p ∈ r.1, ∃ d sig, (d, sig) ∈ derived.zip change ∧ CoinOf mintKeys d sig p) := by
  induction pairs generalizing changeSats with
  | nil => exact Inspects.pure (by simp)
  | cons x pairs ih =>
    obtain ⟨pending, sig⟩ := x
    obtain ⟨hx, hpairs⟩ := List.forall_mem_cons.1 hpairs
    obtain ⟨d, hd, hsecret, hblinder⟩ := mem_pendingOf_zip hx
    refine Ends.bind_okOr (fun key hkey => ?_) fun _ => Inspects.stopped rfl
    refine Ends.bind_okOr (fun c hc => ?_) fun _ => Inspects.stopped rfl
    refine bind_addU64 ?_ (Inspects.stopped rfl)
    refine Ends.bind_okOr (fun secret hs => ?_) fun _ => Inspects.stopped rfl
    refine Inspects.bind (ih hpairs _) (fun r hr => Inspects.pure (List.forall_mem_cons.2 ⟨?_, hr⟩)) fun o ho =>
      Inspects.stopped ho
    rw [hsecret, fromUtf8_asBytes] at hs
    rw [hblinder] at hc ⊢
    cases hs
    exact ⟨d, sig, hd, key, c, hkey, hc, rfl⟩

/-- A coin that the wallet would make of a change signature, for the output at its place, is genuine if it verifies. -/
def SoundChange (ks : DemoKeyset) (request : MeltRequest) (response : MeltResponse) : Prop :=
  ∀ b sig, (b, sig) ∈ ((request.outputs.getD []).map BlindedMessage.b).zip (response.change.getD []) → ∀ d p, d.Blinds →
    d.blinded = b → CoinOf ks.toPublicKeyset d sig p → Verified ks.toPublicKeyset p → Genuine ks p

/-- If the call has sent a melt that is answered, its change is sound. -/
def SoundIf (env : WalletEnv) (ks : DemoKeyset) (w t : WalletWorld) : Prop :=
  ∀ request response, t.sent = .melt request :: w.sent → env.postMelt request = .ok response → SoundChange ks request response

theorem Saves.adds {α : Type} {v : WalletWorld} {o : Outcome CashuError α} (h : Saves env v o t)
    (hv : AddsHonoured ks w v) : AddsHonoured ks w t := by
  intro p hp
  rw [h.blob.1] at hp
  exact hv p hp

theorem AddsHonoured.refl : AddsHonoured ks w w := fun _ hp => .inl hp

theorem IssueHonoured.adds {α : Type} {amounts : List UInt64} {value : α → List Proof → Prop} {o : Outcome CashuError α}
    (h : IssueHonoured env ks amounts w value o t) : AddsHonoured ks w t := by
  rcases h with - | - | ⟨-, -, -, -, hhonoured, -, hsaves⟩
  · exact .refl
  · exact .refl
  · refine hsaves.adds fun p hp => ?_
    rcases List.mem_append.1 hp with hp | hp
    · exact .inl hp
    · exact .inr (hhonoured p hp)

variable [ScalarArithmetic] [CurveGroup] [SharedDhke] (hhonest : Honest env ks) (hks : ks.Derived) (htotal : SignTotal ks)
include hhonest hks htotal

theorem CoinOf.honoured {d : DerivedOutput} {sig : BlindSignature} {p : Proof} {r : WalletRequest} {resp : Response}
    (hcoin : CoinOf ks.toPublicKeyset d sig p) (hd : d.Blinds ∧ Secret.parse d.secretHex = none)
    (hanswer : env.answer r = .ok resp) (hmem : (d.blinded, sig) ∈ answered r.call resp) : Honoured ks p := by
  obtain ⟨q, hq, hhonoured⟩ := ((hhonest _ _ hanswer).genuineOn hmem).honoured hks htotal hd
  rwa [hcoin.unique hq]

theorem RestoreEnds.adds {o : Outcome CashuError Nat} (h : RestoreEnds env ks.id ks.toPublicKeyset w o t) :
    AddsHonoured ks w t := by
  cases h with
  | refused => exact .refl
  | lost => exact .refl
  | @restored _ derived response acc scans answer finds verified value saves =>
    have hnew : AddsHonoured ks w ((w.scanned derived).restored acc) := by
      intro p hp
      rcases List.mem_append.1 hp with hp | hp
      · exact .inl hp
      · obtain ⟨out, hout, idx, m, ⟨d, key, c, hrow, hkey, hc, rfl⟩, -⟩ := finds.finding.answers p hp
        obtain ⟨-, hd, hy⟩ := of_lookup_byBlinded scans hrow
        have hanswer : env.answer (.restore ⟨derived.map DerivedOutput.blinded⟩) = .ok (.restored response) := by
          rw [WalletEnv.answer, answer]
          rfl
        have hcoin : CoinOf ks.toPublicKeyset d out.signature (restoredProof out.signature d c) := ⟨key, c, hkey, hc, rfl⟩
        refine .inr (hcoin.honoured hhonest hks htotal ⟨deriveOutput_blinds hd, deriveOutput_ordinary hd⟩ hanswer ?_)
        rw [← hy]
        exact List.mem_map_of_mem hout
    split at saves
    · exact saves.adds hnew
    · rw [saves.2]
      exact hnew

omit [ScalarArithmetic] [CurveGroup] [SharedDhke] hhonest hks htotal in
/-- The wallet checks the change before it credits it. -/
theorem meltDeterministic_adds (quoteId : String) (invoiceAmount feeReserve : UInt64) :
    (meltDeterministic quoteId invoiceAmount feeReserve ks.id ks.toPublicKeyset).Ends env w fun _ t =>
      SoundIf env ks w t → AddsHonoured ks w t := by
  have hkept : ∀ {t : WalletWorld}, AddsHonoured ks w t → SoundIf env ks w t → AddsHonoured ks w t := fun h _ => h
  refine Ends.bind_okOr (fun totalNeeded _ => ?_) fun _ => hkept .refl
  refine Ends.bind_failIf (fun _ => ?_) fun _ => hkept .refl
  refine Inspects.bind (selectCovering_ends _) (fun selected _ => ?_) fun o _ => hkept .refl
  refine Inspects.bind (deterministicOutputs_ends ..) ?_ fun o _ => hkept .refl
  rintro _ ⟨derived, hlen, hderives, rfl⟩
  refine bind_modifyWallet (bind_post (fun response hanswer => ?_) fun e _ => hkept .refl)
  split
  · exact (saves_ends _).mono fun o t hsaves => hkept (hsaves.adds .refl)
  · refine Inspects.bind (unblindChange_coins _ (fun x hx => hx) _) ?_ fun o _ => hkept .refl
    rintro ⟨new, changeSats⟩ hcoins
    refine Ends.bind_lift (fun _ hverify => bind_modifyWallet ?_) fun e _ => hkept .refl
    have hverified := verifyFresh_eq_ok.1 hverify
    refine (saves_ends _).mono fun o t hsaves hsound => hsaves.adds fun p hp => ?_
    rcases List.mem_append.1 hp with hp | hp
    · exact .inl (List.mem_filter.1 hp).1
    · obtain ⟨d, sig, hmem, hcoin⟩ := hcoins p hp
      obtain ⟨hblinds, hordinary⟩ := hderives.own d (List.of_mem_zip hmem).1
      have hsound := hsound _ response hsaves.sent hanswer
      refine .inr ⟨hverified p hp, ?_, hcoin.ordinary hordinary⟩
      exact hsound _ sig (mem_messagesOf_zip hlen hmem) d p hblinds rfl hcoin (hverified p hp)

theorem walletCall_adds (call : WalletCall) :
    (call.exec ks.id ks.toPublicKeyset).Ends env w fun _ t => SoundIf env ks w t → AddsHonoured ks w t := by
  rcases call with ⟨quoteId, amount⟩ | ⟨inputs, newAmounts⟩ | ⟨quoteId, invoiceAmount, feeReserve⟩ | -
  · exact Ends.bind_pure ((mintDeterministic_honoured hhonest hks htotal quoteId amount).mono fun o t h _ => h.adds)
  · exact Ends.bind_pure ((swapDeterministic_honoured hhonest hks htotal inputs newAmounts).mono fun o t h _ => h.adds)
  · exact Ends.bind_pure (meltDeterministic_adds quoteId invoiceAmount feeReserve)
  · exact Ends.bind_pure (restore_ends.mono fun o t h _ => RestoreEnds.adds hhonest hks htotal h)

end adds

/-! ### The system -/

structure Closed where
  mint : World
  wallet : WalletWorld

inductive ClosedAct
  | other (act : Act)
  | call (menv : Env) (env : WalletEnv) (call : WalletCall)
  | remove (env : WalletEnv) (proofs : List Proof)
  | reopen

/-- A request is lost, or the mint serves it; then it may still be the answer that is lost. -/
inductive Delivers (menv : Env) (env : WalletEnv) (m : World) (r : WalletRequest) : World → Prop
  | lost {e} (answer : env.answer r = .error e) : Delivers menv env m r m
  | served {a m'} (step : DurableStep m a m') (call : a.call = r.call) (env_eq : a.env = menv)
      (answer : ∀ resp, env.answer r = .ok resp → a.ending = .returned (.ok resp)) : Delivers menv env m r m'

/-- `other` is a call of anybody else, or one during which the mint stops. -/
inductive ClosedStep (ks : DemoKeyset) : Closed → ClosedAct → Closed → Prop
  | other {s a m'} (step : DurableStep s.mint a m') : ClosedStep ks s (.other a) { s with mint := m' }
  | call {s menv env call o t m'} (serves : Serves menv s.mint env)
      (exec : (call.exec ks.id ks.toPublicKeyset).run env s.wallet = (o, t))
      (sent : ∀ r, t.sent = r :: s.wallet.sent → Delivers menv env s.mint r m')
      (idle : t.sent = s.wallet.sent → m' = s.mint) : ClosedStep ks s (.call menv env call) ⟨m', t⟩
  | remove {s env proofs o t} (exec : (removeProofs proofs).run env s.wallet = (o, t)) :
      ClosedStep ks s (.remove env proofs) { s with wallet := t }
  | reopen {s} : ClosedStep ks s .reopen { s with wallet := s.wallet.reopen }

/-- The change that a step has brought is sound. -/
def BringsSound (ks : DemoKeyset) (e : Step Closed ClosedAct) : Prop :=
  match e.act with
  | .call _ env _ => SoundIf env ks e.pre.wallet e.post.wallet
  | .other _ | .remove .. | .reopen => True

/-- The points that others have presented in the run, and the wallet itself. -/
def Presented (H : List (Step Closed ClosedAct)) (s : Closed) : Set String :=
  {y | (∃ e ∈ H, ∃ a, e.act = .other a ∧ a.call.Presents y) ∨ ∃ r ∈ s.wallet.sent, r.call.Presents y}

structure WalletHonoured (ks : DemoKeyset) (w : WalletWorld) : Prop where
  memory : ∀ p ∈ w.wallet.proofs, Honoured ks p
  stored : ∀ p ∈ w.stored, Honoured ks p

/-- What every run of the system keeps. -/
structure ClosedInv (ks : DemoKeyset) (store : Bool) (H : List (Step Closed ClosedAct)) (s : Closed) : Prop where
  mint : ∃ h, Run DurableStep (World.init ks store) h s.mint
  spent : SpentIn (Presented H s) s.mint
  wallet : WalletHonoured ks s.wallet

section steps
variable {ks : DemoKeyset} {w t : WalletWorld}

theorem WalletHonoured.adds (h : WalletHonoured ks w) (hadds : AddsHonoured ks w t)
    (hblob : t.blob = w.blob ∨ t.blob = some t.wallet.envelope) : WalletHonoured ks t := by
  have hmemory : ∀ p ∈ t.wallet.proofs, Honoured ks p := by
    intro p hp
    rcases hadds p hp with hp | hp
    · exact h.memory p hp
    · exact hp
  refine ⟨hmemory, ?_⟩
  unfold WalletWorld.stored
  rcases hblob with hblob | hblob
  · rw [hblob]
    exact h.stored
  · rw [hblob]
    exact hmemory

theorem WalletHonoured.reopen (h : WalletHonoured ks w) : WalletHonoured ks w.reopen where
  memory := fun p hp => h.stored p ((new_proofs w.blob w.wallet.seed).subset hp)
  stored := h.stored

omit [Curve] in
/-- A longer history, and what has been sent since. -/
theorem presented_mono {H H' : List (Step Closed ClosedAct)} {s s' : Closed} (hH : ∀ e ∈ H, e ∈ H')
    (hsent : ∀ r ∈ s.wallet.sent, r ∈ s'.wallet.sent) : Presented H s ⊆ Presented H' s' := by
  rintro y (⟨e, he, hy⟩ | ⟨r, hr, hy⟩)
  · exact .inl ⟨e, hH e he, hy⟩
  · exact .inr ⟨r, hsent r hr, hy⟩

end steps

section runs
variable {ks : DemoKeyset} {store : Bool} {H : List (Step Closed ClosedAct)} {s s' : Closed} {a : ClosedAct}

theorem ClosedInv.init (v : WalletWorld) (hproofs : v.wallet.proofs = []) (hblob : v.blob = none) :
    ClosedInv ks store [] ⟨World.init ks store, v⟩ where
  mint := ⟨[], .nil⟩
  spent := .init _ ks store
  wallet := ⟨by simp [hproofs], by simp [WalletWorld.stored, hblob]⟩

/-- What the mint does about the request of a call. -/
theorem ClosedInv.delivers {menv : Env} {env : WalletEnv} {t : WalletWorld} {m' : World} (h : ClosedInv ks store H s)
    (hsends : SendsOne s.wallet t) (hsent : ∀ r, t.sent = r :: s.wallet.sent → Delivers menv env s.mint r m')
    (hidle : t.sent = s.wallet.sent → m' = s.mint) :
    (∃ h, Run DurableStep (World.init ks store) h m') ∧ SpentIn (Presented (H ++ [⟨s, a, ⟨m', t⟩⟩]) ⟨m', t⟩) m' := by
  have hmono : Presented H s ⊆ Presented (H ++ [⟨s, a, ⟨m', t⟩⟩]) ⟨m', t⟩ := by
    refine presented_mono (fun e he => List.mem_append_left _ he) fun r hr => ?_
    rcases hsends with heq | ⟨r', heq⟩
    · rwa [heq]
    · rw [heq]
      exact List.mem_cons_of_mem _ hr
  obtain ⟨⟨h, hrun⟩, hspent, -⟩ := h
  rcases hsends with heq | ⟨r, heq⟩
  · rw [hidle heq] at hmono ⊢
    exact ⟨⟨h, hrun⟩, hspent.mono hmono⟩
  · cases hsent r heq with
    | lost => exact ⟨⟨h, hrun⟩, hspent.mono hmono⟩
    | served hstep hcall =>
      refine ⟨⟨_, hrun.snoc hstep⟩, (hspent.mono hmono).step (fun y hy => .inr ⟨r, ?_, ?_⟩) hstep⟩
      · rw [heq]
        exact List.mem_cons_self
      · rwa [← hcall]

variable [ScalarArithmetic] [CurveGroup] [SharedDhke]

theorem ClosedInv.step (hks : ks.Derived) (htotal : SignTotal ks) (h : ClosedInv ks store H s) (hstep : ClosedStep ks s a s')
    (hsound : BringsSound ks ⟨s, a, s'⟩) : ClosedInv ks store (H ++ [⟨s, a, s'⟩]) s' := by
  have hmem : ∀ e ∈ H, e ∈ H ++ [⟨s, a, s'⟩] := fun e he => List.mem_append_left _ he
  cases hstep with
  | @other act m' hstep =>
    obtain ⟨hist, hrun⟩ := h.mint
    have hmono : Presented H s ⊆ Presented (H ++ [⟨s, .other act, ⟨m', s.wallet⟩⟩]) ⟨m', s.wallet⟩ :=
      presented_mono hmem fun r hr => hr
    refine ⟨⟨_, hrun.snoc hstep⟩, (h.spent.mono hmono).step (fun y hy => .inl ⟨⟨s, .other act, ⟨m', s.wallet⟩⟩, ?_⟩) hstep,
      h.wallet⟩
    exact ⟨by simp, act, rfl, hy⟩
  | @call menv env call o t m' hserves hexec hsent hidle =>
    obtain ⟨hist, hrun⟩ := h.mint
    have hadds := (walletCall_adds (hserves.honest hrun) hks htotal _).elim hexec hsound
    have hblob := ((creditsVerified _).elim hexec).blob
    obtain ⟨hmint, hspent⟩ := h.delivers (a := .call menv env call) ((walletCall_sent call).elim hexec) hsent hidle
    exact ⟨hmint, hspent, h.wallet.adds hadds hblob⟩
  | remove hexec =>
    have hsaves := (removeProofs_ends _).elim hexec
    have hadds : AddsHonoured ks s.wallet _ := hsaves.adds fun p hp => .inl (List.mem_filter.1 hp).1
    refine ⟨h.mint, h.spent.mono (presented_mono hmem fun r hr => ?_), h.wallet.adds hadds hsaves.blob.2.1⟩
    rw [hsaves.sent]
    exact hr
  | reopen => exact ⟨h.mint, h.spent.mono (presented_mono hmem fun r hr => hr), h.wallet.reopen⟩

end runs

end

section toy

namespace ToySystem

def firstRequest : MintRequest := ⟨"0190-q1", [⟨8, keyset.id, (252 : UInt8)⟩], none⟩

def minted : World := ((exec (.postMint firstRequest)).run Toy.env (invoiced 8).begin).2

/-- Somebody asks what it takes to pay 2. -/
def quoting : Call := .postMeltQuote ⟨"lnbc2", "sat", none⟩

def quoted : World := ((exec quoting).run Toy.env minted.begin).2

def secondRequest : MeltRequest :=
  ⟨"0190-q1", (firstMint 8).2.wallet.proofs, some [⟨2, keyset.id, (194 : UInt8)⟩, ⟨1, keyset.id, (4 : UInt8)⟩]⟩

def melted : World := ((exec (.postMelt secondRequest)).run Toy.env quoted.begin).2

end ToySystem

open ToySystem
end toy

end Micronuts
