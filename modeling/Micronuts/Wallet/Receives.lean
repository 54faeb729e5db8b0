import Micronuts.Wallet.Bookkeeping
import Micronuts.Wallet.Reclaims

/-!
# Receiving a token (`micronuts-wallet-core`: `engine.rs`)

Each group of a token is swapped and saved for itself. A receive is all or nothing just when all groups arrive and add up
in 64 bits, or the first of them is refused before anything is credited.
-/

namespace Micronuts
open WalletM Exec

section
variable [Crypto] [Curve]

namespace WalletEngine
variable [Bip340]

/-! ### One group -/

/-- The inputs of a group; their sum and their fee fit in 64 bits. -/
structure GroupFits (e : WalletEngine) (ctx : UnlockContext) (group : TokenV4Token) (inputs : List Proof) : Prop where
  unlocked : group.proofs.mapM (unlockInput ctx (resolveV3KeysetPrefix group.keysetId e.keysetId)) = .ok inputs
  sum : proofsValue inputs < 2 ^ 64
  fee : e.feePpk.toNat * inputs.length < 2 ^ 64

/-- What is left of a group after the fee. -/
structure GroupTerms (e : WalletEngine) (ctx : UnlockContext) (group : TokenV4Token) (inputs : List Proof)
    (net : UInt64) : Prop
    extends GroupFits e ctx group inputs where
  net : proofsValue inputs = feeFor e.feePpk inputs.length + net.toNat

/-- The sum or the fee of a group does not fit. -/
def GroupOverflows (e : WalletEngine) (ctx : UnlockContext) (group : TokenV4Token) : Prop :=
  ∃ inputs, group.proofs.mapM (unlockInput ctx (resolveV3KeysetPrefix group.keysetId e.keysetId)) = .ok inputs ∧
    (2 ^ 64 ≤ proofsValue inputs ∨ 2 ^ 64 ≤ e.feePpk.toNat * inputs.length)

/-- The group is refused, and nothing is credited. -/
inductive Refuses (env : EngineEnv) (e : WalletEngine) (ctx : UnlockContext) (group : TokenV4Token) : Prop
  | locked {x} (fails : group.proofs.mapM (unlockInput ctx (resolveV3KeysetPrefix group.keysetId e.keysetId)) = .error x)
  | overpriced {inputs} (fits : GroupFits e ctx group inputs) (short : proofsValue inputs < feeFor e.feePpk inputs.length)
  | unswapped {inputs net} (terms : GroupTerms e ctx group inputs net)
      (fails : ∀ derived fresh, ¬ SwapLands env e inputs (decomposeAmount net) derived fresh)
      (indices : ¬ PastLast (env.wallet e.calls) e.world e.keysetId 0 (decomposeAmount net).length)

/-- How the receive of a group ends. -/
inductive GroupEnds (env : EngineEnv) (e : WalletEngine) (ctx : UnlockContext) (group : TokenV4Token) :
    Outcome CashuError UInt64 → WalletEngine → Prop
  | overflowed {o t} (overflows : GroupOverflows e ctx group) : GroupEnds env e ctx group o t
  | refused {x t} (refuses : Refuses env e ctx group) (proofs : t.proofs = e.proofs) : GroupEnds env e ctx group (.err x) t
  | pastLast {inputs net t} (terms : GroupTerms e ctx group inputs net)
      (past : PastLast (env.wallet e.calls) e.world e.keysetId 0 (decomposeAmount net).length)
      (proofs : t.proofs = e.proofs) : GroupEnds env e ctx group .panic t
  | unsaved {inputs net derived fresh x t} (terms : GroupTerms e ctx group inputs net)
      (lands : SwapLands env e inputs (decomposeAmount net) derived fresh)
      (unsaved : ¬ Arrives env e inputs (decomposeAmount net) derived fresh) (proofs : t.proofs = e.proofs ++ fresh) :
      GroupEnds env e ctx group (.err x) t
  | arrived {inputs net derived fresh} (terms : GroupTerms e ctx group inputs net)
      (arrives : Arrives env e inputs (decomposeAmount net) derived fresh) :
      GroupEnds env e ctx group (.ok net) (e.swapped inputs (decomposeAmount net) derived fresh)

section group
variable {env : EngineEnv} {e : WalletEngine} {ctx : UnlockContext} {group : TokenV4Token}

omit [Curve] in
theorem GroupTerms.unique {inputs inputs' : List Proof} {net net' : UInt64} (h : GroupTerms e ctx group inputs net)
    (h' : GroupTerms e ctx group inputs' net') : inputs = inputs' ∧ net = net' := by
  obtain rfl := Except.ok.inj (h.unlocked.symm.trans h'.unlocked)
  have hnet := h.net.symm.trans h'.net
  exact ⟨rfl, UInt64.toNat_inj.1 (by omega)⟩

omit [Curve] in
theorem GroupFits.not_overflows {inputs : List Proof} (h : GroupFits e ctx group inputs) : ¬ GroupOverflows e ctx group := by
  rintro ⟨inputs', hinputs', hover⟩
  obtain rfl := Except.ok.inj (h.unlocked.symm.trans hinputs')
  have hsum := h.sum
  have hfee := h.fee
  omega

theorem Refuses.not_overflows (h : Refuses env e ctx group) : ¬ GroupOverflows e ctx group := by
  cases h with
  | locked hfails =>
    rintro ⟨inputs, hinputs, -⟩
    cases hfails.symm.trans hinputs
  | overpriced hfits => exact hfits.not_overflows
  | unswapped hterms => exact hterms.not_overflows

/-- A group that is refused has nothing that lands. -/
theorem Refuses.not_lands (h : Refuses env e ctx group) {inputs fresh : List Proof} {net : UInt64}
    {derived : List DerivedOutput} (hterms : GroupTerms e ctx group inputs net) :
    ¬ SwapLands env e inputs (decomposeAmount net) derived fresh := by
  cases h with
  | locked hfails => cases hfails.symm.trans hterms.unlocked
  | overpriced hfits hshort =>
    obtain rfl := Except.ok.inj (hfits.unlocked.symm.trans hterms.unlocked)
    have hnet := hterms.net
    omega
  | unswapped hterms' hfails =>
    obtain ⟨rfl, rfl⟩ := hterms.unique hterms'
    exact hfails derived fresh

omit [Bip340] in
/-- What lands is worth something. -/
theorem value_pos {inputs fresh : List Proof} {net : UInt64} {derived : List DerivedOutput}
    (h : SwapLands env e inputs (decomposeAmount net) derived fresh) : proofsValue fresh = net.toNat ∧ 0 < net.toNat := by
  refine ⟨by rw [h.value, (decomposeAmount_binary net).sum], Nat.pos_of_ne_zero fun hzero => ?_⟩
  exact h.nonempty (decomposeAmount_eq_nil.2 (UInt64.toNat_inj.1 hzero))

theorem receiveGroup_ends : (receiveGroup ctx group).Ends env e (GroupEnds env e ctx group) := by
  refine Ends.bind_get (Ends.bind_lift (fun inputs hinputs => ?_) fun x hx => .refused (.locked hx) rfl)
  by_cases hfits : proofsValue inputs < 2 ^ 64 ∧ e.feePpk.toNat * inputs.length < 2 ^ 64
  · have hfits : GroupFits e ctx group inputs := ⟨hinputs, hfits.1, hfits.2⟩
    obtain ⟨total, htotal, hvalue⟩ := @sumAmounts_run _ env e inputs 0 (by simpa using hfits.sum)
    obtain ⟨fee, hfee, hfeeFor⟩ := inputFee_run env hfits.fee
    rw [UInt64.toNat_zero, Nat.zero_add] at hvalue
    refine Ends.bind_run htotal (Ends.bind_run hfee (Ends.bind_okOr (fun net hnet => ?_) fun hnone => ?_))
    · have hterms : GroupTerms e ctx group inputs net :=
        ⟨hfits, by rw [← hvalue, ← hfeeFor]; exact UInt64.checkedSub_eq_some.1 hnet⟩
      have hswap := (@swapDeterministic_rotates _ _ (env.wallet e.calls) e.world e.keysetId e.keys inputs
        (decomposeAmount net)).and swapDeterministic_panic
      refine bind_callWallet hswap (fun fresh w h => ?_) (fun x w h => ?_) fun w h => ?_
      · obtain ⟨⟨hstop, -, -⟩ | - | ⟨hlands, hvalue, hsaves⟩, -⟩ := h
        · cases hstop
        · obtain rfl := hvalue fresh rfl
          obtain rfl := hsaves.of_ok rfl
          exact Ends.bind_run (verifyOrRemove_run hlands.verified)
            (Ends.pure (.arrived hterms ⟨hlands, hsaves.isOk_iff.1 rfl⟩))
      · have hindices : ¬ PastLast (env.wallet e.calls) e.world e.keysetId 0 (decomposeAmount net).length := fun hpast => by
          cases h.2.2 hpast
        obtain ⟨⟨-, hnot, -⟩ | ⟨-, -, hnot⟩ | ⟨hlands, -, hsaves⟩, -⟩ := h
        · exact .refused (.unswapped hterms hnot hindices) rfl
        · exact .refused (.unswapped hterms hnot hindices) rfl
        · refine .unsaved hterms hlands (fun harrives => by cases hsaves.isOk_iff.2 harrives.saved) ?_
          obtain ⟨blob, rfl⟩ := hsaves.proofs
          rfl
      · have hpast := h.2.1 rfl
        obtain ⟨⟨-, -, -⟩ | - | ⟨-, -, hsaves⟩, -⟩ := h
        · exact .pastLast hterms hpast rfl
        · exact absurd rfl hsaves.ne_panic
    · refine .refused (.overpriced hfits ?_) rfl
      rw [← hvalue, ← hfeeFor]
      by_contra hle
      have hsome := UInt64.checkedSub_eq_some.2 (show total.toNat = fee.toNat + (total - fee).toNat by
        rw [UInt64.toNat_sub_of_le _ _ (UInt64.le_iff_toNat_le.2 (by omega))]
        omega)
      cases hnone.symm.trans hsome
  · exact .overflowed ⟨inputs, hinputs, by omega⟩

end group

/-! ### All groups -/

/-- Group after group arrives, and they come to `n` in all. -/
inductive AllArrive (env : EngineEnv) (ctx : UnlockContext) : WalletEngine → List TokenV4Token → Nat → WalletEngine → Prop
  | nil {e} : AllArrive env ctx e [] 0 e
  | cons {e u group groups inputs net derived fresh n} (terms : GroupTerms e ctx group inputs net)
      (arrives : Arrives env e inputs (decomposeAmount net) derived fresh)
      (rest : AllArrive env ctx (e.swapped inputs (decomposeAmount net) derived fresh) groups n u) :
      AllArrive env ctx e (group :: groups) (net.toNat + n) u

/-- With `n` received so far, a sum or a fee that the receive gets to does not fit in 64 bits. -/
inductive Overflows (env : EngineEnv) (ctx : UnlockContext) : WalletEngine → List TokenV4Token → Nat → Prop
  | group {e group groups n} (overflows : GroupOverflows e ctx group) : Overflows env ctx e (group :: groups) n
  | total {e group groups inputs net derived fresh n} (terms : GroupTerms e ctx group inputs net)
      (arrives : Arrives env e inputs (decomposeAmount net) derived fresh) (past : 2 ^ 64 ≤ n + net.toNat) :
      Overflows env ctx e (group :: groups) n
  | later {e group groups inputs net derived fresh n} (terms : GroupTerms e ctx group inputs net)
      (arrives : Arrives env e inputs (decomposeAmount net) derived fresh)
      (rest : Overflows env ctx (e.swapped inputs (decomposeAmount net) derived fresh) groups (n + net.toNat)) :
      Overflows env ctx e (group :: groups) n

/-- How the receive of groups ends, with `total` received so far. -/
inductive GroupsEnd (env : EngineEnv) (ctx : UnlockContext) (e : WalletEngine) (groups : List TokenV4Token) (total : UInt64) :
    Outcome CashuError UInt64 → WalletEngine → Prop
  | overflowed {o t} (overflows : Overflows env ctx e groups total.toNat) : GroupsEnd env ctx e groups total o t
  | arrived {n sum t} (arrive : AllArrive env ctx e groups n t) (sum_eq : sum.toNat = total.toNat + n) :
      GroupsEnd env ctx e groups total (.ok sum) t
  | refused {group rest x t} (first : groups = group :: rest) (refuses : Refuses env e ctx group)
      (proofs : t.proofs = e.proofs) : GroupsEnd env ctx e groups total (.err x) t
  | credited {x t} (more : proofsValue e.proofs < proofsValue t.proofs) : GroupsEnd env ctx e groups total (.err x) t
  | panicked {t} : GroupsEnd env ctx e groups total .panic t

section groups
variable {env : EngineEnv} {e t u : WalletEngine} {ctx : UnlockContext} {group : TokenV4Token} {groups : List TokenV4Token}
  {n : Nat} {total : UInt64}

theorem AllArrive.value (h : AllArrive env ctx e groups n u) : proofsValue u.proofs = proofsValue e.proofs + n := by
  induction h with
  | nil => rfl
  | cons hterms harrives _ ih =>
    rw [ih, swapped_proofs, proofsValue_append, (value_pos harrives.lands).1, Nat.add_assoc]

theorem AllArrive.not_overflows {n' : Nat} (h : AllArrive env ctx e groups n u) (hfits : n' + n < 2 ^ 64) :
    ¬ Overflows env ctx e groups n' := by
  induction h generalizing n' with
  | nil => rintro ⟨⟩
  | cons hterms harrives _ ih =>
    intro hover
    cases hover with
    | group hover => exact hterms.not_overflows hover
    | total hterms' _ hpast =>
      obtain ⟨-, rfl⟩ := hterms.unique hterms'
      omega
    | later hterms' harrives' hrest =>
      obtain ⟨rfl, rfl⟩ := hterms.unique hterms'
      obtain ⟨rfl, rfl⟩ := harrives.unique harrives'
      exact ih (by omega) hrest

theorem Refuses.not_overflow (h : Refuses env e ctx group) : ¬ Overflows env ctx e (group :: groups) n := by
  intro hover
  cases hover with
  | group hover => exact h.not_overflows hover
  | total hterms harrives => exact h.not_lands hterms harrives.lands
  | later hterms harrives => exact h.not_lands hterms harrives.lands

/-- A group that arrives is received. -/
theorem receiveGroup_run {inputs fresh : List Proof} {net : UInt64} {derived : List DerivedOutput}
    (hterms : GroupTerms e ctx group inputs net) (harrives : Arrives env e inputs (decomposeAmount net) derived fresh) :
    (receiveGroup ctx group).run env e = (.ok net, e.swapped inputs (decomposeAmount net) derived fresh) := by
  rcases hrun : (receiveGroup ctx group).run env e with ⟨o, t⟩
  cases receiveGroup_ends.elim hrun with
  | overflowed hover => exact absurd hover hterms.not_overflows
  | refused hrefuses => exact absurd harrives.lands (hrefuses.not_lands hterms)
  | pastLast hterms' hpast =>
    obtain ⟨rfl, rfl⟩ := hterms.unique hterms'
    exact absurd hpast harrives.lands.fits.not_pastLast
  | unsaved hterms' hlands hunsaved =>
    obtain ⟨rfl, rfl⟩ := hterms.unique hterms'
    obtain ⟨rfl, rfl⟩ := harrives.lands.unique hlands
    exact absurd harrives hunsaved
  | arrived hterms' harrives' =>
    obtain ⟨rfl, rfl⟩ := hterms.unique hterms'
    obtain ⟨rfl, rfl⟩ := harrives.unique harrives'
    rfl

theorem AllArrive.run (h : AllArrive env ctx e groups n u) (hfits : total.toNat + n < 2 ^ 64) :
    ∃ sum, (receiveGroups ctx groups total).run env e = (.ok sum, u) ∧ sum.toNat = total.toNat + n := by
  induction h generalizing total with
  | nil => exact ⟨total, rfl, rfl⟩
  | @cons e u group groups inputs net derived fresh n hterms harrives _ ih =>
    have hadd : (total + net).toNat = total.toNat + net.toNat := by
      rw [UInt64.toNat_add, Nat.mod_eq_of_lt (by omega)]
    obtain ⟨sum, hrun, hsum⟩ := @ih (total + net) (by omega)
    refine ⟨sum, ?_, by omega⟩
    rw [receiveGroups, run_bind_of_ok (receiveGroup_run hterms harrives), run_bind_of_ok (addU64_run (by omega)), hrun]

theorem Refuses.run (h : Refuses env e ctx group) :
    ∃ x t, (receiveGroup ctx group).run env e = (.err x, t) ∧ t.proofs = e.proofs := by
  rcases hrun : (receiveGroup ctx group).run env e with ⟨o, t⟩
  cases receiveGroup_ends.elim hrun with
  | overflowed hover => exact absurd hover h.not_overflows
  | refused _ hproofs => exact ⟨_, t, rfl, hproofs⟩
  | pastLast hterms hpast =>
    cases h with
    | locked hfails => cases hfails.symm.trans hterms.unlocked
    | overpriced hfits hshort =>
      obtain rfl := Except.ok.inj (hfits.unlocked.symm.trans hterms.unlocked)
      have hnet := hterms.net
      omega
    | unswapped hterms' _ hindices =>
      obtain ⟨rfl, rfl⟩ := hterms.unique hterms'
      exact absurd hpast hindices
  | unsaved hterms hlands => exact absurd hlands (h.not_lands hterms)
  | arrived hterms harrives => exact absurd harrives.lands (h.not_lands hterms)

/-- A round of the loop, and the rounds after it. -/
theorem GroupsEnd.later {inputs fresh : List Proof} {net : UInt64} {derived : List DerivedOutput}
    {o : Outcome CashuError UInt64}
    (hterms : GroupTerms e ctx group inputs net) (harrives : Arrives env e inputs (decomposeAmount net) derived fresh)
    (hadd : (total + net).toNat = total.toNat + net.toNat)
    (h : GroupsEnd env ctx (e.swapped inputs (decomposeAmount net) derived fresh) groups (total + net) o t) :
    GroupsEnd env ctx e (group :: groups) total o t := by
  have hvalue : proofsValue e.proofs < proofsValue (e.swapped inputs (decomposeAmount net) derived fresh).proofs := by
    have hpos := value_pos harrives.lands
    rw [swapped_proofs, proofsValue_append]
    omega
  cases h with
  | overflowed hover => exact .overflowed (.later hterms harrives (hadd ▸ hover))
  | arrived harrive hsum => exact .arrived (.cons hterms harrives harrive) (by omega)
  | refused _ _ hproofs => exact .credited (hproofs ▸ hvalue)
  | credited hmore => exact .credited (hvalue.trans hmore)
  | panicked => exact .panicked

theorem receiveGroups_ends : (receiveGroups ctx groups total).Ends env e (GroupsEnd env ctx e groups total) := by
  induction groups generalizing e total with
  | nil => exact Ends.pure (.arrived .nil rfl)
  | cons group groups ih =>
    refine Ends.bind receiveGroup_ends (fun net t h => ?_) (fun x t h => ?_) fun t h => .panicked
    · rcases h with hover | - | - | - | ⟨hterms, harrives⟩
      · exact GroupsEnd.overflowed (.group hover)
      · by_cases hfits : total.toNat + net.toNat < 2 ^ 64
        · have hadd : (total + net).toNat = total.toNat + net.toNat := by
            rw [UInt64.toNat_add, Nat.mod_eq_of_lt hfits]
          exact Ends.bind_run (addU64_run hfits) (ih.mono fun o u h => h.later hterms harrives hadd)
        · exact GroupsEnd.overflowed (.total hterms harrives (Nat.le_of_not_lt hfits))
    · rcases h with hover | ⟨hrefuses, hproofs⟩ | - | ⟨-, hlands, -, hproofs⟩
      · exact .overflowed (.group hover)
      · exact .refused rfl hrefuses hproofs
      · have hpos := value_pos hlands
        refine .credited ?_
        rw [hproofs, proofsValue_append]
        omega

end groups

/-! ### The token -/

section receive
variable [IdentityCrates] [Minicbor] [TokenCrates]

/-- The receive gets to the groups. -/
structure Enters (env : EngineEnv) (e : WalletEngine) (token : TokenV4) (preimage : Option String) (ctx : UnlockContext) :
    Prop where
  connected : e.keysetId ≠ ""
  mint : trimSlashes token.mint = e.mintUrl
  unlocks : ∃ identity, deriveIdentity e.seed = .ok identity ∧ ctx = { identity, preimage, now := env.now e.calls }

/-- All of the token is in the wallet and has its entry, or nothing of it; and no sum and no fee has overflowed. -/
structure AllOrNothing (env : EngineEnv) (e t : WalletEngine) (token : TokenV4) (preimage : Option String)
    (o : Outcome CashuError UInt64) : Prop where
  received : ∀ total, o = .ok total → proofsValue t.proofs = proofsValue e.proofs + total.toNat ∧
    ∃ ts, t.history = e.history ++ [⟨.receive, total, "ecash token", ts, .complete⟩]
  failed : ∀ x, o = .err x → proofsValue t.proofs = proofsValue e.proofs ∧ t.history = e.history
  returns : o ≠ .panic
  fits : ∀ ctx, Enters env e token preimage ctx → ¬ Overflows env ctx e token.tokens 0

/-- The token is refused as a whole, or all its groups arrive, or the first one is refused. -/
inductive ReceivesWhole (env : EngineEnv) (e : WalletEngine) (token : TokenV4) (preimage : Option String) : Prop
  | stopped (stops : ∀ ctx, ¬ Enters env e token preimage ctx)
  | arrives {ctx n u} (enters : Enters env e token preimage ctx) (arrive : AllArrive env ctx e token.tokens n u)
      (fits : n < 2 ^ 64)
  | refused {ctx group groups} (enters : Enters env e token preimage ctx) (first : token.tokens = group :: groups)
      (refuses : Refuses env e ctx group)

variable {env : EngineEnv} {e t : WalletEngine} {tokenStr : String} {preimage : Option String} {token : TokenV4}
  {ctx : UnlockContext} {o : Outcome CashuError UInt64}

omit [Curve] [Minicbor] [TokenCrates] in
theorem Enters.unique {ctx' : UnlockContext} (h : Enters env e token preimage ctx) (h' : Enters env e token preimage ctx') :
    ctx = ctx' := by
  obtain ⟨identity, hidentity, rfl⟩ := h.unlocks
  obtain ⟨identity', hidentity', rfl⟩ := h'.unlocks
  rw [Except.ok.inj (hidentity.symm.trans hidentity')]

omit [Curve] [Bip340] [IdentityCrates] in
theorem decodedToken_run (h : decodeTokenAny tokenStr = .ok token) : (decodedToken tokenStr).run env e = (.ok token, e) :=
  lift_run (Except.mapError_eq_ok.2 h)

theorem receiveTokenWith_stopped (hdecode : decodeTokenAny tokenStr = .ok token)
    (hstops : ∀ ctx, ¬ Enters env e token preimage ctx) :
    (receiveTokenWith tokenStr preimage).Ends env e fun o t => (∃ x, o = .err x) ∧ t = e := by
  refine bind_ensureConnected (fun hconnected => Ends.bind_run (decodedToken_run hdecode) (Ends.bind_get ?_)) fun x =>
    ⟨⟨x, rfl⟩, rfl⟩
  refine Ends.bind_failIf (fun hmint => ?_) fun _ => ⟨⟨_, rfl⟩, rfl⟩
  refine Ends.bind_lift (fun identity hidentity => ?_) fun x _ => ⟨⟨x, rfl⟩, rfl⟩
  rw [Except.mapError_eq_ok] at hidentity
  exact absurd ⟨hconnected, not_not.1 hmint, identity, hidentity, rfl⟩ (hstops _)

theorem receiveTokenWith_enters (hdecode : decodeTokenAny tokenStr = .ok token) (henters : Enters env e token preimage ctx) :
    (receiveTokenWith tokenStr preimage).run env e =
      (receiveGroups ctx token.tokens 0 >>= fun total => record .receive total "ecash token" >>= fun _ => pure total).run
        env e := by
  obtain ⟨hconnected, hmint, identity, hidentity, rfl⟩ := henters
  rw [receiveTokenWith, run_bind_of_ok (ensureConnected_run hconnected), run_bind_of_ok (decodedToken_run hdecode),
    run_bind_of_ok get_run, run_bind_of_ok (failIf_pass (not_not.2 hmint)),
    run_bind_of_ok (lift_run (Except.mapError_eq_ok.2 hidentity)),
    run_bind_of_ok (show clock.run env e = (.ok (env.now e.calls), e) from rfl)]

section recorded
variable {n : Nat} {u : WalletEngine} {group : TokenV4Token} {groups : List TokenV4Token}
  (henters : Enters env e token preimage ctx)
  (hrun : (receiveGroups ctx token.tokens 0 >>= fun total => record .receive total "ecash token" >>= fun _ => pure total).run
    env e = (o, t))
include henters hrun

omit [Minicbor] [TokenCrates] in
theorem allOrNothing_of_arrive (harrive : AllArrive env ctx e token.tokens n u) (hfits : n < 2 ^ 64) :
    AllOrNothing env e t token preimage o := by
  have hstart : (0 : UInt64).toNat + n < 2 ^ 64 := by rwa [UInt64.toNat_zero, Nat.zero_add]
  obtain ⟨sum, hsum, hvalue⟩ := harrive.run hstart
  have hbooks : u.books = e.books := (receiveGroups_leaves ctx token.tokens 0).elim hsum
  have hhistory : u.history = e.history := congrArg Books.history hbooks
  rw [run_bind_of_ok hsum] at hrun
  cases hrun
  refine ⟨?_, by simp, by simp, fun ctx' henters' => ?_⟩
  · rintro _ ⟨⟩
    refine ⟨?_, env.now u.calls, by rw [← hhistory]⟩
    rw [UInt64.toNat_zero, Nat.zero_add] at hvalue
    rw [hvalue]
    exact harrive.value
  · obtain rfl := henters.unique henters'
    exact harrive.not_overflows (by omega)

omit [Minicbor] [TokenCrates] in
theorem allOrNothing_of_refuses (hfirst : token.tokens = group :: groups) (hrefuses : Refuses env e ctx group) :
    AllOrNothing env e t token preimage o := by
  obtain ⟨x, u, hgroup, hproofs⟩ := hrefuses.run
  have hloop : (receiveGroups ctx token.tokens 0).run env e = (.err x, u) := by
    rw [hfirst, receiveGroups, run_bind_of_err hgroup]
  have hbooks : u.books = e.books := (receiveGroups_leaves ctx token.tokens 0).elim hloop
  have hhistory : u.history = e.history := congrArg Books.history hbooks
  rw [run_bind_of_err hloop] at hrun
  cases hrun
  refine ⟨by simp, fun _ _ => ⟨by rw [hproofs], hhistory⟩, by simp, fun ctx' henters' => ?_⟩
  obtain rfl := henters.unique henters'
  rw [hfirst]
  exact hrefuses.not_overflow

omit [Minicbor] [TokenCrates] in
theorem receivesWhole_of (h : AllOrNothing env e t token preimage o) : ReceivesWhole env e token preimage := by
  rcases hloop : (receiveGroups ctx token.tokens 0).run env e with ⟨o', u⟩
  cases receiveGroups_ends.elim hloop with
  | overflowed hover => exact absurd hover (h.fits ctx henters)
  | @arrived n sum t harrive hsum =>
    have hlt := sum.toNat_lt
    rw [UInt64.toNat_zero, Nat.zero_add] at hsum
    exact .arrives henters harrive (by omega)
  | refused hfirst hrefuses => exact .refused henters hfirst hrefuses
  | credited hmore =>
    rw [run_bind_of_err hloop] at hrun
    cases hrun
    exact absurd (h.failed _ rfl).1 (Nat.ne_of_gt hmore)
  | panicked =>
    rw [run_bind_of_panic hloop] at hrun
    cases hrun
    exact absurd rfl h.returns

end recorded

/-- A receive is all or nothing just when the token is refused as a whole, or all its groups arrive and add up in 64 bits,
or the first of them is refused. -/
theorem receive_all_or_nothing_iff (hdecode : decodeTokenAny tokenStr = .ok token)
    (hrun : (receiveTokenWith tokenStr preimage).run env e = (o, t)) :
    AllOrNothing env e t token preimage o ↔ ReceivesWhole env e token preimage := by
  by_cases henters : ∃ ctx, Enters env e token preimage ctx
  · obtain ⟨ctx, henters⟩ := henters
    rw [receiveTokenWith_enters hdecode henters] at hrun
    constructor
    · intro h
      exact receivesWhole_of henters hrun h
    · rintro (hstops | ⟨henters', harrive, hfits⟩ | ⟨henters', hfirst, hrefuses⟩)
      · exact absurd henters (hstops ctx)
      · obtain rfl := henters.unique henters'
        exact allOrNothing_of_arrive henters hrun harrive hfits
      · obtain rfl := henters.unique henters'
        exact allOrNothing_of_refuses henters hrun hfirst hrefuses
  · have hstops : ∀ ctx, ¬ Enters env e token preimage ctx := fun ctx h => henters ⟨ctx, h⟩
    obtain ⟨⟨x, rfl⟩, rfl⟩ := (receiveTokenWith_stopped hdecode hstops).elim hrun
    exact iff_of_true ⟨by simp, fun _ _ => ⟨rfl, rfl⟩, by simp, fun ctx h => absurd h (hstops ctx)⟩ (.stopped hstops)

end receive

end WalletEngine

end

section toy
open Toy32 ToyCbor ToyEngine ToyBooks WalletEngine

namespace ToyEngine

/-- A token of two groups, with a coin each. -/
def twoGroups : TokenV4 where
  mint := "https://mint.example"
  unit := "sat"
  memo := none
  tokens := ["a", "b"].map fun secret =>
    { keysetId := "00c0ffee"
      proofs := [{ amount := 4, keysetId := "00c0ffee", secret, c := Crypto.toBytes (3 : UInt8), dleq := none }] }

/-- The mint signs the first swap and refuses the others. -/
def signsOnce : EngineEnv where
  wallet n := { mint with postSwap := fun r => if n = 0 then mint.postSwap r else .error (.protocol "already spent") }
  checkState _ r := .ok ⟨r.ys.map fun y => ⟨y, "UNSPENT", none⟩⟩
  postMeltQuote _ _ := .ok (quote 4 0)
  now _ := 1700000000
  overflowChecks := true
  sameBuild _ := rfl

def creditsFour : Outcome CashuError UInt64 × WalletEngine → Bool
  | (.err _, t) => proofsValue t.proofs = 4
  | (.ok _, _) | (.panic, _) => false

def receives (wire : String) : Bool :=
  (decodeTokenAny wire).isOk && ((receiveTokenWith wire none).run online (holding 0 [])).1.isOk &&
    creditsFour ((receiveTokenWith wire none).run signsOnce (holding 0 []))

theorem twoGroups_receives : (encodeTokenWire twoGroups).elim false receives = true := by decide +kernel

theorem exists_receives : ∃ wire token, encodeTokenWire twoGroups = some wire ∧ decodeTokenAny wire = .ok token ∧
    receives wire = true := by
  have hreceives := twoGroups_receives
  rcases hwire : encodeTokenWire twoGroups with - | wire
  · rw [hwire] at hreceives
    cases hreceives
  · rw [hwire] at hreceives
    have hreceives : receives wire = true := hreceives
    rcases hdecode : decodeTokenAny wire with x | token
    · rw [receives, hdecode] at hreceives
      cases hreceives
    · exact ⟨wire, token, rfl, hdecode, hreceives⟩

end ToyEngine

theorem receive_all_or_nothing_toy : ∃ wire token o t, encodeTokenWire twoGroups = some wire ∧
    (receiveTokenWith wire none).run online (holding 0 []) = (o, t) ∧ o.isOk = true ∧
    (AllOrNothing online (holding 0 []) t token none o ↔ ReceivesWhole online (holding 0 []) token none) := by
  obtain ⟨wire, token, hwire, hdecode, hreceives⟩ := exists_receives
  rw [receives, Bool.and_eq_true, Bool.and_eq_true] at hreceives
  rcases hrun : (receiveTokenWith wire none).run online (holding 0 []) with ⟨o, t⟩
  rw [hrun] at hreceives
  exact ⟨wire, token, o, t, hwire, hrun, hreceives.1.2, receive_all_or_nothing_iff hdecode hrun⟩

/-- The first group stays in the wallet when the second is refused, with no entry for it. -/
theorem receive_keeps_first_group : ∃ wire token x t, encodeTokenWire twoGroups = some wire ∧
    decodeTokenAny wire = .ok token ∧ (receiveTokenWith wire none).run signsOnce (holding 0 []) = (.err x, t) ∧
    proofsValue (holding 0 []).proofs = 0 ∧ proofsValue t.proofs = 4 ∧
    ¬ AllOrNothing signsOnce (holding 0 []) t token none (.err x) := by
  obtain ⟨wire, token, hwire, hdecode, hreceives⟩ := exists_receives
  rw [receives, Bool.and_eq_true] at hreceives
  rcases hrun : (receiveTokenWith wire none).run signsOnce (holding 0 []) with ⟨total | x | -, t⟩
  · rw [hrun] at hreceives
    cases hreceives.2
  · rw [hrun] at hreceives
    have hfour : proofsValue t.proofs = 4 := of_decide_eq_true hreceives.2
    refine ⟨wire, token, x, t, hwire, hdecode, hrun, rfl, hfour, fun h => ?_⟩
    rw [(h.failed x rfl).1] at hfour
    cases hfour
  · rw [hrun] at hreceives
    cases hreceives.2

end toy

end Micronuts
