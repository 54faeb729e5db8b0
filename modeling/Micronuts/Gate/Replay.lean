import Micronuts.Gate.Openings

/-!
# What the gate refuses as a replay

The ring keeps the newest secrets that were pushed. A secret for which the gate has opened stays in the ring, in memory
and in the store, until the ring's capacity of secrets has been pushed behind it (`GateStep.behind`); a failed save may
have pushed the secrets of its token too. As long as it is there, a token that holds it is refused and changes nothing.
-/

namespace Micronuts
open Exec

section
variable [RingCodec]

theorem loadRing_toVec {spent : List String} {blob : List UInt8} (h : RingCodec.toVec ⟨1, spent⟩ = some blob) :
    loadRing blob = spent := by
  rw [loadRing, RingCodec.decode_toVec _ _ h]
  rfl

end

section
variable [Crypto] [RingCodec]

/-- A validator that has just been built has the ring of its store. -/
theorem GateWorld.Opened.spent {w : GateWorld} (h : w.Opened) : w.validator.spent = w.saved := by
  obtain ⟨acceptedMints, pinnedKeysets, hnew⟩ := h
  unfold OfflineGateValidator.new at hnew
  rw [GateWorld.saved]
  generalize w.blob = blob at hnew ⊢
  rcases blob with - | blob
  · rw [← Except.ok.inj hnew]
    rfl
  · rw [← Except.ok.inj hnew]
    rfl

variable [Curve] [Minicbor]

/-- A token with this secret is refused, and nothing changes; as a replay, unless its mint or a proof before that of the
secret is refused first. -/
def GateWorld.Refuses (w : GateWorld) (secret : String) : Prop :=
  ∀ (c : GateCall) token before p after, decodeTokenOrErr c.tokenWire = .ok token → token.proofs = before ++ p :: after →
    p.secret = secret → c.world w = w ∧ (∃ e, c.outcome w = .err e) ∧
      (w.validator.trust.mintAccepted token.mint = true → (∀ q ∈ before, checkProof w.validator q = .ok ()) →
        c.outcome w = .err .replay)

/-- The secrets that a call has pushed to the ring: those of a token that got as far as the save. -/
def GateCall.pushes (c : GateCall) (w : GateWorld) : List String :=
  match c.outcome w with
  | .ok (.opens _) | .err (.storage _) => (decodeTokenOrErr c.tokenWire).toOption.elim [] TokenV4.secrets
  | _ => []

def GateAct.pushes (a : GateAct) (w : GateWorld) : List String := a.call.elim [] fun c => c.pushes w

/-! ### One call -/

section
variable {w t : GateWorld} {c : GateCall} {secret : String} {n : Nat}

omit [RingCodec] [Minicbor] in
theorem checkProof_replay {v : OfflineGateValidator} {p : Token.Proof} (hspent : p.secret ∈ v.spent)
    (hlocked : secretHasSpendingConditions p.secret = false) : checkProof v p = .error .replay := by
  simp [checkProof, hlocked, hspent]

theorem refuses_of_mem (hspent : secret ∈ w.validator.spent) (hlocked : secretHasSpendingConditions secret = false) :
    w.Refuses secret := by
  rintro c token before p after hdecode hproofs rfl
  have hreplay := checkProof_replay hspent hlocked
  have hnot : ∀ {wire}, ¬ (Admitted w.validator wire token) := by
    intro wire hadmitted
    have := hadmitted.checked p (by rw [hproofs]; simp)
    rw [hreplay] at this
    cases this
  rcases (c.ends w).of_decoded hdecode with ⟨hmint, houtcome, hsame⟩ | ⟨-, e, hrefused, houtcome, hsame⟩ | hadmitted
  · refine ⟨hsame, ⟨_, houtcome⟩, fun haccepted => ?_⟩
    rw [hmint] at haccepted
    cases haccepted
  · refine ⟨hsame, ⟨_, houtcome⟩, fun _ hbefore => ?_⟩
    rw [hproofs, Except.forM_eq_error hbefore hreplay] at hrefused
    rw [houtcome, Except.error.inj hrefused]
  · exact absurd hadmitted hnot

/-- How a call leaves the two rings. -/
inductive RingEnds (w : GateWorld) : List String → Outcome WalletPortError GateDecision → GateWorld → Prop
  | kept {o} (refused : (∃ e, o = .err e ∧ ∀ msg, e ≠ .storage msg) ∨ (∃ total, o = .ok (.underpaid total)) ∨ o = .panic) :
      RingEnds w [] o w
  | opened {token : TokenV4} {total : UInt64} {t : GateWorld}
      (spent : t.validator.spent = Ring.push spentRingCapacity w.validator.spent token.secrets)
      (saved : t.saved = t.validator.spent)
      (passed : ∀ p ∈ token.proofs, p.secret ∉ w.validator.spent ∧ secretHasSpendingConditions p.secret = false) :
      RingEnds w token.secrets (.ok (.opens total)) t
  | failed {token : TokenV4} {msg : String} {t : GateWorld}
      (spent : t.validator.spent = Ring.push spentRingCapacity w.validator.spent token.secrets)
      (saved : t.saved = w.saved ∨ t.saved = t.validator.spent) : RingEnds w token.secrets (.err (.storage msg)) t

theorem GateCall.rings (c : GateCall) (w : GateWorld) : RingEnds w (c.pushes w) (c.outcome w) (c.world w) := by
  have hends := c.ends w
  unfold GateCall.pushes
  generalize c.outcome w = o at hends ⊢
  generalize c.world w = t at hends ⊢
  rcases hends with ⟨hundecoded⟩ | ⟨hdecoded, hmint⟩ | ⟨hdecoded, hmint, hrefused⟩ | ⟨hadmitted, -⟩ | ⟨hadmitted, -⟩ |
    ⟨hadmitted, hamount, hprice, hsaves⟩
  · exact .kept (.inl ⟨_, rfl, nofun⟩)
  · exact .kept (.inl ⟨_, rfl, nofun⟩)
  · obtain ⟨p, -, hp⟩ := Except.exists_of_forM_eq_error hrefused
    rcases checkProof_eq_error hp with rfl | rfl | ⟨msg, rfl⟩
    · exact .kept (.inl ⟨_, rfl, nofun⟩)
    · exact .kept (.inl ⟨_, rfl, nofun⟩)
    · exact .kept (.inl ⟨_, rfl, nofun⟩)
  · exact .kept (.inr (.inr rfl))
  · exact .kept (.inr (.inl ⟨_, rfl⟩))
  · rcases hsaves with ⟨hencoded, hsaved⟩ | ⟨hvalidator, hblob⟩
    · rw [hadmitted.decoded]
      refine .opened (spend_spent ..) ?_ fun p hp => ?_
      · exact loadRing_toVec hencoded
      · obtain ⟨hlocked, hfresh, -⟩ := checkProof_eq_ok.1 (hadmitted.checked p hp)
        exact ⟨hfresh, hlocked⟩
    · rw [hadmitted.decoded]
      refine .failed (by rw [hvalidator, spend_spent]) ?_
      rcases hblob with hblob | ⟨blob, hencoded, hblob⟩
      · left
        rw [GateWorld.saved, hblob, spend_blob, GateWorld.saved]
      · right
        rw [GateWorld.saved, hblob, hvalidator]
        exact loadRing_toVec hencoded

omit [Curve] [Minicbor] in
/-- A call that is underpaid, or refused other than by the store, changes nothing. -/
theorem RingEnds.kept_of {pushed : List String} {o : Outcome WalletPortError GateDecision} (h : RingEnds w pushed o t)
    (ho : (∃ e, o = .err e ∧ ∀ msg, e ≠ .storage msg) ∨ ∃ total, o = .ok (.underpaid total)) : t = w := by
  rcases h with - | - | -
  · rfl
  · rcases ho with ⟨_, ho, -⟩ | ⟨_, ho⟩ <;> cases ho
  · rcases ho with ⟨_, ho, hne⟩ | ⟨_, ho⟩
    · cases ho
      exact absurd rfl (hne _)
    · cases ho

omit [Curve] [Minicbor] in
/-- What a call that opens has done to the rings. -/
theorem RingEnds.of_opens {pushed : List String} {total : UInt64} (h : RingEnds w pushed (.ok (.opens total)) t) :
    t.validator.spent = Ring.push spentRingCapacity w.validator.spent pushed ∧ t.saved = t.validator.spent ∧
      ∀ s ∈ pushed, s ∉ w.validator.spent ∧ secretHasSpendingConditions s = false := by
  generalize ho : (Outcome.ok (GateDecision.opens total) : Outcome WalletPortError GateDecision) = o at h
  rcases h with ⟨⟨_, rfl, -⟩ | ⟨_, rfl⟩ | rfl⟩ | ⟨hpush, hsave, hpassed⟩ | -
  · cases ho
  · cases ho
  · cases ho
  · refine ⟨hpush, hsave, fun s hs => ?_⟩
    obtain ⟨p, hp, rfl⟩ := List.mem_map.1 hs
    exact hpassed p hp
  · cases ho

omit [Curve] [Minicbor] in
theorem RingEnds.of_failed {pushed : List String} {msg : String} (h : RingEnds w pushed (.err (.storage msg)) t) :
    t.saved = w.saved ∨ t.saved = Ring.push spentRingCapacity w.validator.spent pushed := by
  generalize ho : (Outcome.err (WalletPortError.storage msg) : Outcome WalletPortError GateDecision) = o at h
  rcases h with - | - | ⟨hpush, hsave | hsave⟩
  · exact .inl rfl
  · cases ho
  · exact .inl hsave
  · exact .inr (hsave.trans hpush)

theorem GateCall.outcome_untrusted {token : TokenV4} (hdecode : decodeTokenOrErr c.tokenWire = .ok token)
    (hmint : w.validator.trust.mintAccepted token.mint = false) : c.outcome w = .err (.untrustedMint token.mint) := by
  rcases (c.ends w).of_decoded hdecode with ⟨-, houtcome, -⟩ | ⟨haccepted, -⟩ | hadmitted
  · exact houtcome
  · rw [hmint] at haccepted
    cases haccepted
  · have haccepted := hadmitted.accepted
    rw [hmint] at haccepted
    cases haccepted

/-- A call that got as far as the save has pushed the secrets of its token. -/
theorem GateCall.pushes_eq (h : (∃ total, c.outcome w = .ok (.opens total)) ∨ ∃ msg, c.outcome w = .err (.storage msg)) :
    ∃ token, decodeTokenOrErr c.tokenWire = .ok token ∧ c.pushes w = token.secrets := by
  rcases hdecode : decodeTokenOrErr c.tokenWire with e | token
  · have hundecoded := (c.ends w).of_undecoded hdecode
    rw [hundecoded] at h
    rcases h with ⟨_, h⟩ | ⟨_, h⟩ <;> cases h
  · refine ⟨token, rfl, ?_⟩
    have hsecrets : (Except.ok token : Except WalletPortError TokenV4).toOption.elim [] TokenV4.secrets = token.secrets := rfl
    unfold GateCall.pushes
    rw [hdecode]
    generalize c.outcome w = o at h ⊢
    rcases h with ⟨_, rfl⟩ | ⟨_, rfl⟩
    · exact hsecrets
    · exact hsecrets

omit [Curve] [Minicbor] in
/-- What a call does to a secret that is in both rings. -/
theorem RingEnds.behind {pushed : List String} {o : Outcome WalletPortError GateDecision} (h : RingEnds w pushed o t)
    (hspent : Ring.Behind w.validator.spent n secret) (hsaved : Ring.Behind w.saved n secret)
    (hn : n + pushed.length < spentRingCapacity) :
    Ring.Behind t.validator.spent (n + pushed.length) secret ∧ Ring.Behind t.saved (n + pushed.length) secret := by
  rcases h with - | ⟨hpush, hsave, -⟩ | ⟨hpush, hsave | hsave⟩
  · exact ⟨hspent, hsaved⟩
  · rw [hsave, hpush]
    exact ⟨hspent.push hn, hspent.push hn⟩
  · rw [hsave, hpush]
    exact ⟨hspent.push hn, hsaved.mono (Nat.le_add_right ..)⟩
  · rw [hsave, hpush]
    exact ⟨hspent.push hn, hspent.push hn⟩

omit [Curve] [Minicbor] in
/-- The rings stay within the capacity. -/
theorem RingEnds.bounded {pushed : List String} {o : Outcome WalletPortError GateDecision} (h : RingEnds w pushed o t)
    (hw : w.validator.spent.length ≤ spentRingCapacity ∧ w.saved.length ≤ spentRingCapacity) :
    t.validator.spent.length ≤ spentRingCapacity ∧ t.saved.length ≤ spentRingCapacity := by
  rcases h with - | ⟨hpush, hsave, -⟩ | ⟨hpush, hsave | hsave⟩
  · exact hw
  · rw [hsave, hpush]
    exact ⟨Ring.push_length_le .., Ring.push_length_le ..⟩
  · rw [hsave, hpush]
    exact ⟨Ring.push_length_le .., hw.2⟩
  · rw [hsave, hpush]
    exact ⟨Ring.push_length_le .., Ring.push_length_le ..⟩

/-! ### Runs -/

theorem GateStep.rings {a : GateAct} (h : GateStep w a t) :
    (∃ c, a.call = some c ∧ RingEnds w (a.pushes w) (c.outcome w) t) ∨
      a.pushes w = [] ∧ t.saved = w.saved ∧ (t = w ∨ t.validator.spent = w.saved) := by
  rcases hcall : a.call with - | c
  · refine .inr ⟨by rw [GateAct.pushes, hcall]; rfl, ?_⟩
    rcases h.of_no_call hcall with rfl | ⟨hblob, hopened⟩
    · exact ⟨rfl, .inl rfl⟩
    · have hsaved : t.saved = w.saved := by rw [GateWorld.saved, hblob, GateWorld.saved]
      exact ⟨hsaved, .inr (hopened.spent.trans hsaved)⟩
  · refine .inl ⟨c, rfl, ?_⟩
    rw [h.world hcall, GateAct.pushes, hcall, Option.elim_some]
    exact c.rings w

theorem GateStep.behind {a : GateAct} (h : GateStep w a t) (hspent : Ring.Behind w.validator.spent n secret)
    (hsaved : Ring.Behind w.saved n secret) (hn : n + (a.pushes w).length < spentRingCapacity) :
    Ring.Behind t.validator.spent (n + (a.pushes w).length) secret ∧
    Ring.Behind t.saved (n + (a.pushes w).length) secret := by
  rcases h.rings with ⟨c, -, hends⟩ | ⟨hnone, hsave, rfl | hspent'⟩
  · exact hends.behind hspent hsaved hn
  · rw [hnone]
    exact ⟨hspent, hsaved⟩
  · rw [hnone, hsave, hspent']
    exact ⟨hsaved, hsaved⟩

/-- The secrets that the steps of a history have pushed. -/
def pushedBy (h : List (Step GateWorld GateAct)) : Nat := (h.map fun e => (e.act.pushes e.pre).length).sum

theorem pushedBy_snoc (h : List (Step GateWorld GateAct)) (e : Step GateWorld GateAct) :
    pushedBy (h ++ [e]) = pushedBy h + (e.act.pushes e.pre).length := by
  simp [pushedBy]

/-- The secret is in both rings, with what was pushed since behind it. -/
theorem opened_secret_behind {w₀ : GateWorld} {h : List (Step GateWorld GateAct)} (hrun : Run GateStep w₀ h w) :
    ∀ h₁ e h₂, h = h₁ ++ e :: h₂ → ∀ c total, e.act.call = some c → c.outcome e.pre = .ok (.opens total) →
      ∀ before secret after, e.act.pushes e.pre = before ++ secret :: after →
        after.length + pushedBy h₂ < spentRingCapacity →
          Ring.Behind w.validator.spent (after.length + pushedBy h₂) secret ∧
            Ring.Behind w.saved (after.length + pushedBy h₂) secret ∧ secretHasSpendingConditions secret = false := by
  induction hrun with
  | nil =>
    intro h₁ e h₂ heq
    simp at heq
  | @snoc h s s' a run hstep ih =>
    intro h₁ e h₂ heq c total hcall hopens before secret after hpushes hn
    rcases List.eq_nil_or_concat h₂ with rfl | ⟨h₂, e', rfl⟩
    · obtain ⟨rfl, he⟩ := List.append_inj' heq rfl
      obtain rfl := (List.cons.inj he).1
      have hcap : after.length < spentRingCapacity := by omega
      rcases hstep.rings with ⟨c', hcall', hends⟩ | ⟨hnone, -⟩
      · obtain rfl : c' = c := Option.some.inj (hcall'.symm.trans hcall)
        rw [hopens] at hends
        obtain ⟨hpush, hsave, hpassed⟩ := hends.of_opens
        have hbehind : Ring.Behind (Ring.push spentRingCapacity s.validator.spent (a.pushes s)) after.length secret :=
          .pushed hcap hpushes
        rw [← hpush] at hbehind
        rw [hsave]
        exact ⟨hbehind, hbehind, (hpassed secret (by simp [hpushes])).2⟩
      · rw [hnone] at hpushes
        simp at hpushes
    · rw [List.concat_eq_append, ← List.cons_append, ← List.append_assoc] at heq
      obtain ⟨rfl, he⟩ := List.append_inj' heq rfl
      obtain rfl := (List.cons.inj he).1
      rw [List.concat_eq_append, pushedBy_snoc] at hn ⊢
      obtain ⟨hspent, hsaved, hlocked⟩ := ih h₁ e h₂ rfl c total hcall hopens before secret after hpushes (by omega)
      obtain ⟨hspent', hsaved'⟩ := hstep.behind hspent hsaved (by rw [Nat.add_assoc]; exact hn)
      rw [Nat.add_assoc] at hspent' hsaved'
      exact ⟨hspent', hsaved', hlocked⟩

end

/-- In a run from a gate whose store holds nothing or a ring within its capacity, and in which the gate is restarted and
its saves fail at any time: a secret of a token for which the gate has opened is refused as long as less than the
capacity was pushed behind it; a call that is underpaid or refused changes nothing, one that opens changes the ring
unless its token is empty and has saved it, one whose save fails leaves the store with the old ring or the complete new
one; and neither ring exceeds the capacity. -/
theorem gate_refuses_replays {w₀ w : GateWorld} {h : List (Step GateWorld GateAct)} (hopened : w₀.Opened)
    (hcapacity : w₀.saved.length ≤ spentRingCapacity) (hrun : Run GateStep w₀ h w) :
    (∀ h₁ e h₂, h = h₁ ++ e :: h₂ → ∀ c total, e.act.call = some c → c.outcome e.pre = .ok (.opens total) →
      ∀ before secret after, e.act.pushes e.pre = before ++ secret :: after →
        after.length + pushedBy h₂ < spentRingCapacity → w.Refuses secret) ∧
    (∀ e ∈ h, ∀ c, e.act.call = some c →
      ((∃ err, c.outcome e.pre = .err err ∧ ∀ msg, err ≠ .storage msg) ∨ (∃ total, c.outcome e.pre = .ok (.underpaid total)) →
        e.post = e.pre) ∧
      (∀ total, c.outcome e.pre = .ok (.opens total) →
        (∃ token, decodeTokenOrErr c.tokenWire = .ok token ∧ e.post.validator.spent =
          Ring.push spentRingCapacity e.pre.validator.spent token.secrets ∧
            (token.proofs ≠ [] → e.post.validator.spent ≠ e.pre.validator.spent)) ∧
        e.post.saved = e.post.validator.spent) ∧
      ∀ msg, c.outcome e.pre = .err (.storage msg) → e.post.saved = e.pre.saved ∨ ∃ token,
        decodeTokenOrErr c.tokenWire = .ok token ∧
          e.post.saved = Ring.push spentRingCapacity e.pre.validator.spent token.secrets) ∧
    w.validator.spent.length ≤ spentRingCapacity ∧ w.saved.length ≤ spentRingCapacity := by
  refine ⟨?_, ?_, ?_⟩
  · intro h₁ e h₂ heq c total hcall hopens before secret after hpushes hn
    obtain ⟨hspent, -, hlocked⟩ := opened_secret_behind hrun h₁ e h₂ heq c total hcall hopens before secret after hpushes hn
    exact refuses_of_mem hspent.mem hlocked
  · intro e he c hcall
    have hends := c.rings e.pre
    rw [← (hrun.step_of_mem he).world hcall] at hends
    refine ⟨hends.kept_of, fun total hopens => ?_, fun msg hfailed => ?_⟩
    · obtain ⟨token, hdecode, hpushes⟩ := c.pushes_eq (.inl ⟨total, hopens⟩)
      rw [hopens, hpushes] at hends
      obtain ⟨hpush, hsave, hpassed⟩ := hends.of_opens
      refine ⟨⟨token, hdecode, hpush, fun hproofs => ?_⟩, hsave⟩
      rw [hpush]
      exact Ring.push_ne (by decide) (by simpa [TokenV4.secrets] using hproofs) fun s hs => (hpassed s hs).1
    · obtain ⟨token, hdecode, hpushes⟩ := c.pushes_eq (.inr ⟨msg, hfailed⟩)
      rw [hfailed, hpushes] at hends
      exact hends.of_failed.imp_right fun hsaved => ⟨token, hdecode, hsaved⟩
  · refine Run.invariant_state (G := fun _ => True) (I := fun s => s.validator.spent.length ≤ spentRingCapacity ∧
      s.saved.length ≤ spentRingCapacity) ⟨by rw [hopened.spent]; exact hcapacity, hcapacity⟩ ?_ hrun fun _ _ => trivial
    intro s a s' _ hs hstep
    rcases hstep.rings with ⟨c, -, hends⟩ | ⟨-, hsave, rfl | hspent⟩
    · exact hends.bounded hs
    · exact hs
    · rw [hspent, hsave]
      exact ⟨hs.2, hs.2⟩

end

section toy
open Toy32 ToyCbor

theorem coin_pushes : (tokenStep (coins "m" 1) 1).act.pushes gate = ["00"] := by
  obtain ⟨token, hdecode, hpushes⟩ := (tokenCall (coins "m" 1) 1).pushes_eq (.inl ⟨1, coin_opens⟩)
  have hadmits := @coins_admitted 1 (by omega)
  obtain rfl : coins "m" 1 = token := Except.ok.inj (hadmits.decoded.symm.trans hdecode)
  have hact : (tokenStep (coins "m" 1) 1).act.call = some (tokenCall (coins "m" 1) 1) := rfl
  rw [GateAct.pushes, hact, Option.elim_some, hpushes]
  rfl

theorem gate_refuses_replays_toy : ((tokenCall (coins "m" 1) 1).world gate).Refuses "00" :=
  (gate_refuses_replays gate_opened (by decide) (token_run (coins "m" 1) 1)).1 [] (tokenStep (coins "m" 1) 1) [] rfl
    (tokenCall (coins "m" 1) 1) 1 rfl
    coin_opens [] "00" [] coin_pushes (by decide)

/-- After the gate has opened for a coin, a token of another mint with the same coin is refused, but not as a replay. -/
theorem coin_refused_by_mint :
    gate.Opened ∧ Run GateStep gate [tokenStep (coins "m" 1) 1] ((tokenCall (coins "m" 1) 1).world gate) ∧
    (tokenCall (coins "m" 1) 1).outcome gate = .ok (.opens 1) ∧ "00" ∈ (coins "m" 1).secrets ∧ "00" ∈ (coins "n" 1).secrets ∧
    decodeTokenOrErr (tokenCall (coins "m" 1) 1).tokenWire = .ok (coins "m" 1) ∧
    decodeTokenOrErr (tokenText (coins "n" 1)) = .ok (coins "n" 1) ∧
    GateCall.outcome ⟨gateEnv .saved, tokenText (coins "n" 1), 1⟩ ((tokenCall (coins "m" 1) 1).world gate) =
      .err (.untrustedMint "n") := by
  have hadmits := @coins_admitted 1 (by omega)
  have hdecode : decodeTokenOrErr (tokenText (coins "n" 1)) = .ok (coins "n" 1) :=
    decode_tokenText (coins_sized (by decide +kernel) (by omega)) (coins_canonical "n" 1)
  have hm : "00" ∈ (coins "m" 1).secrets := by decide
  have hn : "00" ∈ (coins "n" 1).secrets := by decide
  refine ⟨gate_opened, token_run (coins "m" 1) 1, coin_opens, hm, hn, hadmits.decoded, hdecode, ?_⟩
  have htrust : ((tokenCall (coins "m" 1) 1).world gate).validator.trust = gate.validator.trust :=
    ((tokenCall (coins "m" 1) 1).ends gate).trust
  have hmint : ((tokenCall (coins "m" 1) 1).world gate).validator.trust.mintAccepted (coins "n" 1).mint = false := by
    rw [htrust]
    decide +kernel
  generalize (tokenCall (coins "m" 1) 1).world gate = w at hmint ⊢
  generalize tokenText (coins "n" 1) = wire at hdecode ⊢
  exact @GateCall.outcome_untrusted _ _ _ _ w ⟨gateEnv .saved, wire, 1⟩ _ hdecode hmint

end toy

end Micronuts
