import Micronuts.Gate.Controller
import Micronuts.Gate.TokenWire
import Micronuts.Nuts.WitnessJson

/-!
# What the gate opens for

A token for which the gate opens is of an accepted mint, each of its proofs verifies under a pinned key, and none of
its secrets is a spending condition or in the ring. What it is worth is another matter: the proofs are checked one by
one against the ring of before the call, and their amounts are added up in 64 bits, so a proof that the token holds
twice counts twice. The total is right when the secrets differ and the sum fits.
-/

namespace Micronuts
open Exec

/-! ### Hex secrets -/

/-- No text in hex is a spending condition. -/
theorem Secret.parse_of_hex {s : String} {bytes : List UInt8} (h : Hex.decode s = some bytes) : Secret.parse s = none := by
  have hbracket : ∀ b ∈ asBytes s, b ≠ '['.toUInt8 := by
    intro b hb
    rw [asBytes_eq_flatMap, List.mem_flatMap] at hb
    obtain ⟨c, hc, hb⟩ := hb
    have hall : '['.toUInt8 ∉ String.utf8EncodeChar c :=
      @forall_hexChar (fun c => '['.toUInt8 ∉ String.utf8EncodeChar c) (by decide +kernel) c (hexText_of_decode h c hc)
    exact ne_of_mem_of_not_mem hb hall
  by_contra hsome
  obtain ⟨secret, hparse⟩ := Option.ne_none_iff_exists'.1 hsome
  obtain ⟨document, hdocument, hparse⟩ := Option.bind_eq_some_iff.1 hparse
  obtain ⟨items, hitems, -⟩ := Option.bind_eq_some_iff.1 hparse
  obtain ⟨n, rest, hvalue, -⟩ := Json.parse_eq_some hdocument
  cases document with
  | array items =>
    have hmem := List.mem_of_head? (Json.parseValue_array hvalue)
    exact hbracket _ ((List.dropWhile_sublist _).subset hmem) rfl
  | null | bool _ | number | string _ | object _ => cases hitems

/-! ### One opening -/

theorem sublist_eq_of_sum_eq {α : Type} {f : α → Nat} {l₁ l₂ : List α} (h : l₁.Sublist l₂) (hpos : ∀ a ∈ l₂, 0 < f a)
    (hsum : (l₁.map f).sum = (l₂.map f).sum) : l₁ = l₂ := by
  have hle : ∀ {l₁ l₂ : List α}, l₁.Sublist l₂ → (l₁.map f).sum ≤ (l₂.map f).sum := by
    intro l₁ l₂ h
    induction h with
    | slnil => simp
    | cons a _ ih => simp; omega
    | cons_cons a _ ih => simpa using ih
  induction h with
  | slnil => rfl
  | @cons l₁ l₂ a hsub ih =>
    have := hle hsub
    have := hpos a (by simp)
    simp only [List.map_cons, List.sum_cons] at hsum
    omega
  | cons_cons a _ ih =>
    simp only [List.map_cons, List.sum_cons, Nat.add_left_cancel_iff] at hsum
    rw [ih (fun b hb => hpos b (by simp [hb])) hsum]

section
variable [Crypto]

def TokenV4.amounts (token : TokenV4) : List Nat := token.proofs.map fun p => p.amount.toNat

/-- The total counts each secret of the token once. -/
def Worth (token : TokenV4) (total : UInt64) : Prop :=
  ∃ counted : List Token.Proof, counted.Sublist token.proofs ∧ (counted.map Token.Proof.secret).Nodup ∧
    (∀ p ∈ token.proofs, p.secret ∈ counted.map Token.Proof.secret) ∧
    total.toNat = (counted.map fun p => p.amount.toNat).sum

/-- The secrets of the token differ, and its amounts do not overflow. -/
structure CountsExactly (token : TokenV4) : Prop where
  distinct : token.secrets.Nodup
  fits : token.amounts.sum < 2 ^ 64

theorem CountsExactly.worth {token : TokenV4} {overflowChecks : Bool} {total : UInt64} (h : CountsExactly token)
    (htotal : token.totalAmount overflowChecks = some total) : Worth token total := by
  refine ⟨token.proofs, List.Sublist.refl _, h.distinct, ?_, ?_⟩
  · intro p hp
    exact List.mem_map_of_mem hp
  · rw [(TokenV4.totalAmount_eq_some htotal).1]
    exact Nat.mod_eq_of_lt h.fits

/-- For amounts that are not zero and do not overflow, the total is right for distinct secrets alone. -/
theorem Worth.distinct {token : TokenV4} {overflowChecks : Bool} {total : UInt64} (h : Worth token total)
    (htotal : token.totalAmount overflowChecks = some total) (hfits : token.amounts.sum < 2 ^ 64)
    (hpos : ∀ p ∈ token.proofs, 0 < p.amount.toNat) : token.secrets.Nodup := by
  obtain ⟨counted, hsub, hnodup, -, hsum⟩ := h
  have hall : total.toNat = token.amounts.sum := by
    rw [(TokenV4.totalAmount_eq_some htotal).1]
    exact Nat.mod_eq_of_lt hfits
  have heq := sublist_eq_of_sum_eq hsub hpos (hsum.symm.trans hall)
  rw [heq] at hnodup
  exact hnodup

/-- For distinct secrets the total is right for amounts that do not overflow alone. -/
theorem Worth.fits {token : TokenV4} {total : UInt64} (h : Worth token total) (hdistinct : token.secrets.Nodup) :
    token.amounts.sum < 2 ^ 64 := by
  obtain ⟨counted, hsub, -, hcover, hsum⟩ := h
  have hlen : token.proofs.length ≤ counted.length := by
    have hsubset : token.secrets ⊆ counted.map Token.Proof.secret := by
      intro s hs
      obtain ⟨p, hp, rfl⟩ := List.mem_map.1 hs
      exact hcover p hp
    simpa [TokenV4.secrets] using (List.subperm_of_subset hdistinct hsubset).length_le
  rw [TokenV4.amounts, ← hsub.eq_of_length_le hlen, ← hsum]
  exact total.toNat_lt

variable [Curve]

/-- What the gate promises of a token for which it opens. -/
structure SoundOpening (v : OfflineGateValidator) (token : TokenV4) (priceSats total : UInt64) : Prop where
  accepted : token.mint ∈ v.trust.acceptedMints
  verified : ∀ p ∈ token.proofs, VerifiesPinned v.pinnedKeysets p
  unlocked : ∀ p ∈ token.proofs, Secret.parse p.secret = none
  unspent : ∀ p ∈ token.proofs, p.secret ∉ v.spent
  paid : priceSats ≤ total
  worth : Worth token total

variable [Minicbor]

/-- The call gets as far as the save. -/
structure GateCall.Pays (c : GateCall) (w : GateWorld) (token : TokenV4) (total : UInt64) : Prop where
  admitted : Admitted w.validator c.tokenWire token
  amount : token.totalAmount c.env.overflowChecks = some total
  price : c.priceSats ≤ total

theorem GateCall.Pays.sound {c : GateCall} {w : GateWorld} {token : TokenV4} {total : UInt64} (h : c.Pays w token total)
    (htrust : w.validator.trust.allowUntrusted = false) (hcounts : CountsExactly token) :
    SoundOpening w.validator token c.priceSats total := by
  have hchecked : ∀ p ∈ token.proofs, p.secret ∉ w.validator.spent ∧ (∃ bytes, Hex.decode p.secret = some bytes) ∧
      VerifiesPinned w.validator.pinnedKeysets p := by
    intro p hp
    exact (checkProof_eq_ok.1 (h.admitted.checked p hp)).2
  refine ⟨?_, fun p hp => (hchecked p hp).2.2, ?_, fun p hp => (hchecked p hp).1, h.price, hcounts.worth h.amount⟩
  · have haccepted := h.admitted.accepted
    simpa [TrustModel.mintAccepted, htrust] using haccepted
  · intro p hp
    obtain ⟨bytes, hhex⟩ := (hchecked p hp).2.1
    exact Secret.parse_of_hex hhex

variable [RingCodec]

theorem VerifyEnds.pays_of_opens {c : GateCall} {w t : GateWorld} {total : UInt64}
    (h : VerifyEnds c.env c.tokenWire c.priceSats w (.ok (.opens total)) t) : ∃ token, c.Pays w token total := by
  generalize ho : (Outcome.ok (GateDecision.opens total) : Outcome WalletPortError GateDecision) = o at h
  rcases h with - | - | - | - | - | ⟨hadmitted, hamount, hprice, hsaves⟩
  · cases ho
  · cases ho
  · cases ho
  · cases ho
  · cases ho
  · rcases hsaves with - | -
    · cases ho
      exact ⟨_, hadmitted, hamount, hprice⟩
    · cases ho

/-! ### Runs -/

omit [Curve] [Minicbor] in
theorem GateWorld.Opened.trust {w : GateWorld} (h : w.Opened) : w.validator.trust.allowUntrusted = false := by
  obtain ⟨acceptedMints, pinnedKeysets, hnew⟩ := h
  unfold OfflineGateValidator.new at hnew
  split at hnew
  · rw [← Except.ok.inj hnew]
  · rw [← Except.ok.inj hnew]
  · cases hnew

theorem GateStep.trust {w t : GateWorld} {a : GateAct} (h : GateStep w a t)
    (htrust : w.validator.trust.allowUntrusted = false) : t.validator.trust.allowUntrusted = false := by
  rcases hcall : a.call with - | c
  · rcases h.of_no_call hcall with rfl | ⟨-, hopened⟩
    · exact htrust
    · exact hopened.trust
  · rw [(h.of_call hcall).trust]
    exact htrust

/-- In a run in which every token that gets as far as the save counts exactly, the gate opens soundly. A token with
positive amounts that repeats a secret or overflows, and not both, does not count exactly, and its opening is unsound. -/
theorem gate_opens_soundly {w₀ w : GateWorld} {h : List (Step GateWorld GateAct)} (hopened : w₀.Opened)
    (hrun : Run GateStep w₀ h w) :
    ((∀ e ∈ h, ∀ c token total, e.act.call = some c → c.Pays e.pre token total → CountsExactly token) →
      ∀ e ∈ h, ∀ c total, e.act.call = some c → c.outcome e.pre = .ok (.opens total) →
        ∃ token, decodeTokenOrErr c.tokenWire = .ok token ∧ SoundOpening e.pre.validator token c.priceSats total) ∧
    ∀ e ∈ h, ∀ c token total, e.act.call = some c → c.outcome e.pre = .ok (.opens total) →
      decodeTokenOrErr c.tokenWire = .ok token → SoundOpening e.pre.validator token c.priceSats total →
      (∀ p ∈ token.proofs, 0 < p.amount.toNat) → (token.secrets.Nodup ∨ token.amounts.sum < 2 ^ 64) →
        CountsExactly token := by
  have hpays : ∀ e ∈ h, ∀ c total, e.act.call = some c → c.outcome e.pre = .ok (.opens total) →
      ∃ token, c.Pays e.pre token total := by
    intro e he c total hcall hopens
    have hends := (hrun.step_of_mem he).of_call hcall
    rw [hopens] at hends
    exact hends.pays_of_opens
  constructor
  · intro hcounts e he c total hcall hopens
    obtain ⟨token, hp⟩ := hpays e he c total hcall hopens
    obtain ⟨h₁, h₂, -, hbefore⟩ := hrun.before_of_mem he
    have htrust : e.pre.validator.trust.allowUntrusted = false :=
      Run.invariant_state (G := fun _ => True) (I := fun s => s.validator.trust.allowUntrusted = false) hopened.trust
        (fun _ _ _ _ hs hstep => hstep.trust hs) hbefore fun _ _ => trivial
    exact ⟨token, hp.admitted.decoded, hp.sound htrust (hcounts e he c token total hcall hp)⟩
  · intro e he c token total hcall hopens hdecode hsound hpos hone
    obtain ⟨token', hp⟩ := hpays e he c total hcall hopens
    obtain rfl : token' = token := Except.ok.inj (hp.admitted.decoded.symm.trans hdecode)
    rcases hone with hdistinct | hfits
    · exact ⟨hdistinct, hsound.worth.fits hdistinct⟩
    · exact ⟨hsound.worth.distinct hp.amount hfits hpos, hfits⟩

end

section toy
open Toy32 ToyCbor

namespace Toy32

def tokenText (token : TokenV4) : String := (encodeTokenWire token).getD ""

theorem decode_tokenText {token : TokenV4} (hsized : token.Sized) (hcanonical : ∀ g ∈ token.tokens, g.Canonical) :
    decodeTokenOrErr (tokenText token) = .ok token := by
  obtain ⟨body, -, hwire, hdecode⟩ := encodeTokenWire_decodes hsized hcanonical
  rw [tokenText, hwire]
  exact decodeTokenOrErr_text hdecode

def gateEnv (save : SaveResult) : GateEnv := ⟨fun _ => save, false⟩

/-- A new gate that accepts the mint `m` and has the keys of two amounts. -/
def gate : GateWorld := ⟨⟨⟨["m"], false⟩, [⟨"00c0ffee", "sat", [⟨1, (3 : UInt8)⟩, ⟨2, (5 : UInt8)⟩]⟩], []⟩, none⟩

theorem gate_opened : gate.Opened := ⟨_, _, rfl⟩

theorem mint_short : (asBytes "m").length < 2 ^ 64 := by decide

theorem gate_checks : gate.validator.trust.mintAccepted "m" = true ∧ checkProof gate.validator coin = .ok () ∧
    checkProof gate.validator coin' = .ok () := by
  decide +kernel

theorem gate_admits {token : TokenV4} (hsized : token.Sized) (hcanonical : ∀ g ∈ token.tokens, g.Canonical)
    (hmint : token.mint = "m") (hproofs : ∀ p ∈ token.proofs, p = coin ∨ p = coin') :
    Admitted gate.validator (tokenText token) token := by
  have haccepted : gate.validator.trust.mintAccepted token.mint = true := by
    rw [hmint]
    exact gate_checks.1
  refine ⟨decode_tokenText hsized hcanonical, haccepted, fun p hp => ?_⟩
  rcases hproofs p hp with rfl | rfl
  · exact gate_checks.2.1
  · exact gate_checks.2.2

theorem coins_admitted {n : Nat} (hn : n < 2 ^ 64) : Admitted gate.validator (tokenText (coins "m" n)) (coins "m" n) := by
  refine gate_admits (coins_sized mint_short hn) (coins_canonical "m" n) rfl fun p hp => .inl ?_
  have hp : p ∈ List.replicate n coin := by simpa [TokenV4.proofs, coins] using hp
  exact List.eq_of_mem_replicate hp

theorem pair_admitted : Admitted gate.validator (tokenText (pair "m")) (pair "m") := by
  refine gate_admits (pair_sized mint_short) (pair_canonical "m") rfl fun p hp => ?_
  simpa [TokenV4.proofs, pair] using hp

def tokenCall (token : TokenV4) (priceSats : UInt64) : GateCall := ⟨gateEnv .saved, tokenText token, priceSats⟩

def tokenStep (token : TokenV4) (priceSats : UInt64) : Step GateWorld GateAct :=
  let c := tokenCall token priceSats
  ⟨gate, .verify c.env c.tokenWire c.priceSats, c.world gate⟩

theorem token_run (token : TokenV4) (priceSats : UInt64) :
    Run GateStep gate [tokenStep token priceSats] ((tokenCall token priceSats).world gate) := by
  have hstep : tokenStep token priceSats = ⟨gate, .verify (tokenCall token priceSats).env
      (tokenCall token priceSats).tokenWire (tokenCall token priceSats).priceSats,
      (tokenCall token priceSats).world gate⟩ := rfl
  rw [hstep]
  exact Run.nil.snoc ((tokenCall token priceSats).step gate)

theorem token_opens {token : TokenV4} {priceSats total : UInt64} {blob : List UInt8}
    (hadmitted : Admitted gate.validator (tokenText token) token) (htotal : token.totalAmount false = some total)
    (hprice : priceSats ≤ total) (hencode : RingCodec.toVec ⟨1, (gate.spend token).validator.spent⟩ = some blob) :
    (tokenCall token priceSats).outcome gate = .ok (.opens total) := by
  have hrun : (verifyToken (tokenText token) priceSats).run (gateEnv .saved) gate =
      (.ok (.opens total), { gate.spend token with blob := some blob }) :=
    hadmitted.opens htotal hprice hencode rfl
  rw [GateCall.outcome, tokenCall]
  rw [hrun]

theorem coin_opens : (tokenCall (coins "m" 1) 1).outcome gate = .ok (.opens 1) := by
  have hencode : RingCodec.toVec ⟨1, (gate.spend (coins "m" 1)).validator.spent⟩ =
      some [0x82, 1, 0x81, 0x62, 0x30, 0x30] := by
    decide +kernel
  exact token_opens (coins_admitted (by omega)) (by decide) (by decide) hencode

end Toy32

/-- The gate opens at the price of two sats for a token of one and of two. -/
theorem gate_opens_soundly_toy : (tokenCall (pair "m") 2).outcome gate = .ok (.opens 3) ∧
    ∃ token, decodeTokenOrErr (tokenCall (pair "m") 2).tokenWire = .ok token ∧ SoundOpening gate.validator token 2 3 := by
  have hencode : RingCodec.toVec ⟨1, (gate.spend (pair "m")).validator.spent⟩ =
      some [0x82, 1, 0x82, 0x62, 0x30, 0x30, 0x62, 0x30, 0x31] := by decide +kernel
  have hopens := token_opens pair_admitted (by decide : (pair "m").totalAmount false = some 3)
    (by decide : (2 : UInt64) ≤ 3) hencode
  refine ⟨hopens, (gate_opens_soundly gate_opened (token_run (pair "m") 2)).1 ?_ (tokenStep (pair "m") 2) (by simp)
    (tokenCall (pair "m") 2) 3 rfl hopens⟩
  intro e he c token total hcall hpays
  obtain rfl := List.mem_singleton.1 he
  obtain rfl : tokenCall (pair "m") 2 = c := Option.some.inj hcall
  obtain rfl : pair "m" = token := Except.ok.inj (pair_admitted.decoded.symm.trans hpays.admitted.decoded)
  exact ⟨by decide, by decide⟩

/-- The gate opens at the price of two sats for one proof of one sat that the token holds twice. -/
theorem coin_counted_twice : gate.Opened ∧
    Run GateStep gate [tokenStep (coins "m" 2) 2] ((tokenCall (coins "m" 2) 2).world gate) ∧
    (tokenCall (coins "m" 2) 2).outcome gate = .ok (.opens 2) ∧
    decodeTokenOrErr (tokenCall (coins "m" 2) 2).tokenWire = .ok (coins "m" 2) ∧
    ¬ SoundOpening gate.validator (coins "m" 2) 2 2 := by
  have hencode : RingCodec.toVec ⟨1, (gate.spend (coins "m" 2)).validator.spent⟩ =
      some [0x82, 1, 0x82, 0x62, 0x30, 0x30, 0x62, 0x30, 0x30] := by decide +kernel
  have hadmitted := @coins_admitted 2 (by omega)
  have hopens := token_opens hadmitted (by decide) (by decide : (2 : UInt64) ≤ 2) hencode
  refine ⟨gate_opened, token_run _ 2, hopens, hadmitted.decoded, fun hsound => ?_⟩
  have htotal : (coins "m" 2).totalAmount false = some 2 := by decide
  have hdistinct := hsound.worth.distinct htotal (by decide) (by decide)
  revert hdistinct
  decide

end toy

end Micronuts
