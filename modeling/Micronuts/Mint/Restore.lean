import Micronuts.Mint.Runs

/-!
# The restore index

`granted` lists the signatures of an `Ok` response, each with the output it is on. What `postRestore`
gives back was granted before, as long as no call signs some of its outputs and then fails at another one
(`PartlySigns`): `postMint` checks no denominations, and the check of the others lets an amount of `0`
through.
-/

namespace Micronuts
open Exec
section
variable [Crypto]

/-! ### What a response carries -/

def Response.signatures : Response → List BlindSignature
  | .minted r => r.signatures
  | .swapped r => r.signatures
  | .melted r => r.change.getD []
  | .mintQuote _ | .mintQuotes _ | .meltQuote _ | .restored _ => []

/-- The change outputs that a melt signs. -/
def changeFor (env : Env) (w : World) (request : MeltRequest) : List BlindedMessage :=
  match ((meltClaim request).run env w).1 with
  | .ok plan => plan.filled
  | _ => []

/-- The outputs that a call is asked to sign. -/
def Call.outputsIn (env : Env) (w : World) : Call → List BlindedMessage
  | .postMint request => request.outputs
  | .batchMint request => request.outputs
  | .postSwap request => request.outputs
  | .postMelt request => changeFor env w request
  | _ => []

def granted (env : Env) (w : World) (c : Call) : Outcome CashuError Response → List (BlindedMessage × BlindSignature)
  | .ok r => (c.outputsIn env w).zip r.signatures
  | _ => []

/-! ### Calls that sign half -/

/-- Whether a call that signs outside of a melt gets to signing. -/
def checksPass (env : Env) (w : World) : Call → Bool
  | .postMint request => ((postMintChecks request).run env w).1.isOk
  | .batchMint request => ((batchMintChecks request).run env w).1.isOk
  | .postSwap request => ((swapClaim request).run env w).1.isOk
  | _ => false

/-- The first output can be signed, but not all of them. -/
def DemoKeyset.SignsPartly (ks : DemoKeyset) (outputs : List BlindedMessage) : Prop :=
  (∃ o ∈ outputs.head?, ks.Signable o) ∧ ∃ o ∈ outputs, ¬ ks.Signable o

instance (ks : DemoKeyset) (outputs : List BlindedMessage) : Decidable (ks.SignsPartly outputs) := by
  unfold DemoKeyset.SignsPartly; infer_instance

def PartlySigns (env : Env) (w : World) (c : Call) : Prop :=
  checksPass env w c = true ∧ w.mint.keyset.SignsPartly (c.outputsIn env w)

theorem SignStops.signsPartly {ks : DemoKeyset} {outputs done : List BlindedMessage} {sigs : List BlindSignature}
    (h : SignStops ks outputs done) (htotal : SignTotal ks) (hsigned : Signed ks done sigs) (hdone : done ≠ []) :
    ks.SignsPartly outputs := by
  obtain ⟨o, rest, rfl, hstop⟩ := h
  obtain ⟨o', done, rfl⟩ := List.exists_cons_of_ne_nil hdone
  have hsignable := hsigned.signable o' (by simp)
  exact ⟨⟨o', by simp, hsignable⟩, o, by simp, hstop htotal⟩

section calls
variable {env : Env} {w : World} {c : Call} {m : DemoMint} {tr : List Event}

/-- Signing that stops without having signed anything records nothing. -/
theorem SignStops.record_eq {m : DemoMint} {outputs done : List BlindedMessage} {sigs : List BlindSignature}
    (h : SignStops m.keyset outputs done) (htotal : SignTotal m.keyset) (hsigned : Signed m.keyset done sigs)
    (hpart : ¬ m.keyset.SignsPartly outputs) : m.record done sigs = m := by
  by_cases hdone : done = []
  · subst hdone; rfl
  · exact absurd (h.signsPartly htotal hsigned hdone) hpart

/-- The same for a call whose checks passed and left the keyset alone. -/
theorem record_of_stops {w₁ : World} {done : List BlindedMessage} {sigs : List BlindSignature}
    (htotal : SignTotal w.mint.keyset) (hpart : ¬ PartlySigns env w c) (hks : w₁.mint.keyset = w.mint.keyset)
    (hpass : checksPass env w c = true) (stops : SignStops w₁.mint.keyset (c.outputsIn env w) done)
    (signed : Signed w₁.mint.keyset done sigs) : w₁.mint.record done sigs = w₁.mint :=
  stops.record_eq (hks ▸ htotal) signed fun h => hpart ⟨hpass, hks ▸ h⟩

/-- A refused call that does not sign half leaves the restore index alone. -/
theorem CallEnds.issuedOutputs_err {e : CashuError} (h : CallEnds env w c (.err e) m tr)
    (htotal : SignTotal w.mint.keyset) (hpart : ¬ PartlySigns env w c) : m.issuedOutputs = w.mint.issuedOutputs := by
  cases h with
  | refused settled => exact settled.issuedOutputs
  | mintStopped request checks settled stops signed =>
    rw [record_of_stops htotal hpart settled.keyset (by simp [checksPass, checks, Outcome.isOk]) stops signed]
    exact settled.issuedOutputs
  | batchStopped request checks settled stops signed =>
    rw [record_of_stops htotal hpart settled.keyset (by simp [checksPass, checks, Outcome.isOk]) stops signed]
    exact settled.issuedOutputs
  | swapStopped request claimed passed claims mint_eq stops signed =>
    have hks := congrArg DemoMint.keyset mint_eq
    rw [DemoMint.spend_keyset] at hks
    rw [← hks] at stops signed
    rw [record_of_stops htotal hpart hks (by simp [checksPass, claimed, Outcome.isOk]) stops signed, mint_eq]
    rfl
  | meltFailed request claimed passed claims answer mint_eq => subst mint_eq; rfl
  | meltStopped request claimed passed claims answer notTotal mint_eq => exact absurd htotal notTotal

theorem Call.Looks.outputsIn (h : c.Looks) : c.outputsIn env w = [] := by
  cases c <;> first | rfl | exact h.elim

/-- An `Ok` call signs each of its outputs, and nothing else. -/
theorem CallEnds.signed {r : Response} (h : CallEnds env w c (.ok r) m tr) (hlooks : ¬ c.Looks) :
    Signed w.mint.keyset (c.outputsIn env w) r.signatures := by
  cases h with
  | looked looks settled => exact absurd looks hlooks
  | restored request => exact .nil
  | mintQuoteCreated request invoice expiry now positive new mint_eq => exact .nil
  | meltQuoteCreated request unpaid mint_eq => exact .nil
  | minted request settled passed signed later issued_eq mint_eq => exact settled.keyset ▸ signed
  | batchMinted request checks settled passed signed issues => exact settled.keyset ▸ signed
  | swapped request passed claims signed mint_eq => exact signed
  | @meltPaid request plan w₁ q ys preimage change m claimed passed claims answer signed mint_eq =>
    have hchange : (Call.postMelt request).outputsIn env w = plan.filled := by
      simp only [Call.outputsIn, changeFor, claimed]
    rw [hchange]; exact signed

/-- The restore index after a call has the rows of what the call granted. -/
theorem CallEnds.issuedOutputs {out : Outcome CashuError Response} (h : CallEnds env w c out m tr)
    (htotal : SignTotal w.mint.keyset) (hpart : ¬ PartlySigns env w c) :
    m.issuedOutputs = w.mint.issuedOutputs.insertAll (indexRows (granted env w c out)) := by
  cases out with
  | err e => exact h.issuedOutputs_err htotal hpart
  | panic => cases h
  | ok r =>
    cases h with
    | looked looks settled =>
      rw [settled.issuedOutputs, granted, looks.outputsIn]
      rfl
    | restored request => rfl
    | mintQuoteCreated request invoice expiry now positive new mint_eq => subst mint_eq; rfl
    | meltQuoteCreated request unpaid mint_eq => subst mint_eq; rfl
    | minted request settled passed signed later issued_eq mint_eq =>
      subst mint_eq
      rw [DemoMint.putMintQuote_issuedOutputs, DemoMint.record_issuedOutputs, settled.issuedOutputs]
      rfl
    | batchMinted request checks settled passed signed issues =>
      rw [issues.frame, DemoMint.record_issuedOutputs, settled.issuedOutputs]
      rfl
    | swapped request passed claims signed mint_eq =>
      subst mint_eq
      rw [DemoMint.record_issuedOutputs]
      rfl
    | @meltPaid request plan w₁ q ys preimage change m claimed passed claims answer signed mint_eq =>
      subst mint_eq
      have hchange : (Call.postMelt request).outputsIn env w = plan.filled := by
        simp only [Call.outputsIn, changeFor, claimed]
      rw [DemoMint.putMeltQuote_issuedOutputs, DemoMint.record_issuedOutputs, granted, hchange]
      rfl

/-- What is in the restore index after a call was granted by it or was there before. -/
theorem CallEnds.lookup_issued {out : Outcome CashuError Response} (h : CallEnds env w c out m tr)
    (htotal : SignTotal w.mint.keyset) (hpart : ¬ PartlySigns env w c) {k : String} {sig : BlindSignature}
    (hk : m.issuedOutputs.lookup k = some sig) :
    (∃ o, (o, sig) ∈ granted env w c out ∧ pointHex o.b = k) ∨ w.mint.issuedOutputs.lookup k = some sig := by
  rw [h.issuedOutputs htotal hpart] at hk
  refine (Finmap.mem_of_lookup_insertAll hk).imp_left fun hrow => ?_
  obtain ⟨p, hp, heq⟩ := List.mem_map.1 hrow
  cases heq
  exact ⟨p.1, hp, rfl⟩

end calls

/-! ### Runs -/

def Step.granted (e : Step World Act) : List (BlindedMessage × BlindSignature) :=
  match e.act.ending with
  | .returned out => Micronuts.granted e.act.env e.pre.begin e.act.call out
  | .crashed _ => []

/-- The signatures in the `Ok` response of a step. -/
def Step.signatures (e : Step World Act) : List BlindSignature :=
  match e.act.ending with
  | .returned (.ok r) => r.signatures
  | _ => []

def Step.PartlySigns (e : Step World Act) : Prop := Micronuts.PartlySigns e.act.env e.pre.begin e.act.call

instance (e : Step World Act) : Decidable (Step.PartlySigns e) := by
  unfold Step.PartlySigns Micronuts.PartlySigns; infer_instance

/-- What the index holds for `k` was granted by a step of the history, on an output with that key. -/
def IndexGranted (h : History) (m : DemoMint) : Prop := ∀ k sig, m.issuedOutputs.lookup k = some sig →
  ∃ e ∈ h, ∃ o, (o, sig) ∈ Step.granted e ∧ pointHex o.b = k

theorem CallStep.indexGranted {h : History} {w w' : World} {a : Act} (hstep : CallStep w a w')
    (htotal : SignTotal w.mint.keyset) (hpart : ¬ Step.PartlySigns ⟨w, a, w'⟩) (hI : IndexGranted h w.mint) :
    IndexGranted (h ++ [⟨w, a, w'⟩]) w'.mint := by
  intro k sig hk
  obtain ⟨out, hout, hends⟩ := hstep.exists_ends
  rcases hends.lookup_issued htotal hpart hk with ⟨o, ho, hkey⟩ | hold
  · refine ⟨⟨w, a, w'⟩, by simp, o, ?_, hkey⟩
    simpa only [Step.granted, hout] using ho
  · obtain ⟨e, he, hgranted⟩ := hI k sig hold
    exact ⟨e, List.mem_append_left _ he, hgranted⟩

theorem indexGranted_of_run {ks : DemoKeyset} {store : Bool} {h : History} {w : World}
    (hrun : Run CallStep (World.init ks store) h w) (htotal : SignTotal ks) (hpart : ∀ e ∈ h, ¬ Step.PartlySigns e) :
    IndexGranted h w.mint := by
  refine Run.invariant (I := fun h w => IndexGranted h w.mint)
    (Run.PrefixClosed.forall_mem fun e : Step World Act => ¬ Step.PartlySigns e) ?_ ?_ hrun hpart
  · intro k sig hk
    simp [World.init, World.boot, DemoMint.fresh] at hk
  · intro h w a w' hrun hpart hI hstep
    have hks : w.mint.keyset = ks := (config_of_run hrun).1
    exact hstep.indexGranted (hks ▸ htotal) (hpart _ (by simp)) hI

theorem Step.mem_granted {e : Step World Act} {p : BlindedMessage × BlindSignature} (h : p ∈ Step.granted e) :
    p.2 ∈ Step.signatures e := by
  unfold Step.granted at h
  unfold Step.signatures
  split at h
  · next out hout =>
    cases out with
    | ok r => rw [hout]; exact (List.of_mem_zip h).2
    | err e => simp [Micronuts.granted] at h
    | panic => simp [Micronuts.granted] at h
  · simp at h

/-- Restoring gives back what the history of `w` handed out, and no refused call changed the index. -/
structure RestoreSound (h : History) (w : World) : Prop where
  restored : ∀ request, ∀ out ∈ (w.mint.postRestore request).outputs, ∃ e ∈ h, out.signature ∈ Step.signatures e
  refused : ∀ e ∈ h, ∀ err, e.act.ending = .returned (.err err) →
    e.post.mint.issuedOutputs = e.pre.mint.issuedOutputs

theorem restore_sound {ks : DemoKeyset} {store : Bool} {h : History} {w : World}
    (hrun : Run CallStep (World.init ks store) h w) (htotal : SignTotal ks) (hpart : ∀ e ∈ h, ¬ Step.PartlySigns e) :
    RestoreSound h w := by
  constructor
  · intro request out hout
    obtain ⟨b, -, hb⟩ := List.mem_filterMap.1 hout
    obtain ⟨sig, hsig, rfl⟩ := Option.map_eq_some_iff.1 hb
    obtain ⟨e, he, o, ho, -⟩ := indexGranted_of_run hrun htotal hpart _ sig hsig
    exact ⟨e, he, Step.mem_granted ho⟩
  · intro e he err herr
    obtain ⟨h₁, h₂, rfl, hrun₁⟩ := hrun.before_of_mem he
    have hks : e.pre.mint.keyset = ks := (config_of_run hrun₁).1
    have hstep : CallStep e.pre e.act e.post := hrun.step_of_mem he
    exact (hstep.ends herr).issuedOutputs_err (hks ▸ htotal) (hpart e he)

end

section toy
open Toy

theorem restore_sound_toy :
    RestoreSound (replay (World.init keyset true) mintingCalls).1 (replay (World.init keyset true) mintingCalls).2 :=
  restore_sound (run_replay (by decide +kernel)) signTotal (by decide +kernel)

/-- A paid quote of four, and outputs of one and three for it: there is no key for three. -/
def halfSignedCalls : List (Call × Env) :=
  [(.postMintQuote ⟨4, "sat", none⟩, env),
   (.postMint ⟨"0190-q1", [⟨1, "00c0ffee", (5 : UInt8)⟩, ⟨3, "00c0ffee", (6 : UInt8)⟩], none⟩, env)]

/-- The signature on the first output can be restored after the refused call. -/
theorem restore_after_refused_mint : ∃ h w, Run CallStep (World.init keyset true) h w ∧ ¬ RestoreSound h w := by
  refine ⟨_, _, @run_replay _ _ halfSignedCalls (by decide +kernel), fun hsound => ?_⟩
  have hnone : ∀ e ∈ (replay (World.init keyset true) halfSignedCalls).1, Step.signatures e = [] := by decide +kernel
  have hsome : (((replay (World.init keyset true) halfSignedCalls).2.mint.postRestore ⟨[(5 : UInt8)]⟩).outputs) ≠ [] := by
    decide +kernel
  obtain ⟨out, outs, hout⟩ := List.exists_cons_of_ne_nil hsome
  obtain ⟨e, he, hmem⟩ := hsound.restored ⟨[(5 : UInt8)]⟩ out (by rw [hout]; simp)
  rw [hnone e he] at hmem
  simp at hmem

end toy

end Micronuts
