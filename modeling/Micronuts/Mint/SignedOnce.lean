import Micronuts.Mint.Issuance

/-!
# Outputs that are signed once

Nothing looks at the `B_` of an output before it is signed: the same output is signed again when it comes twice in a
request, in a retried partial mint, or in another call, and the restore index keeps the last signature only. In a run
without such calls (`SignsAgain`), the index is the list of all signatures that were handed out, and what was issued on
quotes is the value of the distinct outputs that were signed for them.
-/

namespace Micronuts
open Exec Finmap
section
variable [Crypto]

/-! ### Calls that sign an output again -/

/-- The call gets to signing, and every output that it signs has a key. -/
def SignsOutputs (env : Env) (w : World) (c : Call) : Prop :=
  (match c with
    | .postMelt request =>
      match ((meltClaim request).run env w).1 with
      | .ok plan => (env.payInvoice plan.invoice plan.amount).isOk
      | _ => false
    | c => checksPass env w c) = true ∧ ∀ o ∈ c.outputsIn env w, w.mint.keyset.Signable o

instance (env : Env) (w : World) (c : Call) : Decidable (SignsOutputs env w c) := by
  unfold SignsOutputs; infer_instance

/-- It signs a `B_` twice, or one that was signed before. -/
def SignsAgain (env : Env) (w : World) (c : Call) : Prop :=
  SignsOutputs env w c ∧ (¬ ((c.outputsIn env w).map BlindedMessage.b).Nodup ∨
    ∃ o ∈ c.outputsIn env w, (w.mint.issuedOutputs.lookup (pointHex o.b)).isSome = true)

instance (env : Env) (w : World) (c : Call) : Decidable (SignsAgain env w c) := by
  unfold SignsAgain; infer_instance

def Step.SignsAgain (e : Step World Act) : Prop := Micronuts.SignsAgain e.act.env e.pre.begin e.act.call

instance (e : Step World Act) : Decidable (Step.SignsAgain e) :=
  inferInstanceAs (Decidable (Micronuts.SignsAgain e.act.env e.pre.begin e.act.call))

/-! ### Signed for quotes -/

/-- What the step signed for quotes that are all in `Q`: each `B_` with its amount. -/
def Step.signedFor (Q : Finset String) (e : Step World Act) : List (PublicKey × UInt64) :=
  if Step.quotes e ≠ [] ∧ ∀ id ∈ Step.quotes e, id ∈ Q then (Step.granted e).map fun p => (p.1.b, p.2.amount) else []

def signedFor (Q : Finset String) (h : History) : List (PublicKey × UInt64) := h.flatMap (Step.signedFor Q)

/-- No batch names a quote in `Q` beside one that is not in it. -/
def BatchClosed (Q : Finset String) (h : History) : Prop :=
  ∀ e ∈ h, (∀ id ∈ Step.quotes e, id ∈ Q) ∨ ∀ id ∈ Step.quotes e, id ∉ Q

/-- The signatures that clients received in the history, each with its output. -/
def received (h : History) : List (BlindedMessage × BlindSignature) := h.flatMap Step.granted

/-- No `B_` was signed twice, the restore index was only added to, restoring gives what was received, and what was
issued on quotes is the sum over the distinct outputs that were signed for them. -/
structure SignedOnce (h : History) (w : World) : Prop where
  once : ((received h).map fun p => p.1.b).Nodup
  kept : ∀ e ∈ h, ∀ k sig, e.pre.mint.issuedOutputs.lookup k = some sig → e.post.mint.issuedOutputs.lookup k = some sig
  restored : ∀ request, ∀ b ∈ request.outputs, ∀ sig,
    ⟨b, sig⟩ ∈ (w.mint.postRestore request).outputs ↔ ∃ o, (o, sig) ∈ received h ∧ o.b = b
  issued : ∀ Q, BatchClosed Q h →
    ∑ id ∈ Q, rowAt issuedOf w.mint.mintQuotes id = (((signedFor Q h).dedup).map fun s => s.2.toNat).sum

/-! ### The index -/

/-- A call that hands out signatures got to signing. -/
theorem signsOutputs_of_ok {env : Env} {w t : World} {c : Call} {r : Response}
    (hrun : (exec c).run env w = (.ok r, t)) (hne : c.outputsIn env w ≠ []) : SignsOutputs env w c := by
  have hends : CallEnds env w c (.ok r) t.mint t.trace := (exec_ends c).elim hrun
  have hlooks : ¬ c.Looks := fun h => hne h.outputsIn
  refine ⟨?_, (hends.signed hlooks).signable⟩
  cases c with
  | postMint request =>
    obtain ⟨r', t', hmint, -⟩ := run_bind_ok hrun
    obtain ⟨x, t'', hchecks, -⟩ := run_bind_ok hmint
    simp [checksPass, hchecks, Outcome.isOk]
  | batchMint request =>
    obtain ⟨r', t', hmint, -⟩ := run_bind_ok hrun
    obtain ⟨x, t'', hchecks, -⟩ := run_bind_ok hmint
    simp [checksPass, hchecks, Outcome.isOk]
  | postSwap request =>
    obtain ⟨r', t', hswap, -⟩ := run_bind_ok hrun
    obtain ⟨x, t'', hclaim, -⟩ := run_bind_ok hswap
    simp [checksPass, hclaim, Outcome.isOk]
  | postMelt request =>
    generalize t.mint = m, t.trace = tr at hends
    cases hends with
    | looked looks settled => exact looks.elim
    | meltPaid request claimed passed claims answer signed mint_eq => simp [claimed, answer, Except.isOk, Except.toBool]
  | _ => exact absurd rfl hne

/-- The outputs that are handed out are distinct and new to the index, in a step that does not sign again. -/
theorem CallStep.granted_new {w w' : World} {a : Act} (hstep : CallStep w a w')
    (hagain : ¬ Step.SignsAgain ⟨w, a, w'⟩) : ((Step.granted ⟨w, a, w'⟩).map fun p => p.1.b).Nodup ∧
      ∀ p ∈ Step.granted ⟨w, a, w'⟩, w.mint.issuedOutputs.lookup (pointHex p.1.b) = none := by
  obtain ⟨out, hout, -, hrun⟩ := hstep
  simp only [Step.granted, hout]
  cases out with
  | err e => simp [granted]
  | panic => simp [granted]
  | ok r =>
    by_cases hne : a.call.outputsIn a.env w.begin = []
    · simp [granted, hne]
    · have hsigns := signsOutputs_of_ok hrun hne
      have hends : CallEnds a.env w.begin a.call (.ok r) w'.mint w'.trace := (exec_ends a.call).elim hrun
      have hlen := (hends.signed fun h => hne h.outputsIn).length_eq
      simp only [Step.SignsAgain, Micronuts.SignsAgain, hsigns, true_and, not_or, not_not, not_exists, not_and,
        Option.not_isSome_iff_eq_none] at hagain
      obtain ⟨hnodup, hnew⟩ := hagain
      constructor
      · rw [← List.map_fst_zip hlen.le, List.map_map] at hnodup
        exact hnodup
      · exact fun p hp => hnew p.1 (List.of_mem_zip hp).1

theorem indexRows_keys (pairs : List (BlindedMessage × BlindSignature)) :
    (indexRows pairs).map Prod.fst = (pairs.map fun p => p.1.b).map pointHex := by
  simp [indexRows, Function.comp_def]

theorem CallStep.issuedOutputs {w w' : World} {a : Act} (hstep : CallStep w a w') (htotal : SignTotal w.mint.keyset)
    (hpart : ¬ Step.PartlySigns ⟨w, a, w'⟩) :
    w'.mint.issuedOutputs = w.mint.issuedOutputs.insertAll (indexRows (Step.granted ⟨w, a, w'⟩)) := by
  obtain ⟨out, hout, hends⟩ := hstep.exists_ends
  simp only [Step.granted, hout]
  exact hends.issuedOutputs htotal hpart

/-- The index is what was received, one row for each `B_`. -/
structure Indexed (h : History) (w : World) : Prop where
  index : w.mint.issuedOutputs = insertAll ∅ (indexRows (received h))
  nodup : ((received h).map fun p => p.1.b).Nodup

namespace Indexed
variable {h : History} {w w' : World} {a : Act}

theorem keys_nodup (hI : Indexed h w) : ((indexRows (received h)).map Prod.fst).Nodup := by
  rw [indexRows_keys]
  exact hI.nodup.map fun _ _ => pointHex_injective

theorem lookup_eq_some (hI : Indexed h w) {b : PublicKey} {sig : BlindSignature} :
    w.mint.issuedOutputs.lookup (pointHex b) = some sig ↔ ∃ o, (o, sig) ∈ received h ∧ o.b = b := by
  rw [hI.index]
  constructor
  · intro hlook
    rcases mem_of_lookup_insertAll hlook with hrow | hempty
    · obtain ⟨p, hp, heq⟩ := List.mem_map.1 hrow
      obtain ⟨hkey, rfl⟩ := Prod.mk.inj heq
      exact ⟨p.1, hp, pointHex_injective hkey⟩
    · simp at hempty
  · rintro ⟨o, ho, rfl⟩
    exact lookup_insertAll_of_mem hI.keys_nodup (List.mem_map.2 ⟨_, ho, rfl⟩)

theorem step (hI : Indexed h w) (hstep : CallStep w a w') (htotal : SignTotal w.mint.keyset)
    (hpart : ¬ Step.PartlySigns ⟨w, a, w'⟩) (hagain : ¬ Step.SignsAgain ⟨w, a, w'⟩) :
    Indexed (h ++ [⟨w, a, w'⟩]) w' := by
  obtain ⟨hnodup, hnew⟩ := hstep.granted_new hagain
  have hreceived : received (h ++ [⟨w, a, w'⟩]) = received h ++ Step.granted ⟨w, a, w'⟩ := by
    simp [received]
  constructor
  · rw [hreceived, indexRows, List.map_append, insertAll_append, hstep.issuedOutputs htotal hpart, hI.index]
    rfl
  · rw [hreceived, List.map_append, List.nodup_append]
    refine ⟨hI.nodup, hnodup, ?_⟩
    rintro b hb _ hb' rfl
    -- what was received before is in the index, what is new is not
    obtain ⟨p, hp, rfl⟩ := List.mem_map.1 hb
    obtain ⟨p', hp', heq⟩ := List.mem_map.1 hb'
    have hold := hI.lookup_eq_some.2 ⟨p.1, hp, rfl⟩
    rw [← heq, hnew p' hp'] at hold
    cases hold

end Indexed

theorem indexed_of_run {ks : DemoKeyset} {store : Bool} {h : History} {w : World}
    (hrun : Run CallStep (World.init ks store) h w) (htotal : SignTotal ks)
    (hG : ∀ e ∈ h, ¬ Step.PartlySigns e ∧ ¬ Step.SignsAgain e) : Indexed h w := by
  refine Run.invariant (I := Indexed) (Run.PrefixClosed.forall_mem _) ?_ ?_ hrun hG
  · exact ⟨rfl, List.nodup_nil⟩
  · intro h w a w' hrun hG hI hstep
    have hks : w.mint.keyset = ks := (config_of_run hrun).1
    obtain ⟨hpart, hagain⟩ := hG ⟨w, a, w'⟩ (by simp)
    exact hI.step hstep (hks ▸ htotal) hpart hagain

/-! ### What is issued on quotes -/

theorem mintedBy_granted {env : Env} {w : World} {c : Call} {r : Response} {m : DemoMint} {tr : List Event}
    (h : CallEnds env w c (.ok r) m tr) (hquotes : c.quotes ≠ []) :
    mintedBy c (.ok r) = ((granted env w c (.ok r)).map fun p => p.2.amount.toNat).sum := by
  have hlooks : ¬ c.Looks := by
    intro hlooks
    cases c <;> first | exact hquotes rfl | exact hlooks.elim
  have hlen := (h.signed hlooks).length_eq
  have hsum : ((granted env w c (.ok r)).map fun p => p.2.amount.toNat).sum = signaturesValue r.signatures := by
    have hzip := List.map_snd_zip hlen.ge
    show (((c.outputsIn env w).zip r.signatures).map ((fun s => s.amount.toNat) ∘ Prod.snd)).sum = _
    rw [← List.map_map, hzip]
    rfl
  rw [hsum]
  cases c <;> first | rfl | exact absurd rfl hquotes

/-- The issued amounts of the quotes in `Q` grow by what the step signed for them. -/
theorem CallStep.issued_on {w w' : World} {a : Act} (hstep : CallStep w a w') (hfresh : Fresh w a)
    (hpart : ¬ Step.ReissuesPart ⟨w, a, w'⟩) {Q : Finset String}
    (hQ : (∀ id ∈ Step.quotes ⟨w, a, w'⟩, id ∈ Q) ∨ ∀ id ∈ Step.quotes ⟨w, a, w'⟩, id ∉ Q) :
    ∑ id ∈ Q, rowAt issuedOf w'.mint.mintQuotes id = ∑ id ∈ Q, rowAt issuedOf w.mint.mintQuotes id +
      ((Step.signedFor Q ⟨w, a, w'⟩).map fun s => s.2.toNat).sum := by
  obtain ⟨out, hout, hends⟩ := hstep.exists_ends
  obtain ⟨hsum, hothers⟩ := hends.issued (a := a) hfresh hpart
  -- where the step names no quote in `Q`, both sides are as before
  have hsame : (∀ id ∈ Q, out.isOk = false ∨ id ∉ a.call.quotes) → Step.signedFor Q ⟨w, a, w'⟩ = [] →
      ∑ id ∈ Q, rowAt issuedOf w'.mint.mintQuotes id = ∑ id ∈ Q, rowAt issuedOf w.mint.mintQuotes id +
        ((Step.signedFor Q ⟨w, a, w'⟩).map fun s => s.2.toNat).sum := by
    intro hnot hnil
    rw [hnil]
    exact Finset.sum_congr rfl fun id hid => hothers id (hnot id hid)
  unfold Step.signedFor at hsame ⊢
  simp only [Step.quotes, hout] at hQ hsame ⊢
  cases out with
  | err e => exact hsame (fun _ _ => .inl rfl) (by simp)
  | panic => exact hsame (fun _ _ => .inl rfl) (by simp)
  | ok r =>
    dsimp only at hQ hsame ⊢
    by_cases hnil : a.call.quotes = []
    · exact hsame (fun id _ => .inr (by simp [hnil])) (by simp [hnil])
    · rcases hQ with hQ | hQ
      · have hminted := mintedBy_granted hends hnil
        have hrest : rowSum issuedOf w'.mint.mintQuotes + ∑ id ∈ Q, rowAt issuedOf w.mint.mintQuotes id =
            rowSum issuedOf w.mint.mintQuotes + ∑ id ∈ Q, rowAt issuedOf w'.mint.mintQuotes id :=
          rowSum_add_sum Q fun id hid => hothers id (.inr fun hmem => hid (hQ id hmem))
        have hbegin : rowSum issuedOf w.begin.mint.mintQuotes = rowSum issuedOf w.mint.mintQuotes := rfl
        rw [if_pos ⟨hnil, hQ⟩, List.map_map, Step.granted, hout]
        show _ = _ + ((granted a.env w.begin a.call (.ok r)).map fun p => p.2.amount.toNat).sum
        omega
      · refine hsame (fun id hid => .inr fun hmem => hQ id hmem hid) (if_neg ?_)
        rintro ⟨-, hall⟩
        obtain ⟨id, ids, heq⟩ := List.exists_cons_of_ne_nil hnil
        have hmem : id ∈ a.call.quotes := by rw [heq]; exact List.mem_cons_self ..
        exact hQ id hmem (hall id hmem)

theorem issued_on_of_run {ks : DemoKeyset} {store : Bool} {h : History} {w : World}
    (hrun : Run CallStep (World.init ks store) h w) (huuid : UuidsDistinct h) (hpart : ∀ e ∈ h, ¬ Step.ReissuesPart e)
    {Q : Finset String} (hQ : BatchClosed Q h) :
    ∑ id ∈ Q, rowAt issuedOf w.mint.mintQuotes id = ((signedFor Q h).map fun s => s.2.toNat).sum := by
  refine CallStep.invariant (G := fun e => ¬ Step.ReissuesPart e ∧
    ((∀ id ∈ Step.quotes e, id ∈ Q) ∨ ∀ id ∈ Step.quotes e, id ∉ Q))
    (I := fun h w => ∑ id ∈ Q, rowAt issuedOf w.mint.mintQuotes id = ((signedFor Q h).map fun s => s.2.toNat).sum)
    ?_ ?_ hrun huuid fun e he => ⟨hpart e he, hQ e he⟩
  · exact Finset.sum_eq_zero fun id _ => rfl
  · intro h w a w' hG hfresh hI hstep
    rw [hstep.issued_on hfresh hG.1 hG.2, hI]
    simp [signedFor]

theorem signedFor_nodup {h : History} (hnodup : ((received h).map fun p => p.1.b).Nodup) (Q : Finset String) :
    (signedFor Q h).Nodup := by
  have hsub : ((signedFor Q h).map Prod.fst).Sublist ((received h).map fun p => p.1.b) := by
    clear hnodup
    induction h with
    | nil => exact List.Sublist.slnil
    | cons e h ih =>
      simp only [signedFor, received, List.flatMap_cons, List.map_append]
      refine List.Sublist.append ?_ ih
      unfold Step.signedFor
      split
      · simp only [List.map_map, Function.comp_def]
        exact List.Sublist.refl _
      · exact List.nil_sublist _
  exact (hnodup.sublist hsub).of_map _

/-! ### Runs -/

/-- What the run must keep clear of: an output that is signed again, a call that signs a part of its outputs and then
fails, and a batch over a quote of which a part was issued. -/
structure Step.SignsCleanly (e : Step World Act) : Prop where
  again : ¬ Step.SignsAgain e
  partly : ¬ Step.PartlySigns e
  reissues : ¬ Step.ReissuesPart e

instance (e : Step World Act) : Decidable (Step.SignsCleanly e) :=
  decidable_of_iff (¬ Step.SignsAgain e ∧ ¬ Step.PartlySigns e ∧ ¬ Step.ReissuesPart e)
    ⟨fun ⟨h₁, h₂, h₃⟩ => ⟨h₁, h₂, h₃⟩, fun ⟨h₁, h₂, h₃⟩ => ⟨h₁, h₂, h₃⟩⟩

theorem signed_once {ks : DemoKeyset} {store : Bool} {h : History} {w : World}
    (hrun : Run CallStep (World.init ks store) h w) (htotal : SignTotal ks) (huuid : UuidsDistinct h)
    (hclean : ∀ e ∈ h, Step.SignsCleanly e) : SignedOnce h w := by
  have hindexed := indexed_of_run hrun htotal fun e he => ⟨(hclean e he).partly, (hclean e he).again⟩
  refine ⟨hindexed.nodup, ?_, ?_, ?_⟩
  · intro e he k sig hk
    obtain ⟨h₁, h₂, rfl, hrun₁⟩ := hrun.before_of_mem he
    have hks : e.pre.mint.keyset = ks := (config_of_run hrun₁).1
    have hstep : CallStep e.pre e.act e.post := hrun.step_of_mem he
    obtain ⟨-, hnew⟩ := hstep.granted_new (hclean e he).again
    rw [hstep.issuedOutputs (hks ▸ htotal) (hclean e he).partly, lookup_insertAll_of_not_mem, hk]
    intro hmem
    rw [indexRows_keys, List.map_map, List.mem_map] at hmem
    obtain ⟨p, hp, rfl⟩ := hmem
    have := hnew p hp
    rw [Function.comp_apply] at hk
    rw [this] at hk
    cases hk
  · intro request b hb sig
    rw [← hindexed.lookup_eq_some]
    simp only [DemoMint.postRestore, List.mem_filterMap, Option.map_eq_some_iff, RestoreOutput.mk.injEq]
    constructor
    · rintro ⟨b', -, sig', hlook, rfl, rfl⟩
      exact hlook
    · exact fun hlook => ⟨b, hb, sig, hlook, rfl, rfl⟩
  · intro Q hQ
    rw [issued_on_of_run hrun huuid (fun e he => (hclean e he).reissues) hQ,
      (signedFor_nodup hindexed.nodup Q).dedup]

end

section toy
open Toy

theorem signed_once_toy :
    SignedOnce (replay (World.init keyset true) mintingCalls).1 (replay (World.init keyset true) mintingCalls).2 :=
  signed_once (run_replay (by decide +kernel)) signTotal (by decide +kernel) (by decide +kernel)

/-- A quote of two, from which one is minted, and the same request again. -/
def retriedCalls : List (Call × Env) :=
  [(.postMintQuote ⟨2, "sat", none⟩, env), (.postMint ⟨"0190-q1", [⟨1, "00c0ffee", (5 : UInt8)⟩], none⟩, env),
   (.postMint ⟨"0190-q1", [⟨1, "00c0ffee", (5 : UInt8)⟩], none⟩, env)]

/-- The retried mint is answered with a second signature on the same output. -/
theorem signed_twice : ∃ h w, Run CallStep (World.init keyset true) h w ∧ UuidsDistinct h ∧ ¬ SignedOnce h w := by
  refine ⟨_, _, @run_replay _ _ retriedCalls (by decide +kernel), by decide +kernel, fun h => ?_⟩
  have honce := h.once
  revert honce
  decide +kernel

end toy

end Micronuts
