import Micronuts.Mint.Spending
import Micronuts.Nuts.Conditions

/-!
# Locked inputs are spent on their conditions

What it takes to unlock a P2PK or an HTLC input (`Unlocked`), and that `verifySpendingConditions` accepts a
transaction only when every locked input of it is unlocked: each by its own witness on its own secret, or, with a
`SIG_ALL` input, all by the first witness on the whole transaction.
-/

namespace Micronuts

section
variable [Crypto]

/-! ### Signatures -/

/-- At least `n` of the keys, different in their x-coordinates, have signed the message. -/
def SignedBy (message : List UInt8) (keys : List PublicKey) (signatureHexes : List String) (n : UInt64) : Prop :=
  ∃ signers, signers ⊆ keys ∧ (signers.map xCoordinate).Nodup ∧ n.toNat ≤ signers.length ∧
    ∀ k ∈ signers, ∃ hex ∈ signatureHexes, ∃ sig, Crypto.signatureFromStr hex = some sig ∧
      Crypto.verify k message sig = true

omit [Crypto] in
theorem mem_of_mapM {α β : Type} {f : α → Option β} {l : List α} {bs : List β} (h : l.mapM f = some bs) :
    ∀ b ∈ bs, ∃ a ∈ l, f a = some b := by
  induction l generalizing bs with
  | nil => cases h; simp
  | cons a l ih =>
    rw [List.mapM_cons] at h
    obtain ⟨b, hb, h⟩ := Option.bind_eq_some_iff.1 h
    obtain ⟨bs', hbs', h⟩ := Option.bind_eq_some_iff.1 h
    cases h
    intro b' hb'
    rcases List.mem_cons.1 hb' with rfl | hb'
    · exact ⟨a, List.mem_cons_self .., hb⟩
    · obtain ⟨a', ha', hfa⟩ := ih hbs' b' hb'
      exact ⟨a', List.mem_cons_of_mem _ ha', hfa⟩

/-- A key is added once, when one of the signatures is its own. -/
theorem verifyKey_some {message : List UInt8} {locked : PublicKey} {sigs : List Signature}
    {seen seen' : List (List UInt8)} (h : verifyKey message locked sigs seen = some seen') :
    seen' = seen ∨ seen' = xCoordinate locked :: seen ∧ xCoordinate locked ∉ seen ∧
      ∃ sig ∈ sigs, Crypto.verify locked message sig = true := by
  induction sigs generalizing seen with
  | nil => cases h; exact .inl rfl
  | cons sig sigs ih =>
    unfold verifyKey at h
    split at h
    · next hsig =>
      split at h
      · cases h
      · next hnew =>
        rw [List.contains_iff_mem] at hnew
        rcases ih h with rfl | ⟨-, hagain, -⟩
        · exact .inr ⟨rfl, hnew, sig, List.mem_cons_self .., hsig⟩
        · exact absurd (List.mem_cons_self ..) hagain
    · rcases ih h with hseen | ⟨hseen, hnew, sig', hmem, hsig⟩
      · exact .inl hseen
      · exact .inr ⟨hseen, hnew, sig', List.mem_cons_of_mem _ hmem, hsig⟩

/-- The keys that are added have signed, and none of them was there before. -/
theorem verifyKeys_some {message : List UInt8} {sigs : List Signature} {keys : List PublicKey}
    {seen seen' : List (List UInt8)} (h : verifyKeys message sigs keys seen = some seen') (hseen : seen.Nodup) :
    ∃ signers, signers ⊆ keys ∧ seen'.length = signers.length + seen.length ∧
      (signers.map xCoordinate ++ seen).Nodup ∧
      ∀ k ∈ signers, ∃ sig ∈ sigs, Crypto.verify k message sig = true := by
  induction keys generalizing seen with
  | nil => cases h; exact ⟨[], List.Subset.refl _, (Nat.zero_add _).symm, hseen, by simp⟩
  | cons key keys ih =>
    rw [verifyKeys, Option.bind_eq_some_iff] at h
    obtain ⟨mid, hkey, h⟩ := h
    rcases verifyKey_some hkey with rfl | ⟨rfl, hnew, hsigned⟩
    · obtain ⟨signers, hsub, hlen, hnodup, hall⟩ := ih h hseen
      exact ⟨signers, List.subset_cons_of_subset _ hsub, hlen, hnodup, hall⟩
    · obtain ⟨signers, hsub, hlen, hnodup, hall⟩ := ih h (List.nodup_cons.2 ⟨hnew, hseen⟩)
      refine ⟨key :: signers, List.cons_subset_cons _ hsub, ?_, ?_, List.forall_mem_cons.2 ⟨hsigned, hall⟩⟩
      · rw [hlen, List.length_cons, List.length_cons]; omega
      · rw [List.map_cons, List.cons_append]
        exact (List.perm_middle.nodup_iff).1 hnodup

theorem signedBy_of_enough {message : List UInt8} {keys : List PublicKey} {signatureHexes : List String} {n : UInt64}
    (h : enoughSignatures message keys signatureHexes n = true) : SignedBy message keys signatureHexes n := by
  obtain ⟨count, hcount, hle⟩ := Option.any_eq_true _ _ |>.1 h
  obtain ⟨signatures, hsigs, hcount⟩ := Option.bind_eq_some_iff.1 hcount
  obtain ⟨verified, hverified, hcount⟩ := Option.bind_eq_some_iff.1 hcount
  cases hcount
  obtain ⟨signers, hsub, hlen, hnodup, hall⟩ := verifyKeys_some hverified List.nodup_nil
  rw [List.append_nil] at hnodup
  have hle : n.toNat ≤ verified.length := of_decide_eq_true hle
  refine ⟨signers, hsub, hnodup, by simpa [hlen] using hle, fun k hk => ?_⟩
  obtain ⟨sig, hsig, hverify⟩ := hall k hk
  obtain ⟨hex, hhex, hparse⟩ := mem_of_mapM hsigs sig hsig
  exact ⟨hex, hhex, sig, hparse, hverify⟩

theorem signedBy_zero {message : List UInt8} {keys : List PublicKey} {signatureHexes : List String} {n : UInt64}
    (h : n = 0) : SignedBy message keys signatureHexes n :=
  ⟨[], List.nil_subset _, List.nodup_nil, by simp [h], by simp⟩

/-! ### Unlocking one input -/

def Expired (locktime : Option UInt64) (now : UInt64) : Prop := ∃ t, locktime = some t ∧ t < now

/-- Open to anyone after the locktime, or signed by the lock's keys, or by the refund keys after the locktime. -/
def P2pkConditions.Unlocked (c : P2pkConditions) (message : List UInt8) (witness : Option String) (now : UInt64) : Prop :=
  (Expired c.locktime now ∧ c.refundKeys = []) ∨
    ∃ w, witness.bind P2pkWitness.fromJson = some w ∧
      (SignedBy message c.signingPubkeys w.signatures (c.numSigs.getD 1) ∨
        Expired c.locktime now ∧ SignedBy message c.refundKeys w.signatures (c.numSigsRefund.getD 1))

/-- As for P2PK, with the preimage and, where `receivers`, the signatures of `pubkeys`. -/
def HtlcConditions.Unlocked (c : HtlcConditions) (receivers : Prop) (message : List UInt8) (witness : Option String)
    (now : UInt64) : Prop :=
  (Expired c.locktime now ∧ c.refundKeys = []) ∨
    ∃ w, witness.bind HtlcWitness.fromJson = some w ∧
      ((∃ preimage bytes, w.preimage = some preimage ∧ decode32Bytes preimage = some bytes ∧
          c.dataHash = Crypto.sha256 bytes) ∧
        (receivers → SignedBy message c.pubkeys (w.signatures.getD []) (c.numSigs.getD 1)) ∨
      Expired c.locktime now ∧ SignedBy message c.refundKeys (w.signatures.getD []) (c.numSigsRefund.getD 1))

theorem refundPathAt_some {locktime : Option UInt64} {refundKeys : List PublicKey} {numSigsRefund : Option UInt64}
    {now : UInt64} {refund : RefundPath} (h : refundPathAt locktime refundKeys numSigsRefund now = some refund) :
    Expired locktime now ∧
      (refundKeys = [] ∧ refund = .anyone ∨ refundKeys ≠ [] ∧ refund = ⟨refundKeys, numSigsRefund.getD 1⟩) := by
  unfold refundPathAt at h
  split at h
  · next hexpired =>
    obtain ⟨t, ht, hlt⟩ := Option.any_eq_true _ _ |>.1 hexpired
    refine ⟨⟨t, ht, of_decide_eq_true hlt⟩, ?_⟩
    cases h
    split
    · next hkeys => exact .inl ⟨hkeys, rfl⟩
    · next hkeys => exact .inr ⟨hkeys, rfl⟩
  · cases h

/-- Without a signature only an expired lock without refund keys opens. -/
theorem open_of_anyoneCanSpend {locktime : Option UInt64} {refundKeys : List PublicKey} {numSigsRefund : Option UInt64}
    {now : UInt64} (hsat : Satisfiable refundKeys numSigsRefund)
    (h : (refundPathAt locktime refundKeys numSigsRefund now).any RefundPath.isAnyoneCanSpend = true) :
    Expired locktime now ∧ refundKeys = [] := by
  obtain ⟨refund, hrefund, hzero⟩ := Option.any_eq_true _ _ |>.1 h
  obtain ⟨hexpired, ⟨hkeys, -⟩ | ⟨-, rfl⟩⟩ := refundPathAt_some hrefund
  · exact ⟨hexpired, hkeys⟩
  · have hzero : numSigsRefund.getD 1 = 0 := of_decide_eq_true hzero
    cases hn : numSigsRefund with
    | none => rw [hn] at hzero; cases hzero
    | some n =>
      rw [hn, Option.getD_some] at hzero
      have hpos := (hsat.threshold n hn).1
      rw [hzero] at hpos
      exact absurd hpos (by decide)

/-- The refund pathway, once it is there, is open to anyone or to the refund keys. -/
theorem refund_signed {locktime : Option UInt64} {refundKeys : List PublicKey} {numSigsRefund : Option UInt64}
    {now : UInt64} {refund : RefundPath} {message : List UInt8} {signatureHexes : List String}
    (hrefund : refundPathAt locktime refundKeys numSigsRefund now = some refund)
    (h : enoughSignatures message refund.pubkeys signatureHexes refund.requiredSigs = true) :
    (Expired locktime now ∧ refundKeys = []) ∨
      Expired locktime now ∧ SignedBy message refundKeys signatureHexes (numSigsRefund.getD 1) := by
  obtain ⟨hexpired, ⟨hkeys, -⟩ | ⟨-, rfl⟩⟩ := refundPathAt_some hrefund
  · exact .inl ⟨hexpired, hkeys⟩
  · exact .inr ⟨hexpired, signedBy_of_enough h⟩

theorem verifyWitnessSignatures_ok {message : List UInt8} {keys : List PublicKey} {signatureHexes : List String}
    {n : UInt64} (h : verifyWitnessSignatures message keys signatureHexes n = .ok ()) :
    enoughSignatures message keys signatureHexes n = true := by
  unfold verifyWitnessSignatures at h
  split at h
  · assumption
  · cases h

section pathways
variable {message : List UInt8} {witness : Option String} {now : UInt64} {secret : Secret}

theorem verifyP2pk_sound {c : P2pkConditions} (hc : c.WellFormed secret)
    (h : verifyP2pk message (c.requirementsAt now) witness = .ok ()) : c.Unlocked message witness now := by
  unfold verifyP2pk at h
  split at h
  · next hopen => exact .inl (open_of_anyoneCanSpend hc.refund hopen)
  · split at h
    · cases h
    · next w hw =>
      unfold verifyP2pkPathways at h
      split at h
      · next hprimary => exact .inr ⟨w, hw, .inl (signedBy_of_enough hprimary)⟩
      · split at h
        · next hany =>
          obtain ⟨refund, hrefund, henough⟩ := Option.any_eq_true _ _ |>.1 hany
          rcases refund_signed hrefund henough with hopen | hsigned
          · exact .inl hopen
          · exact .inr ⟨w, hw, .inr hsigned⟩
        · cases h

theorem preimageValid_iff {c : HtlcConditions} {w : Option HtlcWitness} : preimageValid c w = true ↔
    ∃ w' preimage bytes, w = some w' ∧ w'.preimage = some preimage ∧ decode32Bytes preimage = some bytes ∧
      c.dataHash = Crypto.sha256 bytes := by
  unfold preimageValid
  rw [Option.any_eq_true]
  constructor
  · rintro ⟨preimage, hpreimage, hmatch⟩
    obtain ⟨w', rfl, hpreimage⟩ := Option.bind_eq_some_iff.1 hpreimage
    unfold HtlcConditions.matchesPreimage at hmatch
    split at hmatch
    · next bytes hbytes => exact ⟨w', preimage, bytes, rfl, hpreimage, hbytes, of_decide_eq_true hmatch⟩
    · cases hmatch
  · rintro ⟨w', preimage, bytes, rfl, hpreimage, hbytes, hhash⟩
    refine ⟨preimage, hpreimage, ?_⟩
    unfold HtlcConditions.matchesPreimage
    rw [hbytes]
    exact decide_eq_true hhash

theorem verifyHtlc_sound {c : HtlcConditions} (hc : c.WellFormed secret)
    (h : verifyHtlc message (c.requirementsAt now) c witness = .ok ()) :
    c.Unlocked (c.pubkeys ≠ []) message witness now := by
  unfold verifyHtlc verifyHtlcPathways at h
  dsimp only at h
  split at h
  · next hopen => exact .inl (open_of_anyoneCanSpend hc.refund hopen.2)
  · split at h
    · next hvalid =>
      obtain ⟨w, preimage, bytes, hw, hpreimage, hbytes, hhash⟩ := preimageValid_iff.1 hvalid
      refine .inr ⟨w, hw, .inl ⟨⟨preimage, bytes, hpreimage, hbytes, hhash⟩, fun hkeys => ?_⟩⟩
      have hreq : (c.requirementsAt now).requiredSigs = c.numSigs.getD 1 := if_neg hkeys
      split at h
      · next hzero => exact signedBy_zero (hreq.symm.trans hzero)
      · rw [hw, Option.bind_some] at h
        split at h
        · cases h
        · next signatures hsigs =>
          rw [hsigs, Option.getD_some, ← hreq]
          exact signedBy_of_enough (verifyWitnessSignatures_ok h)
    · split at h
      · cases h
      · next refund hrefund =>
        split at h
        · cases h
        · next signatures hsigs =>
          obtain ⟨w, hw, hsigs⟩ := Option.bind_eq_some_iff.1 hsigs
          rcases refund_signed hrefund (verifyWitnessSignatures_ok h) with hopen | hsigned
          · exact .inl hopen
          · exact .inr ⟨w, hw, .inr (by rwa [hsigs])⟩

end pathways

/-! ### Reading the inputs -/

/-- The lock is that of the proof's secret, with conditions that parse. -/
structure InputLock.Reads (lock : InputLock) (proof : Proof) : Prop where
  proof_eq : lock.proof = proof
  parses : Secret.parse proof.secret = some lock.secret
  conditions : match lock with
    | .p2pk _ secret c => secret.kind = .p2pk ∧ P2pkConditions.fromSecret secret = .ok c
    | .htlc _ secret c => secret.kind = .htlc ∧ HtlcConditions.fromSecret secret = .ok c

theorem inputLock_ok {proof : Proof} {lock : Option InputLock} (h : inputLock proof = .ok lock) :
    match lock with
    | none => Secret.parse proof.secret = none
    | some lock => lock.Reads proof := by
  unfold inputLock at h
  split at h
  · next hparse =>
    split at h
    · cases h
    · cases h; exact hparse
  · next secret hparse =>
    split at h
    · next hkind =>
      split at h
      · next c hc => cases h; exact ⟨rfl, hparse, hkind, hc⟩
      · cases h
    · next hkind =>
      split at h
      · next c hc => cases h; exact ⟨rfl, hparse, hkind, hc⟩
      · cases h

/-- Each locked input has its lock, each lock its input, and with as many locks as inputs all are locked. -/
theorem inputLocks_ok {inputs : List Proof} {locks : List InputLock} (h : inputLocks inputs = .ok locks) :
    (∀ proof ∈ inputs, Secret.parse proof.secret = none ∨ ∃ lock ∈ locks, lock.Reads proof) ∧
      (∀ lock ∈ locks, ∃ proof ∈ inputs, lock.Reads proof) ∧ locks.length ≤ inputs.length ∧
      (locks.length = inputs.length → ∀ proof ∈ inputs, ∃ lock ∈ locks, lock.Reads proof) := by
  induction inputs generalizing locks with
  | nil => cases h; simp
  | cons proof inputs ih =>
    obtain ⟨lock, hlock, h⟩ := Except.bind_eq_ok.1 h
    obtain ⟨locks', hlocks, h⟩ := Except.bind_eq_ok.1 h
    obtain ⟨hlocked, hread, hlen, hfull⟩ := ih hlocks
    have hlock := inputLock_ok hlock
    cases h
    cases lock with
    | none =>
      refine ⟨List.forall_mem_cons.2 ⟨.inl hlock, hlocked⟩, fun l hl => ?_, Nat.le_succ_of_le hlen, fun heq => ?_⟩
      · obtain ⟨p, hp, hr⟩ := hread l hl
        exact ⟨p, List.mem_cons_of_mem _ hp, hr⟩
      · simp only [Option.toList_none, List.nil_append, List.length_cons] at heq
        omega
    | some lock =>
      have htail : ∀ {p : Proof}, (∃ l ∈ locks', l.Reads p) → ∃ l ∈ lock :: locks', l.Reads p :=
        fun ⟨l, hl, hr⟩ => ⟨l, List.mem_cons_of_mem _ hl, hr⟩
      have hhead : ∃ l ∈ lock :: locks', l.Reads proof := ⟨lock, List.mem_cons_self .., hlock⟩
      refine ⟨List.forall_mem_cons.2 ⟨.inr hhead, fun p hp => (hlocked p hp).imp_right htail⟩, fun l hl => ?_, ?_, ?_⟩
      · rcases List.mem_cons.1 hl with rfl | hl
        · exact ⟨proof, List.mem_cons_self .., hlock⟩
        · obtain ⟨p, hp, hr⟩ := hread l hl
          exact ⟨p, List.mem_cons_of_mem _ hp, hr⟩
      · exact Nat.succ_le_succ hlen
      · intro heq
        exact List.forall_mem_cons.2 ⟨hhead, fun p hp => htail (hfull (Nat.succ.inj heq) p hp)⟩

/-! ### Transactions -/

/-- The input is an ordinary one, or its conditions parse and are met at `now` by what `witness` signs. In an HTLC
`receivers` says when the receivers must sign. -/
def InputUnlocked (receivers : Secret → HtlcConditions → Prop) (message : List UInt8) (witness : Option String)
    (now : UInt64) (proof : Proof) : Prop :=
  ∀ secret, Secret.parse proof.secret = some secret →
    match secret.kind with
    | .p2pk => ∃ c, P2pkConditions.fromSecret secret = .ok c ∧ c.WellFormed secret ∧ c.Unlocked message witness now
    | .htlc => ∃ c, HtlcConditions.fromSecret secret = .ok c ∧ c.WellFormed secret ∧
        c.Unlocked (receivers secret c) message witness now

def SigAll (proof : Proof) : Prop :=
  ∃ secret, Secret.parse proof.secret = some secret ∧
    ((∃ c, P2pkConditions.fromSecret secret = .ok c ∧ c.sigflag = .sigAll) ∨
      ∃ c, HtlcConditions.fromSecret secret = .ok c ∧ c.sigflag = .sigAll)

def Secret.HasTag (s : Secret) (key : String) : Prop := ∃ row ∈ s.tagRows, row.head? = some key

/-- Without a `SIG_ALL` input each input signs its own secret; with one, all inputs carry one condition and the first
witness signs the transaction. -/
structure SpendingSound (receivers : Secret → HtlcConditions → Prop) (inputs : List Proof)
    (outputs : Option (List BlindedMessage)) (quoteId : Option String) (now : UInt64) : Prop where
  individual : (∀ proof ∈ inputs, ¬ SigAll proof) →
    ∀ proof ∈ inputs, InputUnlocked receivers (asBytes proof.secret) proof.witness now proof
  sameCondition : (∃ proof ∈ inputs, SigAll proof) → ∃ kind data tags, ∀ proof ∈ inputs, ∃ secret,
    Secret.parse proof.secret = some secret ∧ secret.kind = kind ∧ secret.data = data ∧ secret.tags = tags
  aggregated : (∃ proof ∈ inputs, SigAll proof) → ∀ proof ∈ inputs,
    InputUnlocked receivers (asBytes (sigAllMessage inputs outputs quoteId)) (inputs.head?.bind Proof.witness) now proof

namespace InputLock.Reads
variable {lock : InputLock} {proof : Proof}

theorem sigAll_iff (h : lock.Reads proof) : SigAll proof ↔ lock.sigflag = .sigAll := by
  cases lock with
  | p2pk p secret c =>
    obtain ⟨-, hparse, hkind, hc⟩ := h
    constructor
    · rintro ⟨s, hs, hflag⟩
      obtain rfl : secret = s := Option.some.inj (hparse.symm.trans hs)
      rcases hflag with ⟨c', hc', hflag⟩ | ⟨c', hc', -⟩
      · rw [hc] at hc'; cases hc'; exact hflag
      · simp [HtlcConditions.fromSecret, hkind] at hc'
    · intro hflag
      exact ⟨secret, hparse, .inl ⟨c, hc, hflag⟩⟩
  | htlc p secret c =>
    obtain ⟨-, hparse, hkind, hc⟩ := h
    constructor
    · rintro ⟨s, hs, hflag⟩
      obtain rfl : secret = s := Option.some.inj (hparse.symm.trans hs)
      rcases hflag with ⟨c', hc', -⟩ | ⟨c', hc', hflag⟩
      · simp [P2pkConditions.fromSecret, hkind] at hc'
      · rw [hc] at hc'; cases hc'; exact hflag
    · intro hflag
      exact ⟨secret, hparse, .inr ⟨c, hc, hflag⟩⟩

/-- What a lock's check shows holds for every input with the same condition. -/
theorem unlocked {message : List UInt8} {witness : Option String} {now : UInt64} {proof' : Proof} {secret : Secret}
    (h : lock.Reads proof) (hverify : lock.verify message witness now = .ok ())
    (hparse : Secret.parse proof'.secret = some secret) (hkind : secret.kind = lock.secret.kind)
    (hdata : secret.data = lock.secret.data) (htags : secret.tags = lock.secret.tags) :
    InputUnlocked (fun _ c => c.pubkeys ≠ []) message witness now proof' := by
  intro s hs
  rw [hparse] at hs; cases hs
  cases lock with
  | p2pk p secret' c =>
    obtain ⟨-, -, hkind', hc⟩ := h
    have hc' : P2pkConditions.fromSecret secret = .ok c := by
      rw [P2pkConditions.fromSecret_congr hkind hdata htags]; exact hc
    rw [hkind.trans hkind']
    exact ⟨c, hc', P2pkConditions.wellFormed hc', verifyP2pk_sound (P2pkConditions.wellFormed hc') hverify⟩
  | htlc p secret' c =>
    obtain ⟨-, -, hkind', hc⟩ := h
    have hc' : HtlcConditions.fromSecret secret = .ok c := by
      rw [HtlcConditions.fromSecret_congr hkind hdata htags]; exact hc
    rw [hkind.trans hkind']
    exact ⟨c, hc', HtlcConditions.wellFormed hc', verifyHtlc_sound (HtlcConditions.wellFormed hc') hverify⟩

end InputLock.Reads

theorem verifyInputsIndividually_ok {locks : List InputLock} {now : UInt64}
    (h : verifyInputsIndividually locks now = .ok ()) :
    ∀ lock ∈ locks, lock.verify (asBytes lock.proof.secret) lock.proof.witness now = .ok () := by
  induction locks with
  | nil => simp
  | cons lock locks ih =>
    obtain ⟨⟨⟩, hlock, h⟩ := Except.bind_eq_ok.1 h
    exact List.forall_mem_cons.2 ⟨hlock, ih h⟩

/-- What a `SIG_ALL` transaction has shown. -/
theorem verifySigAll_ok {inputs : List Proof} {locks : List InputLock} {outputs : Option (List BlindedMessage)}
    {quoteId : Option String} {now : UInt64} (h : verifySigAll inputs locks outputs quoteId now = .ok ()) :
    locks.length = inputs.length ∧ ∃ first ∈ locks,
      first.verify (asBytes (sigAllMessage inputs outputs quoteId)) (inputs.head?.bind Proof.witness) now = .ok () ∧
      ∀ lock ∈ locks, lock.secret.kind = first.secret.kind ∧ lock.secret.data = first.secret.data ∧
        lock.secret.tags = first.secret.tags := by
  cases locks with
  | nil => cases h
  | cons first rest =>
    unfold verifySigAll at h
    dsimp only at h
    split at h
    · cases h
    · next hguard =>
      split at h
      · cases h
      · next hsame =>
        rw [not_or, not_not] at hguard
        refine ⟨hguard.1, first, List.mem_cons_self .., h, List.forall_mem_cons.2 ⟨⟨rfl, rfl, rfl⟩, ?_⟩⟩
        rw [not_not, List.all_eq_true] at hsame
        intro lock hlock
        simpa [sameCondition, and_assoc] using hsame lock hlock

/-- No locked input gets past the check without what its conditions ask for. -/
theorem verifySpendingConditions_sound {inputs : List Proof} {outputs : Option (List BlindedMessage)}
    {quoteId : Option String} {now : UInt64} (h : verifySpendingConditions inputs outputs quoteId now = .ok ()) :
    SpendingSound (fun _ c => c.pubkeys ≠ []) inputs outputs quoteId now := by
  obtain ⟨locks, hlocks, h⟩ := Except.bind_eq_ok.1 h
  obtain ⟨hlocked, hread, -, hfull⟩ := inputLocks_ok hlocks
  split at h
  · next hany =>
    obtain ⟨lock, hlock, hflag⟩ := List.any_eq_true.1 hany
    obtain ⟨proof, hproof, hreads⟩ := hread lock hlock
    have hsigAll : ∃ proof ∈ inputs, SigAll proof := ⟨proof, hproof, hreads.sigAll_iff.2 (of_decide_eq_true hflag)⟩
    obtain ⟨hlen, first, hfirst, hverify, hsame⟩ := verifySigAll_ok h
    obtain ⟨firstProof, -, hfirstReads⟩ := hread first hfirst
    refine ⟨fun hnone => ?_, fun _ => ?_, fun _ p hp => ?_⟩
    · obtain ⟨p, hp, hps⟩ := hsigAll
      exact absurd hps (hnone p hp)
    · refine ⟨first.secret.kind, first.secret.data, first.secret.tags, fun p hp => ?_⟩
      obtain ⟨l, hl, hr⟩ := hfull hlen p hp
      exact ⟨l.secret, hr.parses, hsame l hl⟩
    · obtain ⟨l, hl, hr⟩ := hfull hlen p hp
      obtain ⟨hkind, hdata, htags⟩ := hsame l hl
      exact hfirstReads.unlocked hverify hr.parses hkind hdata htags
  · next hany =>
    have hnone : ∀ p ∈ inputs, ¬ SigAll p := by
      rintro p hp hsig
      rcases hlocked p hp with hparse | ⟨l, hl, hr⟩
      · obtain ⟨s, hs, -⟩ := hsig
        rw [hparse] at hs; cases hs
      · exact hany (List.any_eq_true.2 ⟨l, hl, decide_eq_true (hr.sigAll_iff.1 hsig)⟩)
    refine ⟨fun _ p hp => ?_, fun ⟨p, hp, hsig⟩ => absurd hsig (hnone p hp), fun ⟨p, hp, hsig⟩ => absurd hsig (hnone p hp)⟩
    rcases hlocked p hp with hparse | ⟨l, hl, hr⟩
    · intro s hs
      rw [hparse] at hs; cases hs
    · have hverify := verifyInputsIndividually_ok h l hl
      rw [hr.proof_eq] at hverify
      exact hr.unlocked hverify hr.parses rfl rfl rfl

end

section toy
open Toy

/-- The text of a well-known secret. -/
def nut10 (kind data tags : String) : String :=
  "[\"" ++ kind ++ "\",\x7b\"nonce\":\"n\",\"data\":\"" ++ data ++ "\",\"tags\":" ++ tags ++ "\x7d]"

/-- Locked to the key 7, and signed by it. -/
def keyCoin : Proof :=
  { coin 1 (nut10 "P2PK" "020000000000000000000000000000000000000000000000000000000000000007" "[]") with
    witness := some "\x7b\"signatures\":[\"08\"]\x7d" }

/-- The hash of the number one. -/
def hashOfOne : String := "ec4916dd28fc4c10d78e287ca5d9cc51ee1ae73cbfde08c6b37324cbfaac8bc5"

/-- Locked to a hash, with a `pubkeys` tag that lists no key, and spent with the preimage alone. -/
def hashCoin : Proof :=
  { coin 1 (nut10 "HTLC" hashOfOne "[[\"pubkeys\"]]") with
    witness := some "\x7b\"preimage\":\"0000000000000000000000000000000000000000000000000000000000000001\"\x7d" }

theorem verifySpendingConditions_sound_toy :
    SpendingSound (fun _ c => c.pubkeys ≠ []) [keyCoin, hashCoin] none (some "0190-q1") 100 :=
  verifySpendingConditions_sound (by decide +kernel)

def hashSecret : Secret := ⟨.htlc, "n", hashOfOne, some [["pubkeys"]]⟩

theorem hashSecret_conditions {c : HtlcConditions} (h : HtlcConditions.fromSecret hashSecret = .ok c) :
    c.pubkeys = [] ∧ c.numSigs = none ∧ c.locktime = none ∧ c.sigflag = .sigInputs := by
  have hc : HtlcConditions.fromSecret hashSecret = .ok ⟨digest (bytes32 1), [], none, none, [], none, .sigInputs⟩ := by
    decide +kernel
  rw [hc] at h
  cases h
  exact ⟨rfl, rfl, rfl, rfl⟩

/-- The `pubkeys` tag of `hashCoin` is there, and no receiver has signed. -/
theorem hashCoin_unsigned : verifySpendingConditions [hashCoin] none none 100 = .ok () ∧
    ¬ SpendingSound (fun secret _ => secret.HasTag "pubkeys") [hashCoin] none none 100 := by
  refine ⟨by decide +kernel, fun hsound => ?_⟩
  have hparse : Secret.parse hashCoin.secret = some hashSecret := by decide +kernel
  have hsigAll : ∀ proof ∈ [hashCoin], ¬ SigAll proof := by
    rw [List.forall_mem_singleton]
    rintro ⟨s, hs, hflag⟩
    obtain rfl : hashSecret = s := Option.some.inj (hparse.symm.trans hs)
    rcases hflag with ⟨c, hc, -⟩ | ⟨c, hc, hflag⟩
    · cases hc
    · rw [(hashSecret_conditions hc).2.2.2] at hflag
      cases hflag
  obtain ⟨c, hc, -, hunlocked⟩ := hsound.individual hsigAll hashCoin (List.mem_singleton_self _) hashSecret hparse
  obtain ⟨hkeys, hnum, hlocktime, -⟩ := hashSecret_conditions hc
  have hlocked : ¬ Expired c.locktime 100 := by
    rintro ⟨t, ht, -⟩
    rw [hlocktime] at ht; cases ht
  rcases hunlocked with ⟨hexpired, -⟩ | ⟨w, -, ⟨-, hsigned⟩ | ⟨hexpired, -⟩⟩
  · exact hlocked hexpired
  · obtain ⟨signers, hsub, -, hle, -⟩ := hsigned ⟨["pubkeys"], List.mem_singleton_self _, rfl⟩
    rw [hkeys] at hsub
    rw [hnum, List.subset_nil.1 hsub] at hle
    exact absurd hle (by decide)
  · exact hlocked hexpired

end toy

end Micronuts
