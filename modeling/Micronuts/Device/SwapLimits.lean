import Micronuts.Device.Session
import Micronuts.Nuts.Dhke

/-!
# What a swap needs of the frames (`micronuts-app`: `command_handler.rs`)

The outputs of a swap, the signatures on them and the new proofs go through frames of one size, and each handler checks its
own. A proof takes 33, 97 and more than 150 bytes in them: a swap that was started can be finished exactly when the token
that is handed out at its end fits (`canFinish_iff`).
-/

namespace Micronuts
open Exec Decoder MinicborCodec

/-! ### Sizes -/

/-- The head of an item with this argument. -/
def headSize (n : UInt64) : Nat :=
  if n < 24 then 1 else if n < 0x100 then 2 else if n < 0x10000 then 3 else if n < 0x100000000 then 5 else 9

theorem one_le_headSize (n : UInt64) : 1 ≤ headSize n := by
  unfold headSize
  split_ifs <;> decide

def bytesSize (n : Nat) : Nat := headSize (UInt64.ofNat n) + n

theorem le_bytesSize (n : Nat) : n ≤ bytesSize n := Nat.le_add_left ..

/-- An item is as long as its head and its bytes. -/
class MinicborSizes [Minicbor] [MinicborCodec] : Prop where
  putMap_length : ∀ n, (putMap n).length = headSize n
  putArray_length : ∀ n, (putArray n).length = headSize n
  putStr_length : ∀ s, (putStr s).length = bytesSize (asBytes s).length
  putBytes_length : ∀ bs, (putBytes bs).length = bytesSize bs.length
  putU64_length : ∀ n, (putU64 n).length = headSize n

open MinicborSizes

section
variable [Crypto] [Minicbor] [UrScanner] [Curve]

/-- The proofs that are not passed over. -/
def blindable (rng : Nat → List UInt8) : Nat → List Token.Proof → List Token.Proof
  | _, [] => []
  | i, proof :: proofs =>
    if (blindProof (rng i) proof).isSome then proof :: blindable rng (i + 1) proofs else blindable rng (i + 1) proofs

/-- Amount, secret, point and DLEQ proof, each behind its key. -/
def newProofSize (p : Token.Proof) : Nat :=
  1 + (2 + headSize p.amount) + (2 + bytesSize (asBytes p.secret).length) + (2 + bytesSize 33) +
    (2 + (1 + 3 * (2 + bytesSize 32)))

/-- Mint, unit, memo and one group with these proofs, under the id of the token's first. -/
def exportSize (token : TokenV4) (proofs : List Token.Proof) : Nat :=
  1 + (2 + bytesSize (asBytes token.mint).length) + (2 + bytesSize (asBytes token.unit).length) +
    (2 + bytesSize (asBytes "Swapped via Micronuts").length) +
    (2 + (1 + (1 + (2 + bytesSize (((token.firstKeysetId.bind Hex.decode).getD []).length)) +
      (2 + (headSize (UInt64.ofNat proofs.length) + (proofs.map newProofSize).sum)))))

/-- The token with these proofs in place of its own. -/
def exportToken (token : TokenV4) (keysetId : String) (proofs : List Token.Proof) : TokenV4 :=
  { mint := token.mint, unit := token.unit, memo := some "Swapped via Micronuts", tokens := [{ keysetId, proofs }] }

/-! ### A mint that signs -/

variable [ScalarArithmetic]

/-- The signature on an output and its DLEQ proof, with some nonce. -/
def SignsEntry (d : SecretKey) (output : PublicKey) (entry : List UInt8) : Prop :=
  ∃ nonce cPrime dleq, signMessage d output = some cPrime ∧ proveDleq output d nonce = some dleq ∧
    entry = Crypto.toBytes cPrime ++ (Crypto.toSecretBytes dleq.e ++ Crypto.toSecretBytes dleq.s)

/-- What the holder of a key can answer to the outputs of a response. -/
def MintAnswers (d : SecretKey) (outputs payload : List UInt8) : Prop :=
  ∃ points entries, outputs = points.flatMap Crypto.toBytes ∧ List.Forall₂ (SignsEntry d) points entries ∧
    payload = entries.flatten

variable [MinicborCodec]

/-- From the state after the outputs were answered: the mint has signatures in a payload that fits, the device takes them,
and then hands out a token that decodes to the new proofs, which have the secrets and amounts of the old. -/
def CanFinish (d : SecretKey) (s : FirmwareState) (outputs : List UInt8) (proofs : List Token.Proof) : Prop :=
  ∃ payload signed s' fetched s'' exported, payload.length ≤ maxPayloadSize ∧ MintAnswers d outputs payload ∧
    (handleSendSignatures payload).run () s = (.ok signed, s') ∧ signed.status = .ok ∧
    handleGetProofs.run () s' = (.ok fetched, s'') ∧ fetched.status = .ok ∧
    decodeToken fetched.payload = some exported ∧ s'.newProofs = some exported.proofs ∧
    exported.proofs.map (fun p => (p.secret, p.amount)) = proofs.map fun p => (p.secret, p.amount)

/-! ### How long what is written is -/

omit [Minicbor] [UrScanner] [Curve] [ScalarArithmetic] [MinicborCodec] in
theorem newProofSize_ge (p : Token.Proof) : 155 + (asBytes p.secret).length ≤ newProofSize p := by
  have hfixed : bytesSize 33 = 35 ∧ bytesSize 32 = 34 := by decide
  have hamount := one_le_headSize p.amount
  have hsecret := one_le_headSize (UInt64.ofNat (asBytes p.secret).length)
  rw [newProofSize, hfixed.1, hfixed.2, bytesSize]
  omega

omit [Minicbor] [UrScanner] [Curve] [ScalarArithmetic] [MinicborCodec] in
theorem newProofSize_sum_ge (ps : List Token.Proof) : ps.length * 155 ≤ (ps.map newProofSize).sum := by
  have hge : ∀ x ∈ ps.map newProofSize, 155 ≤ x := by
    rw [List.forall_mem_map]
    exact fun p _ => (Nat.le_add_right ..).trans (newProofSize_ge p)
  have := List.card_nsmul_le_sum _ 155 hge
  rwa [List.length_map, smul_eq_mul] at this

section sizes
omit [UrScanner] [Curve] [ScalarArithmetic]

variable [MinicborSizes]

omit [Crypto] in
theorem key_length : ∀ key ∈ ["a", "s", "c", "d", "e", "r", "i", "p", "m", "u", "t"], (putStr key).length = 2 := by
  intro key hkey
  have hlen : ∀ key ∈ ["a", "s", "c", "d", "e", "r", "i", "p", "m", "u", "t"], bytesSize (asBytes key).length = 2 := by
    decide +kernel
  rw [putStr_length, hlen key hkey]

theorem ProofDleq.encode_length (dleq : ProofDleq) : dleq.encode.length = 1 + 3 * (2 + bytesSize 32) := by
  have hhead : headSize 3 = 1 := by decide
  simp only [ProofDleq.encode, List.length_append, putMap_length, putBytes_length, Crypto.toSecretBytes_length, hhead,
    key_length "e" (by simp), key_length "s" (by simp), key_length "r" (by simp)]
  omega

/-- A proof as the device makes it. -/
structure Token.Proof.IsNew (p : Token.Proof) (keysetId : String) : Prop where
  keysetId : p.keysetId = keysetId
  c : p.c.length = 33
  dleq : p.dleq ≠ none

theorem Token.Proof.IsNew.encode_length {p : Token.Proof} {keysetId : String} (h : p.IsNew keysetId) :
    p.encode.length = newProofSize p := by
  obtain ⟨amount, id, secret, c, dleq⟩ := p
  have hc := h.c
  rcases dleq with - | dleq
  · exact absurd rfl h.dleq
  have hhead : headSize 4 = 1 := by decide
  dsimp only at hc
  simp only [Token.Proof.encode, List.length_append, putMap_length, putU64_length, putStr_length secret, putBytes_length, hc,
    ProofDleq.encode_length, key_length "a" (by simp), key_length "s" (by simp), key_length "c" (by simp),
    key_length "d" (by simp), hhead, newProofSize]
  omega

/-- The token that is handed out is as long as its sizes say. -/
theorem encodeToken_length {token : TokenV4} {ps : List Token.Proof} {keysetId : String} {idBytes bytes : List UInt8}
    (hid : token.firstKeysetId = some keysetId) (hhex : Hex.decode keysetId = some idBytes)
    (hnew : ∀ p ∈ ps, p.IsNew keysetId)
    (hencode : encodeToken (exportToken token keysetId ps) = some bytes) : bytes.length = exportSize token ps := by
  have hgroups : [(⟨keysetId, ps⟩ : TokenV4Token)].mapM TokenV4Token.encode = some [putMap 2 ++ (putStr "i" ++
      (putBytes idBytes ++ (putStr "p" ++ (putArray (UInt64.ofNat ps.length) ++ ps.flatMap Token.Proof.encode))))] := by
    rw [List.mapM_cons, TokenV4Token.encode, hhex]
    rfl
  have hproofs : (ps.flatMap Token.Proof.encode).length = (ps.map newProofSize).sum := by
    rw [List.length_flatMap]
    exact congrArg List.sum (List.map_congr_left fun p hp => (hnew p hp).encode_length)
  have hmap : headSize 4 = 1 ∧ headSize 2 = 1 ∧ headSize (UInt64.ofNat 1) = 1 := by decide
  rw [encodeToken, TokenV4.encode, exportToken, hgroups] at hencode
  cases hencode
  simp only [List.length_append, List.flatten_cons, List.flatten_nil, List.length_nil, putMap_length,
    putArray_length, putStr_length token.mint, putStr_length token.unit, putStr_length "Swapped via Micronuts",
    putBytes_length, hproofs, key_length "m" (by simp), key_length "u" (by simp), key_length "d" (by simp),
    key_length "t" (by simp), key_length "i" (by simp), key_length "p" (by simp), List.length_singleton, hmap, exportSize,
    hid,
    Option.bind_some, hhex, Option.getD_some]
  omega

omit [Minicbor] [MinicborCodec] [MinicborSizes] in
/-- Sizes are of secrets and amounts alone. -/
theorem map_newProofSize {ps qs : List Token.Proof}
    (h : ps.map (fun p => (p.secret, p.amount)) = qs.map fun p => (p.secret, p.amount)) :
    ps.map newProofSize = qs.map newProofSize := by
  have hpair := congrArg (List.map fun x : String × UInt64 =>
    1 + (2 + headSize x.2) + (2 + bytesSize (asBytes x.1).length) + (2 + bytesSize 33) + (2 + (1 + 3 * (2 + bytesSize 32)))) h
  rw [List.map_map, List.map_map] at hpair
  exact hpair

omit [Minicbor] [MinicborCodec] [MinicborSizes] in
theorem exportSize_congr {token : TokenV4} {ps qs : List Token.Proof}
    (h : ps.map (fun p => (p.secret, p.amount)) = qs.map fun p => (p.secret, p.amount)) :
    exportSize token ps = exportSize token qs := by
  have hlen : ps.length = qs.length := by simpa using congrArg List.length h
  rw [exportSize, exportSize, map_newProofSize h, hlen]

end sizes

/-! ### Outputs and signatures -/

section
variable {rng : Nat → List UInt8} {proofs : List Token.Proof}

/-- The output is of the proof's secret. -/
def OutputOf (b : Blinded) (p : Token.Proof) : Prop := blindMessage (asBytes p.secret) b.blinder = some b.blinded

omit [Minicbor] [UrScanner] [ScalarArithmetic] [MinicborCodec] in
theorem blindProofs_blindable (i : Nat) : List.Forall₂ OutputOf (blindProofs rng i proofs).1 (blindable rng i proofs) ∧
    (blindProofs rng i proofs).2.1 = (blindable rng i proofs).map Token.Proof.secret ∧
    (blindProofs rng i proofs).2.2 = (blindable rng i proofs).map Token.Proof.amount := by
  induction proofs generalizing i with
  | nil => exact ⟨.nil, rfl, rfl⟩
  | cons p proofs ih =>
    obtain ⟨houtputs, hsecrets, hamounts⟩ := ih (i + 1)
    rw [blindProofs, blindable]
    rcases hp : blindProof (rng i) p with - | b
    · exact ⟨houtputs, hsecrets, hamounts⟩
    · exact ⟨.cons (blindProof_eq_some hp) houtputs, congrArg _ hsecrets, congrArg _ hamounts⟩

omit [Minicbor] [ScalarArithmetic] [MinicborCodec] in
theorem handleGetBlinded_run {s : FirmwareState} {token : TokenV4} (htoken : s.importedToken = some token)
    (hne : ¬ (blindProofs rng 0 token.proofs).1.isEmpty = true)
    (hlen : ¬ maxPayloadSize < (blindProofs rng 0 token.proofs).1.length * 33) :
    ∃ response s', (handleGetBlinded rng).run () s = (.ok response, s') := by
  rw [handleGetBlinded, run_bind_of_ok get_run, run_bind_of_ok (okOr_run htoken)]
  dsimp only
  rw [run_bind_of_ok (failIf_pass hne), run_bind_of_ok (failIf_pass hlen), run_bind_of_ok modify_run, run_pure]
  exact ⟨_, _, rfl⟩

omit [Minicbor] [ScalarArithmetic] [MinicborCodec] in
/-- What the device answers, and keeps. -/
theorem handleGetBlinded_ok {s s' : FirmwareState} {token : TokenV4} {response : Protocol.Response}
    (htoken : s.importedToken = some token) (hrun : (handleGetBlinded rng).run () s = (.ok response, s')) :
    ∃ bs, bs ≠ [] ∧ List.Forall₂ OutputOf bs (blindable rng 0 token.proofs) ∧
      response.payload = bs.flatMap (fun b => Crypto.toBytes b.blinded) ∧ s'.blindedMessages = some bs ∧
      s'.swapSecrets = some ((blindable rng 0 token.proofs).map Token.Proof.secret) ∧
      s'.swapAmounts = some ((blindable rng 0 token.proofs).map Token.Proof.amount) ∧ s'.importedToken = some token := by
  have hends : (handleGetBlinded rng).Ends () s fun o t => ∀ response, o = .ok response → ∃ bs, bs ≠ [] ∧
      List.Forall₂ OutputOf bs (blindable rng 0 token.proofs) ∧
      response.payload = bs.flatMap (fun b => Crypto.toBytes b.blinded) ∧ t.blindedMessages = some bs ∧
      t.swapSecrets = some ((blindable rng 0 token.proofs).map Token.Proof.secret) ∧
      t.swapAmounts = some ((blindable rng 0 token.proofs).map Token.Proof.amount) ∧ t.importedToken = some token := by
    obtain ⟨houtputs, hsecrets, hamounts⟩ := @blindProofs_blindable _ _ rng token.proofs 0
    rw [handleGetBlinded]
    refine Ends.bind_get (Ends.bind_okOr (fun token' htoken' => ?_) fun _ => by simp)
    rw [htoken, Option.some.injEq] at htoken'
    subst htoken'
    refine Ends.bind_failIf (fun hne => ?_) fun _ => by simp
    refine Ends.bind_failIf (fun hlen => ?_) fun _ => by simp
    refine Ends.bind_modify (.pure fun response heq => ?_)
    cases heq
    refine ⟨_, by simpa using hne, houtputs, (withPayload_getD ?_).2, rfl, congrArg some hsecrets, congrArg some hamounts,
      htoken⟩
    simpa [List.length_flatMap, Crypto.toBytes_length] using hlen
  have := hends
  rw [Exec.Ends, hrun] at this
  exact this response rfl

end

section
variable {state s : FirmwareState} {keysetId : String} {d : SecretKey} {b : Blinded} {p : Token.Proof} {entry : List UInt8}

/-- The fields of a proof are in their places of the state. -/
def Keeps (state : FirmwareState) (kept : List Token.Proof) : Prop :=
  state.swapSecrets = some (kept.map Token.Proof.secret) ∧ state.swapAmounts = some (kept.map Token.Proof.amount)

omit [Minicbor] [Curve] [ScalarArithmetic] [MinicborCodec] in
theorem unwrapAt_run {α : Type} {l : Option (List α)} {i : Nat} {a : α} (h : l.bind (·[i]?) = some a) :
    (unwrapAt l i).run () s = (.ok a, s) := by
  rw [unwrapAt, h]
  rfl

/-- The key holder can sign whatever it is sent. -/
def CanSign (d : SecretKey) : Prop := ∀ output, ∃ nonce dleq, proveDleq output d nonce = some dleq

omit [Minicbor] [UrScanner] [MinicborCodec] in
theorem CanSign.signMessage [CurveGroup] (h : CanSign d) (output : PublicKey) : ∃ c, signMessage d output = some c := by
  obtain ⟨nonce, dleq, hprove⟩ := h output
  obtain ⟨c, -, -, hsign, -⟩ := proveDleq_eq_some hprove
  exact ⟨c, hsign⟩

variable (keysetId) in
omit [Minicbor] [MinicborCodec] in
theorem signedProof_run [CurveGroup] {kept : List Token.Proof} {i : Nat} (hcan : CanSign d) (hkeeps : Keeps state kept)
    (hp : kept[i]? = some p) (hblind : OutputOf b p) (hentry : SignsEntry d b.blinded entry) :
    ∃ new, (signedProof state keysetId (Curve.publicKey d) entry i b).run () s = (.ok new, s) ∧
      (new.secret, new.amount) = (p.secret, p.amount) ∧ new.IsNew keysetId := by
  obtain ⟨nonce, cPrime, dleq, hsign, hprove, rfl⟩ := hentry
  obtain ⟨y, hy, -⟩ := blindMessage_eq_some hblind
  obtain ⟨c, hc⟩ := hcan.signMessage y
  have hunblind : unblindSignature cPrime b.blinder (Curve.publicKey d) = some c :=
    (unblindSignature_signMessage hy hblind hsign).trans hc
  have hdleq := verifyDleq_proveDleq hsign hprove
  have hpoint : Crypto.fromBytes ((Crypto.toBytes cPrime ++ (Crypto.toSecretBytes dleq.e ++
      Crypto.toSecretBytes dleq.s)).take 33) = some cPrime := by
    rw [List.take_left' (Crypto.toBytes_length _), Crypto.fromBytes_toBytes]
  have he : Crypto.fromSlice (((Crypto.toBytes cPrime ++ (Crypto.toSecretBytes dleq.e ++
      Crypto.toSecretBytes dleq.s)).drop 33).take 32) = some dleq.e := by
    rw [List.drop_left' (Crypto.toBytes_length _), List.take_left' (Crypto.toSecretBytes_length _),
      Crypto.fromSlice_toSecretBytes]
  have hs : Crypto.fromSlice ((Crypto.toBytes cPrime ++ (Crypto.toSecretBytes dleq.e ++
      Crypto.toSecretBytes dleq.s)).drop 65) = some dleq.s := by
    rw [← List.append_assoc, List.drop_left' (by simp [Crypto.toBytes_length, Crypto.toSecretBytes_length]),
      Crypto.fromSlice_toSecretBytes]
  have hsecret : state.swapSecrets.bind (·[i]?) = some p.secret := by simp [hkeeps.1, hp]
  have hamount : state.swapAmounts.bind (·[i]?) = some p.amount := by simp [hkeeps.2, hp]
  let signed : Token.Proof :=
    { amount := p.amount, keysetId, secret := p.secret, c := Crypto.toBytes c, dleq := some ⟨dleq.e, dleq.s, b.blinder⟩ }
  refine ⟨signed, ?_, rfl, rfl, Crypto.toBytes_length c, nofun⟩
  rw [signedProof, run_bind_of_ok (okOr_run hpoint), run_bind_of_ok (okOr_run he), run_bind_of_ok (okOr_run hs),
    run_bind_of_ok (failIf_pass (not_not.2 hdleq)), run_bind_of_ok (okOr_run hunblind),
    run_bind_of_ok (unwrapAt_run hsecret), run_bind_of_ok (unwrapAt_run hamount)]
  rfl

omit [Minicbor] [UrScanner] [MinicborCodec] in
theorem SignsEntry.length {output : PublicKey} (h : SignsEntry d output entry) : entry.length = entryLen := by
  obtain ⟨nonce, cPrime, dleq, -, -, rfl⟩ := h
  simp [Crypto.toBytes_length, Crypto.toSecretBytes_length, entryLen]

omit [Minicbor] [UrScanner] [MinicborCodec] in
theorem entries_length {bs : List Blinded} {entries : List (List UInt8)}
    (h : List.Forall₂ (fun b entry => SignsEntry d b.blinded entry) bs entries) :
    entries.flatten.length = bs.length * entryLen := by
  induction h with
  | nil => rfl
  | cons hentry _ ih =>
    rw [List.flatten_cons, List.length_append, hentry.length, ih, List.length_cons, Nat.succ_mul, Nat.add_comm]

variable (keysetId) in
omit [Minicbor] [MinicborCodec] in
/-- The device takes the signatures on its outputs, one after another. -/
theorem signedProofs_run [CurveGroup] {kept ks : List Token.Proof} {bs : List Blinded} {entries : List (List UInt8)}
    {payload : List UInt8} {i : Nat} (hcan : CanSign d) (hkeeps : Keeps state kept) (hks : kept.drop i = ks)
    (houtputs : List.Forall₂ OutputOf bs ks)
    (hentries : List.Forall₂ (fun b entry => SignsEntry d b.blinded entry) bs entries)
    (hpayload : payload.drop (i * entryLen) = entries.flatten) :
    ∃ ps, (signedProofs state keysetId (Curve.publicKey d) payload i bs).run () s = (.ok ps, s) ∧
      ps.map (fun p => (p.secret, p.amount)) = ks.map (fun p => (p.secret, p.amount)) ∧ ∀ p ∈ ps, p.IsNew keysetId := by
  induction houtputs generalizing i entries with
  | nil => exact ⟨[], rfl, rfl, by simp⟩
  | @cons b p bs ks hblind houtputs ih =>
    cases hentries with
    | @cons _ entry _ entries hentry hentries =>
      have hp : kept[i]? = some p := by
        rw [← Nat.add_zero i, ← List.getElem?_drop, hks]
        rfl
      have hrest : kept.drop (i + 1) = ks := by
        rw [← List.drop_drop, hks]
        rfl
      have htake : (payload.drop (i * entryLen)).take entryLen = entry := by
        rw [hpayload, List.flatten_cons, List.take_left' hentry.length]
      have hdrop : payload.drop ((i + 1) * entryLen) = entries.flatten := by
        rw [Nat.succ_mul, ← List.drop_drop, hpayload, List.flatten_cons, List.drop_left' hentry.length]
      obtain ⟨new, hnew, hpair, hisNew⟩ := signedProof_run keysetId (s := s) hcan hkeeps hp hblind hentry
      obtain ⟨ps, hps, hpairs, hall⟩ := ih hrest hentries hdrop
      refine ⟨new :: ps, ?_, by rw [List.map_cons, List.map_cons, hpair, hpairs], List.forall_mem_cons.2 ⟨hisNew, hall⟩⟩
      rw [signedProofs, htake, run_bind_of_ok hnew, run_bind_of_ok hps]
      rfl

end

/-! ### The three messages -/

section
variable {s s' : FirmwareState} {token : TokenV4} {d : SecretKey} {kept : List Token.Proof} {bs : List Blinded}
  {keysetId : String}

omit [Minicbor] [UrScanner] [Curve] [ScalarArithmetic] [MinicborCodec] in
/-- Every part of what fits is shorter. -/
theorem exportToken_sized {ps : List Token.Proof} {idBytes : List UInt8} (hid : token.firstKeysetId = some keysetId)
    (hhex : Hex.decode keysetId = some idBytes) (hencode : Hex.encode idBytes = keysetId)
    (hnew : ∀ p ∈ ps, p.IsNew keysetId) (hsize : exportSize token ps ≤ maxPayloadSize) :
    (exportToken token keysetId ps).Sized := by
  have hbytes := le_bytesSize
  have hsecret : ∀ p ∈ ps, (asBytes p.secret).length ≤ (ps.map newProofSize).sum := by
    intro p hp
    have hle : newProofSize p ≤ (ps.map newProofSize).sum := List.single_le_sum (by simp) _ (List.mem_map_of_mem hp)
    have := newProofSize_ge p
    omega
  have hcount := newProofSize_sum_ge ps
  have hmint := hbytes (asBytes token.mint).length
  have hunit := hbytes (asBytes token.unit).length
  have hidLen := hbytes idBytes.length
  simp only [exportSize, hid, Option.bind_some, hhex, Option.getD_some, maxPayloadSize] at hsize
  have hkeyset : (asBytes keysetId).length = 2 * idBytes.length := by rw [← hencode, length_asBytes_encode]
  refine ⟨by show (asBytes token.mint).length < _; omega, by show (asBytes token.unit).length < _; omega, ?_,
    show 1 < 2 ^ 64 by decide, ?_⟩
  · intro memo hmemo
    cases hmemo
    decide +kernel
  · intro g hg
    obtain rfl := List.mem_singleton.1 hg
    refine ⟨by dsimp only; omega, by dsimp only; omega, fun p hp => ⟨?_, ?_⟩⟩
    · have := hsecret p hp
      omega
    · rw [(hnew p hp).c]
      decide

omit [Minicbor] [Curve] [ScalarArithmetic] [MinicborCodec] in
theorem buildExportToken_eq {ps : List Token.Proof} (hps : s.newProofs = some ps) (htoken : s.importedToken = some token)
    (hne : ps ≠ []) (hnew : ∀ p ∈ ps, p.IsNew keysetId) : buildExportToken s = some (exportToken token keysetId ps) := by
  rcases ps with - | ⟨p, ps⟩
  · exact absurd rfl hne
  rw [buildExportToken, hps, htoken, exportToken, ← (hnew p (List.mem_cons_self ..)).keysetId]
  rfl

omit [UrScanner] [ScalarArithmetic] [MinicborCodec] in
/-- The first id of a token with a proof to blind, which is hex when the token was read. -/
theorem firstKeysetId_hex {data : List UInt8} {rng : Nat → List UInt8} (hdecode : decodeToken data = some token)
    (hne : blindable rng 0 token.proofs ≠ []) :
    ∃ keysetId idBytes, token.firstKeysetId = some keysetId ∧ Hex.decode keysetId = some idBytes ∧
      Hex.encode idBytes = keysetId ∧ Hex.Lower keysetId := by
  rcases htokens : token.tokens with - | ⟨g, groups⟩
  · rw [TokenV4.proofs, htokens] at hne
    exact absurd rfl hne
  · have hlower := (decodeToken_canonical hdecode g (by simp [htokens])).lower
    obtain ⟨idBytes, hhex, hencode⟩ := hlower.encode_decode
    exact ⟨g.keysetId, idBytes, by rw [TokenV4.firstKeysetId, htokens]; rfl, hhex, hencode, hlower⟩

/-- What is handed out was in a frame. -/
theorem exportSize_le [MinicborSizes] {outputs idBytes : List UInt8} (htoken : s.importedToken = some token)
    (hid : token.firstKeysetId = some keysetId) (hhex : Hex.decode keysetId = some idBytes)
    (h : CanFinish d s outputs kept) : exportSize token kept ≤ maxPayloadSize := by
  obtain ⟨payload, signed, s', fetched, s'', exported, -, -, hsend, hsigned, hget, hfetched, -, hexported, hpairs⟩ := h
  have hends := (handleSendSignatures_ends s payload).elim hsend signed (.inl rfl)
  have hends' := (handleGetProofs_ends s').elim hget fetched (.inl rfl)
  cases hends with
  | refused _ _ hstatus => exact absurd hsigned hstatus
  | signed _ key bs ps hbs hkey hne hlen hentries =>
    have hnew : ∀ p ∈ ps, p.IsNew keysetId := by
      intro p hp
      obtain ⟨j, hj⟩ := List.mem_iff_getElem?.1 hp
      have hlt := (List.getElem?_eq_some_iff.1 hj).1
      obtain ⟨⟨cPrime, c, e, sc, -, -, hc, hdleq⟩, hpid, -, -⟩ :=
        hentries j bs[j] p (List.getElem?_eq_getElem (by omega)) hj
      rw [htoken, Option.bind_some, hid, Option.getD_some] at hpid
      exact ⟨hpid, by rw [hc, Crypto.toBytes_length], by rw [hdleq]; nofun⟩
    cases hends' with
    | refused _ _ hstatus => exact absurd hfetched hstatus
    | exported newToken _ _ hbuild hencode =>
      have hbuilt := hbuild.symm.trans (buildExportToken_eq rfl htoken hne hnew)
      obtain rfl : newToken = exportToken token keysetId ps := Option.some.inj hbuilt
      have hlength := encodeToken_length hid hhex hnew hencode
      have hsame : ps = exported.proofs := Option.some.inj hexported
      rw [← exportSize_congr (hsame ▸ hpairs), ← hlength]
      exact fetched.payload_le

/-- A mint's signatures are taken, and the new token is handed out. -/
theorem canFinish_of_exportSize [CurveGroup] [MinicborSizes] {idBytes : List UInt8} (hcan : CanSign d)
    (hkey : pinnedDemoMintKey = some (Curve.publicKey d)) (htoken : s.importedToken = some token)
    (hbs : s.blindedMessages = some bs) (hne : bs ≠ []) (houtputs : List.Forall₂ OutputOf bs kept) (hkeeps : Keeps s kept)
    (hid : token.firstKeysetId = some keysetId) (hhex : Hex.decode keysetId = some idBytes)
    (hencode : Hex.encode idBytes = keysetId) (hlower : Hex.Lower keysetId) (hsize : exportSize token kept ≤ maxPayloadSize) :
    CanFinish d s (bs.flatMap fun b => Crypto.toBytes b.blinded) kept := by
  have hentry : ∀ b : Blinded, ∃ entry, SignsEntry d b.blinded entry := by
    intro b
    obtain ⟨nonce, dleq, hprove⟩ := hcan b.blinded
    obtain ⟨cPrime, hsign⟩ := hcan.signMessage b.blinded
    exact ⟨_, nonce, cPrime, dleq, hsign, hprove, rfl⟩
  choose entryOf hentryOf using hentry
  have hentries : List.Forall₂ (fun b entry => SignsEntry d b.blinded entry) bs (bs.map entryOf) := by
    rw [List.forall₂_map_right_iff, List.forall₂_same]
    exact fun b _ => hentryOf b
  have hlength := entries_length hentries
  have hcount : bs.length * 155 ≤ maxPayloadSize := by
    have hsum := newProofSize_sum_ge kept
    rw [houtputs.length_eq]
    unfold exportSize at hsize
    omega
  have hdiv : (bs.map entryOf).flatten.length / entryLen = bs.length := by
    rw [hlength, Nat.mul_div_cancel _ (by decide)]
  obtain ⟨ps, hps, hpairs, hnew⟩ := signedProofs_run keysetId (s := s) (i := 0) hcan hkeeps List.drop_zero
    houtputs hentries (by rw [Nat.zero_mul, List.drop_zero])
  have hpsne : ps ≠ [] := by
    rintro rfl
    rw [List.map_nil, List.nil_eq, List.map_eq_nil_iff] at hpairs
    rw [hpairs, List.forall₂_nil_right_iff] at houtputs
    exact hne houtputs
  have hsizePs : exportSize token ps ≤ maxPayloadSize := by rwa [exportSize_congr hpairs]
  have hfirst : (s.importedToken.bind TokenV4.firstKeysetId).getD "00" = keysetId := by
    rw [htoken, Option.bind_some, hid, Option.getD_some]
  have hsend : (handleSendSignatures (bs.map entryOf).flatten).run () s =
      (.ok (.new .ok), { s with newProofs := some ps, swapState := .proofsReady }) := by
    rw [handleSendSignatures, run_bind_of_ok get_run, run_bind_of_ok (okOr_run hbs),
      run_bind_of_ok (failIf_pass (by rw [hlength, Nat.mul_mod_left]; exact fun h => h rfl))]
    dsimp only
    rw [run_bind_of_ok (failIf_pass (by rw [hdiv]; exact fun h => h rfl)), run_bind_of_ok (okOr_run hkey), hfirst,
      run_bind_of_ok hps, run_bind_of_ok (failIf_pass (by simpa using hpsne)), run_bind_of_ok modify_run, run_pure]
  have hcanonical : ∀ g ∈ (exportToken token keysetId ps).tokens, g.Canonical := by
    intro g hg
    obtain rfl := List.mem_singleton.1 hg
    exact ⟨hlower, fun p hp => (hnew p hp).keysetId⟩
  obtain ⟨bytes, hbytes, hreads⟩ := TokenV4.decode_reads (exportToken_sized hid hhex hencode hnew hsizePs) hcanonical
  have hfits : ¬ maxPayloadSize < bytes.length := by
    rw [encodeToken_length hid hhex hnew hbytes]
    omega
  have hdecode : decodeToken bytes = some (exportToken token keysetId ps) := decodeToken_reads hreads
  have hget : ∀ t : FirmwareState, t.newProofs = some ps → t.importedToken = some token →
      handleGetProofs.run () t = (.ok ((Protocol.Response.withPayload .ok bytes).getD (.new .bufferOverflow)), t) := by
    intro t hps' htoken'
    rw [handleGetProofs, run_bind_of_ok get_run, run_bind_of_ok (okOr_run (buildExportToken_eq hps' htoken' hpsne hnew)),
      run_bind_of_ok (okOr_run hbytes), run_bind_of_ok (failIf_pass hfits), run_pure]
  have hproofs : (exportToken token keysetId ps).proofs = ps := by simp [exportToken, TokenV4.proofs]
  refine ⟨_, _, _, _, _, exportToken token keysetId ps, ?_, ?_, hsend, rfl, hget _ rfl htoken, (withPayload_getD hfits).1,
    ?_, ?_, ?_⟩
  · rw [hlength]
    simp only [maxPayloadSize, entryLen] at hcount ⊢
    omega
  · refine ⟨bs.map Blinded.blinded, bs.map entryOf, by rw [List.flatMap_map], ?_, rfl⟩
    rw [List.forall₂_map_left_iff]
    exact hentries
  · rw [(withPayload_getD hfits).2]
    exact hdecode
  · rw [hproofs]
  · rw [hproofs]
    exact hpairs

end

/-! ### What is imported was read -/

/-- The imported token was decoded from bytes. -/
def FirmwareState.Imported (s : FirmwareState) : Prop :=
  ∀ token, s.importedToken = some token → ∃ data, decodeToken data = some token

omit [Curve] [ScalarArithmetic] [MinicborCodec] in
theorem ScanAssembler.process_token {a : ScanAssembler} {data : List UInt8} {token : TokenV4}
    (h : (a.process data).1 = .tokenReady token) : ∃ complete, decodeToken complete = some token := by
  have hfeed : ∀ a : ScanAssembler, (a.feed data).1 = .tokenReady token → ∃ complete, decodeToken complete = some token := by
    intro a hready
    have hends := a.feed_ends data
    rw [hready] at hends
    generalize (a.feed data).2 = b at hends
    cases hends with
    | token _ ready => exact ⟨_, ready⟩
  rw [process] at h
  split at h
  · split at h
    · exact hfeed _ h
    · split_ifs at h
      exact hfeed _ h
  · split at h
    · next hready =>
      cases h
      exact ⟨_, hready⟩
    · cases h
  · cases h

omit [Curve] [ScalarArithmetic] [MinicborCodec] in
theorem FirmwareState.Imported.capture {s : FirmwareState} (h : s.Imported) (c : Capture) : (c.handle s).2.Imported := by
  have hdata : ∀ data, (classifyAndAssemble s data).2.Imported := by
    intro data
    rw [classifyAndAssemble]
    dsimp only
    generalize houtcome : (s.scanAssembler.process data).1 = outcome
    cases outcome with
    | tokenReady token =>
      intro token' htoken'
      cases htoken'
      exact ScanAssembler.process_token houtcome
    | keepScanning => exact h
    | showPayload => exact h
    | invalidFragment => exact h
  rcases c with ⟨_ | data⟩ | ⟨_ | data⟩
  · exact h
  · exact hdata data
  · exact h
  · exact hdata data

omit [ScalarArithmetic] in
theorem FirmwareState.Imported.step {s s' : FirmwareState} {a : Served} (h : s.Imported) (hstep : SwapStep s a s') :
    s'.Imported := by
  obtain ⟨command, response⟩ := a
  have hends := hstep.ends
  dsimp only at hends
  cases hends with
  | refused => exact h
  | imported payload token hdecode =>
    intro token' htoken'
    cases htoken'
    exact ⟨payload, hdecode⟩
  | captured c =>
    have hs' : s' = (c.handle s).2 := by
      rcases hstep with hstep | hstep
      · exact (congrArg Prod.snd hstep).symm
      · exact (congrArg Prod.snd hstep).symm
    rw [hs']
    exact h.capture c
  | blinded => exact h
  | signed => exact h
  | exported => exact h

omit [ScalarArithmetic] in
theorem imported_of_run {h : List (Step FirmwareState Served)} {s : FirmwareState} (hrun : Run SwapStep .new h s) :
    s.Imported :=
  Run.invariant_state (G := fun _ => True) (I := FirmwareState.Imported) (fun _ h => by cases h)
    (fun _ _ _ _ hs hstep => hs.step hstep) hrun
    fun _ _ => trivial

/-- A swap that was started can be finished if and only if the token with the new proofs fits in a frame. -/
theorem canFinish_iff [CurveGroup] [MinicborSizes] {h : List (Step FirmwareState Served)} {s s' : FirmwareState}
    {token : TokenV4} {rng : Nat → List UInt8} {response : Protocol.Response} {d : SecretKey}
    (hrun : Run SwapStep .new h s) (htoken : s.importedToken = some token)
    (hkey : Crypto.fromSlice (Crypto.sha256 (asBytes "demo://micronuts")) = some d) (hcan : CanSign d)
    (hblinded : (handleGetBlinded rng).run () s = (.ok response, s')) :
    CanFinish d s' response.payload (blindable rng 0 token.proofs) ↔
      exportSize token (blindable rng 0 token.proofs) ≤ maxPayloadSize := by
  obtain ⟨bs, hne, houtputs, hpayload, hbs, hsecrets, hamounts, htoken'⟩ := handleGetBlinded_ok htoken hblinded
  obtain ⟨data, hdecode⟩ := imported_of_run hrun token htoken
  have hkept : blindable rng 0 token.proofs ≠ [] := by
    intro hnil
    rw [hnil, List.forall₂_nil_right_iff] at houtputs
    exact hne houtputs
  obtain ⟨keysetId, idBytes, hid, hhex, hencode, hlower⟩ := firstKeysetId_hex hdecode hkept
  have hpinned : pinnedDemoMintKey = some (Curve.publicKey d) := by
    rw [pinnedDemoMintKey, hkey]
    rfl
  rw [hpayload]
  exact ⟨exportSize_le htoken' hid hhex,
    canFinish_of_exportSize hcan hpinned htoken' hbs hne houtputs ⟨hsecrets, hamounts⟩ hid hhex hencode hlower⟩

end

section toy
open ToyDhke ToyCbor ToyUr
open Toy (bytes32 bytes33)
open Toy32 (coin coins coins_sized coins_canonical)

namespace ToyLimits

theorem putHead_length (major : UInt8) (n : UInt64) : (putHead major n).length = headSize n := by
  unfold putHead headSize
  split_ifs <;> simp [bigEndian_length]

scoped instance sizes : MinicborSizes where
  putMap_length := putHead_length 5
  putArray_length := putHead_length 4
  putStr_length s := by
    show (putHead 3 _ ++ _).length = _
    rw [List.length_append, putHead_length]
    rfl
  putBytes_length bs := by
    show (putHead 2 _ ++ _).length = _
    rw [List.length_append, putHead_length]
    rfl
  putU64_length := putHead_length 0

theorem digest_isSome (message : List UInt8) : ∃ k : SecretKey, Crypto.fromSlice (Crypto.sha256 message) = some k := ⟨_, rfl⟩

theorem scalar_isSome (x : Curve.Scalar) : ∃ k : SecretKey, Crypto.fromSlice (ScalarArithmetic.toBytes x) = some k := ⟨_, rfl⟩

theorem point_isSome (p : Curve.Point) : ∃ k, Curve.fromAffine p = some k := ⟨p, rfl⟩

theorem canSign (d : SecretKey) : CanSign d := by
  intro output
  obtain ⟨cPrime, hc⟩ := point_isSome (Curve.mul (Curve.toPoint output) (Curve.toScalar d))
  obtain ⟨r1, hr1⟩ := point_isSome (Curve.mul Curve.generator (Curve.toScalar d))
  obtain ⟨e, he⟩ := digest_isSome (asBytes (String.join ([r1, cPrime, Curve.publicKey d, cPrime].map fun pk =>
    Hex.encode (Curve.uncompressed pk))))
  obtain ⟨s, hs⟩ := scalar_isSome (ScalarArithmetic.add (Curve.toScalar d)
    (ScalarArithmetic.mul (Curve.toScalar e) (Curve.toScalar d)))
  refine ⟨d, ⟨e, s⟩, ?_⟩
  simp only [proveDleq, hashE, hc, hr1, he, hs, Option.bind_eq_bind, Option.bind_some]
  rfl

/-- The key of the demo mint's seed. -/
theorem seed : Crypto.fromSlice (Crypto.sha256 (asBytes "demo://micronuts")) = some (128 : UInt8) := by decide +kernel

/-- The coin without its DLEQ proof. -/
def plainCoin : Token.Proof := { coin with dleq := none }

def plainCoins (n : Nat) : TokenV4 := ⟨"m", "sat", none, [⟨"00c0ffee", List.replicate n plainCoin⟩]⟩

theorem plainCoins_canonical (n : Nat) : ∀ g ∈ (plainCoins n).tokens, g.Canonical := by
  intro g hg
  obtain rfl := List.mem_singleton.1 hg
  exact ⟨(coins_canonical "m" 1 _ (List.mem_singleton_self _)).lower, fun p hp => by rw [List.eq_of_mem_replicate hp]; rfl⟩

theorem plainCoins_sized {n : Nat} (hn : n < 2 ^ 64) : (plainCoins n).Sized := by
  have hcoins : (coins "m" 1).Sized := coins_sized (by decide) (by decide)
  refine ⟨hcoins.mint, hcoins.unit, nofun, hcoins.length, fun g hg => ?_⟩
  obtain rfl := List.mem_singleton.1 hg
  refine ⟨(hcoins.tokens _ (List.mem_singleton_self _)).keysetId, by simpa using hn, fun p hp => ?_⟩
  rw [List.eq_of_mem_replicate hp]
  exact ⟨by decide +kernel, by decide⟩

def holding (token : TokenV4) : FirmwareState :=
  { FirmwareState.new with importedToken := some token, swapState := .tokenImported }

theorem holding_run {token : TokenV4} (hsized : token.Sized) (hcanonical : ∀ g ∈ token.tokens, g.Canonical) :
    ∃ h, Run SwapStep .new h (holding token) := by
  obtain ⟨bytes, -, hreads⟩ := TokenV4.decode_reads hsized hcanonical
  have hdecode : decodeToken bytes = some token := decodeToken_reads hreads
  have hstep : SwapStep .new ⟨.importToken bytes, .new .ok⟩ (holding token) := by
    refine .inl ?_
    show (handleImportToken bytes).run () _ = _
    rw [handleImportToken, run_bind_of_ok (okOr_run hdecode), run_bind_of_ok modify_run, run_pure]
    rfl
  exact ⟨_, Run.nil.snoc hstep⟩

/-- Every draw is the scalar 1. -/
def ones : Nat → List UInt8 := fun _ => bytes32 1

end ToyLimits

open ToyLimits

theorem canFinish_iff_toy : ∃ response s', (handleGetBlinded ones).run () (holding (coins "m" 1)) = (.ok response, s') ∧
    CanFinish (128 : UInt8) s' response.payload (blindable ones 0 (coins "m" 1).proofs) := by
  have hsized : (coins "m" 1).Sized := coins_sized (by decide) (by decide)
  obtain ⟨h, hrun⟩ := holding_run hsized (coins_canonical "m" 1)
  have hblinded : ∃ response s', (handleGetBlinded ones).run () (holding (coins "m" 1)) = (.ok response, s') :=
    handleGetBlinded_run rfl (by decide +kernel) (by decide +kernel)
  obtain ⟨response, s', hblinded⟩ := hblinded
  exact ⟨response, s', hblinded, (canFinish_iff hrun rfl seed (canSign _) hblinded).2 (by decide +kernel)⟩

/-- Seven proofs without DLEQ are blinded and signed for, and never handed out. -/
theorem canFinish_seven : ∃ h s token rng response s', Run SwapStep .new h s ∧ s.importedToken = some token ∧
    Crypto.fromSlice (Crypto.sha256 (asBytes "demo://micronuts")) = some (128 : UInt8) ∧ CanSign (128 : UInt8) ∧
    (handleGetBlinded rng).run () s = (.ok response, s') ∧
    ¬ CanFinish (128 : UInt8) s' response.payload (blindable rng 0 token.proofs) := by
  obtain ⟨h, hrun⟩ := holding_run (plainCoins_sized (n := 7) (by decide)) (plainCoins_canonical 7)
  have hblinded : ∃ response s', (handleGetBlinded ones).run () (holding (plainCoins 7)) = (.ok response, s') :=
    handleGetBlinded_run rfl (by decide +kernel) (by decide +kernel)
  obtain ⟨response, s', hblinded⟩ := hblinded
  refine ⟨h, _, plainCoins 7, ones, response, s', hrun, rfl, seed, canSign _, hblinded, fun hfinish => ?_⟩
  obtain ⟨-, -, -, -, -, -, -, htoken⟩ := handleGetBlinded_ok rfl hblinded
  have hhex : Hex.decode "00c0ffee" = some [0x00, 0xc0, 0xff, 0xee] := by decide +kernel
  have hle := exportSize_le htoken rfl hhex hfinish
  revert hle
  decide +kernel

end toy

end Micronuts
