import Micronuts.Device.Session
import Micronuts.Nuts.Nut20
import Mathlib.Tactic.Ring

/-!
# Token info (`micronuts-app`: `command_handler.rs`; `host-mint-tool`: `swapscript.rs`)

The device answers `GetTokenInfo` with mint and unit, each behind a byte for its length, the total and the number of proofs.
Its only check is on the length of all of it, so the casts lose what does not fit, and the host reads the answer right
exactly where nothing is lost (`tokenInfo_exact`).
-/

namespace Micronuts
open Exec

/-! ### The host -/

/-- `from_be_bytes`. -/
def fromBeBytes (bytes : List UInt8) : Nat := bytes.foldl (fun acc b => acc * 256 + b.toNat) 0

/-- `info.get(offset..offset + n)`. -/
def sliceAt (info : List UInt8) (offset n : Nat) : Option (List UInt8) :=
  if offset + n ≤ info.length then some ((info.drop offset).take n) else none

def parseTokenInfo (info : List UInt8) : Except String (UInt64 × UInt32) := do
  let mintLen ← Except.okOr info.head? "token info payload truncated (mint length)"
  let offset := 1 + mintLen.toNat
  let unitLen ← Except.okOr info[offset]? "token info payload truncated (unit length)"
  let offset := offset + (1 + unitLen.toNat)
  let amount ← Except.okOr (sliceAt info offset 8) "token info payload truncated (amount)"
  let count ← Except.okOr (sliceAt info (offset + 8) 4) "token info payload truncated (count)"
  pure (UInt64.ofNat (fromBeBytes amount), UInt32.ofNat (fromBeBytes count))

/-- The first string, by its length. -/
def infoMint (info : List UInt8) : List UInt8 := (info.drop 1).take (info.getD 0 0).toNat

/-- The second string, by its length. -/
def infoUnit (info : List UInt8) : List UInt8 :=
  let offset := 1 + (info.getD 0 0).toNat
  (info.drop (offset + 1)).take (info.getD offset 0).toNat

section
variable [Crypto] [UrScanner]

/-! ### The device -/

/-- Lengths and number of proofs are cast to their widths. -/
def infoPayload (token : TokenV4) (amount : UInt64) : List UInt8 :=
  UInt8.ofNat (asBytes token.mint).length :: (asBytes token.mint ++
    UInt8.ofNat (asBytes token.unit).length :: (asBytes token.unit ++
      (toBeBytes 8 amount.toNat ++ toBeBytes 4 (UInt32.ofNat token.proofs.length).toNat)))

def handleGetTokenInfo (overflowChecks : Bool) : HandlerM Protocol.Response := do
  let state ← get
  let token ← okOr state.importedToken (.new .error)
  let totalLen := 1 + (asBytes token.mint).length + 1 + (asBytes token.unit).length + 8 + 4
  failIf (maxPayloadSize < totalLen) (.new .bufferOverflow)
  match token.totalAmount overflowChecks with
  | none => panic
  | some amount => pure ((Protocol.Response.withPayload .ok (infoPayload token amount)).getD (.new .bufferOverflow))

/-- The host reads what the token is. -/
structure InfoExact (token : TokenV4) (info : List UInt8) : Prop where
  parsed : ∃ amount count, parseTokenInfo info = .ok (amount, count) ∧
    amount.toNat = (token.proofs.map fun p => p.amount.toNat).sum ∧ count.toNat = token.proofs.length
  mint : infoMint info = asBytes token.mint
  unit : infoUnit info = asBytes token.unit

/-- The lengths fit in a byte each, the number in 32 bits, and the total in 64. -/
structure InfoFits (token : TokenV4) : Prop where
  mint : (asBytes token.mint).length < 256
  unit : (asBytes token.unit).length < 256
  count : token.proofs.length < 2 ^ 32
  amount : (token.proofs.map fun p => p.amount.toNat).sum < 2 ^ 64

/-! ### What is read back -/

section read
omit [Crypto] [UrScanner]

theorem foldl_toBeBytes (n v acc : Nat) :
    (toBeBytes n v).foldl (fun acc b => acc * 256 + b.toNat) acc = acc * 256 ^ n + v % 256 ^ n := by
  induction n generalizing acc with
  | zero => simp [toBeBytes, Nat.mod_one]
  | succ n ih =>
    have hdigit : (UInt8.ofNat (v / 256 ^ n)).toNat = v / 256 ^ n % 256 := by simp
    have hv : v % 256 ^ (n + 1) = v % 256 ^ n + 256 ^ n * (v / 256 ^ n % 256) := Nat.mod_pow_succ
    rw [toBeBytes_succ, List.foldl_cons, ih, hdigit, hv]
    ring

theorem fromBeBytes_toBeBytes (n v : Nat) : fromBeBytes (toBeBytes n v) = v % 256 ^ n := by
  rw [fromBeBytes, foldl_toBeBytes, Nat.zero_mul, Nat.zero_add]

theorem sliceAt_append {before bytes rest : List UInt8} {offset n : Nat} (hoffset : before.length = offset)
    (hn : bytes.length = n) : sliceAt (before ++ (bytes ++ rest)) offset n = some bytes := by
  subst hoffset hn
  rw [sliceAt, if_pos (by simp), List.drop_left, List.take_left]

variable {m u a c : List UInt8}

/-- Two strings, each behind the byte of its length, then the two numbers. -/
def framed (m u a c : List UInt8) : List UInt8 :=
  UInt8.ofNat m.length :: (m ++ UInt8.ofNat u.length :: (u ++ (a ++ c)))

theorem framed_unitLen (m u a c : List UInt8) : (framed m u a c)[1 + m.length]? = some (UInt8.ofNat u.length) := by
  rw [framed, Nat.add_comm, List.getElem?_cons_succ, List.getElem?_append_right (le_refl _), Nat.sub_self]
  rfl

theorem toNat_ofNat_length {bytes : List UInt8} (h : bytes.length < 256) : (UInt8.ofNat bytes.length).toNat = bytes.length :=
  UInt8.toNat_ofNat_of_lt' h

theorem parseTokenInfo_framed (hm : m.length < 256) (hu : u.length < 256) (ha : a.length = 8) (hc : c.length = 4) :
    parseTokenInfo (framed m u a c) = .ok (UInt64.ofNat (fromBeBytes a), UInt32.ofNat (fromBeBytes c)) := by
  have hamount : sliceAt (framed m u a c) (1 + m.length + (1 + u.length)) 8 = some a := by
    have := @sliceAt_append (UInt8.ofNat m.length :: (m ++ UInt8.ofNat u.length :: u)) a c _ _ rfl ha
    convert this using 2
    · simp [framed]
    · simp
      omega
  have hcount : sliceAt (framed m u a c) (1 + m.length + (1 + u.length) + 8) 4 = some c := by
    have := @sliceAt_append (UInt8.ofNat m.length :: (m ++ UInt8.ofNat u.length :: (u ++ a))) c [] _ _ rfl hc
    convert this using 2
    · simp [framed]
    · simp
      omega
  have hhead : (framed m u a c).head? = some (UInt8.ofNat m.length) := rfl
  unfold parseTokenInfo
  simp only [hhead, Except.okOr, Option.elim_some, toNat_ofNat_length hm, bind, Except.bind, framed_unitLen,
    toNat_ofNat_length hu, hamount, hcount]
  rfl

theorem infoMint_framed (hm : m.length < 256) : infoMint (framed m u a c) = m := by
  show ((m ++ _).take (UInt8.ofNat m.length).toNat) = m
  rw [toNat_ofNat_length hm, List.take_left]

theorem infoUnit_framed (hm : m.length < 256) (hu : u.length < 256) : infoUnit (framed m u a c) = u := by
  have hfirst : (framed m u a c).getD 0 0 = UInt8.ofNat m.length := rfl
  have hdrop : (framed m u a c).drop (1 + m.length + 1) = u ++ (a ++ c) := by
    have : framed m u a c = (UInt8.ofNat m.length :: (m ++ [UInt8.ofNat u.length])) ++ (u ++ (a ++ c)) := by simp [framed]
    rw [this, List.drop_left']
    simp
    omega
  unfold infoUnit
  dsimp only
  rw [hfirst, toNat_ofNat_length hm, hdrop, List.getD_eq_getElem?_getD, framed_unitLen, Option.getD_some,
    toNat_ofNat_length hu, List.take_left]

/-- What is sliced by a byte is shorter than 256. -/
theorem length_take_toNat (l : List UInt8) (b : UInt8) : (l.take b.toNat).length < 256 :=
  lt_of_le_of_lt (List.length_take_le _ _) b.toNat_lt

end read

omit [UrScanner] in
theorem infoExact_iff {overflowChecks : Bool} {token : TokenV4} {amount : UInt64}
    (hamount : token.totalAmount overflowChecks = some amount) :
    InfoExact token (infoPayload token amount) ↔ InfoFits token := by
  have hsum := (TokenV4.totalAmount_eq_some hamount).1
  have hframed : infoPayload token amount = framed (asBytes token.mint) (asBytes token.unit) (toBeBytes 8 amount.toNat)
      (toBeBytes 4 (UInt32.ofNat token.proofs.length).toNat) := rfl
  have hnat : UInt64.ofNat (fromBeBytes (toBeBytes 8 amount.toNat)) = amount := by
    rw [fromBeBytes_toBeBytes, Nat.mod_eq_of_lt (by simpa using amount.toNat_lt), UInt64.ofNat_toNat]
  have hnum : UInt32.ofNat (fromBeBytes (toBeBytes 4 (UInt32.ofNat token.proofs.length).toNat)) =
      UInt32.ofNat token.proofs.length := by
    rw [fromBeBytes_toBeBytes, Nat.mod_eq_of_lt (by simpa using (UInt32.ofNat token.proofs.length).toNat_lt),
      UInt32.ofNat_toNat]
  have hparse : (asBytes token.mint).length < 256 → (asBytes token.unit).length < 256 →
      parseTokenInfo (infoPayload token amount) = .ok (amount, UInt32.ofNat token.proofs.length) := by
    intro hm hu
    rw [hframed, parseTokenInfo_framed hm hu (toBeBytes_length ..) (toBeBytes_length ..), hnat, hnum]
  constructor
  · rintro ⟨⟨amount', count, hread, htotal, hcount⟩, hmint, hunit⟩
    have hm : (asBytes token.mint).length < 256 := by
      rw [← hmint]
      exact length_take_toNat _ _
    have hu : (asBytes token.unit).length < 256 := by
      rw [← hunit]
      exact length_take_toNat _ _
    rw [hparse hm hu] at hread
    cases hread
    refine ⟨hm, hu, ?_, ?_⟩
    · rw [← hcount]
      exact (UInt32.ofNat token.proofs.length).toNat_lt
    · rw [← htotal]
      exact amount.toNat_lt
  · rintro ⟨hm, hu, hcount, hfits⟩
    refine ⟨⟨amount, _, hparse hm hu, ?_, ?_⟩, ?_, ?_⟩
    · rw [hsum, Nat.mod_eq_of_lt hfits]
    · exact UInt32.toNat_ofNat_of_lt' hcount
    · rw [hframed, infoMint_framed hm]
    · rw [hframed, infoUnit_framed hm hu]

/-- What an answer of the device carries. -/
theorem handleGetTokenInfo_payload {overflowChecks : Bool} {s s' : FirmwareState} {response : Protocol.Response}
    (hrun : (handleGetTokenInfo overflowChecks).run () s = (.ok response, s')) :
    ∃ token amount, s.importedToken = some token ∧ token.totalAmount overflowChecks = some amount ∧
      response.payload = infoPayload token amount := by
  have hends : (handleGetTokenInfo overflowChecks).Ends () s fun o _ => ∀ response, o = .ok response →
      ∃ token amount, s.importedToken = some token ∧ token.totalAmount overflowChecks = some amount ∧
        response.payload = infoPayload token amount := by
    rw [handleGetTokenInfo]
    refine Ends.bind_get (Ends.bind_okOr (fun token htoken => ?_) fun _ => nofun)
    refine Ends.bind_failIf (fun hlen => ?_) fun _ => nofun
    split
    · exact nofun
    · next amount hamount =>
      refine .pure fun response heq => ?_
      cases heq
      refine ⟨token, amount, htoken, hamount, (withPayload_getD ?_).2⟩
      simp only [infoPayload, List.length_cons, List.length_append, toBeBytes_length]
      omega
  have := hends
  rw [Exec.Ends, hrun] at this
  exact this response rfl

theorem handleGetTokenInfo_run {overflowChecks : Bool} {s : FirmwareState} {token : TokenV4} {amount : UInt64}
    (htoken : s.importedToken = some token) (htotal : token.totalAmount overflowChecks = some amount)
    (hlen : (infoPayload token amount).length ≤ maxPayloadSize) :
    (handleGetTokenInfo overflowChecks).run () s = (.ok ⟨.ok, infoPayload token amount, hlen⟩, s) := by
  have hfits : ¬ maxPayloadSize < 1 + (asBytes token.mint).length + 1 + (asBytes token.unit).length + 8 + 4 := by
    simp only [infoPayload, List.length_cons, List.length_append, toBeBytes_length] at hlen
    omega
  rw [handleGetTokenInfo, run_bind_of_ok get_run, run_bind_of_ok (okOr_run htoken)]
  dsimp only
  rw [run_bind_of_ok (failIf_pass hfits), htotal]
  dsimp only
  rw [run_pure, Protocol.Response.withPayload, dif_pos hlen]
  rfl

/-- The host reads the answer as the token if and only if nothing was lost in the casts and the sum. -/
theorem tokenInfo_exact (overflowChecks : Bool) {s s' : FirmwareState} {token : TokenV4} {response : Protocol.Response}
    (htoken : s.importedToken = some token)
    (hrun : (handleGetTokenInfo overflowChecks).run () s = (.ok response, s')) :
    InfoExact token response.payload ↔ InfoFits token := by
  obtain ⟨token', amount, htoken', hamount, hpayload⟩ := handleGetTokenInfo_payload hrun
  rw [htoken, Option.some.injEq] at htoken'
  subst htoken'
  rw [hpayload]
  exact infoExact_iff hamount

end

section toy
open Toy32 ToyCbor ToyUr

namespace ToyInfo

def holding (mint : String) : FirmwareState := { FirmwareState.new with importedToken := some (coins mint 1) }

/-- 256 bytes of mint. -/
def longMint : String := String.ofList (List.replicate 256 'a')

theorem long_le : (infoPayload (coins longMint 1) 1).length ≤ maxPayloadSize := by decide +kernel

theorem long_decodes : ∃ payload, decodeToken payload = some (coins longMint 1) := by
  have hsized : (coins longMint 1).Sized := coins_sized (by decide +kernel) (by decide)
  obtain ⟨payload, -, hreads⟩ := TokenV4.decode_reads hsized (coins_canonical longMint 1)
  exact ⟨payload, decodeToken_reads hreads⟩

end ToyInfo

open ToyInfo

theorem tokenInfo_exact_toy : InfoExact (coins "m" 1) (infoPayload (coins "m" 1) 1) :=
  (tokenInfo_exact false rfl (handleGetTokenInfo_run (s := holding "m") rfl rfl (by decide))).2
    ⟨by decide, by decide, by decide, by decide⟩

/-- An imported token's mint of 256 bytes is answered with the length 0. -/
theorem tokenInfo_longMint : ∃ payload s token response s',
    (handleImportToken payload).run () FirmwareState.new = (.ok (.new .ok), s) ∧ s.importedToken = some token ∧
    (handleGetTokenInfo false).run () s = (.ok response, s') ∧ response.status = .ok ∧
    ¬ InfoExact token response.payload := by
  obtain ⟨payload, hdecode⟩ := long_decodes
  have himport : (handleImportToken payload).run () FirmwareState.new =
      (.ok (.new .ok), { holding longMint with swapState := .tokenImported }) := by
    rw [handleImportToken, run_bind_of_ok (okOr_run hdecode), run_bind_of_ok modify_run, run_pure]
    rfl
  refine ⟨_, _, _, _, _, himport, rfl, handleGetTokenInfo_run rfl rfl long_le, rfl, fun hexact => ?_⟩
  have hmint : (infoMint (infoPayload (coins longMint 1) 1)).length = 256 := by
    rw [hexact.mint]
    decide +kernel
  revert hmint
  decide +kernel

end toy

end Micronuts
