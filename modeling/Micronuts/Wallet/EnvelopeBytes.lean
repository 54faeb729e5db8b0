import Mathlib.Data.Nat.Digits.Lemmas
import Micronuts.Lib.Crc
import Micronuts.Nuts.TokenEncode
import Micronuts.Wallet.Credits

/-!
# The bytes of the envelope (`cashu-core-lite`: `persistent.rs`)

A stored blob is a magic word, the CRC-32 of the payload and the payload, which `minicbor` writes. The loop of the checksum
takes the bits of a byte from the lowest up (`crc32_eq`), so it notices every change within 32 bits that follow each other in
that order.
-/

namespace Micronuts

def envelopeMagic : List UInt8 := [0x43, 0x43, 0x4C, 0x31]

/-! ### The checksum -/

/-- A round of the inner loop. -/
def crc32Round (crc : UInt32) : UInt32 :=
  let mask := -(crc &&& 1)
  crc >>> 1 ^^^ (0xEDB88320 &&& mask)

def crc32Byte (crc : UInt32) (byte : UInt8) : UInt32 := crc32Round^[8] (crc ^^^ byte.toUInt32)

def crc32 (data : List UInt8) : UInt32 := ~~~ data.foldl crc32Byte 0xFFFFFFFF

def toLeBytes (x : UInt32) : List UInt8 :=
  [x.toNat, x.toNat / 2 ^ 8, x.toNat / 2 ^ 16, x.toNat / 2 ^ 24].map UInt8.ofNat

def fromLeBytes (bytes : List UInt8) : UInt32 := UInt32.ofNat (Nat.ofDigits (2 ^ 8) (bytes.map UInt8.toNat))

/-- The bits of a byte, from the lowest up: the order in which the checksum takes them. -/
def byteBits (b : UInt8) : List Bool := (List.range 8).map b.toBitVec.getLsbD

def bitsOf (bytes : List UInt8) : List Bool := bytes.flatMap byteBits

def crcPoly : BitVec 32 := 0xEDB88320

theorem crc32Round_eq (crc : UInt32) : (crc32Round crc).toBitVec = Crc.shift crcPoly crc.toBitVec := by
  have hmask : -(crc.toBitVec &&& 1) = if crc.toBitVec.getLsbD 0 then BitVec.allOnes 32 else 0 := by
    rw [show (1 : BitVec 32) = 1#32 from rfl, BitVec.and_one_eq_setWidth_ofBool_getLsbD]
    cases crc.toBitVec.getLsbD 0 <;> rfl
  have hround : (crc32Round crc).toBitVec = crc.toBitVec >>> 1 ^^^ (crcPoly &&& -(crc.toBitVec &&& 1)) := by
    simp [crc32Round, crcPoly]
  rw [hround, hmask, Crc.shift]
  cases crc.toBitVec.getLsbD 0
  · simp
  · rfl

theorem getElem?_byteBits (b : UInt8) (i : Nat) : (byteBits b)[i]?.getD false = b.toBitVec.getLsbD i := by
  by_cases hi : i < 8
  · simp [byteBits, hi]
  · simp [byteBits, hi, BitVec.getLsbD_of_ge b.toBitVec i (by omega)]

theorem word_byteBits (b : UInt8) : Crc.word 32 (byteBits b) = b.toUInt32.toBitVec := by
  refine BitVec.eq_of_getLsbD_eq fun i hi => ?_
  rw [Crc.getLsbD_word _ hi, List.getD_eq_getElem?_getD, getElem?_byteBits, UInt8.toBitVec_toUInt32,
    BitVec.getLsbD_setWidth]
  simp [hi]

theorem bitsOf_injective : Function.Injective bitsOf := by
  have hbyte : Function.Injective byteBits := by
    intro a b h
    refine UInt8.toBitVec_inj.1 (BitVec.eq_of_getLsbD_eq fun i _ => ?_)
    rw [← getElem?_byteBits, h, getElem?_byteBits]
  intro as
  induction as with
  | nil =>
    intro bs h
    cases bs with
    | nil => rfl
    | cons b bs => cases h
  | cons a as ih =>
    intro bs h
    cases bs with
    | nil => cases h
    | cons b bs =>
      have hparts := List.append_inj h (by simp [byteBits])
      rw [hbyte hparts.1, ih hparts.2]

theorem crc32Byte_eq (crc : UInt32) (b : UInt8) :
    (crc32Byte crc b).toBitVec = Crc.feed crcPoly crc.toBitVec (byteBits b) := by
  have hrounds : ∀ (n : Nat) (x : UInt32), (crc32Round^[n] x).toBitVec = (Crc.shift crcPoly)^[n] x.toBitVec := by
    intro n
    induction n with
    | zero => exact fun x => rfl
    | succ n ih =>
      intro x
      rw [Function.iterate_succ_apply, ih, crc32Round_eq, Function.iterate_succ_apply]
  have hlen : (byteBits b).length = 8 := by simp [byteBits]
  rw [Crc.feed_eq _ (by omega), hlen, word_byteBits, crc32Byte, hrounds, UInt32.toBitVec_xor]

theorem crc32_eq (data : List UInt8) : (crc32 data).toBitVec = ~~~ Crc.feed crcPoly 0xFFFFFFFF (bitsOf data) := by
  have hfold : ∀ c : UInt32, (data.foldl crc32Byte c).toBitVec = Crc.feed crcPoly c.toBitVec (bitsOf data) := by
    induction data with
    | nil => exact fun c => rfl
    | cons b data ih =>
      intro c
      rw [List.foldl_cons, ih, crc32Byte_eq, ← Crc.feed_append]
      rfl
  rw [crc32, UInt32.toBitVec_not, hfold]
  rfl

example : crc32 (asBytes "123456789") = 0xCBF43926 := by decide +kernel

/-- A change within 32 bits in a row changes the checksum. -/
theorem crc32_within {as bs : List UInt8} (h : Crc.Within 32 (bitsOf as) (bitsOf bs)) (hcrc : crc32 as = crc32 bs) :
    as = bs := by
  have hregister := congrArg UInt32.toBitVec hcrc
  rw [crc32_eq, crc32_eq, BitVec.not_inj] at hregister
  exact bitsOf_injective (h.eq_of_feed rfl hregister)

theorem fromLeBytes_toLeBytes (x : UInt32) : fromLeBytes (toLeBytes x) = x := by
  have hlt := x.toNat_lt
  rw [← UInt32.toNat_inj, fromLeBytes, UInt32.toNat_ofNat']
  simp only [toLeBytes, List.map_cons, List.map_nil, UInt8.toNat_ofNat', Nat.ofDigits_cons,
    Nat.ofDigits_nil]
  omega

theorem fromLeBytes_injective {as bs : List UInt8} (ha : as.length = 4) (hb : bs.length = 4)
    (h : fromLeBytes as = fromLeBytes bs) : as = bs := by
  have hdigits : ∀ l : List UInt8, ∀ n ∈ l.map UInt8.toNat, n < 2 ^ 8 := by
    simp only [List.mem_map]
    rintro l _ ⟨b, -, rfl⟩
    exact b.toNat_lt
  have hlt : ∀ l : List UInt8, l.length = 4 → Nat.ofDigits (2 ^ 8) (l.map UInt8.toNat) < 2 ^ 32 := by
    intro l hl
    have := Nat.ofDigits_lt_base_pow_length (by decide) (hdigits l)
    rwa [List.length_map, hl] at this
  have hvalue := congrArg UInt32.toNat h
  rw [fromLeBytes, fromLeBytes, UInt32.toNat_ofNat_of_lt' (hlt as ha), UInt32.toNat_ofNat_of_lt' (hlt bs hb)] at hvalue
  refine List.map_injective_iff.2 (fun _ _ => UInt8.toNat_inj.1) ?_
  exact Nat.ofDigits_inj_of_len_eq (by decide) (by simp [ha, hb]) (hdigits as) (hdigits bs) hvalue

/-! ### The blob -/

/-- The codec that `minicbor` derives for `Envelope`; none where it fails. -/
class EnvelopeCodec [Crypto] where
  toVec : Envelope → Option (List UInt8)
  decode : List UInt8 → Option Envelope

section
variable [Crypto] [EnvelopeCodec]

def encodeEnvelope (counter : UInt32) (proofs : List Proof) (seedId : List UInt8) : Except CashuError (List UInt8) := do
  let envelope : Envelope := { version := envelopeVersion, counter, proofs, seedId }
  let cbor ← Except.okOr (EnvelopeCodec.toVec envelope) (.storage "envelope encode failed")
  pure (envelopeMagic ++ toLeBytes (crc32 cbor) ++ cbor)

def decodeEnvelope (bytes : List UInt8) (expectedSeedId : List UInt8) : Option (UInt32 × List Proof) :=
  if bytes.length < envelopeMagic.length + 4 ∨ bytes.take 4 ≠ envelopeMagic then none
  else
    let storedCrc := fromLeBytes ((bytes.drop 4).take 4)
    let cbor := bytes.drop 8
    if crc32 cbor ≠ storedCrc then none
    else (EnvelopeCodec.decode cbor).bind (openEnvelope · expectedSeedId)

end

/-- The header is that of the payload. -/
def Sound (bytes : List UInt8) : Prop := bytes.take 8 = envelopeMagic ++ toLeBytes (crc32 (bytes.drop 8))

instance (bytes : List UInt8) : Decidable (Sound bytes) := inferInstanceAs (Decidable (_ = _))

/-- A blob that differs in its header only, or within 32 bits in a row of its payload. -/
inductive Damaged (blob damaged : List UInt8) : Prop
  | header (changed : damaged ≠ blob) (payload : damaged.drop 8 = blob.drop 8)
  | payload (changed : damaged ≠ blob) (header : damaged.take 8 = blob.take 8)
      (window : Crc.Within 32 (bitsOf (damaged.drop 8)) (bitsOf (blob.drop 8)))

section
variable {bytes damaged : List UInt8}

theorem sound_iff : Sound bytes ↔ ¬ (bytes.length < envelopeMagic.length + 4 ∨ bytes.take 4 ≠ envelopeMagic) ∧
    crc32 (bytes.drop 8) = fromLeBytes ((bytes.drop 4).take 4) := by
  have hsplit : bytes.take 8 = bytes.take 4 ++ (bytes.drop 4).take 4 := List.take_add (i := 4) (j := 4)
  have hmagic : envelopeMagic.length = 4 := rfl
  unfold Sound
  constructor
  · intro h
    have hlen : (bytes.take 8).length = 8 := by rw [h]; rfl
    rw [List.length_take] at hlen
    rw [hsplit] at h
    obtain ⟨htake, hcrc⟩ := List.append_inj h (by rw [List.length_take, hmagic]; omega)
    refine ⟨?_, ?_⟩
    · simp only [not_or, not_not]
      exact ⟨by omega, htake⟩
    · rw [hcrc, fromLeBytes_toLeBytes]
  · rintro ⟨hhead, hcrc⟩
    simp only [not_or, not_not] at hhead
    rw [hsplit, hhead.2, hcrc]
    refine congrArg _ (fromLeBytes_injective ?_ rfl (fromLeBytes_toLeBytes _).symm)
    rw [List.length_take, List.length_drop]
    omega

theorem Sound.not_damaged (h : Sound bytes) (hdamaged : Damaged bytes damaged) : ¬ Sound damaged := by
  intro hsound
  rcases hdamaged with ⟨hchanged, hpayload⟩ | ⟨hchanged, hheader, hwindow⟩
  · refine hchanged ?_
    rw [← List.take_append_drop 8 damaged, hsound, hpayload, ← h, List.take_append_drop]
  · refine hchanged ?_
    rw [hsound, h] at hheader
    have hcrc := congrArg fromLeBytes (List.append_cancel_left hheader)
    rw [fromLeBytes_toLeBytes, fromLeBytes_toLeBytes] at hcrc
    have hpayload := crc32_within hwindow hcrc
    rw [← List.take_append_drop 8 damaged, hsound, hpayload, ← h, List.take_append_drop]

end

section
variable [Crypto] [EnvelopeCodec]

/-- What the wallet takes its blob for: a sound one is its envelope, another is none. -/
def storedEnvelope (bytes : List UInt8) : Option Envelope :=
  if Sound bytes then EnvelopeCodec.decode (bytes.drop 8) else none

theorem decodeEnvelope_eq (bytes seedId : List UInt8) :
    decodeEnvelope bytes seedId = (storedEnvelope bytes).bind (openEnvelope · seedId) := by
  unfold decodeEnvelope storedEnvelope
  by_cases hsound : Sound bytes
  · obtain ⟨hhead, hcrc⟩ := sound_iff.1 hsound
    rw [if_pos hsound, if_neg hhead]
    exact if_neg (not_not.2 hcrc)
  · rw [if_neg hsound]
    split
    · rfl
    · next hhead => exact if_pos fun hcrc => hsound (sound_iff.2 ⟨hhead, hcrc⟩)

/-- A wallet opens with what its store has for the seed. -/
theorem new_storedEnvelope (loaded : Option (List UInt8)) (seed : List UInt8) :
    ((PersistentWallet.new (loaded.bind storedEnvelope) seed).counter,
      (PersistentWallet.new (loaded.bind storedEnvelope) seed).proofs) =
    (loaded.bind (decodeEnvelope · (seedFingerprint seed))).getD (0, []) := by
  simp only [PersistentWallet.new, decodeEnvelope_eq, Option.bind_assoc]

/-- The codec reads the envelope back. -/
def EnvelopeCodec.RoundTrips (envelope : Envelope) : Prop :=
  ∃ cbor, EnvelopeCodec.toVec envelope = some cbor ∧ EnvelopeCodec.decode cbor = some envelope

/-- What is stored is read back under its own seed only, and no damaged blob is read as anything. -/
theorem envelope_integrity {counter : UInt32} {proofs : List Proof} {seedId : List UInt8}
    (hcodec : EnvelopeCodec.RoundTrips ⟨envelopeVersion, counter, proofs, seedId⟩) :
    (∃ blob, encodeEnvelope counter proofs seedId = .ok blob ∧ decodeEnvelope blob seedId = some (counter, proofs) ∧
      ∀ other, other ≠ seedId → decodeEnvelope blob other = none) ∧
    ∀ blob id contents, decodeEnvelope blob id = some contents → ∀ damaged, Damaged blob damaged →
      ∀ other, decodeEnvelope damaged other = none := by
  refine ⟨?_, fun blob id contents hblob damaged hdamaged other => ?_⟩
  · obtain ⟨cbor, hencode, hdecode⟩ := hcodec
    have hdrop : (envelopeMagic ++ toLeBytes (crc32 cbor) ++ cbor).drop 8 = cbor := rfl
    have hsound : Sound (envelopeMagic ++ toLeBytes (crc32 cbor) ++ cbor) := rfl
    refine ⟨envelopeMagic ++ toLeBytes (crc32 cbor) ++ cbor, ?_, ?_, fun other hother => ?_⟩
    · rw [encodeEnvelope, hencode]
      rfl
    · rw [decodeEnvelope_eq, storedEnvelope, if_pos hsound, hdrop, hdecode]
      simp [openEnvelope]
    · rw [decodeEnvelope_eq, storedEnvelope, if_pos hsound, hdrop, hdecode]
      simp [openEnvelope, Ne.symm hother]
  · have hsound : Sound blob := by
      by_contra hunsound
      rw [decodeEnvelope_eq, storedEnvelope, if_neg hunsound] at hblob
      cases hblob
    rw [decodeEnvelope_eq, storedEnvelope, if_neg (hsound.not_damaged hdamaged)]
    rfl

end

section toy
open Toy32 ToyCbor
open Decoder MinicborCodec

namespace ToyEnvelope

/-- The array of the fields; those at its end that are `None` are left out. -/
def putProof (p : Proof) : List UInt8 :=
  putArray 4 ++ putU64 p.amount ++ putStr p.id ++ putStr p.secret ++ putBytes (Crypto.toBytes p.c)

def readProof : Decoder UInt8 Proof := do
  let _ ← Minicbor.array
  let amount ← Minicbor.u64
  let id ← Minicbor.str
  let secret ← Minicbor.str
  let bytes ← Minicbor.bytes
  let c ← (Crypto.fromBytes bytes : Option PublicKey)
  pure { amount, id, secret, c, dleq := none, witness := none }

def putEnvelope (e : Envelope) : List UInt8 :=
  putArray 4 ++ putU64 e.version.toUInt64 ++ putU64 e.counter.toUInt64 ++
    (putArray (UInt64.ofNat e.proofs.length) ++ e.proofs.flatMap putProof) ++
    (putArray 8 ++ e.seedId.flatMap fun b => putU64 b.toUInt64)

def readEnvelope : Decoder UInt8 Envelope := do
  let _ ← Minicbor.array
  let version ← Minicbor.u64
  let counter ← Minicbor.u64
  let proofs ← decodeArray readProof
  let seedId ← decodeArray Minicbor.u64
  pure { version := version.toUInt32, counter := counter.toUInt32, proofs, seedId := seedId.map UInt64.toUInt8 }

/-- What is derived, for proofs that have neither a DLEQ proof nor a witness. -/
scoped instance codec : EnvelopeCodec where
  toVec e := if e.proofs.all fun p => p.dleq.isNone && p.witness.isNone then some (putEnvelope e) else none
  decode := minicborDecode readEnvelope

def held : List Proof := [⟨4, "00c0ffee", "s", (3 : UInt8), none, none⟩, ⟨2, "00c0ffee", "t", (5 : UInt8), none, none⟩]

def seedId : List UInt8 := [1, 2, 3, 4, 5, 6, 7, 200]

end ToyEnvelope

open ToyEnvelope

theorem envelope_integrity_toy :
    (∃ blob, encodeEnvelope 3 held seedId = .ok blob ∧ decodeEnvelope blob seedId = some (3, held) ∧
      ∀ other, other ≠ seedId → decodeEnvelope blob other = none) ∧
    ∀ blob id contents, decodeEnvelope blob id = some contents → ∀ damaged, Damaged blob damaged →
      ∀ other, decodeEnvelope damaged other = none :=
  envelope_integrity ⟨putEnvelope ⟨envelopeVersion, 3, held, seedId⟩, rfl, by decide +kernel⟩

end toy

end Micronuts
