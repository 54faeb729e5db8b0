import Micronuts.Rpc.Envelope

/-!
# The derived codecs on concrete CBOR

A struct is the array of its fields, an enum the number of its variant before the array of that one's fields, and a missing
field is null. Lengths past `2 ^ 64`, which no value of the program has, are written in a form of their own, so that every
value of the model is read back.
-/

namespace Micronuts
open Decoder

namespace ToyDerive
open ToyCbor

/-! ### Counts -/

def unary (n : Nat) : List UInt8 := List.replicate n 1 ++ [0]

def readUnary : Decoder UInt8 Nat := fun bs =>
  some ((bs.takeWhile (· == 1)).length, (bs.dropWhile (· == 1)).tail)

theorem readUnary_reads (n : Nat) : Reads readUnary (unary n) n := by
  intro rest
  simp only [readUnary, unary, List.append_assoc, List.singleton_append]
  induction n with
  | zero => rfl
  | succ n ih => simp_all [List.replicate_succ]

def putCount (major : UInt8) (n : Nat) : List UInt8 :=
  if n < 2 ^ 64 then putHead major (UInt64.ofNat n) else (major <<< 5 ||| 31) :: unary n

def readCount (major : UInt8) : Decoder UInt8 Nat := do
  let (m, info, n) ← head
  if m ≠ major then failure
  else if info = 31 then readUnary
  else pure n

theorem readCount_reads {major : UInt8} (hmajor : major < 8) (n : Nat) : Reads (readCount major) (putCount major n) n := by
  rw [putCount]
  by_cases hn : n < 2 ^ 64
  · obtain ⟨info, hinfo, hhead⟩ := putHead_reads hmajor (UInt64.ofNat n)
    rw [if_pos hn]
    refine hhead.bind_pure ?_
    dsimp only
    rw [if_neg (by simp), if_neg hinfo, UInt64.toNat_ofNat_of_lt' hn]
    exact Reads.pure n
  · rw [if_neg hn]
    have hhead : Reads head [major <<< 5 ||| 31] (major, 31, 0) := head_reads hmajor (by decide) (Reads.pure 0)
    show Reads (readCount major) ([major <<< 5 ||| 31] ++ unary n) n
    refine hhead.bind ?_
    dsimp only
    rw [if_neg (by simp), if_pos rfl]
    exact readUnary_reads n

theorem headByte_not_null {major info : UInt8} (hmajor : major < 7) (hinfo : info < 32) :
    major <<< 5 ||| info ≠ 0xf6 ∧ major <<< 5 ||| info ≠ 0xf7 := by
  have hshift := (headByte (UInt8.lt_trans hmajor (by decide)) hinfo).1
  constructor
  · intro h
    rw [h] at hshift
    exact absurd (hshift ▸ hmajor) (by decide)
  · intro h
    rw [h] at hshift
    exact absurd (hshift ▸ hmajor) (by decide)

theorem putHead_not_null {major : UInt8} (hmajor : major < 7) (n : UInt64) (bs : List UInt8) :
    ∃ b tail, putHead major n ++ bs = b :: tail ∧ b ≠ 0xf6 ∧ b ≠ 0xf7 := by
  unfold putHead
  split_ifs with h
  · have hlt : n.toUInt8 < 32 := by
      rw [UInt8.lt_iff_toNat_lt, UInt64.toNat_toUInt8]
      have hn : n.toNat < 24 := h
      show n.toNat % 256 < 32
      omega
    exact ⟨_, _, rfl, headByte_not_null hmajor hlt⟩
  all_goals exact ⟨_, _, rfl, headByte_not_null hmajor (by decide)⟩

theorem putCount_not_null {major : UInt8} (hmajor : major < 7) (n : Nat) (bs : List UInt8) :
    ∃ b tail, putCount major n ++ bs = b :: tail ∧ b ≠ 0xf6 ∧ b ≠ 0xf7 := by
  rw [putCount]
  by_cases hn : n < 2 ^ 64
  · rw [if_pos hn]
    exact putHead_not_null hmajor _ bs
  · rw [if_neg hn]
    exact ⟨_, _, rfl, headByte_not_null hmajor (by decide)⟩

/-! ### Fields -/

instance {α : Type} : Coe (FieldCodec α) (Codec UInt8 α) := ⟨FieldCodec.toCodec⟩

variable {α β : Type}

def u64 : FieldCodec UInt64 where
  encode := putHead 0
  decode := unsigned
  reads := unsigned_reads
  not_null n := by
    have h := putHead_not_null (by decide : (0 : UInt8) < 7) n []
    rwa [List.append_nil] at h

def u32 : Codec UInt8 UInt32 := u64.toCodec.iso (fun n => n.toUInt32) UInt32.toUInt64 UInt32.toUInt32_toUInt64

def bool : FieldCodec Bool where
  encode b := [if b then 0xf5 else 0xf4]
  decode := do
    let b ← next
    if b = 0xf5 then pure true else if b = 0xf4 then pure false else failure
  reads b := by cases b <;> exact fun _ => rfl
  not_null b := by cases b <;> exact ⟨_, _, rfl, by decide⟩

def str : FieldCodec String where
  encode s := putCount 3 (asBytes s).length ++ asBytes s
  decode := do
    let n ← readCount 3
    let bs ← takeBytes n
    String.fromUTF8? ⟨⟨bs⟩⟩
  reads s := (readCount_reads (by decide) _).bind
    ((takeBytes_reads (asBytes s)).bind_pure (Reads.lift (fromUTF8?_asBytes s)))
  not_null s := putCount_not_null (by decide) _ _

def vecField (c : Codec UInt8 α) : FieldCodec (List α) where
  toCodec := Codec.listOf ⟨putCount 4, readCount 4, readCount_reads (by decide)⟩ c
  not_null l := putCount_not_null (by decide) _ _

def vec (c : Codec UInt8 α) : Codec UInt8 (List α) := (vecField c).toCodec

def readNull (c : FieldCodec α) : Decoder UInt8 (Option α)
  | 0xf6 :: rest => some (none, rest)
  | bs => (do let a ← c.decode; pure (some a) : Decoder UInt8 (Option α)) bs

def option (c : FieldCodec α) : Codec UInt8 (Option α) where
  encode
    | none => [0xf6]
    | some a => c.encode a
  decode := readNull c
  reads
    | none => fun _ => rfl
    | some a => by
      obtain ⟨b, tail, hb, hnull, -⟩ := c.not_null a
      have hread : Reads (do let a ← c.decode; pure (some a) : Decoder UInt8 (Option α)) (c.encode a) (some a) :=
        (c.reads a).bind_pure (Reads.pure _)
      intro rest
      show readNull c (c.encode a ++ rest) = _
      have h := hread rest
      rw [hb, List.cons_append] at h ⊢
      rw [readNull]
      · exact h
      · rintro _ ⟨⟩
        exact hnull rfl

/-- The head of an array. -/
def openArray (n : UInt64) : Decoder UInt8 Unit := do
  let len ← lengthOf 4
  if len ≠ some n then failure else pure ()

theorem openArray_reads (n : UInt64) : Reads (openArray n) (putHead 4 n) () := by
  refine (lengthOf_reads (by decide) n).bind_pure ?_
  rw [if_neg (by simp)]
  exact Reads.pure _

/-- A struct: the array of its fields. -/
def record (n : UInt64) (fields : Codec UInt8 α) (f : α → β) (g : β → α) (h : ∀ b, f (g b) = b) : FieldCodec β where
  encode b := putHead 4 n ++ fields.encode (g b)
  decode := do
    openArray n
    let a ← fields.decode
    pure (f a)
  reads b := by
    refine (openArray_reads n).bind ((fields.reads (g b)).bind_pure ?_)
    rw [h]
    exact Reads.pure b
  not_null b := putHead_not_null (by decide) _ _

/-- An enum: the number of the variant, and the fields of that one. -/
def variant (k n : UInt64) (fields : List UInt8) : List UInt8 :=
  putHead 4 2 ++ (putHead 0 k ++ (putHead 4 n ++ fields))

def readVariant (body : UInt64 → Decoder UInt8 α) : Decoder UInt8 α := do
  openArray 2
  let k ← unsigned
  body k

/-- The variant without a field. -/
def readUnit (a : α) : Decoder UInt8 α := do
  openArray 0
  pure a

def readField (c : Codec UInt8 β) (f : β → α) : Decoder UInt8 α := do
  openArray 1
  let b ← c.decode
  pure (f b)

theorem readVariant_unit {body : UInt64 → Decoder UInt8 α} {k : UInt64} {a : α} (h : body k = readUnit a) :
    Reads (readVariant body) (variant k 0 []) a := by
  refine (openArray_reads 2).bind ((unsigned_reads k).bind ?_)
  rw [h]
  exact (openArray_reads 0).bind (Reads.pure a)

theorem readVariant_field {body : UInt64 → Decoder UInt8 α} {k : UInt64} {c : Codec UInt8 β} {f : β → α}
    (h : body k = readField c f) (b : β) : Reads (readVariant body) (variant k 1 (c.encode b)) (f b) := by
  refine (openArray_reads 2).bind ((unsigned_reads k).bind ?_)
  rw [h]
  exact (openArray_reads 1).bind ((c.reads b).bind_pure (Reads.pure _))

/-! ### Messages -/

section
variable [Crypto] (key : Codec UInt8 PublicKey) (proofDleq : FieldCodec ProofDleq) (dleq : FieldCodec BlindSignatureDleq)

def contactInfo : FieldCodec ContactInfo :=
  record 2 (str.pair str) (fun (method, info) => ⟨method, info⟩) (fun c => (c.method, c.info)) fun _ => rfl

def paymentMethod : FieldCodec PaymentMethod :=
  record 2 (str.pair str) (fun (method, unit) => ⟨method, unit⟩) (fun m => (m.method, m.unit)) fun _ => rfl

def cachedEndpoint : FieldCodec CachedEndpoint :=
  record 2 (str.pair str) (fun (method, path) => ⟨method, path⟩) (fun e => (e.method, e.path)) fun _ => rfl

def nutSettings : FieldCodec NutSettings :=
  record 5 ((vec paymentMethod).pair <| (option bool).pair <| (option u64).pair <| (vec cachedEndpoint).pair <| option u64)
    (fun (methods, supported, ttl, cachedEndpoints, maxBatchSize) => ⟨methods, supported, ttl, cachedEndpoints, maxBatchSize⟩)
    (fun s => (s.methods, s.supported, s.ttl, s.cachedEndpoints, s.maxBatchSize)) fun _ => rfl

def mintInfo : FieldCodec MintInfo :=
  record 6 (str.pair <| str.pair <| str.pair <| str.pair <| (vec contactInfo).pair <|
      vec (record 2 (str.pair nutSettings) id id fun _ => rfl).toCodec)
    (fun (name, pubkey, version, description, contact, nuts) => ⟨name, pubkey, version, description, contact, nuts⟩)
    (fun i => (i.name, i.pubkey, i.version, i.description, i.contact, i.nuts)) fun _ => rfl

def keyPair : FieldCodec KeyPair :=
  record 2 (u64.pair key) (fun (amount, pubkey) => ⟨amount, pubkey⟩) (fun kp => (kp.amount, kp.pubkey)) fun _ => rfl

def keySet : FieldCodec KeySet :=
  record 3 (str.pair <| str.pair <| vec (keyPair key)) (fun (id, unit, keys) => ⟨id, unit, keys⟩)
    (fun k => (k.id, k.unit, k.keys)) fun _ => rfl

def keysResponse : FieldCodec KeysResponse := record 1 (vec (keySet key)) KeysResponse.mk (·.keysets) fun _ => rfl

def keysetInfo : FieldCodec KeysetInfo :=
  record 4 (str.pair <| str.pair <| bool.pair u64)
    (fun (id, unit, active, inputFeePpk) => ⟨id, unit, active, inputFeePpk⟩)
    (fun k => (k.id, k.unit, k.active, k.inputFeePpk)) fun _ => rfl

def keysetsResponse : FieldCodec KeysetsResponse := record 1 (vec keysetInfo) KeysetsResponse.mk (·.keysets) fun _ => rfl

def checkStateRequest : FieldCodec CheckStateRequest := record 1 (vec key) CheckStateRequest.mk (·.ys) fun _ => rfl

def proofState : FieldCodec ProofState :=
  record 3 (key.pair <| str.pair <| option str) (fun (y, state, witness) => ⟨y, state, witness⟩)
    (fun p => (p.y, p.state, p.witness)) fun _ => rfl

def checkStateResponse : FieldCodec CheckStateResponse :=
  record 1 (vec (proofState key)) CheckStateResponse.mk (·.states) fun _ => rfl

def blindedMessage : FieldCodec BlindedMessage :=
  record 3 (u64.pair <| str.pair key) (fun (amount, id, b) => ⟨amount, id, b⟩) (fun m => (m.amount, m.id, m.b)) fun _ => rfl

def blindSignature : FieldCodec BlindSignature :=
  record 4 (u64.pair <| str.pair <| key.pair <| option dleq) (fun (amount, id, c, dleq) => ⟨amount, id, c, dleq⟩)
    (fun s => (s.amount, s.id, s.c, s.dleq)) fun _ => rfl

def proof : FieldCodec Proof :=
  record 6 (u64.pair <| str.pair <| str.pair <| key.pair <| (option proofDleq).pair <| option str)
    (fun (amount, id, secret, c, dleq, witness) => ⟨amount, id, secret, c, dleq, witness⟩)
    (fun p => (p.amount, p.id, p.secret, p.c, p.dleq, p.witness)) fun _ => rfl

def swapRequest : FieldCodec SwapRequest :=
  record 2 ((vec (proof key proofDleq)).pair <| vec (blindedMessage key)) (fun (inputs, outputs) => ⟨inputs, outputs⟩)
    (fun r => (r.inputs, r.outputs)) fun _ => rfl

def swapResponse : FieldCodec SwapResponse :=
  record 1 (vec (blindSignature key dleq)) SwapResponse.mk (·.signatures) fun _ => rfl

def mintQuoteRequest : FieldCodec MintQuoteRequest :=
  record 3 (u64.pair <| str.pair <| option str) (fun (amount, unit, pubkey) => ⟨amount, unit, pubkey⟩)
    (fun r => (r.amount, r.unit, r.pubkey)) fun _ => rfl

def mintQuoteResponse : FieldCodec Wire.MintQuoteResponse :=
  record 12 (str.pair <| str.pair <| bool.pair <| str.pair <| u64.pair <| u64.pair <| str.pair <| u64.pair <| u64.pair <|
      u64.pair <| str.pair <| option str)
    (fun (quote, request, paid, state, expiry, amount, unit, amountPaid, amountIssued, updatedAt, method, pubkey) =>
      ⟨quote, request, paid, state, expiry, amount, unit, amountPaid, amountIssued, updatedAt, method, pubkey⟩)
    (fun r => (r.quote, r.request, r.paid, r.state, r.expiry, r.amount, r.unit, r.amountPaid, r.amountIssued, r.updatedAt,
      r.method, r.pubkey)) fun _ => rfl

def mintRequest : FieldCodec MintRequest :=
  record 3 (str.pair <| (vec (blindedMessage key)).pair <| option str)
    (fun (quote, outputs, signature) => ⟨quote, outputs, signature⟩) (fun r => (r.quote, r.outputs, r.signature)) fun _ => rfl

def mintResponse : FieldCodec MintResponse :=
  record 1 (vec (blindSignature key dleq)) MintResponse.mk (·.signatures) fun _ => rfl

def batchCheckMintQuoteRequest : FieldCodec BatchCheckMintQuoteRequest :=
  record 1 (vec str) BatchCheckMintQuoteRequest.mk (·.quotes) fun _ => rfl

def batchMintRequest : FieldCodec BatchMintRequest :=
  record 4 ((vec str).pair <| (option (vecField u64)).pair <| (vec (blindedMessage key)).pair <|
    option (vecField (option str)))
    (fun (quotes, quoteAmounts, outputs, signatures) => ⟨quotes, quoteAmounts, outputs, signatures⟩)
    (fun r => (r.quotes, r.quoteAmounts, r.outputs, r.signatures)) fun _ => rfl

def meltQuoteRequest : FieldCodec MeltQuoteRequest :=
  record 3 (str.pair <| str.pair <| option u64) (fun (request, unit, amount) => ⟨request, unit, amount⟩)
    (fun r => (r.request, r.unit, r.amount)) fun _ => rfl

def meltQuoteResponse : FieldCodec Wire.MeltQuoteResponse :=
  record 9 (str.pair <| u64.pair <| u64.pair <| bool.pair <| str.pair <| u64.pair <| str.pair <| str.pair str)
    (fun (quote, amount, feeReserve, paid, state, expiry, request, unit, method) =>
      ⟨quote, amount, feeReserve, paid, state, expiry, request, unit, method⟩)
    (fun r => (r.quote, r.amount, r.feeReserve, r.paid, r.state, r.expiry, r.request, r.unit, r.method)) fun _ => rfl

def meltRequest : FieldCodec MeltRequest :=
  record 3 (str.pair <| (vec (proof key proofDleq)).pair <| option (vecField (blindedMessage key)))
    (fun (quote, inputs, outputs) => ⟨quote, inputs, outputs⟩) (fun r => (r.quote, r.inputs, r.outputs)) fun _ => rfl

def meltResponse : FieldCodec Wire.MeltResponse :=
  record 11 (bool.pair <| str.pair <| (option str).pair <| (option (vecField (blindSignature key dleq))).pair <| str.pair <|
      u64.pair <| u64.pair <| str.pair <| u64.pair <| str.pair str)
    (fun (paid, state, paymentPreimage, change, quote, amount, feeReserve, unit, expiry, request, method) =>
      ⟨paid, state, paymentPreimage, change, quote, amount, feeReserve, unit, expiry, request, method⟩)
    (fun r => (r.paid, r.state, r.paymentPreimage, r.change, r.quote, r.amount, r.feeReserve, r.unit, r.expiry, r.request,
      r.method)) fun _ => rfl

def restoreRequest : FieldCodec RestoreRequest := record 1 (vec key) RestoreRequest.mk (·.outputs) fun _ => rfl

def restoreOutput : FieldCodec RestoreOutput :=
  record 2 (key.pair (blindSignature key dleq)) (fun (y, signature) => ⟨y, signature⟩) (fun o => (o.y, o.signature))
    fun _ => rfl

def restoreResponse : FieldCodec RestoreResponse :=
  record 1 (vec (restoreOutput key dleq)) RestoreResponse.mk (·.outputs) fun _ => rfl

def mintQuoteLookupRequest : FieldCodec MintQuoteLookupRequest :=
  record 1 str MintQuoteLookupRequest.mk (·.quote) fun _ => rfl

def meltQuoteLookupRequest : FieldCodec MeltQuoteLookupRequest :=
  record 1 str MeltQuoteLookupRequest.mk (·.quote) fun _ => rfl

end

/-! ### Envelopes -/

def cashuError : Codec UInt8 CashuError where
  encode
    | .transport msg => variant 0 1 (str.encode msg)
    | .protocol msg => variant 1 1 (str.encode msg)
    | .crypto msg => variant 2 1 (str.encode msg)
    | .invalidAmount => variant 3 0 []
    | .quoteNotFound => variant 4 0 []
    | .quoteNotPaid => variant 5 0 []
    | .quoteAlreadyIssued => variant 6 0 []
    | .insufficientInputs => variant 7 0 []
    | .invalidProof => variant 8 0 []
    | .keysetNotFound => variant 9 0 []
    | .amountMismatch => variant 10 0 []
    | .unknown msg => variant 11 1 (str.encode msg)
    | .storage msg => variant 12 1 (str.encode msg)
    | .tokensAlreadySpent => variant 13 0 []
    | .meltAlreadyPaid => variant 14 0 []
    | .paymentFailed => variant 15 0 []
    | .spendConditionsNotMet => variant 16 0 []
    | .quoteSignatureInvalid => variant 17 0 []
    | .batchTooLarge => variant 18 0 []
    | .tooManyOutputs => variant 19 0 []
    | .batchQuoteNotUnique => variant 20 0 []
  decode := readVariant fun
    | 0 => readField str .transport
    | 1 => readField str .protocol
    | 2 => readField str .crypto
    | 3 => readUnit .invalidAmount
    | 4 => readUnit .quoteNotFound
    | 5 => readUnit .quoteNotPaid
    | 6 => readUnit .quoteAlreadyIssued
    | 7 => readUnit .insufficientInputs
    | 8 => readUnit .invalidProof
    | 9 => readUnit .keysetNotFound
    | 10 => readUnit .amountMismatch
    | 11 => readField str .unknown
    | 12 => readField str .storage
    | 13 => readUnit .tokensAlreadySpent
    | 14 => readUnit .meltAlreadyPaid
    | 15 => readUnit .paymentFailed
    | 16 => readUnit .spendConditionsNotMet
    | 17 => readUnit .quoteSignatureInvalid
    | 18 => readUnit .batchTooLarge
    | 19 => readUnit .tooManyOutputs
    | 20 => readUnit .batchQuoteNotUnique
    | _ => failure
  reads err := by
    cases err with
    | transport msg | protocol msg | crypto msg | unknown msg | storage msg => exact readVariant_field rfl msg
    | _ => exact readVariant_unit rfl

section
variable [Crypto] (key : Codec UInt8 PublicKey) (proofDleq : FieldCodec ProofDleq) (dleq : FieldCodec BlindSignatureDleq)

def mintRpcMethod : Codec UInt8 MintRpcMethod where
  encode
    | .getInfo => variant 0 0 []
    | .getKeys => variant 1 0 []
    | .getKeysets => variant 2 0 []
    | .mintQuote body => variant 3 1 (mintQuoteRequest.encode body)
    | .getMintQuote body => variant 4 1 (mintQuoteLookupRequest.encode body)
    | .mint body => variant 5 1 ((mintRequest key).encode body)
    | .meltQuote body => variant 6 1 (meltQuoteRequest.encode body)
    | .getMeltQuote body => variant 7 1 (meltQuoteLookupRequest.encode body)
    | .melt body => variant 8 1 ((meltRequest key proofDleq).encode body)
    | .swap body => variant 9 1 ((swapRequest key proofDleq).encode body)
    | .checkState body => variant 10 1 ((checkStateRequest key).encode body)
    | .restore body => variant 11 1 ((restoreRequest key).encode body)
    | .batchCheckMintQuotes body => variant 12 1 (batchCheckMintQuoteRequest.encode body)
    | .batchMint body => variant 13 1 ((batchMintRequest key).encode body)
  decode := readVariant fun
    | 0 => readUnit .getInfo
    | 1 => readUnit .getKeys
    | 2 => readUnit .getKeysets
    | 3 => readField mintQuoteRequest .mintQuote
    | 4 => readField mintQuoteLookupRequest .getMintQuote
    | 5 => readField (mintRequest key) .mint
    | 6 => readField meltQuoteRequest .meltQuote
    | 7 => readField meltQuoteLookupRequest .getMeltQuote
    | 8 => readField (meltRequest key proofDleq) .melt
    | 9 => readField (swapRequest key proofDleq) .swap
    | 10 => readField (checkStateRequest key) .checkState
    | 11 => readField (restoreRequest key) .restore
    | 12 => readField batchCheckMintQuoteRequest .batchCheckMintQuotes
    | 13 => readField (batchMintRequest key) .batchMint
    | _ => failure
  reads method := by
    cases method with
    | getInfo | getKeys | getKeysets => exact readVariant_unit rfl
    | _ body => exact readVariant_field rfl body

def mintRpcResult : Codec UInt8 MintRpcResult where
  encode
    | .getInfo body => variant 0 1 (mintInfo.encode body)
    | .getKeys body => variant 1 1 ((keysResponse key).encode body)
    | .getKeysets body => variant 2 1 (keysetsResponse.encode body)
    | .mintQuote body => variant 3 1 (mintQuoteResponse.encode body)
    | .getMintQuote body => variant 4 1 (mintQuoteResponse.encode body)
    | .mint body => variant 5 1 ((mintResponse key dleq).encode body)
    | .meltQuote body => variant 6 1 (meltQuoteResponse.encode body)
    | .getMeltQuote body => variant 7 1 (meltQuoteResponse.encode body)
    | .melt body => variant 8 1 ((meltResponse key dleq).encode body)
    | .swap body => variant 9 1 ((swapResponse key dleq).encode body)
    | .checkState body => variant 10 1 ((checkStateResponse key).encode body)
    | .restore body => variant 11 1 ((restoreResponse key dleq).encode body)
    | .batchCheckMintQuotes body => variant 12 1 ((vec mintQuoteResponse).encode body)
    | .batchMint body => variant 13 1 ((mintResponse key dleq).encode body)
  decode := readVariant fun
    | 0 => readField mintInfo .getInfo
    | 1 => readField (keysResponse key) .getKeys
    | 2 => readField keysetsResponse .getKeysets
    | 3 => readField mintQuoteResponse .mintQuote
    | 4 => readField mintQuoteResponse .getMintQuote
    | 5 => readField (mintResponse key dleq) .mint
    | 6 => readField meltQuoteResponse .meltQuote
    | 7 => readField meltQuoteResponse .getMeltQuote
    | 8 => readField (meltResponse key dleq) .melt
    | 9 => readField (swapResponse key dleq) .swap
    | 10 => readField (checkStateResponse key) .checkState
    | 11 => readField (restoreResponse key dleq) .restore
    | 12 => readField (vec mintQuoteResponse) .batchCheckMintQuotes
    | 13 => readField (mintResponse key dleq) .batchMint
    | _ => failure
  reads result := by
    cases result with
    | _ body => exact readVariant_field rfl body

def mintRpcPayload : Codec UInt8 MintRpcPayload where
  encode
    | .success body => variant 0 1 ((mintRpcResult key dleq).encode body)
    | .error body => variant 1 1 (cashuError.encode body)
  decode := readVariant fun
    | 0 => readField (mintRpcResult key dleq) .success
    | 1 => readField cashuError .error
    | _ => failure
  reads payload := by
    cases payload with
    | _ body => exact readVariant_field rfl body

def mintRpcRequest : FieldCodec MintRpcRequest :=
  record 2 (u32.pair (mintRpcMethod key proofDleq)) (fun (id, method) => ⟨id, method⟩) (fun r => (r.id, r.method)) fun _ =>
    rfl

def mintRpcResponse : FieldCodec MintRpcResponse :=
  record 2 (u32.pair (mintRpcPayload key dleq)) (fun (id, payload) => ⟨id, payload⟩) (fun r => (r.id, r.payload)) fun _ => rfl

scoped instance derive : MinicborDerive where
  request key proofDleq := mintRpcRequest key proofDleq
  response key dleq := mintRpcResponse key dleq
  errorText _ := ""
  debug _ := ""

/-- A mint that counts its swaps, and does nothing else. -/
def swapCounter : MintService Nat where
  getInfo n := (.error .quoteNotFound, n)
  getKeys n := (.error .quoteNotFound, n)
  getKeysets n := (.error .quoteNotFound, n)
  postMintQuote _ n := (.error .quoteNotFound, n)
  getMintQuote _ n := (.error .quoteNotFound, n)
  postMint _ n := (.error .quoteNotFound, n)
  postMeltQuote _ n := (.error .quoteNotFound, n)
  getMeltQuote _ n := (.error .quoteNotFound, n)
  postMelt _ n := (.error .quoteNotFound, n)
  postSwap _ n := (.ok ⟨[]⟩, n + 1)
  postCheckState _ n := (.error .quoteNotFound, n)
  postRestore _ n := (.error .quoteNotFound, n)
  batchCheckMintQuotes _ n := (.error .quoteNotFound, n)
  batchMint _ n := (.error .quoteNotFound, n)

end

end ToyDerive

end Micronuts
