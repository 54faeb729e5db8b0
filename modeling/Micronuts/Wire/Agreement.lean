import Mathlib.Data.List.Nodup
import Micronuts.Audit.Translate
import Micronuts.Nuts.Blinding
import Micronuts.Wire.Client

/-!
# The two sides of the wire

What the adapter reads from a body of the wallet, and what the wallet reads from a response of the adapter. Each message has
a lemma of its own; those with lists use that of the entry (`mapM_toJson`). The sides differ in five places: a proof's DLEQ
is not sent, an empty list of outputs or of change is none, the key that locks a quote is made canonical, keys are sorted,
and of the settings of a NUT only what the adapter shows arrives.
-/

namespace Micronuts

namespace Except
variable {ε α β : Type}

@[simp] theorem okOr_some (a : α) (e : ε) : Except.okOr (some a) e = .ok a := rfl

@[simp] theorem ok_bind (a : α) (f : α → Except ε β) : (Except.ok a >>= f) = f a := rfl

@[simp] theorem pure_eq_ok (a : α) : (pure a : Except ε α) = .ok a := rfl

@[simp] theorem mapError_ok {ε' : Type} (f : ε → ε') (a : α) : (Except.ok a : Except ε α).mapError f = .ok a := rfl

@[simp] theorem mapError_error {ε' : Type} (f : ε → ε') (e : ε) :
    (Except.error e : Except ε α).mapError f = .error (f e) := rfl

@[simp] theorem map_ok (f : α → β) (a : α) : f <$> (Except.ok a : Except ε α) = .ok (f a) := rfl

end Except

theorem mapM_toJson {α β γ ε : Type} {parse : γ → Except ε β} {toJson : α → γ} {image : α → β}
    (h : ∀ a, parse (toJson a) = .ok (image a)) (l : List α) : (l.map toJson).mapM parse = .ok (l.map image) := by
  induction l with
  | nil => rfl
  | cons a l ih =>
    rw [List.map_cons, List.mapM_cons, h, ih]
    rfl

/-- As `mapM_toJson`, for entries that are read as they were written. -/
theorem mapM_toJson_self {α γ ε : Type} {parse : γ → Except ε α} {toJson : α → γ}
    (h : ∀ a, parse (toJson a) = .ok a) (l : List α) : (l.map toJson).mapM parse = .ok l := by
  rw [@mapM_toJson _ _ _ _ parse toJson id h, List.map_id]

/-- An empty list counts as none. -/
def noneIfEmpty {α : Type} : Option (List α) → Option (List α)
  | some [] => none
  | l => l

section
variable [Crypto]

def Proof.withoutDleq (p : Proof) : Proof := { p with dleq := none }

/-- The keys in ascending order of their amounts. -/
def KeySet.sorted (ks : KeySet) : KeySet := { ks with keys := ks.keys.mergeSort fun a b => a.amount ≤ b.amount }

theorem KeySet.sorted_of_ascending {ks : KeySet} (h : ks.keys.Pairwise fun a b => a.amount < b.amount) : ks.sorted = ks := by
  have hle : ks.keys.Pairwise fun a b => decide (a.amount ≤ b.amount) := by
    refine h.imp ?_
    intro a b hab
    simpa using UInt64.le_of_lt hab
  rw [KeySet.sorted, List.mergeSort_of_pairwise hle]

/-- The settings of a NUT, as far as the adapter shows them and the wallet reads them. -/
def shownNut (id : String) (settings : NutSettings) : NutSettings :=
  let nothing : NutSettings := ⟨[], none, none, [], none⟩
  if id = "4" ∨ id = "5" then { nothing with methods := settings.methods }
  else if id = "19" then { nothing with ttl := settings.ttl, cachedEndpoints := settings.cachedEndpoints }
  else if id = "20" then { nothing with supported := some (settings.supported.getD true) }
  else if id = "29" then
    { nothing with methods := settings.methods.map fun m => ⟨m.method, "sat"⟩, maxBatchSize := settings.maxBatchSize }
  else if id ∈ ["7", "8", "9", "10", "11", "12", "14"] then { nothing with supported := some true }
  else { nothing with methods := settings.methods }

/-! ### Requests -/

namespace Audit
open MintWire

@[simp] theorem parsePublicKeyFromHex_pointHex (p : PublicKey) : parsePublicKeyFromHex (pointHex p) = .ok p := by
  have hlen := Crypto.toBytes_length p
  simp [parsePublicKeyFromHex, pointHex, Hex.decode_encode, hlen, Crypto.fromBytes_toBytes]

theorem parseBlindedMessage_toJson (m : BlindedMessage) : parseBlindedMessage (blindedMessageToJson m) = .ok m := by
  simp [parseBlindedMessage, blindedMessageToJson, u64Field, strField]

theorem parseProof_toJson (p : Proof) : parseProof (proofToJson p) = .ok p.withoutDleq := by
  obtain ⟨amount, id, secret, c, dleq, witness⟩ := p
  cases witness <;> simp [parseProof, proofToJson, u64Field, strField, Proof.withoutDleq]

theorem parseMintRequest_body (request : MintRequest) : parseMintRequest (mintBody request) = .ok request := by
  obtain ⟨quote, outputs, signature⟩ := request
  have hmessages := mapM_toJson_self parseBlindedMessage_toJson outputs
  cases signature <;> simp [parseMintRequest, mintBody, strField, arrayField, hmessages]

theorem parseSwapRequest_body (request : SwapRequest) : parseSwapRequest (swapBody request) =
    .ok { request with inputs := request.inputs.map Proof.withoutDleq } := by
  simp [parseSwapRequest, swapBody, arrayField, mapM_toJson parseProof_toJson, mapM_toJson_self parseBlindedMessage_toJson]

omit [Crypto] in
theorem parseMeltQuoteRequest_body (request : MeltQuoteRequest) :
    parseMeltQuoteRequest (meltQuoteBody request) = .ok request := by
  obtain ⟨text, unit, amount⟩ := request
  cases amount <;> simp [parseMeltQuoteRequest, meltQuoteBody, strField]

theorem parseMeltRequest_body (request : MeltRequest) : parseMeltRequest (meltBody request) =
    .ok { request with inputs := request.inputs.map Proof.withoutDleq, outputs := noneIfEmpty request.outputs } := by
  obtain ⟨quote, inputs, outputs⟩ := request
  have hproofs := mapM_toJson parseProof_toJson inputs
  rcases outputs with - | ⟨- | ⟨o, os⟩⟩
  · simp [parseMeltRequest, meltBody, strField, arrayField, hproofs, noneIfEmpty]
  · simp [parseMeltRequest, meltBody, strField, arrayField, hproofs, noneIfEmpty]
  · have hmessages := mapM_toJson_self parseBlindedMessage_toJson (o :: os)
    rw [List.map_cons] at hmessages
    simp [parseMeltRequest, meltBody, strField, arrayField, hproofs, hmessages, noneIfEmpty]

theorem parseCheckStateRequest_body (request : CheckStateRequest) :
    parseCheckStateRequest (checkStateBody request) = .ok request := by
  have hkey : ∀ y : PublicKey, parsePublicKeyValue (.string (pointHex y)) = .ok y := by
    intro y
    simp [parsePublicKeyValue]
  simp [parseCheckStateRequest, checkStateBody, arrayField, mapM_toJson_self hkey]

theorem parseRestoreRequest_body (request : RestoreRequest) : parseRestoreRequest (restoreBody request) = .ok request := by
  have hkey : ∀ y : PublicKey, parseRestoreItem (.string (pointHex y)) = .ok y := by
    intro y
    simp [parseRestoreItem]
  simp [parseRestoreRequest, restoreBody, arrayField, mapM_toJson_self hkey]

/-- The key that locks a quote, as the adapter passes it on. -/
def canonicalPubkey : Option String → Except HttpResponse (Option String)
  | none => .ok none
  | some s =>
    match parsePublicKeyFromHex s with
    | .ok point => .ok (some (pointHex point))
    | .error _ => .error (badRequest "pubkey" "not a valid compressed secp256k1 point")

theorem parseMintQuoteRequest_body (request : MintQuoteRequest) : parseMintQuoteRequest (mintQuoteBody request) =
    (canonicalPubkey request.pubkey).map fun pubkey => { request with pubkey } := by
  obtain ⟨amount, unit, pubkey⟩ := request
  rcases pubkey with - | s
  · simp [parseMintQuoteRequest, mintQuoteBody, u64Field, strField, canonicalPubkey, Except.map]
  · rcases hpoint : parsePublicKeyFromHex s with e | point
    · simp [parseMintQuoteRequest, mintQuoteBody, u64Field, strField, canonicalPubkey, hpoint, Except.map, bind, Except.bind]
    · simp [parseMintQuoteRequest, mintQuoteBody, u64Field, strField, canonicalPubkey, hpoint, Except.map]

end Audit

/-! ### Responses -/

namespace MintWire
open Audit

@[simp] theorem pointFromHex_pointHex (p : PublicKey) : pointFromHex (pointHex p) = .ok p := by
  have hlen := Crypto.toBytes_length p
  simp [pointFromHex, pointHex, Hex.decode_encode, hlen, Crypto.fromBytes_toBytes]

theorem scalarField_scalarHex {value : Value} {field : String} {k : SecretKey}
    (h : value.get field = some (.string (scalarHex k))) : scalarField value field = .ok k := by
  simp [scalarField, strField, h, scalarHex, Hex.decode_encode, Crypto.fromSlice_toSecretBytes]

theorem parseSignatureEntry_toJson (sig : BlindSignature) : parseSignatureEntry (blindSignatureToJson sig) = .ok sig := by
  obtain ⟨amount, id, c, dleq⟩ := sig
  rcases dleq with - | ⟨e, s⟩
  · simp [parseSignatureEntry, blindSignatureToJson, u64Field, strField, pointField]
  · have he : scalarField (.ofFields [("e", .string (scalarHex e)), ("s", .string (scalarHex s))]) "e" = .ok e :=
      scalarField_scalarHex (by simp)
    have hs : scalarField (.ofFields [("e", .string (scalarHex e)), ("s", .string (scalarHex s))]) "s" = .ok s :=
      scalarField_scalarHex (by simp)
    obtain ⟨members, hmembers⟩ : ∃ members,
      Value.ofFields [("e", .string (scalarHex e)), ("s", .string (scalarHex s))] = .object members := ⟨_, rfl⟩
    rw [hmembers] at he hs
    simp [parseSignatureEntry, blindSignatureToJson, u64Field, strField, pointField, hmembers, he, hs]

theorem parseSignatures_toJson [SerdeJson] {value : Value} {sigs : List BlindSignature}
    (h : value.get "signatures" = some (.array (sigs.map blindSignatureToJson))) : parseSignatures value = .ok sigs := by
  simp [parseSignatures, h, mapM_toJson_self parseSignatureEntry_toJson]

omit [Crypto] in
theorem parseMintQuoteResponse_toJson (resp : Wire.MintQuoteResponse) :
    parseMintQuoteResponse (mintQuoteResponseToJson resp) = .ok resp := by
  obtain ⟨quote, request, paid, state, expiry, amount, unit, amountPaid, amountIssued, updatedAt, method, pubkey⟩ := resp
  cases pubkey <;> simp [parseMintQuoteResponse, mintQuoteResponseToJson, strField, u64Or, strOr, optStrField]

omit [Crypto] in
theorem parseMeltQuoteResponse_toJson (resp : Wire.MeltQuoteResponse) :
    parseMeltQuoteResponse (meltQuoteResponseToJson resp) = .ok resp := by
  simp [parseMeltQuoteResponse, meltQuoteResponseToJson, strField, u64Field, u64Or, strOr, optStrField]

theorem parseMeltResponse_toJson (resp : Wire.MeltResponse) :
    parseMeltResponse (meltResponseToJson resp) = .ok { resp with change := noneIfEmpty resp.change } := by
  obtain ⟨paid, state, preimage, change, quote, amount, feeReserve, unit, expiry, request, method⟩ := resp
  have hpreimage : (optStrToJson preimage).asStr = preimage := by cases preimage <;> rfl
  rcases change with - | ⟨- | ⟨sig, sigs⟩⟩
  · simp [parseMeltResponse, meltResponseToJson, changeToJson, noneIfEmpty, strField, boolField, u64Or, strOr, optStrField,
      hpreimage]
  · simp [parseMeltResponse, meltResponseToJson, changeToJson, noneIfEmpty, strField, boolField, u64Or, strOr, optStrField,
      hpreimage]
  · have hsigs := mapM_toJson_self parseSignatureEntry_toJson (sig :: sigs)
    rw [List.map_cons] at hsigs
    simp [parseMeltResponse, meltResponseToJson, changeToJson, noneIfEmpty, strField, boolField, u64Or, strOr, optStrField,
      hpreimage, hsigs]

theorem parseProofState_toJson (state : ProofState) : parseProofState (proofStateToJson state) = .ok state := by
  obtain ⟨y, text, witness⟩ := state
  have hwitness : (optStrToJson witness).asStr = witness := by cases witness <;> rfl
  simp [parseProofState, proofStateToJson, pointField, strField, optStrField, hwitness]

theorem parseRestoreOutputs_toJson (outputs : List RestoreOutput) :
    ((outputs.map fun o => Value.string (pointHex o.y)).zip (outputs.map RestoreOutput.signature)).mapM parseRestoreOutput =
      .ok outputs := by
  induction outputs with
  | nil => rfl
  | cons o outputs ih =>
    have ho : parseRestoreOutput (.string (pointHex o.y), o.signature) = .ok o := by simp [parseRestoreOutput]
    rw [List.map_cons, List.map_cons, List.zip_cons_cons, List.mapM_cons, ho, ih]
    rfl

/-! ### Keysets and the info document -/

omit [Crypto] in
theorem mapM_perm {α β ε : Type} {parse : α → Except ε β} {l l' : List α} {bs : List β} (hperm : l'.Perm l)
    (h : l.mapM parse = .ok bs) : ∃ bs', l'.mapM parse = .ok bs' ∧ bs'.Perm bs := by
  obtain ⟨bs', hbs, hbsperm⟩ := List.perm_comp_forall₂ hperm (Except.mapM_eq_ok.1 h)
  exact ⟨bs', Except.mapM_eq_ok.2 hbs, hbsperm⟩

/-- Keys with different amounts come in one order only. -/
theorem sortKeys_perm {keys keys' : List KeyPair} (hperm : keys'.Perm keys) (h : (keys.map KeyPair.amount).Nodup) :
    (keys'.mergeSort fun a b => a.amount ≤ b.amount) = keys.mergeSort fun a b => a.amount ≤ b.amount := by
  have hsorted (l : List KeyPair) :
      (l.mergeSort fun a b => a.amount ≤ b.amount).Pairwise fun a b => decide (a.amount ≤ b.amount) := by
    refine List.pairwise_mergeSort ?_ ?_ l
    · intro a b c hab hbc
      simp only [decide_eq_true_eq] at hab hbc ⊢
      exact UInt64.le_trans hab hbc
    · intro a b
      simpa using UInt64.le_total a.amount b.amount
  have hmem (l : List KeyPair) : (l.mergeSort fun a b => a.amount ≤ b.amount).Perm l := List.mergeSort_perm _ _
  refine List.Perm.eq_of_pairwise ?_ (hsorted keys') (hsorted keys) ((hmem keys').trans (hperm.trans (hmem keys).symm))
  intro a b ha hb hab hba
  simp only [decide_eq_true_eq] at hab hba
  rw [List.mem_mergeSort] at ha hb
  exact List.inj_on_of_nodup_map h (hperm.subset ha) hb (UInt64.le_antisymm hab hba)

theorem parseKeyPair_toJson (kp : KeyPair) : parseKeyPair (toString kp.amount, .string (pointHex kp.pubkey)) = .ok kp := by
  simp [parseKeyPair, parseU64_toString]

theorem parseKeyset_toJson {ks : KeySet} (h : (ks.keys.map KeyPair.amount).Nodup) :
    parseKeyset (keysetToJson ks) = .ok ks.sorted := by
  have hnames : ((ks.keys.map fun kp => (toString kp.amount, Value.string (pointHex kp.pubkey))).map Prod.fst).Nodup := by
    have hname : Function.Injective fun amount : UInt64 => toString amount := fun m n hmn => by
      have := parseU64_toString m
      rw [show toString m = toString n from hmn, parseU64_toString] at this
      exact (Option.some.inj this).symm
    have := List.Nodup.map hname h
    rwa [List.map_map] at this ⊢
  have hall : (ks.keys.map fun kp => (toString kp.amount, Value.string (pointHex kp.pubkey))).mapM parseKeyPair =
      .ok ks.keys :=
    mapM_toJson_self parseKeyPair_toJson ks.keys
  obtain ⟨keys, hkeys, hperm⟩ := mapM_perm (Members.ofList_perm hnames) hall
  have hsort := sortKeys_perm hperm h
  simp [parseKeyset, keysetToJson, strField, hkeys, hsort, KeySet.sorted]

omit [Crypto] in
theorem filterMap_toJson {α : Type} {parse : Value → Option α} {toJson : α → Value} {image : α → α}
    (h : ∀ a, parse (toJson a) = some (image a)) (l : List α) : (l.map toJson).filterMap parse = l.map image := by
  induction l with
  | nil => rfl
  | cons a l ih => rw [List.map_cons, List.filterMap_cons_some (h a), ih, List.map_cons]

omit [Crypto] in
theorem parseNutSettings_toJson (id : String) (settings : NutSettings) :
    parseNutSettings (nutToJson id settings) = shownNut id settings := by
  have hmethods : (settings.methods.map fun m =>
      Value.ofFields [("method", .string m.method), ("unit", .string m.unit)]).filterMap
      parsePaymentMethod = settings.methods := by
    have h := @filterMap_toJson _ parsePaymentMethod
      (fun m : PaymentMethod => Value.ofFields [("method", .string m.method), ("unit", .string m.unit)])
      (fun m => m) ?_ settings.methods
    · rwa [List.map_id'] at h
    · intro m
      show some (⟨strOr (.ofFields _) "method" "", strOr (.ofFields _) "unit" ""⟩ : PaymentMethod) = _
      simp [strOr, optStrField]
  have hnames := @filterMap_toJson _ parsePaymentMethod (fun m : PaymentMethod => .string m.method)
    (fun m => ⟨m.method, "sat"⟩) (fun _ => rfl) settings.methods
  have hendpoints : (settings.cachedEndpoints.map fun e =>
      Value.ofFields [("method", .string e.method), ("path", .string e.path)]).map
      nut19CachedEndpoint = settings.cachedEndpoints := by
    rw [List.map_map]
    refine (List.map_congr_left fun e _ => ?_).trans (List.map_id _)
    simp [nut19CachedEndpoint, strOr, optStrField]
  rw [nutToJson, shownNut]
  split_ifs
  · simp [parseNutSettings, hmethods]
  · cases settings.ttl <;> simp [parseNutSettings, hendpoints]
  · simp [parseNutSettings]
  · cases settings.maxBatchSize <;> simp [parseNutSettings, hnames]
  · simp [parseNutSettings]
  · simp [parseNutSettings, hmethods]

omit [Crypto] in
theorem parseMintInfo_toJson {info : MintInfo} (h : (info.nuts.map Prod.fst).Nodup) :
    ∃ nuts, parseMintInfo (mintInfoToJson info) = .ok { info with nuts } ∧
      nuts.Perm (info.nuts.map fun nut => (nut.1, shownNut nut.1 nut.2)) := by
  have hcontact : info.contact.map ((fun c => (⟨((c.get "method").bind Value.asStr).getD "",
      ((c.get "info").bind Value.asStr).getD ""⟩ : ContactInfo)) ∘
        fun c => Value.ofFields [("method", .string c.method), ("info", .string c.info)]) = info.contact :=
    (List.map_congr_left fun c _ => by simp).trans (List.map_id _)
  have hnames : ((info.nuts.map fun nut => (nut.1, nutToJson nut.1 nut.2)).map Prod.fst).Nodup := by
    rwa [List.map_map]
  have hnuts := (Members.ofList_perm hnames).map fun nut => (nut.1, parseNutSettings nut.2)
  rw [List.map_map] at hnuts
  have hshown : info.nuts.map ((fun nut => (nut.1, parseNutSettings nut.2)) ∘ fun nut => (nut.1, nutToJson nut.1 nut.2)) =
      info.nuts.map fun nut => (nut.1, shownNut nut.1 nut.2) :=
    List.map_congr_left fun nut _ => by simp [parseNutSettings_toJson]
  rw [hshown] at hnuts
  refine ⟨_, ?_, (List.mergeSort_perm _ fun a b => naturalNutOrder a.1 b.1 ≠ .gt).trans hnuts⟩
  simp [parseMintInfo, mintInfoToJson, strOr, optStrField, hcontact]

omit [Crypto] in
theorem parseKeysetInfo_toJson (info : KeysetInfo) : WireMintClient.parseKeysetInfo (keysetInfoToJson info) = .ok info := by
  simp [WireMintClient.parseKeysetInfo, keysetInfoToJson, strField, boolField, u64Field]

end MintWire

/-! ### Both ways -/

namespace WireMintClient
open Audit MintWire

/-- What the adapter reads from the bodies of the wallet. -/
structure RequestsArrive : Prop where
  mintQuote : ∀ request, parseMintQuoteRequest (mintQuoteBody request) =
    (canonicalPubkey request.pubkey).map fun pubkey => { request with pubkey }
  mintQuote_same : ∀ request : MintQuoteRequest, request.pubkey = none ∨ (∃ p, request.pubkey = some (pointHex p)) →
    parseMintQuoteRequest (mintQuoteBody request) = .ok request
  mint : ∀ request, parseMintRequest (mintBody request) = .ok request
  meltQuote : ∀ request, parseMeltQuoteRequest (meltQuoteBody request) = .ok request
  melt : ∀ request, parseMeltRequest (meltBody request) =
    .ok { request with inputs := request.inputs.map Proof.withoutDleq, outputs := noneIfEmpty request.outputs }
  swap : ∀ request, parseSwapRequest (swapBody request) =
    .ok { request with inputs := request.inputs.map Proof.withoutDleq }
  checkState : ∀ request, parseCheckStateRequest (checkStateBody request) = .ok request
  restore : ∀ request, parseRestoreRequest (restoreBody request) = .ok request

/-- What the methods of the wallet return when the answer to their call is that of the adapter. -/
structure ResponsesArrive [SerdeJson] (c : WireMintClient) : Prop where
  info : ∀ info : MintInfo, (info.nuts.map Prod.fst).Nodup →
    c.transport.getJson (c.url "/v1/info") = .ok (mintInfoToJson info) →
    ∃ nuts, c.getInfo = .ok { info with nuts } ∧ nuts.Perm (info.nuts.map fun nut => (nut.1, shownNut nut.1 nut.2))
  keys : ∀ resp : KeysResponse, (∀ ks ∈ resp.keysets, (ks.keys.map KeyPair.amount).Nodup) →
    c.transport.getJson (c.url "/v1/keys") = .ok (keysToJson resp) → c.getKeys = .ok ⟨resp.keysets.map KeySet.sorted⟩
  keys_same : ∀ resp : KeysResponse, (∀ ks ∈ resp.keysets, ks.keys.Pairwise fun a b => a.amount < b.amount) →
    c.transport.getJson (c.url "/v1/keys") = .ok (keysToJson resp) → c.getKeys = .ok resp
  keysets : ∀ resp, c.transport.getJson (c.url "/v1/keysets") = .ok (keysetsToJson resp) → c.getKeysets = .ok resp
  mintQuote : ∀ request resp,
    c.transport.postJson (c.url "/v1/mint/quote/bolt11") (mintQuoteBody request) = .ok (mintQuoteResponseToJson resp) →
    c.postMintQuote request = .ok resp
  mintQuoteState : ∀ quoteId resp,
    c.transport.getJson (c.url ("/v1/mint/quote/bolt11/" ++ urlencode quoteId)) = .ok (mintQuoteResponseToJson resp) →
    c.getMintQuote quoteId = .ok resp
  mint : ∀ request resp,
    c.transport.postJson (c.url "/v1/mint/bolt11") (mintBody request) = .ok (mintResponseToJson resp) →
    c.postMint request = .ok resp
  meltQuote : ∀ request resp,
    c.transport.postJson (c.url "/v1/melt/quote/bolt11") (meltQuoteBody request) = .ok (meltQuoteResponseToJson resp) →
    c.postMeltQuote request = .ok resp
  meltQuoteState : ∀ quoteId resp,
    c.transport.getJson (c.url ("/v1/melt/quote/bolt11/" ++ urlencode quoteId)) = .ok (meltQuoteResponseToJson resp) →
    c.getMeltQuote quoteId = .ok resp
  melt : ∀ request resp,
    c.transport.postJson (c.url "/v1/melt/bolt11") (meltBody request) = .ok (meltResponseToJson resp) →
    c.postMelt request = .ok { resp with change := noneIfEmpty resp.change }
  swap : ∀ request resp,
    c.transport.postJson (c.url "/v1/swap") (swapBody request) = .ok (swapResponseToJson resp) → c.postSwap request = .ok resp
  checkState : ∀ request resp,
    c.transport.postJson (c.url "/v1/checkstate") (checkStateBody request) = .ok (checkStateResponseToJson resp) →
    c.postCheckState request = .ok resp
  restore : ∀ request resp,
    c.transport.postJson (c.url "/v1/restore") (restoreBody request) = .ok (restoreResponseToJson resp) →
    c.postRestore request = .ok resp

theorem requestsArrive : RequestsArrive where
  mintQuote := parseMintQuoteRequest_body
  mintQuote_same := by
    rintro ⟨amount, unit, pubkey⟩ h
    rw [parseMintQuoteRequest_body]
    rcases h with rfl | ⟨p, rfl⟩
    · rfl
    · simp [canonicalPubkey, Except.map]
  mint := parseMintRequest_body
  meltQuote := parseMeltQuoteRequest_body
  melt := parseMeltRequest_body
  swap := parseSwapRequest_body
  checkState := parseCheckStateRequest_body
  restore := parseRestoreRequest_body

variable [SerdeJson] (c : WireMintClient)

omit [SerdeJson] in
theorem getKeys_toJson {resp : KeysResponse} (hnodup : ∀ ks ∈ resp.keysets, (ks.keys.map KeyPair.amount).Nodup)
    (h : c.transport.getJson (c.url "/v1/keys") = .ok (keysToJson resp)) :
    c.getKeys = .ok ⟨resp.keysets.map KeySet.sorted⟩ := by
  have hall : (resp.keysets.map keysetToJson).mapM parseKeyset = .ok (resp.keysets.map KeySet.sorted) := by
    refine Except.mapM_eq_ok.2 ?_
    rw [List.forall₂_map_left_iff, List.forall₂_map_right_iff, List.forall₂_same]
    intro ks hks
    exact parseKeyset_toJson (hnodup ks hks)
  simp [getKeys, h, keysToJson, hall]

theorem responsesArrive : ResponsesArrive c where
  info info hnodup h := by
    obtain ⟨nuts, hparsed, hperm⟩ := parseMintInfo_toJson hnodup
    exact ⟨nuts, by simp [getInfo, h, hparsed], hperm⟩
  keys _ hnodup h := c.getKeys_toJson hnodup h
  keys_same resp hascending h := by
    have hnodup : ∀ ks ∈ resp.keysets, (ks.keys.map KeyPair.amount).Nodup := by
      intro ks hks
      rw [List.Nodup, List.pairwise_map]
      exact (hascending ks hks).imp UInt64.ne_of_lt
    rw [c.getKeys_toJson hnodup h, List.map_congr_left fun ks hks => KeySet.sorted_of_ascending (hascending ks hks),
      List.map_id']
  keysets resp h := by simp [getKeysets, h, keysetsToJson, mapM_toJson_self parseKeysetInfo_toJson]
  mintQuote request resp h := by simp [postMintQuote, h, parseMintQuoteResponse_toJson]
  mintQuoteState quoteId resp h := by simp [getMintQuote, h, parseMintQuoteResponse_toJson]
  mint request resp h := by
    have hsigs : parseSignatures (mintResponseToJson resp) = .ok resp.signatures :=
      parseSignatures_toJson (by simp [mintResponseToJson])
    simp [postMint, h, hsigs]
  meltQuote request resp h := by simp [postMeltQuote, h, parseMeltQuoteResponse_toJson]
  meltQuoteState quoteId resp h := by simp [getMeltQuote, h, parseMeltQuoteResponse_toJson]
  melt request resp h := by simp [postMelt, h, parseMeltResponse_toJson]
  swap request resp h := by
    have hsigs : parseSignatures (swapResponseToJson resp) = .ok resp.signatures :=
      parseSignatures_toJson (by simp [swapResponseToJson])
    simp [postSwap, h, hsigs]
  checkState request resp h := by
    simp [postCheckState, h, checkStateResponseToJson, mapM_toJson_self parseProofState_toJson]
  restore request resp h := by
    have hsigs : parseSignatures (restoreResponseToJson resp) = .ok (resp.outputs.map RestoreOutput.signature) :=
      parseSignatures_toJson (by simp [restoreResponseToJson])
    have houtputs : (restoreResponseToJson resp).get "outputs" =
        some (.array (resp.outputs.map fun o => .string (pointHex o.y))) := by simp [restoreResponseToJson]
    simp [postRestore, h, hsigs, houtputs, parseRestoreOutputs_toJson]

/-- The two sides agree, but for what the fields say. -/
theorem wire_agrees : RequestsArrive ∧ ResponsesArrive c := ⟨requestsArrive, responsesArrive c⟩

end WireMintClient

end

section toy
open Toy32
namespace WireMintClient
open Audit MintWire

def badKey : MintQuoteRequest := ⟨8, "sat", some "zz"⟩

def noChange : Wire.MeltResponse := ⟨true, "PAID", none, some [], "q", 8, 0, "sat", 0, "lnbc", "bolt11"⟩

def descending : KeySet := ⟨"00", "sat", [⟨2, (1 : UInt8)⟩, ⟨1, (1 : UInt8)⟩]⟩

def unset : NutSettings := ⟨[], none, none, [], none⟩

/-- A key that is no point, a list of change without entries, keys in another order and a NUT without a flag. -/
theorem wire_differs :
    parseMintQuoteRequest (mintQuoteBody badKey) =
        .error (badRequest "pubkey" "not a valid compressed secp256k1 point") ∧
      parseMeltResponse (meltResponseToJson noChange) = .ok { noChange with change := none } ∧
      ((descending.keys.map KeyPair.amount).Nodup ∧ parseKeyset (keysetToJson descending) ≠ .ok descending) ∧
      parseNutSettings (nutToJson "7" unset) = { unset with supported := some true } ∧
      ¬ ((∀ request, parseMintQuoteRequest (mintQuoteBody request) = .ok request) ∧
        ∀ resp, parseMeltResponse (meltResponseToJson resp) = .ok resp) := by
  have hbad : parseMintQuoteRequest (mintQuoteBody badKey) =
      .error (badRequest "pubkey" "not a valid compressed secp256k1 point") := by
    rw [parseMintQuoteRequest_body]
    rfl
  have hamounts : (descending.keys.map KeyPair.amount).Nodup := by decide
  refine ⟨hbad, parseMeltResponse_toJson noChange, ⟨hamounts, ?_⟩, parseNutSettings_toJson "7" unset, ?_⟩
  · rw [parseKeyset_toJson hamounts]
    intro h
    have hfirst : descending.sorted.keys.head?.map KeyPair.amount = some 2 := by
      rw [Except.ok.inj h]
      rfl
    rw [KeySet.sorted] at hfirst
    simp [descending, List.mergeSort, List.MergeSort.Internal.splitInTwo] at hfirst
  · rintro ⟨hrequests, -⟩
    rw [hrequests] at hbad
    cases hbad

end WireMintClient
end toy

end Micronuts
