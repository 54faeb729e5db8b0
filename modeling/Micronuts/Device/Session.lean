import Micronuts.Device.Scanning
import Micronuts.Nuts.TokenEncode

/-!
# The swap session of the device (`micronuts-app`: `command_handler.rs`, `util.rs`)

The device blinds the proofs of the token it has imported, takes the mint's signatures, and hands out new proofs under
the mint and the unit of the token that is imported by then. No command asks whether that is still the same token:
`Swap` follows which token the fields of the state are about, and the two agree in a run without an import in between.
-/

namespace Micronuts
open Exec

section
variable [Crypto] [Minicbor] [UrScanner]

/-! ### The commands -/

/-- A command of a session, with what the hardware has for it: a capture, or the bytes of each draw. -/
inductive SwapCommand
  | importToken (payload : List UInt8)
  | capture (c : Capture)
  | getBlinded (rng : Nat → List UInt8)
  | sendSignatures (payload : List UInt8)
  | getProofs

/-- A handler that returns a response early fails with it. -/
abbrev HandlerM (α : Type) : Type := Exec Unit FirmwareState Protocol.Response α

def handleImportToken (payload : List UInt8) : HandlerM Protocol.Response := do
  let token ← okOr (decodeToken payload) (.new .invalidPayload)
  modify fun state => { state with importedToken := some token, swapState := .tokenImported }
  pure (.new .ok)

def handleCapture (c : Capture) : HandlerM Protocol.Response := fun _ state => (.ok (c.handle state).1, (c.handle state).2)

variable [Curve]

def blindProof (blinderBytes : List UInt8) (proof : Token.Proof) : Option Blinded := do
  let blinder ← (Crypto.fromSlice blinderBytes : Option SecretKey)
  let blinded ← blindMessage (asBytes proof.secret) blinder
  pure ⟨blinded, blinder⟩

/-- The outputs with their secrets and amounts; a proof that cannot be blinded is passed over. -/
def blindProofs (rng : Nat → List UInt8) : Nat → List Token.Proof → List Blinded × List String × List UInt64
  | _, [] => ([], [], [])
  | i, proof :: proofs =>
    match blindProof (rng i) proof, blindProofs rng (i + 1) proofs with
    | none, blinded => blinded
    | some b, (blindedMessages, secrets, amounts) => (b :: blindedMessages, proof.secret :: secrets, proof.amount :: amounts)

def handleGetBlinded (rng : Nat → List UInt8) : HandlerM Protocol.Response := do
  let state ← get
  let token ← okOr state.importedToken (.new .error)
  let (blindedMessages, secrets, amounts) := blindProofs rng 0 token.proofs
  failIf (blindedMessages.isEmpty = true) (.new .cryptoError)
  let totalLen := blindedMessages.length * 33
  failIf (maxPayloadSize < totalLen) (.new .bufferOverflow)
  modify fun state => { state with
    blindedMessages := some blindedMessages, swapSecrets := some secrets, swapAmounts := some amounts,
    swapState := .blindedGenerated }
  let payload := blindedMessages.flatMap fun b => Crypto.toBytes b.blinded
  pure ((Protocol.Response.withPayload .ok payload).getD (.new .bufferOverflow))

/-- The key of the demo mint's seed. -/
def pinnedDemoMintKey : Option PublicKey :=
  ((Crypto.fromSlice (Crypto.sha256 (asBytes "demo://micronuts"))) : Option SecretKey).map Curve.publicKey

/-- `C'`, `e` and `s`. -/
def entryLen : Nat := 33 + 32 + 32

/-- `as_ref().unwrap()[i]`. -/
def unwrapAt {α : Type} (l : Option (List α)) (i : Nat) : HandlerM α :=
  match l.bind (·[i]?) with
  | some a => pure a
  | none => panic

def signedProof (state : FirmwareState) (keysetId : String) (mintPubkey : PublicKey) (entry : List UInt8) (i : Nat)
    (blinded : Blinded) : HandlerM Token.Proof := do
  let blindedSig ← okOr (Crypto.fromBytes (entry.take 33) : Option PublicKey) (.new .cryptoError)
  let e ← okOr (Crypto.fromSlice ((entry.drop 33).take 32) : Option SecretKey) (.new .cryptoError)
  let s ← okOr (Crypto.fromSlice (entry.drop 65) : Option SecretKey) (.new .cryptoError)
  failIf (verifyDleq blinded.blinded blindedSig e s mintPubkey ≠ some true) (.new .cryptoError)
  let unblinded ← okOr (unblindSignature blindedSig blinded.blinder mintPubkey) (.new .cryptoError)
  let secret ← unwrapAt state.swapSecrets i
  let amount ← unwrapAt state.swapAmounts i
  pure { amount, keysetId, secret, c := Crypto.toBytes unblinded, dleq := some ⟨e, s, blinded.blinder⟩ }

def signedProofs (state : FirmwareState) (keysetId : String) (mintPubkey : PublicKey) (payload : List UInt8) :
    Nat → List Blinded → HandlerM (List Token.Proof)
  | _, [] => pure []
  | i, blinded :: blindedMessages => do
    let entry := (payload.drop (i * entryLen)).take entryLen
    let proof ← signedProof state keysetId mintPubkey entry i blinded
    let proofs ← signedProofs state keysetId mintPubkey payload (i + 1) blindedMessages
    pure (proof :: proofs)

/-- The id of the first group. -/
def TokenV4.firstKeysetId (token : TokenV4) : Option String := token.tokens.head?.map TokenV4Token.keysetId

def handleSendSignatures (payload : List UInt8) : HandlerM Protocol.Response := do
  let state ← get
  let blindedMessages ← okOr state.blindedMessages (.new .error)
  failIf (payload.length % entryLen ≠ 0) (.new .invalidPayload)
  let sigCount := payload.length / entryLen
  failIf (sigCount ≠ blindedMessages.length) (.new .invalidPayload)
  let mintPubkey ← okOr pinnedDemoMintKey (.new .cryptoError)
  let keysetId := (state.importedToken.bind TokenV4.firstKeysetId).getD "00"
  let proofs ← signedProofs state keysetId mintPubkey payload 0 blindedMessages
  failIf (proofs.isEmpty = true) (.new .cryptoError)
  modify fun state => { state with newProofs := some proofs, swapState := .proofsReady }
  pure (.new .ok)

variable [MinicborCodec]

def buildExportToken (state : FirmwareState) : Option TokenV4 := do
  let proofs ← state.newProofs
  let token ← state.importedToken
  pure { mint := token.mint, unit := token.unit, memo := some "Swapped via Micronuts",
         tokens := [{ keysetId := (proofs.head?.map Token.Proof.keysetId).getD "00", proofs }] }

def handleGetProofs : HandlerM Protocol.Response := do
  let state ← get
  let newToken ← okOr (buildExportToken state) (.new .error)
  let encoded ← okOr (encodeToken newToken) (.new .error)
  failIf (maxPayloadSize < encoded.length) (.new .bufferOverflow)
  pure ((Protocol.Response.withPayload .ok encoded).getD (.new .bufferOverflow))

def SwapCommand.handle : SwapCommand → HandlerM Protocol.Response
  | importToken payload => handleImportToken payload
  | capture c => handleCapture c
  | getBlinded rng => handleGetBlinded rng
  | sendSignatures payload => handleSendSignatures payload
  | getProofs => handleGetProofs

/-- A command and its response. -/
structure Served where
  command : SwapCommand
  response : Protocol.Response

def SwapStep (s : FirmwareState) (a : Served) (s' : FirmwareState) : Prop :=
  a.command.handle.run () s = (.ok a.response, s') ∨ a.command.handle.run () s = (.err a.response, s')

/-! ### How a command ends -/

/-- A proof is of a blinded message: the mint's signature on the message was checked, then unblinded. -/
def Blinded.Signs (b : Blinded) (key : PublicKey) (p : Token.Proof) : Prop :=
  ∃ cPrime c e s, verifyDleq b.blinded cPrime e s key = some true ∧ unblindSignature cPrime b.blinder key = some c ∧
    p.c = Crypto.toBytes c ∧ p.dleq = some ⟨e, s, b.blinder⟩

/-- What the entry at a position is made to. -/
structure SignedAt (state : FirmwareState) (keysetId : String) (key : PublicKey) (i : Nat) (b : Blinded)
    (p : Token.Proof) : Prop where
  signs : b.Signs key p
  keysetId : p.keysetId = keysetId
  secret : (state.swapSecrets.bind (·[i]?)) = some p.secret
  amount : (state.swapAmounts.bind (·[i]?)) = some p.amount

/-- How a command ends: it is refused and changes nothing, or it does what it is for. -/
inductive SwapEnds (s : FirmwareState) : SwapCommand → Protocol.Response → FirmwareState → Prop
  | refused (command : SwapCommand) (response : Protocol.Response) (hstatus : response.status ≠ .ok) :
      SwapEnds s command response s
  | imported (payload : List UInt8) (token : TokenV4) (hdecode : decodeToken payload = some token) :
      SwapEnds s (.importToken payload) (.new .ok) { s with importedToken := some token, swapState := .tokenImported }
  | captured (c : Capture) (response : Protocol.Response) (s' : FirmwareState) (hstatus : response.status = .ok)
      (hblinded : s'.blindedMessages = s.blindedMessages) (hsecrets : s'.swapSecrets = s.swapSecrets)
      (hamounts : s'.swapAmounts = s.swapAmounts) (hproofs : s'.newProofs = s.newProofs) :
      SwapEnds s (.capture c) response s'
  | blinded (rng : Nat → List UInt8) (token : TokenV4) (response : Protocol.Response) (hstatus : response.status = .ok)
      (htoken : s.importedToken = some token) :
      SwapEnds s (.getBlinded rng) response { s with
        blindedMessages := some (blindProofs rng 0 token.proofs).1,
        swapSecrets := some (blindProofs rng 0 token.proofs).2.1,
        swapAmounts := some (blindProofs rng 0 token.proofs).2.2, swapState := .blindedGenerated }
  | signed (payload : List UInt8) (key : PublicKey) (bs : List Blinded) (proofs : List Token.Proof)
      (hbs : s.blindedMessages = some bs) (hkey : pinnedDemoMintKey = some key) (hne : proofs ≠ [])
      (hlen : proofs.length = bs.length) (hsigned : ∀ j b p, bs[j]? = some b → proofs[j]? = some p →
        SignedAt s ((s.importedToken.bind TokenV4.firstKeysetId).getD "00") key j b p) :
      SwapEnds s (.sendSignatures payload) (.new .ok) { s with newProofs := some proofs, swapState := .proofsReady }
  | exported (newToken : TokenV4) (response : Protocol.Response) (hstatus : response.status = .ok)
      (hnew : buildExportToken s = some newToken) (hencoded : encodeToken newToken = some response.payload) :
      SwapEnds s .getProofs response s

omit [Curve] [MinicborCodec] in
theorem classifyAndAssemble_status (s : FirmwareState) (data : List UInt8) :
    (classifyAndAssemble s data).1.status = .ok := by
  have hfits : ∀ header : List UInt8, header.length ≤ 2 →
      (header ++ data.take (maxPayloadSize - header.length)).length ≤ maxPayloadSize := by
    intro header hheader
    simp only [List.length_append, List.length_take, maxPayloadSize]
    omega
  rw [classifyAndAssemble]
  dsimp only
  rw [Protocol.Response.withPayload, dif_pos (hfits _ (by split <;> simp))]
  rfl

omit [Curve] [MinicborCodec] in
/-- A capture touches the token and the assembler alone, and one that is refused nothing. -/
theorem Capture.handle_ends (s : FirmwareState) (c : Capture) :
    (c.handle s).1.status ≠ .ok ∧ (c.handle s).2 = s ∨
      (c.handle s).1.status = .ok ∧ (c.handle s).2.blindedMessages = s.blindedMessages ∧
        (c.handle s).2.swapSecrets = s.swapSecrets ∧ (c.handle s).2.swapAmounts = s.swapAmounts ∧
        (c.handle s).2.newProofs = s.newProofs := by
  have hdata : ∀ data, (classifyAndAssemble s data).2.blindedMessages = s.blindedMessages ∧
      (classifyAndAssemble s data).2.swapSecrets = s.swapSecrets ∧
      (classifyAndAssemble s data).2.swapAmounts = s.swapAmounts ∧
      (classifyAndAssemble s data).2.newProofs = s.newProofs := by
    intro data
    rw [classifyAndAssemble]
    dsimp only
    generalize (s.scanAssembler.process data).1 = outcome
    cases outcome <;> exact ⟨rfl, rfl, rfl, rfl⟩
  rcases c with ⟨_ | data⟩ | ⟨_ | data⟩
  · exact .inl ⟨(fun h => by cases h), rfl⟩
  · exact .inr ⟨classifyAndAssemble_status s data, hdata data⟩
  · exact .inl ⟨(fun h => by cases h), rfl⟩
  · exact .inr ⟨classifyAndAssemble_status s data, hdata data⟩

/-- A reader of the state: what it gives, or why it ends early. -/
def Gives {α : Type} (s : FirmwareState) (P : α → Prop) (o : Outcome Protocol.Response α) (t : FirmwareState) : Prop :=
  t = s ∧ match o with
    | .ok a => P a
    | .err response => response.status ≠ .ok
    | .panic => True

section
variable {state s : FirmwareState} {keysetId : String} {key : PublicKey}

omit [Minicbor] [Curve] [MinicborCodec] in
theorem unwrapAt_ends {α : Type} (l : Option (List α)) (i : Nat) :
    (unwrapAt l i).Ends () s (Gives s fun a => l.bind (·[i]?) = some a) := by
  rw [unwrapAt]
  split
  · next a ha => exact .pure ⟨rfl, ha⟩
  · exact ⟨rfl, trivial⟩

omit [Minicbor] [MinicborCodec] in
theorem signedProof_ends (entry : List UInt8) (i : Nat) (b : Blinded) :
    (signedProof state keysetId key entry i b).Ends () s (Gives s (SignedAt state keysetId key i b)) := by
  rw [signedProof]
  refine Ends.bind_okOr (fun cPrime _ => ?_) fun _ => ⟨rfl, nofun⟩
  refine Ends.bind_okOr (fun e _ => ?_) fun _ => ⟨rfl, nofun⟩
  refine Ends.bind_okOr (fun sc _ => ?_) fun _ => ⟨rfl, nofun⟩
  refine Ends.bind_failIf (fun hdleq => ?_) fun _ => ⟨rfl, nofun⟩
  refine Ends.bind_okOr (fun c hc => ?_) fun _ => ⟨rfl, nofun⟩
  refine Ends.bind (unwrapAt_ends _ _) ?_ (fun _ _ h => h) fun _ h => h
  rintro secret t ⟨rfl, hsecret⟩
  refine Ends.bind (unwrapAt_ends _ _) ?_ (fun _ _ h => h) fun _ h => h
  rintro amount t ⟨rfl, hamount⟩
  exact .pure ⟨rfl, ⟨cPrime, c, e, sc, not_not.1 hdleq, hc, rfl, rfl⟩, rfl, hsecret, hamount⟩

omit [Minicbor] [MinicborCodec] in
/-- As many proofs as outputs, position by position. -/
theorem signedProofs_ends (payload : List UInt8) (bs : List Blinded) (i : Nat) :
    (signedProofs state keysetId key payload i bs).Ends () s (Gives s fun ps => ps.length = bs.length ∧
      ∀ j b p, bs[j]? = some b → ps[j]? = some p → SignedAt state keysetId key (i + j) b p) := by
  induction bs generalizing i with
  | nil => exact .pure ⟨rfl, rfl, by simp⟩
  | cons b bs ih =>
    rw [signedProofs]
    refine Ends.bind (signedProof_ends _ _ _) ?_ (fun _ _ h => h) fun _ h => h
    rintro p t ⟨rfl, hp⟩
    refine Ends.bind (ih (i + 1)) ?_ (fun _ _ h => h) fun _ h => h
    rintro ps t ⟨rfl, hlen, hsigned⟩
    refine .pure ⟨rfl, by simp [hlen], fun j b' p' hb hp' => ?_⟩
    rcases j with - | j
    · cases hb
      cases hp'
      exact hp
    · simp only [List.getElem?_cons_succ] at hb hp'
      have := hsigned j b' p' hb hp'
      rwa [Nat.add_assoc, Nat.add_comm 1 j] at this

end

/-- What a handler that returns has done. -/
def Handled (s : FirmwareState) (command : SwapCommand) (o : Outcome Protocol.Response Protocol.Response)
    (t : FirmwareState) : Prop :=
  ∀ response, o = .ok response ∨ o = .err response → SwapEnds s command response t

theorem Handled.err {s : FirmwareState} {command : SwapCommand} {response : Protocol.Response}
    (h : response.status ≠ .ok) : Handled s command (.err response) s := by
  rintro response' (hr | hr)
  · cases hr
  · cases hr
    exact .refused command response h

theorem Handled.ok {s t : FirmwareState} {command : SwapCommand} {response : Protocol.Response}
    (h : SwapEnds s command response t) : Handled s command (.ok response) t := by
  rintro response' (hr | hr)
  · cases hr
    exact h
  · cases hr

theorem handleImportToken_ends (s : FirmwareState) (payload : List UInt8) :
    (handleImportToken payload).Ends () s (Handled s (.importToken payload)) := by
  rw [handleImportToken]
  refine Ends.bind_okOr (fun token htoken => ?_) fun _ => .err nofun
  exact Ends.bind_modify (.pure (.ok (.imported payload token htoken)))

theorem handleCapture_ends (s : FirmwareState) (c : Capture) :
    (handleCapture c).Ends () s (Handled s (.capture c)) := by
  refine .ok ?_
  show SwapEnds s (.capture c) (c.handle s).1 (c.handle s).2
  rcases c.handle_ends s with ⟨hstatus, hsame⟩ | ⟨hstatus, hblinded, hsecrets, hamounts, hproofs⟩
  · rw [hsame]
    exact .refused _ _ hstatus
  · exact .captured c _ _ hstatus hblinded hsecrets hamounts hproofs

omit [Crypto] [Minicbor] [UrScanner] [MinicborCodec] [Curve] in
theorem withPayload_getD {data : List UInt8} {other : Protocol.Response} (h : ¬ maxPayloadSize < data.length) :
    ((Protocol.Response.withPayload .ok data).getD other).status = .ok ∧
      ((Protocol.Response.withPayload .ok data).getD other).payload = data := by
  rw [Protocol.Response.withPayload, dif_pos (not_lt.1 h)]
  exact ⟨rfl, rfl⟩

theorem handleGetBlinded_ends (s : FirmwareState) (rng : Nat → List UInt8) :
    (handleGetBlinded rng).Ends () s (Handled s (.getBlinded rng)) := by
  rw [handleGetBlinded]
  refine Ends.bind_get (Ends.bind_okOr (fun token htoken => ?_) fun _ => .err nofun)
  refine Ends.bind_failIf (fun _ => ?_) fun _ => .err nofun
  refine Ends.bind_failIf (fun hlen => ?_) fun _ => .err nofun
  refine Ends.bind_modify (.pure (.ok ?_))
  refine .blinded rng token _ (withPayload_getD ?_).1 htoken
  have hpoints : ∀ bs : List Blinded, (bs.flatMap fun b => Crypto.toBytes b.blinded).length = bs.length * 33 := by
    intro bs
    simp [List.length_flatMap, Crypto.toBytes_length]
  rw [hpoints]
  exact hlen

theorem handleSendSignatures_ends (s : FirmwareState) (payload : List UInt8) :
    (handleSendSignatures payload).Ends () s (Handled s (.sendSignatures payload)) := by
  rw [handleSendSignatures]
  refine Ends.bind_get (Ends.bind_okOr (fun bs hbs => ?_) fun _ => .err nofun)
  refine Ends.bind_failIf (fun _ => ?_) fun _ => .err nofun
  refine Ends.bind_failIf (fun _ => ?_) fun _ => .err nofun
  refine Ends.bind_okOr (fun key hkey => ?_) fun _ => .err nofun
  refine Ends.bind (signedProofs_ends _ _ _) ?_ ?_ ?_
  · rintro ps t ⟨rfl, hlen, hsigned⟩
    refine Ends.bind_failIf (fun hne => ?_) fun _ => .err nofun
    refine Ends.bind_modify (.pure (.ok (.signed payload key bs ps hbs hkey (by simpa using hne) hlen fun j b p hb hp => ?_)))
    have := hsigned j b p hb hp
    rwa [Nat.zero_add] at this
  · rintro response t ⟨rfl, hstatus⟩
    exact .err hstatus
  · rintro t -
    exact fun response h => by rcases h with h | h <;> cases h

theorem handleGetProofs_ends (s : FirmwareState) : (handleGetProofs).Ends () s (Handled s .getProofs) := by
  rw [handleGetProofs]
  refine Ends.bind_get (Ends.bind_okOr (fun newToken hnew => ?_) fun _ => .err nofun)
  refine Ends.bind_okOr (fun encoded hencoded => ?_) fun _ => .err nofun
  refine Ends.bind_failIf (fun hlen => ?_) fun _ => .err nofun
  refine .pure (.ok (.exported newToken _ (withPayload_getD hlen).1 hnew ?_))
  rw [(withPayload_getD hlen).2]
  exact hencoded

theorem SwapStep.ends {s s' : FirmwareState} {a : Served} (h : SwapStep s a s') : SwapEnds s a.command a.response s' := by
  have hends : a.command.handle.Ends () s (Handled s a.command) := by
    rcases a with ⟨payload | c | rng | payload | -, response⟩
    · exact handleImportToken_ends s payload
    · exact handleCapture_ends s c
    · exact handleGetBlinded_ends s rng
    · exact handleSendSignatures_ends s payload
    · exact handleGetProofs_ends s
  rcases h with h | h
  · exact hends.elim h _ (.inl rfl)
  · exact hends.elim h _ (.inr rfl)

/-! ### Runs of commands -/

/-- The token whose proofs were blinded last, and the one whose blinded proofs were signed last. -/
structure Swap where
  blindedFor : Option TokenV4 := none
  signedFor : Option TokenV4 := none

def Swap.after (w : Swap) (e : Step FirmwareState Served) : Swap :=
  match e.act.command, e.act.response.status with
  | .getBlinded _, .ok => { w with blindedFor := e.pre.importedToken }
  | .sendSignatures _, .ok => { w with signedFor := w.blindedFor }
  | _, _ => w

def swapOf (h : List (Step FirmwareState Served)) : Swap := h.foldl Swap.after {}

/-- The proofs are of one keyset, the one the device takes for all of them. -/
def TokenV4.OneKeyset (token : TokenV4) : Prop := ∀ p ∈ token.proofs, token.firstKeysetId = some p.keysetId

/-- Nothing comes between the commands of a swap: the token imported is still the one that was blinded, or signed for.
What is blinded is of one keyset, and no proof of it is passed over. -/
def Undisturbed (w : Swap) (e : Step FirmwareState Served) : Prop :=
  match e.act.command with
  | .getBlinded rng => ∀ token, e.pre.importedToken = some token →
      token.OneKeyset ∧ ∀ i p, token.proofs[i]? = some p → blindProof (rng i) p ≠ none
  | .sendSignatures _ => e.pre.importedToken = w.blindedFor
  | .getProofs => e.pre.importedToken = w.signedFor
  | _ => True

/-- The proof can be checked by anyone against the pinned key. -/
def Token.Proof.Verifies (p : Token.Proof) : Prop :=
  ∃ key c dleq, pinnedDemoMintKey = some key ∧ Crypto.fromBytes p.c = some c ∧ p.dleq = some dleq ∧
    verifyProofDleq (asBytes p.secret) c dleq key = true

/-- Keyset id and amount of each proof in its place. -/
def TokenV4.places (token : TokenV4) : List (String × UInt64) := token.proofs.map fun p => (p.keysetId, p.amount)

/-- What was swapped: mint and unit, and the proofs place by place. -/
structure TokenV4.SwappedFor (exported imported : TokenV4) : Prop where
  mint : exported.mint = imported.mint
  unit : exported.unit = imported.unit
  places : exported.places = imported.places
  groups : ∀ g ∈ exported.tokens, ∀ p ∈ g.proofs, p.keysetId = g.keysetId

/-! #### Blinding -/

section
variable {rng : Nat → List UInt8} {proofs : List Token.Proof}

omit [Minicbor] [UrScanner] [MinicborCodec] in
theorem blindProof_eq_some {bytes : List UInt8} {p : Token.Proof} {b : Blinded} (h : blindProof bytes p = some b) :
    blindMessage (asBytes p.secret) b.blinder = some b.blinded := by
  obtain ⟨blinder, -, h⟩ := Option.bind_eq_some_iff.1 h
  obtain ⟨blinded, hblind, h⟩ := Option.bind_eq_some_iff.1 h
  cases h
  exact hblind

omit [Minicbor] [UrScanner] [MinicborCodec] in
/-- Output and secret of one place belong together, also when proofs are passed over. -/
theorem blindProofs_blind (i : Nat) : ∀ (j : Nat) (b : Blinded) (secret : String), (blindProofs rng i proofs).1[j]? = some b →
    (blindProofs rng i proofs).2.1[j]? = some secret → blindMessage (asBytes secret) b.blinder = some b.blinded := by
  induction proofs generalizing i with
  | nil => exact fun j b secret h => by cases h
  | cons p proofs ih =>
    rw [blindProofs]
    rcases hp : blindProof (rng i) p with - | b
    · exact ih (i + 1)
    · intro j b' secret hb hsecret
      rcases j with - | j
      · cases hb
        cases hsecret
        exact blindProof_eq_some hp
      · exact ih (i + 1) j b' secret hb hsecret

omit [Minicbor] [UrScanner] [MinicborCodec] in
/-- Every proof has its output when none is passed over. -/
theorem blindProofs_all {i : Nat} (h : ∀ j p, proofs[j]? = some p → blindProof (rng (i + j)) p ≠ none) :
    (blindProofs rng i proofs).1.length = proofs.length ∧
      (blindProofs rng i proofs).2.2 = proofs.map Token.Proof.amount := by
  induction proofs generalizing i with
  | nil => exact ⟨rfl, rfl⟩
  | cons p proofs ih =>
    have hrest := @ih (i + 1) fun j q hq => by
      have := h (j + 1) q hq
      rwa [Nat.add_comm j 1, ← Nat.add_assoc] at this
    obtain ⟨b, hb⟩ := Option.ne_none_iff_exists'.1 (h 0 p rfl)
    rw [Nat.add_zero] at hb
    rw [blindProofs, hb]
    exact ⟨by simp [hrest.1], by simp [hrest.2]⟩

end

/-! #### What the fields of the state are about -/

/-- Each output is of its secret, and each new proof verifies. -/
structure FirmwareState.Sound (s : FirmwareState) : Prop where
  outputs : ∀ bs secrets, s.blindedMessages = some bs → s.swapSecrets = some secrets →
    ∀ (j : Nat) b secret, bs[j]? = some b → secrets[j]? = some secret →
      blindMessage (asBytes secret) b.blinder = some b.blinded
  proofs : ∀ ps, s.newProofs = some ps → ∀ p ∈ ps, p.Verifies

theorem FirmwareState.Sound.step [LawfulCurve] {s s' : FirmwareState} {a : Served} (h : s.Sound) (hstep : SwapStep s a s') :
    s'.Sound := by
  obtain ⟨houtputs, hproofs⟩ := h
  obtain ⟨command, response⟩ := a
  have hends := hstep.ends
  dsimp only at hends
  cases hends with
  | refused => exact ⟨houtputs, hproofs⟩
  | imported => exact ⟨houtputs, hproofs⟩
  | captured c response s' hstatus hblinded hsecrets hamounts hnew =>
    refine ⟨?_, ?_⟩
    · rw [hblinded, hsecrets]
      exact houtputs
    · rw [hnew]
      exact hproofs
  | blinded rng token response hstatus htoken =>
    refine ⟨fun bs secrets hbs hsecrets => ?_, hproofs⟩
    cases hbs
    cases hsecrets
    exact blindProofs_blind 0
  | signed payload key bs ps hbs hkey hne hlen hsigned =>
    refine ⟨houtputs, fun ps' hps' p hp => ?_⟩
    cases hps'
    obtain ⟨j, hj⟩ := List.mem_iff_getElem?.1 hp
    have hjlt := (List.getElem?_eq_some_iff.1 hj).1
    have hb : bs[j]? = some bs[j] := List.getElem?_eq_getElem (by omega)
    obtain ⟨⟨cPrime, c, e, sc, hdleq, hc, hbytes, hpdleq⟩, -, hsecret, -⟩ := hsigned j _ p hb hj
    obtain ⟨secrets, hsecrets, hsecret⟩ := Option.bind_eq_some_iff.1 hsecret
    have hblind := houtputs bs secrets hbs hsecrets j _ _ hb hsecret
    refine ⟨key, c, _, hkey, ?_, hpdleq, verifyProofDleq_unblind hblind hdleq hc⟩
    rw [hbytes, Crypto.fromBytes_toBytes]
  | exported => exact ⟨houtputs, hproofs⟩

/-- The outputs are those of the token blinded last, and the new proofs those of the token signed for last. -/
structure Swap.Tracks (w : Swap) (s : FirmwareState) : Prop where
  blinded : ∀ bs, s.blindedMessages = some bs → ∃ token, w.blindedFor = some token ∧ token.OneKeyset ∧
    bs.length = token.proofs.length ∧ s.swapAmounts = some (token.proofs.map Token.Proof.amount)
  signed : ∀ ps, s.newProofs = some ps → ∃ token, w.signedFor = some token ∧ token.OneKeyset ∧
    ps.map (fun p => (p.keysetId, p.amount)) = token.places

theorem Swap.Tracks.step {w : Swap} {s s' : FirmwareState} {a : Served} (h : w.Tracks s) (hstep : SwapStep s a s')
    (hund : Undisturbed w ⟨s, a, s'⟩) : (w.after ⟨s, a, s'⟩).Tracks s' := by
  obtain ⟨hblinded, hsigned⟩ := h
  obtain ⟨command, response⟩ := a
  have hends := hstep.ends
  dsimp only at hends
  cases hends with
  | refused command response hstatus =>
    have hsame : w.after ⟨s, ⟨command, response⟩, s⟩ = w := by
      rw [Swap.after]
      split
      · next heq => exact absurd heq hstatus
      · next heq => exact absurd heq hstatus
      · rfl
    rw [hsame]
    exact ⟨hblinded, hsigned⟩
  | imported payload token hdecode => exact ⟨hblinded, hsigned⟩
  | captured c response s' hstatus hblinded' hsecrets hamounts hnew =>
    refine ⟨?_, ?_⟩
    · rw [hblinded', hamounts]
      exact hblinded
    · rw [hnew]
      exact hsigned
  | blinded rng token response hstatus htoken =>
    obtain ⟨hkeyset, hall⟩ := hund token htoken
    simp only [Swap.after, hstatus]
    refine ⟨fun bs hbs => ?_, hsigned⟩
    cases hbs
    have hplaces := @blindProofs_all _ _ rng token.proofs 0 (by simpa using hall)
    exact ⟨token, htoken, hkeyset, hplaces.1, congrArg some hplaces.2⟩
  | signed payload key bs ps hbs hkey hne hlen hentries =>
    refine ⟨hblinded, fun ps' hps' => ?_⟩
    cases hps'
    obtain ⟨token, hfor, hkeyset, hcount, hamounts⟩ := hblinded bs hbs
    refine ⟨token, hfor, hkeyset, ?_⟩
    have hstill : s.importedToken = some token := by rw [← hfor]; exact hund
    refine List.ext_getElem (by simp [TokenV4.places]; omega) fun j hj hj' => ?_
    simp only [List.length_map, TokenV4.places] at hj hj'
    obtain ⟨-, hid, -, hamount⟩ := hentries j bs[j] ps[j] (List.getElem?_eq_getElem _) (List.getElem?_eq_getElem hj)
    simp only [hamounts, Option.bind_some, List.getElem?_map, List.getElem?_eq_getElem hj', Option.map_some,
      Option.some.injEq] at hamount
    simp only [hstill, Option.bind_some, hkeyset _ (List.getElem_mem hj'), Option.getD_some] at hid
    simp [TokenV4.places, hid, hamount]
  | exported newToken response hstatus hnew hencoded => exact ⟨hblinded, hsigned⟩

/-! #### The session -/

/-- What is handed out is made of the new proofs and the token imported by then. -/
theorem SwapStep.exported {s s' : FirmwareState} {a : Served} (h : SwapStep s a s') (hcommand : a.command = .getProofs)
    (hok : a.response.status = .ok) :
    ∃ exported, buildExportToken s = some exported ∧ encodeToken exported = some a.response.payload := by
  obtain ⟨command, response⟩ := a
  have hends := h.ends
  dsimp only at hcommand hok hends
  subst hcommand
  cases hends with
  | refused _ _ hstatus => exact absurd hok hstatus
  | exported newToken _ _ hnew hencoded => exact ⟨newToken, hnew, hencoded⟩

omit [Minicbor] [Curve] [MinicborCodec] in
theorem buildExportToken_eq_some {s : FirmwareState} {exported : TokenV4} (h : buildExportToken s = some exported) :
    ∃ ps token, s.newProofs = some ps ∧ s.importedToken = some token ∧ exported.mint = token.mint ∧
      exported.unit = token.unit ∧ exported.tokens = [⟨(ps.head?.map Token.Proof.keysetId).getD "00", ps⟩] := by
  obtain ⟨ps, hps, h⟩ := Option.bind_eq_some_iff.1 h
  obtain ⟨token, htoken, h⟩ := Option.bind_eq_some_iff.1 h
  cases h
  exact ⟨ps, token, hps, htoken, rfl, rfl, rfl⟩

/-- A command that is refused leaves the proofs and the state of the swap. -/
theorem SwapStep.refused {s s' : FirmwareState} {a : Served} (h : SwapStep s a s') (hstatus : a.response.status ≠ .ok) :
    s'.newProofs = s.newProofs ∧ s'.swapState = s.swapState := by
  obtain ⟨command, response⟩ := a
  have hends := h.ends
  dsimp only at hstatus hends
  cases hends with
  | refused => exact ⟨rfl, rfl⟩
  | imported => exact absurd rfl hstatus
  | captured _ _ _ hok => exact absurd hok hstatus
  | blinded _ _ _ hok => exact absurd hok hstatus
  | signed => exact absurd rfl hstatus
  | exported _ _ hok => exact ⟨rfl, rfl⟩

omit [Minicbor] [MinicborCodec] in
theorem FirmwareState.Sound.new : FirmwareState.new.Sound := ⟨nofun, nofun⟩

theorem sound_of_run [LawfulCurve] {h : List (Step FirmwareState Served)} {s : FirmwareState} (hrun : Run SwapStep .new h s) :
    s.Sound :=
  Run.invariant_state (G := fun _ => True) (I := FirmwareState.Sound) .new (fun _ _ _ _ hs hstep => hs.step hstep) hrun
    fun _ _ => trivial

omit [Minicbor] [Curve] [MinicborCodec] in
theorem Swap.Tracks.new : (swapOf []).Tracks FirmwareState.new := ⟨nofun, nofun⟩

theorem swapOf_tracks {h : List (Step FirmwareState Served)} {s : FirmwareState} (hrun : Run SwapStep .new h s)
    (hund : ∀ h₁ e h₂, h = h₁ ++ e :: h₂ → Undisturbed (swapOf h₁) e) : (swapOf h).Tracks s := by
  refine Run.invariant (I := fun h s => (swapOf h).Tracks s)
    (Run.PrefixClosed.forall_split fun h₁ e => Undisturbed (swapOf h₁) e)
    Swap.Tracks.new ?_ hrun hund
  intro h s a s' _ hund hs hstep
  rw [swapOf, List.foldl_append]
  exact hs.step hstep (hund h _ [] rfl)

omit [Crypto] [Minicbor] [UrScanner] [Curve] [MinicborCodec] in
/-- Proofs of one keyset in a group under the id of the first. -/
theorem one_group [Crypto] {token : TokenV4} {ps : List Token.Proof} (hkeyset : token.OneKeyset)
    (hplaces : ps.map (fun p => (p.keysetId, p.amount)) = token.places) :
    ∀ g ∈ [(⟨(ps.head?.map Token.Proof.keysetId).getD "00", ps⟩ : TokenV4Token)],
      ∀ p ∈ g.proofs, p.keysetId = g.keysetId := by
  have hid : ∀ p ∈ ps, token.firstKeysetId = some p.keysetId := by
    intro p hp
    have hmem : (p.keysetId, p.amount) ∈ token.places := hplaces ▸ List.mem_map_of_mem hp
    obtain ⟨q, hq, heq⟩ := List.mem_map.1 hmem
    rw [hkeyset q hq, (Prod.mk.inj heq).1]
  intro g hg p hp
  obtain rfl := List.mem_singleton.1 hg
  rcases ps with - | ⟨p₀, ps⟩
  · cases hp
  · have hfirst := hid p₀ (List.mem_cons_self ..)
    rw [hid p hp, Option.some.injEq] at hfirst
    exact hfirst

/-- In every run, a command that is refused leaves the new proofs and the state of the swap as they are, and what is handed
out verifies under the pinned key. In a run without disturbance it is also what was swapped: it has the mint and the unit
of the token whose proofs were blinded and signed, and the keyset id and the amount of each of them in its place. -/
theorem session_consistent [LawfulCurve] {h : List (Step FirmwareState Served)} {s : FirmwareState}
    (hrun : Run SwapStep .new h s) :
    (∀ e ∈ h, e.act.response.status ≠ .ok →
      e.post.newProofs = e.pre.newProofs ∧ e.post.swapState = e.pre.swapState) ∧
    (∀ e ∈ h, e.act.command = .getProofs → e.act.response.status = .ok →
      ∃ exported, buildExportToken e.pre = some exported ∧ encodeToken exported = some e.act.response.payload ∧
        ∀ p ∈ exported.proofs, p.Verifies) ∧
    ((∀ h₁ e h₂, h = h₁ ++ e :: h₂ → Undisturbed (swapOf h₁) e) →
      ∀ h₁ e h₂, h = h₁ ++ e :: h₂ → e.act.command = .getProofs → e.act.response.status = .ok →
        ∃ imported exported, (swapOf h₁).signedFor = some imported ∧ buildExportToken e.pre = some exported ∧
          encodeToken exported = some e.act.response.payload ∧ exported.SwappedFor imported) := by
  refine ⟨fun e he hstatus => (hrun.step_of_mem he).refused hstatus, fun e he hcommand hok => ?_,
    fun hund h₁ e h₂ heq hcommand hok => ?_⟩
  · obtain ⟨h₁, h₂, -, hrun₁⟩ := hrun.before_of_mem he
    obtain ⟨exported, hexport, hencoded⟩ := (hrun.step_of_mem he).exported hcommand hok
    obtain ⟨ps, token, hps, -, -, -, hgroups⟩ := buildExportToken_eq_some hexport
    refine ⟨exported, hexport, hencoded, fun p hp => ?_⟩
    have hp : p ∈ ps := by simpa [TokenV4.proofs, hgroups] using hp
    exact (sound_of_run hrun₁).proofs ps hps p hp
  · rw [heq] at hrun
    obtain ⟨hrun₁, hstep⟩ := hrun.split
    obtain ⟨exported, hexport, hencoded⟩ := hstep.exported hcommand hok
    obtain ⟨ps, token, hps, htoken, hmint, hunit, hgroups⟩ := buildExportToken_eq_some hexport
    have htracks := swapOf_tracks hrun₁ fun h₁' e' h₂' heq' => hund h₁' e' (h₂' ++ e :: h₂) (by rw [heq, heq']; simp)
    obtain ⟨imported, hfor, hkeyset, hplaces⟩ := htracks.signed ps hps
    have hstill : e.pre.importedToken = (swapOf h₁).signedFor := by
      have := hund h₁ e h₂ heq
      simpa only [Undisturbed, hcommand] using this
    rw [htoken, hfor, Option.some.injEq] at hstill
    subst hstill
    refine ⟨token, exported, hfor, hexport, hencoded, hmint, hunit, ?_, ?_⟩
    · rw [← hplaces, TokenV4.places, TokenV4.proofs, hgroups]
      simp
    · rw [hgroups]
      exact one_group hkeyset hplaces

end

section toy
open Toy32 ToyCbor ToyUr
open Toy (bytes32 bytes33)

namespace ToySession

/-- The residues again; every point is a key. -/
scoped instance curve : @Curve Toy32.crypto :=
  @Curve.mk Toy32.crypto UInt8 UInt8 1 (fun p q => p + q) (fun p q => p - q) (fun p k => p * k) id some id id fun p => [4, p]

scoped instance lawful : LawfulCurve where
  toPoint_fromAffine _ _ h := (Option.some.inj h).symm
  fromAffine_toPoint _ := rfl
  sub_add_cancel p q := UInt8.sub_add_cancel p q

def body (mint : String) : List UInt8 := (encodeToken (pair mint)).getD []

/-- The coins are blinded with the scalars 1 and 2. -/
def blind : SwapCommand := .getBlinded fun i => bytes32 (UInt8.ofNat (i + 1))

/-- The mint's signatures on the blinded coins. -/
def sign : SwapCommand :=
  .sendSignatures (bytes33 0 ++ bytes32 108 ++ bytes32 1 ++ (bytes33 0 ++ bytes32 30 ++ bytes32 1))

def outputs : Protocol.Response := ⟨.ok, bytes33 202 ++ bytes33 60, by decide⟩

@[irreducible] def after (s : FirmwareState) (command : SwapCommand) : FirmwareState := (command.handle.run () s).2

theorem step_after {s : FirmwareState} {command : SwapCommand} {response : Protocol.Response}
    (h : (command.handle.run () s).1 = .ok response) : SwapStep s ⟨command, response⟩ (after s command) := by
  rw [after]
  exact .inl (Prod.ext h rfl)

def imported : FirmwareState := after .new (.importToken (body "m"))

def ready : FirmwareState := after (after imported blind) sign

theorem imported_token : imported.importedToken = some (pair "m") := by decide +kernel

/-- Another mint's token is imported before the proofs are fetched. -/
def reimported : FirmwareState := after ready (.importToken (body "n"))

def fetched (s : FirmwareState) : Protocol.Response :=
  (Protocol.Response.withPayload .ok (((buildExportToken s).bind encodeToken).getD [])).getD (.new .error)

/-- Every command is answered as below. -/
theorem answers :
    ((SwapCommand.importToken (body "m")).handle.run () .new).1 = .ok (.new .ok) ∧
    (blind.handle.run () imported).1 = .ok outputs ∧
    (sign.handle.run () (after imported blind)).1 = .ok (.new .ok) ∧
    ((SwapCommand.importToken (body "n")).handle.run () ready).1 = .ok (.new .ok) ∧
    (SwapCommand.getProofs.handle.run () ready).1 = .ok (fetched ready) ∧
    (SwapCommand.getProofs.handle.run () reimported).1 = .ok (fetched reimported) := by
  decide +kernel

theorem step_import : SwapStep .new ⟨.importToken (body "m"), .new .ok⟩ imported := step_after answers.1

theorem step_blind : SwapStep imported ⟨blind, outputs⟩ (after imported blind) :=
  step_after answers.2.1

theorem step_sign : SwapStep (after imported blind) ⟨sign, .new .ok⟩ ready := step_after answers.2.2.1

theorem step_reimport : SwapStep ready ⟨.importToken (body "n"), .new .ok⟩ reimported := step_after answers.2.2.2.1

theorem step_fetch : SwapStep ready ⟨.getProofs, fetched ready⟩ (after ready .getProofs) := step_after answers.2.2.2.2.1

theorem step_fetch' : SwapStep reimported ⟨.getProofs, fetched reimported⟩ (after reimported .getProofs) :=
  step_after answers.2.2.2.2.2

/-- The token is imported, blinded and signed for. -/
def swapping : List (Step FirmwareState Served) :=
  [⟨.new, ⟨.importToken (body "m"), .new .ok⟩, imported⟩, ⟨imported, ⟨blind, outputs⟩, after imported blind⟩,
    ⟨after imported blind, ⟨sign, .new .ok⟩, ready⟩]

theorem swapping_run : Run SwapStep .new swapping ready :=
  ((Run.nil.snoc step_import).snoc step_blind).snoc step_sign

theorem swapping_signedFor : (swapOf swapping).signedFor = some (pair "m") := by
  simp [swapOf, swapping, Swap.after, blind, sign, outputs, Protocol.Response.new, imported_token]

theorem swapping_undisturbed : ∀ h₁ e h₂, swapping = h₁ ++ e :: h₂ → Undisturbed (swapOf h₁) e := by
  refine Run.forall_split_snoc (h := [_, _]) (Run.forall_split_snoc (h := [_]) (Run.forall_split_snoc (h := []) ?_ ?_) ?_) ?_
  · simp
  · trivial
  · intro token htoken
    rw [imported_token, Option.some.injEq] at htoken
    subst htoken
    have hproofs : (pair "m").proofs = [coin, coin'] := rfl
    have hblind : (blindProof (bytes32 1) coin).isSome = true ∧ (blindProof (bytes32 2) coin').isSome = true := by
      decide +kernel
    refine ⟨?_, ?_⟩
    · intro p hp
      rw [hproofs] at hp
      rcases List.mem_pair.1 hp with rfl | rfl
      · rfl
      · rfl
    · intro i p hp
      rw [hproofs] at hp
      rcases i with - | - | i
      · cases hp
        exact Option.isSome_iff_ne_none.1 hblind.1
      · cases hp
        exact Option.isSome_iff_ne_none.1 hblind.2
      · cases hp
  · show (after imported blind).importedToken = imported.importedToken
    decide +kernel

end ToySession

open ToySession

theorem session_consistent_toy : ∃ exported, buildExportToken ready = some exported ∧
    encodeToken exported = some (fetched ready).payload ∧ exported.SwappedFor (pair "m") := by
  have hrun := swapping_run.snoc step_fetch
  have hund : ∀ h₁ e h₂, swapping ++ [⟨ready, ⟨.getProofs, fetched ready⟩, after ready .getProofs⟩] = h₁ ++ e :: h₂ →
      Undisturbed (swapOf h₁) e := by
    refine Run.forall_split_snoc swapping_undisturbed ?_
    show ready.importedToken = (swapOf swapping).signedFor
    rw [swapping_signedFor]
    decide +kernel
  obtain ⟨imported, exported, hfor, hexport, hencoded, hswapped⟩ :=
    (session_consistent hrun).2.2 hund swapping _ [] rfl rfl (by decide +kernel)
  rw [swapping_signedFor, Option.some.injEq] at hfor
  subst hfor
  exact ⟨exported, hexport, hencoded, hswapped⟩

/-- The proofs of one mint's token are handed out as those of the mint imported last. -/
theorem session_mixes_tokens : ∃ h e s imported exported, Run SwapStep .new (h ++ [e]) s ∧ e.act.command = .getProofs ∧
    e.act.response.status = .ok ∧ (swapOf h).signedFor = some imported ∧ buildExportToken e.pre = some exported ∧
    encodeToken exported = some e.act.response.payload ∧ exported.mint ≠ imported.mint := by
  have hexport : (buildExportToken reimported).map TokenV4.mint = some "n" := by decide +kernel
  obtain ⟨exported, hexport, hmint⟩ := Option.map_eq_some_iff.1 hexport
  refine ⟨swapping ++ [⟨ready, ⟨.importToken (body "n"), .new .ok⟩, reimported⟩],
    ⟨reimported, ⟨.getProofs, fetched reimported⟩, after reimported .getProofs⟩, _, pair "m", exported,
    (swapping_run.snoc step_reimport).snoc step_fetch', rfl, by decide +kernel, ?_, hexport, ?_, ?_⟩
  · rw [swapOf, List.foldl_append]
    exact swapping_signedFor
  · obtain ⟨exported', hexport', hencoded⟩ := step_fetch'.exported rfl (by decide +kernel)
    rw [hexport, Option.some.injEq] at hexport'
    rw [hexport']
    exact hencoded
  · rw [hmint]
    decide

end toy

end Micronuts
