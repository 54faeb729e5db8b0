import Micronuts.Terminal.Tollgate

/-!
# The terminal that pays for its network (`micronuts-esp32-wallet`: `bin/tollgate_atom.rs`)

Rounds of one loop: a network is looked for, joined and asked for its offer, then paid and watched until the next payment is
due. What is paid is always an offer that was checked in full, of the wallet's own mint or of none that it names, behind a
gate that was seen closed (`rounds_pay_offers`). The program makes its engine and never connects it, so it pays for nothing
(`boot_never_pays`).
-/

namespace Micronuts
open Exec Text

section
variable [Crypto]

/-- `WalletEngine::new` over a store that loads. -/
def WalletEngine.new (mintUrl : String) (seed : List UInt8) (blob : Option Envelope) (history : List HistoryEntry) :
    WalletEngine where
  mintUrl := trimSlashes mintUrl
  seed := seed
  keysetId := ""
  keys := ⟨"", "sat", []⟩
  feePpk := 0
  unit := "sat"
  world := ⟨.new blob seed, blob, []⟩
  history := history
  pending := []
  calls := 0
  reconciles := []

end

namespace Tollgate

inductive Phase
  | scan
  | join (ssid : String)
  | validate
  | pay
  | monitor
deriving DecidableEq

structure AccessPoint where
  ssid : String
  signalStrength : Int
  isOpen : Bool

section
variable [Crypto]

/-- What a round meets beside the client: a line of the serial port or none in time, the networks in reach, a join. -/
structure RoundEnv where
  client : Env
  serial : Except String (Option String)
  networks : Except String (List AccessPoint)
  connect : String → Except String Unit
  isConnected : Bool

structure Atom where
  client : Client
  phase : Phase
  sinceScanMs : UInt64
  sinceUsageMs : UInt64
  priceSats : UInt64

/-- An error ends the program. -/
abbrev AtomM := Exec RoundEnv Atom String

def ledTickMs : UInt64 := 25

def scanPeriodMs : UInt64 := 30000

def usagePollMs : UInt64 := 5000

def renewThresholdPct : UInt64 := 20

def lowBalanceRenewals : UInt64 := 2

/-- An error is the caller's to look at. -/
def caught {ε ε' α : Type} : Outcome ε α → Outcome ε' (Except ε α)
  | .ok x => .ok (.ok x)
  | .err e => .ok (.error e)
  | .panic => .panic

/-- A method of the client, whatever it returns. -/
def onClient {α : Type} (m : ClientM α) : AtomM (Except TollgateError α) := fun env a =>
  let r := m.run env.client a.client
  (caught r.1, { a with client := r.2 })

/-- A method of the wallet, whatever it returns. -/
def onEngine {α : Type} (m : EngineM α) : AtomM (Except CashuError α) := fun env a =>
  let r := m.run (env.client.engine a.client.asked) a.client.engine
  (caught r.1, { a with client := { a.client with engine := r.2, asked := a.client.asked + 1 } })

def enter (phase : Phase) : AtomM Unit := modify fun a => { a with phase }

/-- The strongest of the open networks with such a name. -/
def scanFindOpen (aps : List AccessPoint) (start : String) : Option AccessPoint :=
  (aps.mergeSort fun a b => b.signalStrength ≤ a.signalStrength).find? fun ap =>
    decide (start.toList <+: ap.ssid.toList) && ap.isOpen

def scanRound : AtomM Unit := fun env a =>
  let a := { a with sinceScanMs := a.sinceScanMs + ledTickMs }
  if scanPeriodMs ≤ a.sinceScanMs then
    let a := { a with sinceScanMs := 0 }
    match env.networks with
    | .error e => (.err e, a)
    | .ok aps =>
      match scanFindOpen aps "TollGate-" with
      | some ap => (.ok (), { a with phase := .join ap.ssid })
      | none => (.ok (), a)
  else (.ok (), a)

def joinRound (ssid : String) : AtomM Unit := fun env a =>
  match env.connect ssid with
  | .ok _ => (.ok (), { a with phase := .validate })
  | .error _ => (.ok (), { a with phase := .scan })

variable [TokenCrates] [Curve] [Minicbor] [MinicborCodec] [RustTexts] [Bip340] [IdentityCrates]

/-- The wallet's command on the serial line. -/
def serve : AtomM Unit := fun env a =>
  match env.serial with
  | .error e => (.err e, a)
  | .ok none => (.ok (), a)
  | .ok (some line) =>
    if "token ".toList <+: line.toList ∨ "receive ".toList <+: line.toList then
      (do
        match ← onEngine (WalletEngine.receiveTokenWith
          (((Payload.splitOnce ' ' line.toList).map fun (p : List Char × List Char) => trim (String.ofList p.2)).getD "")
            none) with
        | .ok _ => discard (onEngine WalletEngine.balance)
        | .error _ => pure ()).run env a
    else if line = "balance" then (discard (onEngine WalletEngine.balance)).run env a
    else (.ok (), a)

omit [Curve] [Minicbor] [MinicborCodec] [Bip340] [IdentityCrates] in
/-- An offer of a mint that is not the wallet's is none to pay. -/
def accept (mint : String) (ad : Discovery) : AtomM Unit :=
  if ad.mintUrl.any (· ≠ mint) then enter .scan
  else do
    modify fun a => { a with priceSats := ad.priceSats.getD 0 }
    match ← onClient usage with
    | .ok (some (remaining, _)) => if 0 < remaining then enter .monitor else enter .pay
    | .ok none | .error _ => enter .pay

def validateRound (mint : String) : AtomM Unit := do
  match ← onClient discover with
  | .error _ => enter .scan
  | .ok _ =>
    match ← onClient adValid with
    | .ok ad => accept mint ad
    | .error _ => enter .scan

/-- Arithmetic that a build may check. -/
def mulU64 (a b : UInt64) : AtomM UInt64 := do
  match ← onEngine (WalletEngine.mulU64 a b) with
  | .ok product => pure product
  | .error _ => panic

def balanceOf : AtomM UInt64 := do
  match ← onEngine WalletEngine.balance with
  | .ok total => pure total
  | .error _ => panic

def payRound : AtomM Unit := do
  let balance ← balanceOf
  let a ← get
  let renewals ← mulU64 a.priceSats lowBalanceRenewals
  if balance < renewals then pure ()
  else
    match ← onClient (pay (some a.priceSats)) with
    | .ok _ => do
      discard (onClient usage)
      enter .monitor
    | .error _ => enter .scan

/-- Below a fifth of what was bought the next payment is due. -/
def poll : AtomM Unit := do
  match ← onClient usage with
  | .ok (some (remaining, total)) => do
    let scaled ← mulU64 total renewThresholdPct
    if remaining ≤ scaled / 100 then enter .pay else pure ()
  | .ok none | .error _ => pure ()

def monitorRound : AtomM Unit := fun env a =>
  if env.isConnected then
    let a := { a with sinceUsageMs := a.sinceUsageMs + ledTickMs }
    if usagePollMs ≤ a.sinceUsageMs then poll.run env { a with sinceUsageMs := 0 } else (.ok (), a)
  else (.ok (), { a with phase := .scan })

/-- One round of the loop. -/
def round (mint : String) : AtomM Unit := do
  serve
  let a ← get
  match a.phase with
  | .scan => scanRound
  | .join ssid => joinRound ssid
  | .validate => validateRound mint
  | .pay => payRound
  | .monitor => monitorRound

/-- A round, however it ends. -/
def RoundStep (mint : String) (a : Atom) (env : RoundEnv) (a' : Atom) : Prop := ∃ o, (round mint).run env a = (o, a')

omit [TokenCrates] [Curve] [Minicbor] [MinicborCodec] [RustTexts] [Bip340] [IdentityCrates] in
/-- Before the first round. -/
def Atom.boot (engine : WalletEngine) : Atom where
  client := ⟨none, "idle", engine, [], 0⟩
  phase := .scan
  sinceScanMs := scanPeriodMs
  sinceUsageMs := 0
  priceSats := 0

/-! ### What a call on the client or on the engine does to the rest -/

section calls
omit [TokenCrates] [Curve] [Minicbor] [MinicborCodec] [RustTexts] [Bip340] [IdentityCrates]
variable {α β τ : Type} {env : RoundEnv} {a : Atom}

theorem onClient_leaves {view : Atom → τ} {m : ClientM α}
    (h : ∀ env a, view { a with client := (m.run env a.client).2 } = view a) :
    Leaves view (onClient m) := fun env a => h env.client a

theorem onEngine_leaves {view : Atom → τ} {m : EngineM α}
    (h : ∀ env a asked, view { a with client := { a.client with engine := (m.run env a.client.engine).2, asked } } = view a) :
    Leaves view (onEngine m) := fun _ a => h _ a _

theorem discard_leaves {view : Atom → τ} {m : AtomM α} (h : Leaves view m) : Leaves view (discard m) :=
  h.bind fun _ => .pure _

theorem bind_onClient {m : ClientM α} {k : Except TollgateError α → AtomM β} {P : Outcome TollgateError α → Client → Prop}
    {Q : Outcome String β → Atom → Prop} (h : m.Ends env.client a.client P)
    (hok : ∀ x c, P (.ok x) c → (k (.ok x)).Ends env { a with client := c } Q)
    (herr : ∀ e c, P (.err e) c → (k (.error e)).Ends env { a with client := c } Q)
    (hpanic : ∀ c, P .panic c → Q .panic { a with client := c }) : (onClient m >>= k).Ends env a Q := by
  rcases hrun : m.run env.client a.client with ⟨o, c⟩
  have hP := h.elim hrun
  have honClient : (onClient m).run env a = (caught o, { a with client := c }) := by
    show (caught (m.run env.client a.client).1, ({ a with client := (m.run env.client a.client).2 } : Atom)) = _
    rw [hrun]
  cases o with
  | ok x => exact Ends.bind_run honClient (hok x c hP)
  | err e => exact Ends.bind_run honClient (herr e c hP)
  | panic => exact Ends.of_run (run_bind_of_panic honClient) (hpanic c hP)

/-- The count of the questions is not looked at. -/
class Uncounted {τ : Type} (view : Atom → τ) : Prop where
  asked : ∀ a asked, view { a with client := { a.client with asked } } = view a

/-- What the engine has open, and what was posted. -/
def Atom.ledger (a : Atom) : List PendingSend × List HttpRequest := (a.client.engine.pending, a.client.posts)

/-- What is to be paid. -/
def Atom.target (a : Atom) : Phase × Option Discovery × UInt64 := (a.phase, a.client.discovery, a.priceSats)

/-- What the wallet has, and what was posted. -/
def Atom.account (a : Atom) : WalletEngine × List HttpRequest := a.client.account

instance : Uncounted Atom.ledger := ⟨fun _ _ => rfl⟩

instance : Uncounted Atom.target := ⟨fun _ _ => rfl⟩

instance : Uncounted (fun a : Atom => (a.target, a.ledger)) := ⟨fun _ _ => rfl⟩

instance : Uncounted Atom.account := ⟨fun _ _ => rfl⟩

variable {view : Atom → τ} [Uncounted view]

theorem balance_leaves : Leaves view (onEngine WalletEngine.balance) := by
  refine onEngine_leaves fun env a asked => ?_
  have hsame : (WalletEngine.balance.run env a.client.engine).2 = a.client.engine :=
    (WalletEngine.balance_computes env a.client.engine).1
  rw [hsame]
  exact Uncounted.asked a asked

theorem balanceOf_leaves : Leaves view balanceOf := by
  refine balance_leaves.bind fun total => ?_
  cases total with
  | ok => exact .pure _
  | error => exact fun _ _ => rfl

theorem mulU64_leaves (x y : UInt64) : Leaves view (mulU64 x y) := by
  have hmul : Leaves view (onEngine (WalletEngine.mulU64 x y)) := by
    refine onEngine_leaves fun env a asked => ?_
    have hsame : ((WalletEngine.mulU64 x y).run env a.client.engine).2 = a.client.engine :=
      (WalletEngine.mulU64_computes x y env a.client.engine).1
    rw [hsame]
    exact Uncounted.asked a asked
  refine hmul.bind fun product => ?_
  cases product with
  | ok => exact .pure _
  | error => exact fun _ _ => rfl

end calls

/-! ### The offer -/

/-- An offer that can be paid. -/
structure Payable (d : Discovery) (price : UInt64) : Prop where
  kind : d.kind = 10021
  priced : d.priceSats = some price
  positive : 1 ≤ price
  unit : ∀ unit, d.priceUnit = some unit → unit = "sat"

/-- An offer that is taken: what the mint of the wallet signed is good there. -/
structure Offer (mint : String) (d : Discovery) (price : UInt64) : Prop extends Payable d price where
  mint : ∀ url, d.mintUrl = some url → url = mint

/-- Who pays or watches has an offer. -/
def Offered (mint : String) (a : Atom) : Prop :=
  a.phase = .pay ∨ a.phase = .monitor → ∃ d, a.client.discovery = some d ∧ Offer mint d a.priceSats

section offer
variable {env : RoundEnv} {a : Atom} {mint : String}

omit [TokenCrates] [Curve] [Minicbor] [MinicborCodec] [Bip340] [IdentityCrates] in
theorem adValid_ends {env : Env} {c : Client} : adValid.Ends env c fun o t => t = c ∧
    ∀ d, o = .ok d → c.discovery = some d ∧ ∃ price, Payable d price := by
  refine Ends.bind_get (Ends.bind_okOr (fun d hd => ?_) fun _ => ⟨rfl, by simp⟩)
  refine Ends.bind_failIf (fun hkind => Ends.bind_okOr (fun price hprice => ?_) fun _ => ⟨rfl, by simp⟩) fun _ =>
    ⟨rfl, by simp⟩
  refine Ends.bind_failIf (fun hpositive => Ends.bind_failIf (fun hunit => .pure ⟨rfl, ?_⟩) fun _ => ⟨rfl, by simp⟩) fun _ =>
    ⟨rfl, by simp⟩
  rintro _ ⟨⟩
  refine ⟨hd, price, not_not.1 hkind, hprice, UInt64.not_lt.1 hpositive, fun unit hpriced => ?_⟩
  simpa [hpriced] using hunit

omit [TokenCrates] [Curve] [Minicbor] [MinicborCodec] [Bip340] [IdentityCrates] [RustTexts] in
theorem enter_offered (phase : Phase) (h : ∃ d, a.client.discovery = some d ∧ Offer mint d a.priceSats) :
    (enter phase).Ends env a fun _ t => Offered mint t := fun _ => h

omit [TokenCrates] [Curve] [Minicbor] [MinicborCodec] [Bip340] [IdentityCrates] [RustTexts] in
theorem scan_offered : (enter .scan).Ends env a fun _ t => Offered mint t := by
  rintro (h | h)
  · cases h
  · cases h

omit [TokenCrates] [Curve] [Minicbor] [MinicborCodec] [Bip340] [IdentityCrates] in
theorem accept_offered {ad : Discovery} {price : UInt64} (hphase : a.phase = .validate)
    (hfound : a.client.discovery = some ad)
    (hpayable : Payable ad price) : (accept mint ad).Ends env a fun _ t => Offered mint t := by
  rw [accept]
  split_ifs with hforeign
  · exact scan_offered
  · have hmint : ∀ url, ad.mintUrl = some url → url = mint := by
      intro url hurl
      simpa [hurl] using hforeign
    have hoffer : Offer mint ad (ad.priceSats.getD 0) := by
      rw [hpayable.priced]
      exact ⟨hpayable, hmint⟩
    have husage : Leaves Client.discovery usage := usage_leaves
    refine Ends.bind_modify (bind_onClient (husage.ends env.client a.client) (fun x c hc => ?_)
      (fun e c hc => ?_) fun c hc => ?_)
    · have hc : c.discovery = some ad := Eq.trans hc hfound
      cases x with
      | none => exact enter_offered .pay ⟨ad, hc, hoffer⟩
      | some allotment =>
        obtain ⟨remaining, total⟩ := allotment
        show (if 0 < remaining then enter .monitor else enter .pay : AtomM Unit).Ends _ _ _
        split_ifs
        · exact enter_offered .monitor ⟨ad, hc, hoffer⟩
        · exact enter_offered .pay ⟨ad, hc, hoffer⟩
    · exact enter_offered .pay ⟨ad, Eq.trans hc hfound, hoffer⟩
    · intro hdue
      rw [show a.phase = .validate from hphase] at hdue
      simp at hdue

omit [Curve] [Minicbor] [MinicborCodec] [Bip340] [IdentityCrates] in
theorem validateRound_offered (hphase : a.phase = .validate) : (validateRound mint).Ends env a fun _ t => Offered mint t := by
  have hnone : ∀ c, Offered mint { a with client := c } := by
    intro c hdue
    rw [show a.phase = .validate from hphase] at hdue
    simp at hdue
  refine bind_onClient (P := fun _ _ => True) trivial (fun d c _ => ?_) (fun e c _ => scan_offered) fun c _ => hnone c
  refine bind_onClient adValid_ends ?_ (fun e c' _ => scan_offered) fun c' _ => hnone c'
  rintro ad _ ⟨rfl, had⟩
  obtain ⟨hfound, price, hpayable⟩ := had ad rfl
  exact accept_offered hphase hfound hpayable

omit [Bip340] [IdentityCrates] in
/-- However a payment ends, the offer is kept. -/
theorem pay_found {c : Client} {e : Env} {d : Discovery} {amount : Option UInt64} (hd : c.discovery = some d) :
    (pay amount).Ends e c fun _ t => t.discovery = some d := by
  have hkept : ∀ {α : Type} {m : ClientM α} {t : Client}, Leaves Client.discovery m → t.discovery = some d →
      m.Ends e t fun _ u => u.discovery = some d := by
    intro α m t hm ht
    exact (hm.ends e t).mono fun _ u hu => hu.trans ht
  have hspend : ∀ amount, Leaves Client.discovery (spend amount) := by
    intro amount e c
    simp only [run, spend]
    split <;> rfl
  have hpost : ∀ url token, Leaves Client.discovery (httpExchange (submission url token)) :=
    fun _ _ => httpExchange_leaves fun _ => rfl
  have hpayFor : ∀ amount, Leaves Client.discovery (payFor d amount) := by
    intro amount
    refine (hspend amount).bind fun token => (setState_leaves _).bind fun _ => (hpost _ _).bind fun reply => ?_
    exact (Leaves.failIf _ _).bind fun _ => (setState_leaves _).bind fun _ => (verify_leaves _).bind fun _ =>
      (setState_leaves _).bind fun _ => .pure _
  have hdiscovered : discovered.run e c = (.ok d, c) := by
    rw [discovered, run_bind_of_ok get_run, hd]
    rfl
  refine Ends.bind_run hdiscovered (Ends.bind_keeps (hkept alreadyAuthed_leaves hd) fun authed t ht => ?_)
  cases authed with
  | true => exact hkept ((setState_leaves _).bind fun _ => .pure _) ht
  | false => exact hkept (hpayFor _) ht

omit [Bip340] [IdentityCrates] in
theorem payRound_offered (hoffered : Offered mint a) (hphase : a.phase = .pay) :
    payRound.Ends env a fun _ t => Offered mint t := by
  obtain ⟨d, hd, hoffer⟩ := hoffered (.inl hphase)
  have hstays : ∀ t : Atom, t.target = a.target → Offered mint t := by
    intro t ht _
    obtain ⟨-, ht⟩ := Prod.mk.inj ht
    obtain ⟨hdiscovery, hprice⟩ := Prod.mk.inj ht
    exact ⟨d, hdiscovery.trans hd, hprice ▸ hoffer⟩
  refine balanceOf_leaves.bind_ends (fun balance t ht => Ends.bind_get ?_) (fun _ t ht => hstays t ht) fun t ht => hstays t ht
  refine (mulU64_leaves _ _).bind_ends (fun renewals u hu => ?_) (fun _ u hu => hstays u (hu.trans ht)) fun u hu =>
    hstays u (hu.trans ht)
  have hu : u.target = a.target := hu.trans ht
  split_ifs
  · exact Ends.pure (hstays u hu)
  · obtain ⟨-, hu'⟩ := Prod.mk.inj hu
    obtain ⟨hdiscovery, hprice⟩ := Prod.mk.inj hu'
    have hfound : ∀ c : Client, c.discovery = some d → ∃ d, c.discovery = some d ∧ Offer mint d u.priceSats :=
      fun c hc => ⟨d, hc, hprice ▸ hoffer⟩
    refine bind_onClient (pay_found (hdiscovery.trans hd)) (fun paid c hc => ?_) (fun e c _ => scan_offered) fun c hc _ =>
      hfound c hc
    have hdiscovery' : Leaves Client.discovery usage := usage_leaves
    have husage : Leaves (fun a : Atom => (a.client.discovery, a.priceSats)) (discard (onClient usage)) :=
      discard_leaves (onClient_leaves fun env t => Prod.ext (hdiscovery' env t.client) rfl)
    refine husage.bind_ends (fun _ v hv => ?_) (fun _ v hv _ => ?_) fun v hv _ => ?_
    · obtain ⟨hv, hv'⟩ := Prod.mk.inj hv
      exact enter_offered .monitor ⟨d, hv.trans hc, hv' ▸ hprice ▸ hoffer⟩
    · obtain ⟨hv, hv'⟩ := Prod.mk.inj hv
      exact ⟨d, hv.trans hc, hv' ▸ hprice ▸ hoffer⟩
    · obtain ⟨hv, hv'⟩ := Prod.mk.inj hv
      exact ⟨d, hv.trans hc, hv' ▸ hprice ▸ hoffer⟩

omit [TokenCrates] [Curve] [Minicbor] [MinicborCodec] [Bip340] [IdentityCrates] [RustTexts] in
theorem scanRound_offered (hphase : a.phase = .scan) : scanRound.Ends env a fun _ t => Offered mint t := by
  have hnone : ∀ t : Atom, t.phase = .scan ∨ (∃ ssid, t.phase = .join ssid) → Offered mint t := by
    rintro t (ht | ⟨ssid, ht⟩) hdue
    · simp [ht] at hdue
    · simp [ht] at hdue
  unfold Ends
  simp only [run, scanRound]
  split_ifs
  · cases env.networks with
    | error e => exact hnone _ (.inl hphase)
    | ok aps =>
      simp only
      cases scanFindOpen aps "TollGate-" with
      | none => exact hnone _ (.inl hphase)
      | some ap => exact hnone _ (.inr ⟨_, rfl⟩)
  · exact hnone _ (.inl hphase)

omit [TokenCrates] [Curve] [Minicbor] [MinicborCodec] [Bip340] [IdentityCrates] [RustTexts] in
theorem joinRound_offered (ssid : String) : (joinRound ssid).Ends env a fun _ t => Offered mint t := by
  unfold Ends
  simp only [run, joinRound]
  cases env.connect ssid with
  | ok => rintro (h | h) <;> cases h
  | error => rintro (h | h) <;> cases h

omit [TokenCrates] [Curve] [Minicbor] [MinicborCodec] [Bip340] [IdentityCrates] in
theorem poll_offered (hoffered : Offered mint a) (hphase : a.phase = .monitor) :
    poll.Ends env a fun _ t => Offered mint t := by
  obtain ⟨d, hd, hoffer⟩ := hoffered (.inr hphase)
  have husage : Leaves Client.discovery usage := usage_leaves
  have hstays : ∀ t : Atom, t.target = a.target → ∃ d, t.client.discovery = some d ∧ Offer mint d t.priceSats := by
    intro t ht
    obtain ⟨-, ht⟩ := Prod.mk.inj ht
    obtain ⟨hdiscovery, hprice⟩ := Prod.mk.inj ht
    exact ⟨d, hdiscovery.trans hd, hprice ▸ hoffer⟩
  have hasked : ∀ c : Client, c.discovery = a.client.discovery → Atom.target { a with client := c } = a.target :=
    fun c hc => Prod.ext rfl (Prod.ext hc rfl)
  refine bind_onClient (husage.ends env.client a.client) (fun x c hc => ?_) (fun e c hc => ?_) fun c hc => ?_
  · cases x with
    | none => exact Ends.pure fun _ => hstays _ (hasked c hc)
    | some allotment =>
      refine (mulU64_leaves allotment.2 renewThresholdPct).bind_ends (fun scaled t ht => ?_)
        (fun _ t ht _ => hstays t (ht.trans (hasked c hc)))
        fun t ht _ => hstays t (ht.trans (hasked c hc))
      split_ifs
      · exact enter_offered .pay (hstays t (ht.trans (hasked c hc)))
      · exact Ends.pure fun _ => hstays t (ht.trans (hasked c hc))
  · exact Ends.pure fun _ => hstays _ (hasked c hc)
  · exact fun _ => hstays _ (hasked c hc)

omit [TokenCrates] [Curve] [Minicbor] [MinicborCodec] [Bip340] [IdentityCrates] in
theorem monitorRound_offered (hoffered : Offered mint a) (hphase : a.phase = .monitor) :
    monitorRound.Ends env a fun _ t => Offered mint t := by
  unfold Ends
  simp only [run, monitorRound]
  split_ifs
  · exact poll_offered (a := { a with sinceUsageMs := 0 }) hoffered hphase
  · exact hoffered
  · rintro (h | h) <;> cases h

end offer

/-! ### A round -/

section rounds
variable {env : RoundEnv} {a : Atom} {mint : String}

omit [Minicbor] [MinicborCodec] [RustTexts] in
theorem receiveTokenWith_leaves [Minicbor] {τ : Type} {view : WalletEngine → τ} [WalletEngine.Steady view]
    (hrecord : ∀ kind amount detail, Leaves view (WalletEngine.record kind amount detail)) (token : String)
    (preimage : Option String) :
    Leaves view (WalletEngine.receiveTokenWith token preimage) := by
  refine WalletEngine.ensureConnected_leaves.bind fun _ => (WalletEngine.decodedToken_leaves _).bind fun token => ?_
  refine Leaves.get.bind fun e => (Leaves.failIf _ _).bind fun _ => (Leaves.lift _).bind fun identity => ?_
  refine WalletEngine.clock_computes.leaves.bind fun now => (WalletEngine.receiveGroups_leaves _ _ _).bind fun total => ?_
  exact (hrecord _ _ _).bind fun _ => .pure _

omit [MinicborCodec] [RustTexts] in
theorem serve_keeps {R : Atom → Prop} (hasked : ∀ t asked, R t → R { t with client := { t.client with asked } })
    (hreceive : ∀ token t, R t → (onEngine (WalletEngine.receiveTokenWith token none)).Ends env t fun _ u => R u) (ha : R a) :
    serve.Ends env a fun _ t => R t := by
  have hbalance : ∀ t, R t → (discard (onEngine WalletEngine.balance)).Ends env t fun _ u => R u := by
    intro t ht
    refine Ends.bind_keeps ?_ fun _ u hu => Ends.pure hu
    have hsame : (WalletEngine.balance.run (env.client.engine t.client.asked) t.client.engine).2 = t.client.engine :=
      (WalletEngine.balance_computes _ _).1
    show R { t with client := { t.client with engine := _, asked := t.client.asked + 1 } }
    rw [hsame]
    exact hasked t _ ht
  unfold Ends
  simp only [run, serve]
  rcases env.serial with e | - | line
  · exact ha
  · exact ha
  · simp only
    split_ifs
    · refine Ends.bind_keeps (hreceive _ a ha) fun received u hu => ?_
      cases received with
      | ok total => exact hbalance u hu
      | error e => exact Ends.pure hu
    · exact hbalance a ha
    · exact ha

omit [MinicborCodec] [RustTexts] in
theorem serve_leaves {τ : Type} {view : Atom → τ} [Uncounted view]
    (hreceive : ∀ token, Leaves view (onEngine (WalletEngine.receiveTokenWith token none))) : Leaves view serve := by
  intro env a
  refine serve_keeps (R := fun t => view t = view a) (fun t asked ht => ?_) (fun token t ht => ?_) rfl
  · exact (Uncounted.asked t asked).trans ht
  · exact ((hreceive token).ends env t).mono fun _ u hu => hu.trans ht

omit [MinicborCodec] [RustTexts] in
theorem serve_target : Leaves Atom.target serve := serve_leaves fun _ => onEngine_leaves fun _ _ _ => rfl

instance : WalletEngine.Steady WalletEngine.pending := ⟨fun _ _ => rfl, fun _ _ => rfl⟩

omit [MinicborCodec] [RustTexts] in
theorem serve_ledger : Leaves Atom.ledger serve := by
  refine serve_leaves fun token => onEngine_leaves fun env a asked => ?_
  have hpending : Leaves WalletEngine.pending (WalletEngine.receiveTokenWith token none) :=
    receiveTokenWith_leaves (fun _ _ _ _ _ => rfl) token none
  exact Prod.ext (hpending env a.client.engine) rfl

theorem round_offered (hoffered : Offered mint a) : (round mint).Ends env a fun _ t => Offered mint t := by
  have hstays : ∀ t : Atom, t.target = a.target → Offered mint t := by
    intro t ht hdue
    obtain ⟨hphase, ht⟩ := Prod.mk.inj ht
    obtain ⟨hdiscovery, hprice⟩ := Prod.mk.inj ht
    obtain ⟨d, hd, hoffer⟩ := hoffered (hphase ▸ hdue)
    exact ⟨d, hdiscovery.trans hd, hprice ▸ hoffer⟩
  refine serve_target.bind_ends (fun _ t ht => Ends.bind_get ?_) (fun _ t ht => hstays t ht) fun t ht => hstays t ht
  cases hphase : t.phase with
  | scan => exact scanRound_offered hphase
  | join ssid => exact joinRound_offered ssid
  | validate => exact validateRound_offered hphase
  | pay => exact payRound_offered (hstays t ht) hphase
  | monitor => exact monitorRound_offered (hstays t ht) hphase

/-! ### A payment -/

/-- One token of the price, posted to the backend of the offer behind a closed gate, and one record for it. -/
structure Payment (env : RoundEnv) (a t : Atom) (d : Discovery) (r : PendingSend) : Prop where
  due : a.phase = .pay
  found : ∀ d', a.client.discovery = some d' → d' = d
  closed : ∃ status location, Probed env.client d.gateway (.gated status location)
  amount : r.amount = a.priceSats
  ledger : t.ledger = (a.client.engine.pending ++ [r], submission d.backendUrl r.token :: a.client.posts)

/-- A round leaves the ledger or pays. -/
def Settles (env : RoundEnv) (a t : Atom) : Prop := t.ledger = a.ledger ∨ ∃ d r, Payment env a t d r

section frames
omit [TokenCrates] [Curve] [Minicbor] [MinicborCodec] [RustTexts] [Bip340] [IdentityCrates]

/-- What came before a payment has left what it looks at. -/
theorem Settles.of_same {t u : Atom} (htarget : t.target = a.target) (hledger : t.ledger = a.ledger) (h : Settles env t u) :
    Settles env a u := by
  obtain ⟨hphase, htarget⟩ := Prod.mk.inj htarget
  obtain ⟨hdiscovery, hprice⟩ := Prod.mk.inj htarget
  obtain ⟨hpending, hposts⟩ := Prod.mk.inj hledger
  rcases h with h | ⟨d, r, hdue, hfound, hclosed, hamount, hpaid⟩
  · exact .inl (h.trans hledger)
  · refine .inr ⟨d, r, hphase ▸ hdue, fun d' hd' => hfound d' (hdiscovery.trans hd'), hclosed, hamount.trans hprice, ?_⟩
    rw [hpaid, hpending, hposts]

theorem Settles.then {t u : Atom} (h : Settles env a t) (hu : u.ledger = t.ledger) : Settles env a u := by
  rcases h with h | ⟨d, r, hdue, hfound, hclosed, hamount, hpaid⟩
  · exact .inl (hu.trans h)
  · exact .inr ⟨d, r, hdue, hfound, hclosed, hamount, hu.trans hpaid⟩

theorem ledger_of_account {α : Type} {m : AtomM α} (h : Leaves Atom.account m) : Leaves Atom.ledger m :=
  fun env a => congrArg (fun v => (v.1.pending, v.2)) (h env a)

theorem enter_account (phase : Phase) : Leaves Atom.account (enter phase) := .modify fun _ => rfl

theorem scanRound_account : Leaves Atom.account scanRound := by
  intro env a
  simp only [run, scanRound]
  split_ifs
  · cases env.networks with
    | error e => rfl
    | ok aps =>
      simp only
      cases scanFindOpen aps "TollGate-" with
      | none => rfl
      | some ap => rfl
  · rfl

theorem joinRound_account (ssid : String) : Leaves Atom.account (joinRound ssid) := by
  intro env a
  simp only [run, joinRound]
  cases env.connect ssid with
  | ok => rfl
  | error => rfl

variable [RustTexts]

theorem usage_account : Leaves Atom.account (onClient usage) := by
  have husage : Leaves Client.account usage := usage_leaves
  exact onClient_leaves fun env a => husage env a.client

theorem monitorRound_account : Leaves Atom.account monitorRound := by
  have hpoll : Leaves Atom.account poll := by
    refine usage_account.bind fun left => ?_
    rcases left with e | - | ⟨remaining, total⟩
    · exact .pure _
    · exact .pure _
    · refine (mulU64_leaves _ _).bind fun scaled => ?_
      split_ifs
      · exact enter_account _
      · exact .pure _
  intro env a
  simp only [run, monitorRound]
  split_ifs
  · exact hpoll env { a with sinceUsageMs := 0 }
  · rfl
  · rfl

theorem validateRound_account [TokenCrates] (mint : String) : Leaves Atom.account (validateRound mint) := by
  have hdiscover : Leaves Atom.account (onClient discover) := 
    onClient_leaves fun env a => discover_leaves env a.client
  have hvalid : Leaves Atom.account (onClient adValid) := by
    refine onClient_leaves fun env a => ?_
    have hvalid : adValid.Ends env a.client _ := adValid_ends
    rw [hvalid.1]
  refine hdiscover.bind fun found => ?_
  cases found with
  | error e => exact enter_account _
  | ok d =>
    refine hvalid.bind fun valid => ?_
    cases valid with
    | error e => exact enter_account _
    | ok ad =>
      simp only [accept]
      split_ifs
      · exact enter_account _
      · have hprice : Leaves Atom.account (modify fun a => { a with priceSats := ad.priceSats.getD 0 } : AtomM Unit) :=
          .modify fun _ => rfl
        refine hprice.bind fun _ => usage_account.bind fun left => ?_
        rcases left with e | - | ⟨remaining, total⟩
        · exact enter_account _
        · exact enter_account _
        · simp only
          split_ifs
          · exact enter_account _
          · exact enter_account _

end frames

omit [TokenCrates] [Bip340] [IdentityCrates] [RustTexts] in
/-- Without a token there is no record. -/
theorem sendToken_unsent {e : EngineEnv} {w : WalletEngine} {amount : UInt64} {memo : Option String} [TokenCrates] :
    (WalletEngine.sendToken amount memo).Ends e w fun o t => (∀ token, o ≠ .ok token) → t.pending = w.pending := by
  have hcompose : Leaves WalletEngine.pending (WalletEngine.composeExact amount) := WalletEngine.composeExact_leaves amount
  refine WalletEngine.ensureConnected_leaves.bind_ends (fun _ t ht => ?_) (fun _ t ht _ => ht) fun t ht _ => ht
  refine hcompose.bind_ends (fun proofs u hu => Ends.bind_get (Ends.bind_okOr (fun wire _ => ?_) fun _ _ => hu.trans ht))
    (fun _ u hu _ => hu.trans ht) fun u hu _ => hu.trans ht
  have hremove : Leaves WalletEngine.pending (WalletEngine.callWallet (removeProofs proofs)) :=
    WalletEngine.callWallet_leaves _
  refine hremove.bind_ends (fun _ v hv => ?_) (fun _ v hv _ => hv.trans (hu.trans ht)) fun v hv _ => hv.trans (hu.trans ht)
  exact Ends.bind_run (WalletEngine.recordSend_run ..) (Ends.pure fun h => absurd rfl (h wire))

omit [Bip340] [IdentityCrates] in
theorem pay_settles {c : Client} (hc : c = a.client) (hphase : a.phase = .pay) :
    (pay (some a.priceSats)).Ends env.client c fun _ t =>
    ∀ u : Atom, u.ledger = (t.engine.pending, t.posts) → Settles env a u := by
  subst hc
  refine (pay_ends _).mono fun o t ht u hu => ?_
  cases ht with
  | unasked haccount =>
    obtain ⟨hengine, hposts⟩ := Prod.mk.inj haccount
    exact .inl (hu.trans (Prod.ext (congrArg WalletEngine.pending hengine) hposts))
  | asked s d hbefore hfound hkept hclosed hpays =>
    obtain ⟨hengine, hposts⟩ := Prod.mk.inj hbefore
    cases hpays with
    | unspent n sent hsend hfailed hsame =>
      have hpending : t.engine.pending = s.engine.pending := sendToken_unsent.elim hsend hfailed
      exact .inl (hu.trans (Prod.ext (hpending.trans (congrArg WalletEngine.pending hengine)) (hsame.trans hposts)))
    | spent n token hsend hposted =>
      obtain ⟨proofs, w, hhanded⟩ := WalletEngine.sendToken_handed hsend
      have hpending := hhanded.pending
      rw [hengine] at hpending
      exact .inr ⟨d, _, hphase, hkept, hclosed, rfl, hu.trans (Prod.ext hpending (by rw [hposted, hposts]))⟩

omit [Bip340] [IdentityCrates] in
theorem payRound_settles (hphase : a.phase = .pay) : payRound.Ends env a fun _ t => Settles env a t := by
  have hboth : Leaves (fun a : Atom => (a.target, a.ledger)) balanceOf := balanceOf_leaves
  refine hboth.bind_ends (fun balance t ht => Ends.bind_get ?_) (fun _ t ht => .inl (Prod.mk.inj ht).2) fun t ht =>
    .inl (Prod.mk.inj ht).2
  have hmul : Leaves (fun a : Atom => (a.target, a.ledger)) (mulU64 t.priceSats lowBalanceRenewals) := mulU64_leaves _ _
  refine hmul.bind_ends (fun renewals u hu => ?_) (fun _ u hu => .inl (Prod.mk.inj (hu.trans ht)).2) fun u hu =>
    .inl (Prod.mk.inj (hu.trans ht)).2
  have hprice : t.priceSats = u.priceSats := congrArg (fun v => v.1.2.2) hu.symm
  obtain ⟨htarget, hledger⟩ := Prod.mk.inj (hu.trans ht)
  have hdue : u.phase = .pay := (congrArg Prod.fst htarget).trans hphase
  split_ifs
  · exact Ends.pure (.inl hledger)
  · rw [hprice]
    refine bind_onClient (pay_settles rfl hdue) (fun paid c hc => ?_) (fun e c hc => ?_) fun c hc => ?_
    · have hsettles := (hc { u with client := c } rfl).of_same htarget hledger
      refine (ledger_of_account (discard_leaves usage_account)).bind_ends (fun _ v hv => ?_)
        (fun _ v hv => hsettles.then hv) fun v hv => hsettles.then hv
      exact ((ledger_of_account (enter_account .monitor)).ends env v).mono fun _ w hw => hsettles.then (hw.trans hv)
    · exact ((ledger_of_account (enter_account .scan)).ends env _).mono fun _ w hw =>
        ((hc { u with client := c } rfl).of_same htarget hledger).then hw
    · exact (hc { u with client := c } rfl).of_same htarget hledger

theorem round_settles : (round mint).Ends env a fun _ t => Settles env a t := by
  have hboth : Leaves (fun a : Atom => (a.target, a.ledger)) serve :=
    fun env a => Prod.ext (serve_target env a) (serve_ledger env a)
  refine hboth.bind_ends (fun _ t ht => Ends.bind_get ?_) (fun _ t ht => .inl (Prod.mk.inj ht).2) fun t ht =>
    .inl (Prod.mk.inj ht).2
  obtain ⟨htarget, hledger⟩ := Prod.mk.inj ht
  have hidle : ∀ {m : AtomM Unit}, Leaves Atom.ledger m → m.Ends env t fun _ u => Settles env a u :=
    fun hm => (hm.ends env t).mono fun _ u hu => .inl (hu.trans hledger)
  cases hphase : t.phase with
  | scan => exact hidle (ledger_of_account scanRound_account)
  | join ssid => exact hidle (ledger_of_account (joinRound_account ssid))
  | validate => exact hidle (ledger_of_account (validateRound_account mint))
  | pay => exact (payRound_settles hphase).mono fun _ u hu => hu.of_same htarget hledger
  | monitor => exact hidle (ledger_of_account monitorRound_account)

/-! ### Runs -/

omit [TokenCrates] [Curve] [Minicbor] [MinicborCodec] [RustTexts] [Bip340] [IdentityCrates] in
/-- The token of the record, posted for an offer that was taken, at its price. -/
def Submitted (mint : String) (request : HttpRequest) (r : PendingSend) : Prop :=
  ∃ d, Offer mint d r.amount ∧ request = submission d.backendUrl r.token

/-- What is kept from round to round. -/
structure Accounts (mint : String) (kept : List PendingSend) (a : Atom) : Prop where
  offered : Offered mint a
  records : ∃ new, a.client.engine.pending = kept ++ new ∧ List.Forall₂ (Submitted mint) a.client.posts.reverse new

omit [TokenCrates] [Curve] [Minicbor] [MinicborCodec] [RustTexts] [Bip340] [IdentityCrates] in
theorem Payment.offer {t : Atom} {d : Discovery} {r : PendingSend} (h : Payment env a t d r) (hoffered : Offered mint a) :
    Offer mint d r.amount := by
  obtain ⟨d', hd', hoffer⟩ := hoffered (.inl h.due)
  rw [← h.found d' hd', h.amount]
  exact hoffer

theorem Accounts.round {kept : List PendingSend} {t : Atom} (h : Accounts mint kept a) (hstep : RoundStep mint a env t) :
    Accounts mint kept t := by
  obtain ⟨o, hrun⟩ := hstep
  refine ⟨(round_offered h.offered).elim hrun, ?_⟩
  obtain ⟨new, hpending, hposts⟩ := h.records
  rcases round_settles.elim hrun with hsame | ⟨d, r, hpays⟩
  · obtain ⟨hpending', hposts'⟩ := Prod.mk.inj hsame
    exact ⟨new, hpending'.trans hpending, hposts' ▸ hposts⟩
  · obtain ⟨hpending', hposts'⟩ := Prod.mk.inj hpays.ledger
    refine ⟨new ++ [r], by rw [hpending', hpending, List.append_assoc], ?_⟩
    rw [hposts', List.reverse_cons]
    exact List.rel_append hposts (.cons ⟨d, hpays.offer h.offered, rfl⟩ .nil)

theorem rounds_account {engine : WalletEngine} {h : List (Step Atom RoundEnv)}
    (hrun : Run (RoundStep mint) (.boot engine) h a) :
    Accounts mint engine.pending a := by
  have hboot : Accounts mint engine.pending (.boot engine) := by
    refine ⟨?_, [], by rw [List.append_nil]; rfl, .nil⟩
    rintro (h | h) <;> cases h
  exact hrun.invariant_state (G := fun _ => True) hboot (fun _ _ _ _ hs hstep => hs.round hstep) fun _ _ => trivial

/-- What the terminal posts, over all rounds, is one token for each record that its engine has gained, of the price of an
offer of the wallet's own mint or of none that it names; and each was posted in a round that found the gate closed. -/
theorem rounds_pay_offers {engine : WalletEngine} {h : List (Step Atom RoundEnv)}
    (hrun : Run (RoundStep mint) (.boot engine) h a) :
    (∃ new, a.client.engine.pending = engine.pending ++ new ∧ List.Forall₂ (Submitted mint) a.client.posts.reverse new) ∧
    ∀ e ∈ h, e.post.ledger = e.pre.ledger ∨ ∃ d r, Payment e.act e.pre e.post d r ∧ Offer mint d r.amount := by
  refine ⟨(rounds_account hrun).records, fun e he => ?_⟩
  obtain ⟨_, _, -, hbefore⟩ := hrun.before_of_mem he
  obtain ⟨o, hstep⟩ := hrun.step_of_mem he
  rcases round_settles.elim hstep with hsame | ⟨d, r, hpays⟩
  · exact .inl hsame
  · exact .inr ⟨d, r, hpays, hpays.offer (rounds_account hbefore).offered⟩

/-! ### Without a connection -/

section unconnected

omit [TokenCrates] [Curve] [Minicbor] [MinicborCodec] [RustTexts] [Bip340] [IdentityCrates] in
theorem ensureConnected_run {e : EngineEnv} {w : WalletEngine} (h : w.keysetId = "") :
    WalletEngine.ensureConnected.run e w = (.err (.protocol "not connected — call connect() first"), w) :=
  run_bind_of_ok get_run |>.trans (failIf_fail h)

omit [Bip340] [IdentityCrates] in
theorem pay_unconnected {c : Client} {e : Env} (h : c.engine.keysetId = "") (amount : Option UInt64) :
    (pay amount).Ends e c fun o t => t.account = c.account ∧ ∀ sats status, o ≠ .ok (.paid sats status) := by
  refine (pay_ends amount).mono fun o t ht => ?_
  cases ht with
  | unasked haccount hunpaid => exact ⟨haccount, hunpaid⟩
  | asked s d hbefore _ _ _ hpays =>
    obtain ⟨hengine, hposts⟩ := Prod.mk.inj hbefore
    have hrefuses : ∀ n, (WalletEngine.sendToken (d.amountFor amount) none).run (e.engine n) s.engine =
        (.err (.protocol "not connected — call connect() first"), s.engine) :=
      fun n => run_bind_of_err (ensureConnected_run (by rw [hengine]; exact h))
    cases hpays with
    | unspent n sent hsend _ hsame hrefused =>
      obtain ⟨-, hkept⟩ := Prod.mk.inj (hsend.symm.trans (hrefuses n))
      exact ⟨Prod.ext (hkept.trans hengine) (hsame.trans hposts), fun sats status => hrefused _⟩
    | spent n token hsend =>
      cases hsend.symm.trans (hrefuses n)

omit [Bip340] [IdentityCrates] in
theorem payRound_unconnected (h : a.client.engine.keysetId = "") : payRound.Ends env a fun _ t => t.account = a.account := by
  refine balanceOf_leaves.bind_ends (fun balance t ht => Ends.bind_get ?_) (fun _ _ ht => ht) fun _ ht => ht
  refine (mulU64_leaves _ _).bind_ends (fun renewals u hu => ?_) (fun _ _ hu => hu.trans ht) fun _ hu => hu.trans ht
  have hu : u.account = a.account := hu.trans ht
  split_ifs
  · exact Ends.pure hu
  · have hengine : u.client.engine = a.client.engine := congrArg Prod.fst hu
    refine bind_onClient (pay_unconnected (by rw [hengine]; exact h) _) (fun paid c hc => ?_) (fun e c hc => ?_)
      fun c hc => hc.1.trans hu
    · refine (discard_leaves usage_account).bind_ends (fun _ v hv => ?_) (fun _ v hv => ?_) fun v hv => ?_
      · exact ((enter_account .monitor).ends env v).mono fun _ w hw => hw.trans (hv.trans (hc.1.trans hu))
      · exact hv.trans (hc.1.trans hu)
      · exact hv.trans (hc.1.trans hu)
    · exact ((enter_account .scan).ends env _).mono fun _ w hw => hw.trans (hc.1.trans hu)

theorem round_unconnected (h : a.client.engine.keysetId = "") : (round mint).Ends env a fun _ t => t.account = a.account := by
  have hserve : serve.Ends env a fun _ t => t.account = a.account := by
    refine serve_keeps (fun _ _ ht => ht) (fun token t ht => ?_) rfl
    have hengine : t.client.engine = a.client.engine := congrArg Prod.fst ht
    have hrefuses : (WalletEngine.receiveTokenWith token none).run (env.client.engine t.client.asked) t.client.engine =
        (.err (.protocol "not connected — call connect() first"), t.client.engine) :=
      run_bind_of_err (ensureConnected_run (by rw [hengine]; exact h))
    refine Eq.trans ?_ ht
    show Client.account { t.client with engine := _, asked := t.client.asked + 1 } = t.client.account
    rw [hrefuses]
    rfl
  refine Ends.bind hserve (fun _ t ht => Ends.bind_get ?_) (fun _ _ ht => ht) fun _ ht => ht
  have hidle : ∀ {m : AtomM Unit}, Leaves Atom.account m → m.Ends env t fun _ u => u.account = a.account :=
    fun hm => (hm.ends env t).mono fun _ u hu => hu.trans ht
  have hengine : t.client.engine = a.client.engine := congrArg Prod.fst ht
  cases t.phase with
  | scan => exact hidle scanRound_account
  | join ssid => exact hidle (joinRound_account ssid)
  | validate => exact hidle (validateRound_account mint)
  | pay => exact (payRound_unconnected (by rw [hengine]; exact h)).mono fun _ u hu => hu.trans ht
  | monitor => exact hidle monitorRound_account

/-- The program never connects the engine that it makes: it takes no token in, and pays for nothing. -/
theorem boot_never_pays {seed : List UInt8} {blob : Option Envelope} {h : List (Step Atom RoundEnv)}
    (hrun : Run (RoundStep mint) (.boot (.new mint seed blob [])) h a) :
    a.client.engine = .new mint seed blob [] ∧ a.client.posts = [] := by
  have haccount : a.account = (Atom.boot (.new mint seed blob [])).account := by
    refine hrun.invariant_state (G := fun _ => True)
      (I := fun t => t.account = (Atom.boot (.new mint seed blob [])).account) rfl
      (fun t e u _ ht hstep => ?_) fun _ _ => trivial
    obtain ⟨o, hround⟩ := hstep
    have hengine : t.client.engine.keysetId = "" := congrArg (fun v => v.1.keysetId) ht
    exact ((round_unconnected hengine).elim hround).trans ht
  exact Prod.mk.inj haccount

end unconnected

end rounds

end

end Tollgate

/-! ### A terminal to run -/

section toy
open Toy32 ToyCbor ToyEngine ToyBooks WalletEngine Tollgate

namespace ToyAtom

/-- Every document is an offer of four sats. -/
scoped instance tokenCrates : TokenCrates where
  base64Standard _ := .error "invalid byte"
  jsonFromSlice _ := .ok (.object [("kind", .number (.posInt 10021)), ("tags", .array
    [.array (["price_per_step", "cashu", "4", "sat", "https://mint.example"].map .string)])])
  decodeTokenError _ := "decode error"
  encodeTokenError := "encode error"

scoped instance rustTexts : RustTexts := ⟨fun _ => "", id, fun _ => ""⟩

/-- The gate sends the first probe back; the usage is not told. -/
def portal : Tollgate.Env where
  gatewayIp _ := .ok "10.0.0.1"
  http n request :=
    if request.url = probeUrl ∧ n < 7 then .ok ⟨302, some "http://10.0.0.1/splash", []⟩
    else if request.url = probeUrl ∨ request.method = .post ∨ request.url = "http://10.0.0.1:2121/" then .ok ⟨200, none, []⟩
    else .error "timed out"
  engine _ := online

def street : RoundEnv := ⟨portal, .ok none, .ok [⟨"TollGate-1", -40, true⟩], fun _ => .ok (), true⟩

def mintUrl : String := "https://mint.example"

def next (a : Atom) : Atom := ((round mintUrl).run street a).2

theorem next_step (a : Atom) : RoundStep mintUrl a street (next a) := ⟨((round mintUrl).run street a).1, rfl⟩

/-- An engine that is connected, with a coin for two payments. -/
def engine : WalletEngine := holding 0 [coin 8 "s"]

def found : Atom := { Atom.boot engine with phase := .join "TollGate-1", sinceScanMs := 0 }

theorem scan_finds : RoundStep mintUrl (.boot engine) street found := by
  have hscan : scanFindOpen [⟨"TollGate-1", -40, true⟩] "TollGate-" = some ⟨"TollGate-1", -40, true⟩ := by
    simp only [scanFindOpen, List.mergeSort_singleton]
    rfl
  refine ⟨.ok (), ?_⟩
  show scanRound.run street (.boot engine) = _
  have hperiod : scanPeriodMs ≤ scanPeriodMs + ledTickMs := by decide
  simp only [run, scanRound, Atom.boot, street, if_pos hperiod, hscan]
  rfl

/-- After the network was joined, the offer taken and paid. -/
@[irreducible] def paid : Atom := next (next (next found))

theorem paid_run : ∃ h, Run (RoundStep mintUrl) (.boot engine) h paid := by
  rw [paid]
  exact ⟨_, (((Run.nil.snoc scan_finds).snoc (next_step _)).snoc (next_step _)).snoc (next_step _)⟩

theorem paid_posts : paid.client.posts.length = 1 := by decide +kernel

/-- The store of the engine that the program makes, with the same coin. -/
def stored : Envelope := ⟨envelopeVersion, 1, [coin 8 "s"], seedFingerprint [1]⟩

end ToyAtom

open ToyAtom

theorem rounds_pay_offers_toy : paid.client.posts.length = 1 ∧
    ∃ new, paid.client.engine.pending = new ∧ List.Forall₂ (Submitted mintUrl) paid.client.posts.reverse new := by
  obtain ⟨h, hrun⟩ := paid_run
  exact ⟨paid_posts, (rounds_pay_offers hrun).1⟩

theorem boot_never_pays_toy : (next (next (next (next (.boot (.new mintUrl [1] (some stored) [])))))).client.posts = [] :=
  (boot_never_pays ((((Run.nil.snoc (next_step _)).snoc (next_step _)).snoc (next_step _)).snoc (next_step _))).2

end toy

end Micronuts
