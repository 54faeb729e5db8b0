import Mathlib.Data.List.Infix
import Micronuts.Wallet.Payload
import Micronuts.Wallet.SendFidelity

/-!
# The TollGate client (`micronuts-esp32-wallet`: `tollgate.rs`)

`pay` asks whether the gate is open, has the engine compose a token for the price, posts it to the backend and looks again.
The engine is asked for a token only behind a closed gate, and what it hands out is posted once, to the backend of the
discovery: accepted or refused, its record stays with the engine (`pay_ends`).
-/

namespace Micronuts
open Exec Text

namespace Tollgate

inductive HttpMethod
  | get
  | post
deriving DecidableEq

/-- At most `bodyCap` bytes of the answer are read. -/
structure HttpRequest where
  method : HttpMethod
  url : String
  contentType : Option String
  body : Option (List UInt8)
  bodyCap : Nat
deriving DecidableEq

structure HttpReply where
  status : UInt16
  location : Option String
  body : List UInt8

def HttpReply.isSuccess (reply : HttpReply) : Bool := 200 ≤ reply.status && reply.status < 300

def HttpReply.isRedirect (reply : HttpReply) : Bool := 300 ≤ reply.status && reply.status < 400

inductive TollgateError
  | wifi (detail : String)
  | http (detail : String)
  | protocol (detail : String)
  | notDiscovered

/-- The parts of the standard library that make texts, and whether the build checks arithmetic. -/
class RustTexts where
  fromUtf8Lossy : List UInt8 → String
  debugStr : String → String
  debugError : CashuError → String

structure Discovery where
  gateway : String
  backendUrl : String
  kind : Int
  priceSats : Option UInt64
  priceUnit : Option String
  mintUrl : Option String
deriving DecidableEq

inductive PayOutcome
  | alreadyAuthed
  | paid (amount : UInt64) (httpStatus : UInt16)
deriving DecidableEq

inductive GateProbe
  | isOpen (status : UInt16)
  | gated (status : UInt16) (location : String)
  | unreachable (reason : String)

def defaultPriceSats : UInt64 := 4

def probeUrl : String := "http://1.1.1.1/"

section
variable [Crypto]

/-- What the client meets; questions are numbered. -/
structure Env where
  gatewayIp : Nat → Except String String
  http : Nat → HttpRequest → Except String HttpReply
  engine : Nat → EngineEnv

/-- The client and the engine of the wallet. `requests` is for the record only: what was asked of the network, the newest
first. -/
structure Client where
  discovery : Option Discovery
  state : String
  engine : WalletEngine
  requests : List HttpRequest
  asked : Nat

abbrev ClientM := Exec Env Client TollgateError

def backendUrlOf (gateway : String) : String := s!"http://{gateway}:2121/"

def httpExchange (request : HttpRequest) : ClientM HttpReply := fun env c =>
  let c' := { c with requests := request :: c.requests, asked := c.asked + 1 }
  match env.http c.asked request with
  | .ok reply => (.ok { reply with body := reply.body.take request.bodyCap }, c')
  | .error detail => (.err (.http detail), c')

def gatewayIp : ClientM String := fun env c =>
  match env.gatewayIp c.asked with
  | .ok gateway => (.ok gateway, { c with asked := c.asked + 1 })
  | .error detail => (.err (.wifi detail), { c with asked := c.asked + 1 })

/-! ### Discovery -/

def asI64 : Value → Option Int
  | .number (.posInt n) => if n.toNat < 2 ^ 63 then some n.toNat else none
  | .number (.negInt n) => some n.toInt
  | _ => none

/-- What the tags say so far: the amount, the unit and the mint. -/
structure PriceTag where
  sats : Option UInt64
  unit : Option String
  mint : Option String

def PriceTag.read (p : PriceTag) (tag : Value) : PriceTag :=
  match tag.asArray with
  | none => p
  | some fields =>
    if fields.head?.bind Value.asStr ≠ some "price_per_step" then p
    else if fields.length < 5 then p
    else if p.sats.isNone then
      { sats := (fields[2]?.bind Value.asStr).bind parseU64
        unit := fields[3]?.bind Value.asStr
        mint := fields[4]?.bind Value.asStr }
    else p

variable [TokenCrates]

def parseDiscovery (gateway : String) (body : List UInt8) : Except TollgateError Discovery := do
  let doc ← (TokenCrates.jsonFromSlice body).mapError fun e => .protocol s!"discovery is not JSON: {e}"
  let kind := ((doc.get "kind").bind asI64).getD (-1)
  if kind = 21023 then .error (.protocol "backend degraded (kind 21023): no reachable mint — cannot pay")
  else if kind ≠ 10021 then .error (.protocol s!"unexpected discovery kind {kind} (want 10021)")
  else
    let price := (((doc.get "tags").bind Value.asArray).getD []).foldl PriceTag.read ⟨none, none, none⟩
    pure {
      gateway, backendUrl := backendUrlOf gateway, kind
      priceSats := price.sats, priceUnit := price.unit, mintUrl := price.mint }

/-- A discovery that fails leaves the old one. -/
def discover : ClientM Discovery := do
  let gateway ← gatewayIp
  let backendUrl := backendUrlOf gateway
  let reply ← httpExchange ⟨.get, backendUrl, none, none, 8 * 1024⟩
  failIf (¬ reply.isSuccess) (.protocol s!"backend answered HTTP {reply.status} on discovery")
  let discovery ← lift (parseDiscovery gateway reply.body)
  modify fun c => { c with state := s!"discovered backend at {backendUrl}", discovery := some discovery }
  pure discovery

/-! ### The gate -/

def TollgateError.display : TollgateError → String
  | .wifi err => s!"wifi: {err}"
  | .http detail => s!"http: {detail}"
  | .protocol detail => s!"protocol: {detail}"
  | .notDiscovered => "no TollGate discovery yet — join first"

/-- A redirect back to the gateway is the portal's. -/
def gateOf (gateway : String) (reply : HttpReply) : GateProbe :=
  if reply.isRedirect ∧ (reply.location.any fun location => decide (gateway.toList <:+: location.toList)) = true then
    .gated reply.status (reply.location.getD "")
  else .isOpen reply.status

def probe (gateway : String) : ClientM GateProbe := do
  match ← attempt (httpExchange ⟨.get, probeUrl, none, none, 512⟩) with
  | .ok reply => pure (gateOf gateway reply)
  | .error e => pure (.unreachable e.display)

def alreadyAuthed : ClientM Bool := do
  let c ← get
  let discovery ← okOr c.discovery .notDiscovered
  match ← probe discovery.gateway with
  | .isOpen _ => pure true
  | .gated _ _ => pure false
  | .unreachable reason => fail (.http s!"internet probe {probeUrl} unreachable: {reason} — refusing to pay blind")

/-! ### Payment -/

variable [Curve] [Minicbor] [MinicborCodec] [RustTexts]

/-- `engine.send_token(amount, None)`. -/
def spend (amount : UInt64) : ClientM String := fun env c =>
  let sent := (WalletEngine.sendToken amount none).run (env.engine c.asked) c.engine
  let c' := { c with engine := sent.2, asked := c.asked + 1 }
  match sent.1 with
  | .ok token => (.ok token, c')
  | .err e => (.err (.protocol s!"spend {amount} sats failed: {RustTexts.debugError e}"), c')
  | .panic => (.panic, c')

def setState (state : String) : ClientM Unit := modify fun c => { c with state }

/-- The raw token is the body. -/
def submission (backendUrl token : String) : HttpRequest :=
  ⟨.post, backendUrl, some "text/plain", some (asBytes token), 2 * 1024⟩

/-- The second probe after a payment. -/
def verifyAgain (gateway : String) : ClientM UInt16 := do
  match ← probe gateway with
  | .isOpen status => pure status
  | .gated status location =>
    fail (.protocol s!"payment accepted but gate still closed (probe HTTP {status}, redirect {location})")
  | .unreachable reason => fail (.http s!"post-payment probe unreachable: {reason}")

def verify (gateway : String) : ClientM UInt16 := do
  match ← probe gateway with
  | .isOpen status => pure status
  | .gated _ _ | .unreachable _ => verifyAgain gateway

/-- Behind a closed gate. -/
def payFor (discovery : Discovery) (amount : UInt64) : ClientM PayOutcome := do
  let token ← spend amount
  setState s!"spent {amount} sats — token in flight"
  let reply ← httpExchange (submission discovery.backendUrl token)
  failIf (¬ reply.isSuccess) (.protocol s!"payment rejected: HTTP {reply.status} — {RustTexts.fromUtf8Lossy reply.body}")
  setState s!"submitted {amount} sats (HTTP {reply.status})"
  let probeStatus ← verify discovery.gateway
  setState s!"internet verified (probe HTTP {probeStatus}) after {amount} sats payment"
  pure (.paid amount reply.status)

/-- A price that is given comes first, then that of the discovery. -/
def Discovery.amountFor (discovery : Discovery) (amount : Option UInt64) : UInt64 :=
  (amount.or discovery.priceSats).getD defaultPriceSats

def discovered : ClientM Discovery := do
  let c ← get
  match c.discovery with
  | some discovery => pure discovery
  | none => discover

def pay (amount : Option UInt64) : ClientM PayOutcome := do
  let discovery ← discovered
  if ← alreadyAuthed then do
    setState "already authenticated — no spend"
    pure .alreadyAuthed
  else payFor discovery (discovery.amountFor amount)

/-! ### The offer and the session -/

def adValid : ClientM Discovery := do
  let c ← get
  let d ← okOr c.discovery .notDiscovered
  failIf (d.kind ≠ 10021) (.protocol s!"discovery kind {d.kind} — not a TollGate offer (10021)")
  let price ← okOr d.priceSats (.protocol "no price_per_step tag")
  failIf (price < 1) (.protocol s!"price_per_step {price} — below the 1-sat minimum")
  let unit := RustTexts.debugStr (d.priceUnit.getD "")
  failIf (d.priceUnit.any (· ≠ "sat")) (.protocol s!"price unit {unit} — Cashu/sat pricing only")
  pure d

def usageNumber (s : String) : Except TollgateError UInt64 :=
  Except.okOr (parseU64 (Text.trim s)) (.protocol s!"usage number {RustTexts.debugStr s}")

def parseUsage (body : List UInt8) : Except TollgateError (UInt64 × UInt64) := do
  let body := RustTexts.fromUtf8Lossy body
  let (remaining, total) ← Except.okOr (Payload.splitOnce '/' (Text.trim body).toList)
    (.protocol s!"usage body {RustTexts.debugStr body}")
  pure (← usageNumber (String.ofList remaining), ← usageNumber (String.ofList total))

def usage : ClientM (Option (UInt64 × UInt64)) := do
  let c ← get
  let discovery ← okOr c.discovery .notDiscovered
  let reply ← httpExchange ⟨.get, backendUrlOf discovery.gateway ++ "usage", none, none, 512⟩
  if ¬ reply.isSuccess then pure none
  else do
    let allotment ← lift (parseUsage reply.body)
    pure (some allotment)

/-! ### What asking leaves alone -/

def Client.posts (c : Client) : List HttpRequest := c.requests.filter (·.method = .post)

/-- The engine, and what was posted. -/
def Client.account (c : Client) : WalletEngine × List HttpRequest := (c.engine, c.posts)

section leaves
omit [TokenCrates] [Curve] [Minicbor] [MinicborCodec] [RustTexts]

theorem httpExchange_leaves {τ : Type} {view : Client → τ} {request : HttpRequest}
    (h : ∀ c, view { c with requests := request :: c.requests, asked := c.asked + 1 } = view c) :
    Leaves view (httpExchange request) := by
  intro env c
  simp only [run, httpExchange]
  cases env.http c.asked request with
  | ok reply => exact h c
  | error detail => exact h c

/-- The account does not tell how often the network was asked. -/
class Unasked {τ : Type} (view : Client → τ) : Prop where
  asked : ∀ c asked, view { c with asked } = view c
  got : ∀ c request asked, request.method = .get → view { c with requests := request :: c.requests, asked } = view c
  stated : ∀ c state, view { c with state } = view c

instance : Unasked Client.account where
  asked _ _ := rfl
  got c request asked h := by simp [Client.account, Client.posts, h]
  stated _ _ := rfl

instance : Unasked Client.discovery := ⟨fun _ _ => rfl, fun _ _ _ _ => rfl, fun _ _ => rfl⟩

variable {τ : Type} {view : Client → τ} [Unasked view]

theorem gatewayIp_leaves : Leaves view gatewayIp := by
  intro env c
  simp only [run, gatewayIp]
  cases env.gatewayIp c.asked with
  | ok gateway => exact Unasked.asked c _
  | error detail => exact Unasked.asked c _

theorem get_leaves (url : String) (cap : Nat) : Leaves view (httpExchange ⟨.get, url, none, none, cap⟩) :=
  httpExchange_leaves fun c => Unasked.got c _ _ rfl

theorem setState_leaves (state : String) : Leaves view (setState state) := .modify fun c => Unasked.stated c state

theorem probe_leaves (gateway : String) : Leaves view (probe gateway) := by
  refine Leaves.bind (get_leaves _ _).attempt fun reply => ?_
  cases reply with
  | ok reply => exact .pure _
  | error e => exact .pure _

theorem alreadyAuthed_leaves : Leaves view alreadyAuthed := by
  refine Leaves.get.bind fun c => (Leaves.okOr _ _).bind fun d => (probe_leaves _).bind fun gate => ?_
  cases gate with
  | isOpen => exact .pure _
  | gated => exact .pure _
  | unreachable => exact .fail _

theorem verifyAgain_leaves (gateway : String) : Leaves view (verifyAgain gateway) := by
  refine Leaves.bind (probe_leaves gateway) fun gate => ?_
  cases gate with
  | isOpen => exact .pure _
  | gated => exact .fail _
  | unreachable => exact .fail _

theorem verify_leaves (gateway : String) : Leaves view (verify gateway) := by
  refine Leaves.bind (probe_leaves gateway) fun gate => ?_
  cases gate with
  | isOpen => exact .pure _
  | gated => exact verifyAgain_leaves gateway
  | unreachable => exact verifyAgain_leaves gateway

theorem discover_leaves [TokenCrates] : Leaves Client.account discover := by
  refine gatewayIp_leaves.bind fun gateway => (get_leaves _ _).bind fun reply => (Leaves.failIf _ _).bind fun _ => ?_
  refine (Leaves.lift _).bind fun d => ?_
  intro env c
  rfl

theorem usage_leaves [RustTexts] : Leaves view usage := by
  refine Leaves.get.bind fun c => (Leaves.okOr _ _).bind fun d => (get_leaves _ _).bind fun reply => ?_
  split
  · exact .pure _
  · exact (Leaves.lift _).bind fun _ => .pure _

end leaves

/-! ### How a payment ends -/

section ends
variable {env : Env} {c : Client} {d : Discovery}

/-- The probe is answered with this verdict. -/
def Probed (env : Env) (gateway : String) (gate : GateProbe) : Prop :=
  ∃ n reply, env.http n ⟨.get, probeUrl, none, none, 512⟩ = .ok reply ∧ gateOf gateway reply = gate

/-- The backend takes the token. -/
def Accepted (env : Env) (backendUrl token : String) (status : UInt16) : Prop :=
  ∃ n reply, env.http n (submission backendUrl token) = .ok reply ∧ reply.isSuccess = true ∧ reply.status = status

/-- A payment of `amount` to the backend of `d`. -/
inductive Pays (env : Env) (c : Client) (d : Discovery) (amount : UInt64) : Outcome TollgateError PayOutcome → Client → Prop
  | unspent {o t} (n : Nat) (sent : Outcome CashuError String)
      (send : (WalletEngine.sendToken amount none).run (env.engine n) c.engine = (sent, t.engine))
      (failed : ∀ token, sent ≠ .ok token)
      (posts : t.posts = c.posts) (refused : ∀ paid, o ≠ .ok paid) : Pays env c d amount o t
  | spent {o t} (n : Nat) (token : String)
      (send : (WalletEngine.sendToken amount none).run (env.engine n) c.engine = (.ok token, t.engine))
      (posts : t.posts = submission d.backendUrl token :: c.posts)
      (paid : ∀ outcome, o = .ok outcome → ∃ status, outcome = .paid amount status ∧ Accepted env d.backendUrl token status ∧
        ∃ probed, Probed env d.gateway (.isOpen probed)) : Pays env c d amount o t

omit [Curve] [Minicbor] [MinicborCodec] [RustTexts] [TokenCrates] in
theorem httpExchange_ends (request : HttpRequest) : (httpExchange request).Ends env c fun o t =>
    (∀ reply, o = .ok reply → ∃ n full, env.http n request = .ok full ∧
      reply = { full with body := full.body.take request.bodyCap }) ∧
      t = { c with requests := request :: c.requests, asked := c.asked + 1 } := by
  unfold Exec.Ends
  simp only [run, httpExchange]
  cases hreply : env.http c.asked request with
  | ok full => exact ⟨fun reply h => by cases h; exact ⟨_, full, hreply, rfl⟩, rfl⟩
  | error detail => exact ⟨by simp, rfl⟩

omit [Curve] [Minicbor] [MinicborCodec] [RustTexts] [TokenCrates] in
theorem probe_ends (gateway : String) : (probe gateway).Ends env c fun o _ =>
    ∀ gate, o = .ok gate → Probed env gateway gate ∨ ∃ reason, gate = .unreachable reason := by
  refine Ends.bind_attempt (httpExchange_ends _) ?_ (fun e t _ => ?_) (by simp)
  · rintro reply t ⟨hreply, -⟩
    obtain ⟨n, full, hfull, rfl⟩ := hreply reply rfl
    rintro gate ⟨⟩
    exact .inl ⟨n, full, hfull, rfl⟩
  · rintro gate ⟨⟩
    exact .inr ⟨_, rfl⟩

/-- A status is that of a probe that went through. -/
def Opens (env : Env) (gateway : String) (o : Outcome TollgateError UInt16) : Prop :=
  ∀ status, o = .ok status → Probed env gateway (.isOpen status)

omit [Curve] [Minicbor] [MinicborCodec] [RustTexts] [TokenCrates] in
theorem verifyAgain_ends (gateway : String) : (verifyAgain gateway).Ends env c fun o _ => Opens env gateway o := by
  refine Ends.bind (probe_ends gateway) (fun gate u hgate => ?_) (fun _ _ _ _ h => by cases h) fun _ _ _ h => by cases h
  cases gate with
  | isOpen status =>
    rintro _ ⟨⟩
    exact (hgate _ rfl).resolve_right (by simp)
  | gated => exact fun _ h => by cases h
  | unreachable => exact fun _ h => by cases h

omit [Curve] [Minicbor] [MinicborCodec] [RustTexts] [TokenCrates] in
theorem verify_ends (gateway : String) : (verify gateway).Ends env c fun o _ => Opens env gateway o := by
  refine Ends.bind (probe_ends gateway) (fun gate u hgate => ?_) (fun _ _ _ _ h => by cases h) fun _ _ _ h => by cases h
  cases gate with
  | isOpen status =>
    rintro _ ⟨⟩
    exact (hgate _ rfl).resolve_right (by simp)
  | gated => exact verifyAgain_ends gateway
  | unreachable => exact verifyAgain_ends gateway

theorem payFor_pays (amount : UInt64) : (payFor d amount).Ends env c (Pays env c d amount) := by
  have hsend : (spend amount).Ends env c fun o t => (∀ token, o = .ok token →
      (WalletEngine.sendToken amount none).run (env.engine c.asked) c.engine = (.ok token, t.engine)) ∧
      ((∀ token, o ≠ .ok token) →
        ∃ sent, (WalletEngine.sendToken amount none).run (env.engine c.asked) c.engine = (sent, t.engine) ∧
        ∀ token, sent ≠ .ok token) ∧ t.posts = c.posts := by
    unfold Exec.Ends
    simp only [run, spend]
    rcases hsent : WalletEngine.sendToken amount none (env.engine c.asked) c.engine with ⟨sent, e⟩
    cases sent with
    | ok token => exact ⟨fun token' h => by cases h; rfl, fun h => absurd rfl (h token), rfl⟩
    | err x => exact ⟨by simp, fun _ => ⟨.err x, rfl, by simp⟩, rfl⟩
    | panic => exact ⟨by simp, fun _ => ⟨.panic, rfl, by simp⟩, rfl⟩
  refine Ends.bind hsend (fun token t ht => ?_) (fun e t ht => ?_) fun t ht => ?_
  · obtain ⟨hsent, -, hposts⟩ := ht
    have hsent := hsent token rfl
    have hspent : ∀ {o} {u : Client}, u.account = (t.engine, submission d.backendUrl token :: c.posts) →
        (∀ outcome, o = .ok outcome → ∃ status, outcome = .paid amount status ∧ Accepted env d.backendUrl token status ∧
          ∃ probed, Probed env d.gateway (.isOpen probed)) → Pays env c d amount o u := by
      intro o u haccount hpaid
      obtain ⟨hengine, hposts⟩ := Prod.mk.inj haccount
      exact .spent _ token (by rw [hengine]; exact hsent) hposts hpaid
    refine Ends.bind_modify ?_
    refine Ends.bind (httpExchange_ends (submission d.backendUrl token)) ?_ ?_ ?_
    · rintro reply u ⟨hreply, rfl⟩
      obtain ⟨n, full, hfull, rfl⟩ := hreply reply rfl
      have haccount : Client.account { t with
          state := s!"spent {amount} sats — token in flight"
          requests := submission d.backendUrl token :: t.requests
          asked := t.asked + 1 } = (t.engine, submission d.backendUrl token :: c.posts) := by
        rw [← hposts]
        rfl
      refine Ends.bind_failIf (fun hsuccess => ?_) fun _ => hspent haccount (by simp)
      have haccepted : Accepted env d.backendUrl token full.status := ⟨n, full, hfull, not_not.1 hsuccess, rfl⟩
      have hleaves : Leaves Client.account (verify d.gateway) := verify_leaves d.gateway
      refine Ends.bind_modify (Ends.bind ((verify_ends d.gateway).and (hleaves.ends env _)) ?_ ?_ ?_)
      · rintro status v ⟨hopens, hv⟩
        refine Ends.bind_modify (Ends.pure (hspent (hv.trans haccount) ?_))
        rintro _ ⟨⟩
        exact ⟨_, rfl, haccepted, status, hopens status rfl⟩
      · rintro e v ⟨-, hv⟩
        exact hspent (hv.trans haccount) (by simp)
      · rintro v ⟨-, hv⟩
        exact hspent (hv.trans haccount) (by simp)
    · rintro e u ⟨-, rfl⟩
      refine hspent ?_ (by simp)
      rw [← hposts]
      rfl
    · rintro u ⟨-, rfl⟩
      refine hspent ?_ (by simp)
      rw [← hposts]
      rfl
  · obtain ⟨-, hfailed, hposts⟩ := ht
    obtain ⟨sent, hsent, hfailed⟩ := hfailed (by simp)
    exact .unspent _ sent hsent hfailed hposts (by simp)
  · obtain ⟨-, hfailed, hposts⟩ := ht
    obtain ⟨sent, hsent, hfailed⟩ := hfailed (by simp)
    exact .unspent _ sent hsent hfailed hposts (by simp)

/-- A call of `pay`: the wallet is left alone, and the gate was open if it says so; or behind a closed gate it pays. -/
inductive PayEnds (env : Env) (c : Client) (amount : Option UInt64) : Outcome TollgateError PayOutcome → Client → Prop
  | unasked {o t} (account : t.account = c.account) (unpaid : ∀ a status, o ≠ .ok (.paid a status))
      (already : o = .ok .alreadyAuthed → ∃ d status, t.discovery = some d ∧ Probed env d.gateway (.isOpen status)) :
      PayEnds env c amount o t
  | asked {o t} (s : Client) (d : Discovery) (before : s.account = c.account) (found : s.discovery = some d)
      (kept : ∀ d', c.discovery = some d' → d' = d)
      (closed : ∃ status location, Probed env d.gateway (.gated status location))
      (pays : Pays env s d (d.amountFor amount) o t) :
      PayEnds env c amount o t

omit [Curve] [Minicbor] [MinicborCodec] [RustTexts] in
theorem discovered_ends : discovered.Ends env c fun o t => t.account = c.account ∧
    ∀ d, o = .ok d → t.discovery = some d ∧ ∀ d', c.discovery = some d' → d' = d := by
  refine Ends.bind_get ?_
  cases hd : c.discovery with
  | some d =>
    refine .pure ⟨rfl, ?_⟩
    rintro d' ⟨⟩
    exact ⟨hd, fun d' h => by cases h; rfl⟩
  | none =>
    refine Ends.and (discover_leaves.ends env c) ?_
    have hfound : discover.Ends env c fun o t => ∀ d, o = .ok d → t.discovery = some d := by
      refine Ends.bind (P := fun _ _ => True) trivial (fun gateway t _ => ?_) (by simp) (by simp)
      refine Ends.bind (P := fun _ _ => True) trivial (fun reply t _ => ?_) (by simp) (by simp)
      refine Ends.bind_failIf (fun _ => Ends.bind_lift (fun d _ => ?_) (by simp)) (by simp)
      refine Ends.bind_modify (.pure ?_)
      rintro _ ⟨⟩
      rfl
    exact hfound.mono fun o t h d ho => ⟨h d ho, by simp⟩

omit [Curve] [Minicbor] [MinicborCodec] [RustTexts] [TokenCrates] in
theorem alreadyAuthed_ends (hd : c.discovery = some d) :
    alreadyAuthed.Ends env c fun o t => t.account = c.account ∧ t.discovery = some d ∧
    ∀ authed, o = .ok authed → if authed then ∃ status, Probed env d.gateway (.isOpen status)
      else ∃ status location, Probed env d.gateway (.gated status location) := by
  have haccount : Leaves Client.account alreadyAuthed := alreadyAuthed_leaves
  have hdiscovery : Leaves Client.discovery alreadyAuthed := alreadyAuthed_leaves
  have hverdict : alreadyAuthed.Ends env c fun o _ => ∀ authed, o = .ok authed →
      if authed then ∃ status, Probed env d.gateway (.isOpen status)
      else ∃ status location, Probed env d.gateway (.gated status location) := by
    refine Ends.bind_get (Ends.bind_okOr (fun d' hd' => ?_) (by simp))
    obtain rfl : d = d' := Option.some.inj (hd.symm.trans hd')
    refine Ends.bind (probe_ends d.gateway) (fun gate u hgate => ?_) (by simp) (by simp)
    cases gate with
    | isOpen status =>
      rintro _ ⟨⟩
      exact ⟨status, (hgate _ rfl).resolve_right (by simp)⟩
    | gated status location =>
      rintro _ ⟨⟩
      exact ⟨status, location, (hgate _ rfl).resolve_right (by simp)⟩
    | unreachable => exact fun _ h => by cases h
  exact ((haccount.ends env c).and ((hdiscovery.ends env c).and hverdict)).mono fun _ t h => ⟨h.1, h.2.1.trans hd, h.2.2⟩

theorem pay_ends (amount : Option UInt64) : (pay amount).Ends env c (PayEnds env c amount) := by
  refine Ends.bind discovered_ends (fun d s hs => ?_) (fun e t ht => .unasked ht.1 (by simp) (by simp)) fun t ht =>
    .unasked ht.1 (by simp) (by simp)
  obtain ⟨hbefore, hfound⟩ := hs
  obtain ⟨hfound, hkept⟩ := hfound d rfl
  refine Ends.bind (alreadyAuthed_ends hfound) ?_ ?_ ?_
  · rintro authed t ⟨haccount, hdiscovery, hauthed⟩
    have hauthed := hauthed authed rfl
    cases authed with
    | true =>
      obtain ⟨status, hopen⟩ := hauthed
      exact Ends.bind_modify (Ends.pure (.unasked (haccount.trans hbefore) (by simp) fun _ => ⟨d, status, hdiscovery, hopen⟩))
    | false =>
      exact (payFor_pays (d.amountFor amount)).mono fun o u hu =>
        .asked t d (haccount.trans hbefore) hdiscovery hkept hauthed hu
  · rintro e t ⟨haccount, -, -⟩
    exact .unasked (haccount.trans hbefore) (by simp) (by simp)
  · rintro t ⟨haccount, -, -⟩
    exact .unasked (haccount.trans hbefore) (by simp) (by simp)

end ends

end

end Tollgate

end Micronuts
