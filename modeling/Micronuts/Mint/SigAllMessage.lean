import Mathlib.Data.Bool.AllAny
import Micronuts.Lib.PrefixCode
import Micronuts.Mint.Spending
import Micronuts.Mint.State
import Micronuts.Nuts.JsonPrefix

/-!
# What a SIG_ALL signature commits to

The message of a transaction is the plain concatenation of its parts, and is still read back in one way only: a secret
is a JSON array, which says where it ends; a point is 66 hex digits, the first of them `0`, which no denomination
contains; and an input begins with a bracket or whitespace, an output with a digit. A melt message ends in the quote id,
whose hyphens are no hex digits.
-/

namespace Micronuts

/-! ### JSON array documents -/

namespace Json

/-- The text of an array document. -/
def IsArrayDocument (s : String) : Prop := ∃ items, parse s = some (.array items)

def beginsDocument (b : UInt8) : Prop := isWs b = true ∨ b = '['.toUInt8

theorem isArrayDocument_beginsIn : BeginsIn IsArrayDocument asBytes beginsDocument := by
  rintro s ⟨items, h⟩
  obtain ⟨n, rest, hvalue, -⟩ := parse_eq_some h
  have hhead := parseValue_array hvalue
  change (skipWs (asBytes s)).head? = _ at hhead
  cases hs : asBytes s with
  | nil => rw [hs] at hhead; cases hhead
  | cons b bs =>
    refine ⟨b, rfl, ?_⟩
    rw [hs, skipWs, List.dropWhile_cons] at hhead
    split at hhead
    · next hws => exact .inl hws
    · exact .inr (Option.some.inj hhead)

end Json

theorem isArrayDocument_of_secret {raw : String} (h : (Secret.parse raw).isSome) : Json.IsArrayDocument raw := by
  obtain ⟨s, hs⟩ := Option.isSome_iff_exists.1 h
  obtain ⟨document, hdocument, hs⟩ := Option.bind_eq_some_iff.1 hs
  obtain ⟨items, hitems, -⟩ := Option.bind_eq_some_iff.1 hs
  cases document with
  | array items' => exact ⟨items', hdocument⟩
  | _ => cases hitems

/-! ### Amounts -/

def amountBytes (amount : UInt64) : List UInt8 := asBytes (toString amount.toNat)

theorem amountBytes_ne_zero : ∀ a ∈ denominations, ∀ c ∈ amountBytes a, c ≠ '0'.toUInt8 := by
  have hall : (denominations.all fun a => (amountBytes a).all (· ≠ '0'.toUInt8)) = true := by decide +kernel
  exact fun a ha => List.all_iff_forall_prop.1 (List.all_eq_true.1 hall a ha)

theorem amountBytes_inj (a b : UInt64) (ha : a ∈ denominations) (hb : b ∈ denominations)
    (h : amountBytes a = amountBytes b) : a = b := by
  have hall : (denominations.all fun a => denominations.all fun b => amountBytes a = amountBytes b → a = b) = true := by
    decide +kernel
  exact List.all_iff_forall_prop.1 (List.all_eq_true.1 hall a ha) b hb h

theorem amountBytes_beginsIn : BeginsIn (· ∈ denominations) amountBytes fun c => Json.isDigit c = true := by
  have hall : (denominations.all fun a => (amountBytes a).head?.any Json.isDigit) = true := by decide +kernel
  intro a ha
  obtain ⟨c, hc, hdigit⟩ := (Option.any_eq_true _ _).1 (List.all_eq_true.1 hall a ha)
  exact ⟨c, hc, hdigit⟩

theorem isDigit_not_beginsDocument (c : UInt8) (h : Json.isDigit c = true) : ¬ Json.beginsDocument c := by
  rintro (hws | rfl)
  · simp only [Json.isWs, Bool.or_eq_true, decide_eq_true_eq] at hws
    rcases hws with ((rfl | rfl) | rfl) | rfl <;> cases h
  · cases h

/-! ### Points -/

section
variable [Crypto]

/-- Points are written in the compressed form, with a parity byte of 2 or 3. -/
def CompressedPoints : Prop := ∀ p : PublicKey, ∃ rest, Crypto.toBytes p = 2 :: rest ∨ Crypto.toBytes p = 3 :: rest

def pointBytes (p : PublicKey) : List UInt8 := asBytes (pointHex p)

theorem pointBytes_length (p : PublicKey) : (pointBytes p).length = 66 := by
  rw [pointBytes, pointHex, asBytes_encode]
  simp [List.length_flatMap, Crypto.toBytes_length]

theorem pointBytes_prefixCode : PrefixCode (fun _ : PublicKey => True) pointBytes :=
  .of_length (fun p _ => pointBytes_length p) fun _ _ _ _ h => pointHex_injective (asBytes_injective h)

theorem pointBytes_beginsIn (h : CompressedPoints) : BeginsIn (fun _ : PublicKey => True) pointBytes (· = '0'.toUInt8) := by
  intro p _
  obtain ⟨rest, hp | hp⟩ := h p
  · exact ⟨_, by rw [pointBytes, pointHex, asBytes_encode, hp]; rfl, rfl⟩
  · exact ⟨_, by rw [pointBytes, pointHex, asBytes_encode, hp]; rfl, rfl⟩

theorem hyphen_not_mem_pointBytes (p : PublicKey) : '-'.toUInt8 ∉ pointBytes p := by
  have hdigit : ∀ n < 16, (Hex.digit n).toUInt8 ≠ '-'.toUInt8 := by decide
  rw [pointBytes, pointHex, asBytes_encode]
  intro hmem
  obtain ⟨b, -, hb⟩ := List.mem_flatMap.1 hmem
  have hlt := b.toNat_lt
  rcases List.mem_cons.1 hb with heq | hb
  · exact hdigit _ (by omega) heq.symm
  · exact hdigit _ (by omega) (List.mem_singleton.1 hb).symm

/-! ### The message -/

def inputBytes (input : String × PublicKey) : List UInt8 := asBytes input.1 ++ pointBytes input.2

def outputBytes (output : UInt64 × PublicKey) : List UInt8 := amountBytes output.1 ++ pointBytes output.2

def inputParts (inputs : List Proof) : List (String × PublicKey) := inputs.map fun p => (p.secret, p.c)

def outputParts (outputs : List BlindedMessage) : List (UInt64 × PublicKey) := outputs.map fun o => (o.amount, o.b)

theorem asBytes_sigAllMessage (inputs : List Proof) (outputs : Option (List BlindedMessage)) (quoteId : Option String) :
    asBytes (sigAllMessage inputs outputs quoteId) = (inputParts inputs).flatMap inputBytes ++
      ((outputParts (outputs.getD [])).flatMap outputBytes ++ asBytes (quoteId.getD "")) := by
  simp only [sigAllMessage, asBytes_append, asBytes_join, List.flatMap_map, inputParts, outputParts, List.append_assoc]
  rfl

theorem inputBytes_prefixCode (h : CompressedPoints) :
    PrefixCode (fun input : String × PublicKey => Json.IsArrayDocument input.1) inputBytes := by
  rintro ⟨s, p⟩ ⟨s', p'⟩ x y ⟨items, hs⟩ ⟨items', hs'⟩ heq
  -- the point begins with a digit, so the whitespace after a document ends before it
  have hws : ∀ (p : PublicKey) (x : List UInt8), Json.skipWs (pointBytes p ++ x) = pointBytes p ++ x := by
    intro p x
    obtain ⟨c, hc, rfl⟩ := pointBytes_beginsIn h p trivial
    cases hp : pointBytes p with
    | nil => rw [hp] at hc; cases hc
    | cons b bs =>
      rw [hp] at hc
      obtain rfl : b = '0'.toUInt8 := by simpa using hc
      rfl
  simp only [inputBytes, List.append_assoc] at heq
  have hpoints := Json.arrayDocument_append_inj hs hs' (hws p x) (hws p' y) heq
  have hsecret : asBytes s = asBytes s' := List.append_cancel_right (heq.trans (by rw [hpoints]))
  obtain ⟨rfl, hxy⟩ := pointBytes_prefixCode p p' x y trivial trivial hpoints
  exact ⟨Prod.ext (asBytes_injective hsecret) rfl, hxy⟩

theorem inputBytes_beginsIn : BeginsIn (fun input : String × PublicKey => Json.IsArrayDocument input.1) inputBytes
    Json.beginsDocument := by
  rintro ⟨s, p⟩ hs
  obtain ⟨c, hc, hbegins⟩ := Json.isArrayDocument_beginsIn s hs
  exact ⟨c, by rw [inputBytes, List.head?_append, Option.mem_def.1 hc]; rfl, hbegins⟩

theorem outputBytes_prefixCode (h : CompressedPoints) :
    PrefixCode (fun output : UInt64 × PublicKey => output.1 ∈ denominations) outputBytes := by
  have hcode := PrefixCode.append_of_stops amountBytes_ne_zero amountBytes_inj pointBytes_prefixCode
    fun p hp => by
      obtain ⟨c, hc, rfl⟩ := pointBytes_beginsIn h p hp
      exact ⟨_, hc, not_not.2 rfl⟩
  intro o o' x y ho ho' heq
  exact hcode o o' x y ⟨ho, trivial⟩ ⟨ho', trivial⟩ heq

theorem outputBytes_beginsIn : BeginsIn (fun output : UInt64 × PublicKey => output.1 ∈ denominations) outputBytes
    fun c => Json.isDigit c = true := by
  rintro ⟨a, p⟩ ha
  obtain ⟨c, hc, hdigit⟩ := amountBytes_beginsIn a ha
  exact ⟨c, by rw [outputBytes, List.head?_append, Option.mem_def.1 hc]; rfl, hdigit⟩

/-! ### Transactions -/

/-- The text of a UUID: 36 characters, hyphens after the eighth and three more groups of four. -/
def IsUuid (s : String) : Prop := (asBytes s).length = 36 ∧ ∀ i c, (asBytes s)[i]? = some c →
  if i ∈ [8, 13, 18, 23] then c = '-'.toUInt8 else (Json.hexDigit c).isSome = true

/-- A swap of inputs with spending conditions for outputs of the keyset's amounts. -/
structure SwapRequest.Conditional (swap : SwapRequest) : Prop where
  secrets : ∀ p ∈ swap.inputs, (Secret.parse p.secret).isSome = true
  amounts : ∀ o ∈ swap.outputs, o.amount ∈ denominations

def SwapRequest.message (swap : SwapRequest) : String := sigAllMessage swap.inputs (some swap.outputs) none

def MeltRequest.message (melt : MeltRequest) : String := sigAllMessage melt.inputs melt.outputs (some melt.quote)

/-- A message that is not empty ends in a point. -/
theorem SwapRequest.message_ends (swap : SwapRequest) :
    asBytes swap.message = [] ∨ ∃ p, pointBytes p <:+ asBytes swap.message := by
  have hlast : ∀ {α : Type} (enc : α → List UInt8) (point : α → PublicKey), (∀ a, pointBytes (point a) <:+ enc a) →
      ∀ l : List α, l = [] ∨ ∃ p, pointBytes p <:+ l.flatMap enc := by
    intro α enc point hsuf l
    rcases List.eq_nil_or_concat l with rfl | ⟨init, a, rfl⟩
    · exact .inl rfl
    · right
      refine ⟨point a, ?_⟩
      rw [List.concat_eq_append, List.flatMap_append, List.flatMap_singleton]
      exact (hsuf a).trans (List.suffix_append _ _)
  have hempty : asBytes "" = [] := rfl
  rw [message, asBytes_sigAllMessage, Option.getD_none, Option.getD_some, hempty, List.append_nil]
  rcases hlast outputBytes Prod.snd (fun _ => List.suffix_append _ _) (outputParts swap.outputs) with hnil | ⟨p, hp⟩
  · rcases hlast inputBytes Prod.snd (fun _ => List.suffix_append _ _) (inputParts swap.inputs) with hnil' | ⟨p, hp⟩
    · left; rw [hnil, hnil']; rfl
    · right; exact ⟨p, by rw [hnil]; simpa using hp⟩
  · right; exact ⟨p, hp.trans (List.suffix_append _ _)⟩

/-- The message of a swap says what its inputs and outputs are, in order, and is not the message of a melt. -/
structure SigAllCommits (swap : SwapRequest) : Prop where
  swaps : ∀ swap' : SwapRequest, swap'.Conditional → swap.message = swap'.message →
    swap.inputs.map (fun p => (p.secret, p.c)) = swap'.inputs.map (fun p => (p.secret, p.c)) ∧
      swap.outputs.map (fun o => (o.amount, o.b)) = swap'.outputs.map fun o => (o.amount, o.b)
  melts : ∀ melt : MeltRequest, IsUuid melt.quote → melt.message ≠ swap.message

theorem sig_all_commits (hpoints : CompressedPoints) {swap : SwapRequest} (hswap : swap.Conditional) :
    SigAllCommits swap := by
  constructor
  · intro swap' hswap' heq
    have hbytes := congrArg asBytes heq
    rw [SwapRequest.message, SwapRequest.message, asBytes_sigAllMessage, asBytes_sigAllMessage] at hbytes
    simp only [Option.getD_none, Option.getD_some] at hbytes
    have hins : ∀ {s : SwapRequest}, s.Conditional → ∀ i ∈ inputParts s.inputs, Json.IsArrayDocument i.1 := by
      intro s hs i hi
      obtain ⟨p, hp, rfl⟩ := List.mem_map.1 hi
      exact isArrayDocument_of_secret (hs.secrets p hp)
    have houts : ∀ {s : SwapRequest}, s.Conditional → ∀ o ∈ outputParts s.outputs, o.1 ∈ denominations := by
      intro s hs o ho
      obtain ⟨o', ho', rfl⟩ := List.mem_map.1 ho
      exact hs.amounts o' ho'
    have hstops : ∀ {s : SwapRequest}, s.Conditional →
        Stops Json.beginsDocument ((outputParts s.outputs).flatMap outputBytes ++ asBytes "") :=
      fun hs => outputBytes_beginsIn.stops_flatMap isDigit_not_beginsDocument (houts hs) (stops_nil _)
    obtain ⟨hinputs, hrest⟩ := (inputBytes_prefixCode hpoints).flatMap inputBytes_beginsIn (hins hswap) (hins hswap')
      (hstops hswap) (hstops hswap') hbytes
    obtain ⟨houtputs, -⟩ := (outputBytes_prefixCode hpoints).flatMap outputBytes_beginsIn (houts hswap) (houts hswap')
      (stops_nil _) (stops_nil _) hrest
    exact ⟨hinputs, houtputs⟩
  · intro melt ⟨hlength, hform⟩ heq
    have hhyphen : '-'.toUInt8 ∈ asBytes melt.quote := by
      have hlt : 23 < (asBytes melt.quote).length := by omega
      have h := hform 23 _ (List.getElem?_eq_getElem hlt)
      rw [if_pos (by decide)] at h
      rw [← h]
      exact List.getElem_mem hlt
    have hsuf : asBytes melt.quote <:+ asBytes swap.message := by
      rw [← heq, MeltRequest.message, asBytes_sigAllMessage, ← List.append_assoc]
      exact List.suffix_append _ _
    rcases swap.message_ends with hnil | ⟨p, hp⟩
    · rw [hnil, List.suffix_nil] at hsuf
      rw [hsuf] at hhyphen
      cases hhyphen
    · have hle : (asBytes melt.quote).length ≤ (pointBytes p).length := by rw [hlength, pointBytes_length]; decide
      have hsub := List.suffix_of_suffix_length_le hsuf hp hle
      exact hyphen_not_mem_pointBytes p (hsub.subset hhyphen)

end

section toy
open Toy

/-- A swap of a coin that is locked to a key with SIG_ALL. -/
def sigAllSwap : SwapRequest where
  inputs := [coin 2 ("[\"P2PK\",\x7b\"nonce\":\"00\",\"data\":\"" ++ pointHex (7 : UInt8) ++
    "\",\"tags\":[[\"sigflag\",\"SIG_ALL\"]]\x7d]")]
  outputs := [⟨1, "00c0ffee", (5 : UInt8)⟩, ⟨1, "00c0ffee", (6 : UInt8)⟩]

theorem sig_all_commits_toy : SigAllCommits sigAllSwap :=
  sig_all_commits (fun _ => ⟨_, .inl rfl⟩) ⟨by decide +kernel, by decide +kernel⟩

end toy

end Micronuts
