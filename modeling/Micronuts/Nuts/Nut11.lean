import Micronuts.Crypto
import Micronuts.Lib.Checked
import Micronuts.Lib.Exec
import Micronuts.Nuts.Nut10

/-!
# NUT-11: pay to public key (`cashu-core-lite`: `nuts/nut11.rs`)

The condition tags, the P2PK conditions built from them, and the pathways a lock offers at a moment.
The primary pathway is always open; the refund pathway opens when `locktime` has passed, and needs
no signature when there are no refund keys.
-/

namespace Micronuts

inductive SigFlag
  | sigInputs
  | sigAll
deriving DecidableEq, Repr

def SigFlag.parse : String → Option SigFlag
  | "SIG_INPUTS" => some .sigInputs
  | "SIG_ALL" => some .sigAll
  | _ => none

inductive P2pkError
  | kindMismatch
  | invalidDataPubkey
  | emptyTag
  | invalidTagValue
  | unknownSigFlag
  | duplicateTag
  | zeroSignatures
  | impossibleMultisig (required available : Nat)
  | duplicatePubkey
deriving DecidableEq, Repr

/-- `u64::from_str`: decimal digits, after an optional plus sign. -/
def parseU64 (s : String) : Option UInt64 :=
  let bytes := asBytes s
  let digits := if bytes.head? = some '+'.toUInt8 then bytes.tail else bytes
  if digits = [] then none
  else digits.foldlM (fun acc b => do
    if Json.isDigit b then UInt64.checkedAdd (← UInt64.checkedMul acc 10) (b - '0'.toUInt8).toUInt64
    else none) 0

/-! ### Decimal text of a number -/

/-- A round of `parseU64`. -/
def readDigit (acc : UInt64) (b : UInt8) : Option UInt64 := do
  if Json.isDigit b then UInt64.checkedAdd (← UInt64.checkedMul acc 10) (b - '0'.toUInt8).toUInt64
  else none

theorem readDigit_digitChar {n d : Nat} (hd : d < 10) (hn : 10 * n + d < 2 ^ 64) :
    readDigit (UInt64.ofNat n) (UInt8.ofNat (48 + d)) = some (UInt64.ofNat (10 * n + d)) := by
  have hdigit : ∀ d < 10, Json.isDigit (UInt8.ofNat (48 + d)) = true ∧
      (UInt8.ofNat (48 + d) - '0'.toUInt8).toUInt64 = UInt64.ofNat d := by decide
  obtain ⟨his, hvalue⟩ := hdigit d hd
  have hmul : UInt64.checkedMul (UInt64.ofNat n) 10 = some (UInt64.ofNat (10 * n)) := by
    rw [UInt64.checkedMul_eq_some, UInt64.toNat_ofNat_of_lt' (show n < 2 ^ 64 by omega),
      UInt64.toNat_ofNat_of_lt' (show 10 * n < 2 ^ 64 by omega)]
    exact Nat.mul_comm 10 n
  have hadd : UInt64.checkedAdd (UInt64.ofNat (10 * n)) (UInt64.ofNat d) = some (UInt64.ofNat (10 * n + d)) := by
    rw [UInt64.checkedAdd_eq_some, UInt64.toNat_ofNat_of_lt' hn, UInt64.toNat_ofNat_of_lt' (show 10 * n < 2 ^ 64 by omega),
      UInt64.toNat_ofNat_of_lt' (show d < 2 ^ 64 by omega)]
  rw [readDigit, if_pos his, hvalue, hmul]
  exact hadd

theorem readDigits {n : Nat} (hn : n < 2 ^ 64) :
    ((Nat.toDigits 10 n).flatMap String.utf8EncodeChar).foldlM readDigit 0 = some (UInt64.ofNat n) := by
  have hbyte : ∀ d < 10, String.utf8EncodeChar (Nat.digitChar d) = [UInt8.ofNat (48 + d)] := by decide
  induction n using Nat.strongRecOn with
  | ind n ih =>
    by_cases hlt : n < 10
    · have := @readDigit_digitChar 0 n hlt (by omega)
      rw [Nat.mul_zero, Nat.zero_add] at this
      rw [Nat.toDigits_of_lt_base hlt, List.flatMap_singleton, hbyte n hlt, List.foldlM_cons]
      show (readDigit (UInt64.ofNat 0) _).bind _ = _
      rw [this]
      rfl
    · have hmod := Nat.mod_lt n (by decide : 0 < 10)
      have hsplit : 10 * (n / 10) + n % 10 = n := Nat.div_add_mod n 10
      have hread := readDigit_digitChar hmod (by omega : 10 * (n / 10) + n % 10 < 2 ^ 64)
      rw [hsplit] at hread
      rw [Nat.toDigits_of_base_le (by decide) (by omega), List.flatMap_append, List.foldlM_append,
        ih (n / 10) (by omega) (by omega), List.flatMap_singleton, hbyte _ hmod]
      show (readDigit _ _).bind _ = _
      rw [hread]
      rfl

theorem parseU64_toString (n : UInt64) : parseU64 (toString n) = some n := by
  have hbytes : asBytes (toString n) = (Nat.toDigits 10 n.toNat).flatMap String.utf8EncodeChar := by
    have htoString : toString n = String.ofList (Nat.toDigits 10 n.toNat) := Nat.toString_eq_ofList_toDigits
    rw [asBytes_eq_flatMap, htoString, String.toList_ofList]
  have hplus : ¬ (asBytes (toString n)).head? = some '+'.toUInt8 := by
    intro hhead
    obtain ⟨tail, htail⟩ := List.head?_eq_some_iff.1 hhead
    have hread := readDigits n.toNat_lt
    rw [← hbytes, htail] at hread
    cases hread
  have hne : asBytes (toString n) ≠ [] := by
    intro hnil
    have hempty := congrArg String.toList (@asBytes_injective (toString n) "" hnil)
    rw [show toString n = String.ofList (Nat.toDigits 10 n.toNat) from Nat.toString_eq_ofList_toDigits,
      String.toList_ofList] at hempty
    exact Nat.toDigits_ne_nil hempty
  rw [parseU64, if_neg hplus, if_neg hne, hbytes]
  have := readDigits n.toNat_lt
  rw [UInt64.ofNat_toNat] at this
  exact this

/-! ### Condition tags -/

variable [Crypto]

/-- `x.copy_from_slice(&compressed[1..33])`: a key without its parity byte. -/
def xCoordinate (p : PublicKey) : List UInt8 := (Crypto.toBytes p).drop 1

def duplicateXFrom (seen : List (List UInt8)) : List PublicKey → Bool
  | [] => false
  | p :: ps => if seen.contains (xCoordinate p) then true else duplicateXFrom (xCoordinate p :: seen) ps

def hasDuplicateXCoordinates (pubkeys : List PublicKey) : Bool := duplicateXFrom [] pubkeys

def parseCompressedPubkey (hexStr : String) : Option PublicKey := do
  let bytes ← Hex.decode hexStr
  if bytes.length = 33 then Crypto.fromBytes bytes else none

/-- The keys of a `pubkeys` or `refund` row, after its name. -/
def parsePubkeyRow (row : List String) : Except P2pkError (List PublicKey) :=
  (row.drop 1).mapM fun value => Except.okOr (parseCompressedPubkey value) .invalidTagValue

structure ConditionTags where
  pubkeys : List PublicKey := []
  numSigs : Option UInt64 := none
  locktime : Option UInt64 := none
  refundKeys : List PublicKey := []
  numSigsRefund : Option UInt64 := none
  sigflag : SigFlag := .sigInputs
deriving DecidableEq

/-- The `saw_*` markers: which known tags have been read. -/
structure SeenTags where
  sigflag : Bool := false
  pubkeys : Bool := false
  nSigs : Bool := false
  locktime : Bool := false
  refund : Bool := false
  nSigsRefund : Bool := false
deriving DecidableEq

/-- `value()?`: the first value of a row. -/
def tagValue (row : List String) : Except P2pkError String :=
  Except.okOr row[1]? .invalidTagValue

def tagU64 (row : List String) : Except P2pkError UInt64 := do
  Except.okOr (parseU64 (← tagValue row)) .invalidTagValue

/-- A signature threshold: a positive integer. -/
def tagCount (row : List String) : Except P2pkError UInt64 := do
  let count ← tagU64 row
  if count = 0 then .error .zeroSignatures else .ok count

def once (saw : Bool) : Except P2pkError Unit := if saw then .error .duplicateTag else .ok ()

/-- The body of the loop over the tag rows. -/
def parseTagRow (acc : ConditionTags × SeenTags) (row : List String) : Except P2pkError (ConditionTags × SeenTags) :=
  let (parsed, saw) := acc
  match row.head? with
  | none => .error .emptyTag
  | some "sigflag" => do
    once saw.sigflag
    let flag ← Except.okOr (SigFlag.parse (← tagValue row)) .unknownSigFlag
    pure ({ parsed with sigflag := flag }, { saw with sigflag := true })
  | some "pubkeys" => do
    once saw.pubkeys
    let keys ← parsePubkeyRow row
    pure ({ parsed with pubkeys := keys }, { saw with pubkeys := true })
  | some "n_sigs" => do
    once saw.nSigs
    let count ← tagCount row
    pure ({ parsed with numSigs := some count }, { saw with nSigs := true })
  | some "locktime" => do
    once saw.locktime
    let time ← tagU64 row
    pure ({ parsed with locktime := some time }, { saw with locktime := true })
  | some "refund" => do
    once saw.refund
    let keys ← parsePubkeyRow row
    if keys = [] then .error (.impossibleMultisig 1 0)
    else pure ({ parsed with refundKeys := keys }, { saw with refund := true })
  | some "n_sigs_refund" => do
    once saw.nSigsRefund
    let count ← tagCount row
    pure ({ parsed with numSigsRefund := some count }, { saw with nSigsRefund := true })
  | some _ => pure (parsed, saw)

/-- `required` signatures out of `available` keys, where a threshold is given. -/
def checkMultisig (required : Option UInt64) (available : Nat) : Except P2pkError Unit :=
  match required with
  | some n => if available < n.toNat then .error (.impossibleMultisig n.toNat available) else .ok ()
  | none => .ok ()

def parseConditionTags (tags : List (List String)) : Except P2pkError ConditionTags := do
  let (parsed, _) ← tags.foldlM parseTagRow ({}, {})
  checkMultisig parsed.numSigsRefund parsed.refundKeys.length
  pure parsed

structure P2pkConditions where
  dataPubkey : PublicKey
  pubkeys : List PublicKey
  numSigs : Option UInt64
  locktime : Option UInt64
  refundKeys : List PublicKey
  numSigsRefund : Option UInt64
  sigflag : SigFlag
deriving DecidableEq

structure RefundPath where
  pubkeys : List PublicKey
  requiredSigs : UInt64
deriving DecidableEq

namespace RefundPath

def anyone : RefundPath := ⟨[], 0⟩

def isAnyoneCanSpend (r : RefundPath) : Bool := r.requiredSigs = 0

end RefundPath

structure SpendingRequirements where
  pubkeys : List PublicKey
  requiredSigs : UInt64
  refundPath : Option RefundPath
deriving DecidableEq

/-- The refund pathway at `now`, the same for both kinds of lock. -/
def refundPathAt (locktime : Option UInt64) (refundKeys : List PublicKey) (numSigsRefund : Option UInt64)
    (now : UInt64) : Option RefundPath :=
  if locktime.any (· < now) then
    some (if refundKeys = [] then .anyone else ⟨refundKeys, numSigsRefund.getD 1⟩)
  else none

namespace P2pkConditions

def fromSecret (secret : Secret) : Except P2pkError P2pkConditions := do
  if secret.kind ≠ .p2pk then .error .kindMismatch
  else
    let dataPubkey ← Except.okOr (parseCompressedPubkey secret.data) .invalidDataPubkey
    let tags ← parseConditionTags secret.tagRows
    checkMultisig tags.numSigs (1 + tags.pubkeys.length)
    if hasDuplicateXCoordinates (dataPubkey :: tags.pubkeys) then .error .duplicatePubkey
    else if hasDuplicateXCoordinates tags.refundKeys then .error .duplicatePubkey
    else
      pure { dataPubkey, pubkeys := tags.pubkeys, numSigs := tags.numSigs, locktime := tags.locktime,
             refundKeys := tags.refundKeys, numSigsRefund := tags.numSigsRefund, sigflag := tags.sigflag }

def signingPubkeys (c : P2pkConditions) : List PublicKey := c.dataPubkey :: c.pubkeys

def requiredSigs (c : P2pkConditions) : UInt64 := c.numSigs.getD 1

def requirementsAt (c : P2pkConditions) (now : UInt64) : SpendingRequirements where
  pubkeys := c.signingPubkeys
  requiredSigs := c.requiredSigs
  refundPath := refundPathAt c.locktime c.refundKeys c.numSigsRefund now

end P2pkConditions

structure P2pkWitness where
  signatures : List String
deriving DecidableEq

def P2pkWitness.fromJson (raw : String) : Option P2pkWitness := do
  let document ← Json.parse raw
  let array ← (← document.get "signatures").asArray
  pure ⟨← array.mapM Json.asStr⟩

/-! ### The text of a witness -/

/-- `char::is_control`. -/
def isControl (c : Char) : Bool := c.toNat < 0x20 || (0x7F ≤ c.toNat && c.toNat < 0xA0)

/-- One character of `json_escape`; every UTF-8 byte of a control character is escaped on its own. -/
def jsonEscapeChar (c : Char) : String :=
  if c = '"' then "\\\""
  else if c = '\\' then "\\\\"
  else if isControl c then
    String.join ((String.utf8EncodeChar c).map fun b =>
      "\\u00" ++ String.ofList [Hex.digit (b.toNat / 16), Hex.digit (b.toNat % 16)])
  else String.singleton c

def jsonEscape (raw : String) : String := "\"" ++ String.join (raw.toList.map jsonEscapeChar) ++ "\""

def P2pkWitness.toJson (w : P2pkWitness) : String :=
  "\x7b\"signatures\":[" ++ ",".intercalate (w.signatures.map jsonEscape) ++ "]\x7d"

end Micronuts
