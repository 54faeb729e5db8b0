import Micronuts.Lib.Decoder
import Micronuts.Nuts.Nut20

/-!
# V4 tokens (`cashu-core-lite`: `token.rs`, `nuts/nut12.rs`)

The CBOR reader of a token, over the primitives of `minicbor`, and the base64url text around it. Every loop over an
indefinite map or array takes a byte in each round, so the fuel that the length of the input gives is enough
(`foreachKey_indefinite`, `decodeArray_indefinite`).
-/

namespace Micronuts

/-- `minicbor::Decoder`: a decoder stands for its position, as the bytes not read yet. -/
class Minicbor where
  map : Decoder UInt8 (Option UInt64)
  array : Decoder UInt8 (Option UInt64)
  str : Decoder UInt8 String
  bytes : Decoder UInt8 (List UInt8)
  u64 : Decoder UInt8 UInt64
  skip : Decoder UInt8 Unit
  -- `datatype()? == Type::Break`, which reads nothing
  isBreak : List UInt8 → Option Bool
  map_consumes : Decoder.Consumes map
  array_consumes : Decoder.Consumes array
  str_consumes : Decoder.Consumes str
  bytes_consumes : Decoder.Consumes bytes
  u64_consumes : Decoder.Consumes u64
  skip_consumes : Decoder.Consumes skip

section
variable [Minicbor]

/-- `minicbor::decode`: what follows the value is not looked at. -/
def minicborDecode {α : Type} (decoder : Decoder UInt8 α) (bytes : List UInt8) : Option α :=
  (decoder bytes).map Prod.fst

/-! ### Maps and arrays -/

/-- The end of an indefinite map or array, and the step over it. -/
def atBreak : Decoder UInt8 Bool := do
  if ← (fun bs => (Minicbor.isBreak bs).map (·, bs)) then
    Minicbor.skip
    pure true
  else pure false

def entry {σ : Type} (onEntry : String → σ → Decoder UInt8 σ) (acc : σ) : Decoder UInt8 σ := do
  let key ← Minicbor.str
  onEntry key acc

def foreachKey {σ : Type} (onEntry : String → σ → Decoder UInt8 σ) (acc : σ) : Decoder UInt8 σ := do
  match ← Minicbor.map with
  | some n => Decoder.times (entry onEntry) n.toNat acc
  | none => Decoder.loop atBreak (entry onEntry) acc

def push {α : Type} (item : Decoder UInt8 α) (out : List α) : Decoder UInt8 (List α) := do
  let a ← item
  pure (out ++ [a])

def decodeArray {α : Type} (item : Decoder UInt8 α) : Decoder UInt8 (List α) := do
  match ← Minicbor.array with
  | some n => Decoder.times (push item) n.toNat []
  | none => Decoder.loop atBreak (push item) []

section fuel
open Decoder
variable {σ α : Type} {onEntry : String → σ → Decoder UInt8 σ} {item : Decoder UInt8 α}

theorem atBreak_shrinks : Shrinks atBreak := by
  have hpeek : Shrinks (fun bs => (Minicbor.isBreak bs).map (·, bs) : Decoder UInt8 Bool) := by
    intro input b rest h
    obtain ⟨_, -, h⟩ := Option.map_eq_some_iff.1 h
    cases h
    exact le_refl _
  refine hpeek.bind fun stopped => ?_
  cases stopped with
  | true => exact Minicbor.skip_consumes.shrinks.bind fun _ => .pure true
  | false => exact .pure false

theorem entry_consumes (h : ∀ key acc, Shrinks (onEntry key acc)) (acc : σ) : Consumes (entry onEntry acc) :=
  Minicbor.str_consumes.bind fun key => h key acc

omit [Minicbor] in
theorem push_consumes (h : Consumes item) (out : List α) : Consumes (push item out) :=
  h.bind fun a => .pure (out ++ [a])

theorem foreachKey_consumes (h : ∀ key acc, Shrinks (onEntry key acc)) (acc : σ) : Consumes (foreachKey onEntry acc) := by
  refine Minicbor.map_consumes.bind fun len => ?_
  have hentry := fun acc => (entry_consumes h acc).shrinks
  cases len with
  | some n => exact Shrinks.times hentry n.toNat acc
  | none => exact Shrinks.loop atBreak_shrinks hentry acc

theorem decodeArray_consumes (h : Consumes item) : Consumes (decodeArray item) := by
  refine Minicbor.array_consumes.bind fun len => ?_
  have hpush := fun out => (push_consumes h out).shrinks
  cases len with
  | some n => exact Shrinks.times hpush n.toNat []
  | none => exact Shrinks.loop atBreak_shrinks hpush []

theorem foreachKey_indefinite (h : ∀ key acc, Shrinks (onEntry key acc)) {n : Nat} {bs : List UInt8} (hn : bs.length < n)
    (acc : σ) : loop atBreak (entry onEntry) acc bs = untilStop atBreak (entry onEntry) n acc bs :=
  loop_eq_untilStop atBreak_shrinks (entry_consumes h) hn acc

theorem decodeArray_indefinite (h : Consumes item) {n : Nat} {bs : List UInt8} (hn : bs.length < n) :
    loop atBreak (push item) [] bs = untilStop atBreak (push item) n [] bs :=
  loop_eq_untilStop atBreak_shrinks (push_consumes h) hn []

end fuel

/-! ### Tokens -/

variable [Crypto]

/-- A scalar of a DLEQ proof: a byte string. -/
def decodeScalar : Decoder UInt8 SecretKey := do
  let bytes ← Minicbor.bytes
  (Crypto.fromSlice bytes : Option SecretKey)

structure DleqFields where
  e : Option SecretKey := none
  s : Option SecretKey := none
  r : Option SecretKey := none

def ProofDleq.onEntry (key : String) (f : DleqFields) : Decoder UInt8 DleqFields := do
  if key = "e" then
    let e ← decodeScalar
    pure { f with e := some e }
  else if key = "s" then
    let s ← decodeScalar
    pure { f with s := some s }
  else if key = "r" then
    let r ← decodeScalar
    pure { f with r := some r }
  else
    Minicbor.skip
    pure f

/-- The source writes the loop of `foreach_key` out, up to `u64::MAX` rounds. -/
def ProofDleq.decode : Decoder UInt8 ProofDleq := do
  let f ← foreachKey ProofDleq.onEntry {}
  let e ← f.e
  let s ← f.s
  let r ← f.r
  pure ⟨e, s, r⟩

namespace Token

/-- `token::Proof`: the signature as bytes, the keyset's id from the group. -/
structure Proof where
  amount : UInt64
  keysetId : String
  secret : String
  c : List UInt8
  dleq : Option ProofDleq
deriving DecidableEq

structure ProofFields where
  amount : Option UInt64 := none
  secret : Option String := none
  c : Option (List UInt8) := none
  dleq : Option ProofDleq := none

def Proof.onEntry (key : String) (f : ProofFields) : Decoder UInt8 ProofFields := do
  if key = "a" then
    let amount ← Minicbor.u64
    pure { f with amount := some amount }
  else if key = "s" then
    let secret ← Minicbor.str
    pure { f with secret := some secret }
  else if key = "c" then
    let c ← Minicbor.bytes
    pure { f with c := some c }
  else if key = "d" then
    let dleq ← ProofDleq.decode
    pure { f with dleq := some dleq }
  else
    Minicbor.skip
    pure f

def Proof.decode : Decoder UInt8 Proof := do
  let f ← foreachKey Proof.onEntry {}
  let amount ← f.amount
  let secret ← f.secret
  let c ← f.c
  pure { amount, keysetId := "", secret, c, dleq := f.dleq }

end Token

structure TokenV4Token where
  keysetId : String
  proofs : List Token.Proof
deriving DecidableEq

structure GroupFields where
  keysetId : Option String := none
  proofs : Option (List Token.Proof) := none

def TokenV4Token.onEntry (key : String) (f : GroupFields) : Decoder UInt8 GroupFields := do
  if key = "i" then
    let bytes ← Minicbor.bytes
    pure { f with keysetId := some (Hex.encode bytes) }
  else if key = "p" then
    let proofs ← decodeArray Token.Proof.decode
    pure { f with proofs := some proofs }
  else
    Minicbor.skip
    pure f

def TokenV4Token.decode : Decoder UInt8 TokenV4Token := do
  let f ← foreachKey TokenV4Token.onEntry {}
  let keysetId ← f.keysetId
  let proofs ← f.proofs
  pure { keysetId, proofs := proofs.map fun proof => { proof with keysetId } }

structure TokenV4 where
  mint : String
  unit : String
  memo : Option String
  tokens : List TokenV4Token
deriving DecidableEq

structure TokenFields where
  mint : Option String := none
  unit : Option String := none
  memo : Option String := none
  tokens : Option (List TokenV4Token) := none

def TokenV4.onEntry (key : String) (f : TokenFields) : Decoder UInt8 TokenFields := do
  if key = "m" then
    let mint ← Minicbor.str
    pure { f with mint := some mint }
  else if key = "u" then
    let unit ← Minicbor.str
    pure { f with unit := some unit }
  else if key = "d" then
    let memo ← Minicbor.str
    pure { f with memo := some memo }
  else if key = "t" then
    let tokens ← decodeArray TokenV4Token.decode
    pure { f with tokens := some tokens }
  else
    Minicbor.skip
    pure f

def TokenV4.decode : Decoder UInt8 TokenV4 := do
  let f ← foreachKey TokenV4.onEntry {}
  let mint ← f.mint
  let unit ← f.unit
  let tokens ← f.tokens
  pure { mint, unit, memo := f.memo, tokens }

namespace TokenV4

def proofs (token : TokenV4) : List Token.Proof := token.tokens.flatMap TokenV4Token.proofs

/-- `iter().sum()`: `none` for the panic of an overflow check, else the sum wraps. -/
def sumU64 (overflowChecks : Bool) : List UInt64 → UInt64 → Option UInt64
  | [], acc => some acc
  | a :: as, acc =>
    if overflowChecks ∧ 2 ^ 64 ≤ acc.toNat + a.toNat then none else sumU64 overflowChecks as (acc + a)

def totalAmount (overflowChecks : Bool) (token : TokenV4) : Option UInt64 :=
  sumU64 overflowChecks (token.proofs.map Token.Proof.amount) 0

omit [Minicbor] [Crypto] in
theorem sumU64_eq_some {overflowChecks : Bool} {l : List UInt64} {acc total : UInt64}
    (h : sumU64 overflowChecks l acc = some total) :
    total.toNat = (acc.toNat + (l.map UInt64.toNat).sum) % 2 ^ 64 ∧
      (overflowChecks = true → acc.toNat + (l.map UInt64.toNat).sum < 2 ^ 64) := by
  induction l generalizing acc with
  | nil =>
    cases h
    have := total.toNat_lt
    simpa [Nat.mod_eq_of_lt this] using fun _ => this
  | cons a l ih =>
    unfold sumU64 at h
    split at h
    · cases h
    · next hfits =>
      obtain ⟨htotal, hsum⟩ := ih h
      have hstep : (acc + a).toNat = (acc.toNat + a.toNat) % 2 ^ 64 := UInt64.toNat_add acc a
      rw [List.map_cons, List.sum_cons]
      refine ⟨by omega, fun hchecks => ?_⟩
      have hlt : acc.toNat + a.toNat < 2 ^ 64 := by
        by_contra hge
        exact hfits ⟨hchecks, by omega⟩
      have := hsum hchecks
      omega

omit [Minicbor] in
/-- The total is that of the amounts modulo `2^64`, and exact under overflow checks. -/
theorem totalAmount_eq_some {overflowChecks : Bool} {token : TokenV4} {total : UInt64}
    (h : token.totalAmount overflowChecks = some total) :
    total.toNat = (token.proofs.map fun p => p.amount.toNat).sum % 2 ^ 64 ∧
      (overflowChecks = true → (token.proofs.map fun p => p.amount.toNat).sum < 2 ^ 64) := by
  have hmap : (token.proofs.map Token.Proof.amount).map UInt64.toNat = token.proofs.map fun p => p.amount.toNat := by
    simp
  have hsum := sumU64_eq_some h
  rw [hmap] at hsum
  simpa using hsum

end TokenV4

/-! ### The text of a token -/

/-- `slice::strip_prefix`. -/
def stripPrefix (bytes data : List UInt8) : Option (List UInt8) :=
  if bytes.isPrefixOf data then some (data.drop bytes.length) else none

/-- `DECODE_TABLE`, of both alphabets. -/
def base64Value (b : UInt8) : Option UInt8 :=
  if 65 ≤ b ∧ b ≤ 90 then some (b - 65)
  else if 97 ≤ b ∧ b ≤ 122 then some (b - 97 + 26)
  else if 48 ≤ b ∧ b ≤ 57 then some (b - 48 + 52)
  else if b = '+'.toUInt8 ∨ b = '-'.toUInt8 then some 62
  else if b = '/'.toUInt8 ∨ b = '_'.toUInt8 then some 63
  else none

/-- Groups of four digits, then a rest of two or three; a single digit at the end is dropped unread. -/
def decodeGroups : List UInt8 → Option (List UInt8)
  | a :: b :: c :: d :: rest => do
    let a ← base64Value a
    let b ← base64Value b
    let c ← base64Value c
    let d ← base64Value d
    let out ← decodeGroups rest
    pure ((a <<< 2 ||| b >>> 4) :: ((b &&& 0x0F) <<< 4 ||| c >>> 2) :: ((c &&& 0x03) <<< 6 ||| d) :: out)
  | [a, b, c] => do
    let a ← base64Value a
    let b ← base64Value b
    let c ← base64Value c
    pure [a <<< 2 ||| b >>> 4, (b &&& 0x0F) <<< 4 ||| c >>> 2]
  | [a, b] => do
    let a ← base64Value a
    let b ← base64Value b
    pure [a <<< 2 ||| b >>> 4]
  | _ => some []

/-- Padding at the end is taken off first. -/
def decodeBase64url (input : List UInt8) : Option (List UInt8) :=
  decodeGroups (input.reverse.dropWhile (· = '='.toUInt8)).reverse

def base64Char (n : UInt32) : Char :=
  let n := n.toNat
  Char.ofNat (if n < 26 then 65 + n else if n < 52 then 71 + n else if n < 62 then n - 4 else if n = 62 then 45 else 95)

/-- Three bytes in four characters; a shorter rest gives one more character than it has bytes. -/
def encodeChunks : List UInt8 → List Char
  | a :: b :: c :: rest =>
    let n := a.toUInt32 <<< 16 ||| b.toUInt32 <<< 8 ||| c.toUInt32
    base64Char (n >>> 18 &&& 63) :: base64Char (n >>> 12 &&& 63) :: base64Char (n >>> 6 &&& 63) ::
      base64Char (n &&& 63) :: encodeChunks rest
  | [a, b] =>
    let n := a.toUInt32 <<< 16 ||| b.toUInt32 <<< 8
    [base64Char (n >>> 18 &&& 63), base64Char (n >>> 12 &&& 63), base64Char (n >>> 6 &&& 63)]
  | [a] =>
    let n := a.toUInt32 <<< 16
    [base64Char (n >>> 18 &&& 63), base64Char (n >>> 12 &&& 63)]
  | [] => []

def encodeBase64url (input : List UInt8) : String := String.ofList (encodeChunks input)

example : encodeBase64url [0xa3, 0x61, 0x6d, 0x61] = "o2FtYQ" ∧
    decodeBase64url (asBytes "o2FtYQ") = some [0xa3, 0x61, 0x6d, 0x61] := by
  decide +kernel

/-- Base64url first, then the bytes as they are. -/
def decodeToken (data : List UInt8) : Option TokenV4 :=
  let payload := ((stripPrefix (asBytes "cashuB") data).or (stripPrefix (asBytes "crawB") data)).getD data
  ((decodeBase64url payload).bind (minicborDecode TokenV4.decode)).or (minicborDecode TokenV4.decode payload)

end

/-! ### An instance to read tokens with -/

namespace ToyCbor
open Decoder

def next : Decoder UInt8 UInt8
  | [] => none
  | b :: bs => some (b, bs)

def takeBytes (n : Nat) : Decoder UInt8 (List UInt8) := fun bs =>
  if n ≤ bs.length then some (bs.take n, bs.drop n) else none

/-- The argument in the additional information or in the bytes after it. -/
def argument (info : UInt8) : Decoder UInt8 Nat :=
  if info < 24 then pure info.toNat
  else if info = 31 then pure 0
  else if 27 < info then failure
  else do
    let bs ← takeBytes (2 ^ (info.toNat - 24))
    pure (bs.foldl (fun acc b => 256 * acc + b.toNat) 0)

/-- The head of an item: major type, additional information, argument. -/
def head : Decoder UInt8 (UInt8 × UInt8 × Nat) := do
  let b ← next
  let n ← argument (b &&& 31)
  pure (b >>> 5, b &&& 31, n)

/-- The length of a map or array, `none` for an indefinite one. -/
def lengthOf (major : UInt8) : Decoder UInt8 (Option UInt64) := do
  let (m, info, n) ← head
  if m ≠ major then failure
  else pure (if info = 31 then none else some (UInt64.ofNat n))

/-- The bytes of a definite string. -/
def payload (major : UInt8) : Decoder UInt8 (List UInt8) := do
  let (m, info, n) ← head
  if m ≠ major ∨ info = 31 then failure else takeBytes n

def text : Decoder UInt8 String := do
  let bs ← payload 3
  String.fromUTF8? ⟨⟨bs⟩⟩

def unsigned : Decoder UInt8 UInt64 := do
  let (m, info, n) ← head
  if m ≠ 0 ∨ info = 31 then failure else pure (UInt64.ofNat n)

/-- One item that holds no others. -/
def skipFlat : Decoder UInt8 Unit := do
  let (m, info, n) ← head
  if info ≠ 31 ∧ (m = 2 ∨ m = 3) then
    let _ ← takeBytes n
    pure ()
  else if m < 2 ∨ m = 7 then pure ()
  else failure

theorem takeBytes_shrinks (n : Nat) : Shrinks (takeBytes n) := by
  intro input a rest h
  unfold takeBytes at h
  split at h
  · cases h
    simp
  · cases h

theorem head_consumes : Consumes head := by
  refine Consumes.bind ?_ fun b => Shrinks.bind ?_ fun n => .pure _
  · intro input b rest h
    cases input with
    | nil => cases h
    | cons a bs =>
      cases h
      simp
  · unfold argument
    split_ifs
    · exact .pure _
    · exact .pure _
    · exact .failure
    · exact (takeBytes_shrinks _).bind fun _ => .pure _

theorem lengthOf_consumes (major : UInt8) : Consumes (lengthOf major) := by
  refine head_consumes.bind fun ⟨m, info, n⟩ => ?_
  dsimp only
  split_ifs
  · exact .failure
  · exact .pure _
  · exact .pure _

theorem payload_consumes (major : UInt8) : Consumes (payload major) := by
  refine head_consumes.bind fun ⟨m, info, n⟩ => ?_
  dsimp only
  split_ifs
  · exact .failure
  · exact takeBytes_shrinks n

theorem text_consumes : Consumes text := by
  refine (payload_consumes 3).bind fun bs => ?_
  intro input s rest h
  obtain ⟨_, -, h⟩ := Option.bind_eq_some_iff.1 h
  cases h
  exact le_refl _

theorem unsigned_consumes : Consumes unsigned := by
  refine head_consumes.bind fun ⟨m, info, n⟩ => ?_
  dsimp only
  split_ifs
  · exact .failure
  · exact .pure _

theorem skipFlat_consumes : Consumes skipFlat := by
  refine head_consumes.bind fun ⟨m, info, n⟩ => ?_
  dsimp only
  split_ifs
  · exact (takeBytes_shrinks n).bind fun _ => .pure ()
  · exact .pure ()
  · exact .failure

scoped instance minicbor : Minicbor where
  map := lengthOf 5
  array := lengthOf 4
  str := text
  bytes := payload 2
  u64 := unsigned
  skip := skipFlat
  isBreak bs := bs.head?.map (· = 0xFF)
  map_consumes := lengthOf_consumes 5
  array_consumes := lengthOf_consumes 4
  str_consumes := text_consumes
  bytes_consumes := payload_consumes 2
  u64_consumes := unsigned_consumes
  skip_consumes := skipFlat_consumes

end ToyCbor

end Micronuts
