import Mathlib.Algebra.Ring.Nat
import Mathlib.Data.List.Basic

/-!
# The strict JSON scanner (`cashu-core-lite`: `nuts/json.rs`)

The parser's position is the list of bytes not read yet. `parseValue` and the two loops share one
recursion, on fuel: each of its calls reads a byte or is followed by one that does, so twice the
length of the input is enough.
-/

namespace Micronuts

inductive Json
  | null
  | bool (b : Bool)
  | number
  | string (s : String)
  | array (items : List Json)
  | object (members : List (String × Json))

namespace Json

def asStr : Json → Option String
  | string s => some s
  | _ => none

def asArray : Json → Option (List Json)
  | array items => some items
  | _ => none

def asObject : Json → Option (List (String × Json))
  | object members => some members
  | _ => none

/-- The first member with this key. -/
def getMember (key : String) (members : List (String × Json)) : Option Json :=
  (members.find? fun kv => kv.1 = key).map Prod.snd

def get (j : Json) (key : String) : Option Json := do getMember key (← j.asObject)

/-! ### The scanner -/

abbrev Bytes := List UInt8

def isWs (b : UInt8) : Bool := b = ' '.toUInt8 || b = '\t'.toUInt8 || b = '\n'.toUInt8 || b = '\r'.toUInt8

def isDigit (b : UInt8) : Bool := '0'.toUInt8 ≤ b && b ≤ '9'.toUInt8

def skipWs (bs : Bytes) : Bytes := bs.dropWhile isWs

def skipDigits (bs : Bytes) : Bytes := bs.dropWhile isDigit

def bump : Bytes → Option (UInt8 × Bytes)
  | [] => none
  | b :: bs => some (b, bs)

def expect (c : Char) : Bytes → Option Bytes
  | [] => none
  | b :: bs => if b = c.toUInt8 then some bs else none

def parseLiteral (literal : String) (value : Json) (bs : Bytes) : Option (Json × Bytes) :=
  let l := literal.toByteArray.data.toList
  if l.isPrefixOf bs then some (value, bs.drop l.length) else none

def hexDigit (b : UInt8) : Option Nat :=
  if isDigit b then some (b.toNat - '0'.toNat)
  else if 'a'.toUInt8 ≤ b && b ≤ 'f'.toUInt8 then some (b.toNat - 'a'.toNat + 10)
  else if 'A'.toUInt8 ≤ b && b ≤ 'F'.toUInt8 then some (b.toNat - 'A'.toNat + 10)
  else none

def parseHex4 : Bytes → Option (Nat × Bytes)
  | a :: b :: c :: d :: bs => do
    let a ← hexDigit a
    let b ← hexDigit b
    let c ← hexDigit c
    let d ← hexDigit d
    pure (((a * 16 + b) * 16 + c) * 16 + d, bs)
  | _ => none

/-- `char::from_u32`. -/
def charFromU32 (n : Nat) : Option Char := if n.isValidChar then some (Char.ofNat n) else none

/-- What follows `\u`: one code unit, or a surrogate pair. -/
def parseUnicodeEscape (bs : Bytes) : Option (Bytes × Bytes) := do
  let (code, bs) ← parseHex4 bs
  if 0xD800 ≤ code ∧ code < 0xDC00 then
    let bs ← expect '\\' bs
    let bs ← expect 'u' bs
    let (low, bs) ← parseHex4 bs
    if 0xDC00 ≤ low ∧ low < 0xE000 then
      let ch ← charFromU32 (0x10000 + (code - 0xD800) * 2 ^ 10 + (low - 0xDC00))
      pure (String.utf8EncodeChar ch, bs)
    else none
  else if 0xDC00 ≤ code ∧ code < 0xE000 then none
  else
    let ch ← charFromU32 code
    pure (String.utf8EncodeChar ch, bs)

/-- What follows a backslash, as the bytes it stands for. -/
def parseEscape (bs : Bytes) : Option (Bytes × Bytes) := do
  let (b, bs) ← bump bs
  if b = '"'.toUInt8 then pure ([0x22], bs)
  else if b = '\\'.toUInt8 then pure ([0x5C], bs)
  else if b = '/'.toUInt8 then pure ([0x2F], bs)
  else if b = 'b'.toUInt8 then pure ([0x08], bs)
  else if b = 'f'.toUInt8 then pure ([0x0C], bs)
  else if b = 'n'.toUInt8 then pure ([0x0A], bs)
  else if b = 'r'.toUInt8 then pure ([0x0D], bs)
  else if b = 't'.toUInt8 then pure ([0x09], bs)
  else if b = 'u'.toUInt8 then parseUnicodeEscape bs
  else none

/-- The bytes of a string up to its closing quote. -/
def parseStringBody : Nat → Bytes → Option (Bytes × Bytes)
  | 0, _ => none
  | n + 1, bs => do
    let (b, bs) ← bump bs
    if b = '"'.toUInt8 then pure ([], bs)
    else if b = '\\'.toUInt8 then
      let (ch, bs) ← parseEscape bs
      let (out, bs) ← parseStringBody n bs
      pure (ch ++ out, bs)
    else if b ≤ 0x1F then none
    else
      let (out, bs) ← parseStringBody n bs
      pure (b :: out, bs)

def parseString (bs : Bytes) : Option (String × Bytes) := do
  let bs ← expect '"' bs
  let (out, bs) ← parseStringBody (bs.length + 1) bs
  let s ← String.fromUTF8? ⟨⟨out⟩⟩
  pure (s, bs)

/-- One digit or more. -/
def parseDigits (bs : Bytes) : Option Bytes := do
  let (b, bs) ← bump bs
  if isDigit b then pure (skipDigits bs) else none

def parseFrac (bs : Bytes) : Option Bytes :=
  match expect '.' bs with
  | some bs => parseDigits bs
  | none => some bs

def parseExp (bs : Bytes) : Option Bytes :=
  match (expect 'e' bs).or (expect 'E' bs) with
  | some bs => parseDigits (((expect '+' bs).or (expect '-' bs)).getD bs)
  | none => some bs

def parseNumber (bs : Bytes) : Option (Json × Bytes) := do
  let (b, bs) ← bump ((expect '-' bs).getD bs)
  let bs ← if b = '0'.toUInt8 then pure bs else if isDigit b then pure (skipDigits bs) else none
  let bs ← parseFrac bs
  let bs ← parseExp bs
  pure (.number, bs)

mutual

def parseValue : Nat → Bytes → Option (Json × Bytes)
  | 0, _ => none
  | n + 1, bs => do
    let (b, rest) ← bump bs
    if b = 0x7B then
      match expect '\x7d' (skipWs rest) with
      | some rest => pure (.object [], rest)
      | none =>
        let (members, rest) ← parseMembers n rest
        pure (.object members, rest)
    else if b = '['.toUInt8 then
      match expect ']' (skipWs rest) with
      | some rest => pure (.array [], rest)
      | none =>
        let (items, rest) ← parseItems n rest
        pure (.array items, rest)
    else if b = '"'.toUInt8 then
      let (s, rest) ← parseString bs
      pure (.string s, rest)
    else if b = 't'.toUInt8 then parseLiteral "true" (.bool true) bs
    else if b = 'f'.toUInt8 then parseLiteral "false" (.bool false) bs
    else if b = 'n'.toUInt8 then parseLiteral "null" .null bs
    else if b = '-'.toUInt8 || isDigit b then parseNumber bs
    else none

/-- The loop of `parse_object`, up to the closing brace. -/
def parseMembers : Nat → Bytes → Option (List (String × Json) × Bytes)
  | 0, _ => none
  | n + 1, bs => do
    let (key, bs) ← parseString (skipWs bs)
    let bs ← expect ':' (skipWs bs)
    let (value, bs) ← parseValue n (skipWs bs)
    let (b, bs) ← bump (skipWs bs)
    if b = ','.toUInt8 then
      let (members, bs) ← parseMembers n bs
      pure ((key, value) :: members, bs)
    else if b = 0x7D then pure ([(key, value)], bs)
    else none

/-- The loop of `parse_array`, up to the closing bracket. -/
def parseItems : Nat → Bytes → Option (List Json × Bytes)
  | 0, _ => none
  | n + 1, bs => do
    let (item, bs) ← parseValue n (skipWs bs)
    let (b, bs) ← bump (skipWs bs)
    if b = ','.toUInt8 then
      let (items, bs) ← parseItems n bs
      pure (item :: items, bs)
    else if b = ']'.toUInt8 then pure ([item], bs)
    else none

end

/-- A complete document: nothing but whitespace may follow the value. -/
def parse (input : String) : Option Json := do
  let bs := input.toByteArray.data.toList
  let (value, rest) ← parseValue (2 * bs.length + 2) (skipWs bs)
  if skipWs rest = [] then pure value else none

end Json

end Micronuts
