import Micronuts.Lib.Exec
import Micronuts.Nuts.Json
import Micronuts.Crypto

/-!
# The scanner at its positions (`cashu-core-lite`: `nuts/json.rs`)

The parser as it is written, on the bytes of the whole text and an index into them. An index past the end and a recursion
that runs out of fuel are panics.
-/

namespace Micronuts
namespace Json
namespace Parser
open Exec

/-- A method of the parser. -/
abbrev ParserM (α : Type) := Exec Bytes Nat Unit α

def peek : ParserM (Option UInt8) := fun bytes pos => (.ok bytes[pos]?, pos)

def bump : ParserM UInt8 := do
  match ← peek with
  | some byte =>
    modify (· + 1)
    pure byte
  | none => fail ()

/-- Where `while self.peek() is p { self.pos += 1 }` ends. -/
def skipFrom (p : UInt8 → Bool) (bytes : Bytes) (pos : Nat) : Nat :=
  if h : pos < bytes.length then if p bytes[pos] then skipFrom p bytes (pos + 1) else pos else pos
termination_by bytes.length - pos

def skipWhile (p : UInt8 → Bool) : ParserM Unit := fun bytes pos => (.ok (), skipFrom p bytes pos)

def skipWs : ParserM Unit := skipWhile isWs

def expect (c : Char) : ParserM Unit := do
  if (← bump) = c.toUInt8 then pure () else fail ()

/-- `&self.bytes[self.pos..]`. -/
def remaining : ParserM Bytes := fun bytes pos => if pos ≤ bytes.length then (.ok (bytes.drop pos), pos) else (.panic, pos)

def parseLiteral (literal : String) (value : Json) : ParserM Json := do
  if (asBytes literal).isPrefixOf (← remaining) then
    modify (· + (asBytes literal).length)
    pure value
  else fail ()

/-! ### Strings -/

/-- `self.bytes[self.pos - 1]`. -/
def last : ParserM UInt8 := fun bytes pos =>
  match pos with
  | 0 => (.panic, pos)
  | before + 1 =>
    match bytes[before]? with
    | some byte => (.ok byte, pos)
    | none => (.panic, pos)

/-- The digit that was just read, less `base`. -/
def lastFrom (base : Char) (offset : Nat) : ParserM Nat := do
  let byte ← last
  pure (byte.toNat - base.toNat + offset)

/-- The value of the byte that was just read. -/
def lastDigit (byte : UInt8) : ParserM Nat :=
  if isDigit byte then lastFrom '0' 0
  else if 'a'.toUInt8 ≤ byte && byte ≤ 'f'.toUInt8 then lastFrom 'a' 10
  else if 'A'.toUInt8 ≤ byte && byte ≤ 'F'.toUInt8 then lastFrom 'A' 10
  else fail ()

/-- A round of the loop of `parse_hex4`. -/
def parseHexDigit (value : Nat) : ParserM Nat := do
  let byte ← bump
  let digit ← lastDigit byte
  if value * 16 + digit < 2 ^ 32 then pure (value * 16 + digit) else fail ()

def parseHex4 : ParserM Nat := do
  let value ← parseHexDigit 0
  let value ← parseHexDigit value
  let value ← parseHexDigit value
  parseHexDigit value

def parseUnicodeEscape : ParserM Bytes := do
  let code ← parseHex4
  if 0xD800 ≤ code ∧ code < 0xDC00 then
    expect '\\'
    expect 'u'
    let low ← parseHex4
    if 0xDC00 ≤ low ∧ low < 0xE000 then
      let ch ← okOr (charFromU32 (0x10000 + (code - 0xD800) * 2 ^ 10 + (low - 0xDC00))) ()
      pure (String.utf8EncodeChar ch)
    else fail ()
  else if 0xDC00 ≤ code ∧ code < 0xE000 then fail ()
  else
    let ch ← okOr (charFromU32 code) ()
    pure (String.utf8EncodeChar ch)

def parseEscape : ParserM Bytes := do
  let b ← bump
  if b = '"'.toUInt8 then pure [0x22]
  else if b = '\\'.toUInt8 then pure [0x5C]
  else if b = '/'.toUInt8 then pure [0x2F]
  else if b = 'b'.toUInt8 then pure [0x08]
  else if b = 'f'.toUInt8 then pure [0x0C]
  else if b = 'n'.toUInt8 then pure [0x0A]
  else if b = 'r'.toUInt8 then pure [0x0D]
  else if b = 't'.toUInt8 then pure [0x09]
  else if b = 'u'.toUInt8 then parseUnicodeEscape
  else fail ()

/-- The loop of `parse_string`, with the bytes read so far. -/
def parseStringLoop : Nat → Bytes → ParserM String
  | 0, _ => panic
  | n + 1, out => do
    let b ← bump
    if b = '"'.toUInt8 then okOr (String.fromUTF8? ⟨⟨out⟩⟩) ()
    else if b = '\\'.toUInt8 then
      let ch ← parseEscape
      parseStringLoop n (out ++ ch)
    else if b ≤ 0x1F then fail ()
    else parseStringLoop n (out ++ [b])

def parseString (fuel : Nat) : ParserM String := do
  expect '"'
  parseStringLoop fuel []

/-! ### Numbers -/

/-- `self.pos = start; return None`. -/
def giveUp (start : Nat) : ParserM Unit := do
  modify fun _ => start
  fail ()

/-- One digit or more. -/
def parseDigits (start : Nat) : ParserM Unit := do
  let before ← Exec.get
  skipWhile isDigit
  if (← Exec.get) = before then giveUp start else pure ()

/-- `if self.peek() is c { self.pos += 1 }`. -/
def skipOver (p : UInt8 → Bool) : ParserM Bool := do
  if (← peek).any p then
    modify (· + 1)
    pure true
  else pure false

def parseFrac (start : Nat) : ParserM Unit := do
  if ← skipOver (· = '.'.toUInt8) then parseDigits start else pure ()

def parseExp (start : Nat) : ParserM Unit := do
  if ← skipOver (fun b => b = 'e'.toUInt8 || b = 'E'.toUInt8) then
    let _ ← skipOver fun b => b = '+'.toUInt8 || b = '-'.toUInt8
    parseDigits start
  else pure ()

def parseInt (start : Nat) : ParserM Unit := do
  let b ← bump
  if b = '0'.toUInt8 then pure () else if isDigit b then skipWhile isDigit else giveUp start

def parseNumber : ParserM Json := do
  let start ← Exec.get
  let _ ← skipOver (· = '-'.toUInt8)
  parseInt start
  parseFrac start
  parseExp start
  pure .number

/-! ### Values -/

/-- `parse_object`, with its loop. -/
def parseObject (loop : ParserM Json) : ParserM Json := do
  expect '\x7b'
  skipWs
  if (← peek) = some 0x7D then
    modify (· + 1)
    pure (.object [])
  else loop

/-- `parse_array`, with its loop. -/
def parseArray (loop : ParserM Json) : ParserM Json := do
  expect '['
  skipWs
  if (← peek) = some ']'.toUInt8 then
    modify (· + 1)
    pure (.array [])
  else loop

mutual

def parseValue : Nat → ParserM Json
  | 0 => panic
  | n + 1 => do
    match ← peek with
    | none => fail ()
    | some b =>
      if b = 0x7B then parseObject (parseMembers n [])
      else if b = '['.toUInt8 then parseArray (parseItems n [])
      else if b = '"'.toUInt8 then do
        let s ← parseString (n + 1)
        pure (.string s)
      else if b = 't'.toUInt8 then parseLiteral "true" (.bool true)
      else if b = 'f'.toUInt8 then parseLiteral "false" (.bool false)
      else if b = 'n'.toUInt8 then parseLiteral "null" .null
      else if b = '-'.toUInt8 || isDigit b then parseNumber
      else fail ()

/-- The loop of `parse_object`, with the members read so far. -/
def parseMembers : Nat → List (String × Json) → ParserM Json
  | 0, _ => panic
  | n + 1, members => do
    skipWs
    let key ← parseString n
    skipWs
    expect ':'
    skipWs
    let value ← parseValue n
    skipWs
    let b ← bump
    if b = ','.toUInt8 then parseMembers n (members ++ [(key, value)])
    else if b = 0x7D then pure (.object (members ++ [(key, value)]))
    else fail ()

/-- The loop of `parse_array`, with the items read so far. -/
def parseItems : Nat → List Json → ParserM Json
  | 0, _ => panic
  | n + 1, items => do
    skipWs
    let item ← parseValue n
    skipWs
    let b ← bump
    if b = ','.toUInt8 then parseItems n (items ++ [item])
    else if b = ']'.toUInt8 then pure (.array (items ++ [item]))
    else fail ()

end

/-- `parse`, with fuel for twice the length of the text. -/
def parse (input : String) : Outcome Unit Json :=
  let bytes := asBytes input
  ((do
    skipWs
    let value ← parseValue (2 * bytes.length + 2)
    skipWs
    if (← Exec.get) = bytes.length then pure value else fail () : ParserM Json).run bytes 0).1

end Parser
end Json
end Micronuts
