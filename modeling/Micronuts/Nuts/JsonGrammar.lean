import Micronuts.Lib.Utf8
import Micronuts.Lib.Hex
import Micronuts.Nuts.Json

/-!
# The grammar of JSON texts

RFC 8259 as a relation between a text and the value that it stands for. A string stands for the characters that its
escapes denote, where an escaped surrogate must be one half of a pair.
-/

namespace Micronuts
namespace JsonText

/-! ### Characters and numbers -/

def wsChar (c : Char) : Bool := c = ' ' || c = '\t' || c = '\n' || c = '\r'

/-- `ws`. -/
def Ws (w : List Char) : Prop := ∀ c ∈ w, wsChar c = true

/-- `1*DIGIT`. -/
def Digits (ds : List Char) : Prop := ds ≠ [] ∧ ∀ c ∈ ds, c.isDigit = true

/-- `int`: zero, or no leading zero. -/
def Int (t : List Char) : Prop := t = ['0'] ∨ ∃ d ds, t = d :: ds ∧ d.isDigit = true ∧ d ≠ '0' ∧ ∀ c ∈ ds, c.isDigit = true

/-- `[ frac ]`. -/
def Frac (t : List Char) : Prop := t = [] ∨ ∃ ds, t = '.' :: ds ∧ Digits ds

/-- `[ exp ]`. -/
def Exp (t : List Char) : Prop :=
  t = [] ∨ ∃ e sign ds, t = e :: (sign ++ ds) ∧ (e = 'e' ∨ e = 'E') ∧ (sign = [] ∨ sign = ['+'] ∨ sign = ['-']) ∧ Digits ds

/-- `number`. -/
def Number (t : List Char) : Prop :=
  ∃ minus int frac exp, t = minus ++ (int ++ (frac ++ exp)) ∧ (minus = [] ∨ minus = ['-']) ∧ Int int ∧ Frac frac ∧ Exp exp

/-! ### Strings -/

/-- `unescaped`. -/
def Unescaped (c : Char) : Prop := 0x20 ≤ c.toNat ∧ c ≠ '"' ∧ c ≠ '\\'

/-- The escapes of one letter. -/
def escapes : List (Char × Char) :=
  [('"', '"'), ('\\', '\\'), ('/', '/'), ('b', '\x08'), ('f', '\x0c'), ('n', '\n'), ('r', '\r'), ('t', '\t')]

/-- `4HEXDIG` and the code unit that it names. -/
def Hex4 (t : List Char) (code : Nat) : Prop :=
  ∃ a b c d x y z u, t = [a, b, c, d] ∧ Hex.digitValue a = some x ∧ Hex.digitValue b = some y ∧
    Hex.digitValue c = some z ∧ Hex.digitValue d = some u ∧ code = ((x * 16 + y) * 16 + z) * 16 + u

def HighSurrogate (code : Nat) : Prop := 0xD800 ≤ code ∧ code < 0xDC00

def LowSurrogate (code : Nat) : Prop := 0xDC00 ≤ code ∧ code < 0xE000

/-- `char`, and the character that it denotes. -/
inductive CharText : List Char → Char → Prop
  | unescaped {c : Char} : Unescaped c → CharText [c] c
  | escape {e c : Char} : (e, c) ∈ escapes → CharText ['\\', e] c
  | unicode {t : List Char} {code : Nat} : Hex4 t code → ¬ HighSurrogate code → ¬ LowSurrogate code →
    CharText ('\\' :: 'u' :: t) (Char.ofNat code)
  | pair {t t' : List Char} {high low : Nat} : Hex4 t high → HighSurrogate high → Hex4 t' low → LowSurrogate low →
    CharText ('\\' :: 'u' :: (t ++ '\\' :: 'u' :: t')) (Char.ofNat (0x10000 + (high - 0xD800) * 0x400 + (low - 0xDC00)))

/-- `*char`. -/
inductive Chars : List Char → List Char → Prop
  | nil : Chars [] []
  | cons {t ts cs : List Char} {c : Char} : CharText t c → Chars ts cs → Chars (t ++ ts) (c :: cs)

/-- `string`. -/
def Text (t : List Char) (s : String) : Prop := ∃ body, t = '"' :: (body ++ ['"']) ∧ Chars body s.toList

/-! ### Values -/

mutual

/-- `value`. -/
inductive Value : List Char → Json → Prop
  | nullText : Value ['n', 'u', 'l', 'l'] .null
  | trueText : Value ['t', 'r', 'u', 'e'] (.bool true)
  | falseText : Value ['f', 'a', 'l', 's', 'e'] (.bool false)
  | number {t : List Char} : Number t → Value t .number
  | string {t : List Char} {s : String} : Text t s → Value t (.string s)
  | emptyArray {w : List Char} : Ws w → Value ('[' :: (w ++ [']'])) (.array [])
  | array {t : List Char} {items : List Json} : Items t items → Value ('[' :: (t ++ [']'])) (.array items)
  | emptyObject {w : List Char} : Ws w → Value ('\x7b' :: (w ++ ['\x7d'])) (.object [])
  | object {t : List Char} {members : List (String × Json)} : Members t members →
    Value ('\x7b' :: (t ++ ['\x7d'])) (.object members)

/-- `ws value ws *( "," ws value ws )`. -/
inductive Items : List Char → List Json → Prop
  | one {w t w' : List Char} {v : Json} : Ws w → Value t v → Ws w' → Items (w ++ (t ++ w')) [v]
  | more {w t w' ts : List Char} {v : Json} {vs : List Json} : Ws w → Value t v → Ws w' → Items ts vs →
    Items (w ++ (t ++ (w' ++ ',' :: ts))) (v :: vs)

/-- `ws string ws ":" ws value ws`, separated by commas. -/
inductive Members : List Char → List (String × Json) → Prop
  | one {w k w₁ w₂ t w' : List Char} {key : String} {v : Json} : Ws w → Text k key → Ws w₁ → Ws w₂ → Value t v → Ws w' →
    Members (w ++ (k ++ (w₁ ++ ':' :: (w₂ ++ (t ++ w'))))) [(key, v)]
  | more {w k w₁ w₂ t w' ts : List Char} {key : String} {v : Json} {vs : List (String × Json)} : Ws w → Text k key →
    Ws w₁ → Ws w₂ → Value t v → Ws w' → Members ts vs →
    Members (w ++ (k ++ (w₁ ++ ':' :: (w₂ ++ (t ++ (w' ++ ',' :: ts)))))) ((key, v) :: vs)

end

/-- `JSON-text`. -/
def Document (t : List Char) (v : Json) : Prop := ∃ w body w', t = w ++ (body ++ w') ∧ Ws w ∧ Value body v ∧ Ws w'

end JsonText
end Micronuts
