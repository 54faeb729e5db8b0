import Micronuts.Nuts.Json

/-!
# NUT-10: the well-known secret (`cashu-core-lite`: `nuts/nut10.rs`)

A proof's secret is a spending condition when it parses as the two-element JSON array below; any
other string, and any other `kind`, is an ordinary secret.
-/

namespace Micronuts

inductive SecretKind
  | p2pk
  | htlc
deriving DecidableEq, Repr

def SecretKind.fromWire : String → Option SecretKind
  | "P2PK" => some .p2pk
  | "HTLC" => some .htlc
  | _ => none

structure Secret where
  kind : SecretKind
  nonce : String
  data : String
  tags : Option (List (List String))
deriving DecidableEq, Repr

/-- Every row must be an array of strings, possibly empty. -/
def parseTagRows (rows : List Json) : Option (List (List String)) :=
  rows.mapM fun row => do (← row.asArray).mapM Json.asStr

/-- An absent `tags` member and a `null` one are the same; any other value must be rows of strings. -/
def parseTags : Option Json → Option (Option (List (List String)))
  | none => some none
  | some .null => some none
  | some value => do
    let rows ← parseTagRows (← value.asArray)
    pure (some rows)

namespace Secret

def parse (raw : String) : Option Secret := do
  let document ← Json.parse raw
  match ← document.asArray with
  | [kind, object] =>
    let kind ← SecretKind.fromWire (← kind.asStr)
    let object ← object.asObject
    let nonce ← (Json.getMember "nonce" object).bind Json.asStr
    let data ← (Json.getMember "data" object).bind Json.asStr
    let tags ← parseTags (Json.getMember "tags" object)
    pure { kind, nonce, data, tags }
  | _ => none

/-- `secret.tags.as_deref().unwrap_or_default()`. -/
def tagRows (s : Secret) : List (List String) := s.tags.getD []

end Secret

end Micronuts
