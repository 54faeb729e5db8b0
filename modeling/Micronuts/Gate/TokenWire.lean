import Mathlib.Data.Bool.AllAny
import Micronuts.Gate.TokenText
import Micronuts.Nuts.Blinding

/-!
# A token in both of its forms

A written token is read back from its raw body and from its text, by the crate and by the port: the body is never taken
for a text, nor the text for a body. On texts that nobody has written the two readers differ.
-/

namespace Micronuts
open Decoder

/-- The first byte of a text is not that of a map. -/
theorem asBytes_head {s : String} {b : UInt8} {tail : List UInt8} (h : asBytes s = b :: tail) : b >>> 5 ≠ 5 := by
  rw [asBytes_eq_flatMap] at h
  rcases hs : s.toList with - | ⟨c, cs⟩
  · rw [hs] at h
    cases h
  · rw [hs, List.flatMap_cons] at h
    obtain ⟨b', bs, hc⟩ := List.exists_cons_of_ne_nil (String.utf8EncodeChar_ne_nil (c := c))
    have hfirst := (@UInt8.isUTF8FirstByte_getElem_utf8EncodeChar c 0 (by simp [hc])).2 rfl
    simp only [hc, List.getElem_cons_zero] at hfirst
    rw [hc, List.cons_append, List.cons.injEq] at h
    rw [← h.1]
    refine @forall_byte (fun b => b.IsUTF8FirstByte → b >>> 5 ≠ 5) ?_ b' hfirst
    decide +kernel

theorem prefix_not_whitespace : ∀ c ∈ "cashuB".toList, Text.isWhitespace c = false :=
  List.all_iff_forall_prop.1 (by decide)

theorem trim_token (rest : String) : Text.trim ("cashuB" ++ rest) = "cashuB" ++ Text.trimEnd rest :=
  Text.trim_append (by decide) prefix_not_whitespace

theorem stripPrefix_token (rest : String) :
    stripPrefix (asBytes "cashuB") (asBytes ("cashuB" ++ rest)) = some (asBytes rest) := by
  rw [asBytes_append, stripPrefix, if_pos (by simp), List.drop_left]

theorem tokenBytes_token (rest : String) :
    tokenBytes ("cashuB" ++ rest) = base64urlDecode (asBytes (Text.trimEnd rest)) := by
  simp only [tokenBytes, trim_token, stripPrefix_token]

/-- The text of some bytes has no white space, and the port reads the bytes from it. -/
theorem tokenBytes_encode (bs : List UInt8) : tokenBytes ("cashuB" ++ encodeBase64url bs) = bs := by
  have htrim : Text.trimEnd (encodeBase64url bs) = encodeBase64url bs := by
    refine Text.trimEnd_eq_self fun c hc => ?_
    rw [encodeBase64url, String.toList_ofList] at hc
    exact (encodeChunks_digits bs c hc).not_whitespace
  rw [tokenBytes_token, htrim]
  refine base64urlDecode_of_decode (decodeBase64url_encodeBase64url bs) fun b hb => ?_
  rw [asBytes_encodeBase64url] at hb
  obtain ⟨c, hc, rfl⟩ := List.mem_map.1 hb
  exact (encodeChunks_digits bs c hc).ne_standard

example : tokenBytes ("cashuB" ++ "o2FtYQ") = [0xa3, 0x61, 0x6d, 0x61] := by decide +kernel

section
variable [Crypto] [Minicbor] [MinicborCodec]

/-- A text is no body. -/
theorem decode_asBytes (s : String) : minicborDecode TokenV4.decode (asBytes s) = none := by
  by_contra hsome
  obtain ⟨token, htoken⟩ := Option.ne_none_iff_exists'.1 hsome
  obtain ⟨b, tail, hbytes, hb⟩ := tokenBody_head htoken
  exact asBytes_head hbytes hb

/-- The text of what reads as a token is read by the port as the token. -/
theorem decodeTokenOrErr_text {body : List UInt8} {token : TokenV4} (h : minicborDecode TokenV4.decode body = some token) :
    decodeTokenOrErr ("cashuB" ++ encodeBase64url body) = .ok token := by
  rw [decodeTokenOrErr, tokenBytes_encode, decodeToken_body h]
  rfl

/-- The body and the text that are written for a token. -/
theorem encodeTokenWire_decodes {token : TokenV4} (hsized : token.Sized) (hcanonical : ∀ g ∈ token.tokens, g.Canonical) :
    ∃ body, encodeToken token = some body ∧ encodeTokenWire token = some ("cashuB" ++ encodeBase64url body) ∧
      minicborDecode TokenV4.decode body = some token := by
  obtain ⟨body, hbody, hreads⟩ := TokenV4.decode_reads hsized hcanonical
  refine ⟨body, hbody, ?_, ?_⟩
  · rw [encodeTokenWire, hbody]
    rfl
  · rw [minicborDecode, hreads.run]
    rfl

/-- What is written reads back in every way, and neither form has a reading as the other. -/
theorem token_wire_round_trip {token : TokenV4} (hsized : token.Sized) (hcanonical : ∀ g ∈ token.tokens, g.Canonical) :
    ∃ body wire, encodeToken token = some body ∧ encodeTokenWire token = some wire ∧
      decodeToken body = some token ∧ decodeToken (asBytes wire) = some token ∧ decodeTokenOrErr wire = .ok token ∧
      (∀ text, decodeBase64url body = some text → minicborDecode TokenV4.decode text = none) ∧
      ∃ text, wire = "cashuB" ++ text ∧ minicborDecode TokenV4.decode (asBytes text) = none := by
  obtain ⟨body, hbody, hwire, hdecode⟩ := encodeTokenWire_decodes hsized hcanonical
  refine ⟨body, "cashuB" ++ encodeBase64url body, hbody, hwire, decodeToken_body hdecode, decodeToken_text hdecode,
    decodeTokenOrErr_text hdecode, fun text htext => ?_, _, rfl, decode_asBytes _⟩
  obtain ⟨b, tail, rfl, hb⟩ := tokenBody_head hdecode
  obtain ⟨hvalue, hpad, -⟩ := mapByte_foreign hb
  rcases decodeBase64url_foreign hvalue hpad tail with hnone | hempty
  · rw [hnone] at htext
    cases htext
  · rw [hempty, Option.some.injEq] at htext
    rw [← htext]
    exact decode_asBytes ""

/-! ### Other texts -/

/-- Bytes that the crate would read as text: with a prefix, or of digits and padding alone. -/
def IsTokenText (bytes : List UInt8) : Prop :=
  stripPrefix (asBytes "cashuB") bytes ≠ none ∨ stripPrefix (asBytes "crawB") bytes ≠ none ∨ decodeBase64url bytes ≠ none

omit [MinicborCodec] in
/-- Bytes that are no text are read as a body. -/
theorem decodeToken_bytes {bytes : List UInt8} (h : ¬ IsTokenText bytes) :
    decodeToken bytes = minicborDecode TokenV4.decode bytes := by
  simp only [IsTokenText, not_or, not_not] at h
  rw [decodeToken, h.1, h.2.1, Option.none_or, Option.getD_none, h.2.2, Option.bind_none, Option.none_or]

/-- The crate reads the text of a token as base64url or not at all. -/
theorem decodeToken_token (rest : String) :
    decodeToken (asBytes ("cashuB" ++ rest)) =
      (decodeBase64url (asBytes rest)).bind (minicborDecode TokenV4.decode) := by
  rw [decodeToken, stripPrefix_token, Option.some_or, Option.getD_some, decode_asBytes, Option.or_none]

omit [Crypto] [Minicbor] [MinicborCodec] in
/-- Digits of the url alphabet, with padding after them, are the same bytes for both readers. -/
theorem decodeBase64url_of_digits {text : List UInt8} (h : ∀ b ∈ text, (tablePosition b).isSome = true) (n : Nat) :
    decodeBase64url (text ++ List.replicate n '='.toUInt8) =
      some (base64urlDecode (text ++ List.replicate n '='.toUInt8)) := by
  have hdigit : ∀ b ∈ text, (base64Value b).isSome = true ∧ b ≠ '+'.toUInt8 ∧ b ≠ '/'.toUInt8 ∧ b ≠ '='.toUInt8 := by
    intro b hb
    refine @forall_byte (fun b => (tablePosition b).isSome = true →
      (base64Value b).isSome = true ∧ b ≠ '+'.toUInt8 ∧ b ≠ '/'.toUInt8 ∧ b ≠ '='.toUInt8) ?_ b (h b hb)
    decide +kernel
  obtain ⟨out, hout⟩ := decodeGroups_of_digits fun b hb => (hdigit b hb).1
  have hdecode : decodeBase64url (text ++ List.replicate n '='.toUInt8) = some out := by
    rw [decodeBase64url_eq, unpadded_replicate (fun b hb => (hdigit b hb).2.2.2), hout]
  rw [hdecode, base64urlDecode_of_decode hdecode]
  intro b hb
  rcases List.mem_append.1 hb with hb | hb
  · exact ⟨(hdigit b hb).2.1, (hdigit b hb).2.2.1⟩
  · rw [List.eq_of_mem_replicate hb]
    decide

/-- The text of a text is a token for the port alone. -/
theorem decode_text_in_text {body : List UInt8} {token : TokenV4} (h : minicborDecode TokenV4.decode body = some token) :
    let text := "cashuB" ++ encodeBase64url body
    decodeTokenOrErr ("cashuB" ++ encodeBase64url (asBytes text)) = .ok token ∧
      decodeToken (asBytes ("cashuB" ++ encodeBase64url (asBytes text))) = none := by
  refine ⟨?_, ?_⟩
  · rw [decodeTokenOrErr, tokenBytes_encode, decodeToken_text h]
    rfl
  · rw [decodeToken_token, decodeBase64url_encodeBase64url, Option.bind_some, decode_asBytes]

/-- On a text without the two digits of the standard alphabet, what the crate reads the port reads as well. On digits of
the url alphabet with padding after them, of bytes that are not themselves a text, the two agree. -/
theorem token_readers_agree (rest : String) :
    ((∀ b ∈ asBytes (Text.trimEnd rest), b ≠ '+'.toUInt8 ∧ b ≠ '/'.toUInt8) →
      ∀ token, decodeToken (asBytes (Text.trim ("cashuB" ++ rest))) = some token →
        decodeTokenOrErr ("cashuB" ++ rest) = .ok token) ∧
    ∀ text n, asBytes (Text.trimEnd rest) = text ++ List.replicate n '='.toUInt8 →
      (∀ b ∈ text, (tablePosition b).isSome = true) → ¬ IsTokenText (tokenBytes ("cashuB" ++ rest)) →
        decodeTokenOrErr ("cashuB" ++ rest) = Except.okOr (decodeToken (asBytes (Text.trim ("cashuB" ++ rest)))) .decode := by
  rw [trim_token, decodeToken_token]
  constructor
  · intro hurl token hcrate
    obtain ⟨bytes, hbytes, hdecode⟩ := Option.bind_eq_some_iff.1 hcrate
    rw [decodeTokenOrErr, tokenBytes_token, base64urlDecode_of_decode hbytes hurl, decodeToken_body hdecode]
    rfl
  · intro text n hpayload hdigits hbody
    have hbytes := decodeBase64url_of_digits hdigits n
    rw [← hpayload, ← tokenBytes_token] at hbytes
    rw [decodeTokenOrErr, decodeToken_bytes hbody, hbytes, Option.bind_some]

end

section toy
open Toy32 ToyCbor
open Toy (bytes33)

namespace Toy32

/-- A proof of one sat under the key 3. -/
def coin : Token.Proof := ⟨1, "00c0ffee", "00", bytes33 91, some ⟨(131 : UInt8), (138 : UInt8), (1 : UInt8)⟩⟩

/-- A proof of two sats under the key 5. -/
def coin' : Token.Proof := ⟨2, "00c0ffee", "01", bytes33 34, some ⟨(36 : UInt8), (181 : UInt8), (2 : UInt8)⟩⟩

/-- The token of the two. -/
def pair (mint : String) : TokenV4 := ⟨mint, "sat", none, [⟨"00c0ffee", [coin, coin']⟩]⟩

/-- The token of some copies of the coin. -/
def coins (mint : String) (n : Nat) : TokenV4 := ⟨mint, "sat", none, [⟨"00c0ffee", List.replicate n coin⟩]⟩

theorem coin_sized : (asBytes coin.keysetId).length < 2 ^ 64 ∧ coin.Sized :=
  ⟨by decide, by decide, by decide⟩

theorem pair_canonical (mint : String) : ∀ g ∈ (pair mint).tokens, g.Canonical := by
  have hlower : Hex.Lower "00c0ffee" := by decide
  intro g hg
  obtain rfl := List.mem_singleton.1 hg
  exact ⟨hlower, by simp [coin, coin']⟩

theorem pair_sized {mint : String} (hmint : (asBytes mint).length < 2 ^ 64) : (pair mint).Sized := by
  have hunit : (asBytes "sat").length < 2 ^ 64 := by decide
  refine ⟨hmint, hunit, nofun, by simp [pair], fun g hg => ?_⟩
  obtain rfl := List.mem_singleton.1 hg
  refine ⟨coin_sized.1, by simp, fun p hp => ?_⟩
  rcases List.mem_pair.1 hp with rfl | rfl
  · exact coin_sized.2
  · exact ⟨by decide, by decide⟩

theorem coins_canonical (mint : String) (n : Nat) : ∀ g ∈ (coins mint n).tokens, g.Canonical := by
  have hlower : Hex.Lower "00c0ffee" := by decide
  intro g hg
  obtain rfl := List.mem_singleton.1 hg
  exact ⟨hlower, fun p hp => by rw [List.eq_of_mem_replicate hp]; rfl⟩

theorem coins_sized {mint : String} {n : Nat} (hmint : (asBytes mint).length < 2 ^ 64) (hn : n < 2 ^ 64) :
    (coins mint n).Sized := by
  have hunit : (asBytes "sat").length < 2 ^ 64 := by decide
  refine ⟨hmint, hunit, nofun, by simp [coins], fun g hg => ?_⟩
  obtain rfl := List.mem_singleton.1 hg
  refine ⟨coin_sized.1, by simpa using hn, fun p hp => ?_⟩
  rw [List.eq_of_mem_replicate hp]
  exact coin_sized.2

/-- A body up to the three bytes of the signature of its only proof. -/
def openBody : List UInt8 :=
  [0xa3, 0x61, 0x6d, 0x61, 0x6d, 0x61, 0x75, 0x63, 0x73, 0x61, 0x74, 0x61, 0x74, 0x81,
    0xa2, 0x61, 0x69, 0x44, 0x00, 0xc0, 0xff, 0xee, 0x61, 0x70, 0x81,
    0xa3, 0x61, 0x61, 0x01, 0x61, 0x73, 0x64, 0x30, 0x30, 0x30, 0x30, 0x61, 0x63, 0x43]

def signed (c : List UInt8) : TokenV4 := ⟨"m", "sat", none, [⟨"00c0ffee", [⟨1, "00c0ffee", "0000", c, none⟩]⟩]⟩

end Toy32

theorem token_wire_round_trip_toy : ∃ body wire, encodeToken (coins "m" 1) = some body ∧
    encodeTokenWire (coins "m" 1) = some wire ∧ decodeToken body = some (coins "m" 1) ∧
    decodeTokenOrErr wire = .ok (coins "m" 1) := by
  obtain ⟨body, wire, hbody, hwire, hraw, -, hport, -⟩ :=
    token_wire_round_trip (coins_sized (by decide +kernel) (by decide)) (coins_canonical "m" 1)
  exact ⟨body, wire, hbody, hwire, hraw, hport⟩

theorem token_readers_agree_toy : decodeTokenOrErr ("cashuB" ++ (encodeBase64url openBody ++ "AQID")) =
    .ok (signed [1, 2, 3]) :=
  (token_readers_agree (encodeBase64url openBody ++ "AQID")).1 (List.all_iff_forall_prop.1 (by decide +kernel)) _
    (by decide +kernel)

/-- The crate takes `+` for a digit, and the port passes over it: one text is two tokens. With a foreign character the
crate refuses the text, and the port passes over that too. -/
theorem token_readers_differ :
    decodeToken (asBytes (Text.trim ("cashuB" ++ (encodeBase64url openBody ++ "++++AQID")))) =
        some (signed [0xfb, 0xef, 0xbe]) ∧
      decodeTokenOrErr ("cashuB" ++ (encodeBase64url openBody ++ "++++AQID")) = .ok (signed [1, 2, 3]) ∧
      signed [0xfb, 0xef, 0xbe] ≠ signed [1, 2, 3] ∧
      decodeToken (asBytes (Text.trim ("cashuB" ++ (encodeBase64url openBody ++ ".AQID")))) = none ∧
      decodeTokenOrErr ("cashuB" ++ (encodeBase64url openBody ++ ".AQID")) = .ok (signed [1, 2, 3]) := by
  refine ⟨by decide +kernel, Except.okOr_eq_ok.2 (by decide +kernel), by decide, by decide +kernel, ?_⟩
  exact Except.okOr_eq_ok.2 (by decide +kernel)

end toy

end Micronuts
