import Mathlib.Data.List.Forall2
import Micronuts.Lib.Utf8
import Micronuts.Nuts.Base64url

/-!
# Writing V4 tokens (`cashu-core-lite`: `token.rs`, `nuts/nut12.rs`)

The CBOR writer of a token, over the primitives of `minicbor`, and its text. Each reader reads what its writer wrote and
leaves the rest (`Reads`); a group's keyset id is written as bytes, so only lowercase hex comes back as it was.
-/

namespace Micronuts
open Decoder

/-- What `minicbor::Encoder` writes, and how the decoder takes it. -/
class MinicborCodec [Minicbor] where
  putMap : UInt64 → List UInt8
  putArray : UInt64 → List UInt8
  putStr : String → List UInt8
  putBytes : List UInt8 → List UInt8
  putU64 : UInt64 → List UInt8
  map_putMap : ∀ n, Reads Minicbor.map (putMap n) (some n)
  array_putArray : ∀ n, Reads Minicbor.array (putArray n) (some n)
  str_putStr : ∀ s, (asBytes s).length < 2 ^ 64 → Reads Minicbor.str (putStr s) s
  bytes_putBytes : ∀ bs, bs.length < 2 ^ 64 → Reads Minicbor.bytes (putBytes bs) bs
  u64_putU64 : ∀ n, Reads Minicbor.u64 (putU64 n) n
  -- the major type of a map is in the upper three bits of its first byte
  map_major : ∀ input len rest, Minicbor.map input = some (len, rest) → ∃ b tail, input = b :: tail ∧ b >>> 5 = 5

open MinicborCodec

section
variable [Crypto] [Minicbor] [MinicborCodec]

/-! ### Writers -/

def ProofDleq.encode (dleq : ProofDleq) : List UInt8 :=
  putMap 3 ++ (putStr "e" ++ (putBytes (Crypto.toSecretBytes dleq.e) ++
    (putStr "s" ++ (putBytes (Crypto.toSecretBytes dleq.s) ++
      (putStr "r" ++ putBytes (Crypto.toSecretBytes dleq.r))))))

def Token.Proof.encode (proof : Token.Proof) : List UInt8 :=
  putMap (match proof.dleq with | some _ => 4 | none => 3) ++
    (putStr "a" ++ (putU64 proof.amount ++ (putStr "s" ++ (putStr proof.secret ++ (putStr "c" ++ (putBytes proof.c ++
      match proof.dleq with
      | some dleq => putStr "d" ++ dleq.encode
      | none => []))))))

/-- `none` when the keyset id is not hex. -/
def TokenV4Token.encode (group : TokenV4Token) : Option (List UInt8) := do
  let idBytes ← Hex.decode group.keysetId
  pure (putMap 2 ++ (putStr "i" ++ (putBytes idBytes ++ (putStr "p" ++
    (putArray (UInt64.ofNat group.proofs.length) ++ group.proofs.flatMap Token.Proof.encode)))))

def TokenV4.encode (token : TokenV4) : Option (List UInt8) := do
  let groups ← token.tokens.mapM TokenV4Token.encode
  pure (putMap (match token.memo with | some _ => 4 | none => 3) ++
    (putStr "m" ++ (putStr token.mint ++ (putStr "u" ++ (putStr token.unit ++
      ((match token.memo with
        | some memo => putStr "d" ++ putStr memo
        | none => []) ++
      (putStr "t" ++ (putArray (UInt64.ofNat token.tokens.length) ++ groups.flatten))))))))

def encodeToken (token : TokenV4) : Option (List UInt8) := token.encode

def encodeTokenWire (token : TokenV4) : Option String := do
  let bytes ← encodeToken token
  pure ("cashuB" ++ encodeBase64url bytes)

/-! ### Maps and arrays -/

section reads
variable {σ α β : Type} {onEntry : String → σ → Decoder UInt8 σ} {acc mid out : σ} {bs cs : List UInt8}

omit [Crypto] in
theorem foreachKey_reads {n : UInt64} (h : Reads (times (entry onEntry) n.toNat acc) bs out) :
    Reads (foreachKey onEntry acc) (putMap n ++ bs) out :=
  (map_putMap n).bind h

omit [Crypto] in
/-- One entry, and the entries after it. -/
theorem entries_cons {key : String} {n : Nat} (hkey : (asBytes key).length < 2 ^ 64) (hvalue : Reads (onEntry key acc) bs mid)
    (hrest : Reads (times (entry onEntry) n mid) cs out) :
    Reads (times (entry onEntry) (n + 1) acc) (putStr key ++ (bs ++ cs)) out := by
  rw [← List.append_assoc]
  exact Reads.times_succ ((str_putStr key hkey).bind hvalue) hrest

omit [Crypto] in
theorem entries_last {key : String} (hkey : (asBytes key).length < 2 ^ 64) (hvalue : Reads (onEntry key acc) bs out) :
    Reads (times (entry onEntry) 1 acc) (putStr key ++ bs) out := by
  have h := entries_cons hkey hvalue (Reads.times_zero _ out)
  rwa [List.append_nil] at h

omit [Crypto] [Minicbor] [MinicborCodec] in
theorem times_push_reads {item : Decoder UInt8 β} {put : α → List UInt8} {value : α → β} {l : List α}
    (h : ∀ a ∈ l, Reads item (put a) (value a)) (out : List β) :
    Reads (times (push item) l.length out) (l.flatMap put) (out ++ l.map value) := by
  induction l generalizing out with
  | nil =>
    rw [List.map_nil, List.append_nil]
    exact Reads.times_zero _ out
  | cons a l ih =>
    rw [List.forall_mem_cons] at h
    have hpush : Reads (push item out) (put a) (out ++ [value a]) := h.1.bind_pure (Reads.pure _)
    have hrest := ih h.2 (out ++ [value a])
    rw [List.append_assoc, List.singleton_append] at hrest
    exact Reads.times_succ hpush hrest

omit [Crypto] in
theorem decodeArray_reads {item : Decoder UInt8 β} {put : α → List UInt8} {value : α → β} {l : List α}
    (hlen : l.length < 2 ^ 64) (h : ∀ a ∈ l, Reads item (put a) (value a)) :
    Reads (decodeArray item) (putArray (UInt64.ofNat l.length) ++ l.flatMap put) (l.map value) := by
  refine (array_putArray _).bind ?_
  have htimes := times_push_reads h []
  have hnat : (UInt64.ofNat l.length).toNat = l.length := UInt64.toNat_ofNat_of_lt' hlen
  rw [← hnat] at htimes
  exact htimes

end reads

/-! ### Round trips -/

/-- Every string and vector of the token has a length in 64 bits. -/
structure Token.Proof.Sized (p : Token.Proof) : Prop where
  secret : (asBytes p.secret).length < 2 ^ 64
  c : p.c.length < 2 ^ 64

structure TokenV4Token.Sized (group : TokenV4Token) : Prop where
  keysetId : (asBytes group.keysetId).length < 2 ^ 64
  length : group.proofs.length < 2 ^ 64
  proofs : ∀ p ∈ group.proofs, p.Sized

structure TokenV4.Sized (token : TokenV4) : Prop where
  mint : (asBytes token.mint).length < 2 ^ 64
  unit : (asBytes token.unit).length < 2 ^ 64
  memo : ∀ memo, token.memo = some memo → (asBytes memo).length < 2 ^ 64
  length : token.tokens.length < 2 ^ 64
  tokens : ∀ group ∈ token.tokens, group.Sized

omit [Crypto] [Minicbor] [MinicborCodec] in
theorem key_sized : ∀ key ∈ ["a", "s", "c", "d", "e", "r", "i", "p", "m", "u", "t"], (asBytes key).length < 2 ^ 64 := by
  decide +kernel

theorem decodeScalar_reads (k : SecretKey) : Reads decodeScalar (putBytes (Crypto.toSecretBytes k)) k := by
  have hlen : (Crypto.toSecretBytes k).length < 2 ^ 64 := by
    rw [Crypto.toSecretBytes_length]
    decide
  exact (bytes_putBytes _ hlen).bind_pure (Reads.lift (Crypto.fromSlice_toSecretBytes k))

theorem ProofDleq.decode_reads (dleq : ProofDleq) : Reads ProofDleq.decode dleq.encode dleq := by
  have hfields : Reads (foreachKey ProofDleq.onEntry {}) dleq.encode ⟨some dleq.e, some dleq.s, some dleq.r⟩ := by
    refine foreachKey_reads ?_
    show Reads (times (entry ProofDleq.onEntry) 3 _) _ _
    refine entries_cons (key_sized "e" (by simp)) ((decodeScalar_reads _).bind_pure (Reads.pure _)) ?_
    refine entries_cons (key_sized "s" (by simp)) ((decodeScalar_reads _).bind_pure (Reads.pure _)) ?_
    exact entries_last (key_sized "r" (by simp)) ((decodeScalar_reads _).bind_pure (Reads.pure _))
  exact hfields.bind_pure (Reads.pure _)

/-- A proof comes back without its keyset's id, which the group has. -/
theorem Token.Proof.decode_reads {p : Token.Proof} (h : p.Sized) :
    Reads Token.Proof.decode p.encode { p with keysetId := "" } := by
  obtain ⟨amount, keysetId, secret, c, dleq⟩ := p
  have ha := key_sized "a" (by simp)
  have hs := key_sized "s" (by simp)
  have hc := key_sized "c" (by simp)
  have hamount := u64_putU64 amount
  have hsecret := str_putStr secret h.secret
  have hpoint := bytes_putBytes c h.c
  have hfields : Reads (foreachKey Token.Proof.onEntry {}) (Token.Proof.encode ⟨amount, keysetId, secret, c, dleq⟩)
      ⟨some amount, some secret, some c, dleq⟩ := by
    refine foreachKey_reads ?_
    cases dleq with
    | none =>
      show Reads (times (entry Token.Proof.onEntry) 3 _) (_ ++ (_ ++ (_ ++ (_ ++ (_ ++ (_ ++ []))))))  _
      rw [List.append_nil]
      refine entries_cons ha (hamount.bind_pure (Reads.pure _)) ?_
      refine entries_cons hs (hsecret.bind_pure (Reads.pure _)) ?_
      exact entries_last hc (hpoint.bind_pure (Reads.pure _))
    | some dleq =>
      show Reads (times (entry Token.Proof.onEntry) 4 _) _ _
      refine entries_cons ha (hamount.bind_pure (Reads.pure _)) ?_
      refine entries_cons hs (hsecret.bind_pure (Reads.pure _)) ?_
      refine entries_cons hc (hpoint.bind_pure (Reads.pure _)) ?_
      exact entries_last (key_sized "d" (by simp)) ((ProofDleq.decode_reads dleq).bind_pure (Reads.pure _))
  exact hfields.bind_pure (Reads.pure _)

/-- The group's id is lowercase hex, and its proofs carry it. -/
structure TokenV4Token.Canonical (group : TokenV4Token) : Prop where
  lower : Hex.Lower group.keysetId
  carried : ∀ p ∈ group.proofs, p.keysetId = group.keysetId

theorem TokenV4Token.decode_reads {group : TokenV4Token} (h : group.Sized) (hcanonical : group.Canonical) :
    ∃ bytes, group.encode = some bytes ∧ Reads TokenV4Token.decode bytes group := by
  obtain ⟨idBytes, hdecode, hencode⟩ := hcanonical.lower.encode_decode
  have hid : idBytes.length < 2 ^ 64 := by
    have hlen := h.keysetId
    rw [← hencode, length_asBytes_encode] at hlen
    omega
  refine ⟨_, by rw [TokenV4Token.encode, hdecode]; rfl, ?_⟩
  have hproofs := decodeArray_reads h.length fun p hp => Token.Proof.decode_reads (h.proofs p hp)
  have hfields : Reads (foreachKey TokenV4Token.onEntry {}) (putMap 2 ++ (putStr "i" ++ (putBytes idBytes ++ (putStr "p" ++
      (putArray (UInt64.ofNat group.proofs.length) ++ group.proofs.flatMap Token.Proof.encode)))))
      ⟨some group.keysetId, some (group.proofs.map fun p => { p with keysetId := "" })⟩ := by
    refine foreachKey_reads ?_
    show Reads (times (entry TokenV4Token.onEntry) 2 _) _ _
    rw [← hencode]
    refine entries_cons (key_sized "i" (by simp)) ((bytes_putBytes idBytes hid).bind_pure (Reads.pure _)) ?_
    exact entries_last (key_sized "p" (by simp)) (hproofs.bind_pure (Reads.pure _))
  refine hfields.bind_pure ?_
  have hback : ((group.proofs.map fun p => { p with keysetId := "" }).map fun p => { p with keysetId := group.keysetId }) =
      group.proofs := by
    rw [List.map_map]
    calc group.proofs.map _ = group.proofs.map id := by
          refine List.map_congr_left fun p hp => ?_
          show ({ p with keysetId := group.keysetId } : Token.Proof) = p
          rw [← hcanonical.carried p hp]
      _ = group.proofs := List.map_id _
  have hgroup : Reads (pure ⟨group.keysetId, (group.proofs.map fun p => { p with keysetId := "" }).map
    fun p => { p with keysetId := group.keysetId }⟩ : Decoder UInt8 TokenV4Token) [] group := by
    rw [hback]
    exact Reads.pure _
  exact hgroup

/-! ### What is read is canonical -/

section yields
variable {σ α : Type} {onEntry : String → σ → Decoder UInt8 σ} {acc : σ}

omit [Crypto] [MinicborCodec] in
theorem foreachKey_yields {I : σ → Prop} (hentry : ∀ key acc, I acc → Yields (onEntry key acc) I) (h : I acc) :
    Yields (foreachKey onEntry acc) I := by
  have hstep : ∀ acc, I acc → Yields (entry onEntry acc) I := fun acc hacc => .of_rest fun key => hentry key acc hacc
  refine .of_rest fun len => ?_
  cases len with
  | some n => exact .times hstep n.toNat h
  | none => exact .loop hstep h

omit [Crypto] [MinicborCodec] in
theorem decodeArray_yields {item : Decoder UInt8 α} {P : α → Prop} (hitem : Yields item P) :
    Yields (decodeArray item) fun out => ∀ a ∈ out, P a := by
  have hstep : ∀ out : List α, (∀ a ∈ out, P a) → Yields (push item out) fun out => ∀ a ∈ out, P a := by
    refine fun out hout => hitem.bind fun a ha => .pure ?_
    rw [List.forall_mem_append, List.forall_mem_singleton]
    exact ⟨hout, ha⟩
  refine .of_rest fun len => ?_
  cases len with
  | some n => exact .times hstep n.toNat (by simp)
  | none => exact .loop hstep (by simp)

end yields

omit [MinicborCodec] in
theorem TokenV4Token.decode_canonical : Yields TokenV4Token.decode TokenV4Token.Canonical := by
  have hfields : Yields (foreachKey TokenV4Token.onEntry {}) fun f => ∀ keysetId, f.keysetId = some keysetId →
      Hex.Lower keysetId := by
    refine foreachKey_yields (fun key f hf => ?_) nofun
    unfold TokenV4Token.onEntry
    split_ifs
    · refine .of_rest fun bytes => .pure fun keysetId heq => ?_
      cases heq
      exact Hex.lower_encode bytes
    · exact .of_rest fun _ => .pure hf
    · exact .of_rest fun _ => .pure hf
  refine hfields.bind fun f hf => ?_
  refine Yields.bind (Yields.lift fun keysetId heq => hf keysetId heq) fun keysetId hlower => ?_
  refine .of_rest fun proofs => .pure ⟨hlower, fun p hp => ?_⟩
  obtain ⟨q, -, rfl⟩ := List.mem_map.1 hp
  rfl

omit [MinicborCodec] in
theorem TokenV4.decode_canonical : Yields TokenV4.decode fun token => ∀ g ∈ token.tokens, g.Canonical := by
  have hfields : Yields (foreachKey TokenV4.onEntry {}) fun f =>
      ∀ tokens, f.tokens = some tokens → ∀ g ∈ tokens, g.Canonical := by
    refine foreachKey_yields (fun key f hf => ?_) nofun
    unfold TokenV4.onEntry
    split_ifs
    · exact .of_rest fun _ => .pure hf
    · exact .of_rest fun _ => .pure hf
    · exact .of_rest fun _ => .pure hf
    · refine (decodeArray_yields TokenV4Token.decode_canonical).bind fun groups hgroups => .pure fun tokens heq => ?_
      cases heq
      exact hgroups
    · exact .of_rest fun _ => .pure hf
  refine hfields.bind fun f hf => .of_rest fun mint => .of_rest fun unit => ?_
  exact Yields.bind (Yields.lift fun tokens heq => hf tokens heq) fun tokens htokens => .pure htokens

omit [MinicborCodec] in
/-- The groups of a token that was read have ids in lowercase hex, and their proofs carry them. -/
theorem decodeToken_canonical {data : List UInt8} {token : TokenV4} (h : decodeToken data = some token) :
    ∀ g ∈ token.tokens, g.Canonical := by
  have hbody : ∀ body, minicborDecode TokenV4.decode body = some token → ∀ g ∈ token.tokens, g.Canonical := by
    intro body hdecode
    obtain ⟨⟨token', rest⟩, hrun, rfl⟩ := Option.map_eq_some_iff.1 hdecode
    exact TokenV4.decode_canonical _ _ _ hrun
  rcases Option.or_eq_some_iff.1 h with h | ⟨-, h⟩
  · obtain ⟨body, -, hdecode⟩ := Option.bind_eq_some_iff.1 h
    exact hbody body hdecode
  · exact hbody _ h

/-! ### Whole tokens -/

/-- Each group is written, and the reader takes them in their order. -/
theorem groups_reads {groups : List TokenV4Token} (hsized : ∀ g ∈ groups, g.Sized)
    (hcanonical : ∀ g ∈ groups, g.Canonical) : ∃ bytes, groups.mapM TokenV4Token.encode = some bytes ∧
      ∀ out, Reads (times (push TokenV4Token.decode) groups.length out) bytes.flatten (out ++ groups) := by
  induction groups with
  | nil => exact ⟨[], rfl, fun out => by rw [List.append_nil]; exact Reads.times_zero _ out⟩
  | cons g groups ih =>
    rw [List.forall_mem_cons] at hsized hcanonical
    obtain ⟨bs, hbs, hg⟩ := TokenV4Token.decode_reads hsized.1 hcanonical.1
    obtain ⟨rest, hrest, hgroups⟩ := ih hsized.2 hcanonical.2
    refine ⟨bs :: rest, by rw [List.mapM_cons, hbs, hrest]; rfl, fun out => ?_⟩
    have hpush : Reads (push TokenV4Token.decode out) bs (out ++ [g]) := hg.bind_pure (Reads.pure _)
    have hmore := hgroups (out ++ [g])
    rw [List.append_assoc, List.singleton_append] at hmore
    exact Reads.times_succ hpush hmore

theorem TokenV4.decode_reads {token : TokenV4} (h : token.Sized) (hcanonical : ∀ g ∈ token.tokens, g.Canonical) :
    ∃ bytes, encodeToken token = some bytes ∧ Reads TokenV4.decode bytes token := by
  obtain ⟨mint, unit, memo, tokens⟩ := token
  obtain ⟨groups, hgroups, hread⟩ := groups_reads h.tokens hcanonical
  have harray : Reads (decodeArray TokenV4Token.decode) (putArray (UInt64.ofNat tokens.length) ++ groups.flatten) tokens := by
    refine (array_putArray _).bind ?_
    have hnat : (UInt64.ofNat tokens.length).toNat = tokens.length := UInt64.toNat_ofNat_of_lt' h.length
    have hall := hread []
    rw [← hnat] at hall
    exact hall
  have hm := key_sized "m" (by simp)
  have hu := key_sized "u" (by simp)
  have ht := key_sized "t" (by simp)
  have hmint := str_putStr mint h.mint
  have hunit := str_putStr unit h.unit
  refine ⟨_, by rw [encodeToken, TokenV4.encode, hgroups]; rfl, ?_⟩
  refine Reads.bind_pure (foreachKey_reads ?_ : Reads (foreachKey TokenV4.onEntry {}) _
    ⟨some mint, some unit, memo, some tokens⟩)
    (Reads.pure _)
  cases memo with
  | none =>
    show Reads (times (entry TokenV4.onEntry) 3 _) _ _
    refine entries_cons hm (hmint.bind_pure (Reads.pure _)) ?_
    refine entries_cons hu (hunit.bind_pure (Reads.pure _)) ?_
    exact entries_last ht (harray.bind_pure (Reads.pure _))
  | some memo =>
    show Reads (times (entry TokenV4.onEntry) 4 _) _ _
    refine entries_cons hm (hmint.bind_pure (Reads.pure _)) ?_
    refine entries_cons hu (hunit.bind_pure (Reads.pure _)) ?_
    rw [List.append_assoc]
    refine entries_cons (key_sized "d" (by simp)) ((str_putStr memo (h.memo memo rfl)).bind_pure (Reads.pure _)) ?_
    exact entries_last ht (harray.bind_pure (Reads.pure _))

/-! ### Bodies and texts -/

omit [Crypto] [Minicbor] [MinicborCodec] in
/-- The first byte of a map is neither a digit, nor padding, nor the first of a prefix. -/
theorem mapByte_foreign {b : UInt8} (h : b >>> 5 = 5) :
    base64Value b = none ∧ b ≠ '='.toUInt8 ∧ b ≠ 'c'.toUInt8 ∧ 0x80 ≤ b ∧ b < 0xC0 := by
  refine @forall_byte (fun b => b >>> 5 = 5 →
    base64Value b = none ∧ b ≠ '='.toUInt8 ∧ b ≠ 'c'.toUInt8 ∧ 0x80 ≤ b ∧ b < 0xC0) ?_ b h
  decide +kernel

omit [Crypto] [Minicbor] [MinicborCodec] in
theorem unpadded_cons {b : UInt8} (h : b ≠ '='.toUInt8) (tail : List UInt8) : ∃ tail', unpadded (b :: tail) = b :: tail' := by
  obtain ⟨n, hn⟩ := unpadded_append (b :: tail)
  rcases hun : unpadded (b :: tail) with - | ⟨b', tail'⟩
  · rw [hun, List.nil_append] at hn
    have hb : b ∈ List.replicate n '='.toUInt8 := by simp [← hn]
    exact absurd (List.eq_of_mem_replicate hb) h
  · rw [hun, List.cons_append, List.cons.injEq] at hn
    exact ⟨tail', by rw [hn.1]⟩

omit [Crypto] [Minicbor] [MinicborCodec] in
/-- What begins outside the alphabets is no text, or a single digit that is not read. -/
theorem decodeBase64url_foreign {b : UInt8} (hvalue : base64Value b = none) (hpad : b ≠ '='.toUInt8) (tail : List UInt8) :
    decodeBase64url (b :: tail) = none ∨ decodeBase64url (b :: tail) = some [] := by
  obtain ⟨tail', htail⟩ := unpadded_cons hpad tail
  rw [decodeBase64url_eq, htail]
  match tail' with
  | [] => exact .inr rfl
  | [_] => simp [decodeGroups, hvalue]
  | [_, _] => simp [decodeGroups, hvalue]
  | _ :: _ :: _ :: _ => simp [decodeGroups, hvalue]

/-- What reads as a token begins with the head of a map. -/
theorem tokenBody_head {body : List UInt8} {token : TokenV4} (h : minicborDecode TokenV4.decode body = some token) :
    ∃ b tail, body = b :: tail ∧ b >>> 5 = 5 := by
  obtain ⟨⟨_, rest⟩, hdecode, -⟩ := Option.map_eq_some_iff.1 h
  obtain ⟨fields, mid, hfields, -⟩ := run_bind_eq_some.1 hdecode
  obtain ⟨len, mid', hmap, -⟩ := run_bind_eq_some.1 hfields
  exact map_major _ _ _ hmap

/-- A body is never taken for a text. -/
theorem decodeToken_body {body : List UInt8} {token : TokenV4} (h : minicborDecode TokenV4.decode body = some token) :
    decodeToken body = some token := by
  obtain ⟨b, tail, rfl, hb⟩ := tokenBody_head h
  obtain ⟨hvalue, hpad, hprefix, -⟩ := mapByte_foreign hb
  have hcashu : stripPrefix (asBytes "cashuB") (b :: tail) = none := by
    rw [stripPrefix, if_neg]
    rw [show asBytes "cashuB" = 'c'.toUInt8 :: asBytes "ashuB" by decide +kernel]
    simp [Ne.symm hprefix]
  have hcraw : stripPrefix (asBytes "crawB") (b :: tail) = none := by
    rw [stripPrefix, if_neg]
    rw [show asBytes "crawB" = 'c'.toUInt8 :: asBytes "rawB" by decide +kernel]
    simp [Ne.symm hprefix]
  have hempty : minicborDecode TokenV4.decode [] = none := by
    by_contra hsome
    obtain ⟨_, hsome⟩ := Option.ne_none_iff_exists'.1 hsome
    obtain ⟨_, _, hnil, -⟩ := tokenBody_head hsome
    cases hnil
  rw [decodeToken, hcashu, hcraw, Option.none_or, Option.getD_none]
  rcases decodeBase64url_foreign hvalue hpad tail with htext | htext
  · rw [htext, Option.bind_none, Option.none_or, h]
  · rw [htext, Option.bind_some, hempty, Option.none_or, h]

theorem decodeToken_reads {body : List UInt8} {token : TokenV4} (h : Reads TokenV4.decode body token) :
    decodeToken body = some token :=
  decodeToken_body (by rw [minicborDecode, h.run]; rfl)

omit [MinicborCodec] in
/-- The text of a body, after its prefix, is read as the body. -/
theorem decodeToken_text {body : List UInt8} {token : TokenV4} (h : minicborDecode TokenV4.decode body = some token) :
    decodeToken (asBytes ("cashuB" ++ encodeBase64url body)) = some token := by
  have hstrip : stripPrefix (asBytes "cashuB") (asBytes ("cashuB" ++ encodeBase64url body)) =
      some (asBytes (encodeBase64url body)) := by
    rw [asBytes_append, stripPrefix, if_pos (by simp), List.drop_left]
  rw [decodeToken, hstrip, Option.some_or, Option.getD_some, decodeBase64url_encodeBase64url, Option.bind_some, h,
    Option.some_or]

/-! ### Ids in uppercase -/

/-- The group as it comes back: with its id in lowercase, which its proofs carry. -/
def TokenV4Token.lowered (group : TokenV4Token) (idBytes : List UInt8) : TokenV4Token where
  keysetId := Hex.encode idBytes
  proofs := group.proofs.map fun p => { p with keysetId := Hex.encode idBytes }

/-- The second is the first as it comes back. -/
def TokenV4Token.Lowers (group group' : TokenV4Token) : Prop :=
  ∃ idBytes, Hex.decode group.keysetId = some idBytes ∧ group' = group.lowered idBytes

namespace TokenV4Token.Lowers
variable {group group' : TokenV4Token}

theorem encode_eq (h : group.Lowers group') : group'.encode = group.encode := by
  obtain ⟨idBytes, hid, rfl⟩ := h
  rw [TokenV4Token.encode, TokenV4Token.encode, hid, lowered, Hex.decode_encode, List.length_map, List.flatMap_map]
  rfl

omit [Minicbor] [MinicborCodec] in
theorem canonical (h : group.Lowers group') : group'.Canonical := by
  obtain ⟨idBytes, -, rfl⟩ := h
  refine ⟨Hex.lower_encode idBytes, fun p hp => ?_⟩
  obtain ⟨q, -, rfl⟩ := List.mem_map.1 hp
  rfl

omit [Minicbor] [MinicborCodec] in
theorem sized (h : group.Lowers group') (hsized : group.Sized) : group'.Sized := by
  obtain ⟨idBytes, hid, rfl⟩ := h
  refine ⟨?_, by rw [lowered, List.length_map]; exact hsized.length, fun p hp => ?_⟩
  · have hlength := Hex.length_decodeDigits hid
    have hle := Utf8.length_le_encode group.keysetId.toList
    have hlt := hsized.keysetId
    rw [asBytes_eq_flatMap] at hlt
    show (asBytes (Hex.encode idBytes)).length < 2 ^ 64
    rw [length_asBytes_encode, ← hlength]
    exact hle.trans_lt hlt
  · obtain ⟨q, hq, rfl⟩ := List.mem_map.1 hp
    exact ⟨(hsized.proofs q hq).secret, (hsized.proofs q hq).c⟩

end TokenV4Token.Lowers

theorem mapM_encode_lowers {groups : List TokenV4Token} {bytes : List (List UInt8)} (hsized : ∀ g ∈ groups, g.Sized)
    (h : groups.mapM TokenV4Token.encode = some bytes) : ∃ groups', List.Forall₂ TokenV4Token.Lowers groups groups' ∧
      groups'.mapM TokenV4Token.encode = some bytes ∧ (∀ g ∈ groups', g.Sized) ∧ ∀ g ∈ groups', g.Canonical := by
  induction groups generalizing bytes with
  | nil => exact ⟨[], .nil, h, by simp, by simp⟩
  | cons g groups ih =>
    rw [List.forall_mem_cons] at hsized
    rw [List.mapM_cons] at h
    obtain ⟨bs, hbs, h⟩ := Option.bind_eq_some_iff.1 h
    obtain ⟨rest, hrest, h⟩ := Option.bind_eq_some_iff.1 h
    obtain ⟨idBytes, hid, -⟩ := Option.bind_eq_some_iff.1 hbs
    obtain ⟨groups', hlowers, hencode, hsized', hcanonical⟩ := ih hsized.2 hrest
    have hg : g.Lowers (g.lowered idBytes) := ⟨idBytes, hid, rfl⟩
    refine ⟨g.lowered idBytes :: groups', .cons hg hlowers, ?_, ?_, ?_⟩
    · rw [List.mapM_cons, hg.encode_eq, hbs, hencode]
      exact h
    · exact List.forall_mem_cons.2 ⟨hg.sized hsized.1, hsized'⟩
    · exact List.forall_mem_cons.2 ⟨hg.canonical, hcanonical⟩

/-- A token that was written comes back with the ids of its groups in lowercase, and its proofs with them. -/
theorem decodeToken_written {token : TokenV4} {wire : String} (hsized : token.Sized) (h : encodeTokenWire token = some wire) :
    ∃ groups, List.Forall₂ TokenV4Token.Lowers token.tokens groups ∧
      decodeToken (asBytes wire) = some { token with tokens := groups } := by
  obtain ⟨bytes, hbytes, hwire⟩ := Option.bind_eq_some_iff.1 h
  cases hwire
  obtain ⟨bss, hbss, hbody⟩ := Option.bind_eq_some_iff.1 hbytes
  obtain ⟨groups, hlowers, hgroups, hsized', hcanonical⟩ := mapM_encode_lowers hsized.tokens hbss
  have hlength := hlowers.length_eq
  let lowered : TokenV4 := { token with tokens := groups }
  have hsame : encodeToken lowered = some bytes := by
    rw [← hbytes, encodeToken, encodeToken, TokenV4.encode, TokenV4.encode, hgroups, hbss, hlength]
  obtain ⟨bytes', hbytes', hreads⟩ := @TokenV4.decode_reads _ _ _ lowered
    ⟨hsized.mint, hsized.unit, hsized.memo, hlength ▸ hsized.length, hsized'⟩ hcanonical
  obtain rfl := Option.some.inj (hsame.symm.trans hbytes')
  exact ⟨groups, hlowers, decodeToken_text (by rw [minicborDecode, hreads.run]; rfl)⟩

end

/-! ### The writer of the toy -/

namespace ToyCbor

/-- The argument of a head in `w` bytes. -/
def bigEndian : Nat → Nat → List UInt8
  | 0, _ => []
  | w + 1, n => bigEndian w (n / 256) ++ [UInt8.ofNat n]

def putHead (major : UInt8) (n : UInt64) : List UInt8 :=
  if n < 24 then [major <<< 5 ||| n.toUInt8]
  else if n < 0x100 then (major <<< 5 ||| 24) :: bigEndian 1 n.toNat
  else if n < 0x10000 then (major <<< 5 ||| 25) :: bigEndian 2 n.toNat
  else if n < 0x100000000 then (major <<< 5 ||| 26) :: bigEndian 4 n.toNat
  else (major <<< 5 ||| 27) :: bigEndian 8 n.toNat

theorem bigEndian_length (w n : Nat) : (bigEndian w n).length = w := by
  induction w generalizing n with
  | zero => rfl
  | succ w ih => rw [bigEndian, List.length_append, ih, List.length_singleton]

theorem foldl_bigEndian {w n : Nat} (h : n < 256 ^ w) :
    (bigEndian w n).foldl (fun acc b => 256 * acc + b.toNat) 0 = n := by
  induction w generalizing n with
  | zero =>
    rw [Nat.pow_zero, Nat.lt_one_iff] at h
    exact h.symm
  | succ w ih =>
    have hdiv : n / 256 < 256 ^ w := Nat.div_lt_of_lt_mul (by rwa [Nat.pow_succ, Nat.mul_comm] at h)
    rw [bigEndian, List.foldl_append, ih hdiv, List.foldl_cons, List.foldl_nil, UInt8.toNat_ofNat']
    exact Nat.div_add_mod n 256

theorem takeBytes_reads (bs : List UInt8) : Reads (takeBytes bs.length) bs bs := by
  intro rest
  simp [takeBytes]

theorem argument_wide {info : UInt8} {w n : Nat} (h24 : ¬ info < 24) (h31 : info ≠ 31) (h27 : ¬ 27 < info)
    (hw : w = 2 ^ (info.toNat - 24)) (hn : n < 256 ^ w) : Reads (argument info) (bigEndian w n) n := by
  have htake := takeBytes_reads (bigEndian w n)
  rw [bigEndian_length, hw] at htake
  rw [argument, if_neg h24, if_neg h31, if_neg h27]
  subst hw
  exact htake.bind_pure (by rw [foldl_bigEndian hn]; exact Reads.pure n)

theorem headByte {major info : UInt8} (hmajor : major < 8) (hinfo : info < 32) :
    (major <<< 5 ||| info) >>> 5 = major ∧ (major <<< 5 ||| info) &&& 31 = info := by
  have hall : ∀ m < 8, ∀ k < 32, (UInt8.ofNat m <<< 5 ||| UInt8.ofNat k) >>> 5 = UInt8.ofNat m ∧
      (UInt8.ofNat m <<< 5 ||| UInt8.ofNat k) &&& 31 = UInt8.ofNat k := by decide +kernel
  have := hall major.toNat hmajor info.toNat hinfo
  rwa [UInt8.ofNat_toNat, UInt8.ofNat_toNat] at this

theorem head_reads {major info : UInt8} {n : Nat} {bs : List UInt8} (hmajor : major < 8) (hinfo : info < 32)
    (h : Reads (argument info) bs n) : Reads head ((major <<< 5 ||| info) :: bs) (major, info, n) := by
  obtain ⟨hshift, hmask⟩ := headByte hmajor hinfo
  have hnext : Reads next [major <<< 5 ||| info] (major <<< 5 ||| info) := fun _ => rfl
  show Reads head ([major <<< 5 ||| info] ++ bs) _
  refine hnext.bind ?_
  rw [hmask, hshift]
  exact h.bind_pure (Reads.pure _)

/-- The head of a length or a number is read back, and is not that of an indefinite item. -/
theorem putHead_reads {major : UInt8} (hmajor : major < 8) (n : UInt64) :
    ∃ info ≠ 31, Reads head (putHead major n) (major, info, n.toNat) := by
  have hn := n.toNat_lt
  unfold putHead
  split_ifs with h₁ h₂ h₃ h₄
  · have hnat : n.toUInt8.toNat = n.toNat := by
      rw [UInt64.toNat_toUInt8]
      exact Nat.mod_eq_of_lt (lt_trans h₁ (by decide))
    have hlt : n.toUInt8 < 24 := by
      rw [UInt8.lt_iff_toNat_lt, hnat]
      exact h₁
    refine ⟨n.toUInt8, ?_, head_reads hmajor (UInt8.lt_trans hlt (by decide)) ?_⟩
    · rintro heq
      rw [heq] at hlt
      exact absurd hlt (by decide)
    · rw [argument, if_pos hlt, hnat]
      exact Reads.pure _
  · exact ⟨24, by decide, head_reads hmajor (by decide) (argument_wide (by decide) (by decide) (by decide) rfl h₂)⟩
  · exact ⟨25, by decide, head_reads hmajor (by decide) (argument_wide (by decide) (by decide) (by decide) rfl h₃)⟩
  · exact ⟨26, by decide, head_reads hmajor (by decide) (argument_wide (by decide) (by decide) (by decide) rfl h₄)⟩
  · exact ⟨27, by decide, head_reads hmajor (by decide) (argument_wide (by decide) (by decide) (by decide) rfl hn)⟩

theorem lengthOf_reads {major : UInt8} (hmajor : major < 8) (n : UInt64) :
    Reads (lengthOf major) (putHead major n) (some n) := by
  obtain ⟨info, hinfo, hhead⟩ := putHead_reads hmajor n
  refine hhead.bind_pure ?_
  dsimp only
  rw [if_neg (by simp), if_neg hinfo, UInt64.ofNat_toNat]
  exact Reads.pure _

/-- A length is read after a byte of its major type. -/
theorem lengthOf_major {major : UInt8} {input rest : List UInt8} {len : Option UInt64}
    (h : lengthOf major input = some (len, rest)) : ∃ b tail, input = b :: tail ∧ b >>> 5 = major := by
  obtain ⟨⟨m, info, n⟩, mid, hhead, hlen⟩ := run_bind_eq_some.1 h
  obtain ⟨b, mid', hnext, hhead⟩ := run_bind_eq_some.1 hhead
  obtain ⟨n', mid'', -, hpure⟩ := run_bind_eq_some.1 hhead
  cases hpure
  rcases input with - | ⟨b', tail⟩
  · cases hnext
  · cases hnext
    refine ⟨b, mid', rfl, ?_⟩
    by_contra hmajor
    dsimp only at hlen
    rw [if_pos hmajor] at hlen
    cases hlen

theorem payload_reads {major : UInt8} (hmajor : major < 8) {bs : List UInt8} (hbs : bs.length < 2 ^ 64) :
    Reads (payload major) (putHead major (UInt64.ofNat bs.length) ++ bs) bs := by
  obtain ⟨info, hinfo, hhead⟩ := putHead_reads hmajor (UInt64.ofNat bs.length)
  refine hhead.bind ?_
  dsimp only
  rw [if_neg (by simpa using hinfo), UInt64.toNat_ofNat_of_lt' hbs]
  exact takeBytes_reads bs

theorem unsigned_reads (n : UInt64) : Reads unsigned (putHead 0 n) n := by
  obtain ⟨info, hinfo, hhead⟩ := putHead_reads (by decide : (0 : UInt8) < 8) n
  refine hhead.bind_pure ?_
  dsimp only
  rw [if_neg (by simpa using hinfo), UInt64.ofNat_toNat]
  exact Reads.pure _

theorem text_reads {s : String} (hs : (asBytes s).length < 2 ^ 64) :
    Reads text (putHead 3 (UInt64.ofNat (asBytes s).length) ++ asBytes s) s :=
  (payload_reads (by decide) hs).bind_pure (Reads.lift (fromUTF8?_asBytes s))

scoped instance codec : MinicborCodec where
  putMap := putHead 5
  putArray := putHead 4
  putStr s := putHead 3 (UInt64.ofNat (asBytes s).length) ++ asBytes s
  putBytes bs := putHead 2 (UInt64.ofNat bs.length) ++ bs
  putU64 := putHead 0
  map_putMap := lengthOf_reads (by decide)
  array_putArray := lengthOf_reads (by decide)
  str_putStr _ := text_reads
  bytes_putBytes _ := payload_reads (by decide)
  u64_putU64 := unsigned_reads
  map_major _ _ _ := lengthOf_major

end ToyCbor

end Micronuts
