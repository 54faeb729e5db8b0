import Micronuts.Nuts.TokenCompat

/-!
# What a V3 token holds

The proofs of every entry are put in groups by their keyset ids, and none is lost or changed. The mint is read from the first
entry only: a token whose entries name different mints holds all their proofs under that one (`decodeTokenAny_faithful`).
-/

namespace Micronuts

/-! ### Standard base64 -/

def standardDigit (n : Nat) : UInt8 :=
  UInt8.ofNat (if n < 26 then 65 + n else if n < 52 then 71 + n else if n < 62 then n - 4 else if n = 62 then 43 else 47)

/-- Four digits for three bytes, and less for one or two at the end. -/
def encodeUnpadded : List UInt8 → List UInt8
  | a :: b :: c :: rest =>
    let n := a.toNat * 65536 + b.toNat * 256 + c.toNat
    standardDigit (n / 262144) :: standardDigit (n / 4096 % 64) :: standardDigit (n / 64 % 64) :: standardDigit (n % 64) ::
      encodeUnpadded rest
  | [a, b] =>
    let n := a.toNat * 1024 + b.toNat * 4
    [standardDigit (n / 4096), standardDigit (n / 64 % 64), standardDigit (n % 64)]
  | [a] => [standardDigit (a.toNat / 4), standardDigit (a.toNat % 4 * 16)]
  | [] => []

def encodePadded (bytes : List UInt8) : List UInt8 :=
  match bytes.length % 3 with
  | 1 => encodeUnpadded bytes ++ asBytes "=="
  | 2 => encodeUnpadded bytes ++ asBytes "="
  | _ => encodeUnpadded bytes

theorem length_encodeUnpadded (bytes : List UInt8) :
    (encodeUnpadded bytes).length = 4 * (bytes.length / 3) + (if bytes.length % 3 = 0 then 0 else bytes.length % 3 + 1) := by
  fun_induction encodeUnpadded bytes with
  | case1 a b c rest n ih =>
    simp only [List.length_cons, ih]
    split_ifs <;> omega
  | case2 => simp
  | case3 => simp
  | case4 => rfl

/-- Padded or not, the text is handed on padded. -/
theorem padBase64_encode (bytes : List UInt8) :
    padBase64 (encodeUnpadded bytes) = encodePadded bytes ∧ padBase64 (encodePadded bytes) = encodePadded bytes := by
  have hlength := length_encodeUnpadded bytes
  have htwo : (asBytes "==").length = 2 := by decide
  have hone : (asBytes "=").length = 1 := by decide
  have hmod : bytes.length % 3 = 0 ∨ bytes.length % 3 = 1 ∨ bytes.length % 3 = 2 := by omega
  rcases hmod with h | h | h
  · rw [if_pos h] at hlength
    have hzero : (encodeUnpadded bytes).length % 4 = 0 := by omega
    simp only [encodePadded, h, padBase64, hzero, and_self]
  · rw [h, if_neg (by decide)] at hlength
    have hunpadded : (encodeUnpadded bytes).length % 4 = 2 := by omega
    have hpadded : (encodeUnpadded bytes ++ asBytes "==").length % 4 = 0 := by rw [List.length_append]; omega
    simp only [encodePadded, h, padBase64, hunpadded, hpadded, and_self]
  · rw [h, if_neg (by decide)] at hlength
    have hunpadded : (encodeUnpadded bytes).length % 4 = 3 := by omega
    have hpadded : (encodeUnpadded bytes ++ asBytes "=").length % 4 = 0 := by rw [List.length_append]; omega
    simp only [encodePadded, h, padBase64, hunpadded, hpadded, and_self]

/-! ### Groups -/

section groups
variable {α : Type} {k : String} {acc : List (String × List α)}

/-- What is held under each name, one by one. -/
def spread (acc : List (String × List α)) : List (String × α) := acc.flatMap fun (k, l) => l.map fun a => (k, a)

def Ascending (acc : List (String × List α)) : Prop := (acc.map Prod.fst).Pairwise (· < ·)

theorem lookup_eq_none (h : ∀ k' ∈ acc.map Prod.fst, k < k') : Members.lookup k acc = none := by
  induction acc with
  | nil => rfl
  | cons kv acc ih =>
    obtain ⟨hk, hacc⟩ := List.forall_mem_cons.1 h
    have hne : kv.1 ≠ k := fun heq => String.lt_irrefl k (by rwa [heq] at hk)
    rw [Members.lookup_cons, if_neg hne, ih hacc]

theorem mem_insert {k' : String} {l : List α} (h : k' ∈ (Members.insert k l acc).map Prod.fst) :
    k' = k ∨ k' ∈ acc.map Prod.fst := by
  induction acc with
  | nil => simpa [Members.insert] using h
  | cons kv acc ih =>
    rw [Members.insert] at h
    split_ifs at h with hlt heq
    · simpa using h
    · subst heq
      simp only [List.map_cons, List.mem_cons] at h ⊢
      exact .inr h
    · simp only [List.map_cons, List.mem_cons] at h ⊢
      rcases h with h | h
      · exact .inr (.inl h)
      · exact (ih h).imp_right .inr

/-- `entry(k).or_default().push(a)`. -/
def pushUnder (k : String) (a : α) (acc : List (String × List α)) : List (String × List α) :=
  Members.insert k ((Members.lookup k acc).getD [] ++ [a]) acc

theorem pushUnder_spec (h : Ascending acc) (a : α) :
    Ascending (pushUnder k a acc) ∧ (spread (pushUnder k a acc)).Perm ((k, a) :: spread acc) := by
  induction acc with
  | nil => exact ⟨List.pairwise_singleton .., .refl _⟩
  | cons kv acc ih =>
    obtain ⟨k', l⟩ := kv
    obtain ⟨hk', hacc⟩ := List.pairwise_cons.1 h
    rw [pushUnder, Members.insert, Members.lookup_cons]
    by_cases hlt : k < k'
    · have hfirst : ∀ k'' ∈ ((k', l) :: acc).map Prod.fst, k < k'' :=
        List.forall_mem_cons.2 ⟨hlt, fun k'' hk'' => String.lt_trans hlt (hk' k'' hk'')⟩
      rw [if_pos hlt, ← Members.lookup_cons k k' l acc, lookup_eq_none hfirst]
      exact ⟨List.pairwise_cons.2 ⟨hfirst, h⟩, .refl _⟩
    · by_cases heq : k = k'
      · subst heq
        rw [if_neg hlt, if_pos rfl, if_pos rfl]
        refine ⟨h, ?_⟩
        show (((l ++ [a]).map fun a => (k, a)) ++ spread acc).Perm ((k, a) :: (l.map (fun a => (k, a)) ++ spread acc))
        rw [List.map_append, List.append_assoc]
        exact List.perm_middle
      · rw [if_neg hlt, if_neg heq, if_neg (Ne.symm heq)]
        obtain ⟨hsorted, hperm⟩ := ih hacc
        have hgt : k' < k := by
          by_contra hge
          exact heq (String.le_antisymm (String.not_lt.1 hge) (String.not_lt.1 hlt))
        refine ⟨List.pairwise_cons.2 ⟨fun k'' hk'' => ?_, hsorted⟩, ?_⟩
        · rcases mem_insert hk'' with rfl | hk''
          · exact hgt
          · exact hk' k'' hk''
        · show ((l.map fun a => (k', a)) ++ spread (pushUnder k a acc)).Perm
              ((k, a) :: ((l.map fun a => (k', a)) ++ spread acc))
          exact (hperm.append_left _).trans List.perm_middle

end groups

/-! ### Entries -/

/-- A proof of a V3 token: keyset id, amount, secret and point. -/
def v3Read (p : Value) : Option (String × UInt64 × String × List UInt8) := do
  let id ← (p.get "id").bind Value.asStr
  let amount ← (p.get "amount").bind Value.asU64
  let secret ← (p.get "secret").bind Value.asStr
  let c ← ((p.get "C").bind Value.asStr).bind Hex.decode
  pure (id, amount, secret, c)

def entryMint (entry : Value) : Option String := (entry.get "mint").bind Value.asStr

def entryProofs (entry : Value) : List (String × UInt64 × String × List UInt8) :=
  (((entry.get "proofs").bind Value.asArray).getD []).filterMap v3Read

/-- An entry with a list of proofs that can all be read. -/
def Legible (entry : Value) : Prop :=
  ∃ proofsJson, (entry.get "proofs").bind Value.asArray = some proofsJson ∧ ∀ p ∈ proofsJson, ∃ k, v3Read p = some k

section entries
variable [Crypto] [TokenCrates] {entry p v3 : Value} {entries proofsJson : List Value} {q : Token.Proof}
    {proofs : List Token.Proof}

omit [TokenCrates] in
theorem v3Proof_eq_ok :
    v3Proof p = .ok q ↔ v3Read p = some (q.keysetId, q.amount, q.secret, q.c) ∧ q.dleq = none := by
  simp only [v3Proof, v3Field, v3Read, Except.bind_eq_ok, Except.okOr_eq_ok, Option.bind_eq_bind, Option.bind_eq_some_iff,
    Option.pure_def, Option.some.injEq, Prod.mk.injEq]
  constructor
  · rintro ⟨id, hid, amount, hamount, secret, hsecret, cHex, hcHex, c, hc, h⟩
    cases h
    exact ⟨⟨id, hid, amount, hamount, secret, hsecret, c, ⟨cHex, hcHex, hc⟩, rfl, rfl, rfl, rfl⟩, rfl⟩
  · rintro ⟨⟨id, hid, amount, hamount, secret, hsecret, c, ⟨cHex, hcHex, hc⟩, rfl, rfl, rfl, rfl⟩, hdleq⟩
    refine ⟨_, hid, _, hamount, _, hsecret, cHex, hcHex, _, hc, ?_⟩
    cases q
    cases hdleq
    rfl

/-- The proofs of the groups, under the keyset ids of the groups. -/
def groupKeys (groups : List TokenV4Token) : List (String × UInt64 × String × List UInt8) :=
  groups.flatMap fun g => g.proofs.map fun q => (g.keysetId, q.amount, q.secret, q.c)

omit [TokenCrates] in
theorem foldl_pushUnder (proofs : List Token.Proof) {acc : List (String × List Token.Proof)} (h : Ascending acc) :
    (spread (proofs.foldl (fun acc p => pushUnder p.keysetId p acc) acc)).Perm
      (proofs.map (fun q => (q.keysetId, q)) ++ spread acc) := by
  induction proofs generalizing acc with
  | nil => exact .refl _
  | cons q proofs ih =>
    obtain ⟨hsorted, hperm⟩ := pushUnder_spec (k := q.keysetId) h q
    exact (ih hsorted).trans ((hperm.append_left _).trans List.perm_middle)

omit [TokenCrates] in
/-- Every proof is in the group of its keyset id, and nothing else is. -/
theorem byKeyset_perm (proofs : List Token.Proof) :
    (groupKeys (byKeyset proofs)).Perm (proofs.map fun q => (q.keysetId, q.amount, q.secret, q.c)) := by
  have hspread : ∀ acc : List (String × List Token.Proof),
      groupKeys (acc.map fun group => { keysetId := group.1, proofs := group.2 }) =
        (spread acc).map fun kq => (kq.1, kq.2.amount, kq.2.secret, kq.2.c) := by
    intro acc
    rw [groupKeys, spread, List.flatMap_map, List.map_flatMap]
    simp only [List.map_map]
    rfl
  have hperm := (@foldl_pushUnder _ proofs [] .nil).map fun kq => (kq.1, kq.2.amount, kq.2.secret, kq.2.c)
  rw [show spread ([] : List (String × List Token.Proof)) = [] from rfl, List.append_nil, List.map_map, ← hspread] at hperm
  exact hperm

omit [TokenCrates] in
theorem proofs_read (h : List.Forall₂ (fun p q => v3Proof p = .ok q) proofsJson proofs) :
    (∀ p ∈ proofsJson, ∃ k, v3Read p = some k) ∧
      proofsJson.filterMap v3Read = proofs.map fun q => (q.keysetId, q.amount, q.secret, q.c) := by
  induction h with
  | nil => exact ⟨by simp, rfl⟩
  | cons hp _ ih =>
    have hread := (v3Proof_eq_ok.1 hp).1
    exact ⟨List.forall_mem_cons.2 ⟨⟨_, hread⟩, ih.1⟩, by rw [List.filterMap_cons, hread, ih.2, List.map_cons]⟩

omit [TokenCrates] in
theorem v3Group_eq_ok {groups : List TokenV4Token} (h : v3Group entry = .ok groups) :
    Legible entry ∧ (groupKeys groups).Perm (entryProofs entry) := by
  simp only [v3Group, v3Field, Except.bind_eq_ok, Except.okOr_eq_ok, Except.mapM_eq_ok] at h
  obtain ⟨proofsJson, hjson, proofs, hproofs, h⟩ := h
  cases h
  obtain ⟨hlegible, hread⟩ := proofs_read hproofs
  refine ⟨⟨proofsJson, hjson, hlegible⟩, ?_⟩
  rw [entryProofs, hjson, Option.getD_some, hread]
  exact byKeyset_perm proofs

omit [TokenCrates] in
theorem Legible.v3Group (h : Legible entry) : ∃ groups, v3Group entry = .ok groups := by
  obtain ⟨proofsJson, hjson, hread⟩ := h
  obtain ⟨proofs, hproofs⟩ := Except.mapM_isOk (f := v3Proof) (l := proofsJson) fun p hp => by
    obtain ⟨k, hk⟩ := hread p hp
    exact ⟨⟨k.2.1, k.1, k.2.2.1, k.2.2.2, none⟩, v3Proof_eq_ok.2 ⟨hk, rfl⟩⟩
  refine ⟨byKeyset proofs, ?_⟩
  simp only [Micronuts.v3Group, v3Field, Except.bind_eq_ok, Except.okOr_eq_ok]
  exact ⟨proofsJson, hjson, proofs, hproofs, rfl⟩

/-- The token's groups hold the proofs of the entries, under the mint that each of them names. -/
structure FaithfulTo (entries : List Value) (token : TokenV4) : Prop where
  proofs : (groupKeys token.tokens).Perm (entries.flatMap entryProofs)
  mint : ∀ entry ∈ entries, entryMint entry = some token.mint

/-- All entries name the same mint. -/
def OneMint (entries : List Value) : Prop :=
  ∀ entry ∈ entries, ∀ entry' ∈ entries, entryMint entry = entryMint entry'

omit [TokenCrates] in
theorem groups_eq_ok {groups : List (List TokenV4Token)} (h : List.Forall₂ (fun e g => v3Group e = .ok g) entries groups) :
    (∀ e ∈ entries, Legible e) ∧ (groupKeys groups.flatten).Perm (entries.flatMap entryProofs) := by
  induction h with
  | nil => exact ⟨by simp, .refl _⟩
  | cons hg _ ih =>
    obtain ⟨hlegible, hperm⟩ := v3Group_eq_ok hg
    refine ⟨List.forall_mem_cons.2 ⟨hlegible, ih.1⟩, ?_⟩
    rw [groupKeys, List.flatten_cons, List.flatMap_append, List.flatMap_cons]
    exact hperm.append ih.2

variable [Minicbor] {tokenStr : String} {bytes : List UInt8} {token : TokenV4}

/-- How a V3 token is read, padded or not. -/
theorem decodeTokenAny_v3 (htext : asBytes tokenStr = asBytes "cashuA" ++ encodeUnpadded bytes ∨
      asBytes tokenStr = asBytes "cashuA" ++ encodePadded bytes)
    (hbase64 : TokenCrates.base64Standard (encodePadded bytes) = .ok bytes) (hjson : TokenCrates.jsonFromSlice bytes = .ok v3)
    (hentries : (v3.get "token").bind Value.asArray = some entries) :
    decodeTokenAny tokenStr = .ok token ↔ ∃ groups, List.Forall₂ (fun e g => v3Group e = .ok g) entries groups ∧
      token = ⟨(entries.head?.bind entryMint).getD "", ((v3.get "unit").bind Value.asStr).getD "sat",
        (v3.get "memo").bind Value.asStr, groups.flatten⟩ := by
  obtain ⟨body, hbody, hpadded⟩ :
      ∃ body, asBytes tokenStr = asBytes "cashuA" ++ body ∧ padBase64 body = encodePadded bytes := by
    rcases htext with h | h
    · exact ⟨_, h, (padBase64_encode bytes).1⟩
    · exact ⟨_, h, (padBase64_encode bytes).2⟩
  have hstart : (asBytes "cashuA").isPrefixOf (asBytes tokenStr) = true := by
    rw [hbody, List.isPrefixOf_iff_prefix]
    exact List.prefix_append _ _
  have hstrip : stripPrefix (asBytes "cashuA") (asBytes tokenStr) = some body := by
    rw [stripPrefix, hbody, if_pos (by simp), List.drop_left]
  have hmint : ∀ entries : List Value, ((entries.head?.bind (Value.get "mint")).bind Value.asStr).getD "" =
      (entries.head?.bind entryMint).getD "" := by
    rintro (- | ⟨e, entries⟩)
    · rfl
    · rfl
  rw [decodeTokenAny, if_pos hstart]
  simp only [decodeV3, hstrip, hmint, v3Field, Except.bind_eq_ok, Except.okOr_eq_ok, Except.mapM_eq_ok, Option.some.injEq]
  constructor
  · rintro ⟨_, rfl, bytes', hbytes', v3', hv3', entries', hentries', groups, hgroups, h⟩
    rw [hpadded, hbase64] at hbytes'
    cases hbytes'
    rw [hjson] at hv3'
    cases hv3'
    rw [hentries] at hentries'
    cases hentries'
    cases h
    exact ⟨groups, hgroups, rfl⟩
  · rintro ⟨groups, hgroups, rfl⟩
    exact ⟨body, rfl, bytes, by rw [hpadded, hbase64]; rfl, v3, by rw [hjson]; rfl, entries, hentries, groups, hgroups, rfl⟩

/-- The proofs of a V3 token are read as they are. It is refused, or every proof is attributed to the mint of its entry,
exactly when an entry cannot be read or all name the same mint. -/
theorem decodeTokenAny_faithful (htext : asBytes tokenStr = asBytes "cashuA" ++ encodeUnpadded bytes ∨
      asBytes tokenStr = asBytes "cashuA" ++ encodePadded bytes)
    (hbase64 : TokenCrates.base64Standard (encodePadded bytes) = .ok bytes) (hjson : TokenCrates.jsonFromSlice bytes = .ok v3)
    (hentries : (v3.get "token").bind Value.asArray = some entries)
    (hnamed : ∀ e ∈ entries, ∃ mint, entryMint e = some mint) :
    (∀ token, decodeTokenAny tokenStr = .ok token → (groupKeys token.tokens).Perm (entries.flatMap entryProofs)) ∧
    ((∀ token, decodeTokenAny tokenStr = .ok token → FaithfulTo entries token) ↔
      ((∀ e ∈ entries, Legible e) → OneMint entries)) := by
  have hread := fun token => @decodeTokenAny_v3 _ _ v3 entries _ tokenStr bytes token htext hbase64 hjson hentries
  refine ⟨fun token htoken => ?_, fun hfaithful hlegible entry hentry entry' hentry' => ?_, fun h token htoken => ?_⟩
  · obtain ⟨groups, hgroups, rfl⟩ := (hread token).1 htoken
    exact (groups_eq_ok hgroups).2
  · obtain ⟨groups, hgroups⟩ := Except.mapM_isOk fun e he => (hlegible e he).v3Group
    have hmints := (hfaithful _ ((hread _).2 ⟨groups, Except.mapM_eq_ok.1 hgroups, rfl⟩)).mint
    rw [hmints entry hentry, hmints entry' hentry']
  · obtain ⟨groups, hgroups, rfl⟩ := (hread token).1 htoken
    obtain ⟨hlegible, hperm⟩ := groups_eq_ok hgroups
    refine ⟨hperm, fun entry hentry => ?_⟩
    rcases entries with - | ⟨first, entries⟩
    · cases hentry
    · obtain ⟨mint, hmint⟩ := hnamed first (List.mem_cons_self ..)
      rw [h hlegible entry hentry first (List.mem_cons_self ..), List.head?_cons, Option.bind_some, hmint, Option.getD_some]

end entries

/-! ### Tokens of two entries -/

namespace ToyV3

def entryText (mint : String) : String :=
  "\x7b\"mint\":\"" ++ mint ++ "\",\"proofs\":[\x7b\"C\":\"02\",\"amount\":1,\"id\":\"00\",\"secret\":\"s\"\x7d]\x7d"

def entryOf (mint : String) : Value := .object [("mint", .string mint), ("proofs", .array [.object
  [("C", .string "02"), ("amount", .number (.posInt 1)), ("id", .string "00"), ("secret", .string "s")]])]

/-- The JSON text of a token with an entry of the mint a and another. -/
def body (mint : String) : List UInt8 :=
  asBytes ("\x7b\"token\":[" ++ entryText "a" ++ "," ++ entryText mint ++ "]\x7d")

def value (mint : String) : Value := .object [("token", .array [entryOf "a", entryOf mint])]

scoped instance tokenCrates : TokenCrates where
  base64Standard text := if text = encodePadded (body "a") then .ok (body "a")
    else if text = encodePadded (body "b") then .ok (body "b") else .error "invalid byte"
  jsonFromSlice bytes := if bytes = body "a" then .ok (value "a")
    else if bytes = body "b" then .ok (value "b") else .error "expected value"
  decodeTokenError _ := "decode error"
  encodeTokenError := "encode error"

def text (mint : String) : String := "cashuA" ++ String.ofList ((encodeUnpadded (body mint)).map fun b => Char.ofNat b.toNat)

theorem asBytes_text {mint : String} (h : mint = "a" ∨ mint = "b") :
    asBytes (text mint) = asBytes "cashuA" ++ encodeUnpadded (body mint) := by
  rcases h with rfl | rfl
  · decide +kernel
  · decide +kernel

theorem base64Standard_body {mint : String} (h : mint = "a" ∨ mint = "b") :
    TokenCrates.base64Standard (encodePadded (body mint)) = .ok (body mint) := by
  rcases h with rfl | rfl
  · exact if_pos rfl
  · have hne : encodePadded (body "b") ≠ encodePadded (body "a") := by decide +kernel
    show (if _ then _ else _) = _
    rw [if_neg hne, if_pos rfl]

theorem jsonFromSlice_body {mint : String} (h : mint = "a" ∨ mint = "b") :
    TokenCrates.jsonFromSlice (body mint) = .ok (value mint) := by
  rcases h with rfl | rfl
  · exact if_pos rfl
  · have hne : body "b" ≠ body "a" := by decide +kernel
    show (if _ then _ else _) = _
    rw [if_neg hne, if_pos rfl]

theorem entryOf_legible (mint : String) : Legible (entryOf mint) :=
  ⟨_, rfl, List.forall_mem_cons.2 ⟨⟨("00", 1, "s", [2]), rfl⟩, by simp⟩⟩

end ToyV3

section toy
open Toy ToyCbor ToyV3

/-- The second entry names the mint b, and its proof is read under the mint a. -/
theorem decodeTokenAny_merged : ∃ token, decodeTokenAny (text "b") = .ok token ∧ token.mint = "a" ∧
    entryMint (entryOf "b") = some "b" ∧ ¬ FaithfulTo [entryOf "a", entryOf "b"] token := by
  obtain ⟨a, ha⟩ := (entryOf_legible "a").v3Group
  obtain ⟨b, hb⟩ := (entryOf_legible "b").v3Group
  refine ⟨_, (decodeTokenAny_v3 (.inl (asBytes_text (.inr rfl))) (base64Standard_body (.inr rfl))
    (jsonFromSlice_body (.inr rfl))
    rfl).2 ⟨[a, b], .cons ha (.cons hb .nil), rfl⟩, rfl, rfl, fun hfaithful => ?_⟩
  have hmint : some "b" = some "a" := hfaithful.mint (entryOf "b") (by simp)
  exact absurd hmint (by decide)

theorem decodeTokenAny_faithful_toy : OneMint [entryOf "a", entryOf "a"] ∧
    ∀ token, decodeTokenAny (text "a") = .ok token → FaithfulTo [entryOf "a", entryOf "a"] token := by
  have hone : OneMint [entryOf "a", entryOf "a"] := by
    intro e he e' he'
    have hsame : ∀ e ∈ [entryOf "a", entryOf "a"], e = entryOf "a" := by simp
    rw [hsame e he, hsame e' he']
  refine ⟨hone, (decodeTokenAny_faithful (.inl (asBytes_text (.inl rfl))) (base64Standard_body (.inl rfl))
    (jsonFromSlice_body (.inl rfl)) rfl ?_).2.2 fun _ => hone⟩
  exact List.forall_mem_cons.2 ⟨⟨"a", rfl⟩, List.forall_mem_cons.2 ⟨⟨"a", rfl⟩, by simp⟩⟩

end toy

end Micronuts
