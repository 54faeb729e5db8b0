import Mathlib.Data.List.Sort
import Micronuts.Crypto
import Micronuts.Lib.PrefixCode

/-!
# NUT-02: keyset ids (`cashu-core-lite`: `nuts/nut02.rs`)

A v2 id is the digest of the keys, the unit, the fee and the expiry, joined in one text. The keys are read back from it, and
so is what stands behind them; but a unit can end like a fee or an expiry, and then the two are told apart only together
(`deriveKeysetIdV2_inj`). Between units that do not end so, the id binds every parameter (`verifyKeysetId_binds`).
-/

namespace Micronuts

section
variable [Crypto]

/-! ### The ids -/

inductive KeysetIdVersion
  | v0
  | v1
deriving DecidableEq

def keysetIdVersion (id : String) : Option KeysetIdVersion :=
  match asBytes id with
  | 0x30 :: 0x30 :: _ => some .v0
  | 0x30 :: 0x31 :: _ => some .v1
  | _ => none

structure AmountKey where
  amount : UInt64
  pubkey : PublicKey
deriving DecidableEq

/-- `sort_by_key(|k| k.amount)`. -/
def sortedKeys (keys : List AmountKey) : List AmountKey := keys.mergeSort fun k k' => k.amount ≤ k'.amount

def deriveKeysetIdV1 (keys : List AmountKey) : String :=
  "00" ++ Hex.encode ((Crypto.sha256 ((sortedKeys keys).flatMap fun k => Crypto.toBytes k.pubkey)).take 7)

/-- An amount and its key. -/
def keyEntry (k : AmountKey) : String := toString k.amount ++ ":" ++ Hex.encode (Crypto.toBytes k.pubkey)

def feeItem (inputFeePpk : UInt64) : String :=
  if 0 < inputFeePpk then "|input_fee_ppk:" ++ toString inputFeePpk else ""

def expiryItem (finalExpiry : Option UInt64) : String :=
  match finalExpiry with
  | some expiry => if 0 < expiry then "|final_expiry:" ++ toString expiry else ""
  | none => ""

/-- The text that is hashed. -/
def keysetString (keys : List AmountKey) (unit : String) (inputFeePpk : UInt64) (finalExpiry : Option UInt64) : String :=
  ",".intercalate ((sortedKeys keys).map keyEntry) ++ "|unit:" ++ unit ++ feeItem inputFeePpk ++ expiryItem finalExpiry

def deriveKeysetIdV2 (keys : List AmountKey) (unit : String) (inputFeePpk : UInt64) (finalExpiry : Option UInt64) : String :=
  "01" ++ Hex.encode ((Crypto.sha256 (asBytes (keysetString keys unit inputFeePpk finalExpiry))).take 32)

def verifyKeysetId (id : String) (keys : List AmountKey) (unit : String) (inputFeePpk : UInt64)
    (finalExpiry : Option UInt64) : Option Bool :=
  (keysetIdVersion id).map fun version =>
    match version with
    | .v0 => deriveKeysetIdV1 keys = id
    | .v1 => deriveKeysetIdV2 keys unit inputFeePpk finalExpiry = id

/-! ### The text of the keys -/

section text
omit [Crypto]
variable {c : Char} {n m : UInt64}

theorem toList_decimal (n : UInt64) : (toString n).toList = Nat.toDigits 10 n.toNat := by
  rw [show toString n = String.ofList (Nat.toDigits 10 n.toNat) from Nat.toString_eq_ofList_toDigits, String.toList_ofList]

theorem decimal_inj (h : (toString n).toList = (toString m).toList) : n = m := by
  rw [toList_decimal, toList_decimal] at h
  have := congrArg (Nat.ofDigitChars 10 · 0) h
  rw [Nat.ofDigitChars_ten_toDigits, Nat.ofDigitChars_ten_toDigits] at this
  exact UInt64.toNat_inj.1 this

theorem isDigit_of_mem_decimal (h : c ∈ (toString n).toList) : c.isDigit = true := by
  rw [toList_decimal] at h
  exact Nat.isDigit_of_mem_toDigits (by decide) (by decide) h

theorem mem_hexDigits {bs : List UInt8} (h : c ∈ Hex.digits bs) : c ≠ ',' ∧ c ≠ '|' := by
  have hall : ∀ n < 16, Hex.digit n ≠ ',' ∧ Hex.digit n ≠ '|' := by decide
  obtain ⟨b, -, hc⟩ := List.mem_flatMap.1 h
  have := b.toNat_lt
  rcases List.mem_cons.1 hc with rfl | hc
  · exact hall _ (by omega)
  · rw [List.mem_singleton.1 hc]
    exact hall _ (by omega)

end text

section keys
variable {k k' : AmountKey} {keys keys' : List AmountKey} {c : Char}

theorem toList_keyEntry (k : AmountKey) :
    (keyEntry k).toList = (toString k.amount).toList ++ ':' :: Hex.digits (Crypto.toBytes k.pubkey) := by
  simp [keyEntry, Hex.encode]

theorem keyEntry_inj (h : (keyEntry k).toList = (keyEntry k').toList) : k = k' := by
  have hstops : ∀ cs : List Char, Stops (· ≠ ':') (':' :: cs) := fun cs c hc => by
    obtain rfl : ':' = c := by simpa using hc
    simp
  have hdecimal : ∀ n : UInt64, ∀ c ∈ (toString n).toList, c ≠ ':' := by
    rintro n c hc rfl
    exact absurd (isDigit_of_mem_decimal hc) (by decide)
  rw [toList_keyEntry, toList_keyEntry] at h
  obtain ⟨hamount, hkey⟩ := append_inj_of_stops (hdecimal _) (hdecimal _) (hstops _) (hstops _) h
  have hbytes := Hex.encode_injective (congrArg String.ofList (List.cons.inj hkey).2)
  cases k
  cases k'
  rw [AmountKey.mk.injEq]
  exact ⟨decimal_inj hamount, toBytes_injective hbytes⟩

theorem mem_keyEntry (h : c ∈ (keyEntry k).toList) : c ≠ ',' ∧ c ≠ '|' := by
  rw [toList_keyEntry] at h
  rcases List.mem_append.1 h with h | h
  · have := isDigit_of_mem_decimal h
    constructor
    · rintro rfl
      revert this
      decide
    · rintro rfl
      revert this
      decide
  · rcases List.mem_cons.1 h with rfl | h
    · decide
    · exact mem_hexDigits h

/-- The keys in the order that they are hashed in. -/
def keysText (keys : List AmountKey) : List Char := [','].intercalate (keys.map fun k => (keyEntry k).toList)

theorem not_mem_keysText (keys : List AmountKey) : '|' ∉ keysText keys := by
  induction keys with
  | nil => exact List.not_mem_nil
  | cons k keys ih =>
    have hentry : '|' ∉ (keyEntry k).toList := fun h => (mem_keyEntry h).2 rfl
    rw [keysText] at ih ⊢
    rcases keys with - | ⟨k', keys⟩
    · simpa using hentry
    · simpa [hentry] using ih

theorem keysText_inj (h : keysText keys = keysText keys') : keys = keys' := by
  have hnil : ∀ k : AmountKey, ∀ keys, keysText (k :: keys) ≠ [] := by
    intro k keys hnil
    have : ':' ∈ keysText (k :: keys) := by
      rw [keysText, List.map_cons]
      rcases keys with - | ⟨k', keys⟩
      · simp [toList_keyEntry]
      · simp [toList_keyEntry]
    rw [hnil] at this
    cases this
  have hsplit : ∀ k : AmountKey, ∀ keys, (keysText (k :: keys)).splitOn ',' =
      (k :: keys).map fun k => (keyEntry k).toList := fun k keys =>
    List.splitOn_intercalate ',' (List.forall_mem_map.2 fun k _ h => (mem_keyEntry h).1 rfl) (by simp)
  rcases keys with - | ⟨k, keys⟩
  · rcases keys' with - | ⟨k', keys'⟩
    · rfl
    · exact absurd h.symm (hnil _ _)
  · rcases keys' with - | ⟨k', keys'⟩
    · exact absurd h (hnil _ _)
    · have hentries := congrArg (List.splitOn ',') h
      rw [hsplit, hsplit] at hentries
      exact List.map_injective_iff.2 (fun _ _ => keyEntry_inj) hentries

end keys

/-! ### What stands behind the unit -/

section items
omit [Crypto]
variable {w w' label label' : List Char} {n n' : UInt64}

/-- The number at the end of a text, and what is before it. -/
theorem item_inj (hlabel : label.getLast? = some ':') (hlabel' : label'.getLast? = some ':')
    (h : w ++ label ++ (toString n).toList = w' ++ label' ++ (toString n').toList) : n = n' ∧ w ++ label = w' ++ label' := by
  obtain ⟨front, rfl⟩ := List.getLast?_eq_some_iff.1 hlabel
  obtain ⟨front', rfl⟩ := List.getLast?_eq_some_iff.1 hlabel'
  have hdecimal : ∀ n : UInt64, ∀ c ∈ (toString n).toList.reverse, c ≠ ':' := by
    rintro n c hc rfl
    exact absurd (isDigit_of_mem_decimal (List.mem_reverse.1 hc)) (by decide)
  have hstops : ∀ w front : List Char, Stops (· ≠ ':') (w ++ (front ++ [':'])).reverse := by
    intro w front c hc
    rw [← List.append_assoc, List.reverse_concat] at hc
    obtain rfl : ':' = c := by simpa using hc
    simp
  have hreverse : (toString n).toList.reverse ++ (w ++ (front ++ [':'])).reverse =
      (toString n').toList.reverse ++ (w' ++ (front' ++ [':'])).reverse := by
    rw [← List.reverse_append, ← List.reverse_append, h]
  obtain ⟨hnumber, hfront⟩ := append_inj_of_stops (hdecimal _) (hdecimal _) (hstops _ _) (hstops _ _) hreverse
  exact ⟨decimal_inj (List.reverse_inj.1 hnumber), List.reverse_inj.1 hfront⟩

def feeLabel : List Char := "|input_fee_ppk:".toList

def expiryLabel : List Char := "|final_expiry:".toList

theorem labels_ne : w ++ feeLabel ≠ w' ++ expiryLabel := by
  intro h
  have hfee : ['k', ':'] <:+ w ++ feeLabel := List.IsSuffix.trans (by decide) (List.suffix_append w feeLabel)
  have hexpiry : ['y', ':'] <:+ w ++ feeLabel := h ▸ List.IsSuffix.trans (by decide) (List.suffix_append w' expiryLabel)
  have hsuffix := List.suffix_of_suffix_length_le hfee hexpiry (Nat.le_refl _)
  revert hsuffix
  decide

/-- A unit that does not end in a fee or an expiry. -/
def PlainUnit (unit : String) : Prop :=
  ∀ (before : String) (n : UInt64), 0 < n →
    unit ≠ before ++ "|input_fee_ppk:" ++ toString n ∧ unit ≠ before ++ "|final_expiry:" ++ toString n

/-- A fee or an expiry, unless there is none. -/
def item (label : List Char) (n : UInt64) : List Char := if 0 < n then label ++ (toString n).toList else []

theorem toList_feeItem (n : UInt64) : (feeItem n).toList = item feeLabel n := by
  rw [feeItem, item]
  split_ifs
  · exact String.toList_append ..
  · rfl

theorem toList_expiryItem (expiry : Option UInt64) : (expiryItem expiry).toList = item expiryLabel (expiry.getD 0) := by
  rcases expiry with - | n
  · rfl
  · rw [expiryItem, item, Option.getD_some]
    split_ifs
    · exact String.toList_append ..
    · rfl

theorem toList_ending (before label : String) (n : UInt64) :
    (before ++ label ++ toString n).toList = before.toList ++ label.toList ++ (toString n).toList := by
  rw [String.toList_append, String.toList_append]

theorem PlainUnit.ne {unit : String} (h : PlainUnit unit) (hpos : 0 < n) :
    unit.toList ≠ w ++ feeLabel ++ (toString n).toList ∧ unit.toList ≠ w ++ expiryLabel ++ (toString n).toList := by
  obtain ⟨hfee, hexpiry⟩ := h (String.ofList w) n hpos
  refine ⟨fun heq => hfee (String.toList_inj.1 ?_), fun heq => hexpiry (String.toList_inj.1 ?_)⟩
  · rw [heq, toList_ending, String.toList_ofList]
    rfl
  · rw [heq, toList_ending, String.toList_ofList]
    rfl

theorem feeLabel_last : feeLabel.getLast? = some ':' := by decide

theorem expiryLabel_last : expiryLabel.getLast? = some ':' := by decide

theorem eq_zero_of_not_pos (h : ¬ 0 < n) : n = 0 := by
  rw [UInt64.lt_iff_toNat_lt, UInt64.toNat_zero] at h
  rw [← UInt64.toNat_inj, UInt64.toNat_zero]
  omega

/-- Behind plain units the fee is read back. -/
theorem fee_inj {unit unit' : String} (hunit : PlainUnit unit) (hunit' : PlainUnit unit')
    (h : unit.toList ++ item feeLabel n = unit'.toList ++ item feeLabel n') : unit = unit' ∧ n = n' := by
  rw [item, item] at h
  split_ifs at h with hn hn' hn'
  · rw [← List.append_assoc, ← List.append_assoc] at h
    obtain ⟨rfl, hbefore⟩ := item_inj feeLabel_last feeLabel_last h
    exact ⟨String.toList_inj.1 (List.append_cancel_right hbefore), rfl⟩
  · rw [← List.append_assoc, List.append_nil] at h
    exact absurd h.symm (hunit'.ne hn).1
  · rw [← List.append_assoc, List.append_nil] at h
    exact absurd h (hunit.ne hn').1
  · rw [List.append_nil, List.append_nil] at h
    exact ⟨String.toList_inj.1 h, (eq_zero_of_not_pos hn).trans (eq_zero_of_not_pos hn').symm⟩

/-- Behind plain units the fee and the expiry are read back. -/
theorem items_inj {unit unit' : String} {m m' : UInt64} (hunit : PlainUnit unit) (hunit' : PlainUnit unit')
    (h : unit.toList ++ item feeLabel n ++ item expiryLabel m = unit'.toList ++ item feeLabel n' ++ item expiryLabel m') :
    unit = unit' ∧ n = n' ∧ m = m' := by
  -- with an expiry behind one of them only, the other ends like it
  have hends : ∀ {u u' : String} {k k' e : UInt64}, PlainUnit u' → 0 < e →
      u.toList ++ item feeLabel k ++ (expiryLabel ++ (toString e).toList) ≠ u'.toList ++ item feeLabel k' := by
    intro u u' k k' e hplain he heq
    rw [item.eq_def feeLabel k', ← List.append_assoc] at heq
    split_ifs at heq
    · rw [← List.append_assoc] at heq
      exact labels_ne (item_inj feeLabel_last expiryLabel_last heq.symm).2
    · rw [List.append_nil] at heq
      exact (hplain.ne he).2 heq.symm
  rw [item.eq_def expiryLabel m, item.eq_def expiryLabel m'] at h
  split_ifs at h with hm hm' hm'
  · rw [← List.append_assoc, ← List.append_assoc] at h
    obtain ⟨rfl, hbefore⟩ := item_inj expiryLabel_last expiryLabel_last h
    obtain ⟨hunits, hfees⟩ := fee_inj hunit hunit' (List.append_cancel_right hbefore)
    exact ⟨hunits, hfees, rfl⟩
  · rw [List.append_nil] at h
    exact absurd h (hends hunit' hm)
  · rw [List.append_nil] at h
    exact absurd h.symm (hends hunit hm')
  · rw [List.append_nil, List.append_nil] at h
    obtain ⟨hunits, hfees⟩ := fee_inj hunit hunit' h
    exact ⟨hunits, hfees, (eq_zero_of_not_pos hm).trans (eq_zero_of_not_pos hm').symm⟩

end items

/-! ### What an id binds -/

section binds
variable {keys keys' : List AmountKey} {unit unit' : String} {fee fee' : UInt64} {expiry expiry' : Option UInt64}

theorem toList_keysetString (keys : List AmountKey) (unit : String) (fee : UInt64) (expiry : Option UInt64) :
    (keysetString keys unit fee expiry).toList =
      keysText (sortedKeys keys) ++ ("|unit:".toList ++ (unit ++ feeItem fee ++ expiryItem expiry).toList) := by
  simp only [keysetString, keysText, String.toList_append, String.toList_intercalate, List.map_map, List.append_assoc]
  rfl

/-- The keys are read back from the text, and what stands behind them. -/
theorem keysetString_inj : keysetString keys unit fee expiry = keysetString keys' unit' fee' expiry' ↔
    sortedKeys keys = sortedKeys keys' ∧
    unit ++ feeItem fee ++ expiryItem expiry = unit' ++ feeItem fee' ++ expiryItem expiry' := by
  have hstops : ∀ cs : List Char, Stops (· ≠ '|') ("|unit:".toList ++ cs) := fun cs c hc => by
    obtain rfl : '|' = c := by simpa using hc
    simp
  have hkeys : ∀ keys, ∀ c ∈ keysText keys, c ≠ '|' := by
    rintro keys c hc rfl
    exact not_mem_keysText keys hc
  rw [← String.toList_inj, toList_keysetString, toList_keysetString]
  constructor
  · intro h
    obtain ⟨hsorted, hrest⟩ := append_inj_of_stops (hkeys _) (hkeys _) (hstops _) (hstops _) h
    exact ⟨keysText_inj hsorted, String.toList_inj.1 (List.append_cancel_left hrest)⟩
  · rintro ⟨hsorted, hrest⟩
    rw [hsorted, hrest]

theorem sortedKeys_eq_iff (hkeys : (keys.map AmountKey.amount).Nodup) :
    sortedKeys keys = sortedKeys keys' ↔ keys.Perm keys' := by
  have hperm : ∀ keys, (sortedKeys keys).Perm keys := fun keys => List.mergeSort_perm ..
  constructor
  · intro h
    exact (hperm keys).symm.trans (h ▸ hperm keys')
  · intro h
    have hsorted : ∀ keys, (sortedKeys keys).Pairwise fun k k' => k.amount ≤ k'.amount := fun keys => by
      have := @List.pairwise_mergeSort _ (fun k k' : AmountKey => decide (k.amount ≤ k'.amount))
        (fun a b c hab hbc => by simp only [decide_eq_true_eq] at hab hbc ⊢; exact UInt64.le_trans hab hbc)
        (fun a b => by simp only [Bool.or_eq_true, decide_eq_true_eq]; exact UInt64.le_total ..) keys
      simpa [sortedKeys] using this
    refine List.Perm.eq_of_pairwise (fun k k' hk hk' hle hle' => ?_) (hsorted keys) (hsorted keys')
      ((hperm keys).trans (h.trans (hperm keys').symm))
    exact List.inj_on_of_nodup_map hkeys ((hperm keys).subset hk) (h.symm.subset ((hperm keys').subset hk'))
      (UInt64.le_antisymm hle hle')

end binds

/-- What `derive_keyset_id_v2` and `verify_keyset_id` are called with. -/
structure KeysetParams where
  keys : List AmountKey
  unit : String
  inputFeePpk : UInt64
  finalExpiry : Option UInt64

namespace KeysetParams
variable {p q : KeysetParams}

def text (p : KeysetParams) : String := keysetString p.keys p.unit p.inputFeePpk p.finalExpiry

def id (p : KeysetParams) : String := deriveKeysetIdV2 p.keys p.unit p.inputFeePpk p.finalExpiry

def verify (p : KeysetParams) (id : String) : Option Bool := verifyKeysetId id p.keys p.unit p.inputFeePpk p.finalExpiry

/-- The text behind the keys. -/
def behind (p : KeysetParams) : String := p.unit ++ feeItem p.inputFeePpk ++ expiryItem p.finalExpiry

/-- One keyset: the same key for every amount, and an expiry of zero is none. -/
structure Same (p q : KeysetParams) : Prop where
  keys : p.keys.Perm q.keys
  unit : p.unit = q.unit
  fee : p.inputFeePpk = q.inputFeePpk
  expiry : p.finalExpiry.getD 0 = q.finalExpiry.getD 0

/-- The digests of the two texts do not collide. -/
def Uncollided (p q : KeysetParams) : Prop :=
  (Crypto.sha256 (asBytes p.text)).take 32 = (Crypto.sha256 (asBytes q.text)).take 32 → p.text = q.text

theorem text_eq_iff (hp : (p.keys.map AmountKey.amount).Nodup) :
    p.text = q.text ↔ p.keys.Perm q.keys ∧ p.behind = q.behind := by
  rw [text, text, keysetString_inj, sortedKeys_eq_iff hp]
  rfl

theorem id_eq_of_text (h : p.text = q.text) : p.id = q.id := by
  rw [text, text] at h
  rw [id, id, deriveKeysetIdV2, deriveKeysetIdV2, h]

theorem text_eq_of_id (hsha : Uncollided p q) (h : p.id = q.id) : p.text = q.text := by
  have htail := congrArg String.toList h
  rw [id, id, deriveKeysetIdV2, deriveKeysetIdV2, String.toList_append, String.toList_append] at htail
  exact hsha (Hex.encode_injective (String.toList_inj.1 (List.append_cancel_left htail)))

theorem Same.behind_eq (h : Same p q) : p.behind = q.behind := by
  refine String.toList_inj.1 ?_
  simp only [behind, String.toList_append, toList_expiryItem, h.unit, h.fee, h.expiry]

theorem same_of_text (hp : (p.keys.map AmountKey.amount).Nodup) (hunit : PlainUnit p.unit) (hunit' : PlainUnit q.unit)
    (h : p.text = q.text) : Same p q := by
  obtain ⟨hkeys, hbehind⟩ := (text_eq_iff hp).1 h
  have hlist := congrArg String.toList hbehind
  simp only [behind, String.toList_append, toList_feeItem, toList_expiryItem] at hlist
  obtain ⟨hunits, hfees, hexpiries⟩ := items_inj hunit hunit' hlist
  exact ⟨hkeys, hunits, hfees, hexpiries⟩

theorem id_of_verify {id : String} (hversion : keysetIdVersion id = some .v1) (h : p.verify id = some true) : p.id = id := by
  rw [verify, verifyKeysetId, hversion] at h
  simpa [KeysetParams.id] using h

/-- An id binds the keys and the text behind them, and between plain units all parameters. -/
theorem id_binds (p q : KeysetParams) (hp : (p.keys.map AmountKey.amount).Nodup) :
    (Same p q → p.id = q.id) ∧
    (Uncollided p q → p.id = q.id →
      p.keys.Perm q.keys ∧ p.behind = q.behind ∧ (PlainUnit p.unit → PlainUnit q.unit → Same p q)) ∧
    (Uncollided p q → PlainUnit p.unit → PlainUnit q.unit → ∀ id, keysetIdVersion id = some .v1 →
      p.verify id = some true → q.verify id = some true → Same p q) := by
  refine ⟨fun hsame => ?_, fun hsha h => ?_, fun hsha hunit hunit' id hversion hverify hverify' => ?_⟩
  · exact id_eq_of_text ((text_eq_iff hp).2 ⟨hsame.keys, hsame.behind_eq⟩)
  · have htext := text_eq_of_id hsha h
    obtain ⟨hkeys, hbehind⟩ := (text_eq_iff hp).1 htext
    exact ⟨hkeys, hbehind, fun hunit hunit' => same_of_text hp hunit hunit' htext⟩
  · have h := (id_of_verify hversion hverify).trans (id_of_verify hversion hverify').symm
    exact same_of_text hp hunit hunit' (text_eq_of_id hsha h)

end KeysetParams

end

section toy
open Toy KeysetParams

/-- A unit that ends like a fee, without a fee, has the id of the unit before it, with the fee. -/
theorem id_unit : let p : KeysetParams := ⟨[⟨1, (3 : UInt8)⟩], "sat|input_fee_ppk:100", 0, none⟩
    let q : KeysetParams := ⟨[⟨1, (3 : UInt8)⟩], "sat", 100, none⟩
    p.id = q.id ∧ p.verify p.id = some true ∧ q.verify p.id = some true ∧ p.unit ≠ q.unit ∧
      p.inputFeePpk ≠ q.inputFeePpk := by
  intro p q
  have hid : p.id = q.id := id_eq_of_text ((text_eq_iff (by decide)).2 ⟨.refl _, by decide +kernel⟩)
  have hverify : ∀ r : KeysetParams, keysetIdVersion r.id = some .v1 → r.verify r.id = some true := by
    intro r hversion
    rw [verify, verifyKeysetId, hversion]
    simp [KeysetParams.id]
  have hversion : ∀ r : KeysetParams, keysetIdVersion r.id = some .v1 := by
    intro r
    rw [KeysetParams.id, deriveKeysetIdV2, keysetIdVersion, asBytes_append]
    rfl
  exact ⟨hid, hverify p (hversion p), (congrArg q.verify hid).trans (hverify q (hversion q)), by decide, by decide⟩

theorem plainUnit_sat : PlainUnit "sat" := by
  have hlong : ∀ (before label : String) (n : UInt64), 3 < label.length → "sat" ≠ before ++ label ++ toString n := by
    intro before label n hlabel h
    have hlength := congrArg String.length h
    rw [String.length_append, String.length_append] at hlength
    have : "sat".length = 3 := rfl
    omega
  exact fun before n _ => ⟨hlong before _ n (by decide), hlong before _ n (by decide)⟩

theorem id_binds_toy : Same ⟨[⟨1, (3 : UInt8)⟩, ⟨2, (5 : UInt8)⟩], "sat", 100, some 0⟩
    ⟨[⟨2, (5 : UInt8)⟩, ⟨1, (3 : UInt8)⟩], "sat", 100, none⟩ := by
  have hkeys : (([⟨1, (3 : UInt8)⟩, ⟨2, (5 : UInt8)⟩] : List AmountKey).map AmountKey.amount).Nodup := by decide
  have hsame : Same ⟨[⟨1, (3 : UInt8)⟩, ⟨2, (5 : UInt8)⟩], "sat", 100, some 0⟩
      ⟨[⟨2, (5 : UInt8)⟩, ⟨1, (3 : UInt8)⟩], "sat", 100, none⟩ :=
    ⟨.swap .., rfl, rfl, rfl⟩
  obtain ⟨hid, hbinds, -⟩ := id_binds ⟨_, "sat", 100, some 0⟩ ⟨_, "sat", 100, none⟩ hkeys
  exact (hbinds (fun _ => (text_eq_iff hkeys).2 ⟨hsame.keys, hsame.behind_eq⟩) (hid hsame)).2.2 plainUnit_sat plainUnit_sat

end toy

end Micronuts
