import Micronuts.Mint.State
import Micronuts.Nuts.Blinding
import Micronuts.Nuts.Nut02
import Micronuts.Nuts.Wire

/-!
# The mint's keys (`micronuts-mint`: `keyset.rs`, `mint_core.rs`)

The keys of a `DemoKeyset` are derived from a seed, one for each denomination, and its id from the public keys. What the mint
serves of it is its public half (`getKeys`, `getKeysets`). A served key is the public key of the secret key that
signs its amount (`Derived.pubkey`), and the id verifies against the served keys in any order (`Derived.verifyKeysetId`).
-/

namespace Micronuts

section
variable [Crypto]

/-- `nut02::derive_keyset_id`. -/
def deriveKeysetId (sortedPubkeys : List PublicKey) : String :=
  "00" ++ Hex.encode ((Crypto.sha256 (sortedPubkeys.flatMap Crypto.toBytes)).take 7)

namespace DemoKeyset

def keyBytes (seed : List UInt8) (i : Nat) : List UInt8 := Crypto.sha256 (seed ++ asBytes "cashu-key" ++ toBeBytes 8 i)

def toPublicKeyset (ks : DemoKeyset) : KeySet where
  id := ks.id
  unit := ks.unit
  keys := ks.keys.map fun key => ⟨key.1, key.2.2⟩

def toKeysetInfo (ks : DemoKeyset) : KeysetInfo where
  id := ks.id
  unit := ks.unit
  active := true
  inputFeePpk := ks.inputFeePpk

def getPublicKey (ks : DemoKeyset) (amount : UInt64) : Option PublicKey :=
  (ks.keys.find? fun key => key.1 = amount).map fun key => key.2.2

variable [Curve]

/-- The loop of `new`, from index `i`. -/
def keysFrom (seed : List UInt8) : Nat → List UInt64 → Option (List (UInt64 × SecretKey × PublicKey))
  | _, [] => some []
  | i, amount :: amounts => do
    let sk ← Crypto.fromSlice (keyBytes seed i)
    let keys ← keysFrom seed (i + 1) amounts
    pure ((amount, sk, Curve.publicKey sk) :: keys)

/-- The keys have the amounts of the loop, and each public key is that of its secret key. -/
theorem keysFrom_spec {seed : List UInt8} {i : Nat} {amounts : List UInt64} {keys : List (UInt64 × SecretKey × PublicKey)}
    (h : keysFrom seed i amounts = some keys) :
    keys.map Prod.fst = amounts ∧ ∀ key ∈ keys, key.2.2 = Curve.publicKey key.2.1 := by
  induction amounts generalizing i keys with
  | nil =>
    cases h
    simp
  | cons amount amounts ih =>
    obtain ⟨sk, -, h⟩ := Option.bind_eq_some_iff.1 h
    obtain ⟨rest, hrest, h⟩ := Option.bind_eq_some_iff.1 h
    cases h
    simpa using ih hrest

/-- `none` where a digest is no scalar: the source panics. -/
def new (seed : List UInt8) (unit : String) (inputFeePpk : UInt64) : Option DemoKeyset :=
  match h : keysFrom seed 0 denominations with
  | none => none
  | some keys =>
    some { id := deriveKeysetId (keys.map fun key => key.2.2), unit, keys, inputFeePpk, amounts := (keysFrom_spec h).1 }

end DemoKeyset

/-! ### What the mint serves -/

namespace DemoMint

def keysetId (m : DemoMint) : String := m.keyset.id

def getKeys (m : DemoMint) : KeysResponse := ⟨[m.keyset.toPublicKeyset]⟩

def getKeysets (m : DemoMint) : KeysetsResponse := ⟨[m.keyset.toKeysetInfo]⟩

end DemoMint

/-! ### Derived keysets -/

variable [Curve]

/-- A keyset as `new` makes it. -/
structure DemoKeyset.Derived (ks : DemoKeyset) : Prop where
  id_eq : ks.id = deriveKeysetId (ks.keys.map fun key => key.2.2)
  isPublic : ∀ key ∈ ks.keys, key.2.2 = Curve.publicKey key.2.1

namespace DemoKeyset
variable {ks : DemoKeyset} {amount : UInt64}

theorem new_derived {seed : List UInt8} {unit : String} {inputFeePpk : UInt64} (h : new seed unit inputFeePpk = some ks) :
    ks.Derived ∧ ks.unit = unit ∧ ks.inputFeePpk = inputFeePpk := by
  unfold new at h
  split at h
  · cases h
  · next keys hkeys =>
    cases h
    exact ⟨⟨rfl, (keysFrom_spec hkeys).2⟩, rfl, rfl⟩

omit [Curve] in
theorem pubkey_toPublicKeyset (ks : DemoKeyset) (amount : UInt64) :
    ks.toPublicKeyset.pubkey amount = ks.getPublicKey amount := by
  simp only [KeySet.pubkey, toPublicKeyset, getPublicKey, List.find?_map, Option.map_map]
  rfl

/-- The key that is served for an amount is that of the secret key that signs it. -/
theorem Derived.getPublicKey (h : ks.Derived) (amount : UInt64) :
    ks.getPublicKey amount = (ks.getSecretKey amount).map Curve.publicKey := by
  rw [DemoKeyset.getPublicKey, getSecretKey, Option.map_map]
  refine Option.map_congr fun key hkey => ?_
  exact h.isPublic key (List.mem_of_find?_eq_some hkey)

theorem Derived.pubkey (h : ks.Derived) {sk : SecretKey} (hsk : ks.getSecretKey amount = some sk) :
    ks.toPublicKeyset.pubkey amount = some (Curve.publicKey sk) := by
  rw [pubkey_toPublicKeyset, h.getPublicKey, hsk, Option.map_some]

omit [Curve] in
theorem pubkey_isSome (ks : DemoKeyset) : (ks.toPublicKeyset.pubkey amount).isSome ↔ amount ∈ denominations := by
  rw [pubkey_toPublicKeyset, ← ks.amounts, DemoKeyset.getPublicKey, Option.isSome_map, List.find?_isSome, List.mem_map]
  simp only [decide_eq_true_eq]

/-- The served keys with their amounts. -/
def amountKeys (ks : DemoKeyset) : List AmountKey := ks.toPublicKeyset.keys.map fun kp => ⟨kp.amount, kp.pubkey⟩

omit [Curve] in
theorem amountKeys_eq (ks : DemoKeyset) : ks.amountKeys = ks.keys.map fun key => ⟨key.1, key.2.2⟩ := by
  simp [amountKeys, toPublicKeyset]

omit [Curve] in
theorem amounts_amountKeys (ks : DemoKeyset) : ks.amountKeys.map AmountKey.amount = denominations := by
  rw [amountKeys_eq, List.map_map, ← ks.amounts]
  rfl

omit [Curve] in
/-- They are served in the order that they are hashed in. -/
theorem sortedKeys_amountKeys (ks : DemoKeyset) : sortedKeys ks.amountKeys = ks.amountKeys := by
  have hsorted : denominations.Pairwise fun a b => a ≤ b := by decide
  rw [← ks.amounts_amountKeys, List.pairwise_map] at hsorted
  exact List.mergeSort_of_pairwise (by simpa using hsorted)

omit [Curve] in
theorem deriveKeysetIdV1_amountKeys (ks : DemoKeyset) :
    deriveKeysetIdV1 ks.amountKeys = deriveKeysetId (ks.keys.map fun key => key.2.2) := by
  rw [deriveKeysetIdV1, sortedKeys_amountKeys, amountKeys_eq, deriveKeysetId, List.flatMap_map, List.flatMap_map]

/-- Whatever order the keys arrive in, and whatever unit, fee and expiry are named with them, the id verifies. -/
theorem Derived.verifyKeysetId (h : ks.Derived) {keys : List AmountKey} (hkeys : ks.amountKeys.Perm keys) (unit : String)
    (inputFeePpk : UInt64) (finalExpiry : Option UInt64) :
    Micronuts.verifyKeysetId ks.id keys unit inputFeePpk finalExpiry = some true := by
  have hnodup : (ks.amountKeys.map AmountKey.amount).Nodup := by
    rw [amounts_amountKeys]
    decide
  have hid : deriveKeysetIdV1 keys = ks.id := by
    rw [h.id_eq, ← deriveKeysetIdV1_amountKeys, deriveKeysetIdV1, deriveKeysetIdV1, (sortedKeys_eq_iff hnodup).2 hkeys]
  have hversion : keysetIdVersion ks.id = some .v0 := by
    rw [h.id_eq, deriveKeysetId, keysetIdVersion, asBytes_append]
    rfl
  rw [Micronuts.verifyKeysetId, hversion, Option.map_some, hid]
  simp

end DemoKeyset

end

end Micronuts
