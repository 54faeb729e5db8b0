import Mathlib.Data.Bool.AllAny
import Micronuts.Lib.Table
import Micronuts.Nuts.Messages

/-!
# The mint's state and its snapshots (`micronuts-mint`: `keyset.rs`, `persist.rs`, `mint_core.rs`)

`DemoMint` holds the four tables of the mint. `snapshot` writes them out with keys and scalars in
hex, `restore` reads them back. The snapshot's rows are pairs in the arbitrary order of a hash map,
so tables stand for them here. `MintQuoteSnap` and `MeltQuoteSnap` have the fields of the entries.
-/

namespace Micronuts

def denominations : List UInt64 := [1, 2, 4, 8, 16, 32, 64, 128]

theorem denominations_pos : ∀ a ∈ denominations, 0 < a.toNat := List.all_iff_forall_prop.1 (by decide)

structure MintQuoteEntry where
  amount : UInt64
  unit : String
  request : String
  state : MintQuoteState
  expiry : UInt64
  amountPaid : UInt64
  amountIssued : UInt64
  updatedAt : UInt64
  pubkey : Option String
deriving DecidableEq

structure MeltQuoteEntry where
  amount : UInt64
  feeReserve : UInt64
  unit : String
  request : String
  state : MeltQuoteState
  expiry : UInt64
deriving DecidableEq

section
variable [Crypto]

/-- One key pair for each denomination, in ascending order. -/
structure DemoKeyset where
  id : String
  unit : String
  keys : List (UInt64 × SecretKey × PublicKey)
  inputFeePpk : UInt64
  amounts : keys.map Prod.fst = denominations

namespace DemoKeyset

def getSecretKey (ks : DemoKeyset) (amount : UInt64) : Option SecretKey :=
  (ks.keys.find? fun key => key.1 = amount).map fun key => key.2.1

theorem getSecretKey_isSome (ks : DemoKeyset) (amount : UInt64) :
    (ks.getSecretKey amount).isSome ↔ amount ∈ denominations := by
  rw [← ks.amounts, getSecretKey, Option.isSome_map, List.find?_isSome, List.mem_map]
  simp only [decide_eq_true_eq]

end DemoKeyset

/-! ### Snapshots -/

structure DleqSnap where
  eHex : String
  sHex : String
deriving DecidableEq

structure BlindSignatureSnap where
  amount : UInt64
  id : String
  cHex : String
  dleq : Option DleqSnap
deriving DecidableEq

structure MintStateSnapshot where
  mintQuotes : Finmap fun _ : String => MintQuoteEntry
  meltQuotes : Finmap fun _ : String => MeltQuoteEntry
  spentYs : Finset String
  issuedOutputs : Finmap fun _ : String => BlindSignatureSnap

structure DemoMint where
  keyset : DemoKeyset
  mintQuotes : Finmap fun _ : String => MintQuoteEntry
  meltQuotes : Finmap fun _ : String => MeltQuoteEntry
  spentYs : Finset String
  issuedOutputs : Finmap fun _ : String => BlindSignature
  /-- Whether a `StateStore` is configured. -/
  store : Bool

def signatureSnap (sig : BlindSignature) : BlindSignatureSnap where
  amount := sig.amount
  id := sig.id
  cHex := pointHex sig.c
  dleq := sig.dleq.map fun d => ⟨Hex.encode (Crypto.toSecretBytes d.e), Hex.encode (Crypto.toSecretBytes d.s)⟩

def dleqOfSnap (d : DleqSnap) : Option BlindSignatureDleq := do
  let e ← Crypto.fromSlice (← Hex.decode d.eHex)
  let s ← Crypto.fromSlice (← Hex.decode d.sHex)
  pure ⟨e, s⟩

/-- The closure `signature` of `restore`; `none` where the source panics. -/
def signatureOfSnap (s : BlindSignatureSnap) : Option BlindSignature := do
  let cBytes ← Hex.decode s.cHex
  let c ← if cBytes.length = 33 then Crypto.fromBytes cBytes else none
  let dleq ← match s.dleq with
    | none => some none
    | some d => (dleqOfSnap d).map some
  pure { amount := s.amount, id := s.id, c, dleq }

theorem signatureOfSnap_signatureSnap (sig : BlindSignature) : signatureOfSnap (signatureSnap sig) = some sig := by
  obtain ⟨amount, id, c, dleq⟩ := sig
  have hc : Hex.decode (pointHex c) = some (Crypto.toBytes c) := Hex.decode_encode _
  cases dleq with
  | none => simp [signatureOfSnap, signatureSnap, hc, Crypto.toBytes_length, Crypto.fromBytes_toBytes]
  | some d =>
    simp [signatureOfSnap, signatureSnap, hc, Crypto.toBytes_length, Crypto.fromBytes_toBytes, dleqOfSnap,
      Hex.decode_encode, Crypto.fromSlice_toSecretBytes]

namespace DemoMint

/-- `with_backend`: empty tables. -/
def fresh (keyset : DemoKeyset) (store : Bool) : DemoMint := ⟨keyset, ∅, ∅, ∅, ∅, store⟩

/-! ### Updates -/

@[simps] def putMintQuote (m : DemoMint) (id : String) (e : MintQuoteEntry) : DemoMint :=
  { m with mintQuotes := m.mintQuotes.insert id e }

@[simps] def putMeltQuote (m : DemoMint) (id : String) (e : MeltQuoteEntry) : DemoMint :=
  { m with meltQuotes := m.meltQuotes.insert id e }

@[simps] def spend (m : DemoMint) (ys : List String) : DemoMint :=
  { m with spentYs := ys.foldl (fun s y => insert y s) m.spentYs }

/-- Index a signature by its `B_` for NUT-09. -/
@[simps] def recordIssued (m : DemoMint) (output : BlindedMessage) (sig : BlindSignature) : DemoMint :=
  { m with issuedOutputs := m.issuedOutputs.insert (pointHex output.b) sig }

/-! ### Snapshots of a mint -/

def snapshot (m : DemoMint) : MintStateSnapshot where
  mintQuotes := m.mintQuotes
  meltQuotes := m.meltQuotes
  spentYs := m.spentYs
  issuedOutputs := m.issuedOutputs.mapRows signatureSnap

/-- The tables of `snap` in place of those of `m`; `none` where a signature row does not decode. -/
def restore (m : DemoMint) (snap : MintStateSnapshot) : Option DemoMint :=
  let issued := snap.issuedOutputs.filterMapRows signatureOfSnap
  if issued.keys = snap.issuedOutputs.keys then
    some { m with
      mintQuotes := snap.mintQuotes
      meltQuotes := snap.meltQuotes
      spentYs := snap.spentYs
      issuedOutputs := issued }
  else none

/-- Restoring a snapshot brings back the tables it was taken of. -/
theorem restore_snapshot (m m' : DemoMint) :
    m.restore m'.snapshot = some { m' with keyset := m.keyset, store := m.store } := by
  have hrows := Finmap.filterMapRows_mapRows (f := signatureSnap) signatureOfSnap_signatureSnap m'.issuedOutputs
  unfold restore snapshot
  simp only [hrows, Finmap.keys_mapRows, ↓reduceIte]

theorem restore_eq_some {m m' : DemoMint} {snap : MintStateSnapshot} (h : m.restore snap = some m') :
    m'.keyset = m.keyset ∧ m'.store = m.store ∧ m'.mintQuotes = snap.mintQuotes ∧
      m'.meltQuotes = snap.meltQuotes ∧ m'.spentYs = snap.spentYs := by
  unfold restore at h
  dsimp only at h
  split at h
  · cases h; exact ⟨rfl, rfl, rfl, rfl, rfl⟩
  · cases h

end DemoMint

end

namespace Toy

def keyset : DemoKeyset where
  id := "00c0ffee"
  unit := "sat"
  keys := denominations.map fun a => (a, a.toUInt8, a.toUInt8)
  inputFeePpk := 0
  amounts := rfl

end Toy

end Micronuts
