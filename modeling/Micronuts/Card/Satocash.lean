import Mathlib.Algebra.Ring.Nat
import Mathlib.Data.List.Basic

/-!
# Proofs on a card (`micronuts-satocash`: `lib.rs`, `wallet.rs`)

`export_proofs` asks a card for proofs by their indices, and reads the answer in records of 70 bytes. The number of indices
is cast to a byte; a list that is too long for it is refused where the command is framed. The exponent of an amount is
masked to five bits, and checked by an assertion of debug builds only (`exportProofs_exact`).
-/

namespace Micronuts.Satocash

inductive CardError
  | transport (message : String)
  | sw (status : UInt16)
  | malformed (message : String)
deriving DecidableEq

/-- A short APDU; data beyond its one byte of length is refused. -/
def encodeApdu (cla ins p1 p2 : UInt8) (data : List UInt8) : Except CardError (List UInt8) :=
  if 255 < data.length then .error (.malformed "apdu data exceeds short-Lc field (255)")
  else .ok ([cla, ins, p1, p2] ++ if data = [] then [0] else UInt8.ofNat data.length :: data)

/-- A card, and the commands that it was sent. -/
structure CardTransport where
  card : List UInt8 → Except CardError (List UInt8 × UInt16)
  sent : List (List UInt8)

def CardTransport.exchange (t : CardTransport) (cla ins p1 p2 : UInt8) (data : List UInt8) :
    Except CardError (List UInt8 × UInt16) × CardTransport :=
  match encodeApdu cla ins p1 p2 data with
  | .error e => (.error e, t)
  | .ok cmd => (t.card cmd, { t with sent := t.sent ++ [cmd] })

/-! ### Records -/

inductive ProofState
  | empty
  | unspent
  | spent
  | unknown (v : UInt8)
deriving DecidableEq

def ProofState.ofByte (v : UInt8) : ProofState :=
  if v = 0 then .empty else if v = 1 then .unspent else if v = 2 then .spent else .unknown v

structure ProofRecord where
  index : UInt16
  state : ProofState
  keysetIndex : UInt8
  amountExponent : UInt8
  unblindedKey : Vector UInt8 33
  secret : Vector UInt8 32
deriving DecidableEq

/-- `none` where the assertion of a debug build fails. -/
def proofValue (debugAssertions : Bool) (amountExponent : UInt8) : Option UInt64 :=
  if debugAssertions ∧ ¬ amountExponent < 32 then none
  else some (1 <<< (amountExponent &&& 31).toUInt64)

def ProofRecord.amount (debugAssertions : Bool) (record : ProofRecord) : Option UInt64 :=
  proofValue debugAssertions record.amountExponent

def recordSize : Nat := 70

/-- `r.chunks(size)`, of a length that the size divides. -/
def chunks (size : Nat) : Nat → List UInt8 → List (List UInt8)
  | 0, _ => []
  | n + 1, bytes => bytes.take size :: chunks size n (bytes.drop size)

/-- `copy_from_slice(&chunk[start..start + n])`. -/
def slice (chunk : List UInt8) (start n : Nat) : Vector UInt8 n := Vector.ofFn fun i => chunk.getD (start + i) 0

def fromBeBytes (high low : UInt8) : UInt16 := UInt16.ofNat (high.toNat * 256 + low.toNat)

def parseRecord (chunk : List UInt8) : ProofRecord where
  index := fromBeBytes (chunk.getD 0 0) (chunk.getD 1 0)
  state := .ofByte (chunk.getD 2 0)
  keysetIndex := chunk.getD 3 0
  amountExponent := chunk.getD 4 0
  unblindedKey := slice chunk 5 33
  secret := slice chunk 38 32

def parseStream (r : List UInt8) : Except CardError (List ProofRecord) :=
  if r.length % recordSize ≠ 0 then .error (.malformed "proof stream not a 70-byte multiple")
  else .ok ((chunks recordSize (r.length / recordSize) r).map parseRecord)

/-! ### The command -/

def claSatocash : UInt8 := 0xB0
def insExportProofs : UInt8 := 0xB8
def opInit : UInt8 := 0x01

def toBeBytes (n : UInt16) : List UInt8 := [UInt8.ofNat (n.toNat / 256), UInt8.ofNat n.toNat]

/-- The number of indices, cast to a byte, the indices, and no second factor. -/
def exportData (indices : List UInt16) : List UInt8 :=
  UInt8.ofNat indices.length :: indices.flatMap toBeBytes ++ [0]

def exportProofs (t : CardTransport) (indices : List UInt16) : Except CardError (List ProofRecord) × CardTransport :=
  match t.exchange claSatocash insExportProofs 0x00 opInit (exportData indices) with
  | (.error e, t) => (.error e, t)
  | (.ok (resp, sw), t) => if sw ≠ 0x9000 then (.error (.sw sw), t) else (parseStream resp, t)

/-! ### What an export says -/

def ProofState.byte : ProofState → UInt8
  | .empty => 0
  | .unspent => 1
  | .spent => 2
  | .unknown v => v

def ProofRecord.bytes (record : ProofRecord) : List UInt8 :=
  toBeBytes record.index ++ [record.state.byte, record.keysetIndex, record.amountExponent] ++
    record.unblindedKey.toList ++ record.secret.toList

/-- The command is the last that was sent, with all indices and their number, and its answer is the records, to the byte. -/
structure Exported (t : CardTransport) (indices : List UInt16) (records : List ProofRecord) (u : CardTransport) : Prop where
  counted : (UInt8.ofNat indices.length).toNat = indices.length
  answered : ∃ lc resp, u.sent = t.sent ++ [[claSatocash, insExportProofs, 0x00, opInit, lc] ++
      UInt8.ofNat indices.length :: indices.flatMap toBeBytes ++ [0]] ∧
    u.sent.getLast?.map t.card = some (.ok (resp, 0x9000)) ∧ records.flatMap ProofRecord.bytes = resp

/-- The amount is the power of two of the exponent, in every build. -/
def ProofRecord.Exact (record : ProofRecord) : Prop :=
  ∀ debugAssertions, ∃ v, record.amount debugAssertions = some v ∧ v.toNat = 2 ^ record.amountExponent.toNat

/-- No record of the answer has an exponent above 31. -/
def AnswerFits (t : CardTransport) (indices : List UInt16) : Prop :=
  ∀ cmd resp, encodeApdu claSatocash insExportProofs 0x00 opInit (exportData indices) = .ok cmd →
    t.card cmd = .ok (resp, 0x9000) → resp.length % recordSize = 0 →
      ∀ chunk ∈ chunks recordSize (resp.length / recordSize) resp, chunk.getD 4 0 ≤ 31

section records
variable {size n : Nat} {bytes chunk : List UInt8}

theorem chunks_flatten (h : bytes.length = size * n) : (chunks size n bytes).flatten = bytes := by
  induction n generalizing bytes with
  | zero =>
    obtain rfl : bytes = [] := List.length_eq_zero_iff.1 (by omega)
    rfl
  | succ n ih =>
    rw [Nat.mul_succ] at h
    rw [chunks, List.flatten_cons, ih (by rw [List.length_drop]; omega), List.take_append_drop]

theorem length_of_mem_chunks (h : bytes.length = size * n) (hchunk : chunk ∈ chunks size n bytes) : chunk.length = size := by
  induction n generalizing bytes with
  | zero => cases hchunk
  | succ n ih =>
    rw [Nat.mul_succ] at h
    rw [chunks] at hchunk
    rcases List.mem_cons.1 hchunk with rfl | hchunk
    · rw [List.length_take]
      omega
    · exact ih (by rw [List.length_drop]; omega) hchunk

theorem toList_slice {start : Nat} (h : start + n ≤ chunk.length) :
    (slice chunk start n).toList = (chunk.drop start).take n := by
  refine List.ext_getElem ?_ fun i hi hi' => ?_
  · rw [Vector.length_toList, List.length_take, List.length_drop]
    omega
  · rw [Vector.length_toList] at hi
    simp only [slice, Vector.getElem_toList, Vector.getElem_ofFn, List.getElem_take, List.getElem_drop]
    rw [List.getD_eq_getElem?_getD, List.getElem?_eq_getElem (by omega), Option.getD_some]

theorem byte_ofByte (v : UInt8) : (ProofState.ofByte v).byte = v := by
  rw [ProofState.ofByte]
  split_ifs with h0 h1 h2
  · exact h0.symm
  · exact h1.symm
  · exact h2.symm
  · rfl

theorem toBeBytes_fromBeBytes (high low : UInt8) : toBeBytes (fromBeBytes high low) = [high, low] := by
  have hhigh := high.toNat_lt
  have hlow := low.toNat_lt
  have hnat : (fromBeBytes high low).toNat = high.toNat * 256 + low.toNat :=
    UInt16.toNat_ofNat_of_lt' (show high.toNat * 256 + low.toNat < 65536 by omega)
  have hmod : UInt8.ofNat (high.toNat * 256 + low.toNat) = low := by
    rw [← UInt8.toNat_inj, UInt8.toNat_ofNat']
    omega
  rw [toBeBytes, hnat, hmod, show (high.toNat * 256 + low.toNat) / 256 = high.toNat by omega, UInt8.ofNat_toNat]

/-- A record is written as it was read. -/
theorem bytes_parseRecord (h : chunk.length = recordSize) : (parseRecord chunk).bytes = chunk := by
  have hsize : chunk.length = 70 := h
  obtain ⟨a, b, c, d, e, rest, rfl⟩ : ∃ a b c d e rest, chunk = a :: b :: c :: d :: e :: rest := by
    match chunk, hsize with
    | a :: b :: c :: d :: e :: rest, _ => exact ⟨a, b, c, d, e, rest, rfl⟩
  simp only [List.length_cons] at hsize
  rw [ProofRecord.bytes, parseRecord]
  dsimp only
  rw [toBeBytes_fromBeBytes, byte_ofByte, toList_slice (by simp only [List.length_cons]; omega),
    toList_slice (by simp only [List.length_cons]; omega)]
  have hkey : ((a :: b :: c :: d :: e :: rest).drop 38).take 32 = rest.drop 33 :=
    List.take_of_length_le (by simp only [List.drop_succ_cons, List.length_drop]; omega)
  rw [hkey]
  show a :: b :: c :: d :: e :: (rest.take 33 ++ rest.drop 33) = _
  rw [List.take_append_drop]

theorem parseStream_eq_ok {records : List ProofRecord} : parseStream bytes = .ok records ↔
    bytes.length % recordSize = 0 ∧ records = (chunks recordSize (bytes.length / recordSize) bytes).map parseRecord := by
  rw [parseStream]
  split_ifs with h
  · simp [h]
  · rw [not_not] at h
    simp [h, eq_comm]

theorem bytes_chunks (h : bytes.length % recordSize = 0) :
    ((chunks recordSize (bytes.length / recordSize) bytes).map parseRecord).flatMap ProofRecord.bytes = bytes := by
  have hlength : bytes.length = recordSize * (bytes.length / recordSize) := by
    have := Nat.div_add_mod bytes.length recordSize
    omega
  have hparsed : (chunks recordSize (bytes.length / recordSize) bytes).map (fun chunk => (parseRecord chunk).bytes) =
      chunks recordSize (bytes.length / recordSize) bytes :=
    (List.map_congr_left fun chunk hchunk => bytes_parseRecord (length_of_mem_chunks hlength hchunk)).trans (List.map_id _)
  rw [List.flatMap_map, List.flatMap_def, hparsed, chunks_flatten hlength]

theorem shift_exponent {e : UInt8} (h : e ≤ 31) : ((1 : UInt64) <<< (e &&& 31).toUInt64).toNat = 2 ^ e.toNat := by
  have hle : e.toNat ≤ 31 := UInt8.le_iff_toNat_le.1 h
  have hmask : (e &&& 31).toNat = e.toNat := by
    have := Nat.and_two_pow_sub_one_eq_mod e.toNat 5
    rw [UInt8.toNat_and]
    show e.toNat &&& 31 = e.toNat
    rw [this]
    omega
  have hpow : 2 ^ e.toNat < 2 ^ 64 := Nat.pow_lt_pow_right (by omega) (by omega)
  rw [UInt64.toNat_shiftLeft, UInt8.toNat_toUInt64, hmask, Nat.mod_eq_of_lt (by omega : e.toNat < 64), UInt64.toNat_one,
    Nat.shiftLeft_eq, Nat.one_mul, Nat.mod_eq_of_lt hpow]

/-- Above 31 a debug build has no amount. -/
theorem exact_iff (record : ProofRecord) : record.Exact ↔ record.amountExponent ≤ 31 := by
  have hlt : record.amountExponent < 32 ↔ record.amountExponent ≤ 31 := by
    rw [UInt8.le_iff_toNat_le, UInt8.lt_iff_toNat_lt]
    exact Nat.lt_succ_iff
  constructor
  · intro h
    obtain ⟨v, hv, -⟩ := h true
    rw [ProofRecord.amount, proofValue] at hv
    split_ifs at hv with hpanic
    exact hlt.1 (by simpa using hpanic)
  · intro h debugAssertions
    refine ⟨_, ?_, shift_exponent h⟩
    rw [ProofRecord.amount, proofValue, if_neg fun hpanic => hpanic.2 (hlt.2 h)]

end records

/-! ### The export -/

section exports
variable {t u : CardTransport} {indices : List UInt16} {records : List ProofRecord}

theorem length_exportData (indices : List UInt16) : (exportData indices).length = 2 * indices.length + 2 := by
  have hpairs : (indices.flatMap toBeBytes).length = 2 * indices.length := by
    induction indices with
    | nil => rfl
    | cons i indices ih =>
      rw [List.flatMap_cons, List.length_append, ih, List.length_cons]
      show 2 + _ = _
      omega
  rw [exportData, List.length_append, List.length_cons, hpairs, List.length_singleton]

theorem encodeApdu_exportData : encodeApdu claSatocash insExportProofs 0x00 opInit (exportData indices) =
    if 126 < indices.length then .error (.malformed "apdu data exceeds short-Lc field (255)")
    else .ok ([claSatocash, insExportProofs, 0x00, opInit, UInt8.ofNat (exportData indices).length] ++
        exportData indices) := by
  have hlength := length_exportData indices
  have hne : exportData indices ≠ [] := by
    intro h
    rw [h, List.length_nil] at hlength
    omega
  rw [encodeApdu, if_neg hne]
  split_ifs with hlong hmany hmany
  · rfl
  · omega
  · omega
  · rfl

/-- How an export succeeds. -/
theorem exportProofs_eq_ok : exportProofs t indices = (.ok records, u) ↔ indices.length ≤ 126 ∧ ∃ cmd resp,
    encodeApdu claSatocash insExportProofs 0x00 opInit (exportData indices) = .ok cmd ∧ t.card cmd = .ok (resp, 0x9000) ∧
      resp.length % recordSize = 0 ∧ records = (chunks recordSize (resp.length / recordSize) resp).map parseRecord ∧
      u = { t with sent := t.sent ++ [cmd] } := by
  rw [exportProofs, CardTransport.exchange, encodeApdu_exportData]
  split_ifs with hmany
  · refine iff_of_false (fun h => ?_) fun h => ?_
    · cases h
    · omega
  · dsimp only
    obtain ⟨cmd, hcmd⟩ : ∃ cmd, [claSatocash, insExportProofs, 0x00, opInit, UInt8.ofNat (exportData indices).length] ++
      exportData indices = cmd := ⟨_, rfl⟩
    rw [hcmd]
    rcases hcard : t.card cmd with e | ⟨resp, sw⟩
    · refine iff_of_false (fun h => by cases h) ?_
      rintro ⟨-, cmd', resp, hcmd', hresp, -⟩
      cases hcmd'
      rw [hcard] at hresp
      cases hresp
    · dsimp only
      split_ifs with hsw
      · refine iff_of_false (fun h => by cases h) ?_
        rintro ⟨-, cmd', resp', hcmd', hresp, -⟩
        cases hcmd'
        rw [hcard] at hresp
        cases hresp
        exact hsw rfl
      · rw [not_not] at hsw
        subst hsw
        rw [Prod.mk.injEq, parseStream_eq_ok]
        constructor
        · rintro ⟨⟨hsize, hrecords⟩, hu⟩
          exact ⟨by omega, cmd, resp, rfl, hcard, hsize, hrecords, hu.symm⟩
        · rintro ⟨-, cmd', resp', hcmd', hresp, hsize, hrecords, hu⟩
          cases hcmd'
          rw [hcard] at hresp
          cases hresp
          exact ⟨⟨hsize, hrecords⟩, hu.symm⟩

/-- The command and the records are right in every export. -/
theorem exported (h : exportProofs t indices = (.ok records, u)) : Exported t indices records u := by
  obtain ⟨hmany, cmd, resp, hcmd, hcard, hsize, rfl, rfl⟩ := exportProofs_eq_ok.1 h
  rw [encodeApdu_exportData, if_neg (by omega)] at hcmd
  obtain rfl := Except.ok.inj hcmd
  constructor
  · rw [UInt8.toNat_ofNat']
    omega
  · refine ⟨_, resp, rfl, ?_, bytes_chunks hsize⟩
    rw [List.getLast?_concat, Option.map_some, hcard]

/-- The amounts are exact, and an exponent above 31 is refused, exactly when the card does not answer with one. -/
theorem exportProofs_exact (t : CardTransport) (indices : List UInt16) :
    (∀ records u, exportProofs t indices = (.ok records, u) → Exported t indices records u ∧
      ∀ record ∈ records, record.Exact) ↔
      AnswerFits t indices := by
  constructor
  · intro h cmd resp hcmd hcard hsize chunk hchunk
    have hmany : indices.length ≤ 126 := by
      by_contra hmany
      rw [encodeApdu_exportData, if_pos (by omega)] at hcmd
      cases hcmd
    obtain ⟨-, hexact⟩ := h _ _ (exportProofs_eq_ok.2 ⟨hmany, cmd, resp, hcmd, hcard, hsize, rfl, rfl⟩)
    exact (exact_iff _).1 (hexact _ (List.mem_map_of_mem hchunk))
  · intro h records u hexport
    refine ⟨exported hexport, fun record hrecord => (exact_iff record).2 ?_⟩
    obtain ⟨-, cmd, resp, hcmd, hcard, hsize, rfl, -⟩ := exportProofs_eq_ok.1 hexport
    obtain ⟨chunk, hchunk, rfl⟩ := List.mem_map.1 hrecord
    exact h cmd resp hcmd hcard hsize chunk hchunk

/-- A card answers with one record, of the exponent 32. -/
theorem exportProofs_exponent : ∃ (t u : CardTransport) (record : ProofRecord), exportProofs t [7] = (.ok [record], u) ∧
    record.amountExponent = 32 ∧ record.amount true = none ∧ record.amount false = some 1 := by
  let t : CardTransport := ⟨fun _ => .ok ([0, 7, 1, 0, 32] ++ List.replicate 65 2, 0x9000), []⟩
  let record : ProofRecord := ⟨7, .unspent, 0, 32, .replicate 33 2, .replicate 32 2⟩
  refine ⟨t, _, record, exportProofs_eq_ok.2 ⟨by decide, _, _, rfl, rfl, by decide, ?_, rfl⟩, rfl, by decide, by decide⟩
  decide +kernel

end exports

end Micronuts.Satocash
