import Mathlib.Data.List.TakeWhile
import Micronuts.Lib.PrefixCode
import Micronuts.Nuts.Messages

/-!
# NUT-20: the message that unlocks a mint quote (`cashu-core-lite`: `nuts/nut20.rs`)

The message frames every part with its length, so it is read back part by part (`quoteSigMessage_injective`), as
long as the lengths fit in the 32 bits that they are cast to.
-/

namespace Micronuts

def mintQuoteSigDomainTag : List UInt8 := asBytes "Cashu_MintQuoteSig_v1"

/-- The `n` low bytes of `v`, the highest first. -/
def toBeBytes (n v : Nat) : List UInt8 := (List.range n).reverse.map fun i => UInt8.ofNat (v / 256 ^ i)

def amountToMinimalBeBytes (amount : UInt64) : List UInt8 :=
  (toBeBytes 8 amount.toNat).dropWhile (· = 0)

/-- `append_len_prefixed`; the length is cast to 32 bits, as the source does. -/
def lenPrefixed (bytes : List UInt8) : List UInt8 := toBeBytes 4 bytes.length ++ bytes

/-! ### Bytes of numbers -/

@[simp] theorem toBeBytes_length (n v : Nat) : (toBeBytes n v).length = n := by simp [toBeBytes]

theorem toBeBytes_succ (n v : Nat) : toBeBytes (n + 1) v = UInt8.ofNat (v / 256 ^ n) :: toBeBytes n v := by
  simp [toBeBytes, List.range_succ]

theorem toBeBytes_injective {n v v' : Nat} (h : toBeBytes n v = toBeBytes n v') : v % 256 ^ n = v' % 256 ^ n := by
  induction n with
  | zero => simp [Nat.mod_one]
  | succ n ih =>
    rw [toBeBytes_succ, toBeBytes_succ, List.cons.injEq] at h
    have hhead := congrArg UInt8.toNat h.1
    simp only [UInt8.toNat_ofNat'] at hhead
    rw [Nat.mod_pow_succ, Nat.mod_pow_succ, ih h.2, hhead]

/-- Two lists of one length that differ only in their leading zeros are the same. -/
theorem eq_of_dropWhile_zero {bs bs' : List UInt8} (hlen : bs.length = bs'.length)
    (h : bs.dropWhile (· = 0) = bs'.dropWhile (· = 0)) : bs = bs' := by
  have hzero : ∀ l : List UInt8, l.takeWhile (· = 0) = List.replicate (l.takeWhile (· = 0)).length 0 :=
    fun l => List.eq_replicate_of_mem fun b hb => by simpa using List.mem_takeWhile_imp hb
  have happend := fun l : List UInt8 => List.takeWhile_append_dropWhile (p := (· = 0)) (l := l)
  have hcount : (bs.takeWhile (· = 0)).length = (bs'.takeWhile (· = 0)).length := by
    have h₁ := congrArg List.length (happend bs)
    have h₂ := congrArg List.length (happend bs')
    rw [List.length_append] at h₁ h₂
    rw [h] at h₁
    omega
  rw [← happend bs, ← happend bs', h, hzero bs, hzero bs', hcount]

theorem amountToMinimalBeBytes_injective {a a' : UInt64} (h : amountToMinimalBeBytes a = amountToMinimalBeBytes a') :
    a = a' := by
  have hbytes := toBeBytes_injective (eq_of_dropWhile_zero (by simp) h)
  rw [Nat.mod_eq_of_lt (by simpa using a.toNat_lt), Nat.mod_eq_of_lt (by simpa using a'.toNat_lt)] at hbytes
  exact UInt64.toNat_inj.1 hbytes

/-! ### Framing -/

/-- The 32-bit length is the length. -/
def ShortBytes (bytes : List UInt8) : Prop := bytes.length < 2 ^ 32

theorem amountToMinimalBeBytes_short (a : UInt64) : ShortBytes (amountToMinimalBeBytes a) := by
  have hle : (amountToMinimalBeBytes a).length ≤ 8 := (List.length_dropWhile_le _ _).trans (by simp)
  unfold ShortBytes
  omega

theorem lenPrefixed_prefixCode : PrefixCode ShortBytes lenPrefixed := by
  intro a b x y ha hb h
  unfold lenPrefixed at h
  rw [List.append_assoc, List.append_assoc] at h
  obtain ⟨hframe, hrest⟩ := List.append_inj h (by simp)
  have hlen := toBeBytes_injective hframe
  unfold ShortBytes at ha hb
  rw [Nat.mod_eq_of_lt (by simpa using ha), Nat.mod_eq_of_lt (by simpa using hb)] at hlen
  exact List.append_inj hrest hlen

theorem lenPrefixed_beginsIn : BeginsIn ShortBytes lenPrefixed fun _ => True := by
  intro bytes _
  rw [lenPrefixed, toBeBytes_succ]
  exact ⟨_, rfl, trivial⟩

variable [Crypto]

def quoteSigMessage (quoteId : String) (outputs : List BlindedMessage) : List UInt8 :=
  mintQuoteSigDomainTag ++ lenPrefixed (asBytes quoteId) ++
    outputs.flatMap fun o => lenPrefixed (amountToMinimalBeBytes o.amount) ++ lenPrefixed (Crypto.toBytes o.b)

/-- The message says which quote and which outputs, in order, it is for. -/
theorem quoteSigMessage_injective {quoteId quoteId' : String} {outputs outputs' : List BlindedMessage}
    (hshort : ShortBytes (asBytes quoteId)) (hshort' : ShortBytes (asBytes quoteId'))
    (h : quoteSigMessage quoteId outputs = quoteSigMessage quoteId' outputs') :
    quoteId = quoteId' ∧ outputs.map (fun o => (o.amount, o.b)) = outputs'.map fun o => (o.amount, o.b) := by
  let parts (o : BlindedMessage) := (amountToMinimalBeBytes o.amount, Crypto.toBytes o.b)
  have hparts : ∀ (outputs : List BlindedMessage), ∀ p ∈ outputs.map parts, ShortBytes p.1 ∧ ShortBytes p.2 := by
    intro outputs p hp
    obtain ⟨o, -, rfl⟩ := List.mem_map.1 hp
    refine ⟨amountToMinimalBeBytes_short o.amount, ?_⟩
    show (Crypto.toBytes o.b).length < 2 ^ 32
    rw [Crypto.toBytes_length]; decide
  have hbegin : BeginsIn (fun p : List UInt8 × List UInt8 => ShortBytes p.1 ∧ ShortBytes p.2)
      (fun p => lenPrefixed p.1 ++ lenPrefixed p.2) fun _ => True := by
    rintro p ⟨hp, -⟩
    obtain ⟨c, hc, -⟩ := lenPrefixed_beginsIn p.1 hp
    exact ⟨c, by rw [List.head?_append, Option.mem_def.1 hc]; rfl, trivial⟩
  have hflat : ∀ outputs : List BlindedMessage, (outputs.flatMap fun o =>
      lenPrefixed (amountToMinimalBeBytes o.amount) ++ lenPrefixed (Crypto.toBytes o.b)) =
        (outputs.map parts).flatMap fun p => lenPrefixed p.1 ++ lenPrefixed p.2 :=
    fun outputs => by rw [List.flatMap_map]
  unfold quoteSigMessage at h
  rw [List.append_assoc, List.append_assoc, List.append_cancel_left_eq, hflat, hflat] at h
  obtain ⟨hid, houtputs⟩ := lenPrefixed_prefixCode _ _ _ _ hshort hshort' h
  rw [← List.append_nil (List.flatMap ..), ← List.append_nil (List.flatMap _ (outputs'.map parts))] at houtputs
  obtain ⟨hmap, -⟩ := (lenPrefixed_prefixCode.append lenPrefixed_prefixCode).flatMap hbegin (hparts outputs)
    (hparts outputs') (stops_nil _) (stops_nil _) houtputs
  have hinj : Function.Injective fun p : UInt64 × PublicKey => (amountToMinimalBeBytes p.1, Crypto.toBytes p.2) := by
    rintro ⟨a, b⟩ ⟨a', b'⟩ hab
    obtain ⟨ha, hb⟩ := Prod.mk.inj hab
    exact Prod.ext (amountToMinimalBeBytes_injective ha) (toBytes_injective hb)
  refine ⟨asBytes_injective hid, List.map_injective_iff.2 hinj ?_⟩
  simpa only [List.map_map, Function.comp_def] using hmap

end Micronuts
