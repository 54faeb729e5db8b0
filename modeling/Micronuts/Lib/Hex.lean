import Mathlib.Algebra.Ring.Nat
import Mathlib.Data.List.Basic

/-!
# Hex text of a byte string

Two lowercase digits a byte; decoding takes digits of either case and refuses an odd number of them.
-/

theorem forall_byte {P : UInt8 → Prop} (h : ∀ n < 256, P (UInt8.ofNat n)) (b : UInt8) : P b := by
  have hb := h b.toNat b.toNat_lt
  rwa [UInt8.ofNat_toNat] at hb

namespace Hex

def digit (n : Nat) : Char := Char.ofNat (if n < 10 then 48 + n else 87 + n)

def digits (bs : List UInt8) : List Char :=
  bs.flatMap fun b => [digit (b.toNat / 16), digit (b.toNat % 16)]

def encode (bs : List UInt8) : String := String.ofList (digits bs)

def digitValue (c : Char) : Option Nat :=
  if '0' ≤ c ∧ c ≤ '9' then some (c.toNat - 48)
  else if 'a' ≤ c ∧ c ≤ 'f' then some (c.toNat - 87)
  else if 'A' ≤ c ∧ c ≤ 'F' then some (c.toNat - 55)
  else none

def decodeDigits : List Char → Option (List UInt8)
  | [] => some []
  | [_] => none
  | a :: b :: rest => do
    let x ← digitValue a
    let y ← digitValue b
    let bs ← decodeDigits rest
    pure (UInt8.ofNat (16 * x + y) :: bs)

def decode (s : String) : Option (List UInt8) := decodeDigits s.toList

theorem digitValue_digit : ∀ n < 16, digitValue (digit n) = some n := by decide

theorem decodeDigits_digits (bs : List UInt8) : decodeDigits (digits bs) = some bs := by
  induction bs with
  | nil => rfl
  | cons b bs ih =>
    have hb := b.toNat_lt
    show decodeDigits (digit (b.toNat / 16) :: digit (b.toNat % 16) :: digits bs) = _
    rw [decodeDigits, digitValue_digit _ (by omega), digitValue_digit _ (by omega), ih]
    simp only [Option.bind_eq_bind, Option.bind_some, Option.pure_def, Option.some.injEq, List.cons.injEq, and_true]
    rw [Nat.div_add_mod, UInt8.ofNat_toNat]

theorem length_decodeDigits {cs : List Char} {bs : List UInt8} (h : decodeDigits cs = some bs) :
    cs.length = 2 * bs.length := by
  induction cs using decodeDigits.induct generalizing bs with
  | case1 => cases h; rfl
  | case2 => cases h
  | case3 a b rest ih =>
    obtain ⟨x, -, h⟩ := Option.bind_eq_some_iff.1 h
    obtain ⟨y, -, h⟩ := Option.bind_eq_some_iff.1 h
    obtain ⟨bs, hbs, h⟩ := Option.bind_eq_some_iff.1 h
    cases h
    simp only [List.length_cons, ih hbs]
    omega

theorem decode_encode (bs : List UInt8) : decode (encode bs) = some bs := by
  rw [decode, encode, String.toList_ofList, decodeDigits_digits]

theorem encode_injective {bs bs' : List UInt8} (h : encode bs = encode bs') : bs = bs' := by
  have := decode_encode bs
  rw [h, decode_encode] at this
  exact (Option.some.inj this).symm

/-- A text of lowercase digits, two for each byte. -/
def Lower (s : String) : Prop :=
  s.toList.length % 2 = 0 ∧ ∀ c ∈ s.toList, ('0' ≤ c ∧ c ≤ '9') ∨ ('a' ≤ c ∧ c ≤ 'f')

instance (s : String) : Decidable (Lower s) :=
  have := List.decidableBAll (fun c => ('0' ≤ c ∧ c ≤ '9') ∨ ('a' ≤ c ∧ c ≤ 'f')) s.toList
  instDecidableAnd

theorem digitValue_lower {c : Char} (h : ('0' ≤ c ∧ c ≤ '9') ∨ ('a' ≤ c ∧ c ≤ 'f')) :
    ∃ n < 16, digitValue c = some n ∧ digit n = c := by
  have hall : ∀ n < 128, ('0' ≤ Char.ofNat n ∧ Char.ofNat n ≤ '9') ∨ ('a' ≤ Char.ofNat n ∧ Char.ofNat n ≤ 'f') →
      ∃ m < 16, digitValue (Char.ofNat n) = some m ∧ digit m = Char.ofNat n := by decide
  have hlt : c.toNat < 128 := by
    rcases h with ⟨-, h⟩ | ⟨-, h⟩ <;> exact lt_of_le_of_lt h (by decide)
  have := hall c.toNat hlt
  rw [Char.ofNat_toNat] at this
  exact this h

theorem digits_decodeDigits (cs : List Char) (heven : cs.length % 2 = 0)
    (h : ∀ c ∈ cs, ('0' ≤ c ∧ c ≤ '9') ∨ ('a' ≤ c ∧ c ≤ 'f')) : ∃ bs, decodeDigits cs = some bs ∧ digits bs = cs := by
  fun_induction decodeDigits cs with
  | case1 => exact ⟨[], rfl, rfl⟩
  | case2 => simp at heven
  | case3 a b rest ih =>
    simp only [List.forall_mem_cons] at h
    obtain ⟨x, hx, hxv, hxd⟩ := digitValue_lower h.1
    obtain ⟨y, hy, hyv, hyd⟩ := digitValue_lower h.2.1
    simp only [List.length_cons] at heven
    obtain ⟨bs, hbs, hds⟩ := ih (by omega) h.2.2
    refine ⟨UInt8.ofNat (16 * x + y) :: bs, by simp [hxv, hyv, hbs], ?_⟩
    have hnat : (UInt8.ofNat (16 * x + y)).toNat = 16 * x + y := UInt8.toNat_ofNat_of_lt' (show 16 * x + y < 256 by omega)
    rw [digits, List.flatMap_cons, hnat, show (16 * x + y) / 16 = x by omega, show (16 * x + y) % 16 = y by omega, hxd, hyd]
    exact congrArg (a :: b :: ·) hds

theorem lower_encode (bs : List UInt8) : Lower (encode bs) := by
  have hdigit : ∀ n < 16, ('0' ≤ digit n ∧ digit n ≤ '9') ∨ ('a' ≤ digit n ∧ digit n ≤ 'f') := by decide
  rw [Lower, encode, String.toList_ofList]
  induction bs with
  | nil => exact ⟨rfl, nofun⟩
  | cons b bs ih =>
    have hb := b.toNat_lt
    have hcons : digits (b :: bs) = digit (b.toNat / 16) :: digit (b.toNat % 16) :: digits bs := rfl
    rw [hcons, List.forall_mem_cons, List.forall_mem_cons]
    refine ⟨?_, hdigit _ (by omega), hdigit _ (by omega), ih.2⟩
    have := ih.1
    simp only [List.length_cons]
    omega

/-- Lowercase text is the text of its bytes. -/
theorem Lower.encode_decode {s : String} (h : Lower s) : ∃ bs, decode s = some bs ∧ encode bs = s := by
  obtain ⟨bs, hdecode, hdigits⟩ := digits_decodeDigits s.toList h.1 h.2
  exact ⟨bs, hdecode, by rw [encode, hdigits, String.ofList_toList]⟩

end Hex
