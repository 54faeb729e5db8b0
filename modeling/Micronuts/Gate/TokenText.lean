import Micronuts.Gate.WalletPort
import Micronuts.Nuts.TokenEncode

/-!
# The two readers of a token's text

`base64urlDecode` shifts digits through 32 bits and never fails; `decodeGroups` takes them in fours and does. Where the
second succeeds, on the url alphabet, the first returns the same bytes.
-/

namespace Micronuts

/-! ### One group -/

theorem base64urlDecodeFrom_digit {b : UInt8} {pos : UInt32} (h : tablePosition b = some pos) (rest : List UInt8)
    (buf bits : UInt32) : base64urlDecodeFrom (b :: rest) buf bits =
      if 8 ≤ bits + 6 then
        ((buf <<< 6 ||| pos) >>> (bits + 6 - 8)).toUInt8 :: base64urlDecodeFrom rest (buf <<< 6 ||| pos) (bits + 6 - 8)
      else base64urlDecodeFrom rest (buf <<< 6 ||| pos) (bits + 6) := by
  have hb : b ≠ '='.toUInt8 := by
    rintro rfl
    rw [show tablePosition '='.toUInt8 = none by decide] at h
    cases h
  rw [base64urlDecodeFrom, if_neg hb, h]

theorem base64urlDecodeFrom_padding (input : List UInt8) (n : Nat) (buf bits : UInt32) :
    base64urlDecodeFrom (input ++ List.replicate n '='.toUInt8) buf bits = base64urlDecodeFrom input buf bits := by
  induction input generalizing buf bits with
  | nil =>
    cases n with
    | zero => rfl
    | succ n => simp [base64urlDecodeFrom, List.replicate_succ]
  | cons b input ih =>
    rw [List.cons_append, base64urlDecodeFrom, base64urlDecodeFrom]
    simp only [ih]

/-- A digit of the url alphabet has one value for both readers. -/
theorem tablePosition_of_value {b v : UInt8} (h : base64Value b = some v) (hplus : b ≠ '+'.toUInt8)
    (hslash : b ≠ '/'.toUInt8) : tablePosition b = some v.toUInt32 ∧ v &&& 63 = v := by
  have hall := @forall_byte (fun b => (base64Value b).all (fun v => b = '+'.toUInt8 ∨ b = '/'.toUInt8 ∨
    tablePosition b = some v.toUInt32 ∧ v &&& 63 = v) = true) (by decide +kernel) b
  rw [h] at hall
  simpa [hplus, hslash] using hall

/-- The byte that two digits give, whatever was in the buffer. -/
theorem shifted_bytes (buf : UInt32) (x y : UInt8) :
    (((buf <<< 6 ||| (x &&& 63).toUInt32) <<< 6 ||| (y &&& 63).toUInt32) >>> 4).toUInt8 =
        (x &&& 63) <<< 2 ||| (y &&& 63) >>> 4 ∧
      (((buf <<< 6 ||| (x &&& 63).toUInt32) <<< 6 ||| (y &&& 63).toUInt32) >>> 2).toUInt8 =
        ((x &&& 63) &&& 0x0F) <<< 4 ||| (y &&& 63) >>> 2 ∧
      (((buf <<< 6 ||| (x &&& 63).toUInt32) <<< 6 ||| (y &&& 63).toUInt32) >>> 0).toUInt8 =
        ((x &&& 63) &&& 0x03) <<< 6 ||| (y &&& 63) := by
  refine ⟨?_, ?_, ?_⟩
  · apply UInt8.toBitVec_inj.1
    ext i hi
    simp
    interval_cases i <;> simp
  · apply UInt8.toBitVec_inj.1
    ext i hi
    simp
    interval_cases i <;> simp
  · apply UInt8.toBitVec_inj.1
    ext i hi
    simp
    interval_cases i <;> simp

/-- Three digits of a group, with a buffer that ends in the last of them. -/
theorem base64urlDecodeFrom_three {a b c x y z : UInt8} (ha : tablePosition a = some (x &&& 63).toUInt32)
    (hb : tablePosition b = some (y &&& 63).toUInt32) (hc : tablePosition c = some (z &&& 63).toUInt32) (buf : UInt32) :
    ∃ buf' : UInt32, ∀ rest, base64urlDecodeFrom (a :: b :: c :: rest) buf 0 =
      ((x &&& 63) <<< 2 ||| (y &&& 63) >>> 4) :: (((y &&& 63) &&& 0x0F) <<< 4 ||| (z &&& 63) >>> 2) ::
        base64urlDecodeFrom rest (buf' <<< 6 ||| (z &&& 63).toUInt32) 2 := by
  refine ⟨(buf <<< 6 ||| (x &&& 63).toUInt32) <<< 6 ||| (y &&& 63).toUInt32, fun rest => ?_⟩
  rw [base64urlDecodeFrom_digit ha, if_neg (by decide), base64urlDecodeFrom_digit hb, if_pos (by decide),
    base64urlDecodeFrom_digit hc, if_pos (by decide)]
  rw [show (0 + 6 + 6 - 8 : UInt32) = 4 by decide, show (4 + 6 - 8 : UInt32) = 2 by decide, (shifted_bytes buf x y).1,
    (shifted_bytes _ y z).2.1]

theorem base64urlDecodeFrom_groups {input out : List UInt8} (h : decodeGroups input = some out)
    (hurl : ∀ b ∈ input, b ≠ '+'.toUInt8 ∧ b ≠ '/'.toUInt8) (buf : UInt32) : base64urlDecodeFrom input buf 0 = out := by
  have hdigit : ∀ {b v}, b ∈ input → base64Value b = some v → tablePosition b = some (v &&& 63).toUInt32 ∧ v &&& 63 = v := by
    intro b v hb hv
    obtain ⟨hpos, hmask⟩ := tablePosition_of_value hv (hurl b hb).1 (hurl b hb).2
    rw [hmask]
    exact ⟨hpos, rfl⟩
  fun_induction decodeGroups input generalizing out buf with
  | case1 a b c d rest ih =>
    simp only [Option.bind_eq_bind, Option.bind_eq_some_iff, Option.pure_def, Option.some.injEq] at h
    obtain ⟨x, hx, y, hy, z, hz, w, hw, out', hrest, rfl⟩ := h
    obtain ⟨hx, hxm⟩ := hdigit (by simp) hx
    obtain ⟨hy, hym⟩ := hdigit (by simp) hy
    obtain ⟨hz, hzm⟩ := hdigit (by simp) hz
    obtain ⟨hw, hwm⟩ := hdigit (by simp) hw
    obtain ⟨buf', hthree⟩ := base64urlDecodeFrom_three hx hy hz buf
    rw [hthree, base64urlDecodeFrom_digit hw, if_pos (by decide), show (2 + 6 - 8 : UInt32) = 0 by decide,
      (shifted_bytes buf' z w).2.2, hxm, hym, hzm, hwm]
    rw [ih hrest (fun b hb => hurl b (by simp [hb])) _ fun hb hv => hdigit (by simp [hb]) hv]
  | case2 a b c =>
    simp only [Option.bind_eq_bind, Option.bind_eq_some_iff, Option.pure_def, Option.some.injEq] at h
    obtain ⟨x, hx, y, hy, z, hz, rfl⟩ := h
    obtain ⟨hx, hxm⟩ := hdigit (by simp) hx
    obtain ⟨hy, hym⟩ := hdigit (by simp) hy
    obtain ⟨hz, hzm⟩ := hdigit (by simp) hz
    obtain ⟨buf', hthree⟩ := base64urlDecodeFrom_three hx hy hz buf
    rw [hthree, hxm, hym, hzm]
    rfl
  | case3 a b =>
    simp only [Option.bind_eq_bind, Option.bind_eq_some_iff, Option.pure_def, Option.some.injEq] at h
    obtain ⟨x, hx, y, hy, rfl⟩ := h
    obtain ⟨hx, hxm⟩ := hdigit (by simp) hx
    obtain ⟨hy, hym⟩ := hdigit (by simp) hy
    rw [base64urlDecodeFrom_digit hx, if_neg (by decide), base64urlDecodeFrom_digit hy, if_pos (by decide),
      show (0 + 6 + 6 - 8 : UInt32) = 4 by decide, (shifted_bytes buf x y).1, hxm, hym]
    rfl
  | case4 input hfour hthree htwo =>
    cases h
    rcases input with _ | ⟨a, _ | ⟨b, _ | ⟨c, _ | ⟨d, rest⟩⟩⟩⟩
    · rfl
    · -- a single digit gives no byte, and anything else is passed over
      rw [base64urlDecodeFrom]
      split
      · rfl
      · split
        · rfl
        · rw [if_neg (by decide)]
          rfl
    · exact absurd rfl (htwo a b)
    · exact absurd rfl (hthree a b c)
    · exact absurd rfl (hfour a b c d rest)

/-- Where the crate's decoder succeeds without the standard alphabet, the port's returns the same bytes. -/
theorem base64urlDecode_of_decode {input out : List UInt8} (h : decodeBase64url input = some out)
    (hurl : ∀ b ∈ input, b ≠ '+'.toUInt8 ∧ b ≠ '/'.toUInt8) : base64urlDecode input = out := by
  obtain ⟨n, hn⟩ := unpadded_append input
  have hsub : ∀ b ∈ unpadded input, b ∈ input := by
    intro b hb
    rw [hn]
    exact List.mem_append_left _ hb
  rw [base64urlDecode, hn, base64urlDecodeFrom_padding]
  exact base64urlDecodeFrom_groups h (fun b hb => hurl b (hsub b hb)) 0

end Micronuts
