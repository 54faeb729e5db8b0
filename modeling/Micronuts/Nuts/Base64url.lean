import Micronuts.Lib.Text
import Micronuts.Nuts.Token
import Mathlib.Tactic.IntervalCases

/-!
# The base64url text of a token

Three bytes are four digits of six bits. `decodeGroups` puts the digits together again, so `decodeBase64url` gives the
bytes of `encodeBase64url` back.
-/

namespace Micronuts

theorem forall_sextet {P : UInt32 → Prop} (h : ∀ n < 64, P (UInt32.ofNat n)) (n : UInt32) : P (n &&& 63) := by
  have hlt : (n &&& 63).toNat < 64 := by
    rw [UInt32.toNat_and]
    exact Nat.lt_succ_of_le Nat.and_le_right
  have hn := h (n &&& 63).toNat hlt
  rwa [UInt32.ofNat_toNat] at hn

/-! ### Digits -/

/-- The characters that the encoder writes. -/
def Base64Digit (c : Char) : Prop := ∃ n : UInt32, c = base64Char (n &&& 63)

theorem base64Value_base64Char (n : UInt32) :
    base64Value (base64Char (n &&& 63)).toUInt8 = some (n &&& 63).toUInt8 := by
  refine @forall_sextet (fun d => base64Value (base64Char d).toUInt8 = some d.toUInt8) ?_ n
  decide +kernel

namespace Base64Digit
variable {c : Char}

theorem all (P : Char → Prop) (hP : ∀ n < 64, P (base64Char (UInt32.ofNat n))) (h : Base64Digit c) : P c := by
  obtain ⟨n, rfl⟩ := h
  exact @forall_sextet (fun d => P (base64Char d)) hP n

theorem utf8 (h : Base64Digit c) : String.utf8EncodeChar c = [c.toUInt8] :=
  h.all (fun c => String.utf8EncodeChar c = [c.toUInt8]) (by decide +kernel)

theorem ne_padding (h : Base64Digit c) : c.toUInt8 ≠ '='.toUInt8 :=
  h.all (fun c => c.toUInt8 ≠ '='.toUInt8) (by decide +kernel)

theorem not_whitespace (h : Base64Digit c) : Text.isWhitespace c = false :=
  h.all (fun c => Text.isWhitespace c = false) (by decide +kernel)

/-- The encoder writes the url alphabet. -/
theorem ne_standard (h : Base64Digit c) : c.toUInt8 ≠ '+'.toUInt8 ∧ c.toUInt8 ≠ '/'.toUInt8 :=
  h.all (fun c => c.toUInt8 ≠ '+'.toUInt8 ∧ c.toUInt8 ≠ '/'.toUInt8) (by decide +kernel)

end Base64Digit

theorem encodeChunks_digits (bs : List UInt8) : ∀ c ∈ encodeChunks bs, Base64Digit c := by
  fun_induction encodeChunks bs with
  | case1 a b c rest n ih =>
    simp only [List.forall_mem_cons]
    exact ⟨⟨_, rfl⟩, ⟨_, rfl⟩, ⟨_, rfl⟩, ⟨_, rfl⟩, ih⟩
  | case2 a b n =>
    simp only [List.forall_mem_cons]
    exact ⟨⟨_, rfl⟩, ⟨_, rfl⟩, ⟨_, rfl⟩, by simp⟩
  | case3 a n =>
    simp only [List.forall_mem_cons]
    exact ⟨⟨_, rfl⟩, ⟨_, rfl⟩, by simp⟩
  | case4 => simp

theorem asBytes_ofList_digits {cs : List Char} (h : ∀ c ∈ cs, Base64Digit c) :
    asBytes (String.ofList cs) = cs.map Char.toUInt8 := by
  rw [asBytes_eq_flatMap, String.toList_ofList]
  induction cs with
  | nil => rfl
  | cons c cs ih =>
    rw [List.forall_mem_cons] at h
    rw [List.flatMap_cons, h.1.utf8, ih h.2]
    rfl

theorem asBytes_encodeBase64url (bs : List UInt8) : asBytes (encodeBase64url bs) = (encodeChunks bs).map Char.toUInt8 :=
  asBytes_ofList_digits (encodeChunks_digits bs)

/-! ### The decoder gives the bytes back -/

/-- The digits of three bytes, put together as the decoder does. -/
theorem sextets_join (a b c : UInt8) :
    let n := a.toUInt32 <<< 16 ||| b.toUInt32 <<< 8 ||| c.toUInt32
    (n >>> 18 &&& 63).toUInt8 <<< 2 ||| (n >>> 12 &&& 63).toUInt8 >>> 4 = a ∧
      ((n >>> 12 &&& 63).toUInt8 &&& 0x0F) <<< 4 ||| (n >>> 6 &&& 63).toUInt8 >>> 2 = b ∧
      ((n >>> 6 &&& 63).toUInt8 &&& 0x03) <<< 6 ||| (n &&& 63).toUInt8 = c := by
  refine ⟨?_, ?_, ?_⟩
  · apply UInt8.toBitVec_inj.1
    ext i hi
    simp
    interval_cases i <;> simp
  · apply UInt8.toBitVec_inj.1
    ext i hi
    simp
    interval_cases i <;> simp
  · apply UInt8.toBitVec_inj.1
    ext i hi
    simp
    interval_cases i <;> simp

/-- A rest of two bytes has zeros for the third. -/
theorem sextets_join_two (a b : UInt8) :
    let n := a.toUInt32 <<< 16 ||| b.toUInt32 <<< 8
    (n >>> 18 &&& 63).toUInt8 <<< 2 ||| (n >>> 12 &&& 63).toUInt8 >>> 4 = a ∧
      ((n >>> 12 &&& 63).toUInt8 &&& 0x0F) <<< 4 ||| (n >>> 6 &&& 63).toUInt8 >>> 2 = b := by
  have h := sextets_join a b 0
  have hzero : UInt8.toUInt32 0 = 0 := rfl
  simp only [hzero, UInt32.or_zero] at h
  exact ⟨h.1, h.2.1⟩

theorem sextets_join_one (a : UInt8) :
    let n := a.toUInt32 <<< 16
    (n >>> 18 &&& 63).toUInt8 <<< 2 ||| (n >>> 12 &&& 63).toUInt8 >>> 4 = a := by
  have h := sextets_join_two a 0
  have hzero : UInt8.toUInt32 0 <<< 8 = 0 := rfl
  simp only [hzero, UInt32.or_zero] at h
  exact h.1

theorem decodeGroups_encodeChunks (bs : List UInt8) : decodeGroups ((encodeChunks bs).map Char.toUInt8) = some bs := by
  fun_induction encodeChunks bs with
  | case1 a b c rest n ih =>
    obtain ⟨ha, hb, hc⟩ := sextets_join a b c
    simp only [List.map_cons, decodeGroups, base64Value_base64Char, ih, Option.bind_eq_bind, Option.bind_some,
      Option.pure_def]
    rw [ha, hb, hc]
  | case2 a b n =>
    obtain ⟨ha, hb⟩ := sextets_join_two a b
    simp only [List.map_cons, List.map_nil, decodeGroups, base64Value_base64Char, Option.bind_eq_bind, Option.bind_some,
      Option.pure_def]
    rw [ha, hb]
  | case3 a n =>
    have ha := sextets_join_one a
    simp only [List.map_cons, List.map_nil, decodeGroups, base64Value_base64Char, Option.bind_eq_bind, Option.bind_some,
      Option.pure_def]
    rw [ha]
  | case4 => rfl

theorem decodeGroups_of_digits {input : List UInt8} (h : ∀ b ∈ input, (base64Value b).isSome = true) :
    ∃ out, decodeGroups input = some out := by
  fun_induction decodeGroups input with
  | case1 a b c d rest ih =>
    simp only [List.forall_mem_cons, Option.isSome_iff_exists] at h
    obtain ⟨⟨x, hx⟩, ⟨y, hy⟩, ⟨z, hz⟩, ⟨w, hw⟩, hrest⟩ := h
    obtain ⟨out, hout⟩ := ih fun b hb => Option.isSome_iff_exists.2 (hrest b hb)
    simp [hx, hy, hz, hw, hout]
  | case2 a b c =>
    simp only [List.forall_mem_cons, Option.isSome_iff_exists] at h
    obtain ⟨⟨x, hx⟩, ⟨y, hy⟩, ⟨z, hz⟩, -⟩ := h
    simp [hx, hy, hz]
  | case3 a b =>
    simp only [List.forall_mem_cons, Option.isSome_iff_exists] at h
    obtain ⟨⟨x, hx⟩, ⟨y, hy⟩, -⟩ := h
    simp [hx, hy]
  | case4 => exact ⟨[], rfl⟩

/-! ### Padding -/

/-- The text without the padding at its end. -/
def unpadded (input : List UInt8) : List UInt8 := (input.reverse.dropWhile (· = '='.toUInt8)).reverse

theorem unpadded_append (input : List UInt8) : ∃ n, input = unpadded input ++ List.replicate n '='.toUInt8 := by
  refine ⟨(input.reverse.takeWhile (· = '='.toUInt8)).length, ?_⟩
  have hsplit := List.takeWhile_append_dropWhile (p := (· = '='.toUInt8)) (l := input.reverse)
  have hall : input.reverse.takeWhile (· = '='.toUInt8) =
      List.replicate (input.reverse.takeWhile (· = '='.toUInt8)).length '='.toUInt8 := by
    rw [List.eq_replicate_iff]
    exact ⟨rfl, fun b hb => by simpa using List.mem_takeWhile_imp hb⟩
  have hrev := congrArg List.reverse hsplit
  rw [List.reverse_append, List.reverse_reverse, hall, List.reverse_replicate] at hrev
  exact hrev.symm

/-- Text without padding stays as it is, with any padding after it. -/
theorem unpadded_replicate {input : List UInt8} (h : ∀ b ∈ input, b ≠ '='.toUInt8) (n : Nat) :
    unpadded (input ++ List.replicate n '='.toUInt8) = input := by
  rw [unpadded, List.reverse_append, List.reverse_replicate, List.dropWhile_append_of_pos (by simp)]
  have hself : input.reverse.dropWhile (· = '='.toUInt8) = input.reverse := by
    rw [List.dropWhile_eq_self_iff]
    intro hlen
    have hmem := List.mem_reverse.1 (List.getElem_mem hlen)
    simpa using h _ hmem
  rw [hself, List.reverse_reverse]

theorem decodeBase64url_eq (input : List UInt8) : decodeBase64url input = decodeGroups (unpadded input) := rfl

theorem decodeBase64url_encodeBase64url (bs : List UInt8) : decodeBase64url (asBytes (encodeBase64url bs)) = some bs := by
  rw [asBytes_encodeBase64url, decodeBase64url_eq]
  have hne : ∀ b ∈ (encodeChunks bs).map Char.toUInt8, b ≠ '='.toUInt8 := by
    intro b hb
    obtain ⟨c, hc, rfl⟩ := List.mem_map.1 hb
    exact (encodeChunks_digits bs c hc).ne_padding
  have hself := unpadded_replicate hne 0
  rw [List.replicate_zero, List.append_nil] at hself
  rw [hself, decodeGroups_encodeChunks]

end Micronuts
