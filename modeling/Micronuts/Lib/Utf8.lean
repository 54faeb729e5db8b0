import Mathlib.Data.List.Basic

/-!
# Text and its UTF-8 bytes

A scanner that works on the bytes of a text meets the character boundaries where it looks: an ASCII character is one
byte, and every byte of another character is above all of ASCII (`view`).
-/

namespace Utf8

/-- A character of ASCII, which is one byte. -/
def Ascii (c : Char) : Prop := c.toNat < 128

instance (c : Char) : Decidable (Ascii c) := inferInstanceAs (Decidable (c.toNat < 128))

/-- What holds of the first 128 characters holds of all of ASCII. -/
theorem Ascii.all {P : Char → Prop} {c : Char} (hc : Ascii c) (h : ∀ n < 128, P (Char.ofNat n)) : P c := by
  have := h c.toNat hc
  rwa [Char.ofNat_toNat] at this

theorem Ascii.toUInt8_lt {c : Char} (h : Ascii c) : c.toUInt8 < 0x80 :=
  h.all (P := fun c => c.toUInt8 < 0x80) (by decide)

theorem Ascii.toUInt8_inj {c d : Char} (hc : Ascii c) (hd : Ascii d) (h : c.toUInt8 = d.toUInt8) : c = d := by
  have hnat : ∀ c, Ascii c → c.toUInt8.toNat = c.toNat := fun c h =>
    h.all (P := fun c => c.toUInt8.toNat = c.toNat) (by decide)
  have := congrArg UInt8.toNat h
  rw [hnat c hc, hnat d hd] at this
  rw [← Char.ofNat_toNat c, this, Char.ofNat_toNat]

theorem Ascii.encodeChar {c : Char} (h : Ascii c) : String.utf8EncodeChar c = [c.toUInt8] :=
  h.all (P := fun c => String.utf8EncodeChar c = [c.toUInt8]) (by decide +kernel)

/-- The bytes of a character outside of ASCII. -/
theorem encodeChar_high {c : Char} (h : ¬ Ascii c) : ∀ b ∈ String.utf8EncodeChar c, 0x80 ≤ b := by
  have hbyte : ∀ n, 128 ≤ n → n < 256 → (0x80 : UInt8) ≤ UInt8.ofNat n := by
    intro n hle hlt
    rw [UInt8.le_iff_toNat_le, UInt8.toNat_ofNat_of_lt' hlt]
    exact hle
  have hv : ¬ c.val.toNat ≤ 0x7f := fun hle => h (Nat.lt_succ_of_le hle)
  intro b hb
  unfold String.utf8EncodeChar at hb
  dsimp only at hb
  rw [if_neg hv] at hb
  split at hb
  · simp only [List.mem_cons, List.not_mem_nil, or_false] at hb
    rcases hb with rfl | rfl
    · exact hbyte _ (by omega) (by omega)
    · exact hbyte _ (by omega) (by omega)
  · split at hb
    · simp only [List.mem_cons, List.not_mem_nil, or_false] at hb
      rcases hb with rfl | rfl | rfl
      · exact hbyte _ (by omega) (by omega)
      · exact hbyte _ (by omega) (by omega)
      · exact hbyte _ (by omega) (by omega)
    · simp only [List.mem_cons, List.not_mem_nil, or_false] at hb
      rcases hb with rfl | rfl | rfl | rfl
      · exact hbyte _ (by omega) (by omega)
      · exact hbyte _ (by omega) (by omega)
      · exact hbyte _ (by omega) (by omega)
      · exact hbyte _ (by omega) (by omega)

def encode (cs : List Char) : List UInt8 := cs.flatMap String.utf8EncodeChar

@[simp] theorem encode_nil : encode [] = [] := rfl

@[simp] theorem encode_append (cs ds : List Char) : encode (cs ++ ds) = encode cs ++ encode ds := List.flatMap_append

theorem encode_cons (c : Char) (cs : List Char) : encode (c :: cs) = String.utf8EncodeChar c ++ encode cs := rfl

theorem encode_cons_ascii {c : Char} (h : Ascii c) (cs : List Char) : encode (c :: cs) = c.toUInt8 :: encode cs := by
  rw [encode_cons, h.encodeChar]
  rfl

theorem length_le_encode (cs : List Char) : cs.length ≤ (encode cs).length := by
  induction cs with
  | nil => exact Nat.zero_le _
  | cons c cs ih =>
    have hpos : 0 < (String.utf8EncodeChar c).length := List.length_pos_iff.2 String.utf8EncodeChar_ne_nil
    rw [encode_cons, List.length_append, List.length_cons]
    omega

/-- The bytes of a text, seen from the front. -/
inductive View : List Char → List UInt8 → Prop
  | nil : View [] []
  | ascii {c : Char} (cs : List Char) : Ascii c → View (c :: cs) (c.toUInt8 :: encode cs)
  | high {c : Char} {b : UInt8} (cs : List Char) (bs : List UInt8) : ¬ Ascii c → String.utf8EncodeChar c = b :: bs →
    (∀ b' ∈ b :: bs, 0x80 ≤ b') → View (c :: cs) (b :: (bs ++ encode cs))

theorem view (cs : List Char) : View cs (encode cs) := by
  cases cs with
  | nil => exact .nil
  | cons c cs =>
    by_cases hc : Ascii c
    · rw [encode_cons_ascii hc]
      exact .ascii cs hc
    · obtain ⟨b, bs, hbs⟩ := List.exists_cons_of_ne_nil (String.utf8EncodeChar_ne_nil (c := c))
      have hhigh := encodeChar_high hc
      rw [hbs] at hhigh
      rw [encode_cons, hbs, List.cons_append]
      exact .high cs bs hc hbs hhigh

/-- Skipping ASCII characters of a class, in the bytes and in the text. -/
theorem dropWhile_encode {p : UInt8 → Bool} {q : Char → Bool} (hhigh : ∀ b, 0x80 ≤ b → p b = false)
    (hhigh' : ∀ c, ¬ Ascii c → q c = false) (hascii : ∀ c, Ascii c → p c.toUInt8 = q c) (cs : List Char) :
    (encode cs).dropWhile p = encode (cs.dropWhile q) := by
  induction cs with
  | nil => rfl
  | cons c cs ih =>
    by_cases hc : Ascii c
    · rw [encode_cons_ascii hc, List.dropWhile_cons, List.dropWhile_cons, hascii c hc, ih]
      split
      · rfl
      · rw [encode_cons_ascii hc]
    · have hbytes := encodeChar_high hc
      obtain ⟨b, bs, hbs⟩ := List.exists_cons_of_ne_nil (String.utf8EncodeChar_ne_nil (c := c))
      rw [hbs] at hbytes
      rw [List.dropWhile_cons, hhigh' c hc, encode_cons, hbs, List.cons_append, List.dropWhile_cons,
        hhigh b (hbytes b (List.mem_cons_self ..))]
      simp [encode_cons, hbs]

end Utf8
