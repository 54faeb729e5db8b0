import Mathlib.Data.BitVec
import Mathlib.Logic.Function.Iterate

/-!
# Cyclic redundancy checks

A register of `w` bits takes one bit at a time, the lowest first: the bit is added to the lowest of the register, the
register is shifted, and what falls out adds the polynomial. Shifting is additive (`shift_xor`) and, when the highest bit
of the polynomial is set, injective (`shift_injective`). So up to `w` bits can be added all at once before they are shifted
through (`feed_eq`), and two inputs that differ only within `w` consecutive bits leave different registers (`feed_burst`).
-/

namespace Crc
variable {w : Nat}

def bit (w : Nat) (b : Bool) : BitVec w := (BitVec.ofBool b).setWidth w

/-- One shift of the register. -/
def shift (poly c : BitVec w) : BitVec w := c >>> 1 ^^^ (if c.getLsbD 0 then poly else 0)

def feed (poly c : BitVec w) (bits : List Bool) : BitVec w := bits.foldl (fun c b => shift poly (c ^^^ bit w b)) c

/-- The bits as a word, the first one lowest. -/
def word (w : Nat) : List Bool → BitVec w
  | [] => 0
  | b :: bits => word w bits <<< 1 ^^^ bit w b

variable {poly : BitVec w}

@[simp] theorem feed_nil (c : BitVec w) : feed poly c [] = c := rfl

@[simp] theorem feed_cons (c : BitVec w) (b : Bool) (bits : List Bool) :
    feed poly c (b :: bits) = feed poly (shift poly (c ^^^ bit w b)) bits := rfl

theorem feed_append (c : BitVec w) (as bs : List Bool) : feed poly c (as ++ bs) = feed poly (feed poly c as) bs :=
  List.foldl_append

theorem xor_left_injective (x : BitVec w) : Function.Injective (· ^^^ x) := by
  intro a b h
  have h : a ^^^ x ^^^ x = b ^^^ x ^^^ x := congrArg (· ^^^ x) h
  simpa [BitVec.xor_assoc] using h

/-! ### Words -/

theorem getLsbD_bit {i : Nat} (b : Bool) (h : i < w) : (bit w b).getLsbD i = (b && decide (i = 0)) := by
  cases i with
  | zero => simp [bit, h]
  | succ i => simp [bit]

theorem getLsbD_word (bits : List Bool) {i : Nat} (h : i < w) : (word w bits).getLsbD i = bits.getD i false := by
  induction bits generalizing i with
  | nil => simp [word]
  | cons b bits ih =>
    rw [word, BitVec.getLsbD_xor, getLsbD_bit b h]
    cases i with
    | zero => simp
    | succ i =>
      have hi : i < w := by omega
      have hbit := ih hi
      rw [List.getD_cons_succ, ← hbit, BitVec.getLsbD_shiftLeft]
      simp [h]

/-- Lists of one length that a word has room for are told apart by their words. -/
theorem word_injective {as bs : List Bool} (hlen : as.length = bs.length) (hle : as.length ≤ w)
    (h : word w as = word w bs) : as = bs := by
  refine List.ext_getElem hlen fun i ha hb => ?_
  have hget := congrArg (fun x : BitVec w => x.getLsbD i) h
  simp only [getLsbD_word _ (show i < w by omega)] at hget
  simpa [ha, hb] using hget

/-! ### Shifts -/

theorem shift_xor (a b : BitVec w) : shift poly (a ^^^ b) = shift poly a ^^^ shift poly b := by
  have hfalls : (if (a ^^^ b).getLsbD 0 then poly else 0) =
      (if a.getLsbD 0 then poly else 0) ^^^ (if b.getLsbD 0 then poly else 0) := by
    rw [BitVec.getLsbD_xor]
    cases a.getLsbD 0 <;> cases b.getLsbD 0 <;> simp
  unfold shift
  rw [hfalls, BitVec.ushiftRight_xor_distrib]
  ac_rfl

/-- A word with room for one more bit comes back when it is moved up and shifted. -/
theorem shift_word {bits : List Bool} (h : bits.length < w) : shift poly (word w bits <<< 1) = word w bits := by
  have hlow : (word w bits <<< 1).getLsbD 0 = false := by simp
  rw [shift, hlow, if_neg Bool.false_ne_true, show (0 : BitVec w) = 0#w from rfl, BitVec.xor_zero]
  refine BitVec.eq_of_getLsbD_eq fun i hi => ?_
  rw [BitVec.getLsbD_ushiftRight, BitVec.getLsbD_shiftLeft, Nat.add_sub_cancel_left]
  by_cases htop : 1 + i < w
  · simp [htop]
  · have hnone : bits.getD i false = false := by
      rw [List.getD_eq_getElem?_getD, List.getElem?_eq_none (by omega)]
      rfl
    rw [getLsbD_word bits hi, hnone]
    simp

/-- Bits that the register has room for can be added before they are shifted through. -/
theorem feed_eq {bits : List Bool} (c : BitVec w) (h : bits.length ≤ w) :
    feed poly c bits = (shift poly)^[bits.length] (c ^^^ word w bits) := by
  induction bits generalizing c with
  | nil => simp [word]
  | cons b bits ih =>
    rw [List.length_cons] at h
    have hsum : c ^^^ word w (b :: bits) = c ^^^ bit w b ^^^ word w bits <<< 1 := by
      rw [word]
      ac_rfl
    have hword : shift poly (word w bits <<< 1) = word w bits := shift_word (by omega)
    rw [feed_cons, ih _ (by omega), List.length_cons, Function.iterate_succ_apply, hsum, shift_xor _ (word w bits <<< 1),
      hword]

/-- The highest bit tells whether the polynomial was added. -/
theorem shift_msb (hpoly : poly.msb = true) (c : BitVec w) : (shift poly c).getLsbD (w - 1) = c.getLsbD 0 := by
  rw [BitVec.msb_eq_getLsbD_last] at hpoly
  rw [shift, BitVec.getLsbD_xor, BitVec.getLsbD_ushiftRight, BitVec.getLsbD_of_ge _ _ (by omega)]
  cases c.getLsbD 0
  · simp
  · simp [hpoly]

theorem shift_injective (hpoly : poly.msb = true) : Function.Injective (shift poly) := by
  intro a b h
  have hlow : a.getLsbD 0 = b.getLsbD 0 := by rw [← shift_msb hpoly a, h, shift_msb hpoly b]
  have hrest : a >>> 1 = b >>> 1 := by
    unfold shift at h
    rw [hlow] at h
    exact xor_left_injective _ h
  refine BitVec.eq_of_getLsbD_eq fun i _ => ?_
  cases i with
  | zero => exact hlow
  | succ i =>
    have hbit := congrArg (fun c : BitVec w => c.getLsbD i) hrest
    simpa [Nat.add_comm 1 i] using hbit

theorem feed_injective (hpoly : poly.msb = true) (bits : List Bool) : Function.Injective (feed poly · bits) := by
  induction bits with
  | nil => exact Function.injective_id
  | cons b bits ih => exact ih.comp ((shift_injective hpoly).comp (xor_left_injective (bit w b)))

/-- A difference within `w` consecutive bits shows in the register. -/
theorem feed_burst (hpoly : poly.msb = true) {c : BitVec w} {before as bs after : List Bool}
    (hlen : as.length = bs.length) (hle : as.length ≤ w)
    (h : feed poly c (before ++ as ++ after) = feed poly c (before ++ bs ++ after)) : as = bs := by
  simp only [feed_append] at h
  have hregister := feed_injective hpoly after h
  have hle' : bs.length ≤ w := hlen ▸ hle
  rw [feed_eq _ hle, feed_eq _ hle', hlen] at hregister
  have hwords := (shift_injective hpoly).iterate _ hregister
  rw [BitVec.xor_comm _ (word w as), BitVec.xor_comm _ (word w bs)] at hwords
  exact word_injective hlen hle (xor_left_injective _ hwords)

/-! ### Changes within a window -/

/-- Lists of one length that agree outside of `n` places in a row. -/
def Within (n : Nat) (as bs : List Bool) : Prop :=
  as.length = bs.length ∧ ∃ k, ∀ i, as[i]? ≠ bs[i]? → k ≤ i ∧ i < k + n

theorem Within.split {n : Nat} {as bs : List Bool} (h : Within n as bs) : ∃ before as' bs' after,
    as = before ++ as' ++ after ∧ bs = before ++ bs' ++ after ∧ as'.length = bs'.length ∧ as'.length ≤ n := by
  obtain ⟨hlen, k, hk⟩ := h
  have hbefore : as.take k = bs.take k := by
    refine List.ext_getElem? fun i => ?_
    rw [List.getElem?_take, List.getElem?_take]
    split
    · by_contra hne
      have := hk i hne
      omega
    · rfl
  have hafter : as.drop (k + n) = bs.drop (k + n) := by
    refine List.ext_getElem? fun i => ?_
    rw [List.getElem?_drop, List.getElem?_drop]
    by_contra hne
    have := hk _ hne
    omega
  have hsplit : ∀ l : List Bool, l = l.take k ++ (l.drop k).take n ++ l.drop (k + n) := by
    intro l
    rw [List.append_assoc, ← List.drop_drop, List.take_append_drop, List.take_append_drop]
  refine ⟨as.take k, (as.drop k).take n, (bs.drop k).take n, as.drop (k + n), hsplit as, ?_, ?_, ?_⟩
  · rw [hbefore, hafter]
    exact hsplit bs
  · simp [hlen]
  · simp

theorem Within.eq_of_feed (hpoly : poly.msb = true) {c : BitVec w} {as bs : List Bool} (h : Within w as bs)
    (hfeed : feed poly c as = feed poly c bs) : as = bs := by
  obtain ⟨before, as', bs', after, rfl, rfl, hlen, hle⟩ := h.split
  rw [feed_burst hpoly hlen hle hfeed]

end Crc
