import Micronuts.Lib.Coins
import Micronuts.Nuts.Nut00

/-!
# Denominations of the wallet (`cashu-core-lite`: `nuts/nut00.rs`; `micronuts-wallet-core`: `engine.rs`)

`decomposeAmount` gives the binary digits of an amount, and its loops come to their ends (`Doubles`, `Takes`: the source's
loops, with nothing that counts their rounds). `decomposeCapped` gives coins up to a cap, in rounds that each take one coin
off; with the cap zero no round takes anything off, and the loop does not end.
-/

namespace Micronuts
open Coins

/-! ### The denominations of an amount -/

section decompose

/-- `while denomination <= remaining / 2`: where the doubling ends, with no bit shifted out. -/
inductive Doubles (remaining : UInt64) : UInt64 → UInt64 → Prop
  | stop {denomination : UInt64} : ¬ denomination ≤ remaining / 2 → Doubles remaining denomination denomination
  | double {denomination highest : UInt64} : denomination ≤ remaining / 2 → 2 * denomination.toNat < 2 ^ 64 →
      Doubles remaining (denomination <<< 1) highest → Doubles remaining denomination highest

/-- `while denomination > 0`: the coins the halving takes, down to a denomination of zero. -/
inductive Takes : UInt64 → UInt64 → List UInt64 → Prop
  | stop {remaining : UInt64} : Takes 0 remaining []
  | take {denomination remaining : UInt64} {coins : List UInt64} : denomination ≠ 0 → denomination ≤ remaining →
      Takes (denomination >>> 1) (remaining - denomination) coins → Takes denomination remaining (denomination :: coins)
  | pass {denomination remaining : UInt64} {coins : List UInt64} : denomination ≠ 0 → ¬ denomination ≤ remaining →
      Takes (denomination >>> 1) remaining coins → Takes denomination remaining coins

theorem takeDenominations_zero (fuel : Nat) (remaining : UInt64) : takeDenominations fuel 0 remaining = [] := by
  cases fuel with
  | zero => rfl
  | succ fuel => rw [takeDenominations, if_pos rfl]

theorem toNat_shiftRight_one (n : UInt64) : (n >>> 1).toNat = n.toNat / 2 := by
  simp [UInt64.toNat_shiftRight, Nat.shiftRight_eq_div_pow]

theorem takeDenominations_binary {k fuel : Nat} {denomination remaining : UInt64} (hden : denomination.toNat = 2 ^ k)
    (hrem : remaining.toNat < 2 ^ (k + 1)) (hfuel : k < fuel) :
    Binary remaining.toNat ((takeDenominations fuel denomination remaining).map UInt64.toNat) ∧
      ∀ d ∈ (takeDenominations fuel denomination remaining).map UInt64.toNat, d ≤ 2 ^ k := by
  have hrest : ∀ r : UInt64, r.toNat < 2 ^ k →
      Binary r.toNat ((takeDenominations (fuel - 1) (denomination >>> 1) r).map UInt64.toNat) ∧
        ∀ d ∈ (takeDenominations (fuel - 1) (denomination >>> 1) r).map UInt64.toNat, d < 2 ^ k := by
    intro r hr
    have hhalf := toNat_shiftRight_one denomination
    rcases k with - | k
    · have hzero : denomination >>> 1 = 0 := by
        rw [← UInt64.toNat_inj, hhalf, hden]
        rfl
      have hr0 : r.toNat = 0 := by omega
      rw [hzero, takeDenominations_zero, hr0]
      exact ⟨.nil, by simp⟩
    · have hden' : (denomination >>> 1).toNat = 2 ^ k := by
        rw [hhalf, hden, Nat.pow_succ]
        omega
      obtain ⟨hbinary, hle⟩ := @takeDenominations_binary k (fuel - 1) _ _ hden' hr (by omega)
      refine ⟨hbinary, fun d hd => (hle d hd).trans_lt ?_⟩
      exact Nat.pow_lt_pow_right (by omega) (by omega)
  obtain ⟨fuel, rfl⟩ : ∃ n, fuel = n + 1 := ⟨fuel - 1, by omega⟩
  rw [Nat.add_sub_cancel] at hrest
  have hne : denomination ≠ 0 := by
    rintro rfl
    exact absurd hden (Nat.two_pow_pos k).ne
  rw [takeDenominations, if_neg hne]
  rw [Nat.pow_succ] at hrem
  by_cases hle : denomination ≤ remaining
  · have hnat := UInt64.le_iff_toNat_le.1 hle
    have hsub := UInt64.toNat_sub_of_le _ _ hle
    obtain ⟨hbinary, hlt⟩ := hrest (remaining - denomination) (by omega)
    rw [if_pos hle, List.map_cons, hden]
    have hsum : remaining.toNat = 2 ^ k + (remaining - denomination).toNat := by omega
    rw [hsum]
    exact ⟨hbinary.cons hlt, List.forall_mem_cons.2 ⟨Nat.le_refl _, fun d hd => (hlt d hd).le⟩⟩
  · have hnat : remaining.toNat < denomination.toNat := by
      rw [UInt64.le_iff_toNat_le] at hle
      omega
    obtain ⟨hbinary, hlt⟩ := hrest remaining (by omega)
    rw [if_neg hle]
    exact ⟨hbinary, fun d hd => (hlt d hd).le⟩

theorem takeDenominations_takes {fuel : Nat} {denomination remaining : UInt64} (hfuel : denomination.toNat < 2 ^ fuel) :
    Takes denomination remaining (takeDenominations fuel denomination remaining) := by
  induction fuel generalizing denomination remaining with
  | zero =>
    obtain rfl : denomination = 0 := by
      rw [← UInt64.toNat_inj, UInt64.toNat_zero]
      omega
    exact .stop
  | succ fuel ih =>
    have hhalf : (denomination >>> 1).toNat < 2 ^ fuel := by
      rw [toNat_shiftRight_one]
      rw [Nat.pow_succ] at hfuel
      omega
    rw [takeDenominations]
    split_ifs with h0 hle
    · rw [h0]
      exact .stop
    · exact .take h0 hle (ih hhalf)
    · exact .pass h0 hle (ih hhalf)

/-- The highest power of two that fits. -/
theorem highestDenomination_spec {remaining : UInt64} {fuel j : Nat} {denomination : UInt64}
    (hden : denomination.toNat = 2 ^ j) (hle : denomination ≤ remaining) (hfuel : 64 ≤ j + fuel) :
    Doubles remaining denomination (highestDenomination remaining fuel denomination) ∧
      ∃ k < 64, (highestDenomination remaining fuel denomination).toNat = 2 ^ k ∧ remaining.toNat < 2 ^ (k + 1) := by
  have hlt := remaining.toNat_lt
  have hnat := UInt64.le_iff_toNat_le.1 hle
  have hj : j < 64 := by
    rw [hden] at hnat
    exact (Nat.pow_lt_pow_iff_right (by omega)).1 (hnat.trans_lt hlt)
  induction fuel generalizing j denomination with
  | zero => omega
  | succ fuel ih =>
    rw [highestDenomination]
    have hhalf : denomination ≤ remaining / 2 ↔ 2 ^ (j + 1) ≤ remaining.toNat := by
      rw [UInt64.le_iff_toNat_le, UInt64.toNat_div, hden, Nat.pow_succ]
      show 2 ^ j ≤ remaining.toNat / 2 ↔ _
      omega
    by_cases hmore : denomination ≤ remaining / 2
    · rw [if_pos hmore]
      have hnext := hhalf.1 hmore
      have hfits : 2 ^ j * 2 < 2 ^ 64 := by
        rw [← Nat.pow_succ]
        omega
      have hshift : (denomination <<< 1).toNat = 2 ^ (j + 1) := by
        simp only [UInt64.toNat_shiftLeft, UInt64.toNat_one, Nat.one_mod, Nat.shiftLeft_eq, hden]
        rw [Nat.pow_one, Nat.mod_eq_of_lt hfits, Nat.pow_succ]
      have hle' : denomination <<< 1 ≤ remaining := by
        rw [UInt64.le_iff_toNat_le, hshift]
        exact hnext
      have hj' : j + 1 < 64 := (Nat.pow_lt_pow_iff_right (by omega)).1 (hnext.trans_lt hlt)
      obtain ⟨hdoubles, hhighest⟩ := ih hshift hle' (by omega) (by rw [hshift]; exact hnext) hj'
      exact ⟨.double hmore (by rw [hden]; omega) hdoubles, hhighest⟩
    · rw [if_neg hmore]
      exact ⟨.stop hmore, j, hj, hden, by rw [hhalf] at hmore; omega⟩

theorem one_le_of_ne_zero {amount : UInt64} (h : amount ≠ 0) : 1 ≤ amount := by
  have : amount.toNat ≠ 0 := fun h0 => h (UInt64.toNat_inj.1 h0)
  rw [UInt64.le_iff_toNat_le, UInt64.toNat_one]
  omega

theorem decomposeAmount_binary (amount : UInt64) : Binary amount.toNat ((decomposeAmount amount).map UInt64.toNat) := by
  rw [decomposeAmount]
  split_ifs with h0
  · rw [h0]
    exact .nil
  · obtain ⟨-, k, hk, hhighest, hlt⟩ := @highestDenomination_spec amount 64 0 1 rfl (one_le_of_ne_zero h0) (by omega)
    exact (takeDenominations_binary hhighest hlt hk).1

/-- The loops of the source come to the coins. -/
theorem decomposeAmount_loops {amount : UInt64} (h : amount ≠ 0) :
    ∃ highest, Doubles amount 1 highest ∧ Takes highest amount (decomposeAmount amount) := by
  obtain ⟨hdoubles, -⟩ := @highestDenomination_spec amount 64 0 1 rfl (one_le_of_ne_zero h) (by omega)
  refine ⟨_, hdoubles, ?_⟩
  rw [decomposeAmount, if_neg h]
  exact takeDenominations_takes (UInt64.toNat_lt _)

/-- The coins of an amount are its binary expansion, which no other coins are. -/
theorem decomposeAmount_expansion (amount : UInt64) :
    (amount = 0 ∨ ∃ highest, Doubles amount 1 highest ∧ Takes highest amount (decomposeAmount amount)) ∧
      Binary amount.toNat ((decomposeAmount amount).map UInt64.toNat) ∧
      (decomposeAmount amount).length = amount.toNat.bitIndices.length ∧
      ∀ coins : List UInt64, Binary amount.toNat (coins.map UInt64.toNat) ↔ coins = decomposeAmount amount := by
  have hbinary := decomposeAmount_binary amount
  refine ⟨?_, hbinary, ?_, fun coins => ⟨fun hcoins => ?_, fun hcoins => by rwa [hcoins]⟩⟩
  · by_cases h0 : amount = 0
    · exact .inl h0
    · exact .inr (decomposeAmount_loops h0)
  · simpa only [List.length_map] using hbinary.length_eq
  · exact List.map_injective_iff.2 (fun _ _ => UInt64.toNat_inj.1) (hcoins.unique hbinary)

theorem decomposeAmount_eq_nil {amount : UInt64} : decomposeAmount amount = [] ↔ amount = 0 := by
  constructor
  · intro h
    have hsum := (decomposeAmount_binary amount).sum
    rw [h] at hsum
    exact UInt64.toNat_inj.1 hsum.symm
  · rintro rfl
    rfl

end decompose

/-! ### The lowest bit -/

/-- `u64::isolate_lowest_one`. -/
def isolateLowestOne (n : UInt64) : UInt64 := n &&& (0 - n)

theorem isolateLowestOne_spec {n : UInt64} (h : n ≠ 0) : ∃ m < 64, (isolateLowestOne n).toNat = 2 ^ m ∧ 2 ^ m ∣ n.toNat := by
  obtain ⟨x⟩ := n
  have hx : x ≠ 0 := fun hx => h (by rw [hx]; rfl)
  have hbit : ∃ i, x.getLsbD i = true := by
    by_contra hnone
    simp only [not_exists, Bool.not_eq_true] at hnone
    exact hx (BitVec.eq_of_getLsbD_eq fun i _ => by rw [hnone]; simp)
  -- the lowest bit that is set
  obtain ⟨m, hm, hlow⟩ : ∃ m, x.getLsbD m = true ∧ ∀ j < m, x.getLsbD j = false :=
    ⟨Nat.find hbit, Nat.find_spec hbit, fun j hj => by simpa using Nat.find_min hbit hj⟩
  have hm64 : m < 64 := BitVec.lt_of_getLsbD hm
  have hand : x &&& -x = BitVec.twoPow 64 m := by
    refine BitVec.eq_of_getLsbD_eq fun i hi => ?_
    rw [BitVec.getLsbD_and, BitVec.getLsbD_neg, BitVec.getLsbD_twoPow]
    rcases lt_trichotomy i m with hlt | rfl | hgt
    · simp [hlow i hlt, hlt.ne']
    · have hnone : ¬ ∃ j < i, x.getLsbD j = true := by
        rintro ⟨j, hj, hset⟩
        rw [hlow j hj] at hset
        cases hset
      simp [hm, hi, hnone]
    · have hsome : ∃ j < i, x.getLsbD j = true := ⟨m, hgt, hm⟩
      simp [hi, hsome, hgt.ne]
  refine ⟨m, hm64, ?_, ?_⟩
  · show (x &&& (0#64 - x)).toNat = 2 ^ m
    rw [BitVec.zero_sub, hand, BitVec.toNat_twoPow, Nat.mod_eq_of_lt (Nat.pow_lt_pow_right (by omega) hm64)]
  · refine Nat.dvd_of_mod_eq_zero (Nat.eq_of_testBit_eq fun i => ?_)
    rw [Nat.testBit_mod_two_pow, Nat.zero_testBit]
    by_cases hi : i < m
    · have := hlow i hi
      rw [BitVec.getLsbD] at this
      simpa [hi] using this
    · simp [hi]

/-- The lowest bit is at most the smallest denomination. -/
theorem isolateLowestOne_le {n d : UInt64} (hd : d ∈ decomposeAmount n) : isolateLowestOne n ≤ d := by
  have hn : n ≠ 0 := by
    rintro rfl
    cases hd
  obtain ⟨m, -, hlow, hdvd⟩ := isolateLowestOne_spec hn
  rw [UInt64.le_iff_toNat_le, hlow]
  exact (decomposeAmount_binary n).le_of_dvd hdvd (List.mem_map_of_mem hd)

/-! ### Coins up to a cap -/

/-- `u64::next_power_of_two`: the smallest power of two that is not below. -/
def nextPowerOfTwo (n : UInt64) : UInt64 :=
  if n ≤ 1 then 1 else UInt64.ofNat (2 ^ (Nat.log2 (n.toNat - 1) + 1))

/-- The coin of a round. -/
def cappedCoin (cap remaining : UInt64) : UInt64 :=
  let coin := min cap remaining
  if coin &&& (coin - 1) ≠ 0 then nextPowerOfTwo coin >>> 1 else coin

/-- The loop, in at most so many rounds. -/
def cappedRounds (cap : UInt64) (rounds : Nat) (remaining : UInt64) : Option (List UInt64) :=
  if remaining = 0 then some []
  else match rounds with
    | 0 => none
    | rounds + 1 =>
      let coin := cappedCoin cap remaining
      (cappedRounds cap rounds (remaining - coin)).map (coin :: ·)

/-- A round that takes something off leaves less to do, so the total bounds the rounds; `none` when the loop does not end. -/
def decomposeCapped (total cap : UInt64) : Option (List UInt64) := cappedRounds cap total.toNat total

example : decomposeCapped 11 4 = some [4, 4, 2, 1] := by decide +kernel

/-- The loop itself, with nothing that counts its rounds. `next_power_of_two` is in range up to 2^63. -/
inductive Caps (cap : UInt64) : UInt64 → List UInt64 → Prop
  | stop : Caps cap 0 []
  | round {remaining : UInt64} {coins : List UInt64} : remaining ≠ 0 → (min cap remaining).toNat ≤ 2 ^ 63 →
      cappedCoin cap remaining ≤ remaining → Caps cap (remaining - cappedCoin cap remaining) coins →
      Caps cap remaining (cappedCoin cap remaining :: coins)

structure CappedCoins (cap total : UInt64) (coins : List UInt64) : Prop where
  loop : Caps cap total coins
  sum : (coins.map UInt64.toNat).sum = total.toNat
  le_cap : ∀ c ∈ coins, c ≤ cap
  powers : ∀ c ∈ coins, ∃ k, c.toNat = 2 ^ k
  descending : coins.Pairwise (· ≥ ·)

section capped
variable {cap remaining total : UInt64} {m rounds : Nat}

theorem cap_le (hcap : cap.toNat = 2 ^ m) : cap.toNat ≤ 2 ^ 63 := by
  have hlt := cap.toNat_lt
  rw [hcap] at hlt ⊢
  have := (Nat.pow_lt_pow_iff_right (by omega)).1 hlt
  exact Nat.pow_le_pow_right (by omega) (by omega)

theorem pos_of_ne_zero (h : remaining ≠ 0) : 0 < remaining.toNat := by
  have : remaining.toNat ≠ 0 := fun h0 => h (UInt64.toNat_inj.1 h0)
  omega

/-- The coin of a round is the largest power of two within the cap and what remains. -/
theorem cappedCoin_power (hcap : cap.toNat = 2 ^ m) (h : remaining ≠ 0) :
    ∃ j ≤ m, (cappedCoin cap remaining).toNat = 2 ^ j ∧ 2 ^ j ≤ remaining.toNat ∧
      (j = m ∨ remaining.toNat < 2 ^ (j + 1)) := by
  have hcap63 := cap_le hcap
  have hpos := pos_of_ne_zero h
  obtain ⟨c, hc⟩ : ∃ c, min cap remaining = c := ⟨_, rfl⟩
  have hmin : c.toNat = min cap.toNat remaining.toNat := by
    rw [← hc, UInt64.toNat_min]
  have hcpos : 0 < c.toNat := by
    have := Nat.two_pow_pos m
    omega
  have hand : (c &&& (c - 1)).toNat = c.toNat &&& (c.toNat - 1) := by
    rw [UInt64.toNat_and, UInt64.toNat_sub_of_le _ _ (by rw [UInt64.le_iff_toNat_le, UInt64.toNat_one]; omega),
      UInt64.toNat_one]
  have hpower : c &&& (c - 1) = 0 ↔ ∃ k, c.toNat = 2 ^ k := by
    rw [← UInt64.toNat_inj, hand, UInt64.toNat_zero]
    exact Nat.and_sub_one_eq_zero_iff_isPowerOfTwo (by omega)
  -- a power of two below the cap is all that remains
  have hbelow : ∀ k, 2 ^ k ≤ c.toNat → c.toNat < 2 ^ (k + 1) →
      k ≤ m ∧ 2 ^ k ≤ remaining.toNat ∧ (k = m ∨ remaining.toNat < 2 ^ (k + 1)) := by
    intro k hle hlt
    have hk : k ≤ m := (Nat.pow_le_pow_iff_right (by omega : 1 < 2)).1 (by omega)
    refine ⟨hk, by omega, ?_⟩
    by_cases hcapped : cap.toNat ≤ remaining.toNat
    · have : m < k + 1 := (Nat.pow_lt_pow_iff_right (by omega : 1 < 2)).1 (by omega)
      exact .inl (by omega)
    · exact .inr (by omega)
  rw [cappedCoin, hc]
  by_cases hpow : c &&& (c - 1) = 0
  · obtain ⟨k, hk⟩ := hpower.1 hpow
    obtain ⟨hkm, hle, hlt⟩ := hbelow k (by omega) (by rw [Nat.pow_succ]; omega)
    exact ⟨k, hkm, by rw [if_neg (not_not.2 hpow), hk], hle, hlt⟩
  · -- three at least, so the next power of two is halved to one below
    have hnot : ∀ k, c.toNat ≠ 2 ^ k := fun k hk => hpow (hpower.2 ⟨k, hk⟩)
    have hc1 : ¬ c ≤ 1 := by
      rw [UInt64.le_iff_toNat_le, UInt64.toNat_one]
      have := hnot 0
      omega
    have hne : c.toNat - 1 ≠ 0 := by
      rw [UInt64.le_iff_toNat_le, UInt64.toNat_one] at hc1
      omega
    have hlog := Nat.log2_self_le hne
    have hlog' := (Nat.log2_lt hne).1 (Nat.lt_succ_self _)
    have hlt63 : (c.toNat - 1).log2 < 63 := (Nat.log2_lt hne).2 (by omega)
    have hfits : 2 ^ ((c.toNat - 1).log2 + 1) < 2 ^ 64 := Nat.pow_lt_pow_right (by omega) (by omega)
    have hcoin : (nextPowerOfTwo c >>> 1).toNat = 2 ^ (c.toNat - 1).log2 := by
      rw [toNat_shiftRight_one, nextPowerOfTwo, if_neg hc1, UInt64.toNat_ofNat_of_lt' hfits, Nat.pow_succ]
      omega
    have hnext := hnot ((c.toNat - 1).log2 + 1)
    obtain ⟨hkm, hle, hlt⟩ := hbelow (c.toNat - 1).log2 (by omega) (by omega)
    exact ⟨_, hkm, by rw [if_pos hpow, hcoin], hle, hlt⟩

/-- The coin is never zero, unless the cap is. -/
theorem cappedCoin_spec (hcap : cap.toNat = 2 ^ m) (h : remaining ≠ 0) :
    0 < (cappedCoin cap remaining).toNat ∧ cappedCoin cap remaining ≤ cap ∧ cappedCoin cap remaining ≤ remaining := by
  obtain ⟨j, hj, hcoin, hle, -⟩ := cappedCoin_power hcap h
  simp only [UInt64.le_iff_toNat_le, hcoin, hcap]
  exact ⟨Nat.two_pow_pos j, Nat.pow_le_pow_right (by omega) hj, hle⟩

/-- Less that remains has no larger coin. -/
theorem cappedCoin_le {remaining' : UInt64} (hcap : cap.toNat = 2 ^ m) (h' : remaining' ≠ 0) (hle : remaining' ≤ remaining) :
    cappedCoin cap remaining' ≤ cappedCoin cap remaining := by
  rw [UInt64.le_iff_toNat_le] at hle
  have h : remaining ≠ 0 := by
    rintro rfl
    have := pos_of_ne_zero h'
    rw [UInt64.toNat_zero] at hle
    omega
  obtain ⟨j, -, hcoin, -, hlast⟩ := cappedCoin_power hcap h
  obtain ⟨j', hj', hcoin', hfits', -⟩ := cappedCoin_power hcap h'
  rw [UInt64.le_iff_toNat_le, hcoin, hcoin']
  refine Nat.pow_le_pow_right (by omega) ?_
  rcases hlast with rfl | hlast
  · exact hj'
  · exact Nat.le_of_lt_succ ((Nat.pow_lt_pow_iff_right (by omega : 1 < 2)).1 (by omega))

/-- Under a cap that is a power of two the loop ends, with coins that make up the total. -/
theorem cappedRounds_spec (hcap : cap.toNat = 2 ^ m) (hrounds : remaining.toNat ≤ rounds) :
    ∃ coins, cappedRounds cap rounds remaining = some coins ∧ CappedCoins cap remaining coins ∧
      ∀ c ∈ coins, c ≤ cappedCoin cap remaining := by
  have hnone : ∀ rounds, cappedRounds cap rounds 0 = some [] := by
    rintro (- | rounds)
    · rw [cappedRounds, if_pos rfl]
    · rw [cappedRounds, if_pos rfl]
  have hempty : CappedCoins cap 0 [] := ⟨.stop, rfl, by simp, by simp, .nil⟩
  induction rounds generalizing remaining with
  | zero =>
    obtain rfl : remaining = 0 := UInt64.toNat_inj.1 (by rw [UInt64.toNat_zero]; omega)
    exact ⟨[], hnone _, hempty, by simp⟩
  | succ rounds ih =>
    by_cases h0 : remaining = 0
    · subst h0
      exact ⟨[], hnone _, hempty, by simp⟩
    · obtain ⟨hpos, hle, hfits⟩ := cappedCoin_spec hcap h0
      obtain ⟨j, -, hcoin, -⟩ := cappedCoin_power hcap h0
      have hsub := UInt64.toNat_sub_of_le _ _ hfits
      have hnat := UInt64.le_iff_toNat_le.1 hfits
      obtain ⟨coins, hcoins, hcapped, hbelow⟩ := @ih (remaining - cappedCoin cap remaining) (by omega)
      have hlater : ∀ c ∈ coins, c ≤ cappedCoin cap remaining := by
        intro c hc
        have hmore : remaining - cappedCoin cap remaining ≠ 0 := by
          intro hzero
          rw [hzero, hnone] at hcoins
          cases hcoins
          cases hc
        exact UInt64.le_trans (hbelow c hc) (cappedCoin_le hcap hmore (by rw [UInt64.le_iff_toNat_le]; omega))
      refine ⟨cappedCoin cap remaining :: coins, ?_, ?_, List.forall_mem_cons.2 ⟨UInt64.le_refl _, hlater⟩⟩
      · rw [cappedRounds, if_neg h0]
        simp only [hcoins, Option.map_some]
      · constructor
        · refine .round h0 ?_ hfits hcapped.loop
          have := cap_le hcap
          rw [UInt64.toNat_min]
          omega
        · rw [List.map_cons, List.sum_cons, hcapped.sum]
          omega
        · exact List.forall_mem_cons.2 ⟨hle, hcapped.le_cap⟩
        · exact List.forall_mem_cons.2 ⟨⟨j, hcoin⟩, hcapped.powers⟩
        · exact List.pairwise_cons.2 ⟨hlater, hcapped.descending⟩

theorem decomposeCapped_spec (hcap : cap.toNat = 2 ^ m) :
    ∃ coins, decomposeCapped total cap = some coins ∧ CappedCoins cap total coins := by
  obtain ⟨coins, hcoins, hcapped, -⟩ := @cappedRounds_spec cap total m _ hcap (Nat.le_refl _)
  exact ⟨coins, hcoins, hcapped⟩

/-- With the cap zero no number of rounds is enough. -/
theorem cappedRounds_zero (h : remaining ≠ 0) : cappedRounds 0 rounds remaining = none := by
  induction rounds with
  | zero => rw [cappedRounds, if_neg h]
  | succ rounds ih =>
    have hcoin : cappedCoin 0 remaining = 0 := by
      have hmin : min 0 remaining = 0 := by
        rw [← UInt64.toNat_inj, UInt64.toNat_min, UInt64.toNat_zero, Nat.zero_min]
      rw [cappedCoin, hmin]
      rfl
    rw [cappedRounds, if_neg h]
    simp only [hcoin, UInt64.sub_zero, ih, Option.map_none]

end capped

end Micronuts
