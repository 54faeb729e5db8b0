import Micronuts.Wallet.Selection

/-!
# The search for an exact sum (`cashu-core-lite`: `persistent.rs`)

What `find_exact` finds is exact. A coin equal to the one tried last is passed over because it leaves less to choose from,
and a branch is cut when all that is left cannot reach the rest of the sum, so no solution is lost that way; only the cap
loses some. Past the cap no call goes deeper, and each loop that is still open counts its own coins at most once.
-/

namespace Micronuts

section
variable [Crypto]

/-! ### What the search counts -/

/-- The nodes that `find_exact` expands. -/
def searchNodes (proofs : List Proof) (amount : UInt64) : Nat :=
  if suffixSum (largestFirst proofs) < amount then 0 else (dfs (largestFirst proofs) none amount 0).2

/-- How deep the calls go that this loop of `dfs` makes. -/
def callDepth : List Proof → Option UInt64 → UInt64 → Nat → Nat
  | [], _, _, _ => 0
  | p :: rest, last, remaining, nodes =>
    if last = some p.amount then callDepth rest last remaining nodes
    else if remaining < p.amount then callDepth rest (some p.amount) remaining nodes
    else
      let nodes := nodes + 1
      let left := remaining - p.amount
      if left = 0 then 1
      else if nodeCap ≤ nodes ∨ suffixSum rest < left then max 1 (callDepth rest (some p.amount) remaining nodes)
      else max (callDepth rest none left nodes + 1)
        (match dfs rest none left nodes with
          | (some _, _) => 0
          | (none, nodes) => callDepth rest (some p.amount) remaining nodes)

/-- The number of calls of `dfs` that are open at once, with the first. -/
def recursionDepth (proofs : List Proof) (amount : UInt64) : Nat :=
  if suffixSum (largestFirst proofs) < amount then 1 else callDepth (largestFirst proofs) none amount 0 + 1

/-! ### The steps of the search -/

/-- A loop of `dfs`: what is left to choose from, the coin tried last, what remains, the nodes before, the result with the
nodes after, and the depth of its calls. -/
inductive Search : List Proof → Option UInt64 → UInt64 → Nat → Option (List Proof) × Nat → Nat → Prop
  | done {last remaining nodes} : Search [] last remaining nodes (none, nodes) 0
  | same {p rest remaining nodes res depth} (next : Search rest (some p.amount) remaining nodes res depth) :
      Search (p :: rest) (some p.amount) remaining nodes res depth
  | large {p rest last remaining nodes res depth} (large : remaining < p.amount)
      (next : Search rest (some p.amount) remaining nodes res depth) : Search (p :: rest) last remaining nodes res depth
  | hit {p rest last remaining nodes} (coin : ¬ remaining < p.amount) (left : remaining - p.amount = 0) :
      Search (p :: rest) last remaining nodes (some [p], nodes + 1) 1
  | cut {p rest last remaining nodes res depth} (coin : ¬ remaining < p.amount) (left : remaining - p.amount ≠ 0)
      (stop : nodeCap ≤ nodes + 1 ∨ suffixSum rest < remaining - p.amount)
      (next : Search rest (some p.amount) remaining (nodes + 1) res depth) :
      Search (p :: rest) last remaining nodes res (max 1 depth)
  | found {p rest last remaining nodes nodes' chosen depth} (coin : ¬ remaining < p.amount)
      (left : remaining - p.amount ≠ 0) (go : nodes + 1 < nodeCap)
      (call : Search rest none (remaining - p.amount) (nodes + 1) (some chosen, nodes') depth) :
      Search (p :: rest) last remaining nodes (some (p :: chosen), nodes') (depth + 1)
  | missed {p rest last remaining nodes nodes' res depth depth'} (coin : ¬ remaining < p.amount)
      (left : remaining - p.amount ≠ 0) (go : nodes + 1 < nodeCap)
      (call : Search rest none (remaining - p.amount) (nodes + 1) (none, nodes') depth)
      (next : Search rest (some p.amount) remaining nodes' res depth') :
      Search (p :: rest) last remaining nodes res (max (depth + 1) depth')

theorem search_dfs (l : List Proof) : ∀ (last : Option UInt64) (remaining : UInt64) (nodes : Nat),
    Search l last remaining nodes (dfs l last remaining nodes) (callDepth l last remaining nodes) := by
  induction l with
  | nil => exact fun last remaining nodes => .done
  | cons p rest ih =>
    intro last remaining nodes
    rw [dfs, callDepth]
    split_ifs with hlast hcoin
    · subst hlast
      exact .same (ih _ _ _)
    · exact .large hcoin (ih _ _ _)
    · by_cases hleft : remaining - p.amount = 0
      · simp only [hleft, if_true]
        exact .hit hcoin hleft
      · by_cases hstop : nodeCap ≤ nodes + 1 ∨ suffixSum rest < remaining - p.amount
        · simp only [hleft, hstop, if_true, if_false]
          exact .cut hcoin hleft hstop (ih _ _ _)
        · simp only [hleft, hstop, if_false]
          have hcall := ih none (remaining - p.amount) (nodes + 1)
          have hgo : nodes + 1 < nodeCap := by omega
          rcases hres : dfs rest none (remaining - p.amount) (nodes + 1) with ⟨- | chosen, nodes'⟩
          · rw [hres] at hcall
            exact .missed hcoin hleft hgo hcall (ih _ _ _)
          · rw [hres] at hcall
            rw [Nat.max_zero]
            exact .found hcoin hleft hgo hcall

variable {l proofs sub : List Proof} {last : Option UInt64} {remaining amount : UInt64} {nodes : Nat}

/-! ### Sums -/

theorem proofsValue_sublist (h : sub.Sublist l) : proofsValue sub ≤ proofsValue l :=
  (h.map _).sum_le_sum (by simp)

theorem suffixSum_toNat (l : List Proof) : (suffixSum l).toNat = min (proofsValue l) (2 ^ 64 - 1) := by
  induction l with
  | nil => rfl
  | cons p ps ih =>
    have hp := p.amount.toNat_lt
    rw [suffixSum, proofsValue_cons]
    split_ifs with hfits
    · rw [UInt64.toNat_add, Nat.mod_eq_of_lt hfits]
      omega
    · show 2 ^ 64 - 1 = _
      omega

/-- Where the saturating sum is short, the sum is. -/
theorem value_lt_of_suffixSum_lt (h : suffixSum l < amount) : proofsValue l < amount.toNat := by
  have hamount := amount.toNat_lt
  rw [UInt64.lt_iff_toNat_lt, suffixSum_toNat] at h
  omega

theorem left_toNat {p : Proof} (h : ¬ remaining < p.amount) :
    p.amount.toNat + (remaining - p.amount).toNat = remaining.toNat := by
  rw [UInt64.lt_iff_toNat_lt] at h
  rw [UInt64.toNat_sub_of_le _ _ (UInt64.le_iff_toNat_le.2 (by omega))]
  omega

namespace Search
variable {res : Option (List Proof) × Nat} {depth : Nat}

/-- What is found has the sum. -/
theorem sum (h : Search l last remaining nodes res depth) :
    ∀ chosen, res.1 = some chosen → proofsValue chosen = remaining.toNat := by
  induction h with
  | done => simp
  | same _ ih => exact ih
  | large _ _ ih => exact ih
  | hit coin left =>
    have hleft := left_toNat coin
    rw [left, UInt64.toNat_zero] at hleft
    simpa using hleft
  | cut _ _ _ _ ih => exact ih
  | found coin _ _ _ ih =>
    have hleft := left_toNat coin
    have hfound := ih _ rfl
    simp only [Option.some.injEq, forall_eq', proofsValue_cons]
    omega
  | missed _ _ _ _ _ _ ih => exact ih

theorem le_nodes (h : Search l last remaining nodes res depth) : nodes ≤ res.2 := by
  induction h with
  | done => exact Nat.le_refl _
  | same _ ih => exact ih
  | large _ _ ih => exact ih
  | hit => exact Nat.le_succ _
  | cut _ _ _ _ ih => omega
  | found _ _ _ _ ih => dsimp only at ih ⊢; omega
  | missed _ _ _ _ _ ih ih' => dsimp only at ih; omega

/-- Past the cap a loop counts each of its coins at most. -/
theorem nodes_le_of_cap (h : Search l last remaining nodes res depth) (hcap : nodeCap ≤ nodes) :
    res.2 ≤ nodes + l.length := by
  induction h with
  | done => simp
  | same _ ih =>
    have := ih hcap
    simp only [List.length_cons]
    omega
  | large _ _ ih =>
    have := ih hcap
    simp only [List.length_cons]
    omega
  | hit => simp
  | cut _ _ _ _ ih =>
    have := ih (by omega)
    simp only [List.length_cons]
    omega
  | found _ _ go => omega
  | missed _ _ go => omega

/-- A loop goes over the cap by the coins of each call that it has open. -/
theorem nodes_le (h : Search l last remaining nodes res depth) : res.2 ≤ max nodes nodeCap + l.length * depth := by
  induction h with
  | done => simp
  | @same p rest _ _ _ depth _ ih =>
    have hmul : rest.length * depth ≤ (p :: rest).length * depth := Nat.mul_le_mul_right _ (by simp)
    omega
  | @large p rest _ _ _ _ depth _ _ ih =>
    have hmul : rest.length * depth ≤ (p :: rest).length * depth := Nat.mul_le_mul_right _ (by simp)
    omega
  | @hit p rest _ _ nodes =>
    simp only [List.length_cons, Nat.mul_one]
    omega
  | @cut p rest _ _ nodes res depth _ _ _ next ih =>
    by_cases hcap : nodeCap ≤ nodes + 1
    · have hle := next.nodes_le_of_cap hcap
      have hmul : (p :: rest).length * 1 ≤ (p :: rest).length * max 1 depth := Nat.mul_le_mul_left _ (by omega)
      simp only [List.length_cons] at hmul ⊢
      omega
    · have hmul : rest.length * depth ≤ (p :: rest).length * max 1 depth := Nat.mul_le_mul (by simp) (by omega)
      omega
  | @found p rest _ _ nodes nodes' _ depth _ _ _ _ ih =>
    have hmul : rest.length * depth ≤ (p :: rest).length * (depth + 1) := Nat.mul_le_mul (by simp) (by omega)
    dsimp only at ih ⊢
    omega
  | @missed p rest _ _ nodes nodes' res depth depth' _ _ _ _ next ih ih' =>
    dsimp only at ih
    by_cases hcap : nodeCap ≤ nodes'
    · have hle := next.nodes_le_of_cap hcap
      have hmul : rest.length * (depth + 1) ≤ (p :: rest).length * max (depth + 1) depth' :=
        Nat.mul_le_mul (by simp) (by omega)
      rw [Nat.mul_add_one] at hmul
      omega
    · have hmul : rest.length * depth' ≤ (p :: rest).length * max (depth + 1) depth' := Nat.mul_le_mul (by simp) (by omega)
      omega

theorem depth_le (h : Search l last remaining nodes res depth) : depth ≤ l.length := by
  induction h with
  | done => exact Nat.le_refl _
  | same _ ih => simp only [List.length_cons]; omega
  | large _ _ ih => simp only [List.length_cons]; omega
  | hit => simp
  | cut _ _ _ _ ih => simp only [List.length_cons]; omega
  | found _ _ _ _ ih => simp only [List.length_cons]; omega
  | missed _ _ _ _ _ ih ih' => simp only [List.length_cons]; omega

/-! ### Complete below the cap -/

/-- No solution begins with the coin tried last. -/
def Tried (last : Option UInt64) (remaining : UInt64) (l : List Proof) : Prop :=
  ∀ c ∈ last, ∀ sub : List Proof, sub.Sublist l → c.toNat + proofsValue sub ≠ remaining.toNat

theorem Tried.of_cons {p : Proof} {rest : List Proof} (h : Tried last remaining (p :: rest)) : Tried last remaining rest :=
  fun c hc sub hsub => h c hc sub (hsub.cons p)

/-- The solutions with a coin and those without it. -/
theorem forall_sublist_cons {p : Proof} {rest : List Proof} {n : Nat}
    (hskip : ∀ sub : List Proof, sub.Sublist rest → proofsValue sub ≠ n)
    (htake : ∀ sub : List Proof, sub.Sublist rest → p.amount.toNat + proofsValue sub ≠ n) :
    ∀ sub : List Proof, sub.Sublist (p :: rest) → proofsValue sub ≠ n := by
  intro sub hsub
  rcases List.sublist_cons_iff.1 hsub with hrest | ⟨sub', rfl, hrest⟩
  · exact hskip sub hrest
  · rw [proofsValue_cons]
    exact htake sub' hrest

/-- Where nothing is found below the cap, there is nothing. -/
theorem complete (h : Search l last remaining nodes res depth) (hnone : res.1 = none) (hcap : res.2 < nodeCap)
    (hpos : remaining ≠ 0) (htried : Tried last remaining l) :
    ∀ sub : List Proof, sub.Sublist l → proofsValue sub ≠ remaining.toNat := by
  induction h with
  | done =>
    intro sub hsub hvalue
    rw [List.sublist_nil.1 hsub] at hvalue
    exact hpos (UInt64.toNat_inj.1 hvalue.symm)
  | same next ih =>
    exact forall_sublist_cons (ih hnone hcap hpos htried.of_cons) fun sub hsub => htried _ rfl sub (hsub.cons _)
  | @large p rest _ remaining _ _ _ large next ih =>
    have hlarge : ∀ sub : List Proof, sub.Sublist rest → p.amount.toNat + proofsValue sub ≠ remaining.toNat := by
      intro sub _
      rw [UInt64.lt_iff_toNat_lt] at large
      omega
    refine forall_sublist_cons (ih hnone hcap hpos ?_) hlarge
    rintro c ⟨⟩
    exact hlarge
  | hit => cases hnone
  | @cut p rest _ remaining nodes res _ coin left stop next ih =>
    have hle := next.le_nodes
    have hshort : proofsValue rest < (remaining - p.amount).toNat :=
      value_lt_of_suffixSum_lt (stop.resolve_left (by omega))
    have hleft := left_toNat coin
    have htake : ∀ sub : List Proof, sub.Sublist rest → p.amount.toNat + proofsValue sub ≠ remaining.toNat := by
      intro sub hsub
      have := proofsValue_sublist hsub
      omega
    refine forall_sublist_cons (ih hnone hcap hpos ?_) htake
    rintro c ⟨⟩
    exact htake
  | found => cases hnone
  | @missed p rest _ remaining nodes nodes' res _ _ coin left go call next ih ih' =>
    have hle := next.le_nodes
    have hleft := left_toNat coin
    have hbelow := ih rfl (by dsimp only; omega) left nofun
    have htake : ∀ sub : List Proof, sub.Sublist rest → p.amount.toNat + proofsValue sub ≠ remaining.toNat := by
      intro sub hsub
      have := hbelow sub hsub
      omega
    refine forall_sublist_cons (ih' hnone hcap hpos ?_) htake
    rintro c ⟨⟩
    exact htake

end Search

/-! ### `find_exact` -/

theorem subperm_largestFirst : sub.Subperm (largestFirst proofs) ↔ sub.Subperm proofs :=
  (List.mergeSort_perm ..).subperm_left

/-- As many calls are open as there are proofs, and the first. -/
theorem recursionDepth_le (proofs : List Proof) (amount : UInt64) : recursionDepth proofs amount ≤ proofs.length + 1 := by
  have hdepth := (search_dfs (largestFirst proofs) none amount 0).depth_le
  rw [largestFirst, List.length_mergeSort] at hdepth
  rw [recursionDepth]
  split_ifs
  · omega
  · exact Nat.add_le_add_right hdepth 1

theorem searchNodes_le (proofs : List Proof) (amount : UInt64) :
    searchNodes proofs amount ≤ nodeCap + proofs.length * recursionDepth proofs amount := by
  have hnodes := (search_dfs (largestFirst proofs) none amount 0).nodes_le
  rw [largestFirst, List.length_mergeSort, Nat.zero_max, ← largestFirst] at hnodes
  rw [searchNodes, recursionDepth]
  split_ifs
  · exact Nat.zero_le _
  · rw [Nat.mul_add_one]
    omega

/-- The counter of 32 bits does not wrap. -/
theorem searchNodes_lt (h : proofs.length ≤ 65000) (amount : UInt64) : searchNodes proofs amount < 2 ^ 32 := by
  have hnodes := searchNodes_le proofs amount
  have hmul : proofs.length * recursionDepth proofs amount ≤ 65000 * 65001 :=
    Nat.mul_le_mul h ((recursionDepth_le proofs amount).trans (by omega))
  rw [nodeCap] at hnodes
  omega

theorem findExact_found {chosen : List Proof} (h : findExact proofs amount = some chosen) :
    chosen.Subperm proofs ∧ proofsValue chosen = amount.toNat := by
  rw [findExact] at h
  dsimp only at h
  split_ifs at h
  exact ⟨subperm_largestFirst.1 (dfs_sublist _ _ _ _ _ h).subperm, (search_dfs (largestFirst proofs) none amount 0).sum _ h⟩

/-- What is found are proofs at different places that make up the amount; where nothing is found below the cap, no proofs
do; and the nodes stay close to the cap. -/
theorem findExact_searches (hamount : amount ≠ 0) :
    (∀ chosen, findExact proofs amount = some chosen → chosen.Subperm proofs ∧ proofsValue chosen = amount.toNat) ∧
    (findExact proofs amount = none → searchNodes proofs amount < nodeCap →
      ∀ sub : List Proof, sub.Subperm proofs → proofsValue sub ≠ amount.toNat) ∧
    searchNodes proofs amount ≤ nodeCap + proofs.length * recursionDepth proofs amount := by
  have hsearch := search_dfs (largestFirst proofs) none amount 0
  refine ⟨fun chosen hchosen => findExact_found hchosen, fun hnone hcap sub hsub => ?_, searchNodes_le proofs amount⟩
  obtain ⟨sorted, hperm, hsorted⟩ := subperm_largestFirst.2 hsub
  rw [← proofsValue_perm hperm]
  rw [findExact, if_neg hamount] at hnone
  rw [searchNodes] at hcap
  dsimp only at hnone
  split_ifs at hnone hcap with hshort
  · have hle := proofsValue_sublist hsorted
    have hlt := value_lt_of_suffixSum_lt hshort
    omega
  · exact hsearch.complete hnone hcap hamount (fun _ h => by cases h) sorted hsorted

end

section toy
open Toy32

namespace ToySearch

def proofOf (amount : UInt64) (secret : String) : Proof := ⟨amount, "00c0ffee", secret, (3 : UInt8), none, none⟩

def held : List Proof := [proofOf 5 "a", proofOf 4 "b", proofOf 2 "c", proofOf 2 "d"]

end ToySearch

open ToySearch

/-- Eight is found although the largest coin leads nowhere; for ten nothing is found, and no choice of the coins makes it. -/
theorem findExact_searches_toy :
    findExact held 8 = some [proofOf 4 "b", proofOf 2 "c", proofOf 2 "d"] ∧ findExact held 10 = none ∧
      ∀ sub : List Proof, sub.Subperm held → proofsValue sub ≠ 10 := by
  have hsorted : largestFirst held = held := List.mergeSort_of_pairwise (by simp [held, proofOf])
  have hfound : findExact held 8 = some [proofOf 4 "b", proofOf 2 "c", proofOf 2 "d"] := by
    rw [findExact, hsorted]
    decide +kernel
  have hnone : findExact held 10 = none := by
    rw [findExact, hsorted]
    decide +kernel
  have hcap : searchNodes held 10 < nodeCap := by
    rw [searchNodes, hsorted]
    decide +kernel
  exact ⟨hfound, hnone, (@findExact_searches _ held 10 (by decide)).2.1 hnone hcap⟩

end toy

end Micronuts
