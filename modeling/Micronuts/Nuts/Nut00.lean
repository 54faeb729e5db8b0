import Micronuts.Nuts.Messages

/-!
# Denominations and keys (`cashu-core-lite`: `nuts/nut00.rs`, `nuts/nut01.rs`)
-/

namespace Micronuts

/-! ### Denominations -/

/-- The first loop: doubled while it is at most half of the amount. -/
def highestDenomination (remaining : UInt64) : Nat → UInt64 → UInt64
  | 0, denomination => denomination
  | fuel + 1, denomination =>
    if denomination ≤ remaining / 2 then highestDenomination remaining fuel (denomination <<< 1) else denomination

/-- The second loop: halved down to zero, and taken off where it fits. -/
def takeDenominations : Nat → UInt64 → UInt64 → List UInt64
  | 0, _, _ => []
  | fuel + 1, denomination, remaining =>
    if denomination = 0 then []
    else if denomination ≤ remaining then
      denomination :: takeDenominations fuel (denomination >>> 1) (remaining - denomination)
    else takeDenominations fuel (denomination >>> 1) remaining

/-- A shift out of 64 bits ends either loop. -/
def decomposeAmount (amount : UInt64) : List UInt64 :=
  if amount = 0 then [] else takeDenominations 64 (highestDenomination amount 64 1) amount

theorem takeDenominations_length (fuel : Nat) (denomination remaining : UInt64) :
    (takeDenominations fuel denomination remaining).length ≤ fuel := by
  induction fuel generalizing denomination remaining with
  | zero => exact Nat.le_refl 0
  | succ fuel ih =>
    unfold takeDenominations
    split
    · exact Nat.zero_le _
    · split
      · exact Nat.succ_le_succ (ih ..)
      · exact Nat.le_succ_of_le (ih ..)

theorem decomposeAmount_length (amount : UInt64) : (decomposeAmount amount).length ≤ 64 := by
  unfold decomposeAmount
  split
  · exact Nat.zero_le _
  · exact takeDenominations_length ..

example : decomposeAmount 100 = [64, 32, 4] := by decide

/-! ### Keys -/

variable [Crypto]

structure KeyPair where
  amount : UInt64
  pubkey : PublicKey
deriving DecidableEq

structure KeySet where
  id : String
  unit : String
  keys : List KeyPair
deriving DecidableEq

/-- `keys.iter().find(|kp| kp.amount == amount).map(|kp| &kp.pubkey)`. -/
def KeySet.pubkey (keys : KeySet) (amount : UInt64) : Option PublicKey :=
  (keys.keys.find? fun kp => kp.amount = amount).map KeyPair.pubkey

end Micronuts
