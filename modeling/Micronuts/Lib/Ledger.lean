import Mathlib.Logic.Relation

/-!
# A double-entry ledger for an issuer of bearer notes

The five totals of an issuer: `deposited` and `withdrawn` (paid in from outside, and notes issued
against it), `redeemed` (notes taken back), `reissued` and `paidOut` (notes and outside payments made
against redeemed ones). A `Move` never issues more than it has taken in, so a ledger that only moves
stays `Solvent` and the notes in circulation stay covered.
-/

structure Ledger where
  deposited : Nat
  withdrawn : Nat
  redeemed : Nat
  reissued : Nat
  paidOut : Nat
deriving DecidableEq

namespace Ledger

def empty : Ledger := ⟨0, 0, 0, 0, 0⟩

/-- All notes ever issued. -/
def issued (l : Ledger) : Nat := l.withdrawn + l.reissued

inductive Move : Ledger → Ledger → Prop
  /-- Money comes in from outside. -/
  | deposit (l : Ledger) (n : Nat) : Move l { l with deposited := l.deposited + n }
  /-- Notes are issued against deposits. -/
  | withdraw (l : Ledger) (n : Nat) (cover : l.withdrawn + n ≤ l.deposited) :
      Move l { l with withdrawn := l.withdrawn + n }
  /-- Notes worth `taken` come back for notes worth `given` and a payment of `paid`. -/
  | exchange (l : Ledger) (taken given paid : Nat) (cover : given + paid ≤ taken) :
      Move l { l with redeemed := l.redeemed + taken, reissued := l.reissued + given, paidOut := l.paidOut + paid }

/-- Any number of moves. -/
def Moves : Ledger → Ledger → Prop := Relation.ReflTransGen Move

structure Solvent (l : Ledger) : Prop where
  withdrawn_le : l.withdrawn ≤ l.deposited
  exchange_le : l.reissued + l.paidOut ≤ l.redeemed

theorem Solvent.empty : Solvent empty := ⟨Nat.le_refl _, Nat.le_refl _⟩

theorem Move.solvent {l l' : Ledger} (h : Move l l') (hl : l.Solvent) : l'.Solvent := by
  obtain ⟨hw, he⟩ := hl
  cases h with
  | deposit n => exact ⟨Nat.le_add_right_of_le hw, he⟩
  | withdraw n cover => exact ⟨cover, he⟩
  | exchange taken given paid cover => exact ⟨hw, by dsimp only; omega⟩

theorem Moves.solvent {l l' : Ledger} (h : Moves l l') (hl : l.Solvent) : l'.Solvent := by
  induction h with
  | refl => exact hl
  | tail _ hstep ih => exact hstep.solvent ih

theorem Moves.refl (l : Ledger) : Moves l l := Relation.ReflTransGen.refl

theorem Moves.trans {l₁ l₂ l₃ : Ledger} (h : Moves l₁ l₂) (h' : Moves l₂ l₃) : Moves l₁ l₃ :=
  Relation.ReflTransGen.trans h h'

theorem Moves.of_move {l l' : Ledger} (h : Move l l') : Moves l l' := Relation.ReflTransGen.single h

/-- What is in circulation or has left is covered by what came in. -/
theorem Solvent.issued_le {l : Ledger} (h : l.Solvent) : l.issued + l.paidOut ≤ l.deposited + l.redeemed := by
  have := h.withdrawn_le
  have := h.exchange_le
  unfold issued; omega

end Ledger
