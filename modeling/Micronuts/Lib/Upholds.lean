import Micronuts.Lib.Exec

/-!
# What a computation upholds

`Upholds I m P`: run from any state with `I`, `m` ends in one with `I`, and what it returns satisfies `P`. A `do` block
upholds an invariant when its statements do, so a method's lemma follows its text.
-/

namespace Exec
variable {ρ σ ε α β : Type} {I : σ → Prop}

def Upholds (I : σ → Prop) (m : Exec ρ σ ε α) (P : α → Prop) : Prop :=
  ∀ r s, I s → m.Ends r s fun o t => I t ∧ ∀ a, o = .ok a → P a

namespace Upholds
variable {m : Exec ρ σ ε α} {f : α → Exec ρ σ ε β} {P P' : α → Prop} {Q : β → Prop}

theorem elim {r : ρ} {s t : σ} {o : Outcome ε α} (h : Upholds I m P) (hs : I s) (hrun : m.run r s = (o, t)) :
    I t ∧ ∀ a, o = .ok a → P a := (h r s hs).elim hrun

theorem mono (h : Upholds I m P) (hP : ∀ a, P a → P' a) : Upholds I m P' :=
  fun r s hs => (h r s hs).mono fun _ _ ho => ⟨ho.1, fun a ha => hP a (ho.2 a ha)⟩

theorem pure {a : α} (h : P a) : Upholds I (Pure.pure a : Exec ρ σ ε α) P := by
  intro r s hs
  refine Ends.pure ⟨hs, ?_⟩
  rintro a' ⟨⟩
  exact h

theorem fail {e : ε} : Upholds I (Exec.fail e : Exec ρ σ ε α) P := by
  intro r s hs
  exact Ends.fail ⟨hs, by simp⟩

theorem get : Upholds I (Exec.get : Exec ρ σ ε σ) I := by
  intro r s hs
  refine ⟨hs, ?_⟩
  rintro a ⟨⟩
  exact hs

theorem modify {g : σ → σ} (h : ∀ s, I s → I (g s)) : Upholds I (Exec.modify g : Exec ρ σ ε Unit) fun _ => True := by
  intro r s hs
  exact ⟨h s hs, fun _ _ => trivial⟩

theorem lift {x : Except ε α} : Upholds I (Exec.lift x : Exec ρ σ ε α) fun a => x = .ok a := by
  intro r s hs
  refine Ends.of_lift (fun a ha => ⟨hs, ?_⟩) fun e _ => ⟨hs, by simp⟩
  rintro a' ⟨⟩
  exact ha

theorem okOr {x : Option α} {e : ε} : Upholds I (Exec.okOr x e : Exec ρ σ ε α) fun a => x = some a := by
  intro r s hs
  cases x with
  | none => exact ⟨hs, by simp [run, Exec.okOr]⟩
  | some a => exact ⟨hs, by simp [run, Exec.okOr]⟩

theorem failIf {c : Prop} [Decidable c] {e : ε} : Upholds I (Exec.failIf c e : Exec ρ σ ε Unit) fun _ => ¬ c := by
  intro r s hs
  unfold Ends
  simp only [run, Exec.failIf]
  split
  · exact ⟨hs, by simp⟩
  · next hc => exact ⟨hs, fun _ _ => hc⟩

theorem bind (hm : Upholds I m P) (hf : ∀ a, P a → Upholds I (f a) Q) : Upholds I (m >>= f) Q := by
  intro r s hs
  refine Ends.bind (hm r s hs) (fun a t ht => hf a (ht.2 a rfl) r t ht.1) (fun e t ht => ⟨ht.1, by simp⟩) ?_
  intro t ht
  exact ⟨ht.1, by simp⟩

theorem attempt (hm : Upholds I m P) : Upholds I (Exec.attempt m) fun x => ∀ a, x = .ok a → P a := by
  intro r s hs
  have h := hm r s hs
  unfold Ends at h ⊢
  simp only [run, Exec.attempt] at h ⊢
  rcases hrun : m r s with ⟨o, t⟩
  rw [hrun] at h
  cases o with
  | ok a => exact ⟨h.1, by simpa using h.2⟩
  | err e => exact ⟨h.1, by simp⟩
  | panic => exact ⟨h.1, by simp⟩

end Upholds

end Exec
