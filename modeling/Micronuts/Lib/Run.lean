import Mathlib.Data.List.Induction

/-!
# Runs of a labelled transition system

`Run R s₀ h s`: the steps listed in `h` lead from `s₀` to `s`. The history keeps the state before and
after every step, so a property of a run can speak about any earlier moment. `Run.invariant` is the
induction over runs, under an assumption `P` on the history that is closed under prefixes.
-/

structure Step (σ α : Type) where
  pre : σ
  act : α
  post : σ

inductive Run {σ α : Type} (R : σ → α → σ → Prop) (s₀ : σ) : List (Step σ α) → σ → Prop
  | nil : Run R s₀ [] s₀
  | snoc {h : List (Step σ α)} {s s' : σ} {a : α} (run : Run R s₀ h s) (step : R s a s') :
      Run R s₀ (h ++ [⟨s, a, s'⟩]) s'

namespace Run
variable {σ α : Type} {R : σ → α → σ → Prop} {s₀ s s' : σ} {h : List (Step σ α)}

/-- A property of histories that a longer history passes on to its prefixes. -/
def PrefixClosed (P : List (Step σ α) → Prop) : Prop := ∀ h e, P (h ++ [e]) → P h

theorem PrefixClosed.forall_mem (G : Step σ α → Prop) : PrefixClosed fun h => ∀ e ∈ h, G e :=
  fun _ _ hG e he => hG e (List.mem_append_left _ he)

theorem PrefixClosed.and {P Q : List (Step σ α) → Prop} (hP : PrefixClosed P) (hQ : PrefixClosed Q) :
    PrefixClosed fun h => P h ∧ Q h :=
  fun h e hPQ => ⟨hP h e hPQ.1, hQ h e hPQ.2⟩

theorem PrefixClosed.forall_split (G : List (Step σ α) → Step σ α → Prop) :
    PrefixClosed fun h => ∀ h₁ e h₂, h = h₁ ++ e :: h₂ → G h₁ e :=
  fun _ e hG h₁ e₁ h₂ heq => hG h₁ e₁ (h₂ ++ [e]) (by rw [heq]; simp)

/-- The last step, after all the others. -/
theorem forall_split_snoc {G : List (Step σ α) → Step σ α → Prop} {e : Step σ α}
    (hG : ∀ h₁ e₁ h₂, h = h₁ ++ e₁ :: h₂ → G h₁ e₁) (he : G h e) :
    ∀ h₁ e₁ h₂, h ++ [e] = h₁ ++ e₁ :: h₂ → G h₁ e₁ := by
  intro h₁ e₁ h₂ heq
  rcases List.eq_nil_or_concat h₂ with rfl | ⟨h₂, e₂, rfl⟩
  · obtain ⟨hh, hlast⟩ := List.append_inj' heq rfl
    rw [← hh, ← List.singleton_inj.1 hlast]
    exact he
  · rw [List.concat_eq_append, ← List.cons_append, ← List.append_assoc] at heq
    exact hG h₁ e₁ h₂ (List.append_inj' heq rfl).1

theorem PrefixClosed.nodup_filterMap {β : Type} (f : Step σ α → Option β) :
    PrefixClosed fun h => (h.filterMap f).Nodup :=
  fun h e hnd => (List.nodup_append.1 (by simpa only [List.filterMap_append] using hnd)).1

/-- What holds at the start and survives every step holds at the end, for the histories in `P`. -/
theorem invariant {P : List (Step σ α) → Prop} (hP : PrefixClosed P) {I : List (Step σ α) → σ → Prop}
    (init : I [] s₀)
    (step : ∀ h s a s', Run R s₀ h s → P (h ++ [⟨s, a, s'⟩]) → I h s → R s a s' → I (h ++ [⟨s, a, s'⟩]) s')
    (hrun : Run R s₀ h s) (hh : P h) : I h s := by
  induction hrun with
  | nil => exact init
  | snoc run hstep ih => exact step _ _ _ _ run hh (ih (hP _ _ hh)) hstep

/-- The invariant rule for a property of the state alone, with a guard on every step. -/
theorem invariant_state {G : Step σ α → Prop} {I : σ → Prop} (init : I s₀)
    (step : ∀ s a s', G ⟨s, a, s'⟩ → I s → R s a s' → I s') (hrun : Run R s₀ h s) (hG : ∀ e ∈ h, G e) : I s :=
  invariant (I := fun _ s => I s) (PrefixClosed.forall_mem G) init
    (fun _ _ _ _ _ hG hI hR => step _ _ _ (hG _ (by simp)) hI hR) hrun hG

theorem step_of_mem (hrun : Run R s₀ h s) {e : Step σ α} (he : e ∈ h) : R e.pre e.act e.post := by
  induction hrun with
  | nil => simp at he
  | snoc _ hstep ih =>
    rcases List.mem_append.1 he with he | he
    · exact ih he
    · rw [List.mem_singleton.1 he]; exact hstep

/-- The run up to a step, and the step. -/
theorem split {h₁ h₂ : List (Step σ α)} {e : Step σ α} (hrun : Run R s₀ (h₁ ++ e :: h₂) s) :
    Run R s₀ h₁ e.pre ∧ R e.pre e.act e.post := by
  refine ⟨?_, hrun.step_of_mem (by simp)⟩
  induction h₂ using List.reverseRecOn generalizing s with
  | nil =>
    generalize hh : h₁ ++ [e] = h at hrun
    cases hrun with
    | nil => simp at hh
    | snoc run _ =>
      obtain ⟨rfl, he⟩ := List.append_inj' hh rfl
      cases he; exact run
  | append_singleton h₂ e' ih =>
    generalize hh : h₁ ++ e :: (h₂ ++ [e']) = h at hrun
    rw [← List.cons_append, ← List.append_assoc] at hh
    cases hrun with
    | nil => simp at hh
    | snoc run _ =>
      obtain ⟨rfl, -⟩ := List.append_inj' hh rfl
      exact ih run

theorem mono {R' : σ → α → σ → Prop} (hR : ∀ s a s', R s a s' → R' s a s') (hrun : Run R s₀ h s) : Run R' s₀ h s := by
  induction hrun with
  | nil => exact .nil
  | snoc _ hstep ih => exact ih.snoc (hR _ _ _ hstep)

/-- The steps of a function, one after another. -/
def trace (f : σ → α → σ) (s : σ) : List α → List (Step σ α)
  | [] => []
  | a :: as => ⟨s, a, f s a⟩ :: trace f (f s a) as

theorem post_of_mem_trace {f : σ → α → σ} {as : List α} {e : Step σ α} (he : e ∈ trace f s as) : e.post = f e.pre e.act := by
  induction as generalizing s with
  | nil => cases he
  | cons a as ih =>
    rw [trace, List.mem_cons] at he
    rcases he with rfl | he
    · rfl
    · exact ih he

theorem append_trace {f : σ → α → σ} (hf : ∀ s a, R s a (f s a)) (as : List α) (hrun : Run R s₀ h s) :
    Run R s₀ (h ++ trace f s as) (as.foldl f s) := by
  induction as generalizing h s with
  | nil => simpa only [trace, List.append_nil, List.foldl_nil] using hrun
  | cons a as ih =>
    simpa only [trace, List.append_assoc, List.singleton_append, List.foldl_cons] using ih (hrun.snoc (hf s a))

/-- The steps of a function are a run when each of them is one of the relation. -/
theorem run_trace {f : σ → α → σ} {as : List α} (hf : ∀ e ∈ trace f s as, R e.pre e.act e.post) (hrun : Run R s₀ h s) :
    Run R s₀ (h ++ trace f s as) (as.foldl f s) := by
  induction as generalizing h s with
  | nil => simpa only [trace, List.append_nil, List.foldl_nil] using hrun
  | cons a as ih =>
    rw [trace, List.forall_mem_cons] at hf
    simpa only [trace, List.append_assoc, List.singleton_append, List.foldl_cons] using ih hf.2 (hrun.snoc hf.1)

/-- The steps of a partial function are a run as long as it has one. -/
theorem run_of_enabled {f : σ → α → Option σ} {as : List α}
    (h : ∀ e ∈ trace (fun s a => (f s a).getD s) s₀ as, (f e.pre e.act).isSome = true) :
    Run (fun s a s' => f s a = some s') s₀ (trace (fun s a => (f s a).getD s) s₀ as)
      (as.foldl (fun s a => (f s a).getD s) s₀) := by
  refine @run_trace _ _ _ s₀ s₀ [] _ as ?_ .nil
  intro e he
  obtain ⟨s', hs⟩ := Option.isSome_iff_exists.1 (h e he)
  rw [post_of_mem_trace he, hs]
  rfl

/-- The run up to a step of the history. -/
theorem before_of_mem (hrun : Run R s₀ h s) {e : Step σ α} (he : e ∈ h) :
    ∃ h₁ h₂, h = h₁ ++ e :: h₂ ∧ Run R s₀ h₁ e.pre := by
  induction hrun with
  | nil => simp at he
  | @snoc h s s' a run hstep ih =>
    rcases List.mem_append.1 he with he | he
    · obtain ⟨h₁, h₂, rfl, hr⟩ := ih he
      exact ⟨h₁, h₂ ++ [⟨s, a, s'⟩], by simp, hr⟩
    · rw [List.mem_singleton.1 he]
      exact ⟨h, [], rfl, run⟩

end Run
