import Mathlib.Data.List.Forall2

/-!
# Computations that read an environment, change a state, and may fail

`Exec ρ σ ε α`: a method body that reads an environment `ρ`, mutates a state `σ`, and ends in a
value, an error or a panic (`Outcome`). An error keeps the state changes made before it, as an early
return out of a `&mut self` method does.

`Ends m r s Q`: run from `s`, `m` ends with an outcome and a state related by `Q`. The rules `bind*`
walk a `do` block from the top: one goal for the rest of the block, one for each way the first
statement leaves it. `attempt` catches an error, `zoom` runs a method of a part of the state.

`Succeeds m r s`: run from `s`, `m` returns a value. Its rules turn a `do` block into the condition under which
the block runs to its end.
-/

namespace Except
variable {ε α β : Type}

/-- `x.ok_or(e)`. -/
def okOr (x : Option α) (e : ε) : Except ε α := x.elim (.error e) .ok

theorem okOr_eq_ok {x : Option α} {e : ε} {a : α} : okOr x e = .ok a ↔ x = some a := by
  cases x <;> simp [okOr]

theorem okOr_eq_error {x : Option α} {e e' : ε} : okOr x e = .error e' ↔ x = none ∧ e = e' := by
  cases x <;> simp [okOr]

theorem bind_eq_ok {x : Except ε α} {f : α → Except ε β} {b : β} :
    (x >>= f) = .ok b ↔ ∃ a, x = .ok a ∧ f a = .ok b := by
  cases x with
  | error e =>
    constructor
    · intro h; cases h
    · rintro ⟨_, h, _⟩; cases h
  | ok a =>
    constructor
    · intro h; exact ⟨a, rfl, h⟩
    · rintro ⟨_, h, hf⟩; cases h; exact hf

theorem bind_eq_error {x : Except ε α} {f : α → Except ε β} {e : ε} :
    (x >>= f) = .error e ↔ x = .error e ∨ ∃ a, x = .ok a ∧ f a = .error e := by
  cases x with
  | error e' =>
    constructor
    · intro h; cases h; exact .inl rfl
    · rintro (h | ⟨_, h, _⟩) <;> cases h; rfl
  | ok a =>
    constructor
    · intro h; exact .inr ⟨a, rfl, h⟩
    · rintro (h | ⟨_, h, hf⟩) <;> cases h; exact hf

theorem mapError_eq_ok {ε' : Type} {x : Except ε α} {f : ε → ε'} {a : α} : x.mapError f = .ok a ↔ x = .ok a := by
  cases x <;> simp [Except.mapError]

theorem mapM_eq_ok {f : α → Except ε β} {l : List α} {bs : List β} :
    l.mapM f = .ok bs ↔ List.Forall₂ (fun a b => f a = .ok b) l bs := by
  induction l generalizing bs with
  | nil =>
    rw [List.mapM_nil, List.forall₂_nil_left_iff]
    exact ⟨fun h => by cases h; rfl, fun h => by rw [h]; rfl⟩
  | cons a l ih =>
    rw [List.mapM_cons, List.forall₂_cons_left_iff]
    simp only [bind_eq_ok, ih]
    constructor
    · rintro ⟨b, hb, bs', hbs, h⟩; cases h; exact ⟨b, bs', hb, hbs, rfl⟩
    · rintro ⟨b, bs', hb, hbs, rfl⟩; exact ⟨b, hb, bs', hbs, rfl⟩

theorem mapM_isOk {f : α → Except ε β} {l : List α} (h : ∀ a ∈ l, ∃ b, f a = .ok b) : ∃ bs, l.mapM f = .ok bs := by
  induction l with
  | nil => exact ⟨[], rfl⟩
  | cons a l ih =>
    obtain ⟨b, hb⟩ := h a (List.mem_cons_self ..)
    obtain ⟨bs, hbs⟩ := ih fun a ha => h a (List.mem_cons_of_mem _ ha)
    exact ⟨b :: bs, mapM_eq_ok.2 (.cons hb (mapM_eq_ok.1 hbs))⟩

theorem forM_eq_ok {f : α → Except ε Unit} {l : List α} : l.forM f = .ok () ↔ ∀ a ∈ l, f a = .ok () := by
  induction l with
  | nil => exact iff_of_true rfl nofun
  | cons a l ih =>
    show (f a >>= fun _ => l.forM f) = .ok () ↔ _
    rw [bind_eq_ok, List.forall_mem_cons, ← ih]
    exact ⟨fun ⟨_, ha, hl⟩ => ⟨ha, hl⟩, fun ⟨ha, hl⟩ => ⟨⟨⟩, ha, hl⟩⟩

/-- A loop of checks fails with the first check that does. -/
theorem forM_eq_error {f : α → Except ε Unit} {before after : List α} {a : α} {e : ε}
    (hbefore : ∀ b ∈ before, f b = .ok ()) (ha : f a = .error e) : (before ++ a :: after).forM f = .error e := by
  induction before with
  | nil =>
    show (f a >>= fun _ => after.forM f) = .error e
    rw [ha]
    rfl
  | cons b before ih =>
    show (f b >>= fun _ => (before ++ a :: after).forM f) = .error e
    rw [hbefore b (List.mem_cons_self ..)]
    exact ih fun b hb => hbefore b (List.mem_cons_of_mem _ hb)

/-- The error of a loop of checks is that of one of them. -/
theorem exists_of_forM_eq_error {f : α → Except ε Unit} {l : List α} {e : ε} (h : l.forM f = .error e) :
    ∃ a ∈ l, f a = .error e := by
  induction l with
  | nil => cases h
  | cons a l ih =>
    have h : (f a >>= fun _ => l.forM f) = .error e := h
    rcases bind_eq_error.1 h with ha | ⟨_, -, hl⟩
    · exact ⟨a, List.mem_cons_self .., ha⟩
    · obtain ⟨b, hb, hf⟩ := ih hl
      exact ⟨b, List.mem_cons_of_mem _ hb, hf⟩

/-- What every round of a fallible loop keeps holds after the loop. -/
theorem foldlM_invariant {f : β → α → Except ε β} {P : β → Prop} (step : ∀ b a b', f b a = .ok b' → P b → P b')
    {l : List α} {b b' : β} (h : l.foldlM f b = .ok b') (hb : P b) : P b' := by
  induction l generalizing b with
  | nil => cases h; exact hb
  | cons a l ih =>
    rw [List.foldlM_cons] at h
    obtain ⟨mid, hmid, h⟩ := bind_eq_ok.1 h
    exact ih h (step b a mid hmid hb)

end Except

/-- How a call ends. -/
inductive Outcome (ε α : Type)
  | ok (a : α)
  | err (e : ε)
  | panic
deriving DecidableEq

namespace Outcome
variable {ε α β : Type}

def map (f : α → β) : Outcome ε α → Outcome ε β
  | ok a => ok (f a)
  | err e => err e
  | panic => panic

def isOk : Outcome ε α → Bool
  | ok _ => true
  | err _ | panic => false

end Outcome

def Exec (ρ σ ε α : Type) : Type := ρ → σ → Outcome ε α × σ

namespace Exec
variable {ρ σ ε α β : Type}

def run (m : Exec ρ σ ε α) (r : ρ) (s : σ) : Outcome ε α × σ := m r s

instance : Monad (Exec ρ σ ε) where
  pure a := fun _ s => (.ok a, s)
  bind m f := fun r s =>
    match m r s with
    | (.ok a, s') => f a r s'
    | (.err e, s') => (.err e, s')
    | (.panic, s') => (.panic, s')

def fail (e : ε) : Exec ρ σ ε α := fun _ s => (.err e, s)

def panic : Exec ρ σ ε α := fun _ s => (.panic, s)

def get : Exec ρ σ ε σ := fun _ s => (.ok s, s)

def modify (f : σ → σ) : Exec ρ σ ε Unit := fun _ s => (.ok (), f s)

/-- `x?` for a result that does not depend on the state. -/
def lift (x : Except ε α) : Exec ρ σ ε α := fun _ s =>
  match x with
  | .ok a => (.ok a, s)
  | .error e => (.err e, s)

/-- `x.ok_or(e)?`. -/
def okOr (x : Option α) (e : ε) : Exec ρ σ ε α := fun _ s =>
  match x with
  | some a => (.ok a, s)
  | none => (.err e, s)

/-- The result of `m` as a value: `match m { Ok(a) => …, Err(e) => … }`. A panic is not caught. -/
def attempt (m : Exec ρ σ ε α) : Exec ρ σ ε (Except ε α) := fun r s =>
  match m r s with
  | (.ok a, s') => (.ok (.ok a), s')
  | (.err e, s') => (.ok (.error e), s')
  | (.panic, s') => (.panic, s')

/-- A method of a part of the state, run where `view` says. -/
def zoom {ρ' σ' : Type} (view : ρ → σ → ρ') (part : σ → σ') (put : σ → σ' → σ) (m : Exec ρ' σ' ε α) : Exec ρ σ ε α :=
  fun r s => ((m (view r s) (part s)).1, put s (m (view r s) (part s)).2)

/-- `if c { return Err(e) }`. -/
def failIf (c : Prop) [Decidable c] (e : ε) : Exec ρ σ ε Unit := fun _ s =>
  if c then (.err e, s) else (.ok (), s)

@[simp] theorem run_pure (a : α) (r : ρ) (s : σ) : (pure a : Exec ρ σ ε α).run r s = (.ok a, s) := rfl

@[simp] theorem run_fail (e : ε) (r : ρ) (s : σ) : (fail e : Exec ρ σ ε α).run r s = (.err e, s) := rfl

theorem run_bind (m : Exec ρ σ ε α) (f : α → Exec ρ σ ε β) (r : ρ) (s : σ) :
    (m >>= f).run r s =
      match m.run r s with
      | (.ok a, s') => (f a).run r s'
      | (.err e, s') => (.err e, s')
      | (.panic, s') => (.panic, s') := rfl

theorem run_bind_of_ok {m : Exec ρ σ ε α} {f : α → Exec ρ σ ε β} {r : ρ} {s s' : σ} {a : α}
    (h : m.run r s = (.ok a, s')) : (m >>= f).run r s = (f a).run r s' := by
  rw [run_bind, h]

/-- A block runs alike in two environments if each of its statements does. -/
theorem run_bind_congr {m : Exec ρ σ ε α} {f : α → Exec ρ σ ε β} {r r' : ρ} {s : σ} (hm : m.run r s = m.run r' s)
    (hf : ∀ a t, m.run r' s = (.ok a, t) → (f a).run r t = (f a).run r' t) : (m >>= f).run r s = (m >>= f).run r' s := by
  rw [run_bind, run_bind, hm]
  rcases h : m.run r' s with ⟨o, t⟩
  cases o with
  | ok a => exact hf a t h
  | err e => rfl
  | panic => rfl

theorem get_run {r : ρ} {s : σ} : (get : Exec ρ σ ε σ).run r s = (.ok s, s) := rfl

theorem okOr_run {x : Option α} {a : α} {e : ε} {r : ρ} {s : σ} (h : x = some a) :
    (okOr x e : Exec ρ σ ε α).run r s = (.ok a, s) := by
  rw [h]
  rfl

theorem okOr_run_ok {x : Option α} {a : α} {e : ε} {r : ρ} {s t : σ}
    (h : (okOr x e : Exec ρ σ ε α).run r s = (.ok a, t)) : x = some a ∧ t = s := by
  cases x with
  | none => cases h
  | some a' => cases h; exact ⟨rfl, rfl⟩

theorem lift_run {x : Except ε α} {a : α} {r : ρ} {s : σ} (h : x = .ok a) :
    (lift x : Exec ρ σ ε α).run r s = (.ok a, s) := by
  rw [h]
  rfl

theorem lift_run_ok {x : Except ε α} {a : α} {r : ρ} {s t : σ} (h : (lift x : Exec ρ σ ε α).run r s = (.ok a, t)) :
    x = .ok a ∧ t = s := by
  cases x with
  | error e => cases h
  | ok a' => cases h; exact ⟨rfl, rfl⟩

theorem modify_run {f : σ → σ} {r : ρ} {s : σ} : (modify f : Exec ρ σ ε Unit).run r s = (.ok (), f s) := rfl

theorem failIf_pass {c : Prop} [Decidable c] {e : ε} {r : ρ} {s : σ} (h : ¬ c) :
    (failIf c e : Exec ρ σ ε Unit).run r s = (.ok (), s) := if_neg h

theorem failIf_fail {c : Prop} [Decidable c] {e : ε} {r : ρ} {s : σ} (h : c) :
    (failIf c e : Exec ρ σ ε Unit).run r s = (.err e, s) := if_pos h

theorem run_bind_of_err {m : Exec ρ σ ε α} {f : α → Exec ρ σ ε β} {r : ρ} {s s' : σ} {e : ε}
    (h : m.run r s = (.err e, s')) : (m >>= f).run r s = (.err e, s') := by
  rw [run_bind, h]

theorem run_bind_of_panic {m : Exec ρ σ ε α} {f : α → Exec ρ σ ε β} {r : ρ} {s s' : σ}
    (h : m.run r s = (.panic, s')) : (m >>= f).run r s = (.panic, s') := by
  rw [run_bind, h]

/-- A block that returns a value went through its first statement. -/
theorem run_bind_ok {m : Exec ρ σ ε α} {f : α → Exec ρ σ ε β} {r : ρ} {s s' : σ} {b : β}
    (h : (m >>= f).run r s = (.ok b, s')) :
    ∃ a s₁, m.run r s = (.ok a, s₁) ∧ (f a).run r s₁ = (.ok b, s') := by
  rw [run_bind] at h
  split at h
  · next a s₁ heq => exact ⟨a, s₁, heq, h⟩
  · cases h
  · cases h

/-! ### Postconditions -/

/-- Run from `s`, `m` ends with an outcome and a state related by `Q`. -/
def Ends (m : Exec ρ σ ε α) (r : ρ) (s : σ) (Q : Outcome ε α → σ → Prop) : Prop :=
  Q (m.run r s).1 (m.run r s).2

namespace Ends
variable {m : Exec ρ σ ε α} {f : α → Exec ρ σ ε β} {r : ρ} {s s' : σ}
  {P : Outcome ε α → σ → Prop} {Q : Outcome ε β → σ → Prop}

theorem of_run {o : Outcome ε α} (h : m.run r s = (o, s')) (hP : P o s') : m.Ends r s P := by
  unfold Ends; rw [h]; exact hP

theorem of_run_eq {m' : Exec ρ σ ε α} (h : m.run r s = m'.run r s') (hP : m'.Ends r s' P) : m.Ends r s P := by
  unfold Ends; rw [h]; exact hP

theorem elim {o : Outcome ε α} (h : m.Ends r s P) (hrun : m.run r s = (o, s')) : P o s' := by
  unfold Ends at h; rw [hrun] at h; exact h

theorem mono {P' : Outcome ε α → σ → Prop} (h : m.Ends r s P) (hP : ∀ o t, P o t → P' o t) :
    m.Ends r s P' := hP _ _ h

theorem and {P' : Outcome ε α → σ → Prop} (h : m.Ends r s P) (h' : m.Ends r s P') :
    m.Ends r s fun o t => P o t ∧ P' o t := ⟨h, h'⟩

/-- The run itself, as a postcondition: what `o` and `t` are. -/
theorem self : m.Ends r s fun o t => m.run r s = (o, t) := rfl

theorem pure {a : β} (h : Q (.ok a) s) : (Pure.pure a : Exec ρ σ ε β).Ends r s Q := h

theorem fail {e : ε} (h : Q (.err e) s) : (Exec.fail e : Exec ρ σ ε β).Ends r s Q := h

theorem bind (h : m.Ends r s P) (hok : ∀ a t, P (.ok a) t → (f a).Ends r t Q)
    (herr : ∀ e t, P (.err e) t → Q (.err e) t) (hpanic : ∀ t, P .panic t → Q .panic t) :
    (m >>= f).Ends r s Q := by
  unfold Ends at *
  rw [run_bind]
  rcases hm : m.run r s with ⟨o, t⟩
  rw [hm] at h
  cases o with
  | ok a => exact hok a t h
  | err e => exact herr e t h
  | panic => exact hpanic t h

/-- What the first statement leaves and the rest keeps holds however the block ends. -/
theorem bind_keeps {R : σ → Prop} (h : m.Ends r s fun _ t => R t)
    (hk : ∀ a t, R t → (f a).Ends r t fun _ u => R u) : (m >>= f).Ends r s fun _ u => R u :=
  bind h hk (fun _ _ h => h) fun _ h => h

theorem attempt_keeps {R : σ → Prop} (h : m.Ends r s fun _ t => R t) : (attempt m).Ends r s fun _ t => R t := by
  unfold Ends at *
  simp only [run, attempt] at h ⊢
  rcases hm : m r s with ⟨o, t⟩
  rw [hm] at h
  cases o with
  | ok a => exact h
  | err e => exact h
  | panic => exact h

/-- A first statement that is known to return goes through. -/
theorem bind_run {a : α} (h : m.run r s = (.ok a, s')) (hk : (f a).Ends r s' Q) : (m >>= f).Ends r s Q := by
  unfold Ends
  rw [run_bind, h]
  exact hk

/-- The last statement maps the result. -/
theorem bind_pure {g : α → β} (h : m.Ends r s fun o t => Q (o.map g) t) :
    (m >>= fun a => Pure.pure (g a)).Ends r s Q :=
  bind h (fun _ _ h => h) (fun _ _ h => h) fun _ h => h

theorem bind_get {g : σ → Exec ρ σ ε β} (h : (g s).Ends r s Q) : (Exec.get >>= g).Ends r s Q := h

theorem bind_modify {g : σ → σ} {k : Unit → Exec ρ σ ε β} (h : (k ()).Ends r (g s) Q) :
    (Exec.modify g >>= k).Ends r s Q := h

theorem of_lift {x : Except ε β} (hok : ∀ a, x = .ok a → Q (.ok a) s) (herr : ∀ e, x = .error e → Q (.err e) s) :
    (Exec.lift x : Exec ρ σ ε β).Ends r s Q := by
  cases x with
  | ok a => exact hok a rfl
  | error e => exact herr e rfl

theorem bind_lift {x : Except ε α} (hok : ∀ a, x = .ok a → (f a).Ends r s Q)
    (herr : ∀ e, x = .error e → Q (.err e) s) : (Exec.lift x >>= f).Ends r s Q := by
  cases x with
  | ok a => exact hok a rfl
  | error e => exact herr e rfl

theorem bind_okOr {x : Option α} {e : ε} (hsome : ∀ a, x = some a → (f a).Ends r s Q)
    (hnone : x = none → Q (.err e) s) : (Exec.okOr x e >>= f).Ends r s Q := by
  cases x with
  | some a => exact hsome a rfl
  | none => exact hnone rfl

theorem bind_failIf {c : Prop} [Decidable c] {e : ε} {k : Unit → Exec ρ σ ε β}
    (hpass : ¬ c → (k ()).Ends r s Q) (hfail : c → Q (.err e) s) : (Exec.failIf c e >>= k).Ends r s Q := by
  unfold Ends
  rw [run_bind]
  by_cases hc : c
  · simp only [run, Exec.failIf, hc, ↓reduceIte]; exact hfail hc
  · simp only [run, Exec.failIf, hc, ↓reduceIte]; exact hpass hc

/-- A caught error goes on like a value. -/
theorem bind_attempt {f : Except ε α → Exec ρ σ ε β} (h : m.Ends r s P)
    (hok : ∀ a t, P (.ok a) t → (f (.ok a)).Ends r t Q) (herr : ∀ e t, P (.err e) t → (f (.error e)).Ends r t Q)
    (hpanic : ∀ t, P .panic t → Q .panic t) : (attempt m >>= f).Ends r s Q := by
  unfold Ends at *
  rw [run_bind]
  simp only [run, attempt] at h ⊢
  rcases hm : m r s with ⟨o, t⟩
  rw [hm] at h
  cases o with
  | ok a => exact hok a t h
  | err e => exact herr e t h
  | panic => exact hpanic t h

theorem zoom {ρ' σ' : Type} {view : ρ → σ → ρ'} {part : σ → σ'} {put : σ → σ' → σ} {m : Exec ρ' σ' ε α}
    {P : Outcome ε α → σ' → Prop} (h : m.Ends (view r s) (part s) P) :
    (Exec.zoom view part put m).Ends r s fun o t => ∃ u, P o u ∧ t = put s u :=
  ⟨_, h, rfl⟩

end Ends

/-! ### What is left alone -/

/-- However it ends, `m` leaves what `view` sees of the state. -/
def Leaves {τ : Type} (view : σ → τ) (m : Exec ρ σ ε α) : Prop := ∀ r s, view (m.run r s).2 = view s

namespace Leaves
variable {τ : Type} {view : σ → τ} {m : Exec ρ σ ε α} {f : α → Exec ρ σ ε β}

theorem ends (h : Leaves view m) (r : ρ) (s : σ) : m.Ends r s fun _ t => view t = view s := h r s

theorem elim {r : ρ} {s t : σ} {o : Outcome ε α} (h : Leaves view m) (hrun : m.run r s = (o, t)) : view t = view s :=
  Ends.elim (h.ends r s) hrun

theorem pure (a : α) : Leaves view (Pure.pure a : Exec ρ σ ε α) := fun _ _ => rfl

theorem fail (e : ε) : Leaves view (Exec.fail e : Exec ρ σ ε α) := fun _ _ => rfl

theorem get : Leaves view (Exec.get : Exec ρ σ ε σ) := fun _ _ => rfl

theorem modify {g : σ → σ} (h : ∀ s, view (g s) = view s) : Leaves view (Exec.modify g : Exec ρ σ ε Unit) := fun _ s => h s

theorem lift (x : Except ε α) : Leaves view (Exec.lift x : Exec ρ σ ε α) :=
  fun _ s => Ends.of_lift (Q := fun _ t => view t = view s) (fun _ _ => rfl) fun _ _ => rfl

theorem okOr (x : Option α) (e : ε) : Leaves view (Exec.okOr x e : Exec ρ σ ε α) := by
  intro r s
  cases x with
  | none => rfl
  | some a => rfl

theorem failIf (c : Prop) [Decidable c] (e : ε) : Leaves view (Exec.failIf c e : Exec ρ σ ε Unit) := by
  intro r s
  simp only [run, Exec.failIf]
  split_ifs <;> rfl

theorem bind (hm : Leaves view m) (hf : ∀ a, Leaves view (f a)) : Leaves view (m >>= f) := by
  intro r s
  exact Ends.bind_keeps (R := fun t => view t = view s) (hm r s) fun a t ht => (hf a r t).trans ht

theorem attempt (hm : Leaves view m) : Leaves view (Exec.attempt m) :=
  fun r s => Ends.attempt_keeps (R := fun t => view t = view s) (hm r s)

theorem zoom {ρ' σ' : Type} {look : ρ → σ → ρ'} {part : σ → σ'} {put : σ → σ' → σ} {m : Exec ρ' σ' ε α}
    (h : ∀ s u, view (put s u) = view s) : Leaves view (Exec.zoom look part put m) := fun _ s => h s _

/-- The first statement of a block leaves the view. -/
theorem bind_ends {r : ρ} {s : σ} {Q : Outcome ε β → σ → Prop} (hm : Leaves view m)
    (hok : ∀ a t, view t = view s → (f a).Ends r t Q) (herr : ∀ e t, view t = view s → Q (.err e) t)
    (hpanic : ∀ t, view t = view s → Q .panic t) : (m >>= f).Ends r s Q :=
  Ends.bind (hm.ends r s) hok herr hpanic

end Leaves

/-! ### Success -/

/-- Run from `s`, `m` returns a value. -/
def Succeeds (m : Exec ρ σ ε α) (r : ρ) (s : σ) : Prop := ∃ a t, m.run r s = (.ok a, t)

section succeeds
variable {m : Exec ρ σ ε α} {f : α → Exec ρ σ ε β} {r : ρ} {s : σ}

theorem succeeds_bind : (m >>= f).Succeeds r s ↔ ∃ a t, m.run r s = (.ok a, t) ∧ (f a).Succeeds r t := by
  constructor
  · rintro ⟨b, s', h⟩
    obtain ⟨a, t, hm, hf⟩ := run_bind_ok h
    exact ⟨a, t, hm, b, s', hf⟩
  · rintro ⟨a, t, hm, b, s', hf⟩
    exact ⟨b, s', by rw [run_bind, hm]; exact hf⟩

theorem succeeds_pure (b : β) : (Pure.pure b : Exec ρ σ ε β).Succeeds r s := ⟨b, s, rfl⟩

theorem succeeds_bind_get {g : σ → Exec ρ σ ε β} : (get >>= g).Succeeds r s ↔ (g s).Succeeds r s := Iff.rfl

theorem succeeds_lift {x : Except ε β} : (lift x : Exec ρ σ ε β).Succeeds r s ↔ ∃ b, x = .ok b := by
  cases x with
  | ok b => exact iff_of_true ⟨b, s, rfl⟩ ⟨b, rfl⟩
  | error e => exact iff_of_false (by rintro ⟨b, t, h⟩; cases h) (by rintro ⟨b, h⟩; cases h)

theorem succeeds_bind_lift {x : Except ε α} :
    (lift x >>= f).Succeeds r s ↔ ∃ a, x = .ok a ∧ (f a).Succeeds r s := by
  cases x with
  | ok a => exact ⟨fun h => ⟨a, rfl, h⟩, by rintro ⟨a', h, hf⟩; cases h; exact hf⟩
  | error e => exact iff_of_false (by rintro ⟨b, t, h⟩; cases h) (by rintro ⟨a, h, -⟩; cases h)

theorem succeeds_bind_okOr {x : Option α} {e : ε} :
    (okOr x e >>= f).Succeeds r s ↔ ∃ a, x = some a ∧ (f a).Succeeds r s := by
  cases x with
  | some a => exact ⟨fun h => ⟨a, rfl, h⟩, by rintro ⟨a', h, hf⟩; cases h; exact hf⟩
  | none => exact iff_of_false (by rintro ⟨b, t, h⟩; cases h) (by rintro ⟨a, h, -⟩; cases h)

theorem succeeds_bind_failIf {c : Prop} [Decidable c] {e : ε} {k : Unit → Exec ρ σ ε β} :
    (failIf c e >>= k).Succeeds r s ↔ ¬ c ∧ (k ()).Succeeds r s := by
  unfold Succeeds
  rw [run_bind]
  by_cases hc : c
  · simp [run, failIf, hc]
  · simp [run, failIf, hc]

theorem Ends.of_succeeds {Q : Outcome ε α → σ → Prop} (h : m.Ends r s Q) (hs : m.Succeeds r s) :
    ∃ a t, m.run r s = (.ok a, t) ∧ Q (.ok a) t := by
  obtain ⟨a, t, hrun⟩ := hs
  exact ⟨a, t, hrun, h.elim hrun⟩

end succeeds

end Exec
