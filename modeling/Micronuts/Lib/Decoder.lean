import Mathlib.Data.List.Basic
import Mathlib.Order.Nat

/-!
# Decoders

A decoder takes tokens off the front of its input and returns a value, or fails. `times` repeats one a fixed number of
times, `untilStop` until a test says stop. The second is on fuel; when no round gives tokens back and each takes one at
least, more fuel than there are tokens changes nothing (`untilStop_fuel`). `Reads d bs a`: on `bs` and whatever follows,
`d` returns `a` and leaves what follows.
-/

abbrev Decoder (τ α : Type) := StateT (List τ) Option α

namespace Decoder
variable {τ σ α β : Type}

def times (step : σ → Decoder τ σ) : Nat → σ → Decoder τ σ
  | 0, acc => pure acc
  | n + 1, acc => do
    let acc ← step acc
    times step n acc

def untilStop (stop : Decoder τ Bool) (step : σ → Decoder τ σ) : Nat → σ → Decoder τ σ
  | 0, _ => failure
  | fuel + 1, acc => do
    let stopped ← stop
    if stopped then pure acc
    else do
      let acc ← step acc
      untilStop stop step fuel acc

/-- `untilStop` with fuel for every token of the input. -/
def loop (stop : Decoder τ Bool) (step : σ → Decoder τ σ) (acc : σ) : Decoder τ σ :=
  fun input => untilStop stop step (input.length + 1) acc input

/-! ### What is left of the input -/

/-- The decoder gives nothing back. -/
def Shrinks (d : Decoder τ α) : Prop := ∀ input a rest, d input = some (a, rest) → rest.length ≤ input.length

/-- The decoder takes a token at least. -/
def Consumes (d : Decoder τ α) : Prop := ∀ input a rest, d input = some (a, rest) → rest.length < input.length

theorem run_bind_eq_some {d : Decoder τ α} {f : α → Decoder τ β} {input rest : List τ} {b : β} :
    (d >>= f) input = some (b, rest) ↔ ∃ a mid, d input = some (a, mid) ∧ f a mid = some (b, rest) := by
  show (d input).bind (fun p => f p.1 p.2) = _ ↔ _
  rw [Option.bind_eq_some_iff]
  exact ⟨fun ⟨⟨a, mid⟩, hd, hf⟩ => ⟨a, mid, hd, hf⟩, fun ⟨a, mid, hd, hf⟩ => ⟨⟨a, mid⟩, hd, hf⟩⟩

theorem Consumes.shrinks {d : Decoder τ α} (h : Consumes d) : Shrinks d := fun _ _ _ hd => (h _ _ _ hd).le

theorem Shrinks.pure (a : α) : Shrinks (Pure.pure a : Decoder τ α) := by
  intro input b rest h
  cases h
  exact le_refl _

theorem Shrinks.failure : Shrinks (failure : Decoder τ α) := by
  intro input a rest h
  cases h

theorem Shrinks.bind {d : Decoder τ α} {f : α → Decoder τ β} (hd : Shrinks d) (hf : ∀ a, Shrinks (f a)) :
    Shrinks (d >>= f) := by
  intro input b rest h
  obtain ⟨a, mid, hmid, hrest⟩ := run_bind_eq_some.1 h
  exact (hf a _ _ _ hrest).trans (hd _ _ _ hmid)

/-- The first decoder of a block takes a token, and the rest gives none back. -/
theorem Consumes.bind {d : Decoder τ α} {f : α → Decoder τ β} (hd : Consumes d) (hf : ∀ a, Shrinks (f a)) :
    Consumes (d >>= f) := by
  intro input b rest h
  obtain ⟨a, mid, hmid, hrest⟩ := run_bind_eq_some.1 h
  exact (hf a _ _ _ hrest).trans_lt (hd _ _ _ hmid)

theorem Shrinks.times {step : σ → Decoder τ σ} (hstep : ∀ acc, Shrinks (step acc)) (n : Nat) (acc : σ) :
    Shrinks (times step n acc) := by
  induction n generalizing acc with
  | zero => exact .pure acc
  | succ n ih => exact (hstep acc).bind ih

theorem Shrinks.untilStop {stop : Decoder τ Bool} {step : σ → Decoder τ σ} (hstop : Shrinks stop)
    (hstep : ∀ acc, Shrinks (step acc)) (fuel : Nat) (acc : σ) : Shrinks (untilStop stop step fuel acc) := by
  induction fuel generalizing acc with
  | zero => exact .failure
  | succ fuel ih =>
    refine hstop.bind fun stopped => ?_
    cases stopped with
    | true => exact .pure acc
    | false => exact (hstep acc).bind ih

theorem Shrinks.loop {stop : Decoder τ Bool} {step : σ → Decoder τ σ} (hstop : Shrinks stop)
    (hstep : ∀ acc, Shrinks (step acc)) (acc : σ) : Shrinks (loop stop step acc) :=
  fun input => Shrinks.untilStop hstop hstep (input.length + 1) acc input

theorem untilStop_fuel {stop : Decoder τ Bool} {step : σ → Decoder τ σ} (hstop : Shrinks stop)
    (hstep : ∀ acc, Consumes (step acc)) {n m : Nat} {input : List τ} (hn : input.length < n) (hm : input.length < m)
    (acc : σ) : untilStop stop step n acc input = untilStop stop step m acc input := by
  induction n generalizing m acc input with
  | zero => omega
  | succ n ih =>
    obtain ⟨m, rfl⟩ : ∃ k, m = k + 1 := ⟨m - 1, by omega⟩
    show (stop input).bind _ = (stop input).bind _
    rcases hs : stop input with - | ⟨stopped, mid⟩
    · rfl
    · have hmid := hstop _ _ _ hs
      cases stopped with
      | true => rfl
      | false =>
        show (step acc mid).bind _ = (step acc mid).bind _
        rcases hr : step acc mid with - | ⟨acc', rest⟩
        · rfl
        · have hrest := hstep _ _ _ _ hr
          exact ih (by omega) (by omega) acc'

/-- Any fuel beyond the length of the input will do. -/
theorem loop_eq_untilStop {stop : Decoder τ Bool} {step : σ → Decoder τ σ} (hstop : Shrinks stop)
    (hstep : ∀ acc, Consumes (step acc)) {n : Nat} {input : List τ} (hn : input.length < n) (acc : σ) :
    loop stop step acc input = untilStop stop step n acc input :=
  untilStop_fuel hstop hstep (Nat.lt_succ_self _) hn acc

/-! ### What a decoder returns -/

/-- Whatever the decoder returns has the property. -/
def Yields (d : Decoder τ α) (P : α → Prop) : Prop := ∀ input a rest, d input = some (a, rest) → P a

namespace Yields
variable {P : α → Prop} {Q : β → Prop} {I : σ → Prop} {step : σ → Decoder τ σ}

theorem pure {a : α} (h : P a) : Yields (Pure.pure a : Decoder τ α) P := by
  intro input b rest heq
  cases heq
  exact h

theorem failure : Yields (failure : Decoder τ α) P := by
  intro input a rest h
  cases h

theorem lift {o : Option α} (h : ∀ a, o = some a → P a) : Yields (o : Decoder τ α) P := by
  intro input a rest heq
  cases o with
  | none => cases heq
  | some b =>
    cases heq
    exact h _ rfl

theorem bind {d : Decoder τ α} {f : α → Decoder τ β} (hd : Yields d P) (hf : ∀ a, P a → Yields (f a) Q) :
    Yields (d >>= f) Q := by
  intro input b rest h
  obtain ⟨a, mid, hmid, hrest⟩ := run_bind_eq_some.1 h
  exact hf a (hd _ _ _ hmid) _ _ _ hrest

/-- The property comes from the rest of the block alone. -/
theorem of_rest {d : Decoder τ α} {f : α → Decoder τ β} (hf : ∀ a, Yields (f a) Q) : Yields (d >>= f) Q :=
  bind (P := fun _ => True) (fun _ _ _ _ => trivial) fun a _ => hf a

theorem times (hstep : ∀ acc, I acc → Yields (step acc) I) (n : Nat) {acc : σ} (h : I acc) : Yields (times step n acc) I := by
  induction n generalizing acc with
  | zero => exact .pure h
  | succ n ih => exact (hstep acc h).bind fun _ => ih

theorem untilStop {stop : Decoder τ Bool} (hstep : ∀ acc, I acc → Yields (step acc) I) (fuel : Nat) {acc : σ} (h : I acc) :
    Yields (untilStop stop step fuel acc) I := by
  induction fuel generalizing acc with
  | zero => exact .failure
  | succ fuel ih =>
    refine of_rest fun stopped => ?_
    cases stopped with
    | true => exact .pure h
    | false => exact (hstep acc h).bind fun _ => ih

theorem loop {stop : Decoder τ Bool} (hstep : ∀ acc, I acc → Yields (step acc) I) {acc : σ} (h : I acc) :
    Yields (loop stop step acc) I :=
  fun input => untilStop hstep (input.length + 1) h input

end Yields

/-! ### What an encoder has written -/

/-- The decoder takes these tokens, and no more, for this value. -/
def Reads (d : Decoder τ α) (bs : List τ) (a : α) : Prop := ∀ rest, d (bs ++ rest) = some (a, rest)

namespace Reads
variable {d : Decoder τ α} {a : α} {bs cs : List τ}

theorem run (h : Reads d bs a) : d bs = some (a, []) := by
  have := h []
  rwa [List.append_nil] at this

theorem pure (a : α) : Reads (Pure.pure a : Decoder τ α) [] a := fun _ => rfl

theorem lift {o : Option α} (h : o = some a) : Reads (o : Decoder τ α) [] a := by
  intro rest
  rw [h]
  rfl

theorem bind {f : α → Decoder τ β} {b : β} (ha : Reads d bs a) (hb : Reads (f a) cs b) : Reads (d >>= f) (bs ++ cs) b := by
  intro rest
  rw [List.append_assoc]
  exact run_bind_eq_some.2 ⟨a, cs ++ rest, ha _, hb rest⟩

/-- The decoder takes all there is, and the rest of the block nothing. -/
theorem bind_pure {f : α → Decoder τ β} {b : β} (ha : Reads d bs a) (hb : Reads (f a) [] b) : Reads (d >>= f) bs b := by
  have h := ha.bind hb
  rwa [List.append_nil] at h

theorem pure_bind {f : α → Decoder τ β} {b : β} (ha : Reads d [] a) (hb : Reads (f a) bs b) : Reads (d >>= f) bs b := by
  have h := ha.bind hb
  rwa [List.nil_append] at h

theorem times_zero (step : σ → Decoder τ σ) (acc : σ) : Reads (times step 0 acc) [] acc := fun _ => rfl

theorem times_succ {step : σ → Decoder τ σ} {n : Nat} {acc mid out : σ} (hstep : Reads (step acc) bs mid)
    (hrest : Reads (times step n mid) cs out) : Reads (times step (n + 1) acc) (bs ++ cs) out :=
  hstep.bind hrest

end Reads

end Decoder
