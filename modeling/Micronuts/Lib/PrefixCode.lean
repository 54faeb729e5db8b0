import Mathlib.Data.List.Basic

/-!
# Prefix codes

A word of a prefix code ends where its own entries say, whatever follows it. Put side by side, words of prefix codes
are words of one again (`PrefixCode.append`), and a concatenation of words is read back word by word, up to a rest
that no word begins like (`PrefixCode.flatMap`).
-/

/-- The words of the values in `S` can be split off the front of a text in one way only. -/
def PrefixCode {α β : Type} (S : α → Prop) (enc : α → List β) : Prop :=
  ∀ a b x y, S a → S b → enc a ++ x = enc b ++ y → a = b ∧ x = y

/-- Every word begins with an entry in `P`. -/
def BeginsIn {α β : Type} (S : α → Prop) (enc : α → List β) (P : β → Prop) : Prop :=
  ∀ a, S a → ∃ c ∈ (enc a).head?, P c

/-- A text that does not begin with an entry in `P`. -/
def Stops {β : Type} (P : β → Prop) (x : List β) : Prop := ∀ c ∈ x.head?, ¬ P c

theorem stops_nil {β : Type} (P : β → Prop) : Stops P [] := by
  intro c hc; simp at hc

/-- Two texts in `P`, each followed by one that does not begin in `P`. -/
theorem append_inj_of_stops {β : Type} {P : β → Prop} {l l' u v : List β} (hl : ∀ c ∈ l, P c) (hl' : ∀ c ∈ l', P c)
    (hu : Stops P u) (hv : Stops P v) (h : l ++ u = l' ++ v) : l = l' ∧ u = v := by
  induction l generalizing l' with
  | nil =>
    cases l' with
    | nil => exact ⟨rfl, h⟩
    | cons c l' =>
      obtain rfl : u = c :: (l' ++ v) := h
      exact absurd (hl' c (List.mem_cons_self ..)) (hu c rfl)
  | cons c l ih =>
    cases l' with
    | nil =>
      obtain rfl : c :: (l ++ u) = v := h
      exact absurd (hl c (List.mem_cons_self ..)) (hv c rfl)
    | cons c' l' =>
      rw [List.cons_append, List.cons_append, List.cons.injEq] at h
      obtain ⟨rfl, h⟩ := h
      obtain ⟨rfl, huv⟩ := ih (fun a ha => hl a (List.mem_cons_of_mem _ ha))
        (fun a ha => hl' a (List.mem_cons_of_mem _ ha)) h
      exact ⟨rfl, huv⟩

theorem BeginsIn.stops {α β : Type} {S : α → Prop} {enc : α → List β} {P Q : β → Prop} (h : BeginsIn S enc P)
    (hPQ : ∀ c, P c → ¬ Q c) {a : α} (ha : S a) (x : List β) : Stops Q (enc a ++ x) := by
  obtain ⟨c, hc, hP⟩ := h a ha
  intro c' hc'
  rw [List.head?_append, Option.mem_def.1 hc] at hc'
  obtain rfl : c = c' := by simpa using hc'
  exact hPQ c hP

/-- A list of words, and a text after it, where none of them begins in `Q`. -/
theorem BeginsIn.stops_flatMap {α β : Type} {S : α → Prop} {enc : α → List β} {P Q : β → Prop} (h : BeginsIn S enc P)
    (hPQ : ∀ c, P c → ¬ Q c) {as : List α} (has : ∀ a ∈ as, S a) {x : List β} (hx : Stops Q x) :
    Stops Q (as.flatMap enc ++ x) := by
  cases as with
  | nil => exact hx
  | cons a as =>
    rw [List.flatMap_cons, List.append_assoc]
    exact h.stops hPQ (has a (List.mem_cons_self ..)) _

namespace PrefixCode
variable {α α' β : Type} {S : α → Prop} {S' : α' → Prop} {enc : α → List β} {enc' : α' → List β} {P : β → Prop}

theorem injective (h : PrefixCode S enc) {a b : α} (ha : S a) (hb : S b) (heq : enc a = enc b) : a = b :=
  (h a b [] [] ha hb (by rw [heq])).1

/-- Words of one length. -/
theorem of_length {n : Nat} (hlen : ∀ a, S a → (enc a).length = n)
    (hinj : ∀ a b, S a → S b → enc a = enc b → a = b) : PrefixCode S enc := by
  intro a b x y ha hb h
  obtain ⟨hab, hxy⟩ := List.append_inj h ((hlen a ha).trans (hlen b hb).symm)
  exact ⟨hinj a b ha hb hab, hxy⟩

theorem append (h : PrefixCode S enc) (h' : PrefixCode S' enc') :
    PrefixCode (fun p : α × α' => S p.1 ∧ S' p.2) fun p => enc p.1 ++ enc' p.2 := by
  rintro ⟨a, a'⟩ ⟨b, b'⟩ x y ⟨ha, ha'⟩ ⟨hb, hb'⟩ heq
  simp only [List.append_assoc] at heq
  obtain ⟨rfl, hrest⟩ := h a b _ _ ha hb heq
  obtain ⟨rfl, hxy⟩ := h' a' b' x y ha' hb' hrest
  exact ⟨rfl, hxy⟩

/-- A first part in `P` ends where a second part begins that does not begin in `P`. -/
theorem append_of_stops (hall : ∀ a, S a → ∀ c ∈ enc a, P c) (hinj : ∀ a b, S a → S b → enc a = enc b → a = b)
    (h' : PrefixCode S' enc') (hbegin : BeginsIn S' enc' fun c => ¬ P c) :
    PrefixCode (fun p : α × α' => S p.1 ∧ S' p.2) fun p => enc p.1 ++ enc' p.2 := by
  rintro ⟨a, a'⟩ ⟨b, b'⟩ x y ⟨ha, ha'⟩ ⟨hb, hb'⟩ heq
  simp only [List.append_assoc] at heq
  obtain ⟨hab, hrest⟩ := append_inj_of_stops (hall a ha) (hall b hb)
    (hbegin.stops (fun _ h => h) ha' x) (hbegin.stops (fun _ h => h) hb' y) heq
  obtain ⟨rfl, hxy⟩ := h' a' b' x y ha' hb' hrest
  exact ⟨Prod.ext (hinj a b ha hb hab) rfl, hxy⟩

/-- A list of words is read back, and what follows it. -/
theorem flatMap (h : PrefixCode S enc) (hbegin : BeginsIn S enc P) {as bs : List α} {x y : List β}
    (has : ∀ a ∈ as, S a) (hbs : ∀ b ∈ bs, S b) (hx : Stops P x) (hy : Stops P y)
    (heq : as.flatMap enc ++ x = bs.flatMap enc ++ y) : as = bs ∧ x = y := by
  -- a rest that stops does not begin like a word
  have hstop : ∀ {a : α} {u v : List β}, S a → Stops P v → enc a ++ u ≠ v := by
    rintro a u v ha hv rfl
    obtain ⟨c, hc, hP⟩ := hbegin a ha
    exact hv c (by rw [List.head?_append, Option.mem_def.1 hc]; rfl) hP
  induction as generalizing bs with
  | nil =>
    cases bs with
    | nil => exact ⟨rfl, heq⟩
    | cons b bs =>
      rw [List.flatMap_cons, List.append_assoc] at heq
      exact absurd heq.symm (hstop (hbs b (by simp)) hx)
  | cons a as ih =>
    cases bs with
    | nil =>
      rw [List.flatMap_cons, List.append_assoc] at heq
      exact absurd heq (hstop (has a (by simp)) hy)
    | cons b bs =>
      rw [List.flatMap_cons, List.flatMap_cons, List.append_assoc, List.append_assoc] at heq
      obtain ⟨rfl, hrest⟩ := h a b _ _ (has a (by simp)) (hbs b (by simp)) heq
      obtain ⟨rfl, hxy⟩ := ih (fun c hc => has c (List.mem_cons_of_mem _ hc))
        (fun c hc => hbs c (List.mem_cons_of_mem _ hc)) hrest
      exact ⟨rfl, hxy⟩

end PrefixCode
