import Micronuts.Audit.CachedPost

/-!
# Identical requests are answered alike

While look-ups miss alone, a key has at most one open request, and none once it is in the cache. So the mint runs it with
success once, and what is answered first is answered from then on. When two requests miss together, both go to the mint.
-/

namespace Micronuts

section
variable [Crypto] [SerdeJson]

namespace AdapterState

/-- The entry `i` of the requests is open, under the key `k`. -/
def OpenAt (s : AdapterState) (i : Nat) (k : String) : Prop :=
  ∃ post phase, s.posts[i]? = some (post, phase) ∧ post.key = k ∧ phase.open = true

def UnstoredAt (s : AdapterState) (i : Nat) (k : String) : Prop :=
  ∃ post phase, s.posts[i]? = some (post, phase) ∧ post.key = k ∧ phase.unstored = true

structure Repeats (s : AdapterState) : Prop where
  alone : ∀ i j k, s.OpenAt i k → s.OpenAt j k → i = j
  uncached : ∀ i k, s.OpenAt i k → s.nut19Cache.lookup k = none
  served : ∀ k ∈ s.served, (s.nut19Cache.lookup k).isSome = true ∨ ∃ i, s.UnstoredAt i k
  once : s.served.Nodup
  cached : ∀ a ∈ s.answers, ∀ v, a.2 = .ok v → s.nut19Cache.lookup a.1 = some v
  repeated : s.answers.Pairwise fun a b => a.1 = b.1 → ∀ v, a.2 = .ok v → b.2 = .ok v

variable {s s' : AdapterState} {i j : Nat} {k : String} {post : Post} {φ ψ : PostPhase}

/-! ### What is open after a move -/

theorem UnstoredAt.openAt (h : s.UnstoredAt i k) : s.OpenAt i k := by
  obtain ⟨post, phase, hi, hk, hphase⟩ := h
  refine ⟨post, phase, hi, hk, ?_⟩
  cases phase <;> first | rfl | cases hphase

omit [SerdeJson] in
/-- The entry that has moved, and those that have not. -/
theorem posts_move (at_i : s.posts[i]? = some (post, φ)) (j : Nat) :
    (s.move i post ψ).posts[j]? = if i = j then some (post, ψ) else s.posts[j]? := by
  have hlt : i < s.posts.length := (List.getElem?_eq_some_iff.1 at_i).1
  rw [move, List.getElem?_set]
  by_cases hij : i = j
  · rw [if_pos hij, if_pos hij, if_pos hlt]
  · rw [if_neg hij, if_neg hij]

theorem OpenAt.of_move (at_i : s.posts[i]? = some (post, φ)) (h : (s.move i post ψ).OpenAt j k) :
    (i = j ∧ post.key = k ∧ ψ.open = true) ∨ (i ≠ j ∧ s.OpenAt j k) := by
  obtain ⟨post', phase, hj, hk, hphase⟩ := h
  rw [posts_move at_i] at hj
  by_cases hij : i = j
  · rw [if_pos hij] at hj
    cases hj
    exact .inl ⟨hij, hk, hphase⟩
  · rw [if_neg hij] at hj
    exact .inr ⟨hij, post', phase, hj, hk, hphase⟩

/-- A move that opens nothing. -/
theorem OpenAt.of_move_closing (at_i : s.posts[i]? = some (post, φ)) (hopen : ψ.open = true → φ.open = true)
    (h : (s.move i post ψ).OpenAt j k) : s.OpenAt j k := by
  rcases h.of_move at_i with ⟨rfl, hk, hψ⟩ | ⟨-, hj⟩
  · exact ⟨post, φ, at_i, hk, hopen hψ⟩
  · exact hj

theorem UnstoredAt.move (at_i : s.posts[i]? = some (post, φ)) (hkeeps : φ.unstored = true → ψ.unstored = true)
    (h : s.UnstoredAt j k) : (s.move i post ψ).UnstoredAt j k := by
  obtain ⟨post', phase, hj, hk, hphase⟩ := h
  by_cases hij : i = j
  · subst hij
    rw [at_i] at hj
    cases hj
    exact ⟨post, ψ, by rw [posts_move at_i, if_pos rfl], hk, hkeeps hphase⟩
  · exact ⟨post', phase, by rw [posts_move at_i, if_neg hij, hj], hk, hphase⟩

/-! ### What keeps the invariant -/

theorem Repeats.move (h : s.Repeats) (at_i : s.posts[i]? = some (post, φ)) (hopen : ψ.open = true → φ.open = true)
    (hkeeps : φ.unstored = true → ψ.unstored = true) : (s.move i post ψ).Repeats where
  alone j₁ j₂ k h₁ h₂ := h.alone j₁ j₂ k (h₁.of_move_closing at_i hopen) (h₂.of_move_closing at_i hopen)
  uncached j k hj := h.uncached j k (hj.of_move_closing at_i hopen)
  served k hk := by
    rcases h.served k hk with hcached | ⟨j, hj⟩
    · exact .inl hcached
    · exact .inr ⟨j, hj.move at_i hkeeps⟩
  once := h.once
  cached := h.cached
  repeated := h.repeated

/-- A miss, when nothing else is open under the key. -/
theorem Repeats.miss (h : s.Repeats) (at_i : s.posts[i]? = some (post, .arrived))
    (notFound : s.nut19Cache.lookup post.key = none) (halone : ∀ j, ¬ s.OpenAt j post.key) :
    (s.move i post .missed).Repeats where
  alone j₁ j₂ k h₁ h₂ := by
    rcases h₁.of_move at_i with ⟨rfl, rfl, -⟩ | ⟨-, h₁⟩ <;> rcases h₂.of_move at_i with ⟨rfl, hk, -⟩ | ⟨-, h₂⟩
    · rfl
    · exact absurd h₂ (halone j₂)
    · rw [← hk] at h₁
      exact absurd h₁ (halone j₁)
    · exact h.alone j₁ j₂ k h₁ h₂
  uncached j k hj := by
    rcases hj.of_move at_i with ⟨-, rfl, -⟩ | ⟨-, hj⟩
    · exact notFound
    · exact h.uncached j k hj
  served k hk := by
    rcases h.served k hk with hcached | ⟨j, hj⟩
    · exact .inl hcached
    · exact .inr ⟨j, hj.move at_i nofun⟩
  once := h.once
  cached := h.cached
  repeated := h.repeated

/-- An answer that is what the cache holds, if it holds anything. -/
theorem Repeats.tell (h : s.Repeats) {result : Except HttpResponse Value}
    (hresult : ∀ v, result = .ok v ↔ s.nut19Cache.lookup post.key = some v) : (s.tell post result).Repeats where
  alone := h.alone
  uncached := h.uncached
  served := h.served
  once := h.once
  cached a ha v hv := by
    rcases List.mem_append.1 ha with ha | ha
    · exact h.cached a ha v hv
    · rw [List.mem_singleton.1 ha] at hv ⊢
      exact (hresult v).1 hv
  repeated := by
    refine List.pairwise_append.2 ⟨h.repeated, List.pairwise_singleton _ _, ?_⟩
    intro a ha b hb hkey v hv
    rw [List.mem_singleton.1 hb] at hkey ⊢
    have hcached := h.cached a ha v hv
    rw [hkey] at hcached
    exact (hresult v).2 hcached

theorem Repeats.key_not_served (h : s.Repeats) (at_i : s.posts[i]? = some (post, .missed)) : post.key ∉ s.served := by
  intro hserved
  have hopen : s.OpenAt i post.key := ⟨post, .missed, at_i, rfl, rfl⟩
  rcases h.served _ hserved with hcached | ⟨j, hj⟩
  · rw [h.uncached i _ hopen] at hcached
    cases hcached
  · obtain rfl := h.alone i j _ hopen hj.openAt
    obtain ⟨post', phase, hi, -, hphase⟩ := hj
    rw [at_i] at hi
    cases hi
    cases hphase

/-- The mint runs a request, whose body is now on its way or lost. -/
theorem Repeats.serve (h : s.Repeats) (mint : World) (at_i : s.posts[i]? = some (post, .missed)) (hψ : ψ.unstored = true) :
    ((s.serve post mint).move i post ψ).Repeats := by
  have hmoved : (s.move i post ψ).Repeats := h.move at_i (fun _ => rfl) nofun
  refine ⟨hmoved.alone, hmoved.uncached, ?_, ?_, h.cached, h.repeated⟩
  · intro k hk
    rcases List.mem_append.1 hk with hk | hk
    · exact hmoved.served k hk
    · rw [List.mem_singleton.1 hk]
      exact .inr ⟨i, post, ψ, (posts_move at_i i).trans (if_pos rfl), rfl, hψ⟩
  · refine List.nodup_append.2 ⟨h.once, List.nodup_singleton _, ?_⟩
    intro k hk k' hk' hkk
    rw [List.mem_singleton.1 hk'] at hkk
    rw [hkk] at hk
    exact h.key_not_served at_i hk

theorem Repeats.store {value : Value} (h : s.Repeats) (at_i : s.posts[i]? = some (post, .handled value)) :
    ({ s with nut19Cache := s.nut19Cache.insert post.key value }.answer i post (.ok value)).Repeats := by
  have hopen : s.OpenAt i post.key := ⟨post, .handled value, at_i, rfl, rfl⟩
  have hnone := h.uncached i _ hopen
  have hmoved : ({ s with nut19Cache := s.nut19Cache.insert post.key value }.move i post
      (.answered (.ok value))).Repeats := by
    refine ⟨?_, ?_, ?_, h.once, ?_, h.repeated⟩
    · intro j₁ j₂ k h₁ h₂
      rcases h₁.of_move at_i with ⟨-, -, hφ⟩ | ⟨-, h₁⟩
      · cases hφ
      rcases h₂.of_move at_i with ⟨-, -, hφ⟩ | ⟨-, h₂⟩
      · cases hφ
      exact h.alone j₁ j₂ k h₁ h₂
    · intro j k hj
      rcases hj.of_move at_i with ⟨-, -, hφ⟩ | ⟨hij, hj⟩
      · cases hφ
      have hne : k ≠ post.key := by
        rintro rfl
        exact hij (h.alone i j _ hopen hj)
      rw [← h.uncached j k hj]
      exact Finmap.lookup_insert_of_ne _ hne
    · intro k hk
      by_cases hkey : k = post.key
      · subst hkey
        exact .inl (by simp [AdapterState.move])
      · rcases h.served k hk with hcached | ⟨j, post', phase, hj, hk', hphase⟩
        · refine .inl ?_
          rw [AdapterState.move, Finmap.lookup_insert_of_ne _ hkey]
          exact hcached
        · have hij : i ≠ j := by
            rintro rfl
            rw [at_i] at hj
            cases hj
            exact hkey hk'.symm
          exact .inr ⟨j, post', phase, (posts_move at_i j).trans ((if_neg hij).trans hj), hk', hphase⟩
    · intro a ha v hv
      have hcached := h.cached a ha v hv
      have hne : a.1 ≠ post.key := by
        intro hkey
        rw [hkey, hnone] at hcached
        cases hcached
      rw [← hcached]
      exact Finmap.lookup_insert_of_ne _ hne
  refine hmoved.tell ?_
  intro v
  simp [AdapterState.move]

/-! ### Runs -/

theorem not_openAt_of_missesAlone (h : s.missesAlone (.lookup i) = true) (at_i : s.posts[i]? = some (post, φ))
    (notFound : s.nut19Cache.lookup post.key = none) (j : Nat) : ¬ s.OpenAt j post.key := by
  rintro ⟨post', phase, hj, hk, hphase⟩
  simp only [missesAlone, at_i, notFound, Option.isSome_none, Bool.false_or, List.all_eq_true, Bool.or_eq_true,
    decide_eq_true_eq, Bool.not_eq_true'] at h
  rcases h _ (List.mem_of_getElem? hj) with hne | hclosed
  · exact hne hk
  · rw [hphase] at hclosed
    cases hclosed

theorem Repeats.arrive (h : s.Repeats) (post : Post) : Repeats { s with posts := s.posts ++ [(post, .arrived)] } := by
  have hopen : ∀ {j k}, OpenAt { s with posts := s.posts ++ [(post, .arrived)] } j k → s.OpenAt j k := by
    rintro j k ⟨post', phase, hj, hk, hphase⟩
    refine ⟨post', phase, ?_, hk, hphase⟩
    rw [List.getElem?_append] at hj
    split at hj
    · exact hj
    · have hlast := List.mem_of_getElem? hj
      rw [List.mem_singleton] at hlast
      cases hlast
      cases hphase
  refine ⟨fun j₁ j₂ k h₁ h₂ => h.alone j₁ j₂ k (hopen h₁) (hopen h₂), fun j k hj => h.uncached j k (hopen hj), ?_, h.once,
    h.cached, h.repeated⟩
  intro k hk
  rcases h.served k hk with hcached | ⟨j, post', phase, hj, hrest⟩
  · exact .inl hcached
  · refine .inr ⟨j, post', phase, ?_, hrest⟩
    rw [List.getElem?_append_left (List.getElem?_eq_some_iff.1 hj).1]
    exact hj

theorem Repeats.step {act : PostAct} (h : s.Repeats) (halone : s.missesAlone act = true) (hstep : s.step act = some s') :
    s'.Repeats := by
  cases step_ends hstep with
  | arrived post => exact h.arrive post
  | @hit i post cached at_i found =>
    have hmoved : (s.move i post (.answered (.ok cached))).Repeats := h.move at_i nofun nofun
    refine hmoved.tell ?_
    intro v
    rw [AdapterState.move, found]
    simp
  | missed at_i notFound => exact h.miss at_i notFound (not_openAt_of_missesAlone halone at_i notFound)
  | @refused _ i post resp mint at_i =>
    have hnone := h.uncached i post.key ⟨post, .missed, at_i, rfl, rfl⟩
    have hmoved : (s.move i post (.answered (.error resp))).Repeats := h.move at_i nofun nofun
    have hmint : Repeats ({ s with mint }.move i post (.answered (.error resp))) :=
      ⟨hmoved.alone, hmoved.uncached, hmoved.served, hmoved.once, hmoved.cached, hmoved.repeated⟩
    refine hmint.tell ?_
    intro v
    rw [AdapterState.move, hnone]
    simp
  | handled mint value at_i => exact h.serve mint at_i rfl
  | @lost _ i post resp mint at_i =>
    have hnone := h.uncached i post.key ⟨post, .missed, at_i, rfl, rfl⟩
    refine (h.serve mint at_i rfl).tell ?_
    intro v
    rw [AdapterState.move, AdapterState.serve, hnone]
    simp
  | stored at_i => exact h.store at_i
  | dropped at_i early => exact h.move at_i nofun (by simp [early])
  | abandoned at_i => exact h.move at_i (fun _ => rfl) (fun _ => rfl)
  | other act mint => exact ⟨h.alone, h.uncached, h.served, h.once, h.cached, h.repeated⟩

theorem repeats_start (mint : World) : (start mint).Repeats where
  alone i j k := by
    rintro ⟨post, phase, hi, -⟩
    simp [start] at hi
  uncached i k := by
    rintro ⟨post, phase, hi, -⟩
    simp [start] at hi
  served k hk := by simp [start] at hk
  once := List.nodup_nil
  cached a ha := by simp [start] at ha
  repeated := List.Pairwise.nil

/-- The mint runs the requests with one key with success at most once, and when one of them has been answered with a body,
the others are answered with that body afterwards; those that still come find it in the cache. -/
theorem answered_alike {mint : World} {h : List (Step AdapterState PostAct)} (hrun : Run Steps (start mint) h s)
    (halone : ∀ e ∈ h, e.pre.missesAlone e.act = true) :
    s.served.Nodup ∧ (s.answers.Pairwise fun a b => a.1 = b.1 → ∀ v, a.2 = .ok v → b.2 = .ok v) ∧
      ∀ a ∈ s.answers, ∀ v, a.2 = .ok v → s.nut19Cache.lookup a.1 = some v := by
  have hs : s.Repeats := hrun.invariant_state (G := fun e => e.pre.missesAlone e.act = true) (repeats_start mint)
    (fun _ _ _ hG hI hstep => hI.step hG hstep) halone
  exact ⟨hs.once, hs.repeated, hs.cached⟩

end AdapterState

end

/-! ### Two requests that miss together -/

section toy
open Toy

mutual
/-- The text of a value whose strings need no escapes. -/
def jsonText : Value → String
  | .null => "null"
  | .bool b => toString b
  | .number (.posInt n) => toString n
  | .number (.negInt n) => toString n.toInt
  | .number (.float bits) => toString bits
  | .string s => "\"" ++ s ++ "\""
  | .array entries => "[" ++ ",".intercalate (jsonTexts entries) ++ "]"
  | .object members => "\x7b" ++ ",".intercalate (memberTexts members) ++ "\x7d"

def jsonTexts : List Value → List String
  | [] => []
  | v :: vs => jsonText v :: jsonTexts vs

def memberTexts : List (String × Value) → List String
  | [] => []
  | (name, v) :: members => ("\"" ++ name ++ "\":" ++ jsonText v) :: memberTexts members
end

namespace AdapterState

local instance : SerdeJson := ⟨jsonText⟩

def advance (s : AdapterState) (act : PostAct) : AdapterState := (s.step act).getD s

def opened : AdapterState := start (World.init keyset true)

theorem run_advance {acts : List PostAct}
    (h : ∀ e ∈ Run.trace advance opened acts, (e.pre.step e.act).isSome = true) :
    Run Steps opened (Run.trace advance opened acts) (acts.foldl advance opened) := Run.run_of_enabled h

/-- One of the two that the quote has been paid for. -/
def halfMint : Post := ⟨.mint, MintWire.mintBody ⟨"0190-q1", [⟨1, "00c0ffee", (5 : UInt8)⟩], none⟩⟩

def wholeSwap : Post := ⟨.swap, MintWire.swapBody ⟨[coin 2 "two"], [⟨2, "00c0ffee", (5 : UInt8)⟩]⟩⟩

def bothMint : List PostAct :=
  [.other (.postMintQuote ⟨2, "sat", none⟩) env, .arrive halfMint, .arrive halfMint, .lookup 0, .lookup 1, .call 0 env,
    .call 1 env, .store 0, .store 1]

def bothSwap : List PostAct :=
  [.arrive wholeSwap, .arrive wholeSwap, .lookup 0, .lookup 1, .call 0 env, .store 0, .call 1 env]

/-- The mint is run twice with success, and a swap is refused after the same one was answered. -/
theorem answered_apart :
    (∃ h s, Run Steps opened h s ∧ ¬ s.served.Nodup) ∧
      ∃ h s, Run Steps opened h s ∧ ¬ s.answers.Pairwise fun a b => a.1 = b.1 → ∀ v, a.2 = .ok v → b.2 = .ok v := by
  refine ⟨⟨_, _, @run_advance bothMint (by decide +kernel), by decide +kernel⟩,
    ⟨_, _, @run_advance bothSwap (by decide +kernel), ?_⟩⟩
  have hkeys : (bothSwap.foldl advance opened).answers.map (fun a => (a.1, a.2.isOk)) =
      [(wholeSwap.key, true), (wholeSwap.key, false)] := by decide +kernel
  obtain ⟨a, b, hanswers⟩ := List.length_eq_two.1 (by simpa using congrArg List.length hkeys)
  rw [hanswers] at hkeys ⊢
  simp only [List.map_cons, List.map_nil, List.cons.injEq, Prod.mk.injEq, and_true] at hkeys
  obtain ⟨⟨hakey, haok⟩, hbkey, hbok⟩ := hkeys
  intro hall
  rcases ha : a.2 with e | v
  · rw [ha] at haok
    cases haok
  · have hb := (List.pairwise_cons.1 hall).1 b List.mem_cons_self (hakey.trans hbkey.symm) v ha
    rw [hb] at hbok
    cases hbok

/-- A swap, and the same one again. -/
def onceMore : List PostAct :=
  [.arrive wholeSwap, .lookup 0, .arrive wholeSwap, .call 0 env, .store 0, .lookup 1]

theorem answered_alike_toy :
    (onceMore.foldl advance opened).served = [wholeSwap.key] ∧
      ((onceMore.foldl advance opened).answers.map fun a => (a.1, a.2.isOk)) =
        [(wholeSwap.key, true), (wholeSwap.key, true)] ∧
      (onceMore.foldl advance opened).answers.Pairwise fun a b => a.1 = b.1 → ∀ v, a.2 = .ok v → b.2 = .ok v :=
  ⟨by decide +kernel, by decide +kernel, (answered_alike (run_advance (by decide +kernel)) (by decide +kernel)).2.1⟩

end AdapterState
end toy

end Micronuts
