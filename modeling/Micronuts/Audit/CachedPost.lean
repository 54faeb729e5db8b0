import Micronuts.Audit.Translate
import Micronuts.Lib.Run
import Micronuts.Mint.Runs
import Micronuts.Wire.Client

/-!
# Cached responses (NUT-19; `micronuts-audit-adapter`: `cached_post`)

The requests to the two cached routes are handled side by side. Each looks its key up, calls the mint when there is nothing,
and stores what the mint made of it; the lock of the cache is only held to look up and to store. A request may stop wherever
it waits, and the response of the mint may get lost on its way.
-/

namespace Micronuts

section
variable [Crypto]

inductive CachedRoute
  | mint
  | swap
deriving DecidableEq

structure Post where
  route : CachedRoute
  body : Value

namespace CachedRoute

def path : CachedRoute → String
  | .mint => "/v1/mint/bolt11"
  | .swap => "/v1/swap"

/-- `post_mint` and `post_swap` behind the cache. The mint answers a method with a result of its kind, so that
`unexpected_result_response` does not come up. -/
def handler : CachedRoute → Value → Except HttpResponse (MintM Value)
  | .mint, body => do
    let request ← Audit.parseMintRequest body
    pure (do
      let resp ← postMint request
      pure (Audit.mintResponseToJson resp))
  | .swap, body => do
    let request ← Audit.parseSwapRequest body
    pure (do
      let resp ← postSwap request
      pure (Audit.swapResponseToJson resp))

end CachedRoute

def Post.key [SerdeJson] (post : Post) : String := "POST " ++ post.route.path ++ " " ++ SerdeJson.toText post.body

def Audit.mintUnavailable (message : String) : HttpResponse :=
  ⟨503, .ofFields [("code", .string "MINT_UNAVAILABLE"), ("error", .string message)]⟩

/-- How far a request is. -/
inductive PostPhase
  | arrived
  | missed
  | handled (value : Value)
  | answered (result : Except HttpResponse Value)
  | dropped
  -- the mint has run it, and there is nobody left to store the body
  | lost

/-- On its way from a miss to the store, or lost there. -/
def PostPhase.open : PostPhase → Bool
  | .missed | .handled _ | .lost => true
  | .arrived | .answered _ | .dropped => false

/-- Run by the mint, and not stored. -/
def PostPhase.unstored : PostPhase → Bool
  | .handled _ | .lost => true
  | .arrived | .missed | .answered _ | .dropped => false

/-- `served` are the keys of the requests that the mint has run with success, `answers` what was answered to whom. -/
structure AdapterState where
  mint : World
  nut19Cache : Finmap fun _ : String => Value
  posts : List (Post × PostPhase)
  served : List String
  answers : List (String × Except HttpResponse Value)

inductive PostAct
  | arrive (post : Post)
  | lookup (i : Nat)
  | call (i : Nat) (env : Env)
  -- the mint cannot be reached
  | unavailable (i : Nat) (message : String)
  -- the mint runs the request, but its response is not read: the pipe fails, or the client has gone
  | lose (i : Nat) (env : Env) (message : String)
  | store (i : Nat)
  -- the client goes away
  | drop (i : Nat)
  -- a request to another route
  | other (call : Call) (env : Env)

namespace AdapterState
variable [SerdeJson] (s : AdapterState)

def start (mint : World) : AdapterState := ⟨mint, ∅, [], [], []⟩

def move (i : Nat) (post : Post) (phase : PostPhase) : AdapterState := { s with posts := s.posts.set i (post, phase) }

def tell (post : Post) (result : Except HttpResponse Value) : AdapterState :=
  { s with answers := s.answers ++ [(post.key, result)] }

def answer (i : Nat) (post : Post) (result : Except HttpResponse Value) : AdapterState :=
  (s.move i post (.answered result)).tell post result

/-- The mint has run the request of `post`. -/
def serve (post : Post) (mint : World) : AdapterState := { s with mint, served := s.served ++ [post.key] }

/-- `call_mint` in the handler; a mint that panics does not come back, which is `unavailable`. -/
def callMint (i : Nat) (post : Post) (env : Env) : Option AdapterState :=
  match post.route.handler post.body with
  | .error resp => some (s.answer i post (.error resp))
  | .ok call =>
    match call.run env s.mint.begin with
    | (.ok value, mint) => some ((s.serve post mint).move i post (.handled value))
    | (.err err, mint) => some ({ s with mint }.answer i post (.error (Audit.cashuErrorToResponse err)))
    | (.panic, _) => none

/-- As `callMint`, with an error of the pipe instead of the response. -/
def loseMint (i : Nat) (post : Post) (env : Env) (message : String) : Option AdapterState :=
  let result := Except.error (Audit.mintUnavailable message)
  match post.route.handler post.body with
  | .error _ => none
  | .ok call =>
    match call.run env s.mint.begin with
    | (.ok _, mint) => some (((s.serve post mint).move i post .lost).tell post result)
    | (.err _, mint) => some ({ s with mint }.answer i post result)
    | (.panic, _) => none

def step : PostAct → Option AdapterState
  | .arrive post => some { s with posts := s.posts ++ [(post, .arrived)] }
  | .lookup i =>
    match s.posts[i]? with
    | some (post, .arrived) =>
      match s.nut19Cache.lookup post.key with
      | some cached => some (s.answer i post (.ok cached))
      | none => some (s.move i post .missed)
    | _ => none
  | .call i env =>
    match s.posts[i]? with
    | some (post, .missed) => s.callMint i post env
    | _ => none
  | .unavailable i message =>
    match s.posts[i]? with
    | some (post, .missed) => some (s.answer i post (.error (Audit.mintUnavailable message)))
    | _ => none
  | .lose i env message =>
    match s.posts[i]? with
    | some (post, .missed) => s.loseMint i post env message
    | _ => none
  | .store i =>
    match s.posts[i]? with
    | some (post, .handled value) =>
        some ({ s with nut19Cache := s.nut19Cache.insert post.key value }.answer i post (.ok value))
    | _ => none
  | .drop i =>
    match s.posts[i]? with
    | some (post, .arrived) => some (s.move i post .dropped)
    | some (post, .missed) => some (s.move i post .dropped)
    | some (post, .handled _) => some (s.move i post .lost)
    | _ => none
  | .other call env =>
    match (exec call).run env s.mint.begin with
    | (.panic, _) => none
    | (_, mint) => some { s with mint }

def Steps (s : AdapterState) (act : PostAct) (s' : AdapterState) : Prop := s.step act = some s'

/-- A look-up that misses does so while no request with the same key is open. -/
def missesAlone : PostAct → Bool
  | .lookup i =>
    match s.posts[i]? with
    | some (post, _) => (s.nut19Cache.lookup post.key).isSome || s.posts.all fun p => p.1.key ≠ post.key || !p.2.open
    | none => true
  | _ => true

/-! ### What a step does -/

/-- The ways a step ends; what it does to the mint is left open. -/
inductive StepEnds (s : AdapterState) : PostAct → AdapterState → Prop
  | arrived (post : Post) : StepEnds s (.arrive post) { s with posts := s.posts ++ [(post, .arrived)] }
  | hit {i : Nat} {post : Post} {cached : Value} (at_i : s.posts[i]? = some (post, .arrived))
      (found : s.nut19Cache.lookup post.key = some cached) : StepEnds s (.lookup i) (s.answer i post (.ok cached))
  | missed {i : Nat} {post : Post} (at_i : s.posts[i]? = some (post, .arrived))
      (notFound : s.nut19Cache.lookup post.key = none) : StepEnds s (.lookup i) (s.move i post .missed)
  | refused {act : PostAct} {i : Nat} {post : Post} {resp : HttpResponse} (mint : World)
      (at_i : s.posts[i]? = some (post, .missed)) : StepEnds s act ({ s with mint }.answer i post (.error resp))
  | handled {act : PostAct} {i : Nat} {post : Post} (mint : World) (value : Value)
      (at_i : s.posts[i]? = some (post, .missed)) : StepEnds s act ((s.serve post mint).move i post (.handled value))
  | lost {act : PostAct} {i : Nat} {post : Post} {resp : HttpResponse} (mint : World)
      (at_i : s.posts[i]? = some (post, .missed)) :
      StepEnds s act (((s.serve post mint).move i post .lost).tell post (.error resp))
  | stored {act : PostAct} {i : Nat} {post : Post} {value : Value} (at_i : s.posts[i]? = some (post, .handled value)) :
      StepEnds s act ({ s with nut19Cache := s.nut19Cache.insert post.key value }.answer i post (.ok value))
  | dropped {act : PostAct} {i : Nat} {post : Post} {phase : PostPhase} (at_i : s.posts[i]? = some (post, phase))
      (early : phase.unstored = false) : StepEnds s act (s.move i post .dropped)
  | abandoned {act : PostAct} {i : Nat} {post : Post} {value : Value}
      (at_i : s.posts[i]? = some (post, .handled value)) : StepEnds s act (s.move i post .lost)
  | other (act : PostAct) (mint : World) : StepEnds s act { s with mint }

variable {s}

theorem callMint_ends {i : Nat} {post : Post} {env : Env} {act : PostAct} {s' : AdapterState}
    (at_i : s.posts[i]? = some (post, .missed)) (h : s.callMint i post env = some s') : StepEnds s act s' := by
  rw [callMint] at h
  split at h
  · cases h
    exact .refused s.mint at_i
  · split at h
    · cases h
      exact .handled _ _ at_i
    · cases h
      exact .refused _ at_i
    · cases h

theorem loseMint_ends {i : Nat} {post : Post} {env : Env} {message : String} {act : PostAct} {s' : AdapterState}
    (at_i : s.posts[i]? = some (post, .missed)) (h : s.loseMint i post env message = some s') : StepEnds s act s' := by
  rw [loseMint] at h
  split at h
  · cases h
  · split at h
    · cases h
      exact .lost _ at_i
    · cases h
      exact .refused _ at_i
    · cases h

theorem step_ends {act : PostAct} {s' : AdapterState} (h : s.step act = some s') : StepEnds s act s' := by
  cases act with
  | arrive post =>
    cases h
    exact .arrived post
  | lookup i =>
    simp only [step] at h
    split at h <;> [skip; cases h]
    rename_i post at_i
    split at h
    · rename_i cached hfound
      cases h
      exact .hit at_i hfound
    · rename_i hnone
      cases h
      exact .missed at_i hnone
  | call i env =>
    simp only [step] at h
    split at h <;> [skip; cases h]
    rename_i post at_i
    exact callMint_ends at_i h
  | unavailable i message =>
    simp only [step] at h
    split at h <;> [skip; cases h]
    rename_i post at_i
    cases h
    exact .refused s.mint at_i
  | lose i env message =>
    simp only [step] at h
    split at h <;> [skip; cases h]
    rename_i post at_i
    exact loseMint_ends at_i h
  | store i =>
    simp only [step] at h
    split at h <;> [skip; cases h]
    rename_i post value at_i
    cases h
    exact .stored at_i
  | drop i =>
    simp only [step] at h
    split at h
    · rename_i post at_i
      cases h
      exact .dropped at_i rfl
    · rename_i post at_i
      cases h
      exact .dropped at_i rfl
    · rename_i post value at_i
      cases h
      exact .abandoned at_i
    · cases h
  | other call env =>
    simp only [step] at h
    split at h
    · cases h
    · cases h
      exact .other _ _

end AdapterState

end

end Micronuts
