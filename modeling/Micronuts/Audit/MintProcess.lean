import Micronuts.Lib.Run
import Micronuts.Lib.Text
import Micronuts.Rpc.Derived

/-!
# The mint as a subprocess (`micronuts-audit-adapter`: `MintProcess`; `micronuts-mint`: `demo_roles.rs`)

One call at a time writes its line to the pipe of the mint and reads a line from the other one, each in as many pieces as
it takes; the mint serves the lines of its pipe in order. A call may stop wherever it waits, and the pipes stay as they are.
-/

namespace Micronuts

/-- The texts of the errors of `hex` and of the standard library. -/
class LineErrors where
  hex : String → String
  utf8 : String

section
variable [Crypto] [Minicbor] [MinicborCodec] [MinicborDerive] [LineErrors] {σ : Type}

def handleDemoMintHexRequestLine (S : MintService σ) (handler : MintRpcHandler σ) (line : String) :
    Except CashuError String × MintRpcHandler σ :=
  match Hex.decode (Text.trim line) with
  | none => (.error (.protocol ("failed to decode hex rpc request: " ++ LineErrors.hex (Text.trim line))), handler)
  | some requestBytes =>
    let (response, handler) := handler.handleBytes S requestBytes
    (response.map Hex.encode, handler)

def requestLine (request : MintRpcRequest) : List UInt8 := asBytes (Hex.encode (encodeRpcRequest request)) ++ [Text.newline]

def responseLine (response : MintRpcResponse) : List UInt8 :=
  asBytes (Hex.encode (encodeRpcResponse response)) ++ [Text.newline]

/-- Where a call waits: to write the rest of its line, or to read more of the other. -/
inductive CallPhase
  | idle
  | writing (request : MintRpcRequest) (rest : List UInt8)
  | reading (request : MintRpcRequest) (line : List UInt8)
deriving DecidableEq

/-- A call that has returned; `ran` are the requests that the mint has run during it, from the state it was in. -/
structure Returned (σ : Type) where
  request : MintRpcRequest
  ran : List (MintRpcHandler σ × MintRpcRequest)
  result : Except String MintRpcResponse
deriving DecidableEq

/-- `stdin` and `stdout` are what is in the pipes; `mint` is `none` when the subprocess has exited. -/
structure MintProcess (σ : Type) where
  nextId : UInt32
  phase : CallPhase
  stdin : List UInt8
  stdout : List UInt8
  mint : Option (MintRpcHandler σ)
  ran : List (MintRpcHandler σ × MintRpcRequest)
  returned : List (Returned σ)
deriving DecidableEq

namespace MintProcess

inductive Act
  | call (method : MintRpcMethod)
  | write (n : Nat)
  | serve
  | read (n : Nat)
  | readEnd
  -- the call is dropped, or fails with an error of the pipe
  | cut
deriving DecidableEq

def spawn (handler : MintRpcHandler σ) : MintProcess σ := ⟨1, .idle, [], [], some handler, [], []⟩

/-- What `call_raw` makes of the line that it has read. -/
def responseOf (id : UInt32) (line : List UInt8) : Except String MintRpcResponse :=
  match String.fromUTF8? ⟨⟨line⟩⟩ with
  | none => .error ("failed to read mint_server stdout: " ++ LineErrors.utf8)
  | some line =>
    if line = "" then .error "mint_server stdout closed (subprocess likely exited)"
    else
      let trimmed := Text.trim line
      if trimmed = "" then .error "mint_server returned an empty response line"
      else
        match Hex.decode trimmed with
        | none => .error ("failed to decode hex rpc response: " ++ LineErrors.hex trimmed)
        | some responseBytes =>
          match decodeRpcResponse responseBytes with
          | .error e => .error ("failed to decode rpc response: " ++ e.fmt)
          | .ok response =>
            if response.id ≠ id then
              .error ("rpc response id mismatch: requested " ++ toString id ++ ", got " ++ toString response.id)
            else .ok response

variable (S : MintService σ) (s : MintProcess σ)

/-- A round of `run_mint_server_stdio`; a line that it cannot answer ends the subprocess. -/
def serveLine (handler : MintRpcHandler σ) (line rest : List UInt8) : MintProcess σ :=
  match String.fromUTF8? ⟨⟨line⟩⟩ with
  | none => { s with stdin := rest, mint := none }
  | some text =>
    if Text.trim text = "" then { s with stdin := rest }
    else
      match handleDemoMintHexRequestLine S handler text with
      | (.error _, _) => { s with stdin := rest, mint := none }
      | (.ok responseText, handler') =>
        let request := (Hex.decode (Text.trim text)).bind fun bytes => (decodeRpcRequest bytes).toOption
        { s with
          stdin := rest
          stdout := s.stdout ++ (asBytes responseText ++ [Text.newline])
          mint := some handler'
          ran := s.ran ++ (request.map (handler, ·)).toList }

def returns (request : MintRpcRequest) (line rest : List UInt8) : MintProcess σ :=
  { s with
    phase := .idle
    stdout := rest
    returned := s.returned ++ [⟨request, s.ran, responseOf request.id line⟩] }

def step : Act → Option (MintProcess σ)
  | .call method =>
    match s.phase with
    | .idle =>
      let request : MintRpcRequest := ⟨s.nextId, method⟩
      some { s with nextId := s.nextId + 1, phase := .writing request (requestLine request), ran := [] }
    | _ => none
  | .write n =>
    match s.phase with
    | .writing request rest =>
      if s.mint.isSome ∧ 0 < n ∧ n ≤ rest.length then
        some { s with
          stdin := s.stdin ++ rest.take n
          phase := if n = rest.length then .reading request [] else .writing request (rest.drop n) }
      else none
    | _ => none
  | .serve =>
    match s.mint, Text.takeLine s.stdin with
    | some handler, some (line, rest) => some (serveLine S s handler line rest)
    | _, _ => none
  | .read n =>
    match s.phase with
    | .reading request line =>
      if 0 < n ∧ n ≤ s.stdout.length ∧ Text.newline ∉ (s.stdout.take n).dropLast then
        if (s.stdout.take n).getLast? = some Text.newline then
          some (returns s request (line ++ s.stdout.take n) (s.stdout.drop n))
        else some { s with phase := .reading request (line ++ s.stdout.take n), stdout := s.stdout.drop n }
      else none
    | _ => none
  | .readEnd =>
    match s.phase with
    | .reading request line =>
      if s.mint.isNone ∧ s.stdout = [] then some (returns s request line []) else none
    | _ => none
  | .cut =>
    match s.phase with
    | .idle => none
    | _ => some { s with phase := .idle }

def Steps (s : MintProcess σ) (act : Act) (s' : MintProcess σ) : Prop := step S s act = some s'

end MintProcess

end

end Micronuts
