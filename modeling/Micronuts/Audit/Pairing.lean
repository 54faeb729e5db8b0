import Micronuts.Audit.MintProcess
import Micronuts.Nuts.Blinding

/-!
# Which response a call returns

`Between` says what the pipes hold between two steps, by the phase of the call: nothing when there is none, the written
part of its line while it writes, and then its line or the rest of the response to it. A call that stops after its first
byte leaves the pipes with more than that, so the property holds of the runs in which none does (`Untouched`). There the
call under way is never stuck, and every step brings it nearer to its end (`Closer`).
-/

namespace Micronuts

section
variable [Crypto] [Minicbor] [MinicborCodec] [MinicborDerive] [LineErrors] {σ : Type}

/-! ### Lines of hex -/

section hex
omit [Crypto] [Minicbor] [MinicborCodec] [MinicborDerive] [LineErrors]

theorem digit_plain : ∀ n < 16, Text.isWhitespace (Hex.digit n) = false ∧ (Hex.digit n).toUInt8 ≠ Text.newline := by
  decide

theorem newline_notMem_hex (bs : List UInt8) : Text.newline ∉ asBytes (Hex.encode bs) := by
  rw [asBytes_encode]
  intro h
  obtain ⟨b, -, hb⟩ := List.mem_flatMap.1 h
  have hlt := b.toNat_lt
  simp only [List.mem_cons, List.not_mem_nil, or_false] at hb
  rcases hb with hb | hb
  · exact (digit_plain _ (by omega)).2 hb.symm
  · exact (digit_plain _ (by omega)).2 hb.symm

theorem trim_hex {bs : List UInt8} (hne : bs ≠ []) :
    Text.trim (Hex.encode bs) = Hex.encode bs ∧ Text.trim (Hex.encode bs ++ "\n") = Hex.encode bs := by
  have hdigits : (Hex.encode bs).toList = Hex.digits bs := String.toList_ofList
  refine Text.trim_line ?_ ?_
  · obtain ⟨b, bs, rfl⟩ := List.exists_cons_of_ne_nil hne
    rw [hdigits]
    exact List.cons_ne_nil _ _
  · intro c hc
    rw [hdigits] at hc
    obtain ⟨b, -, hb⟩ := List.mem_flatMap.1 hc
    have hlt := b.toNat_lt
    simp only [List.mem_cons, List.not_mem_nil, or_false] at hb
    rcases hb with rfl | rfl
    · exact (digit_plain _ (by omega)).1
    · exact (digit_plain _ (by omega)).1

theorem hex_ne_empty {bs : List UInt8} (hne : bs ≠ []) : Hex.encode bs ≠ "" := by
  intro h
  have h' : Hex.decode (Hex.encode bs) = Hex.decode "" := congrArg _ h
  rw [Hex.decode_encode] at h'
  exact hne (Option.some.inj h')

end hex

omit [Crypto] [Minicbor] [MinicborCodec] [MinicborDerive] [LineErrors] in
theorem newline_notMem_of_append {bs rest : List UInt8} {text : List UInt8} (h : Text.newline ∉ text) (hne : rest ≠ [])
    (heq : bs ++ rest = text ++ [Text.newline]) : Text.newline ∉ bs := by
  obtain ⟨rest, b, rfl⟩ := List.eq_nil_or_concat rest |>.resolve_left hne
  rw [List.concat_eq_append, ← List.append_assoc] at heq
  have hinit := (List.append_inj' heq rfl).1
  intro hmem
  exact h (hinit ▸ List.mem_append_left _ hmem)

namespace MintProcess
variable (S : MintService σ)

/-- The mint runs the request of the line, and answers it with a line. -/
theorem serveLine_request (s : MintProcess σ) (handler : MintRpcHandler σ) (request : MintRpcRequest) (rest : List UInt8) :
    serveLine S s handler (asBytes (Hex.encode (encodeRpcRequest request))) rest =
      { s with
        stdin := rest
        stdout := s.stdout ++ responseLine (handler.handleRequest S request).1
        mint := some (handler.handleRequest S request).2
        ran := s.ran ++ [(handler, request)] } := by
  have hne := encodeRpcRequest_ne_nil request
  have htrim := (trim_hex hne).1
  have hhandle : handleDemoMintHexRequestLine S handler (Hex.encode (encodeRpcRequest request)) =
      (.ok (Hex.encode (encodeRpcResponse (handler.handleRequest S request).1)), (handler.handleRequest S request).2) := by
    simp only [handleDemoMintHexRequestLine, htrim, Hex.decode_encode, MintRpcHandler.handleBytes,
      decodeRpcRequest_encodeRpcRequest]
    rfl
  simp only [serveLine, fromUTF8?_asBytes, htrim, if_neg (hex_ne_empty hne), hhandle, Hex.decode_encode,
    Option.bind_some, decodeRpcRequest_encodeRpcRequest]
  rfl

theorem responseOf_line (response : MintRpcResponse) : responseOf response.id (responseLine response) = .ok response := by
  have hne := encodeRpcResponse_ne_nil response
  have hline : responseLine response = asBytes (Hex.encode (encodeRpcResponse response) ++ "\n") := by
    rw [asBytes_append]
    rfl
  have hnonempty : Hex.encode (encodeRpcResponse response) ++ "\n" ≠ "" := by
    intro h
    have := congrArg String.toList h
    simp at this
  simp only [responseOf, hline, fromUTF8?_asBytes, if_neg hnonempty, (trim_hex hne).2, if_neg (hex_ne_empty hne),
    Hex.decode_encode, decodeRpcResponse_encodeRpcResponse]
  rw [if_neg (by simp)]

/-! ### What is in the pipes -/

def Between (s : MintProcess σ) : CallPhase → Prop
  | .idle => s.stdin = [] ∧ s.stdout = []
  | .writing request rest => s.stdout = [] ∧ s.ran = [] ∧ rest ≠ [] ∧ s.stdin ++ rest = requestLine request
  | .reading request line =>
    (s.stdin = requestLine request ∧ s.stdout = [] ∧ line = [] ∧ s.ran = []) ∨
      (s.stdin = [] ∧ s.stdout ≠ [] ∧ ∃ handler, s.ran = [(handler, request)] ∧
        line ++ s.stdout = responseLine (handler.handleRequest S request).1)

/-- The mint has run the request of the call during it, and nothing else, and the call returns its response. -/
def Paired (r : Returned σ) : Prop :=
  ∃ handler : MintRpcHandler σ, r.ran = [(handler, r.request)] ∧ r.result = .ok (handler.handleRequest S r.request).1

structure InStep (s : MintProcess σ) : Prop where
  alive : s.mint.isSome = true
  between : Between S s s.phase
  returned : ∀ r ∈ s.returned, Paired S r

/-- A call stops before its first byte only. -/
def Untouched (e : Step (MintProcess σ) Act) : Prop :=
  e.act = .cut → ∃ request, e.pre.phase = .writing request (requestLine request)

variable {S} {s s' : MintProcess σ}

/-! ### Steps -/

theorem InStep.call (h : InStep S s) {method : MintRpcMethod} (hstep : step S s (.call method) = some s') : InStep S s' := by
  have hbetween := h.between
  simp only [step] at hstep
  split at hstep <;> cases hstep
  rename_i hphase
  rw [hphase] at hbetween
  refine ⟨h.alive, ⟨hbetween.2, rfl, ?_, ?_⟩, h.returned⟩
  · simp [requestLine]
  · show s.stdin ++ _ = _
    rw [hbetween.1, List.nil_append]

theorem InStep.write (h : InStep S s) {n : Nat} (hstep : step S s (.write n) = some s') : InStep S s' := by
  have hbetween := h.between
  simp only [step] at hstep
  split at hstep <;> [skip; cases hstep]
  rename_i request rest hphase
  split at hstep <;> cases hstep
  rename_i hn
  rw [hphase] at hbetween
  obtain ⟨hstdout, hran, -, hline⟩ := hbetween
  refine ⟨h.alive, ?_, h.returned⟩
  dsimp only
  by_cases hall : n = rest.length
  · rw [if_pos hall]
    refine .inl ⟨?_, hstdout, rfl, hran⟩
    show s.stdin ++ rest.take n = _
    rw [hall, List.take_length, hline]
  · rw [if_neg hall]
    refine ⟨hstdout, hran, ?_, ?_⟩
    · rw [ne_eq, List.drop_eq_nil_iff]
      omega
    · show s.stdin ++ rest.take n ++ rest.drop n = _
      rw [List.append_assoc, List.take_append_drop, hline]

/-- The mint serves the line of the call under way, and then there is no other. -/
theorem InStep.served (h : InStep S s) (hstep : step S s .serve = some s') :
    ∃ request handler, s.phase = .reading request [] ∧ s.stdin ≠ [] ∧ s' =
      { s with
        stdin := []
        stdout := responseLine (MintRpcHandler.handleRequest S handler request).1
        mint := some (MintRpcHandler.handleRequest S handler request).2
        ran := [(handler, request)] } := by
  have hbetween := h.between
  simp only [step] at hstep
  split at hstep <;> [skip; cases hstep]
  rename_i handler line rest hmint htake
  cases hphase : s.phase with
  | idle =>
    rw [hphase] at hbetween
    rw [hbetween.1] at htake
    cases htake
  | writing request more =>
    rw [hphase] at hbetween
    obtain ⟨-, -, hmore, hline⟩ := hbetween
    have hno := newline_notMem_of_append (newline_notMem_hex _) hmore hline
    rw [Text.takeLine_eq_none.2 hno] at htake
    cases htake
  | reading request got =>
    rw [hphase] at hbetween
    rcases hbetween with ⟨hstdin, hstdout, rfl, hran⟩ | ⟨hstdin, -⟩
    · rw [hstdin, requestLine, Text.takeLine_append (newline_notMem_hex _)] at htake
      cases htake
      rw [serveLine_request, hstdout, hran, List.nil_append, List.nil_append] at hstep
      cases hstep
      refine ⟨request, handler, rfl, ?_, by rw [← hphase]⟩
      rw [hstdin]
      simp [requestLine]
    · rw [hstdin] at htake
      cases htake

theorem InStep.serve (h : InStep S s) (hstep : step S s .serve = some s') : InStep S s' := by
  obtain ⟨request, handler, hphase, -, rfl⟩ := h.served hstep
  refine ⟨rfl, ?_, h.returned⟩
  dsimp only
  rw [hphase]
  refine .inr ⟨rfl, ?_, handler, rfl, rfl⟩
  simp [responseLine]

omit [Crypto] [Minicbor] [MinicborCodec] [MinicborDerive] [LineErrors] in
/-- A piece of the last line ends in the newline just when it is the rest of it. -/
theorem getLast?_take {line bs text : List UInt8} {n : Nat} (h : Text.newline ∉ text) (hn : 0 < n) (hlen : n ≤ bs.length)
    (heq : line ++ bs = text ++ [Text.newline]) : (bs.take n).getLast? = some Text.newline ↔ bs.drop n = [] := by
  constructor
  · intro hlast
    by_contra hrest
    have hall : (line ++ bs.take n) ++ bs.drop n = text ++ [Text.newline] := by
      rw [List.append_assoc, List.take_append_drop, heq]
    exact newline_notMem_of_append h hrest hall (List.mem_append_right _ (List.mem_of_getLast? hlast))
  · intro hrest
    have htake : bs.take n = bs := List.take_of_length_le (List.drop_eq_nil_iff.1 hrest)
    have hne : bs ≠ [] := by
      rintro rfl
      simp at hlen
      omega
    have hlast := congrArg List.getLast? heq
    rwa [List.getLast?_append_of_ne_nil _ hne, List.getLast?_concat, ← htake] at hlast

/-- The call reads its own response, to the end or not. -/
theorem InStep.got (h : InStep S s) {n : Nat} (hstep : step S s (.read n) = some s') :
    ∃ request line handler, s.phase = .reading request line ∧ s.stdin = [] ∧ s.ran = [(handler, request)] ∧
      (0 < n ∧ n ≤ s.stdout.length) ∧ line ++ s.stdout = responseLine (MintRpcHandler.handleRequest S handler request).1 ∧
      ((s' = returns s request (responseLine (MintRpcHandler.handleRequest S handler request).1) []) ∨
        s.stdout.drop n ≠ [] ∧
        s' = { s with phase := .reading request (line ++ s.stdout.take n), stdout := s.stdout.drop n }) := by
  have hbetween := h.between
  simp only [step] at hstep
  split at hstep <;> [skip; cases hstep]
  rename_i request line hphase
  rw [hphase] at hbetween
  split at hstep <;> [skip; cases hstep]
  rename_i hn
  rcases hbetween with ⟨-, hstdout, -⟩ | ⟨hstdin, -, handler, hran, hline⟩
  · rw [hstdout] at hn
    simp at hn
    omega
  · have hlast := getLast?_take (newline_notMem_hex _) hn.1 hn.2.1 hline
    refine ⟨request, line, handler, hphase, hstdin, hran, ⟨hn.1, hn.2.1⟩, hline, ?_⟩
    split at hstep <;> cases hstep
    · rename_i hnewline
      have hrest := hlast.1 hnewline
      rw [hrest, ← hline, List.take_of_length_le (List.drop_eq_nil_iff.1 hrest)]
      exact .inl rfl
    · rename_i hnewline
      exact .inr ⟨fun hrest => hnewline (hlast.2 hrest), rfl⟩

theorem InStep.read (h : InStep S s) {n : Nat} (hstep : step S s (.read n) = some s') : InStep S s' := by
  obtain ⟨request, line, handler, hphase, hstdin, hran, -, hline, rfl | ⟨hmore, rfl⟩⟩ := h.got hstep
  · refine ⟨h.alive, ⟨hstdin, rfl⟩, ?_⟩
    intro r hr
    rcases List.mem_append.1 hr with hr | hr
    · exact h.returned r hr
    · rw [List.mem_singleton.1 hr]
      have hresponse := responseOf_line (handler.handleRequest S request).1
      rw [MintRpcHandler.handleRequest_id] at hresponse
      exact ⟨handler, hran, hresponse⟩
  · refine ⟨h.alive, .inr ⟨hstdin, hmore, handler, hran, ?_⟩, h.returned⟩
    rw [List.append_assoc, List.take_append_drop, hline]

theorem InStep.not_readEnd (h : InStep S s) : step S s .readEnd = none := by
  have halive := h.alive
  simp only [step]
  split
  · rw [if_neg fun hend => ?_]
    rw [Option.isNone_iff_eq_none.1 hend.1] at halive
    cases halive
  · rfl

theorem InStep.step {act : Act} (h : InStep S s) (hcut : Untouched ⟨s, act, s'⟩) (hstep : step S s act = some s') :
    InStep S s' := by
  cases act with
  | call method => exact h.call hstep
  | write n => exact h.write hstep
  | serve => exact h.serve hstep
  | read n => exact h.read hstep
  | readEnd =>
    rw [h.not_readEnd] at hstep
    cases hstep
  | cut =>
    obtain ⟨request, hphase⟩ := hcut rfl
    have hbetween := h.between
    simp only at hphase
    rw [hphase] at hbetween
    simp only [MintProcess.step, hphase] at hstep
    cases hstep
    obtain ⟨hstdout, -, -, hline⟩ := hbetween
    exact ⟨h.alive, ⟨List.append_left_eq_self.1 hline, hstdout⟩, h.returned⟩

theorem inStep_of_run {handler : MintRpcHandler σ} {h : List (Step (MintProcess σ) Act)}
    (hrun : Run (Steps S) (spawn handler) h s) (hclean : ∀ e ∈ h, Untouched e) : InStep S s := by
  refine Run.invariant_state (I := InStep S) ?_ ?_ hrun hclean
  · exact ⟨rfl, ⟨rfl, rfl⟩, fun r hr => absurd hr List.not_mem_nil⟩
  · intro s act s' hguard hs hstep
    exact hs.step hguard hstep

/-! ### How far a call is -/

/-- The stage of the call, and the bytes that are left of it. -/
def remaining (s : MintProcess σ) : Nat × Nat :=
  match s.phase with
  | .idle => (0, 0)
  | .writing _ rest => (3, rest.length)
  | .reading _ _ => if s.stdin = [] then (1, s.stdout.length) else (2, 0)

def Closer (s' s : MintProcess σ) : Prop := Prod.Lex (· < ·) (· < ·) s'.remaining s.remaining

theorem InStep.enabled (h : InStep S s) (hbusy : s.phase ≠ .idle) :
    ∃ act, act ≠ .cut ∧ (MintProcess.step S s act).isSome = true := by
  have hbetween := h.between
  have halive := h.alive
  cases hphase : s.phase with
  | idle => exact absurd hphase hbusy
  | writing request rest =>
    rw [hphase] at hbetween
    have hrest : 0 < rest.length := List.length_pos_iff.2 hbetween.2.2.1
    refine ⟨.write rest.length, by simp, ?_⟩
    simp only [MintProcess.step, hphase]
    rw [if_pos ⟨halive, hrest, le_refl _⟩]
    rfl
  | reading request line =>
    rw [hphase] at hbetween
    rcases hbetween with ⟨hstdin, -⟩ | ⟨-, hstdout, -⟩
    · obtain ⟨handler, hmint⟩ := Option.isSome_iff_exists.1 halive
      refine ⟨.serve, by simp, ?_⟩
      simp only [MintProcess.step, hmint, hstdin, requestLine, Text.takeLine_append (newline_notMem_hex _)]
      rfl
    · have hlen : 0 < s.stdout.length := List.length_pos_iff.2 hstdout
      have hone : Text.newline ∉ (s.stdout.take 1).dropLast := by
        obtain ⟨b, rest, hb⟩ := List.exists_cons_of_ne_nil hstdout
        rw [hb]
        exact List.not_mem_nil
      refine ⟨.read 1, by simp, ?_⟩
      simp only [MintProcess.step, hphase]
      rw [if_pos ⟨Nat.one_pos, hlen, hone⟩]
      split <;> rfl

theorem InStep.closer (h : InStep S s) (hbusy : s.phase ≠ .idle) {act : Act} (hcut : act ≠ .cut)
    (hstep : MintProcess.step S s act = some s') : Closer s' s := by
  cases act with
  | call method =>
    simp only [MintProcess.step] at hstep
    cases hstep
  | write n =>
    simp only [MintProcess.step] at hstep
    split at hstep <;> [skip; cases hstep]
    rename_i request rest hphase
    split at hstep <;> cases hstep
    rename_i hn
    rw [Closer, remaining, remaining, hphase]
    dsimp only
    by_cases hall : n = rest.length
    · rw [if_pos hall]
      dsimp only
      split
      all_goals exact .left _ _ (by decide)
    · rw [if_neg hall]
      refine .right _ ?_
      rw [List.length_drop]
      omega
  | serve =>
    obtain ⟨request, handler, hphase, hstdin, rfl⟩ := h.served hstep
    simp only [Closer, remaining, hphase, if_neg hstdin]
    exact .left _ _ (by decide)
  | read n =>
    obtain ⟨request, line, handler, hphase, hstdin, -, hn, -, rfl | ⟨-, rfl⟩⟩ := h.got hstep
    · simp only [Closer, remaining, returns, hphase, if_pos hstdin]
      exact .left _ _ (by decide)
    · simp only [Closer, remaining, hphase, if_pos hstdin]
      refine .right _ ?_
      rw [List.length_drop]
      omega
  | readEnd =>
    rw [h.not_readEnd] at hstep
    cases hstep
  | cut => exact absurd rfl hcut

/-- Every call that returns has the response to its own request, which the mint has run during the call, alone; and the call
under way returns, since each step but a cut brings it nearer to its end, and there is always one. -/
theorem calls_paired {handler : MintRpcHandler σ} {h : List (Step (MintProcess σ) Act)}
    (hrun : Run (Steps S) (spawn handler) h s) (hclean : ∀ e ∈ h, Untouched e) :
    (∀ r ∈ s.returned, Paired S r) ∧
      (s.phase ≠ .idle → (∃ act, act ≠ .cut ∧ (MintProcess.step S s act).isSome = true) ∧
        ∀ act s', act ≠ .cut → MintProcess.step S s act = some s' → Closer s' s) := by
  have hs := inStep_of_run hrun hclean
  refine ⟨hs.returned, ?_⟩
  intro hbusy
  exact ⟨hs.enabled hbusy, fun act s' => hs.closer hbusy⟩

end MintProcess

end

/-! ### A call that stops in between -/

section toy
open Toy32 ToyCbor ToyDerive
namespace MintProcess

local instance : LineErrors := ⟨fun _ => "Odd number of digits", "stream did not contain valid UTF-8"⟩

def advance (s : MintProcess Nat) (act : Act) : MintProcess Nat := (step swapCounter s act).getD s

theorem run_advance {acts : List Act}
    (h : ∀ e ∈ Run.trace advance (spawn ⟨0⟩) acts, (step swapCounter e.pre e.act).isSome = true) :
    Run (Steps swapCounter) (spawn ⟨0⟩) (Run.trace advance (spawn ⟨0⟩) acts) (acts.foldl advance (spawn ⟨0⟩)) :=
  Run.run_of_enabled h

/-- A client that goes away between the request and the response; the calls after it take each other's responses. -/
def abandoned : List Act :=
  [.call .getInfo, .write 11, .cut, .serve, .call .getInfo, .write 11, .serve, .read 17, .call .getInfo, .write 11, .serve,
    .read 17]

theorem responses_shifted :
    Run (Steps swapCounter) (spawn ⟨0⟩) (Run.trace advance (spawn ⟨0⟩) abandoned) (abandoned.foldl advance (spawn ⟨0⟩)) ∧
      ((abandoned.foldl advance (spawn ⟨0⟩)).returned.map fun r => (r.request, r.result)) =
        [(⟨2, .getInfo⟩, .error "rpc response id mismatch: requested 2, got 1"),
          (⟨3, .getInfo⟩, .error "rpc response id mismatch: requested 3, got 2")] ∧
      ¬ ∀ r ∈ (abandoned.foldl advance (spawn ⟨0⟩)).returned, Paired swapCounter r := by
  have hreturned : (abandoned.foldl advance (spawn ⟨0⟩)).returned.map (fun r => (r.request, r.result)) =
      [(⟨2, .getInfo⟩, .error "rpc response id mismatch: requested 2, got 1"),
        (⟨3, .getInfo⟩, .error "rpc response id mismatch: requested 3, got 2")] := by decide +kernel
  refine ⟨run_advance (by decide +kernel), hreturned, fun hall => ?_⟩
  have hok : ∀ x ∈ (abandoned.foldl advance (spawn ⟨0⟩)).returned.map (fun r => (r.request, r.result)),
      ∃ response, x.2 = .ok response := by
    intro x hx
    obtain ⟨r, hr, rfl⟩ := List.mem_map.1 hx
    obtain ⟨handler, -, hresult⟩ := hall r hr
    exact ⟨_, hresult⟩
  rw [hreturned] at hok
  obtain ⟨response, h⟩ := hok _ List.mem_cons_self
  cases h

/-- A client that goes away before its request has left, and then one that stays; the pieces are as they come. -/
def patient : List Act := [.call .getInfo, .cut, .call .getInfo, .write 4, .write 7, .serve, .read 5, .read 12]

theorem calls_paired_patient :
    (patient.foldl advance (spawn ⟨0⟩)).returned.map (fun r => (r.request, r.result)) =
        [(⟨2, .getInfo⟩, .ok ⟨2, .error .quoteNotFound⟩)] ∧
      ∀ r ∈ (patient.foldl advance (spawn ⟨0⟩)).returned, Paired swapCounter r := by
  have hclean : ∀ e ∈ Run.trace advance (spawn ⟨0⟩) patient, e.act = .cut →
      e.pre.phase = .writing ⟨1, .getInfo⟩ (requestLine ⟨1, .getInfo⟩) := by decide +kernel
  refine ⟨by decide +kernel, ?_⟩
  exact (calls_paired (run_advance (by decide +kernel)) fun e he hcut => ⟨_, hclean e he hcut⟩).1

end MintProcess
end toy

end Micronuts
