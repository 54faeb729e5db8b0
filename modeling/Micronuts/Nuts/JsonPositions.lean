import Micronuts.Nuts.JsonParser

/-!
# Positions and the bytes that follow

At every position the parser does what the scanner does on the bytes that follow (`Reads`), and it never looks past the end.
Every reader of the scanner that succeeds takes something off the front, which bounds the recursion.
-/

namespace Micronuts
namespace Json
namespace Parser
open Exec

/-! ### Positions -/

/-- At `pos` the bytes `bs` are still to be read. -/
structure At (bytes : Bytes) (pos : Nat) (bs : Bytes) : Prop where
  le : pos ≤ bytes.length
  drop : bytes.drop pos = bs

/-- The method does at `pos` what the reader does on the bytes that follow. -/
def Reads {α : Type} (m : ParserM α) (bytes : Bytes) (pos : Nat) (r : Option (α × Bytes)) : Prop :=
  m.Ends bytes pos fun o t =>
    match r with
    | some (a, rest) => o = .ok a ∧ At bytes t rest
    | none => o = .err ()

section
variable {bytes bs : Bytes} {pos : Nat}

namespace At

theorem getElem? (h : At bytes pos bs) : bytes[pos]? = bs.head? := by
  rw [← h.drop, List.head?_drop]

theorem length (h : At bytes pos bs) : pos + bs.length = bytes.length := by
  have := h.le
  rw [← h.drop, List.length_drop]
  omega

theorem advance {l rest : Bytes} (h : At bytes pos (l ++ rest)) : At bytes (pos + l.length) rest := by
  constructor
  · have := h.length
    rw [List.length_append] at this
    omega
  · rw [← List.drop_drop, h.drop, List.drop_left]

theorem next {b : UInt8} {rest : Bytes} (h : At bytes pos (b :: rest)) : At bytes (pos + 1) rest :=
  h.advance (l := [b])

theorem skipFrom (h : At bytes pos bs) (p : UInt8 → Bool) : At bytes (Parser.skipFrom p bytes pos) (bs.dropWhile p) := by
  induction bs generalizing pos with
  | nil =>
    have hend : ¬ pos < bytes.length := by
      have := h.length
      rw [List.length_nil] at this
      omega
    rw [Parser.skipFrom, dif_neg hend]
    exact h
  | cons b bs ih =>
    have hlt : pos < bytes.length := by
      have := h.length
      rw [List.length_cons] at this
      omega
    have hb : bytes[pos] = b := by
      have := h.getElem?
      rw [List.getElem?_eq_getElem hlt] at this
      exact Option.some.inj this
    rw [Parser.skipFrom, dif_pos hlt, hb, List.dropWhile_cons]
    split
    · exact ih h.next
    · exact h

end At

namespace Reads
variable {α β : Type} {m : ParserM α} {k : α → ParserM β} {r : Option (α × Bytes)}

theorem pure {a : α} (h : At bytes pos bs) : Reads (Pure.pure a) bytes pos (some (a, bs)) := ⟨rfl, h⟩

theorem fail : Reads (Exec.fail () : ParserM α) bytes pos none := rfl

theorem bind {g : α × Bytes → Option (β × Bytes)} (hm : Reads m bytes pos r)
    (hk : ∀ a rest t, r = some (a, rest) → At bytes t rest → Reads (k a) bytes t (g (a, rest))) :
    Reads (m >>= k) bytes pos (r.bind g) := by
  refine Ends.bind hm (fun a t h => ?_) (fun e t h => ?_) fun t h => ?_
  · rcases r with - | ⟨a', rest⟩
    · cases h
    · obtain ⟨ha, hat⟩ := h
      cases ha
      exact hk a rest t rfl hat
  · rcases r with - | ⟨a', rest⟩
    · cases h
      rfl
    · cases h.1
  · rcases r with - | ⟨a', rest⟩
    · cases h
    · cases h.1

/-- A method without a value. -/
theorem bind_unit {m : ParserM Unit} {k : Unit → ParserM β} {r : Option Bytes} {g : Bytes → Option (β × Bytes)}
    (hm : Reads m bytes pos (r.map ((), ·)))
    (hk : ∀ rest t, r = some rest → At bytes t rest → Reads (k ()) bytes t (g rest)) :
    Reads (m >>= k) bytes pos (r.bind g) := by
  have hbind := bind (g := fun ar => g ar.2) hm fun a rest t hr hat => by
    obtain ⟨rest', hr, heq⟩ := Option.map_eq_some_iff.1 hr
    cases heq
    exact hk rest t hr hat
  cases r with
  | none => exact hbind
  | some rest => exact hbind

theorem bind_peek {k : Option UInt8 → ParserM β} {r : Option (β × Bytes)} (h : At bytes pos bs)
    (hk : Reads (k bs.head?) bytes pos r) : Reads (Parser.peek >>= k) bytes pos r := by
  rw [← h.getElem?] at hk
  exact hk

end Reads

/-! ### Single bytes -/

theorem bump_reads (h : At bytes pos bs) : Reads bump bytes pos (Json.bump bs) := by
  refine Reads.bind_peek h ?_
  cases bs with
  | nil => exact Reads.fail
  | cons b bs => exact ⟨rfl, h.next⟩

theorem expect_reads (c : Char) (h : At bytes pos bs) : Reads (expect c) bytes pos ((Json.expect c bs).map ((), ·)) := by
  cases bs with
  | nil => exact Reads.bind (bump_reads h) (g := fun _ => none) nofun
  | cons b bs =>
    refine Reads.bind (bump_reads h) (g := fun ar => (Json.expect c (b :: bs)).map ((), ·)) ?_
    rintro a rest t ⟨⟩ hat
    simp only [Json.expect]
    split
    · exact Reads.pure hat
    · exact Reads.fail

theorem skipWhile_reads (p : UInt8 → Bool) (h : At bytes pos bs) :
    Reads (skipWhile p) bytes pos (some ((), bs.dropWhile p)) := ⟨rfl, h.skipFrom p⟩

theorem skipWs_reads (h : At bytes pos bs) : Reads skipWs bytes pos (some ((), Json.skipWs bs)) := skipWhile_reads isWs h

theorem bind_skipWs_reads {α : Type} {k : Unit → ParserM α} {r : Option (α × Bytes)} (h : At bytes pos bs)
    (hk : ∀ t, At bytes t (Json.skipWs bs) → Reads (k ()) bytes t r) : Reads (skipWs >>= k) bytes pos r := by
  refine Reads.bind (skipWs_reads h) (g := fun _ => r) ?_
  rintro ⟨⟩ rest t ⟨⟩ hat
  exact hk t hat

theorem parseLiteral_reads (literal : String) (value : Json) (h : At bytes pos bs) :
    Reads (parseLiteral literal value) bytes pos (Json.parseLiteral literal value bs) := by
  have hremaining : Reads remaining bytes pos (some (bs, bs)) := by
    show Ends remaining bytes pos _
    unfold Ends run remaining
    rw [if_pos h.le, h.drop]
    exact ⟨rfl, h⟩
  refine Reads.bind hremaining (g := fun ar => Json.parseLiteral literal value ar.1) ?_
  rintro a rest t ⟨⟩ hat
  unfold Json.parseLiteral
  change Reads _ bytes t (if (asBytes literal).isPrefixOf bs then some (value, bs.drop (asBytes literal).length) else none)
  split
  · next hprefix =>
    obtain ⟨tail, htail⟩ := List.isPrefixOf_iff_prefix.1 hprefix
    rw [← htail] at hat ⊢
    rw [List.drop_left]
    exact ⟨rfl, hat.advance⟩
  · exact Reads.fail

/-! ### Escapes and strings -/

/-- After a read the byte that was read can be read again. -/
theorem lastFrom_reads {b : UInt8} {rest : Bytes} {t : Nat} (h : At bytes pos (b :: rest)) (ht : At bytes t rest)
    (base : Char) (offset : Nat) : Reads (lastFrom base offset) bytes t (some (b.toNat - base.toNat + offset, rest)) := by
  obtain rfl : t = pos + 1 := by
    have := h.length
    have := ht.length
    rw [List.length_cons] at *
    omega
  have hb : bytes[pos]? = some b := h.getElem?
  have hrun : last.run bytes (pos + 1) = (.ok b, pos + 1) := by simp [last, run, hb]
  have hlast : Reads last bytes (pos + 1) (some (b, rest)) := Ends.of_run hrun ⟨rfl, ht⟩
  refine Reads.bind hlast (g := fun ar => some (ar.1.toNat - base.toNat + offset, ar.2)) ?_
  rintro a rest' t ⟨⟩ hat
  exact Reads.pure hat

theorem hexDigit_lt {b : UInt8} {x : Nat} (h : hexDigit b = some x) : x < 16 := by
  unfold hexDigit at h
  split at h
  · next hb =>
    cases h
    simp only [isDigit, Bool.and_eq_true, decide_eq_true_eq, UInt8.le_iff_toNat_le] at hb
    have : b.toNat ≤ 57 := hb.2
    have : '0'.toNat = 48 := rfl
    omega
  · split at h
    · next hb =>
      cases h
      simp only [Bool.and_eq_true, decide_eq_true_eq, UInt8.le_iff_toNat_le] at hb
      have : b.toNat ≤ 102 := hb.2
      have : 'a'.toNat = 97 := rfl
      omega
    · split at h
      · next hb =>
        cases h
        simp only [Bool.and_eq_true, decide_eq_true_eq, UInt8.le_iff_toNat_le] at hb
        have : b.toNat ≤ 70 := hb.2
        have : 'A'.toNat = 65 := rfl
        omega
      · cases h

/-- One digit, as the scanner reads it. -/
def hexStep (value : Nat) (bs : Bytes) : Option (Nat × Bytes) :=
  (Json.bump bs).bind fun br => ((hexDigit br.1).map (·, br.2)).bind fun dr => some (value * 16 + dr.1, dr.2)

theorem hexStep_lt {value value' : Nat} {rest : Bytes} (h : hexStep value bs = some (value', rest)) :
    value' < value * 16 + 16 := by
  obtain ⟨br, -, h⟩ := Option.bind_eq_some_iff.1 h
  obtain ⟨dr, hread, h⟩ := Option.bind_eq_some_iff.1 h
  obtain ⟨digit, hdigit, rfl⟩ := Option.map_eq_some_iff.1 hread
  have hlt := hexDigit_lt hdigit
  cases h
  exact Nat.add_lt_add_left hlt _

theorem parseHexDigit_reads {value : Nat} (hvalue : value < 0x1000) (h : At bytes pos bs) :
    Reads (parseHexDigit value) bytes pos (hexStep value bs) := by
  refine Reads.bind (bump_reads h) ?_
  intro b rest t hb ht
  have hbs : bs = b :: rest := by
    cases bs with
    | nil => cases hb
    | cons b' bs =>
      cases hb
      rfl
  rw [hbs] at h
  have hdigit : Reads (lastDigit b) bytes t ((hexDigit b).map (·, rest)) := by
    unfold lastDigit hexDigit
    split
    · exact lastFrom_reads h ht '0' 0
    · split
      · exact lastFrom_reads h ht 'a' 10
      · split
        · exact lastFrom_reads h ht 'A' 10
        · exact Reads.fail
  refine Reads.bind hdigit ?_
  intro digit rest' t' hread hat
  obtain ⟨digit', hdigit, heq⟩ := Option.map_eq_some_iff.1 hread
  cases heq
  have hlt := hexDigit_lt hdigit
  rw [if_pos (by omega)]
  exact Reads.pure hat

theorem hexStep_nil (value : Nat) : hexStep value [] = none := rfl

theorem hexStep_cons (value : Nat) (b : UInt8) (bs : Bytes) :
    hexStep value (b :: bs) = (hexDigit b).bind fun digit => some (value * 16 + digit, bs) := by
  cases hb : hexDigit b <;> simp [hexStep, Json.bump, hb]

theorem parseHex4_eq (bs : Bytes) : Json.parseHex4 bs =
    (hexStep 0 bs).bind fun r => (hexStep r.1 r.2).bind fun r => (hexStep r.1 r.2).bind fun r => hexStep r.1 r.2 := by
  rcases bs with - | ⟨a, - | ⟨b, - | ⟨c, - | ⟨d, bs⟩⟩⟩⟩
  · rfl
  · cases ha : hexDigit a <;> simp [Json.parseHex4, hexStep_cons, hexStep_nil, ha]
  · cases ha : hexDigit a <;> cases hb : hexDigit b <;> simp [Json.parseHex4, hexStep_cons, hexStep_nil, ha, hb]
  · cases ha : hexDigit a <;> cases hb : hexDigit b <;> cases hc : hexDigit c <;>
      simp [Json.parseHex4, hexStep_cons, hexStep_nil, ha, hb, hc]
  · cases ha : hexDigit a <;> cases hb : hexDigit b <;> cases hc : hexDigit c <;> cases hd : hexDigit d <;>
      simp [Json.parseHex4, hexStep_cons, ha, hb, hc, hd]

theorem parseHex4_reads (h : At bytes pos bs) : Reads parseHex4 bytes pos (Json.parseHex4 bs) := by
  rw [parseHex4_eq]
  refine Reads.bind (parseHexDigit_reads (by omega) h) fun a rest t ha h => ?_
  have := hexStep_lt ha
  refine Reads.bind (parseHexDigit_reads (by omega) h) fun b rest t hb h => ?_
  have := hexStep_lt hb
  refine Reads.bind (parseHexDigit_reads (by omega) h) fun c rest t hc h => ?_
  have := hexStep_lt hc
  exact parseHexDigit_reads (by omega) h

theorem okOr_reads {α : Type} (x : Option α) (h : At bytes pos bs) :
    Reads (Exec.okOr x ()) bytes pos (x.map (·, bs)) := by
  cases x with
  | none => exact Reads.fail
  | some a => exact Reads.pure h

theorem parseUnicodeEscape_reads (h : At bytes pos bs) :
    Reads parseUnicodeEscape bytes pos (Json.parseUnicodeEscape bs) := by
  -- the character of a code point
  have hchar : ∀ {t : Nat} {rest : Bytes} (x : Option Char), At bytes t rest →
      Reads (do
        let ch ← okOr x ()
        pure (String.utf8EncodeChar ch)) bytes t (x.bind fun ch => some (String.utf8EncodeChar ch, rest)) := by
    intro t rest x h
    cases x with
    | none => exact Reads.fail
    | some ch => exact Reads.pure h
  unfold parseUnicodeEscape Json.parseUnicodeEscape
  refine Reads.bind (parseHex4_reads h) fun code rest t _ h => ?_
  dsimp only
  split
  · refine Reads.bind_unit (expect_reads '\\' h) fun rest t _ h => ?_
    refine Reads.bind_unit (expect_reads 'u' h) fun rest t _ h => ?_
    refine Reads.bind (parseHex4_reads h) fun low rest t _ h => ?_
    dsimp only
    split
    · generalize charFromU32 (0x10000 + (code - 0xD800) * 2 ^ 10 + (low - 0xDC00)) = x
      exact hchar x h
    · exact Reads.fail
  · split
    · exact Reads.fail
    · generalize charFromU32 code = x
      exact hchar x h

theorem parseEscape_reads (h : At bytes pos bs) : Reads parseEscape bytes pos (Json.parseEscape bs) := by
  unfold parseEscape Json.parseEscape
  refine Reads.bind (bump_reads h) fun b rest t _ h => ?_
  dsimp only
  iterate 8
    split
    · exact Reads.pure h
  split
  · exact parseUnicodeEscape_reads h
  · exact Reads.fail

/-! ### Progress -/

theorem bump_length {b : UInt8} {rest : Bytes} (h : Json.bump bs = some (b, rest)) : rest.length < bs.length := by
  cases bs with
  | nil => cases h
  | cons a bs =>
    cases h
    exact Nat.lt_succ_self _

theorem expect_length {c : Char} {rest : Bytes} (h : Json.expect c bs = some rest) : rest.length < bs.length := by
  cases bs with
  | nil => cases h
  | cons a bs =>
    simp only [Json.expect] at h
    split at h
    · cases h
      exact Nat.lt_succ_self _
    · cases h

theorem skipWs_length (bs : Bytes) : (Json.skipWs bs).length ≤ bs.length := (List.dropWhile_sublist _).length_le

theorem parseHex4_length {code : Nat} {rest : Bytes} (h : Json.parseHex4 bs = some (code, rest)) :
    rest.length < bs.length := by
  unfold Json.parseHex4 at h
  split at h
  · obtain ⟨x, -, h⟩ := Option.bind_eq_some_iff.1 h
    obtain ⟨y, -, h⟩ := Option.bind_eq_some_iff.1 h
    obtain ⟨z, -, h⟩ := Option.bind_eq_some_iff.1 h
    obtain ⟨u, -, h⟩ := Option.bind_eq_some_iff.1 h
    cases h
    simp only [List.length_cons]
    omega
  · cases h

theorem parseUnicodeEscape_length {out rest : Bytes} (h : Json.parseUnicodeEscape bs = some (out, rest)) :
    rest.length < bs.length := by
  obtain ⟨⟨code, bs₁⟩, h₁, h⟩ := Option.bind_eq_some_iff.1 h
  have hlen₁ := parseHex4_length h₁
  dsimp only at h
  split at h
  · obtain ⟨bs₂, h₂, h⟩ := Option.bind_eq_some_iff.1 h
    obtain ⟨bs₃, h₃, h⟩ := Option.bind_eq_some_iff.1 h
    obtain ⟨⟨low, bs₄⟩, h₄, h⟩ := Option.bind_eq_some_iff.1 h
    have hlen₂ := expect_length h₂
    have hlen₃ := expect_length h₃
    have hlen₄ := parseHex4_length h₄
    dsimp only at h
    split at h
    · obtain ⟨ch, -, h⟩ := Option.bind_eq_some_iff.1 h
      cases h
      omega
    · cases h
  · split at h
    · cases h
    · obtain ⟨ch, -, h⟩ := Option.bind_eq_some_iff.1 h
      cases h
      exact hlen₁

theorem parseEscape_length {out rest : Bytes} (h : Json.parseEscape bs = some (out, rest)) : rest.length < bs.length := by
  obtain ⟨⟨b, bs₁⟩, h₁, h⟩ := Option.bind_eq_some_iff.1 h
  have hlen := bump_length h₁
  dsimp only at h
  iterate 8
    split at h
    · cases h
      exact hlen
  split at h
  · have := parseUnicodeEscape_length h
    omega
  · cases h

theorem parseStringBody_length {n : Nat} {out rest : Bytes} (h : Json.parseStringBody n bs = some (out, rest)) :
    rest.length < bs.length := by
  induction n generalizing bs out rest with
  | zero => cases h
  | succ n ih =>
    unfold parseStringBody at h
    obtain ⟨⟨b, bs₁⟩, h₁, h⟩ := Option.bind_eq_some_iff.1 h
    have hlen₁ := bump_length h₁
    dsimp only at h
    split at h
    · cases h
      exact hlen₁
    · split at h
      · obtain ⟨⟨ch, bs₂⟩, h₂, h⟩ := Option.bind_eq_some_iff.1 h
        obtain ⟨⟨out', bs₃⟩, h₃, h⟩ := Option.bind_eq_some_iff.1 h
        have hlen₂ := parseEscape_length h₂
        have hlen₃ := ih h₃
        cases h
        dsimp only at hlen₃ ⊢
        omega
      · split at h
        · cases h
        · obtain ⟨⟨out', bs₂⟩, h₂, h⟩ := Option.bind_eq_some_iff.1 h
          have hlen₂ := ih h₂
          cases h
          dsimp only
          omega

theorem parseString_length {s : String} {rest : Bytes} (h : Json.parseString bs = some (s, rest)) :
    rest.length < bs.length := by
  obtain ⟨bs₁, h₁, h⟩ := Option.bind_eq_some_iff.1 h
  obtain ⟨⟨out, bs₂⟩, h₂, h⟩ := Option.bind_eq_some_iff.1 h
  obtain ⟨s', -, h⟩ := Option.bind_eq_some_iff.1 h
  have := expect_length h₁
  have := parseStringBody_length h₂
  cases h
  omega

/-! ### Strings -/

/-- The loop, after the bytes of `out`. -/
theorem parseStringLoop_reads {n m : Nat} (out : Bytes) (hn : bs.length < n) (hm : bs.length < m) (h : At bytes pos bs) :
    Reads (parseStringLoop n out) bytes pos
      ((parseStringBody m bs).bind fun r => (String.fromUTF8? ⟨⟨out ++ r.1⟩⟩).bind fun s => some (s, r.2)) := by
  induction n generalizing m bs pos out with
  | zero => exact absurd hn (Nat.not_lt_zero _)
  | succ n ih =>
    obtain ⟨m, rfl⟩ : ∃ k, m = k + 1 := ⟨m - 1, by omega⟩
    rw [parseStringLoop, parseStringBody, Option.bind_eq_bind, Option.bind_assoc]
    refine Reads.bind (bump_reads h) fun b rest t hb h => ?_
    have hlen := bump_length hb
    dsimp only
    split
    · show Reads _ _ _ ((some ([], rest)).bind _)
      rw [Option.bind_some, List.append_nil]
      generalize String.fromUTF8? ⟨⟨out⟩⟩ = x
      cases x with
      | none => exact Reads.fail
      | some s => exact Reads.pure h
    · split
      · rw [Option.bind_eq_bind, Option.bind_assoc]
        refine Reads.bind (parseEscape_reads h) fun ch rest t hch h => ?_
        have hlen' := parseEscape_length hch
        have hloop := ih (out ++ ch) (m := m) (by omega) (by omega) h
        dsimp only
        rw [Option.bind_assoc]
        simpa only [List.append_assoc, Option.pure_def, Option.bind_some] using hloop
      · split
        · exact Reads.fail
        · have hloop := ih (out ++ [b]) (m := m) (by omega) (by omega) h
          rw [Option.bind_eq_bind, Option.bind_assoc]
          simpa only [List.append_assoc, List.singleton_append, Option.pure_def, Option.bind_some] using hloop

theorem parseString_reads {n : Nat} (hn : bs.length ≤ n) (h : At bytes pos bs) :
    Reads (parseString n) bytes pos (Json.parseString bs) := by
  unfold parseString Json.parseString
  refine Reads.bind_unit (expect_reads '"' h) fun rest t hrest h => ?_
  have hlen := expect_length hrest
  exact parseStringLoop_reads [] (by omega) (Nat.lt_succ_self _) h

/-! ### Numbers -/

theorem giveUp_reads (start : Nat) : Reads (giveUp start) bytes pos none := rfl

theorem parseDigits_reads {start : Nat} (h : At bytes pos bs) :
    Reads (parseDigits start) bytes pos ((Json.parseDigits bs).map ((), ·)) := by
  show Reads
      (skipWhile isDigit >>= fun _ => Exec.get >>= fun after => if after = pos then giveUp start else pure ()) bytes pos _
  refine Reads.bind (skipWhile_reads isDigit h) (g := fun _ => (Json.parseDigits bs).map ((), ·)) ?_
  rintro ⟨⟩ rest t ⟨⟩ hat
  show Reads (if t = pos then giveUp start else pure ()) bytes t _
  have hpos := h.length
  have htpos := hat.length
  cases bs with
  | nil =>
    have ht : t = pos := by
      rw [List.dropWhile_nil] at htpos
      omega
    rw [if_pos ht]
    exact giveUp_reads start
  | cons b bs =>
    by_cases hb : isDigit b = true
    · have hlen : ((b :: bs).dropWhile isDigit).length ≤ bs.length := by
        rw [List.dropWhile_cons, if_pos hb]
        exact (List.dropWhile_sublist _).length_le
      have ht : t ≠ pos := by
        rw [List.length_cons] at hpos
        omega
      have hread : Json.parseDigits (b :: bs) = some ((b :: bs).dropWhile isDigit) := by
        simp [Json.parseDigits, Json.bump, hb, Json.skipDigits]
      rw [if_neg ht, hread]
      exact Reads.pure hat
    · have hdrop : (b :: bs).dropWhile isDigit = b :: bs := by rw [List.dropWhile_cons, if_neg hb]
      have ht : t = pos := by
        rw [hdrop] at htpos
        omega
      have hread : Json.parseDigits (b :: bs) = none := by simp [Json.parseDigits, Json.bump, hb]
      rw [if_pos ht, hread]
      exact giveUp_reads start

/-- Going over a byte of a class, if one is next. -/
theorem bind_skipOver_reads {α : Type} {p : UInt8 → Bool} {k : Bool → ParserM α} {r : Option (α × Bytes)}
    (h : At bytes pos bs)
    (hnext : ∀ t, bs.head?.any p = true → At bytes t bs.tail → Reads (k true) bytes t r)
    (hstay : bs.head?.any p = false → Reads (k false) bytes pos r) : Reads (skipOver p >>= k) bytes pos r := by
  have hpeek := h.getElem?
  cases hany : bs.head?.any p with
  | false =>
    have hrun : (skipOver p).run bytes pos = (.ok false, pos) := by
      show (Parser.peek >>= fun b =>
          if b.any p then Exec.modify (· + 1) >>= fun _ => pure true else pure false).run bytes pos = _
      rw [run_bind]
      simp [Parser.peek, run, hpeek, hany, Pure.pure]
    show Ends _ bytes pos _
    unfold Ends
    rw [run_bind, hrun]
    exact hstay hany
  | true =>
    have hrun : (skipOver p).run bytes pos = (.ok true, pos + 1) := by
      show (Parser.peek >>= fun b =>
          if b.any p then Exec.modify (· + 1) >>= fun _ => pure true else pure false).run bytes pos = _
      rw [run_bind]
      simp [Parser.peek, run, hpeek, hany, Pure.pure, Bind.bind, Exec.modify]
    have hat : At bytes (pos + 1) bs.tail := by
      cases bs with
      | nil => cases hany
      | cons b bs => exact h.next
    show Ends _ bytes pos _
    unfold Ends
    rw [run_bind, hrun]
    exact hnext (pos + 1) hany hat

theorem expect_eq (c : Char) (bs : Bytes) :
    Json.expect c bs = if bs.head?.any (fun b => b = c.toUInt8) then some bs.tail else none := by
  cases bs with
  | nil => rfl
  | cons b bs => simp [Json.expect]

theorem expect_or_eq (c d : Char) (bs : Bytes) : (Json.expect c bs).or (Json.expect d bs) =
    if bs.head?.any (fun b => b = c.toUInt8 || b = d.toUInt8) then some bs.tail else none := by
  cases bs with
  | nil => rfl
  | cons b bs =>
    by_cases hc : b = c.toUInt8
    · simp [Json.expect, hc]
    · by_cases hd : b = d.toUInt8
      · have hdc : ¬ d.toUInt8 = c.toUInt8 := hd ▸ hc
        simp [Json.expect, hd, hdc]
      · simp [Json.expect, hc, hd]

theorem parseFrac_reads {start : Nat} (h : At bytes pos bs) :
    Reads (parseFrac start) bytes pos ((Json.parseFrac bs).map ((), ·)) := by
  unfold parseFrac Json.parseFrac
  rw [expect_eq]
  refine bind_skipOver_reads h (fun t hany hat => ?_) fun hany => ?_
  · rw [hany]
    exact parseDigits_reads hat
  · rw [hany]
    exact Reads.pure h

theorem parseExp_reads {start : Nat} (h : At bytes pos bs) :
    Reads (parseExp start) bytes pos ((Json.parseExp bs).map ((), ·)) := by
  unfold parseExp Json.parseExp
  rw [expect_or_eq]
  refine bind_skipOver_reads h (fun t hany hat => ?_) fun hany => ?_
  · rw [hany, if_pos rfl, if_pos rfl]
    dsimp only
    rw [expect_or_eq]
    refine bind_skipOver_reads hat (fun t hsign hat => ?_) fun hsign => ?_
    · rw [hsign]
      exact parseDigits_reads hat
    · rw [hsign]
      exact parseDigits_reads hat
  · rw [hany]
    exact Reads.pure h

/-- The digits before the point, as the scanner reads them. -/
def intStep (bs : Bytes) : Option Bytes :=
  (Json.bump bs).bind fun br =>
    if br.1 = '0'.toUInt8 then some br.2 else if isDigit br.1 then some (skipDigits br.2) else none

theorem parseInt_reads {start : Nat} (h : At bytes pos bs) : Reads (parseInt start) bytes pos ((intStep bs).map ((), ·)) := by
  unfold parseInt intStep
  rw [Option.map_bind]
  refine Reads.bind (bump_reads h) fun b rest t hb hat => ?_
  dsimp only [Function.comp]
  split
  · exact Reads.pure hat
  · split
    · exact skipWhile_reads isDigit hat
    · exact giveUp_reads start

theorem parseNumber_eq_steps (bs : Bytes) : Json.parseNumber bs =
    (intStep ((Json.expect '-' bs).getD bs)).bind fun bs => (Json.parseFrac bs).bind fun bs =>
      (Json.parseExp bs).bind fun bs =>
      some (.number, bs) := by
  unfold Json.parseNumber intStep
  rw [Option.bind_eq_bind, Option.bind_assoc]
  congr 1
  funext ⟨b, rest⟩
  dsimp only
  split
  · rfl
  · split <;> rfl

theorem parseNumber_reads (h : At bytes pos bs) : Reads parseNumber bytes pos (Json.parseNumber bs) := by
  rw [parseNumber_eq_steps]
  show Reads (skipOver (fun b => b = '-'.toUInt8) >>= fun _ => parseInt pos >>= fun _ => parseFrac pos >>= fun _ =>
    parseExp pos >>= fun _ => pure Json.number) bytes pos _
  have hrest : ∀ {bs : Bytes} {t : Nat}, At bytes t bs → Reads (parseInt pos >>= fun _ => parseFrac pos >>= fun _ =>
      parseExp pos >>= fun _ => pure Json.number) bytes t ((intStep bs).bind fun bs => (Json.parseFrac bs).bind fun bs =>
        (Json.parseExp bs).bind fun bs => some (.number, bs)) := by
    intro bs t h
    refine Reads.bind_unit (parseInt_reads h) fun rest t _ h => ?_
    refine Reads.bind_unit (parseFrac_reads h) fun rest t _ h => ?_
    exact Reads.bind_unit (parseExp_reads h) fun rest t _ h => Reads.pure h
  rw [expect_eq]
  refine bind_skipOver_reads h (fun t hany hat => ?_) fun hany => ?_
  · rw [hany]
    exact hrest hat
  · rw [hany]
    exact hrest h

theorem parseDigits_length {rest : Bytes} (h : Json.parseDigits bs = some rest) : rest.length < bs.length := by
  obtain ⟨⟨b, bs₁⟩, h₁, h⟩ := Option.bind_eq_some_iff.1 h
  have hlen := bump_length h₁
  dsimp only at h
  split at h
  · cases h
    have : (skipDigits bs₁).length ≤ bs₁.length := (List.dropWhile_sublist _).length_le
    omega
  · cases h

theorem parseFrac_length {rest : Bytes} (h : Json.parseFrac bs = some rest) : rest.length ≤ bs.length := by
  unfold Json.parseFrac at h
  split at h
  · next bs₁ h₁ =>
    have := expect_length h₁
    have := parseDigits_length h
    omega
  · cases h
    exact Nat.le_refl _

theorem parseExp_length {rest : Bytes} (h : Json.parseExp bs = some rest) : rest.length ≤ bs.length := by
  unfold Json.parseExp at h
  rw [expect_or_eq] at h
  have htail : ∀ bs : Bytes, bs.tail.length ≤ bs.length := fun bs => (List.tail_sublist bs).length_le
  split at h
  · next bs₁ h₁ =>
    have hlen := parseDigits_length h
    have hsign : (((Json.expect '+' bs₁).or (Json.expect '-' bs₁)).getD bs₁).length ≤ bs₁.length := by
      rw [expect_or_eq]
      split
      · exact htail bs₁
      · exact Nat.le_refl _
    have hbs₁ : bs₁.length ≤ bs.length := by
      split at h₁
      · cases h₁
        exact htail bs
      · cases h₁
    omega
  · cases h
    exact Nat.le_refl _

theorem parseNumber_length {v : Json} {rest : Bytes} (h : Json.parseNumber bs = some (v, rest)) :
    rest.length < bs.length := by
  rw [parseNumber_eq_steps] at h
  obtain ⟨bs₁, h₁, h⟩ := Option.bind_eq_some_iff.1 h
  obtain ⟨bs₂, h₂, h⟩ := Option.bind_eq_some_iff.1 h
  obtain ⟨bs₃, h₃, h⟩ := Option.bind_eq_some_iff.1 h
  cases h
  have hlen₂ := parseFrac_length h₂
  have hlen₃ := parseExp_length h₃
  have hsign : ((Json.expect '-' bs).getD bs).length ≤ bs.length := by
    rw [expect_eq]
    split
    · exact (List.tail_sublist bs).length_le
    · exact Nat.le_refl _
  obtain ⟨⟨b, rest'⟩, hb, h₁⟩ := Option.bind_eq_some_iff.1 h₁
  have hlen := bump_length hb
  have hskip : (skipDigits rest').length ≤ rest'.length := (List.dropWhile_sublist _).length_le
  dsimp only at h₁
  split at h₁
  · cases h₁
    omega
  · split at h₁
    · cases h₁
      omega
    · cases h₁

theorem parseLiteral_length {literal : String} {value v : Json} {rest : Bytes} (hne : asBytes literal ≠ [])
    (h : Json.parseLiteral literal value bs = some (v, rest)) : rest.length < bs.length := by
  have h : (if (asBytes literal).isPrefixOf bs then some (value, bs.drop (asBytes literal).length) else none) =
      some (v, rest) := h
  split at h
  · next hprefix =>
    cases h
    have hpos := List.length_pos_iff.2 hne
    have hle := (List.isPrefixOf_iff_prefix.1 hprefix).length_le
    rw [List.length_drop]
    omega
  · cases h

end

end Parser
end Json
end Micronuts
