import Mathlib.Data.List.DropRight
import Micronuts.Nuts.JsonExact
import Micronuts.Nuts.JsonPositions

/-!
# The parser accepts the JSON texts

With fuel for twice what is left to read no call of the parser runs out of it, so the parser ends as the scanner does.
-/

namespace Micronuts
namespace Json
namespace Parser
open Exec

section
variable {bytes bs : Bytes} {pos : Nat}

/-! ### Values -/

/-- With fuel `n` a reader of values takes something off the front. -/
structure Shortens (n : Nat) : Prop where
  value : ∀ {bs v rest}, Json.parseValue n bs = some (v, rest) → rest.length < bs.length
  members : ∀ {bs members rest}, Json.parseMembers n bs = some (members, rest) → rest.length < bs.length
  items : ∀ {bs items rest}, Json.parseItems n bs = some (items, rest) → rest.length < bs.length

theorem shortens (n : Nat) : Shortens n := by
  induction n with
  | zero =>
    constructor
    · intro bs v rest h
      cases h
    · intro bs members rest h
      cases h
    · intro bs items rest h
      cases h
  | succ n ih =>
    constructor
    · intro bs v rest h
      unfold Json.parseValue at h
      obtain ⟨⟨b, bs₁⟩, hb, h⟩ := Option.bind_eq_some_iff.1 h
      have hlen := bump_length hb
      have hskip := skipWs_length bs₁
      dsimp only at h
      split at h
      · split at h
        · next bs₂ h₂ =>
          have := expect_length h₂
          cases h
          omega
        · obtain ⟨⟨members, bs₂⟩, h₂, h⟩ := Option.bind_eq_some_iff.1 h
          have := ih.members h₂
          cases h
          dsimp only
          omega
      split at h
      · split at h
        · next bs₂ h₂ =>
          have := expect_length h₂
          cases h
          omega
        · obtain ⟨⟨items, bs₂⟩, h₂, h⟩ := Option.bind_eq_some_iff.1 h
          have := ih.items h₂
          cases h
          dsimp only
          omega
      split at h
      · obtain ⟨⟨s, bs₂⟩, h₂, h⟩ := Option.bind_eq_some_iff.1 h
        have := parseString_length h₂
        cases h
        exact this
      split at h
      · exact parseLiteral_length (by decide) h
      split at h
      · exact parseLiteral_length (by decide) h
      split at h
      · exact parseLiteral_length (by decide) h
      split at h
      · exact parseNumber_length h
      · cases h
    · intro bs members rest h
      unfold Json.parseMembers at h
      obtain ⟨⟨key, bs₁⟩, h₁, h⟩ := Option.bind_eq_some_iff.1 h
      obtain ⟨bs₂, h₂, h⟩ := Option.bind_eq_some_iff.1 h
      obtain ⟨⟨v, bs₃⟩, h₃, h⟩ := Option.bind_eq_some_iff.1 h
      obtain ⟨⟨b, bs₄⟩, h₄, h⟩ := Option.bind_eq_some_iff.1 h
      have hlen₁ := parseString_length h₁
      have hlen₂ := expect_length h₂
      have hlen₃ := ih.value h₃
      have hlen₄ := bump_length h₄
      have := skipWs_length bs
      have := skipWs_length bs₁
      have := skipWs_length bs₂
      have := skipWs_length bs₃
      dsimp only at *
      split at h
      · obtain ⟨⟨members', bs₅⟩, h₅, h⟩ := Option.bind_eq_some_iff.1 h
        have := ih.members h₅
        cases h
        dsimp only at *
        omega
      · split at h
        · cases h
          omega
        · cases h
    · intro bs items rest h
      unfold Json.parseItems at h
      obtain ⟨⟨v, bs₁⟩, h₁, h⟩ := Option.bind_eq_some_iff.1 h
      obtain ⟨⟨b, bs₂⟩, h₂, h⟩ := Option.bind_eq_some_iff.1 h
      have hlen₁ := ih.value h₁
      have hlen₂ := bump_length h₂
      have := skipWs_length bs
      have := skipWs_length bs₁
      dsimp only at *
      split at h
      · obtain ⟨⟨items', bs₃⟩, h₃, h⟩ := Option.bind_eq_some_iff.1 h
        have := ih.items h₃
        cases h
        dsimp only at *
        omega
      · split at h
        · cases h
          omega
        · cases h

theorem skipWs_skipWs (bs : Bytes) : Json.skipWs (Json.skipWs bs) = Json.skipWs bs := List.dropWhile_idempotent _ _

theorem parseMembers_skipWs (n : Nat) (bs : Bytes) : Json.parseMembers n (Json.skipWs bs) = Json.parseMembers n bs := by
  cases n with
  | zero => rw [Json.parseMembers, Json.parseMembers]
  | succ n => rw [Json.parseMembers, Json.parseMembers, skipWs_skipWs]

theorem parseItems_skipWs (n : Nat) (bs : Bytes) : Json.parseItems n (Json.skipWs bs) = Json.parseItems n bs := by
  cases n with
  | zero => rw [Json.parseItems, Json.parseItems]
  | succ n => rw [Json.parseItems, Json.parseItems, skipWs_skipWs]

/-- A bracket that closes at once, or the loop. -/
theorem closes_reads {c : Char} {loop : ParserM Json} {v : Json} {r : Option (Json × Bytes)} (h : At bytes pos bs)
    (hloop : Reads loop bytes pos r) : Reads (do
      if (← peek) = some c.toUInt8 then
        Exec.modify (· + 1)
        pure v
      else loop) bytes pos
      (match Json.expect c bs with
        | some rest => some (v, rest)
        | none => r) := by
  refine Reads.bind_peek h ?_
  cases bs with
  | nil => exact hloop
  | cons b bs =>
    by_cases hb : b = c.toUInt8
    · simp only [List.head?_cons, Json.expect, hb, if_true]
      rw [hb] at h
      exact ⟨rfl, h.next⟩
    · have hne : ¬ some b = some c.toUInt8 := fun heq => hb (Option.some.inj heq)
      show Reads (if some b = some c.toUInt8 then _ else loop) bytes pos _
      rw [if_neg hne, Json.expect, if_neg hb]
      exact hloop

theorem parseObject_reads {loop : ParserM Json} {r : Option (Json × Bytes)} (h : At bytes pos ('\x7b'.toUInt8 :: bs))
    (hloop : ∀ t, At bytes t (Json.skipWs bs) → Reads loop bytes t r) : Reads (parseObject loop) bytes pos
      (match Json.expect '\x7d' (Json.skipWs bs) with
        | some rest => some (.object [], rest)
        | none => r) := by
  have hopen : Reads (expect '\x7b') bytes pos (some ((), bs)) := by
    have := expect_reads '\x7b' h
    rwa [Json.expect, if_pos rfl] at this
  refine Reads.bind hopen (g := fun ar => match Json.expect '\x7d' (Json.skipWs bs) with
    | some rest => some (.object [], rest)
    | none => r) ?_
  rintro ⟨⟩ rest t ⟨⟩ h
  exact bind_skipWs_reads h fun t h => closes_reads h (hloop t h)

theorem parseArray_reads {loop : ParserM Json} {r : Option (Json × Bytes)} (h : At bytes pos ('['.toUInt8 :: bs))
    (hloop : ∀ t, At bytes t (Json.skipWs bs) → Reads loop bytes t r) : Reads (parseArray loop) bytes pos
      (match Json.expect ']' (Json.skipWs bs) with
        | some rest => some (.array [], rest)
        | none => r) := by
  have hopen : Reads (expect '[') bytes pos (some ((), bs)) := by
    have := expect_reads '[' h
    rwa [Json.expect, if_pos rfl] at this
  refine Reads.bind hopen (g := fun ar => match Json.expect ']' (Json.skipWs bs) with
    | some rest => some (.array [], rest)
    | none => r) ?_
  rintro ⟨⟩ rest t ⟨⟩ h
  exact bind_skipWs_reads h fun t h => closes_reads h (hloop t h)

end

/-- With fuel `n` for what is left, the parser does what the scanner does. -/
structure Agrees (n : Nat) : Prop where
  value : ∀ {bytes pos bs}, At bytes pos bs → 2 * bs.length + 1 ≤ n → Reads (parseValue n) bytes pos (Json.parseValue n bs)
  members : ∀ {bytes pos bs} members, At bytes pos bs → 2 * bs.length + 2 ≤ n → Reads (parseMembers n members) bytes pos
    ((Json.parseMembers n bs).bind fun r => some (.object (members ++ r.1), r.2))
  items : ∀ {bytes pos bs} items, At bytes pos bs → 2 * bs.length + 2 ≤ n → Reads (parseItems n items) bytes pos
    ((Json.parseItems n bs).bind fun r => some (.array (items ++ r.1), r.2))

theorem agrees (n : Nat) : Agrees n := by
  induction n with
  | zero =>
    constructor
    · intro bytes pos bs h hn
      omega
    · intro bytes pos bs members h hn
      omega
    · intro bytes pos bs items h hn
      omega
  | succ n ih =>
    constructor
    · intro bytes pos bs h hn
      unfold parseValue Json.parseValue
      refine Reads.bind_peek h ?_
      cases bs with
      | nil => exact Reads.fail
      | cons b bs =>
        rw [List.length_cons] at hn
        have hskip := skipWs_length bs
        show Reads (if b = 0x7B then parseObject (parseMembers n []) else _) bytes pos (if b = 0x7B then _ else _)
        split
        · next hb =>
          rw [hb] at h
          refine parseObject_reads h fun t h => ?_
          have := ih.members [] h (by omega)
          rw [parseMembers_skipWs] at this
          exact this
        split
        · next hb =>
          rw [hb] at h
          refine parseArray_reads h fun t h => ?_
          have := ih.items [] h (by omega)
          rw [parseItems_skipWs] at this
          exact this
        split
        · exact Reads.bind (parseString_reads (by rw [List.length_cons]; omega) h) fun s rest t _ h => Reads.pure h
        split
        · exact parseLiteral_reads _ _ h
        split
        · exact parseLiteral_reads _ _ h
        split
        · exact parseLiteral_reads _ _ h
        split
        · exact parseNumber_reads h
        · exact Reads.fail
    · intro bytes pos bs members h hn
      unfold parseMembers Json.parseMembers
      rw [Option.bind_eq_bind, Option.bind_assoc]
      refine bind_skipWs_reads h fun t h => ?_
      have hlen := skipWs_length bs
      refine Reads.bind (parseString_reads (by omega) h) fun key bs₁ t hkey h => ?_
      have hlen₁ := parseString_length hkey
      dsimp only
      rw [Option.bind_eq_bind, Option.bind_assoc]
      refine bind_skipWs_reads h fun t h => ?_
      have hskip₁ := skipWs_length bs₁
      refine Reads.bind_unit (expect_reads ':' h) fun bs₂ t hcolon h => ?_
      have hlen₂ := expect_length hcolon
      have hskip₂ := skipWs_length bs₂
      rw [Option.bind_eq_bind, Option.bind_assoc]
      refine bind_skipWs_reads h fun t h => ?_
      refine Reads.bind (ih.value h (by omega)) fun v bs₃ t hvalue h => ?_
      have hlen₃ := (shortens n).value hvalue
      have hskip₃ := skipWs_length bs₃
      dsimp only
      rw [Option.bind_eq_bind, Option.bind_assoc]
      refine bind_skipWs_reads h fun t h => ?_
      refine Reads.bind (bump_reads h) fun b bs₄ t hbump h => ?_
      have hlen₄ := bump_length hbump
      dsimp only
      split
      · have hloop := ih.members (members ++ [(key, v)]) h (by omega)
        rw [Option.bind_eq_bind, Option.bind_assoc]
        simpa only [List.append_assoc, List.singleton_append, Option.pure_def, Option.bind_some] using hloop
      · split
        · exact Reads.pure h
        · exact Reads.fail
    · intro bytes pos bs items h hn
      unfold parseItems Json.parseItems
      rw [Option.bind_eq_bind, Option.bind_assoc]
      refine bind_skipWs_reads h fun t h => ?_
      have hlen := skipWs_length bs
      refine Reads.bind (ih.value h (by omega)) fun v bs₁ t hvalue h => ?_
      have hlen₁ := (shortens n).value hvalue
      have hskip₁ := skipWs_length bs₁
      dsimp only
      rw [Option.bind_eq_bind, Option.bind_assoc]
      refine bind_skipWs_reads h fun t h => ?_
      refine Reads.bind (bump_reads h) fun b bs₂ t hbump h => ?_
      have hlen₂ := bump_length hbump
      dsimp only
      split
      · have hloop := ih.items (items ++ [v]) h (by omega)
        rw [Option.bind_eq_bind, Option.bind_assoc]
        simpa only [List.append_assoc, List.singleton_append, Option.pure_def, Option.bind_some] using hloop
      · split
        · exact Reads.pure h
        · exact Reads.fail

/-- The parser ends as the scanner does, and it does not panic. -/
theorem parse_eq (s : String) : parse s = match Json.parse s with
    | some v => .ok v
    | none => .err () := by
  have hstart : At (asBytes s) 0 (asBytes s) := ⟨Nat.zero_le _, List.drop_zero⟩
  have hreads : Reads (do
      skipWs
      let value ← parseValue (2 * (asBytes s).length + 2)
      skipWs
      if (← Exec.get) = (asBytes s).length then pure value else Exec.fail ()) (asBytes s) 0
      ((Json.parseValue (2 * (asBytes s).length + 2) (Json.skipWs (asBytes s))).bind fun r =>
        if Json.skipWs r.2 = [] then some (r.1, []) else none) := by
    refine bind_skipWs_reads hstart fun t h => ?_
    have hlen := skipWs_length (asBytes s)
    refine Reads.bind ((agrees _).value h (by omega)) fun v rest t _ h => ?_
    refine bind_skipWs_reads h fun t h => ?_
    show Reads (if t = (asBytes s).length then Pure.pure v else Exec.fail ()) (asBytes s) t _
    have hpos := h.length
    dsimp only
    by_cases hend : Json.skipWs rest = []
    · rw [hend, List.length_nil] at hpos
      rw [hend] at h
      rw [if_pos (by omega), if_pos hend]
      exact Reads.pure h
    · have := List.length_pos_iff.2 hend
      rw [if_neg (by omega), if_neg hend]
      exact Reads.fail
  have hscan : Json.parse s = ((Json.parseValue (2 * (asBytes s).length + 2) (Json.skipWs (asBytes s))).bind fun r =>
      if Json.skipWs r.2 = [] then some (r.1, ([] : Bytes)) else none).map Prod.fst := by
    show ((Json.parseValue (2 * (asBytes s).length + 2) (Json.skipWs (asBytes s))).bind fun r =>
      if Json.skipWs r.2 = [] then some r.1 else none) = _
    rw [Option.map_bind]
    congr 1
    funext r
    dsimp only [Function.comp]
    split
    · rfl
    · rfl
  rw [hscan]
  generalize (Json.parseValue (2 * (asBytes s).length + 2) (Json.skipWs (asBytes s))).bind (fun r =>
    if Json.skipWs r.2 = [] then some (r.1, ([] : Bytes)) else none) = r at hreads ⊢
  cases r with
  | none => exact hreads
  | some r => exact hreads.1

/-- The parser ends on every text, with no index out of bounds; it accepts the JSON texts and nothing else, and gives the
value that the text stands for. -/
theorem parse_exact (s : String) : parse s ≠ .panic ∧ (∀ v, parse s = .ok v ↔ JsonText.Document s.toList v) ∧
    ∀ v, Json.parse s = some v ↔ parse s = .ok v := by
  have heq := parse_eq s
  have hiff := JsonText.parse_iff s
  generalize Json.parse s = r at heq hiff
  cases r with
  | none =>
    refine ⟨by rw [heq]; nofun, fun v => ?_, fun v => ?_⟩
    · rw [← hiff v, heq]
      exact ⟨nofun, nofun⟩
    · rw [heq]
      exact ⟨nofun, nofun⟩
  | some v' =>
    have hok : ∀ v, parse s = .ok v ↔ some v' = some v := by
      intro v
      rw [heq]
      exact ⟨fun h => congrArg some (Outcome.ok.inj h), fun h => congrArg Outcome.ok (Option.some.inj h)⟩
    exact ⟨by rw [heq]; nofun, fun v => (hok v).trans (hiff v), fun v => (hok v).symm⟩

end Parser
end Json
end Micronuts
