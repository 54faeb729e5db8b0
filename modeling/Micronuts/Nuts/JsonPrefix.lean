import Mathlib.Data.List.TakeWhile
import Micronuts.Nuts.Json

/-!
# The scanner stops where a document ends

What a reader of the scanner takes off the front of a text does not depend on what follows it, except for a number at
the very end, whose digits could go on. So a text that begins with an array document begins with no other one, but for
the whitespace around it (`arrayDocument_append_inj`).
-/

namespace Micronuts
namespace Json

theorem dropWhile_append_of_ne_nil {p : UInt8 → Bool} {bs t : Bytes} (h : bs.dropWhile p ≠ []) :
    (bs ++ t).dropWhile p = bs.dropWhile p ++ t := by
  rw [List.dropWhile_append, if_neg (by rwa [List.isEmpty_iff])]

/-! ### Bytes and literals -/

section
variable {bs rest t : Bytes}

theorem bump_append {b : UInt8} (h : bump bs = some (b, rest)) : bump (bs ++ t) = some (b, rest ++ t) := by
  cases bs with
  | nil => cases h
  | cons a bs => cases h; rfl

theorem expect_append_map (c : Char) (hne : bs ≠ []) : expect c (bs ++ t) = (expect c bs).map (· ++ t) := by
  cases bs with
  | nil => exact absurd rfl hne
  | cons a bs =>
    simp only [expect, List.cons_append]
    split <;> rfl

theorem expect_append {c : Char} (h : expect c bs = some rest) : expect c (bs ++ t) = some (rest ++ t) := by
  have hne : bs ≠ [] := by rintro rfl; cases h
  rw [expect_append_map c hne, h]; rfl

theorem skipWs_append (h : skipWs bs ≠ []) : skipWs (bs ++ t) = skipWs bs ++ t := dropWhile_append_of_ne_nil h

theorem parseLiteral_append {literal : String} {value v : Json} (h : parseLiteral literal value bs = some (v, rest)) :
    parseLiteral literal value (bs ++ t) = some (v, rest ++ t) := by
  unfold parseLiteral at h ⊢
  dsimp only at h ⊢
  generalize literal.toByteArray.data.toList = l at h ⊢
  split at h
  · next hl =>
    obtain ⟨tail, rfl⟩ := List.isPrefixOf_iff_prefix.1 hl
    cases h
    rw [if_pos (List.isPrefixOf_iff_prefix.2 ⟨tail ++ t, by rw [List.append_assoc]⟩)]
    simp [List.append_assoc]
  · cases h

/-! ### Strings -/

theorem parseHex4_append {n : Nat} (h : parseHex4 bs = some (n, rest)) : parseHex4 (bs ++ t) = some (n, rest ++ t) := by
  unfold parseHex4 at h
  split at h
  · next a b c d bs =>
    simp only [List.cons_append, parseHex4]
    simp only [Option.bind_eq_bind, Option.bind_eq_some_iff, Option.pure_def, Option.some.injEq, Prod.mk.injEq] at h ⊢
    obtain ⟨x, hx, y, hy, z, hz, u, hu, hn, rfl⟩ := h
    exact ⟨x, hx, y, hy, z, hz, u, hu, hn, rfl⟩
  · cases h

theorem parseUnicodeEscape_append {out : Bytes} (h : parseUnicodeEscape bs = some (out, rest)) :
    parseUnicodeEscape (bs ++ t) = some (out, rest ++ t) := by
  unfold parseUnicodeEscape at h ⊢
  obtain ⟨⟨code, bs₁⟩, hcode, h⟩ := Option.bind_eq_some_iff.1 h
  refine Option.bind_eq_some_iff.2 ⟨_, parseHex4_append hcode, ?_⟩
  dsimp only at h ⊢
  split at h
  · next hhigh =>
    rw [if_pos hhigh]
    obtain ⟨bs₂, h₂, h⟩ := Option.bind_eq_some_iff.1 h
    obtain ⟨bs₃, h₃, h⟩ := Option.bind_eq_some_iff.1 h
    obtain ⟨⟨low, bs₄⟩, h₄, h⟩ := Option.bind_eq_some_iff.1 h
    refine Option.bind_eq_some_iff.2 ⟨_, expect_append h₂, ?_⟩
    refine Option.bind_eq_some_iff.2 ⟨_, expect_append h₃, ?_⟩
    refine Option.bind_eq_some_iff.2 ⟨_, parseHex4_append h₄, ?_⟩
    dsimp only at h ⊢
    split at h
    · next hlow =>
      rw [if_pos hlow]
      obtain ⟨ch, hch, h⟩ := Option.bind_eq_some_iff.1 h
      cases h
      exact Option.bind_eq_some_iff.2 ⟨ch, hch, rfl⟩
    · cases h
  · next hhigh =>
    rw [if_neg hhigh]
    split at h
    · cases h
    · next hlow =>
      rw [if_neg hlow]
      obtain ⟨ch, hch, h⟩ := Option.bind_eq_some_iff.1 h
      cases h
      exact Option.bind_eq_some_iff.2 ⟨ch, hch, rfl⟩

/-- A test on the byte that was read takes the same branch whatever follows. -/
theorem ite_append {α : Type} {c : Prop} [Decidable c] {x y x' y' : Option (α × Bytes)} {a : α}
    (h : (if c then x else y) = some (a, rest)) (hx : c → x = some (a, rest) → x' = some (a, rest ++ t))
    (hy : ¬ c → y = some (a, rest) → y' = some (a, rest ++ t)) : (if c then x' else y') = some (a, rest ++ t) := by
  split at h
  · next hc => rw [if_pos hc]; exact hx hc h
  · next hc => rw [if_neg hc]; exact hy hc h

theorem pure_append {α : Type} {a b : α} (h : (pure (a, bs) : Option (α × Bytes)) = some (b, rest)) :
    (pure (a, bs ++ t) : Option (α × Bytes)) = some (b, rest ++ t) := by
  cases h; rfl

theorem parseEscape_append {out : Bytes} (h : parseEscape bs = some (out, rest)) :
    parseEscape (bs ++ t) = some (out, rest ++ t) := by
  unfold parseEscape at h ⊢
  obtain ⟨⟨b, bs₁⟩, hb, h⟩ := Option.bind_eq_some_iff.1 h
  refine Option.bind_eq_some_iff.2 ⟨_, bump_append hb, ?_⟩
  dsimp only at h ⊢
  iterate 8 refine ite_append h (fun _ => pure_append) fun _ h => ?_
  exact ite_append h (fun _ => parseUnicodeEscape_append) fun _ h => by cases h

/-- More fuel reads the same string. -/
theorem parseStringBody_append {n m : Nat} {out : Bytes} (h : parseStringBody n bs = some (out, rest)) (hle : n ≤ m) :
    parseStringBody m (bs ++ t) = some (out, rest ++ t) := by
  induction n generalizing bs out m with
  | zero => cases h
  | succ n ih =>
    obtain ⟨m, rfl⟩ : ∃ k, m = k + 1 := ⟨m - 1, by omega⟩
    unfold parseStringBody at h ⊢
    obtain ⟨⟨b, bs₁⟩, hb, h⟩ := Option.bind_eq_some_iff.1 h
    refine Option.bind_eq_some_iff.2 ⟨_, bump_append hb, ?_⟩
    dsimp only at h ⊢
    refine ite_append h (fun _ => pure_append) fun _ h => ite_append h (fun _ h => ?_) fun _ h => ?_
    · obtain ⟨⟨ch, bs₂⟩, hch, h⟩ := Option.bind_eq_some_iff.1 h
      obtain ⟨⟨out', bs₃⟩, hout, h⟩ := Option.bind_eq_some_iff.1 h
      cases h
      exact Option.bind_eq_some_iff.2 ⟨_, parseEscape_append hch,
        Option.bind_eq_some_iff.2 ⟨_, ih hout (by omega), rfl⟩⟩
    · refine ite_append h (fun _ h => by cases h) fun _ h => ?_
      obtain ⟨⟨out', bs₂⟩, hout, h⟩ := Option.bind_eq_some_iff.1 h
      cases h
      exact Option.bind_eq_some_iff.2 ⟨_, ih hout (by omega), rfl⟩

theorem parseString_append {s : String} (h : parseString bs = some (s, rest)) :
    parseString (bs ++ t) = some (s, rest ++ t) := by
  unfold parseString at h ⊢
  obtain ⟨bs₁, h₁, h⟩ := Option.bind_eq_some_iff.1 h
  obtain ⟨⟨out, bs₂⟩, hout, h⟩ := Option.bind_eq_some_iff.1 h
  obtain ⟨s', hs, h⟩ := Option.bind_eq_some_iff.1 h
  cases h
  have hbody : parseStringBody ((bs₁ ++ t).length + 1) (bs₁ ++ t) = some (out, rest ++ t) :=
    parseStringBody_append hout (by rw [List.length_append]; omega)
  refine Option.bind_eq_some_iff.2 ⟨_, expect_append h₁, Option.bind_eq_some_iff.2 ⟨_, hbody, ?_⟩⟩
  exact Option.bind_eq_some_iff.2 ⟨_, hs, rfl⟩

/-! ### Numbers -/

theorem parseDigits_append (h : parseDigits bs = some rest) (hne : rest ≠ []) :
    parseDigits (bs ++ t) = some (rest ++ t) := by
  unfold parseDigits at h ⊢
  obtain ⟨⟨b, bs₁⟩, hb, h⟩ := Option.bind_eq_some_iff.1 h
  refine Option.bind_eq_some_iff.2 ⟨_, bump_append hb, ?_⟩
  dsimp only at h ⊢
  split at h
  · next hdigit =>
    cases h
    rw [if_pos hdigit]
    exact congrArg some (dropWhile_append_of_ne_nil hne)
  · cases h

theorem parseFrac_append (h : parseFrac bs = some rest) (hne : rest ≠ []) : parseFrac (bs ++ t) = some (rest ++ t) := by
  unfold parseFrac at h ⊢
  split at h
  · next bs₁ h₁ => rw [expect_append h₁]; exact parseDigits_append h hne
  · next h₁ =>
    cases h
    rw [expect_append_map _ hne, h₁]
    rfl

theorem expect_or_append (c d : Char) (hne : bs ≠ []) :
    (expect c (bs ++ t)).or (expect d (bs ++ t)) = ((expect c bs).or (expect d bs)).map (· ++ t) := by
  rw [expect_append_map c hne, expect_append_map d hne]
  cases expect c bs <;> rfl

theorem parseExp_append (h : parseExp bs = some rest) (hne : rest ≠ []) : parseExp (bs ++ t) = some (rest ++ t) := by
  have hbs : bs ≠ [] := by
    rintro rfl
    cases h
    exact hne rfl
  unfold parseExp at h ⊢
  rw [expect_or_append _ _ hbs]
  split at h
  · next bs₁ h₁ =>
    have hbs₁ : bs₁ ≠ [] := by rintro rfl; cases h
    rw [h₁]
    dsimp only [Option.map_some]
    rw [expect_or_append _ _ hbs₁]
    cases hsign : (expect '+' bs₁).or (expect '-' bs₁) with
    | none => rw [hsign] at h; exact parseDigits_append h hne
    | some bs₂ => rw [hsign] at h; exact parseDigits_append h hne
  · next h₁ =>
    cases h
    rw [h₁]
    rfl

/-- What follows the digits before the point. -/
theorem parseFracExp_append {v : Json}
    (h : ((parseFrac bs).bind fun bs => (parseExp bs).bind fun bs => some (number, bs)) = some (v, rest)) (hne : rest ≠ []) :
    bs ≠ [] ∧ ((parseFrac (bs ++ t)).bind fun bs => (parseExp bs).bind fun bs => some (number, bs)) =
      some (v, rest ++ t) := by
  obtain ⟨bs₁, h₁, h⟩ := Option.bind_eq_some_iff.1 h
  obtain ⟨bs₂, h₂, h⟩ := Option.bind_eq_some_iff.1 h
  cases h
  -- nothing is left of an empty text
  have hne₁ : bs₁ ≠ [] := by
    rintro rfl
    cases h₂
    exact hne rfl
  constructor
  · rintro rfl
    cases h₁
    exact hne₁ rfl
  · exact Option.bind_eq_some_iff.2 ⟨_, parseFrac_append h₁ hne₁,
      Option.bind_eq_some_iff.2 ⟨_, parseExp_append h₂ hne, rfl⟩⟩

theorem parseNumber_append {v : Json} (h : parseNumber bs = some (v, rest)) (hne : rest ≠ []) :
    parseNumber (bs ++ t) = some (v, rest ++ t) := by
  have hbs : bs ≠ [] := by rintro rfl; cases h
  have hsign : (expect '-' (bs ++ t)).getD (bs ++ t) = (expect '-' bs).getD bs ++ t := by
    rw [expect_append_map _ hbs]
    cases expect '-' bs <;> rfl
  unfold parseNumber at h ⊢
  rw [hsign]
  obtain ⟨⟨b, bs₁⟩, hb, h⟩ := Option.bind_eq_some_iff.1 h
  refine Option.bind_eq_some_iff.2 ⟨_, bump_append hb, ?_⟩
  dsimp only at h ⊢
  refine ite_append h (fun _ h => (parseFracExp_append h hne).2) fun _ h => ite_append h (fun _ h => ?_) fun _ h => by cases h
  obtain ⟨hdigits, htail⟩ := parseFracExp_append (t := t) h hne
  rw [skipDigits, dropWhile_append_of_ne_nil hdigits]
  exact htail

theorem parseNumber_eq {v : Json} (h : parseNumber bs = some (v, rest)) : v = number := by
  unfold parseNumber at h
  obtain ⟨⟨b, bs₁⟩, -, h⟩ := Option.bind_eq_some_iff.1 h
  have htail : ∀ {bs}, ((parseFrac bs).bind fun bs => (parseExp bs).bind fun bs => some (number, bs)) = some (v, rest) →
      v = number := by
    intro bs h
    obtain ⟨bs₁, -, h⟩ := Option.bind_eq_some_iff.1 h
    obtain ⟨bs₂, -, h⟩ := Option.bind_eq_some_iff.1 h
    cases h
    rfl
  dsimp only at h
  split at h
  · exact htail h
  · split at h
    · exact htail h
    · cases h

/-! ### Values -/

theorem bump_skipWs_append {b : UInt8} (h : bump (skipWs bs) = some (b, rest)) :
    bump (skipWs (bs ++ t)) = some (b, rest ++ t) := by
  rw [skipWs_append (by intro hnil; rw [hnil] at h; cases h)]
  exact bump_append h

theorem expect_skipWs_append {c : Char} (h : expect c (skipWs bs) = some rest) :
    expect c (skipWs (bs ++ t)) = some (rest ++ t) := by
  rw [skipWs_append (by intro hnil; rw [hnil] at h; cases h)]
  exact expect_append h

theorem expect_skipWs_append_none {c : Char} (hne : skipWs bs ≠ []) (h : expect c (skipWs bs) = none) :
    expect c (skipWs (bs ++ t)) = none := by
  rw [skipWs_append hne, expect_append_map c hne, h]
  rfl

theorem parseMembers_ne_nil {n : Nat} {members : List (String × Json)} (h : parseMembers n bs = some (members, rest)) :
    skipWs bs ≠ [] := by
  intro hnil
  cases n with
  | zero => cases h
  | succ n =>
    unfold parseMembers at h
    rw [hnil] at h
    cases h

theorem parseItems_ne_nil {n : Nat} {items : List Json} (h : parseItems n bs = some (items, rest)) : skipWs bs ≠ [] := by
  intro hnil
  cases n with
  | zero => cases h
  | succ n =>
    unfold parseItems at h
    rw [hnil] at h
    cases n <;> cases h

end

/-- The readers of values with fuel `n` read the same of a longer text with more fuel. -/
structure Reads (n : Nat) : Prop where
  value : ∀ {m bs rest} t {v}, n ≤ m → parseValue n bs = some (v, rest) → (v = number → rest ≠ []) →
    parseValue m (bs ++ t) = some (v, rest ++ t)
  members : ∀ {m bs rest} t {members}, n ≤ m → parseMembers n bs = some (members, rest) →
    parseMembers m (bs ++ t) = some (members, rest ++ t)
  items : ∀ {m bs rest} t {items}, n ≤ m → parseItems n bs = some (items, rest) →
    parseItems m (bs ++ t) = some (items, rest ++ t)

theorem reads (n : Nat) : Reads n := by
  induction n with
  | zero =>
    constructor
    · intro m bs rest t v _ h; cases h
    · intro m bs rest t members _ h; cases h
    · intro m bs rest t items _ h; cases h
  | succ n ih =>
    have hfuel : ∀ {m}, n + 1 ≤ m → ∃ k, m = k + 1 ∧ n ≤ k := fun {m} h => ⟨m - 1, by omega, by omega⟩
    -- a value in a list is followed by a byte
    have hitem : ∀ {m bs rest rest' b} t {v}, n ≤ m → parseValue n (skipWs bs) = some (v, rest) →
        bump (skipWs rest) = some (b, rest') → parseValue m (skipWs (bs ++ t)) = some (v, rest ++ t) := by
      intro m bs rest rest' b t v hle h hnext
      have hrest : rest ≠ [] := by rintro rfl; cases hnext
      have hbs : skipWs bs ≠ [] := by
        intro hnil
        rw [hnil] at h
        cases n <;> cases h
      rw [skipWs_append hbs]
      exact ih.value t hle h fun _ => hrest
    constructor
    · intro m bs rest t v hle h hend
      obtain ⟨m, rfl, hm⟩ := hfuel hle
      unfold parseValue at h ⊢
      obtain ⟨⟨b, bs₁⟩, hb, h⟩ := Option.bind_eq_some_iff.1 h
      refine Option.bind_eq_some_iff.2 ⟨_, bump_append hb, ?_⟩
      dsimp only at h ⊢
      refine ite_append h (fun _ h => ?_) fun _ h => ite_append h (fun _ h => ?_) fun _ h =>
        ite_append h (fun _ h => ?_) fun _ h => ite_append h (fun _ => parseLiteral_append) fun _ h =>
          ite_append h (fun _ => parseLiteral_append) fun _ h => ite_append h (fun _ => parseLiteral_append) fun _ h =>
            ite_append h (fun _ h => ?_) fun _ h => by cases h
      · split at h
        · next bs₂ h₂ =>
          cases h
          rw [expect_skipWs_append h₂]
          rfl
        · next h₂ =>
          obtain ⟨⟨members, bs₂⟩, hmembers, h⟩ := Option.bind_eq_some_iff.1 h
          cases h
          rw [expect_skipWs_append_none (parseMembers_ne_nil hmembers) h₂]
          exact Option.bind_eq_some_iff.2 ⟨_, ih.members t hm hmembers, rfl⟩
      · split at h
        · next bs₂ h₂ =>
          cases h
          rw [expect_skipWs_append h₂]
          rfl
        · next h₂ =>
          obtain ⟨⟨items, bs₂⟩, hitems, h⟩ := Option.bind_eq_some_iff.1 h
          cases h
          rw [expect_skipWs_append_none (parseItems_ne_nil hitems) h₂]
          exact Option.bind_eq_some_iff.2 ⟨_, ih.items t hm hitems, rfl⟩
      · obtain ⟨⟨s, bs₂⟩, hs, h⟩ := Option.bind_eq_some_iff.1 h
        cases h
        exact Option.bind_eq_some_iff.2 ⟨_, parseString_append hs, rfl⟩
      · obtain rfl := parseNumber_eq h
        exact parseNumber_append h (hend rfl)
    · intro m bs rest t members hle h
      obtain ⟨m, rfl, hm⟩ := hfuel hle
      unfold parseMembers at h ⊢
      obtain ⟨⟨key, bs₁⟩, hkey, h⟩ := Option.bind_eq_some_iff.1 h
      obtain ⟨bs₂, h₂, h⟩ := Option.bind_eq_some_iff.1 h
      obtain ⟨⟨value, bs₃⟩, hvalue, h⟩ := Option.bind_eq_some_iff.1 h
      obtain ⟨⟨b, bs₄⟩, hb, h⟩ := Option.bind_eq_some_iff.1 h
      have hkey' : parseString (skipWs (bs ++ t)) = some (key, bs₁ ++ t) := by
        rw [skipWs_append (by intro hnil; rw [hnil] at hkey; cases hkey)]
        exact parseString_append hkey
      refine Option.bind_eq_some_iff.2 ⟨_, hkey', ?_⟩
      refine Option.bind_eq_some_iff.2 ⟨_, expect_skipWs_append h₂, ?_⟩
      refine Option.bind_eq_some_iff.2 ⟨_, hitem t hm hvalue hb, ?_⟩
      refine Option.bind_eq_some_iff.2 ⟨_, bump_skipWs_append hb, ?_⟩
      dsimp only at h ⊢
      refine ite_append h (fun _ h => ?_) fun _ h => ite_append h (fun _ => pure_append) fun _ h => by cases h
      obtain ⟨⟨members', bs₅⟩, hmembers, h⟩ := Option.bind_eq_some_iff.1 h
      cases h
      exact Option.bind_eq_some_iff.2 ⟨_, ih.members t hm hmembers, rfl⟩
    · intro m bs rest t items hle h
      obtain ⟨m, rfl, hm⟩ := hfuel hle
      unfold parseItems at h ⊢
      obtain ⟨⟨item, bs₁⟩, hvalue, h⟩ := Option.bind_eq_some_iff.1 h
      obtain ⟨⟨b, bs₂⟩, hb, h⟩ := Option.bind_eq_some_iff.1 h
      refine Option.bind_eq_some_iff.2 ⟨_, hitem t hm hvalue hb, ?_⟩
      refine Option.bind_eq_some_iff.2 ⟨_, bump_skipWs_append hb, ?_⟩
      dsimp only at h ⊢
      refine ite_append h (fun _ h => ?_) fun _ h => ite_append h (fun _ => pure_append) fun _ h => by cases h
      obtain ⟨⟨items', bs₃⟩, hitems, h⟩ := Option.bind_eq_some_iff.1 h
      cases h
      exact Option.bind_eq_some_iff.2 ⟨_, ih.items t hm hitems, rfl⟩

/-! ### The first byte of a value -/

theorem parseLiteral_eq {literal : String} {value v : Json} {bs rest : Bytes}
    (h : parseLiteral literal value bs = some (v, rest)) : v = value := by
  unfold parseLiteral at h
  dsimp only at h
  split at h
  · cases h; rfl
  · cases h

theorem parseValue_array {n : Nat} {bs rest : Bytes} {items : List Json}
    (h : parseValue n bs = some (.array items, rest)) : bs.head? = some '['.toUInt8 := by
  cases n with
  | zero => cases h
  | succ n =>
    unfold parseValue at h
    obtain ⟨⟨b, bs₁⟩, hb, h⟩ := Option.bind_eq_some_iff.1 h
    dsimp only at h
    split at h
    · split at h
      · cases h
      · obtain ⟨_, -, h⟩ := Option.bind_eq_some_iff.1 h
        cases h
    · split at h
      · next hbracket =>
        cases bs with
        | nil => cases hb
        | cons a bs => cases hb; rw [hbracket]; rfl
      · split at h
        · obtain ⟨_, -, h⟩ := Option.bind_eq_some_iff.1 h
          cases h
        · split at h
          · cases parseLiteral_eq h
          · split at h
            · cases parseLiteral_eq h
            · split at h
              · cases parseLiteral_eq h
              · split at h
                · cases parseNumber_eq h
                · cases h

/-! ### Documents -/

/-- The text of the document is whitespace, a value, and whitespace. -/
theorem parse_eq_some {s : String} {v : Json} (h : parse s = some v) : ∃ n rest,
    parseValue n (skipWs s.toByteArray.data.toList) = some (v, rest) ∧ skipWs rest = [] := by
  obtain ⟨⟨v', rest⟩, hvalue, h⟩ := Option.bind_eq_some_iff.1 h
  dsimp only at h
  split at h
  · next hrest => cases h; exact ⟨_, rest, hvalue, hrest⟩
  · cases h

/-- An array document at the front of a text, followed by no whitespace. -/
theorem parse_append {s : String} {items : List Json} (h : parse s = some (.array items)) (t : Bytes)
    (ht : skipWs t = t) : ∃ n rest, ∀ m, n ≤ m →
      parseValue m (skipWs (s.toByteArray.data.toList ++ t)) = some (.array items, rest ++ t) ∧ skipWs (rest ++ t) = t := by
  obtain ⟨n, rest, hvalue, hrest⟩ := parse_eq_some h
  refine ⟨n, rest, fun m hm => ⟨?_, ?_⟩⟩
  · rw [skipWs_append (by intro hnil; rw [hnil] at hvalue; cases n <;> cases hvalue)]
    exact (reads n).value t hm hvalue nofun
  · rw [skipWs, List.dropWhile_append, if_pos (by rwa [List.isEmpty_iff])]
    exact ht

/-- A text begins with one array document only, and what follows it is determined. -/
theorem arrayDocument_append_inj {s s' : String} {items items' : List Json} (h : parse s = some (.array items))
    (h' : parse s' = some (.array items')) {t t' : Bytes} (ht : skipWs t = t) (ht' : skipWs t' = t')
    (heq : s.toByteArray.data.toList ++ t = s'.toByteArray.data.toList ++ t') : t = t' := by
  obtain ⟨n, rest, hread⟩ := parse_append h t ht
  obtain ⟨n', rest', hread'⟩ := parse_append h' t' ht'
  obtain ⟨hvalue, hrest⟩ := hread (max n n') (Nat.le_max_left _ _)
  obtain ⟨hvalue', hrest'⟩ := hread' (max n n') (Nat.le_max_right _ _)
  rw [heq, hvalue'] at hvalue
  obtain ⟨-, hlast⟩ := Prod.mk.inj (Option.some.inj hvalue)
  rw [← hrest, ← hlast, hrest']

end Json

end Micronuts
