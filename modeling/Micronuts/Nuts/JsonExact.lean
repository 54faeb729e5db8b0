import Mathlib.Data.Bool.AllAny
import Micronuts.Nuts.JsonStrings

/-!
# The scanner reads the grammar

What the scanner reads as a value is derived by the grammar, and it reads every value that is derived. So `Json.parse` accepts
exactly the JSON texts.
-/

namespace Micronuts
namespace JsonText
open Json Utf8

/-! ### Values are derived -/

theorem Ws.append {w w' : List Char} (hw : Ws w) (hw' : Ws w') : Ws (w ++ w') := by
  intro c hc
  rcases List.mem_append.1 hc with hc | hc
  · exact hw c hc
  · exact hw' c hc

/-- After whitespace, a byte that only one ASCII character has. -/
theorem bump_skipWs_sound {cs : List Char} {b : UInt8} {rest : Bytes} {d : Char}
    (h : bump (skipWs (encode cs)) = some (b, rest))
    (hd : Ascii d) (hb : b = d.toUInt8) : ∃ w cs', cs = w ++ d :: cs' ∧ Ws w ∧ rest = encode cs' := by
  obtain ⟨w, cs, rfl, hw, hskip⟩ := skipWs_sound cs
  rw [hskip] at h
  obtain ⟨c, cs', rfl, hc, hbc, rfl⟩ := bump_ascii_of h (by rw [hb]; exact hd.toUInt8_lt)
  obtain rfl := hd.toUInt8_inj hc (hb.symm.trans hbc)
  exact ⟨w, cs', rfl, hw, rfl⟩

theorem expect_skipWs_sound {cs : List Char} {rest : Bytes} {d : Char} (hd : Ascii d)
    (h : expect d (skipWs (encode cs)) = some rest) : ∃ w cs', cs = w ++ d :: cs' ∧ Ws w ∧ rest = encode cs' := by
  obtain ⟨w, cs, rfl, hw, hskip⟩ := skipWs_sound cs
  rw [hskip] at h
  obtain ⟨cs', rfl, rfl⟩ := expect_sound hd h
  exact ⟨w, cs', rfl, hw, rfl⟩

/-- With fuel `n`, what is read is derived. -/
structure Derives (n : Nat) : Prop where
  value : ∀ {cs v rest}, parseValue n (encode cs) = some (v, rest) → ∃ t cs', cs = t ++ cs' ∧ Value t v ∧ rest = encode cs'
  members : ∀ {cs members rest}, parseMembers n (encode cs) = some (members, rest) →
    ∃ t cs', cs = t ++ '\x7d' :: cs' ∧ Members t members ∧ rest = encode cs'
  items : ∀ {cs items rest}, parseItems n (encode cs) = some (items, rest) →
    ∃ t cs', cs = t ++ ']' :: cs' ∧ Items t items ∧ rest = encode cs'

theorem derives (n : Nat) : Derives n := by
  induction n with
  | zero =>
    constructor
    · intro cs v rest h
      cases h
    · intro cs members rest h
      cases h
    · intro cs items rest h
      cases h
  | succ n ih =>
    constructor
    · intro cs v rest h
      have hfull := h
      unfold parseValue at h
      obtain ⟨⟨b, bs⟩, hbump, h₁⟩ := Option.bind_eq_some_iff.1 h
      clear h
      dsimp only at h₁
      -- the opening character
      have hopen : ∀ {d : Char}, Ascii d → b = d.toUInt8 → ∃ cs', cs = d :: cs' ∧ bs = encode cs' := by
        intro d hd hb
        obtain ⟨c, cs', rfl, hc, hbc, rfl⟩ := bump_ascii_of hbump (by rw [hb]; exact hd.toUInt8_lt)
        obtain rfl := hd.toUInt8_inj hc (hb.symm.trans hbc)
        exact ⟨cs', rfl, rfl⟩
      split at h₁
      · next hb =>
        obtain ⟨cs, rfl, rfl⟩ := hopen (d := '\x7b') (by decide) hb
        split at h₁
        · next bs₂ hclose =>
          obtain ⟨w, cs', rfl, hw, rfl⟩ := expect_skipWs_sound (by decide) hclose
          cases h₁
          exact ⟨'\x7b' :: (w ++ ['\x7d']), cs', by simp, .emptyObject hw, rfl⟩
        · obtain ⟨⟨members, bs₂⟩, hmembers, h₂⟩ := Option.bind_eq_some_iff.1 h₁
          cases h₂
          obtain ⟨t, cs', rfl, ht, rfl⟩ := ih.members hmembers
          exact ⟨'\x7b' :: (t ++ ['\x7d']), cs', by simp, .object ht, rfl⟩
      split at h₁
      · next hb =>
        obtain ⟨cs, rfl, rfl⟩ := hopen (d := '[') (by decide) hb
        split at h₁
        · next bs₂ hclose =>
          obtain ⟨w, cs', rfl, hw, rfl⟩ := expect_skipWs_sound (by decide) hclose
          cases h₁
          exact ⟨'[' :: (w ++ [']']), cs', by simp, .emptyArray hw, rfl⟩
        · obtain ⟨⟨items, bs₂⟩, hitems, h₂⟩ := Option.bind_eq_some_iff.1 h₁
          cases h₂
          obtain ⟨t, cs', rfl, ht, rfl⟩ := ih.items hitems
          exact ⟨'[' :: (t ++ [']']), cs', by simp, .array ht, rfl⟩
      split at h₁
      · obtain ⟨⟨s, bs₂⟩, hstring, h₂⟩ := Option.bind_eq_some_iff.1 h₁
        cases h₂
        obtain ⟨t, cs', rfl, ht, rfl⟩ := parseString_sound hstring
        exact ⟨t, cs', rfl, .string ht, rfl⟩
      split at h₁
      · obtain ⟨cs', rfl, rfl, rfl⟩ := parseLiteral_sound (t := ['t', 'r', 'u', 'e']) (List.all_iff_forall_prop.1 rfl) h₁
        exact ⟨_, cs', rfl, .trueText, rfl⟩
      split at h₁
      · obtain ⟨cs', rfl, rfl, rfl⟩ := parseLiteral_sound (t := ['f', 'a', 'l', 's', 'e']) (List.all_iff_forall_prop.1 rfl) h₁
        exact ⟨_, cs', rfl, .falseText, rfl⟩
      split at h₁
      · obtain ⟨cs', rfl, rfl, rfl⟩ := parseLiteral_sound (t := ['n', 'u', 'l', 'l']) (List.all_iff_forall_prop.1 rfl) h₁
        exact ⟨_, cs', rfl, .nullText, rfl⟩
      split at h₁
      · obtain ⟨t, cs', rfl, ht, rfl, rfl⟩ := parseNumber_sound h₁
        exact ⟨t, cs', rfl, .number ht, rfl⟩
      · cases h₁
    · intro cs members rest h
      unfold parseMembers at h
      obtain ⟨w, cs, rfl, hw, hskip⟩ := skipWs_sound cs
      rw [hskip] at h
      obtain ⟨⟨key, bs₁⟩, hkey, h₁⟩ := Option.bind_eq_some_iff.1 h
      obtain ⟨k, cs, rfl, hk, rfl⟩ := parseString_sound hkey
      obtain ⟨bs₂, hcolon, h₂⟩ := Option.bind_eq_some_iff.1 h₁
      obtain ⟨w₁, cs, rfl, hw₁, rfl⟩ := expect_skipWs_sound (by decide) hcolon
      obtain ⟨w₂, cs, rfl, hw₂, hskip₂⟩ := skipWs_sound cs
      obtain ⟨⟨v, bs₃⟩, hvalue, h₃⟩ := Option.bind_eq_some_iff.1 h₂
      rw [hskip₂] at hvalue
      obtain ⟨t, cs, rfl, ht, rfl⟩ := ih.value hvalue
      obtain ⟨⟨b, bs₄⟩, hbump, h₄⟩ := Option.bind_eq_some_iff.1 h₃
      dsimp only at h₄
      split at h₄
      · next hb =>
        obtain ⟨w', cs, rfl, hw', rfl⟩ := bump_skipWs_sound (d := ',') hbump (by decide) hb
        obtain ⟨⟨members', bs₅⟩, hmembers, h₅⟩ := Option.bind_eq_some_iff.1 h₄
        cases h₅
        obtain ⟨ts, cs', rfl, hts, rfl⟩ := ih.members hmembers
        exact ⟨_, cs', by simp, .more hw hk hw₁ hw₂ ht hw' hts, rfl⟩
      · split at h₄
        · next hb =>
          obtain ⟨w', cs', rfl, hw', rfl⟩ := bump_skipWs_sound (d := '\x7d') hbump (by decide) hb
          cases h₄
          exact ⟨_, cs', by simp, .one hw hk hw₁ hw₂ ht hw', rfl⟩
        · cases h₄
    · intro cs items rest h
      unfold parseItems at h
      obtain ⟨w, cs, rfl, hw, hskip⟩ := skipWs_sound cs
      rw [hskip] at h
      obtain ⟨⟨v, bs₁⟩, hvalue, h₁⟩ := Option.bind_eq_some_iff.1 h
      obtain ⟨t, cs, rfl, ht, rfl⟩ := ih.value hvalue
      obtain ⟨⟨b, bs₂⟩, hbump, h₂⟩ := Option.bind_eq_some_iff.1 h₁
      dsimp only at h₂
      split at h₂
      · next hb =>
        obtain ⟨w', cs, rfl, hw', rfl⟩ := bump_skipWs_sound (d := ',') hbump (by decide) hb
        obtain ⟨⟨items', bs₃⟩, hitems, h₃⟩ := Option.bind_eq_some_iff.1 h₂
        cases h₃
        obtain ⟨ts, cs', rfl, hts, rfl⟩ := ih.items hitems
        exact ⟨_, cs', by simp, .more hw ht hw' hts, rfl⟩
      · split at h₂
        · next hb =>
          obtain ⟨w', cs', rfl, hw', rfl⟩ := bump_skipWs_sound (d := ']') hbump (by decide) hb
          cases h₂
          exact ⟨_, cs', by simp, .one hw ht hw', rfl⟩
        · cases h₂

/-! ### What is derived is read -/

/-- How a value may begin. -/
theorem Value.head {t : List Char} {v : Json} (h : Value t v) :
    ∃ c t', t = c :: t' ∧ wsChar c = false ∧ c ≠ ']' ∧ c ≠ '\x7d' := by
  cases h with
  | nullText => exact ⟨_, _, rfl, by decide⟩
  | trueText => exact ⟨_, _, rfl, by decide⟩
  | falseText => exact ⟨_, _, rfl, by decide⟩
  | number h =>
    obtain ⟨minus, int, frac, exp, rfl, hminus, hint, -, -⟩ := h
    rcases hminus with rfl | rfl
    · have hdigit : ∃ d ds, int = d :: ds ∧ d.isDigit = true := by
        rcases hint with rfl | ⟨d, ds, rfl, hd, -, -⟩
        · exact ⟨'0', [], rfl, by decide⟩
        · exact ⟨d, ds, rfl, hd⟩
      obtain ⟨d, ds, rfl, hd⟩ := hdigit
      have hascii := isDigit_ascii hd
      have hall := hascii.all (P := fun c => c.isDigit = true → wsChar c = false ∧ c ≠ ']' ∧ c ≠ '\x7d') (by decide +kernel)
      exact ⟨d, _, rfl, hall hd⟩
    · exact ⟨'-', _, rfl, by decide⟩
  | string h =>
    obtain ⟨body, rfl, -⟩ := h
    exact ⟨'"', _, rfl, by decide⟩
  | emptyArray h => exact ⟨'[', _, rfl, by decide⟩
  | array h => exact ⟨'[', _, rfl, by decide⟩
  | emptyObject h => exact ⟨'\x7b', _, rfl, by decide⟩
  | object h => exact ⟨'\x7b', _, rfl, by decide⟩

theorem notAhead_cons {p : Char → Prop} {c : Char} (cs : List Char) (h : ¬ p c) : NotAhead p (c :: cs) := by
  rintro c' ⟨⟩
  exact h

theorem Value.notAhead {t cs : List Char} {v : Json} (h : Value t v) : NotAhead (wsChar · = true) (t ++ cs) := by
  obtain ⟨c, t', rfl, hws, -⟩ := h.head
  exact notAhead_cons _ (by rw [hws]; decide)

theorem Text.notAhead {t cs : List Char} {s : String} (h : Text t s) : NotAhead (wsChar · = true) (t ++ cs) := by
  obtain ⟨body, rfl, -⟩ := h
  exact notAhead_cons _ (by decide)

/-- Whitespace and punctuation end a number. -/
theorem Ws.notAhead_number {w cs : List Char} {c : Char} (hw : Ws w) (hc : ¬ NumberChar c) :
    NotAhead NumberChar (w ++ c :: cs) := by
  cases w with
  | nil => exact notAhead_cons _ hc
  | cons d w =>
    have hd := hw d (List.mem_cons_self ..)
    have hall := (wsChar_ascii hd).all (P := fun c => wsChar c = true → ¬ NumberChar c) (by unfold NumberChar; decide +kernel)
    exact notAhead_cons _ (hall hd)

theorem expect_skipWs_complete {w cs : List Char} {d : Char} (hw : Ws w) (hd : Ascii d) (hws : wsChar d = false) :
    expect d (skipWs (encode (w ++ d :: cs))) = some (encode cs) := by
  rw [skipWs_complete hw (notAhead_cons cs (by rw [hws]; decide))]
  exact expect_self hd cs

theorem bump_skipWs_complete {w cs : List Char} {d : Char} (hw : Ws w) (hd : Ascii d) (hws : wsChar d = false) :
    bump (skipWs (encode (w ++ d :: cs))) = some (d.toUInt8, encode cs) := by
  rw [skipWs_complete hw (notAhead_cons cs (by rw [hws]; decide))]
  exact bump_ascii hd cs

section steps
variable {n : Nat} {cs : List Char}

theorem parseValue_emptyArray {w : List Char} (hw : Ws w) :
    parseValue (n + 1) (encode ('[' :: (w ++ [']']) ++ cs)) = some (.array [], encode cs) := by
  have hbump : bump (encode ('[' :: (w ++ [']']) ++ cs)) = some ('['.toUInt8, encode (w ++ ']' :: cs)) := by
    rw [List.cons_append, List.append_assoc]
    exact bump_ascii (by decide) _
  have hclose : expect ']' (skipWs (encode (w ++ ']' :: cs))) = some (encode cs) :=
    expect_skipWs_complete hw (by decide) (by decide)
  rw [parseValue]
  refine Option.bind_eq_some_iff.2 ⟨_, hbump, ?_⟩
  dsimp only
  rw [if_neg (by decide), if_pos rfl, hclose]
  rfl

theorem parseValue_emptyObject {w : List Char} (hw : Ws w) :
    parseValue (n + 1) (encode ('\x7b' :: (w ++ ['\x7d']) ++ cs)) = some (.object [], encode cs) := by
  have hbump : bump (encode ('\x7b' :: (w ++ ['\x7d']) ++ cs)) = some ('\x7b'.toUInt8, encode (w ++ '\x7d' :: cs)) := by
    rw [List.cons_append, List.append_assoc]
    exact bump_ascii (by decide) _
  have hclose : expect '\x7d' (skipWs (encode (w ++ '\x7d' :: cs))) = some (encode cs) :=
    expect_skipWs_complete hw (by decide) (by decide)
  rw [parseValue]
  refine Option.bind_eq_some_iff.2 ⟨_, hbump, ?_⟩
  dsimp only
  rw [if_pos (by decide), hclose]
  rfl

/-- A first element is not the closing bracket. -/
theorem Items.not_closed {t : List Char} {items : List Json} (h : Items t items) :
    expect ']' (skipWs (encode (t ++ ']' :: cs))) = none := by
  obtain ⟨w, u, v, rest, rfl, hw, hu⟩ : ∃ w u v rest, t = w ++ (u ++ rest) ∧ Ws w ∧ Value u v := by
    cases h with
    | one hw hv hw' => exact ⟨_, _, _, _, rfl, hw, hv⟩
    | more hw hv hw' hts => exact ⟨_, _, _, _, rfl, hw, hv⟩
  obtain ⟨c, u', rfl, hws, hbracket, -⟩ := hu.head
  rw [List.append_assoc, List.cons_append, List.cons_append, skipWs_complete hw (notAhead_cons _ (by rw [hws]; decide))]
  exact expect_none (by decide) (notAhead_cons _ hbracket)

theorem Members.not_closed {t : List Char} {members : List (String × Json)} (h : Members t members) :
    expect '\x7d' (skipWs (encode (t ++ '\x7d' :: cs))) = none := by
  obtain ⟨w, u, s, rest, rfl, hw, hu⟩ : ∃ w u s rest, t = w ++ (u ++ rest) ∧ Ws w ∧ Text u s := by
    cases h with
    | one hw hk hw₁ hw₂ hv hw' => exact ⟨_, _, _, _, rfl, hw, hk⟩
    | more hw hk hw₁ hw₂ hv hw' hts => exact ⟨_, _, _, _, rfl, hw, hk⟩
  obtain ⟨body, rfl, -⟩ := hu
  rw [List.append_assoc, List.cons_append, List.cons_append, skipWs_complete hw (notAhead_cons _ (by decide))]
  exact expect_none (by decide) (notAhead_cons _ (by decide))

theorem parseValue_array {t : List Char} {items : List Json} (ht : Items t items)
    (h : parseItems n (encode (t ++ ']' :: cs)) = some (items, encode cs)) :
    parseValue (n + 1) (encode ('[' :: (t ++ [']']) ++ cs)) = some (.array items, encode cs) := by
  have hbump : bump (encode ('[' :: (t ++ [']']) ++ cs)) = some ('['.toUInt8, encode (t ++ ']' :: cs)) := by
    rw [List.cons_append, List.append_assoc]
    exact bump_ascii (by decide) _
  rw [parseValue]
  refine Option.bind_eq_some_iff.2 ⟨_, hbump, ?_⟩
  dsimp only
  rw [if_neg (by decide), if_pos rfl, ht.not_closed]
  exact Option.bind_eq_some_iff.2 ⟨_, h, rfl⟩

theorem parseValue_object {t : List Char} {members : List (String × Json)} (ht : Members t members)
    (h : parseMembers n (encode (t ++ '\x7d' :: cs)) = some (members, encode cs)) :
    parseValue (n + 1) (encode ('\x7b' :: (t ++ ['\x7d']) ++ cs)) = some (.object members, encode cs) := by
  have hbump : bump (encode ('\x7b' :: (t ++ ['\x7d']) ++ cs)) = some ('\x7b'.toUInt8, encode (t ++ '\x7d' :: cs)) := by
    rw [List.cons_append, List.append_assoc]
    exact bump_ascii (by decide) _
  rw [parseValue]
  refine Option.bind_eq_some_iff.2 ⟨_, hbump, ?_⟩
  dsimp only
  rw [if_pos (by decide), ht.not_closed]
  exact Option.bind_eq_some_iff.2 ⟨_, h, rfl⟩

theorem parseValue_string {t : List Char} {s : String} (ht : Text t s) :
    parseValue (n + 1) (encode (t ++ cs)) = some (.string s, encode cs) := by
  have hstring := @parseString_complete _ cs _ ht
  obtain ⟨body, rfl, -⟩ := ht
  rw [parseValue]
  refine Option.bind_eq_some_iff.2 ⟨_, bump_ascii (c := '"') (by decide) _, ?_⟩
  dsimp only
  rw [if_neg (by decide), if_neg (by decide), if_pos rfl]
  exact Option.bind_eq_some_iff.2 ⟨_, hstring, rfl⟩

theorem parseValue_number {t : List Char} (ht : Number t) (hcs : NotAhead NumberChar cs) :
    parseValue (n + 1) (encode (t ++ cs)) = some (.number, encode cs) := by
  have hnumber := parseNumber_complete ht hcs
  obtain ⟨c, t', rfl, hc⟩ : ∃ c t', t = c :: t' ∧ (c = '-' ∨ c.isDigit = true) := by
    obtain ⟨minus, int, frac, exp, rfl, hminus, hint, -, -⟩ := ht
    rcases hminus with rfl | rfl
    · rcases hint with rfl | ⟨d, ds, rfl, hd, -, -⟩
      · exact ⟨'0', _, rfl, .inr (by decide)⟩
      · exact ⟨d, _, rfl, .inr hd⟩
    · exact ⟨'-', _, rfl, .inl rfl⟩
  have hascii : Ascii c := by
    rcases hc with rfl | hd
    · decide
    · exact isDigit_ascii hd
  have hbranch : c.toUInt8 ≠ 0x7B ∧ c.toUInt8 ≠ '['.toUInt8 ∧ c.toUInt8 ≠ '"'.toUInt8 ∧ c.toUInt8 ≠ 't'.toUInt8 ∧
      c.toUInt8 ≠ 'f'.toUInt8 ∧ c.toUInt8 ≠ 'n'.toUInt8 ∧ (c.toUInt8 = '-'.toUInt8 || Json.isDigit c.toUInt8) = true :=
    hascii.all (P := fun c => (c = '-' ∨ c.isDigit = true) → c.toUInt8 ≠ 0x7B ∧ c.toUInt8 ≠ '['.toUInt8 ∧
      c.toUInt8 ≠ '"'.toUInt8 ∧ c.toUInt8 ≠ 't'.toUInt8 ∧ c.toUInt8 ≠ 'f'.toUInt8 ∧ c.toUInt8 ≠ 'n'.toUInt8 ∧
      (c.toUInt8 = '-'.toUInt8 || Json.isDigit c.toUInt8) = true) (by decide +kernel) hc
  obtain ⟨h₁, h₂, h₃, h₄, h₅, h₆, h₇⟩ := hbranch
  rw [parseValue]
  refine Option.bind_eq_some_iff.2 ⟨_, bump_ascii hascii (t' ++ cs), ?_⟩
  dsimp only
  rw [if_neg h₁, if_neg h₂, if_neg h₃, if_neg h₄, if_neg h₅, if_neg h₆, if_pos h₇]
  exact hnumber

theorem parseValue_true : parseValue (n + 1) (encode (['t', 'r', 'u', 'e'] ++ cs)) = some (.bool true, encode cs) := by
  rw [parseValue]
  refine Option.bind_eq_some_iff.2 ⟨_, bump_ascii (c := 't') (by decide) _, ?_⟩
  exact parseLiteral_complete ['t', 'r', 'u', 'e'] _ _

theorem parseValue_false : parseValue (n + 1) (encode (['f', 'a', 'l', 's', 'e'] ++ cs)) = some (.bool false, encode cs) := by
  rw [parseValue]
  refine Option.bind_eq_some_iff.2 ⟨_, bump_ascii (c := 'f') (by decide) _, ?_⟩
  exact parseLiteral_complete ['f', 'a', 'l', 's', 'e'] _ _

theorem parseValue_null : parseValue (n + 1) (encode (['n', 'u', 'l', 'l'] ++ cs)) = some (.null, encode cs) := by
  rw [parseValue]
  refine Option.bind_eq_some_iff.2 ⟨_, bump_ascii (c := 'n') (by decide) _, ?_⟩
  exact parseLiteral_complete ['n', 'u', 'l', 'l'] _ _

variable {w t w' : List Char} {v : Json}

theorem parseItems_one (hw : Ws w) (ht : Value t v) (hw' : Ws w')
    (h : parseValue n (encode (t ++ (w' ++ ']' :: cs))) = some (v, encode (w' ++ ']' :: cs))) :
    parseItems (n + 1) (encode (w ++ (t ++ w') ++ ']' :: cs)) = some ([v], encode cs) := by
  have hassoc : w ++ (t ++ w') ++ ']' :: cs = w ++ (t ++ (w' ++ ']' :: cs)) := by simp
  rw [parseItems, hassoc, skipWs_complete hw ht.notAhead]
  refine Option.bind_eq_some_iff.2 ⟨_, h, ?_⟩
  refine Option.bind_eq_some_iff.2 ⟨_, bump_skipWs_complete hw' (by decide) (by decide), ?_⟩
  rfl

theorem parseItems_more {ts : List Char} {vs : List Json} (hw : Ws w) (ht : Value t v) (hw' : Ws w')
    (h : parseValue n (encode (t ++ (w' ++ ',' :: (ts ++ ']' :: cs)))) = some (v, encode (w' ++ ',' :: (ts ++ ']' :: cs))))
    (hts : parseItems n (encode (ts ++ ']' :: cs)) = some (vs, encode cs)) :
    parseItems (n + 1) (encode (w ++ (t ++ (w' ++ ',' :: ts)) ++ ']' :: cs)) = some (v :: vs, encode cs) := by
  have hassoc : w ++ (t ++ (w' ++ ',' :: ts)) ++ ']' :: cs = w ++ (t ++ (w' ++ ',' :: (ts ++ ']' :: cs))) := by simp
  rw [parseItems, hassoc, skipWs_complete hw ht.notAhead]
  refine Option.bind_eq_some_iff.2 ⟨_, h, ?_⟩
  refine Option.bind_eq_some_iff.2 ⟨_, bump_skipWs_complete hw' (by decide) (by decide), ?_⟩
  dsimp only
  rw [if_pos rfl]
  exact Option.bind_eq_some_iff.2 ⟨_, hts, rfl⟩

variable {k w₁ w₂ : List Char} {key : String}

theorem parseMembers_one (hw : Ws w) (hk : Text k key) (hw₁ : Ws w₁) (hw₂ : Ws w₂) (ht : Value t v) (hw' : Ws w')
    (h : parseValue n (encode (t ++ (w' ++ '\x7d' :: cs))) = some (v, encode (w' ++ '\x7d' :: cs))) :
    parseMembers (n + 1) (encode (w ++ (k ++ (w₁ ++ ':' :: (w₂ ++ (t ++ w')))) ++ '\x7d' :: cs)) =
      some ([(key, v)], encode cs) := by
  have hassoc : w ++ (k ++ (w₁ ++ ':' :: (w₂ ++ (t ++ w')))) ++ '\x7d' :: cs =
      w ++ (k ++ (w₁ ++ ':' :: (w₂ ++ (t ++ (w' ++ '\x7d' :: cs))))) := by simp
  rw [parseMembers, hassoc, skipWs_complete hw hk.notAhead]
  refine Option.bind_eq_some_iff.2 ⟨_, parseString_complete hk, ?_⟩
  refine Option.bind_eq_some_iff.2 ⟨_, expect_skipWs_complete hw₁ (by decide) (by decide), ?_⟩
  rw [skipWs_complete hw₂ ht.notAhead]
  refine Option.bind_eq_some_iff.2 ⟨_, h, ?_⟩
  refine Option.bind_eq_some_iff.2 ⟨_, bump_skipWs_complete hw' (by decide) (by decide), ?_⟩
  rfl

theorem parseMembers_more {ts : List Char} {vs : List (String × Json)} (hw : Ws w) (hk : Text k key) (hw₁ : Ws w₁)
    (hw₂ : Ws w₂) (ht : Value t v) (hw' : Ws w')
    (h : parseValue n (encode (t ++ (w' ++ ',' :: (ts ++ '\x7d' :: cs)))) =
      some (v, encode (w' ++ ',' :: (ts ++ '\x7d' :: cs))))
    (hts : parseMembers n (encode (ts ++ '\x7d' :: cs)) = some (vs, encode cs)) :
    parseMembers (n + 1) (encode (w ++ (k ++ (w₁ ++ ':' :: (w₂ ++ (t ++ (w' ++ ',' :: ts))))) ++ '\x7d' :: cs)) =
      some ((key, v) :: vs, encode cs) := by
  have hassoc : w ++ (k ++ (w₁ ++ ':' :: (w₂ ++ (t ++ (w' ++ ',' :: ts))))) ++ '\x7d' :: cs =
      w ++ (k ++ (w₁ ++ ':' :: (w₂ ++ (t ++ (w' ++ ',' :: (ts ++ '\x7d' :: cs)))))) := by simp
  rw [parseMembers, hassoc, skipWs_complete hw hk.notAhead]
  refine Option.bind_eq_some_iff.2 ⟨_, parseString_complete hk, ?_⟩
  refine Option.bind_eq_some_iff.2 ⟨_, expect_skipWs_complete hw₁ (by decide) (by decide), ?_⟩
  rw [skipWs_complete hw₂ ht.notAhead]
  refine Option.bind_eq_some_iff.2 ⟨_, h, ?_⟩
  refine Option.bind_eq_some_iff.2 ⟨_, bump_skipWs_complete hw' (by decide) (by decide), ?_⟩
  dsimp only
  rw [if_pos rfl]
  exact Option.bind_eq_some_iff.2 ⟨_, hts, rfl⟩

end steps

theorem Value.length_pos {t : List Char} {v : Json} (h : Value t v) : 0 < t.length := by
  obtain ⟨c, t', rfl, -⟩ := h.head
  exact Nat.succ_pos _

mutual

/-- Fuel for twice the length of the text is enough. -/
theorem Value.read : ∀ {t v}, Value t v → ∀ {n cs}, 2 * t.length ≤ n → NotAhead NumberChar cs →
    parseValue n (encode (t ++ cs)) = some (v, encode cs)
  | t, v, h, n, cs, hn, hcs => by
    obtain ⟨n, rfl⟩ : ∃ k, n = k + 1 := by
      have := h.length_pos
      exact ⟨n - 1, by omega⟩
    cases h with
    | nullText => exact parseValue_null
    | trueText => exact parseValue_true
    | falseText => exact parseValue_false
    | number h => exact parseValue_number h hcs
    | string h => exact parseValue_string h
    | emptyArray hw => exact parseValue_emptyArray hw
    | emptyObject hw => exact parseValue_emptyObject hw
    | array h =>
      have hlen := hn
      simp only [List.length_cons, List.length_append, List.length_nil] at hlen
      exact parseValue_array h (h.read (by omega))
    | object h =>
      have hlen := hn
      simp only [List.length_cons, List.length_append, List.length_nil] at hlen
      exact parseValue_object h (h.read (by omega))

theorem Items.read : ∀ {t items}, Items t items → ∀ {n cs}, 2 * t.length + 1 ≤ n →
    parseItems n (encode (t ++ ']' :: cs)) = some (items, encode cs)
  | t, items, h, n, cs, hn => by
    obtain ⟨n, rfl⟩ : ∃ k, n = k + 1 := ⟨n - 1, by omega⟩
    cases h with
    | one hw hv hw' =>
      simp only [List.length_append] at hn
      exact parseItems_one hw hv hw' (hv.read (by omega) (hw'.notAhead_number (by unfold NumberChar; decide)))
    | more hw hv hw' hts =>
      simp only [List.length_append, List.length_cons] at hn
      exact parseItems_more hw hv hw' (hv.read (by omega) (hw'.notAhead_number (by unfold NumberChar; decide)))
        (hts.read (by omega))

theorem Members.read : ∀ {t members}, Members t members → ∀ {n cs}, 2 * t.length + 1 ≤ n →
    parseMembers n (encode (t ++ '\x7d' :: cs)) = some (members, encode cs)
  | t, members, h, n, cs, hn => by
    obtain ⟨n, rfl⟩ : ∃ k, n = k + 1 := ⟨n - 1, by omega⟩
    cases h with
    | one hw hk hw₁ hw₂ hv hw' =>
      simp only [List.length_append, List.length_cons] at hn
      exact parseMembers_one hw hk hw₁ hw₂ hv hw' (hv.read (by omega) (hw'.notAhead_number (by unfold NumberChar; decide)))
    | more hw hk hw₁ hw₂ hv hw' hts =>
      simp only [List.length_append, List.length_cons] at hn
      exact parseMembers_more hw hk hw₁ hw₂ hv hw'
        (hv.read (by omega) (hw'.notAhead_number (by unfold NumberChar; decide))) (hts.read (by omega))

end

/-- The scanner accepts the JSON texts, each as the value that it stands for. -/
theorem parse_iff (s : String) (v : Json) : Json.parse s = some v ↔ Document s.toList v := by
  have hbytes : s.toByteArray.data.toList = encode s.toList := asBytes_eq_flatMap s
  unfold Json.parse
  rw [hbytes]
  dsimp only
  constructor
  · intro h
    obtain ⟨w, cs, hcs, hw, hskip⟩ := skipWs_sound s.toList
    rw [hskip] at h
    obtain ⟨⟨v', rest⟩, hvalue, h⟩ := Option.bind_eq_some_iff.1 h
    obtain ⟨t, cs', rfl, ht, rfl⟩ := (derives _).value hvalue
    dsimp only at h
    split at h
    · next hend =>
      cases h
      obtain ⟨w', cs, rfl, hw', hskip'⟩ := skipWs_sound cs'
      rw [hskip'] at hend
      have hnil : cs = [] := List.length_eq_zero_iff.1 (Nat.le_zero.1 (by
        have := length_le_encode cs
        rwa [hend] at this))
      rw [hnil, List.append_nil] at hcs
      exact ⟨w, t, w', hcs, hw, ht, hw'⟩
    · cases h
  · rintro ⟨w, t, w', hs, hw, ht, hw'⟩
    have hstop : NotAhead NumberChar w' := by
      cases w' with
      | nil => exact nofun
      | cons d w' =>
        have hd := hw' d (List.mem_cons_self ..)
        have hall := (wsChar_ascii hd).all (P := fun c => wsChar c = true → ¬ NumberChar c)
          (by unfold NumberChar; decide +kernel)
        exact notAhead_cons _ (hall hd)
    have hlen : 2 * t.length ≤ 2 * (encode s.toList).length + 2 := by
      have := length_le_encode s.toList
      have hs' := congrArg List.length hs
      simp only [List.length_append] at hs'
      omega
    have hend : skipWs (encode w') = [] := by
      have := @skipWs_complete _ [] hw' nofun
      rwa [List.append_nil] at this
    refine Option.bind_eq_some_iff.2 ⟨(v, encode w'), ?_, ?_⟩
    · have hskip : skipWs (encode s.toList) = encode (t ++ w') := by
        rw [hs]
        exact skipWs_complete hw ht.notAhead
      rw [hskip]
      exact ht.read hlen hstop
    · dsimp only
      rw [if_pos hend]
      rfl

end JsonText
end Micronuts
