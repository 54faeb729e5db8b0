import Micronuts.Nuts.JsonGrammar
import Micronuts.Nuts.JsonPrefix
import Micronuts.Crypto

/-!
# The scanner on punctuation, whitespace and numbers

The scanner works on the UTF-8 bytes of a text. For each of its readers: what it takes off the front is derived by the grammar
(`_sound`), and what the grammar derives it takes (`_complete`), where a number must not go on in what follows.
-/

namespace Micronuts
namespace JsonText
open Json Utf8

/-! ### Single characters -/

/-- The next character, if there is one, is not of the class. -/
def NotAhead (p : Char → Prop) (cs : List Char) : Prop := ∀ c ∈ cs.head?, ¬ p c

theorem expect_self {d : Char} (hd : Ascii d) (cs : List Char) : expect d (encode (d :: cs)) = some (encode cs) := by
  rw [encode_cons_ascii hd]
  simp [expect]

theorem expect_sound {d : Char} {cs : List Char} {rest : Bytes} (hd : Ascii d) (h : expect d (encode cs) = some rest) :
    ∃ cs', cs = d :: cs' ∧ rest = encode cs' := by
  have hview := view cs
  generalize encode cs = bs at h hview
  cases hview with
  | nil => cases h
  | @ascii c cs hc =>
    simp only [expect] at h
    split at h
    · next heq =>
      cases h
      exact ⟨cs, by rw [hc.toUInt8_inj hd heq], rfl⟩
    · cases h
  | @high c b cs bs hc hbs hhigh =>
    simp only [expect] at h
    split at h
    · next heq =>
      have hlt := hd.toUInt8_lt
      rw [← heq] at hlt
      exact absurd (hhigh b (List.mem_cons_self ..)) (UInt8.not_le.2 hlt)
    · cases h

theorem expect_none {d : Char} {cs : List Char} (hd : Ascii d) (h : NotAhead (· = d) cs) : expect d (encode cs) = none := by
  rcases hrest : expect d (encode cs) with - | rest
  · rfl
  · obtain ⟨cs', rfl, -⟩ := expect_sound hd hrest
    exact absurd rfl (h d rfl)

/-- The next byte is a character of ASCII or lies above all of them. -/
theorem bump_sound {cs : List Char} {b : UInt8} {rest : Bytes} (h : bump (encode cs) = some (b, rest)) :
    (∃ c cs', cs = c :: cs' ∧ Ascii c ∧ b = c.toUInt8 ∧ rest = encode cs') ∨
      ∃ c cs' bs, cs = c :: cs' ∧ ¬ Ascii c ∧ (∀ b' ∈ b :: bs, 0x80 ≤ b') ∧ String.utf8EncodeChar c = b :: bs ∧
        rest = bs ++ encode cs' := by
  have hview := view cs
  generalize encode cs = bs at h hview
  cases hview with
  | nil => cases h
  | @ascii c cs hc =>
    cases h
    exact .inl ⟨c, cs, rfl, hc, rfl, rfl⟩
  | @high c b cs bs hc hbs hhigh =>
    cases h
    exact .inr ⟨c, cs, bs, rfl, hc, hhigh, hbs, rfl⟩

theorem bump_ascii {c : Char} (hc : Ascii c) (cs : List Char) : bump (encode (c :: cs)) = some (c.toUInt8, encode cs) := by
  rw [encode_cons_ascii hc]
  rfl

/-- A test on the next byte that only ASCII passes. -/
theorem bump_ascii_of {cs : List Char} {b : UInt8} {rest : Bytes} (h : bump (encode cs) = some (b, rest)) (hb : b < 0x80) :
    ∃ c cs', cs = c :: cs' ∧ Ascii c ∧ b = c.toUInt8 ∧ rest = encode cs' := by
  rcases bump_sound h with hascii | ⟨c, cs', bs, -, -, hhigh, -, -⟩
  · exact hascii
  · exact absurd (hhigh b (List.mem_cons_self ..)) (UInt8.not_le.2 hb)

/-! ### Whitespace and digits -/

theorem ascii_of_toNat_le {c d : Char} (hd : Ascii d) (h : c ≤ d) : Ascii c :=
  Nat.lt_of_le_of_lt (UInt32.le_iff_toNat_le.1 h) hd

theorem wsChar_ascii {c : Char} (h : wsChar c = true) : Ascii c := by
  simp only [wsChar, Bool.or_eq_true, decide_eq_true_eq] at h
  rcases h with ((rfl | rfl) | rfl) | rfl <;> decide

theorem isDigit_ascii {c : Char} (h : c.isDigit = true) : Ascii c := by
  simp only [Char.isDigit, Bool.and_eq_true, decide_eq_true_eq] at h
  exact ascii_of_toNat_le (d := '9') (by decide) h.2

theorem isWs_toUInt8 {c : Char} (hc : Ascii c) : isWs c.toUInt8 = wsChar c :=
  hc.all (P := fun c => isWs c.toUInt8 = wsChar c) (by decide +kernel)

theorem isDigit_toUInt8 {c : Char} (hc : Ascii c) : Json.isDigit c.toUInt8 = c.isDigit :=
  hc.all (P := fun c => Json.isDigit c.toUInt8 = c.isDigit) (by decide +kernel)

theorem isWs_high {b : UInt8} (h : 0x80 ≤ b) : isWs b = false := by
  have hne : ∀ c : Char, c.toUInt8 < 0x80 → b ≠ c.toUInt8 := by
    rintro c hc rfl
    exact absurd h (UInt8.not_le.2 hc)
  simp [isWs, hne ' ' (by decide), hne '\t' (by decide), hne '\n' (by decide), hne '\r' (by decide)]

theorem isDigit_high {b : UInt8} (h : 0x80 ≤ b) : Json.isDigit b = false := by
  have hle : ¬ b ≤ '9'.toUInt8 := UInt8.not_le.2 (UInt8.lt_of_lt_of_le (by decide) h)
  simp [Json.isDigit, hle]

theorem skipWs_encode (cs : List Char) : skipWs (encode cs) = encode (cs.dropWhile wsChar) :=
  dropWhile_encode (fun _ => isWs_high) (fun _ hc => by
    rw [Bool.eq_false_iff]
    exact fun h => hc (wsChar_ascii h)) (fun _ => isWs_toUInt8) cs

theorem skipDigits_encode (cs : List Char) : skipDigits (encode cs) = encode (cs.dropWhile Char.isDigit) :=
  dropWhile_encode (fun _ => isDigit_high) (fun _ hc => by
    rw [Bool.eq_false_iff]
    exact fun h => hc (isDigit_ascii h)) (fun _ => isDigit_toUInt8) cs

theorem dropWhile_append_stop {p : Char → Bool} {w cs : List Char} (hw : ∀ c ∈ w, p c = true)
    (hcs : NotAhead (p · = true) cs) : (w ++ cs).dropWhile p = cs := by
  rw [List.dropWhile_append_of_pos hw]
  cases cs with
  | nil => rfl
  | cons c cs =>
    have := hcs c rfl
    rw [List.dropWhile_cons, if_neg this]

/-- The whitespace in front, and what follows it. -/
theorem skipWs_sound (cs : List Char) : ∃ w cs', cs = w ++ cs' ∧ Ws w ∧ skipWs (encode cs) = encode cs' :=
  ⟨cs.takeWhile wsChar, cs.dropWhile wsChar, (List.takeWhile_append_dropWhile).symm,
    fun _ hc => List.mem_takeWhile_imp hc, skipWs_encode cs⟩

theorem skipWs_complete {w cs : List Char} (hw : Ws w) (hcs : NotAhead (wsChar · = true) cs) :
    skipWs (encode (w ++ cs)) = encode cs := by
  rw [skipWs_encode, dropWhile_append_stop hw hcs]

/-! ### Literals -/

theorem asBytes_ofList (cs : List Char) : asBytes (String.ofList cs) = encode cs := by
  rw [asBytes_eq_flatMap, String.toList_ofList]
  rfl

/-- A prefix in ASCII. -/
theorem prefix_sound {t cs : List Char} (ht : ∀ c ∈ t, Ascii c) (h : encode t <+: encode cs) : ∃ cs', cs = t ++ cs' := by
  induction t generalizing cs with
  | nil => exact ⟨cs, rfl⟩
  | cons c t ih =>
    obtain ⟨hc, ht⟩ := List.forall_mem_cons.1 ht
    obtain ⟨rest, h⟩ := h
    have hexpect : expect c (encode cs) = some (encode t ++ rest) := by
      rw [← h, encode_cons_ascii hc]
      simp [expect]
    obtain ⟨cs', rfl, hrest⟩ := expect_sound hc hexpect
    obtain ⟨cs'', rfl⟩ := ih ht ⟨rest, hrest⟩
    exact ⟨cs'', rfl⟩

theorem parseLiteral_sound {t cs : List Char} {v v' : Json} {rest : Bytes} (ht : ∀ c ∈ t, Ascii c)
    (h : parseLiteral (String.ofList t) v (encode cs) = some (v', rest)) :
    ∃ cs', cs = t ++ cs' ∧ v' = v ∧ rest = encode cs' := by
  have hbytes : (String.ofList t).toByteArray.data.toList = encode t := asBytes_ofList t
  unfold parseLiteral at h
  rw [hbytes] at h
  dsimp only at h
  split at h
  · next hprefix =>
    obtain ⟨cs', rfl⟩ := prefix_sound ht (List.isPrefixOf_iff_prefix.1 hprefix)
    cases h
    exact ⟨cs', rfl, rfl, by simp⟩
  · cases h

theorem parseLiteral_complete (t : List Char) (v : Json) (cs : List Char) :
    parseLiteral (String.ofList t) v (encode (t ++ cs)) = some (v, encode cs) := by
  have hbytes : (String.ofList t).toByteArray.data.toList = encode t := asBytes_ofList t
  unfold parseLiteral
  rw [hbytes]
  simp

/-! ### Numbers -/

theorem parseDigits_sound {cs : List Char} {rest : Bytes} (h : parseDigits (encode cs) = some rest) :
    ∃ ds cs', cs = ds ++ cs' ∧ Digits ds ∧ rest = encode cs' := by
  obtain ⟨⟨b, bs⟩, hb, h⟩ := Option.bind_eq_some_iff.1 h
  dsimp only at h
  split at h
  · next hdigit =>
    cases h
    have hlt : b < 0x80 := by
      rw [← UInt8.not_le]
      intro hle
      rw [isDigit_high hle] at hdigit
      cases hdigit
    obtain ⟨c, cs, rfl, hc, rfl, rfl⟩ := bump_ascii_of hb hlt
    rw [isDigit_toUInt8 hc] at hdigit
    refine ⟨c :: cs.takeWhile Char.isDigit, cs.dropWhile Char.isDigit, ?_, ⟨List.cons_ne_nil _ _, ?_⟩, skipDigits_encode cs⟩
    · rw [List.cons_append, List.takeWhile_append_dropWhile]
    · exact List.forall_mem_cons.2 ⟨hdigit, fun _ hc => List.mem_takeWhile_imp hc⟩
  · cases h

theorem parseDigits_complete {ds cs : List Char} (hds : Digits ds) (hcs : NotAhead (Char.isDigit · = true) cs) :
    parseDigits (encode (ds ++ cs)) = some (encode cs) := by
  obtain ⟨hne, hall⟩ := hds
  obtain ⟨d, ds, rfl⟩ := List.exists_cons_of_ne_nil hne
  obtain ⟨hd, hall⟩ := List.forall_mem_cons.1 hall
  have hascii := isDigit_ascii hd
  refine Option.bind_eq_some_iff.2 ⟨_, bump_ascii hascii (ds ++ cs), ?_⟩
  dsimp only
  rw [isDigit_toUInt8 hascii, if_pos hd, skipDigits_encode, dropWhile_append_stop hall hcs]
  rfl

theorem parseFrac_sound {cs : List Char} {rest : Bytes} (h : parseFrac (encode cs) = some rest) :
    ∃ t cs', cs = t ++ cs' ∧ Frac t ∧ rest = encode cs' := by
  unfold parseFrac at h
  split at h
  · next bs hdot =>
    obtain ⟨cs, rfl, rfl⟩ := expect_sound (by decide) hdot
    obtain ⟨ds, cs', rfl, hds, rfl⟩ := parseDigits_sound h
    exact ⟨'.' :: ds, cs', rfl, .inr ⟨ds, rfl, hds⟩, rfl⟩
  · cases h
    exact ⟨[], cs, rfl, .inl rfl, rfl⟩

theorem parseFrac_complete {t cs : List Char} (ht : Frac t) (hdot : NotAhead (· = '.') cs)
    (hdigit : NotAhead (Char.isDigit · = true) cs) : parseFrac (encode (t ++ cs)) = some (encode cs) := by
  unfold parseFrac
  rcases ht with rfl | ⟨ds, rfl, hds⟩
  · rw [List.nil_append, expect_none (by decide) hdot]
  · rw [List.cons_append, expect_self (by decide)]
    exact parseDigits_complete hds hdigit

theorem parseExp_sound {cs : List Char} {rest : Bytes} (h : parseExp (encode cs) = some rest) :
    ∃ t cs', cs = t ++ cs' ∧ Exp t ∧ rest = encode cs' := by
  unfold parseExp at h
  split at h
  · next bs hexp =>
    obtain ⟨e, cs, rfl, he, rfl⟩ : ∃ e cs', cs = e :: cs' ∧ (e = 'e' ∨ e = 'E') ∧ bs = encode cs' := by
      rcases Option.or_eq_some_iff.1 hexp with hlower | ⟨-, hupper⟩
      · obtain ⟨cs, rfl, rfl⟩ := expect_sound (by decide) hlower
        exact ⟨'e', cs, rfl, .inl rfl, rfl⟩
      · obtain ⟨cs, rfl, rfl⟩ := expect_sound (by decide) hupper
        exact ⟨'E', cs, rfl, .inr rfl, rfl⟩
    obtain ⟨sign, cs, rfl, hsign, hbs⟩ : ∃ sign cs', cs = sign ++ cs' ∧ (sign = [] ∨ sign = ['+'] ∨ sign = ['-']) ∧
        ((expect '+' (encode cs)).or (expect '-' (encode cs))).getD (encode cs) = encode cs' := by
      rcases hplus : expect '+' (encode cs) with - | bs
      · rcases hminus : expect '-' (encode cs) with - | bs
        · exact ⟨[], cs, rfl, .inl rfl, rfl⟩
        · obtain ⟨cs, rfl, rfl⟩ := expect_sound (by decide) hminus
          exact ⟨['-'], cs, rfl, .inr (.inr rfl), rfl⟩
      · obtain ⟨cs, rfl, rfl⟩ := expect_sound (by decide) hplus
        exact ⟨['+'], cs, rfl, .inr (.inl rfl), rfl⟩
    rw [hbs] at h
    obtain ⟨ds, cs', rfl, hds, rfl⟩ := parseDigits_sound h
    exact ⟨e :: (sign ++ ds), cs', by simp, .inr ⟨e, sign, ds, rfl, he, hsign, hds⟩, rfl⟩
  · cases h
    exact ⟨[], cs, rfl, .inl rfl, rfl⟩

theorem parseExp_complete {t cs : List Char} (ht : Exp t) (hexp : NotAhead (fun c => c = 'e' ∨ c = 'E') cs)
    (hdigit : NotAhead (Char.isDigit · = true) cs) : parseExp (encode (t ++ cs)) = some (encode cs) := by
  unfold parseExp
  rcases ht with rfl | ⟨e, sign, ds, rfl, he, hsign, hds⟩
  · rw [List.nil_append, expect_none (by decide) fun c hc h => hexp c hc (.inl h),
      expect_none (by decide) fun c hc h => hexp c hc (.inr h)]
    rfl
  · have hletter : (expect 'e' (encode (e :: (sign ++ ds) ++ cs))).or (expect 'E' (encode (e :: (sign ++ ds) ++ cs))) =
        some (encode (sign ++ (ds ++ cs))) := by
      rw [List.cons_append, List.append_assoc]
      rcases he with rfl | rfl
      · rw [expect_self (by decide)]
        rfl
      · rw [expect_none (by decide) (by rintro c ⟨⟩; decide), expect_self (by decide)]
        rfl
    have hsigned : ((expect '+' (encode (sign ++ (ds ++ cs)))).or (expect '-' (encode (sign ++ (ds ++ cs))))).getD
        (encode (sign ++ (ds ++ cs))) = encode (ds ++ cs) := by
      rcases hsign with rfl | rfl | rfl
      · obtain ⟨d, ds, rfl⟩ := List.exists_cons_of_ne_nil hds.1
        have hd := hds.2 d (List.mem_cons_self ..)
        have hnot : ∀ s : Char, s.isDigit = false → NotAhead (· = s) (d :: ds ++ cs) := by
          rintro s hs c ⟨⟩ rfl
          rw [hs] at hd
          cases hd
        rw [List.nil_append, expect_none (by decide) (hnot '+' (by decide)), expect_none (by decide) (hnot '-' (by decide))]
        rfl
      · rw [List.singleton_append, expect_self (by decide)]
        rfl
      · rw [List.singleton_append, expect_none (by decide) (by rintro c ⟨⟩; decide), expect_self (by decide)]
        rfl
    rw [hletter]
    dsimp only
    rw [hsigned]
    exact parseDigits_complete hds hdigit

/-- A character that a number could go on with. -/
def NumberChar (c : Char) : Prop := c.isDigit = true ∨ c = '.' ∨ c = 'e' ∨ c = 'E'

theorem parseNumber_sound {cs : List Char} {v : Json} {rest : Bytes} (h : parseNumber (encode cs) = some (v, rest)) :
    ∃ t cs', cs = t ++ cs' ∧ Number t ∧ v = .number ∧ rest = encode cs' := by
  obtain ⟨minus, cs, rfl, hminus, hsign⟩ : ∃ minus cs', cs = minus ++ cs' ∧ (minus = [] ∨ minus = ['-']) ∧
      (expect '-' (encode cs)).getD (encode cs) = encode cs' := by
    rcases hexpect : expect '-' (encode cs) with - | bs
    · exact ⟨[], cs, rfl, .inl rfl, rfl⟩
    · obtain ⟨cs, rfl, rfl⟩ := expect_sound (by decide) hexpect
      exact ⟨['-'], cs, rfl, .inr rfl, rfl⟩
  unfold parseNumber at h
  rw [hsign] at h
  obtain ⟨⟨b, bs⟩, hb, h⟩ := Option.bind_eq_some_iff.1 h
  obtain ⟨int, cs₁, rfl, hint, h⟩ : ∃ int cs₁, cs = int ++ cs₁ ∧ Int int ∧
      ((parseFrac (encode cs₁)).bind fun bs => (parseExp bs).bind fun bs => some (Json.number, bs)) = some (v, rest) := by
    dsimp only at h
    split at h
    · next hzero =>
      obtain ⟨c, cs, rfl, hc, rfl, rfl⟩ := bump_ascii_of hb (by rw [hzero]; decide)
      obtain rfl := hc.toUInt8_inj (by decide) hzero
      exact ⟨['0'], cs, rfl, .inl rfl, h⟩
    · next hzero =>
      split at h
      · next hdigit =>
        have hlt : b < 0x80 := by
          rw [← UInt8.not_le]
          intro hle
          rw [isDigit_high hle] at hdigit
          cases hdigit
        obtain ⟨c, cs, rfl, hc, rfl, rfl⟩ := bump_ascii_of hb hlt
        rw [isDigit_toUInt8 hc] at hdigit
        rw [skipDigits_encode] at h
        refine ⟨c :: cs.takeWhile Char.isDigit, cs.dropWhile Char.isDigit, ?_, .inr ⟨c, _, rfl, hdigit, ?_, ?_⟩, h⟩
        · rw [List.cons_append, List.takeWhile_append_dropWhile]
        · rintro rfl
          exact hzero rfl
        · exact fun _ hc => List.mem_takeWhile_imp hc
      · cases h
  obtain ⟨bs₁, h₁, h⟩ := Option.bind_eq_some_iff.1 h
  obtain ⟨frac, cs₂, rfl, hfrac, rfl⟩ := parseFrac_sound h₁
  obtain ⟨bs₂, h₂, h⟩ := Option.bind_eq_some_iff.1 h
  obtain ⟨exp, cs₃, rfl, hexp, rfl⟩ := parseExp_sound h₂
  cases h
  exact ⟨minus ++ (int ++ (frac ++ exp)), cs₃, by simp, ⟨minus, int, frac, exp, rfl, hminus, hint, hfrac, hexp⟩, rfl, rfl⟩

/-- The exponent of a number, or what follows it, does not go on with a digit or a point. -/
theorem Exp.notAhead {t cs : List Char} (ht : Exp t) (hcs : NotAhead NumberChar cs) :
    NotAhead (fun c => c.isDigit = true ∨ c = '.') (t ++ cs) := by
  rcases ht with rfl | ⟨e, sign, ds, rfl, he, -, -⟩
  · intro c hc h
    exact hcs c hc (h.imp_right .inl)
  · rintro c ⟨⟩ h
    rcases he with rfl | rfl <;> revert h <;> decide

theorem parseNumber_complete {t cs : List Char} (ht : Number t) (hcs : NotAhead NumberChar cs) :
    parseNumber (encode (t ++ cs)) = some (.number, encode cs) := by
  obtain ⟨minus, int, frac, exp, rfl, hminus, hint, hfrac, hexp⟩ := ht
  have hafter := hexp.notAhead hcs
  have hfrac' : parseFrac (encode (frac ++ (exp ++ cs))) = some (encode (exp ++ cs)) :=
    parseFrac_complete hfrac (fun c hc h => hafter c hc (.inr h)) fun c hc h => hafter c hc (.inl h)
  have hexp' : parseExp (encode (exp ++ cs)) = some (encode cs) :=
    parseExp_complete hexp (fun c hc h => hcs c hc (.inr (.inr h))) fun c hc h => hcs c hc (.inl h)
  have htail : ((parseFrac (encode (frac ++ (exp ++ cs)))).bind fun bs => (parseExp bs).bind fun bs =>
      some (Json.number, bs)) = some (Json.number, encode cs) := by
    rw [hfrac', Option.bind_some, hexp']
    rfl
  have hhead : ∃ d ds, int = d :: ds ∧ d.isDigit = true := by
    rcases hint with rfl | ⟨d, ds, rfl, hd, -, -⟩
    · exact ⟨'0', [], rfl, by decide⟩
    · exact ⟨d, ds, rfl, hd⟩
  have hsign : (expect '-' (encode (minus ++ (int ++ (frac ++ (exp ++ cs)))))).getD
      (encode (minus ++ (int ++ (frac ++ (exp ++ cs))))) = encode (int ++ (frac ++ (exp ++ cs))) := by
    rcases hminus with rfl | rfl
    · obtain ⟨d, ds, rfl, hd⟩ := hhead
      rw [List.nil_append, expect_none (by decide)]
      · rfl
      · rintro c ⟨⟩ rfl
        cases hd
    · rw [List.singleton_append, expect_self (by decide)]
      rfl
  have hassoc : minus ++ (int ++ (frac ++ exp)) ++ cs = minus ++ (int ++ (frac ++ (exp ++ cs))) := by simp
  unfold parseNumber
  rw [hassoc, hsign]
  rcases hint with rfl | ⟨d, ds, rfl, hd, hzero, hds⟩
  · exact Option.bind_eq_some_iff.2 ⟨_, bump_ascii (by decide) _, htail⟩
  · have hascii := isDigit_ascii hd
    have hne : ¬ d.toUInt8 = '0'.toUInt8 := fun h => hzero (hascii.toUInt8_inj (by decide) h)
    have hstop : NotAhead (Char.isDigit · = true) (frac ++ (exp ++ cs)) := by
      rcases hfrac with rfl | ⟨fs, rfl, -⟩
      · exact fun c hc h => hafter c hc (.inl h)
      · rintro c ⟨⟩ h
        cases h
    refine Option.bind_eq_some_iff.2 ⟨_, bump_ascii hascii (ds ++ (frac ++ (exp ++ cs))), ?_⟩
    dsimp only
    rw [if_neg hne, isDigit_toUInt8 hascii, if_pos hd, skipDigits_encode, dropWhile_append_stop hds hstop]
    exact htail

end JsonText
end Micronuts
