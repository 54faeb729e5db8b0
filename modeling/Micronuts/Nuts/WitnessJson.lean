import Mathlib.Data.Bool.AllAny
import Micronuts.Nuts.JsonExact
import Micronuts.Nuts.Nut14

/-!
# Witnesses written and read back

`json_escape` escapes a control character byte by byte, and the scanner reads each `\u00XX` as the character U+00XX.
One byte is the whole of an ASCII control. A C1 control has two, and comes back as the two characters that they name.
So what is read back is the witness with each text `reread`, which is the witness itself when no text has a C1 control.
-/

namespace Micronuts
open JsonText

/-! ### What a text is read back as -/

/-- The control characters beyond ASCII, U+0080 to U+009F. -/
def C1Control (c : Char) : Prop := 0x80 ≤ c.toNat ∧ c.toNat < 0xA0

instance : DecidablePred C1Control := fun _ => instDecidableAnd

def NoC1Control (s : String) : Prop := ∀ c ∈ s.toList, ¬ C1Control c

def rereadChar (c : Char) : List Char :=
  if C1Control c then (String.utf8EncodeChar c).map fun b => Char.ofNat b.toNat else [c]

def reread (s : String) : String := String.ofList (s.toList.flatMap rereadChar)

theorem length_encodeChar_of_c1Control {c : Char} (h : C1Control c) : (String.utf8EncodeChar c).length = 2 := by
  have hall : ∀ n < 0xA0, 0x80 ≤ n → (String.utf8EncodeChar (Char.ofNat n)).length = 2 := by decide
  have hc := hall c.toNat h.2 h.1
  rwa [Char.ofNat_toNat] at hc

theorem rereadChar_of_not {c : Char} (h : ¬ C1Control c) : rereadChar c = [c] := if_neg h

theorem one_le_length_rereadChar (c : Char) : 1 ≤ (rereadChar c).length := by
  by_cases h : C1Control c
  · simp [rereadChar, h, length_encodeChar_of_c1Control h]
  · simp [rereadChar_of_not h]

theorem length_le_reread (cs : List Char) : cs.length ≤ (cs.flatMap rereadChar).length := by
  induction cs with
  | nil => simp
  | cons c cs ih =>
    have hc := one_le_length_rereadChar c
    simp only [List.flatMap_cons, List.length_append, List.length_cons]
    omega

/-- A text comes back as it was when it has no C1 control, and longer otherwise. -/
theorem reread_eq_self {s : String} : reread s = s ↔ NoC1Control s := by
  rw [reread, ← String.toList_inj, String.toList_ofList, NoC1Control]
  induction s.toList with
  | nil => simp
  | cons c cs ih =>
    rw [List.flatMap_cons, List.forall_mem_cons]
    constructor
    · intro h
      have hlen := congrArg List.length h
      have hcs := length_le_reread cs
      by_cases hc : C1Control c
      · simp only [rereadChar, hc, if_true, List.length_append, List.length_map, length_encodeChar_of_c1Control hc,
          List.length_cons] at hlen
        omega
      · rw [rereadChar_of_not hc] at h
        exact ⟨hc, ih.1 (List.cons.inj h).2⟩
    · rintro ⟨hc, hcs⟩
      rw [rereadChar_of_not hc, ih.2 hcs]
      rfl

theorem map_reread_eq_self {texts : List String} : texts.map reread = texts ↔ ∀ s ∈ texts, NoC1Control s := by
  induction texts with
  | nil => simp
  | cons s texts ih => simp [ih, reread_eq_self]

/-! ### What the escaper writes -/

namespace JsonText

theorem Chars.append {t t' s s' : List Char} (h : Chars t s) (h' : Chars t' s') : Chars (t ++ t') (s ++ s') := by
  induction h with
  | nil => exact h'
  | cons hc _ ih =>
    rw [List.append_assoc]
    exact .cons hc ih

theorem Chars.one {t : List Char} {c : Char} (h : CharText t c) : Chars t [c] := by
  simpa using Chars.cons h .nil

theorem Chars.flatMap {α : Type} {f g : α → List Char} {l : List α} (h : ∀ a ∈ l, Chars (f a) (g a)) :
    Chars (l.flatMap f) (l.flatMap g) := by
  induction l with
  | nil => exact .nil
  | cons a l ih =>
    obtain ⟨ha, hl⟩ := List.forall_mem_cons.1 h
    exact ha.append (ih hl)

end JsonText

/-- One escaped byte. -/
theorem charText_byte (b : UInt8) :
    CharText ['\\', 'u', '0', '0', Hex.digit (b.toNat / 16), Hex.digit (b.toNat % 16)] (Char.ofNat b.toNat) := by
  have hb := b.toNat_lt
  refine .unicode ⟨'0', '0', _, _, 0, 0, b.toNat / 16, b.toNat % 16, rfl, rfl, rfl, Hex.digitValue_digit _ (by omega),
    Hex.digitValue_digit _ (by omega), by omega⟩ ?_ ?_
  · rintro ⟨hhigh, -⟩
    omega
  · rintro ⟨hlow, -⟩
    omega

theorem toList_join (l : List String) : (String.join l).toList = l.flatMap String.toList := by
  induction l with
  | nil => rfl
  | cons s l ih => rw [String.join_cons, String.toList_append, ih, List.flatMap_cons]

/-- A control character is written as its bytes. -/
theorem rereadChar_control {c : Char} (h : isControl c = true) :
    rereadChar c = (String.utf8EncodeChar c).flatMap fun b => [Char.ofNat b.toNat] := by
  by_cases hc : C1Control c
  · rw [rereadChar, if_pos hc, List.map_eq_flatMap]
  · have hascii : c.toNat < 0x80 := by
      simp only [isControl, Bool.or_eq_true, decide_eq_true_eq, Bool.and_eq_true] at h
      unfold C1Control at hc
      omega
    have hchar : Char.ofNat c.toUInt8.toNat = c := by
      have hmod : c.toUInt8.toNat = c.toNat := Nat.mod_eq_of_lt (Nat.lt_trans hascii (by decide))
      rw [hmod, Char.ofNat_toNat]
    rw [rereadChar_of_not hc, Utf8.Ascii.encodeChar hascii]
    simp [hchar]

theorem chars_jsonEscapeChar (c : Char) : Chars (jsonEscapeChar c).toList (rereadChar c) := by
  have hquote : Chars ['\\', '"'] (rereadChar '"') := .one (.escape (by simp [escapes]))
  have hslash : Chars ['\\', '\\'] (rereadChar '\\') := .one (.escape (by simp [escapes]))
  unfold jsonEscapeChar
  split_ifs with h₁ h₂ h₃
  · subst h₁
    exact hquote
  · subst h₂
    exact hslash
  · rw [rereadChar_control h₃, toList_join, List.flatMap_map]
    refine Chars.flatMap fun b _ => ?_
    rw [String.toList_append, String.toList_ofList, String.toList_ofList]
    exact .one (charText_byte b)
  · have hplain : ¬ C1Control c ∧ 0x20 ≤ c.toNat := by
      simp only [isControl, Bool.or_eq_true, decide_eq_true_eq, Bool.and_eq_true] at h₃
      unfold C1Control
      omega
    rw [rereadChar_of_not hplain.1, String.toList_singleton]
    exact .one (.unescaped ⟨hplain.2, h₁, h₂⟩)

/-- The escaped text is a string that stands for the text as it is read back. -/
theorem text_jsonEscape (s : String) : Text (jsonEscape s).toList (reread s) := by
  refine ⟨s.toList.flatMap fun c => (jsonEscapeChar c).toList, ?_, ?_⟩
  · rw [jsonEscape, String.toList_append, String.toList_append, toList_join, List.flatMap_map]
    rfl
  · rw [reread, String.toList_ofList]
    exact Chars.flatMap fun c _ => chars_jsonEscapeChar c

/-! ### Arrays and objects -/

theorem ws_nil : Ws [] := by
  intro c hc
  simp at hc

theorem items_jsonEscape (s : String) (texts : List String) :
    Items (",".intercalate ((s :: texts).map jsonEscape)).toList ((s :: texts).map (.string ∘ reread)) := by
  induction texts generalizing s with
  | nil =>
    have hone := Items.one ws_nil (.string (text_jsonEscape s)) ws_nil
    simpa using hone
  | cons s' texts ih =>
    have hmore := Items.more ws_nil (.string (text_jsonEscape s)) ws_nil (ih s')
    simpa [String.intercalate_cons_cons, String.toList_append] using hmore

/-- The text of an array of texts. -/
theorem value_jsonEscape (texts : List String) :
    Value ('[' :: ((",".intercalate (texts.map jsonEscape)).toList ++ [']'])) (.array (texts.map (.string ∘ reread))) := by
  cases texts with
  | nil => exact .emptyArray ws_nil
  | cons s texts => exact .array (items_jsonEscape s texts)

/-- A key without escapes. -/
theorem text_key {key : String} (h : ∀ c ∈ key.toList, Unescaped c) : Text ('"' :: (key.toList ++ ['"'])) key := by
  refine ⟨key.toList, rfl, ?_⟩
  generalize key.toList = cs at h
  induction cs with
  | nil => exact .nil
  | cons c cs ih =>
    obtain ⟨hc, hcs⟩ := List.forall_mem_cons.1 h
    exact .cons (.unescaped hc) (ih hcs)

theorem parse_object {s : String} {t : List Char} {members : List (String × Json)}
    (hs : s.toList = '\x7b' :: (t ++ ['\x7d'])) (h : Members t members) : Json.parse s = some (.object members) := by
  rw [parse_iff]
  exact ⟨[], s.toList, [], by simp, ws_nil, hs ▸ .object h, ws_nil⟩

theorem mapM_asStr (texts : List String) : (texts.map Json.string).mapM Json.asStr = some texts := by
  induction texts with
  | nil => rfl
  | cons s texts ih =>
    rw [List.map_cons, List.mapM_cons, ih]
    rfl

/-! ### Witnesses -/

def P2pkWitness.reread (w : P2pkWitness) : P2pkWitness := ⟨w.signatures.map Micronuts.reread⟩

def HtlcWitness.reread (w : HtlcWitness) : HtlcWitness :=
  ⟨w.preimage.map Micronuts.reread, w.signatures.map (·.map Micronuts.reread)⟩

/-- The members that a witness is written with. -/
def HtlcWitness.members (w : HtlcWitness) : List (String × Json) :=
  (w.preimage.map fun p => ("preimage", Json.string p)).toList ++
    (w.signatures.map fun l => ("signatures", Json.array (l.map .string))).toList

theorem unescaped_signatures : ∀ c ∈ "signatures".toList, Unescaped c := by
  unfold Unescaped
  exact List.all_iff_forall_prop.1 (by decide)

theorem unescaped_preimage : ∀ c ∈ "preimage".toList, Unescaped c := by
  unfold Unescaped
  exact List.all_iff_forall_prop.1 (by decide)

/-- The member of the signatures. -/
theorem members_signatures (texts : List String) :
    Members ("\"signatures\":[".toList ++ ((",".intercalate (texts.map jsonEscape)).toList ++ [']']))
      [("signatures", .array ((texts.map reread).map .string))] := by
  have hone := Members.one ws_nil (text_key unescaped_signatures) ws_nil ws_nil (value_jsonEscape texts) ws_nil
  rw [List.map_map]
  simpa using hone

/-- What a written P2PK witness is read back as. -/
theorem P2pkWitness.fromJson_toJson_reread (w : P2pkWitness) : fromJson w.toJson = some w.reread := by
  have hparse : Json.parse w.toJson = some (.object [("signatures", .array (w.reread.signatures.map .string))]) := by
    refine parse_object ?_ (members_signatures w.signatures)
    rw [toJson, String.toList_append, String.toList_append]
    simp
  refine Option.bind_eq_some_iff.2 ⟨_, hparse, ?_⟩
  refine Option.bind_eq_some_iff.2 ⟨.array (w.reread.signatures.map .string), rfl, ?_⟩
  refine Option.bind_eq_some_iff.2 ⟨w.reread.signatures.map .string, rfl, ?_⟩
  exact Option.bind_eq_some_iff.2 ⟨_, mapM_asStr _, rfl⟩

/-- A witness is written as its members. -/
theorem HtlcWitness.parse_toJson {w : HtlcWitness} (hne : w.preimage ≠ none ∨ w.signatures ≠ none) :
    Json.parse w.toJson = some (.object w.reread.members) := by
  obtain ⟨preimage, signatures⟩ := w
  cases preimage with
  | none =>
    cases signatures with
    | none => simp at hne
    | some l =>
      refine parse_object ?_ (members_signatures l)
      simp [toJson, String.toList_append]
  | some p =>
    cases signatures with
    | none =>
      have hone := Members.one ws_nil (text_key unescaped_preimage) ws_nil ws_nil (.string (text_jsonEscape p)) ws_nil
      refine parse_object ?_ hone
      simp [toJson, String.toList_append]
    | some l =>
      have hmore := Members.more ws_nil (text_key unescaped_preimage) ws_nil ws_nil (.string (text_jsonEscape p)) ws_nil
        (members_signatures l)
      refine parse_object ?_ hmore
      simp [toJson, String.toList_append]

/-- What the members of a witness are read as. -/
theorem HtlcWitness.fromJson_of_parse {s : String} {w : HtlcWitness} (hparse : Json.parse s = some (.object w.members))
    (hne : w.preimage ≠ none ∨ w.signatures ≠ none) : fromJson s = some w := by
  refine Option.bind_eq_some_iff.2 ⟨_, hparse, ?_⟩
  refine Option.bind_eq_some_iff.2 ⟨w.members, rfl, ?_⟩
  obtain ⟨preimage, signatures⟩ := w
  have hmap : ∀ l : List String, l.mapM (Json.asStr ∘ Json.string) = some l := by
    intro l
    rw [← mapM_asStr l, List.mapM_map]
  have hget : ((Json.getMember "preimage" (members ⟨preimage, signatures⟩)).bind Json.asStr = preimage) ∧
      (((Json.getMember "signatures" (members ⟨preimage, signatures⟩)).bind Json.asArray).bind fun a =>
        a.mapM Json.asStr) = signatures := by
    cases preimage <;> cases signatures <;>
      simp [members, Json.getMember, Json.asStr, Json.asArray, hmap]
  dsimp only
  rw [hget.1, hget.2, if_neg (by rintro ⟨rfl, rfl⟩; simp at hne)]
  rfl

/-- What a written HTLC witness is read back as. -/
theorem HtlcWitness.fromJson_toJson_reread {w : HtlcWitness} (hne : w.preimage ≠ none ∨ w.signatures ≠ none) :
    fromJson w.toJson = some w.reread := by
  refine fromJson_of_parse (parse_toJson hne) ?_
  simpa [reread] using hne

/-! ### The round trip -/

theorem P2pkWitness.reread_eq_self {w : P2pkWitness} : w.reread = w ↔ ∀ s ∈ w.signatures, NoC1Control s := by
  obtain ⟨signatures⟩ := w
  simp [reread, map_reread_eq_self]

theorem HtlcWitness.reread_eq_self {w : HtlcWitness} :
    w.reread = w ↔ (∀ p ∈ w.preimage, NoC1Control p) ∧ ∀ l ∈ w.signatures, ∀ s ∈ l, NoC1Control s := by
  obtain ⟨preimage, signatures⟩ := w
  cases preimage <;> cases signatures <;> simp [reread, map_reread_eq_self, Micronuts.reread_eq_self]

/-- A witness with a member to write is read back as it was when none of its texts has a C1 control. -/
theorem witnesses_read_back (p2pk : P2pkWitness) (htlc : HtlcWitness) :
    (P2pkWitness.fromJson p2pk.toJson = some p2pk ↔ ∀ s ∈ p2pk.signatures, NoC1Control s) ∧
      (htlc.preimage ≠ none ∨ htlc.signatures ≠ none →
        (HtlcWitness.fromJson htlc.toJson = some htlc ↔
          (∀ p ∈ htlc.preimage, NoC1Control p) ∧ ∀ l ∈ htlc.signatures, ∀ s ∈ l, NoC1Control s)) := by
  constructor
  · rw [P2pkWitness.fromJson_toJson_reread, Option.some_inj, P2pkWitness.reread_eq_self]
  · intro hne
    rw [HtlcWitness.fromJson_toJson_reread hne, Option.some_inj, HtlcWitness.reread_eq_self]

/-- A preimage and signatures, with texts that are escaped. -/
theorem witnesses_read_back_toy : HtlcWitness.fromJson (HtlcWitness.toJson ⟨some "00\n\"", some ["c0ffee", "é\\"]⟩) =
    some ⟨some "00\n\"", some ["c0ffee", "é\\"]⟩ := by
  have hpreimage : NoC1Control "00\n\"" := List.all_iff_forall_prop.1 (by decide +kernel)
  have hhex : NoC1Control "c0ffee" := List.all_iff_forall_prop.1 (by decide +kernel)
  have haccent : NoC1Control "é\\" := List.all_iff_forall_prop.1 (by decide +kernel)
  refine ((witnesses_read_back ⟨[]⟩ ⟨some "00\n\"", some ["c0ffee", "é\\"]⟩).2 (.inl (Option.some_ne_none _))).2 ⟨?_, ?_⟩
  · intro p hp
    rw [← Option.mem_some_iff.1 hp]
    exact hpreimage
  · intro l hl
    rw [← Option.mem_some_iff.1 hl]
    exact List.forall_mem_cons.2 ⟨hhex, List.forall_mem_singleton.2 haccent⟩

/-- NEL is read back as `Â` and NEL. -/
theorem nextLine_not_read_back :
    P2pkWitness.fromJson (P2pkWitness.toJson ⟨["\u0085"]⟩) = some ⟨["\u00C2\u0085"]⟩ ∧
      P2pkWitness.fromJson (P2pkWitness.toJson ⟨["\u0085"]⟩) ≠ some ⟨["\u0085"]⟩ ∧
      HtlcWitness.fromJson (HtlcWitness.toJson ⟨some "\u0085", none⟩) ≠ some ⟨some "\u0085", none⟩ := by
  decide +kernel

/-! ### Hex text -/

/-- Hex digits of either case. -/
def HexText (s : String) : Prop := ∀ c ∈ s.toList, (Hex.digitValue c).isSome = true

theorem hexText_encode (bs : List UInt8) : HexText (Hex.encode bs) := by
  have hdigit : ∀ n < 16, (Hex.digitValue (Hex.digit n)).isSome = true := by decide
  intro c hc
  rw [Hex.encode, String.toList_ofList, Hex.digits, List.mem_flatMap] at hc
  obtain ⟨b, -, hc⟩ := hc
  have hlt := b.toNat_lt
  rcases List.mem_cons.1 hc with rfl | hc
  · exact hdigit _ (by omega)
  · rw [List.mem_singleton.1 hc]
    exact hdigit _ (by omega)

theorem hexText_of_decode {s : String} {bs : List UInt8} (h : Hex.decode s = some bs) : HexText s := by
  unfold Hex.decode at h
  unfold HexText
  generalize s.toList = l at h ⊢
  fun_induction Hex.decodeDigits l generalizing bs with
  | case1 => simp
  | case2 => cases h
  | case3 a b rest ih =>
    obtain ⟨x, hx, h⟩ := Option.bind_eq_some_iff.1 h
    obtain ⟨y, hy, h⟩ := Option.bind_eq_some_iff.1 h
    obtain ⟨bs', hbs, -⟩ := Option.bind_eq_some_iff.1 h
    refine List.forall_mem_cons.2 ⟨by rw [hx]; rfl, List.forall_mem_cons.2 ⟨by rw [hy]; rfl, ih hbs⟩⟩

/-- What holds of the hex digits among the first 128 characters holds of all. -/
theorem forall_hexChar {P : Char → Prop} (h : ∀ n < 128, (Hex.digitValue (Char.ofNat n)).isSome = true → P (Char.ofNat n))
    {c : Char} (hc : (Hex.digitValue c).isSome = true) : P c := by
  have hle : ∀ d : Char, c ≤ d → d.toNat < 128 → c.toNat < 128 :=
    fun d hcd hd => Nat.lt_of_le_of_lt (UInt32.le_iff_toNat_le.1 hcd) hd
  have hlt : c.toNat < 128 := by
    unfold Hex.digitValue at hc
    split at hc
    · next hd => exact hle '9' hd.2 (by decide)
    · split at hc
      · next hd => exact hle 'f' hd.2 (by decide)
      · split at hc
        · next hd => exact hle 'F' hd.2 (by decide)
        · cases hc
  have hall := h c.toNat hlt
  rw [Char.ofNat_toNat] at hall
  exact hall hc

theorem HexText.noC1Control {s : String} (h : HexText s) : NoC1Control s := by
  intro c hc hcontrol
  obtain ⟨x, hx⟩ := Option.isSome_iff_exists.1 (h c hc)
  have hascii : c.toNat < 128 := digitValue_ascii hx
  have hle : 128 ≤ c.toNat := hcontrol.1
  omega

/-- A witness with hex signatures is read back. -/
theorem P2pkWitness.fromJson_toJson {w : P2pkWitness} (h : ∀ s ∈ w.signatures, HexText s) :
    fromJson w.toJson = some w := by
  rw [fromJson_toJson_reread, reread_eq_self.2 fun s hs => (h s hs).noC1Control]

/-- A witness of hex texts is read back. -/
theorem HtlcWitness.fromJson_toJson {w : HtlcWitness} (hpre : ∀ p, w.preimage = some p → HexText p)
    (hsig : ∀ l, w.signatures = some l → ∀ s ∈ l, HexText s) (hne : w.preimage ≠ none ∨ w.signatures ≠ none) :
    fromJson w.toJson = some w := by
  have hsame : w.reread = w :=
    reread_eq_self.2 ⟨fun p hp => (hpre p hp).noC1Control, fun l hl s hs => (hsig l hl s hs).noC1Control⟩
  rw [fromJson_toJson_reread hne, hsame]

end Micronuts
