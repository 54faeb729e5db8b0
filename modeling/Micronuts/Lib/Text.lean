import Mathlib.Data.List.DropRight

/-!
# Trimmed text and lines

`str::trim`: without the white space of Unicode at both ends. A line is what comes before a newline.
-/

namespace Text

def isWhitespace (c : Char) : Bool :=
  let n := c.toNat
  (0x9 ≤ n && n ≤ 0xD) || n = 0x20 || n = 0x85 || n = 0xA0 || n = 0x1680 || (0x2000 ≤ n && n ≤ 0x200A) ||
    n = 0x2028 || n = 0x2029 || n = 0x202F || n = 0x205F || n = 0x3000

def trim (s : String) : String :=
  String.ofList ((s.toList.dropWhile isWhitespace).reverse.dropWhile isWhitespace).reverse

/-- Without the white space at the end. -/
def trimEnd (s : String) : String := String.ofList (s.toList.reverse.dropWhile isWhitespace).reverse

theorem dropWhile_eq_self {cs : List Char} (h : ∀ c ∈ cs, isWhitespace c = false) : cs.dropWhile isWhitespace = cs := by
  cases cs with
  | nil => rfl
  | cons c cs => rw [List.dropWhile_cons_of_neg (by simp [h c (by simp)])]

theorem trimEnd_eq_self {s : String} (h : ∀ c ∈ s.toList, isWhitespace c = false) : trimEnd s = s := by
  have hself := dropWhile_eq_self fun c hc => h c (List.mem_reverse.1 hc)
  rw [trimEnd, hself, List.reverse_reverse, String.ofList_toList]

/-- Text that begins with a word is trimmed after the word. -/
theorem trim_append {word rest : String} (hne : word.toList ≠ []) (h : ∀ c ∈ word.toList, isWhitespace c = false) :
    trim (word ++ rest) = word ++ trimEnd rest := by
  have hfront : (word ++ rest).toList.dropWhile isWhitespace = word.toList ++ rest.toList := by
    rw [String.toList_append, List.dropWhile_append, dropWhile_eq_self h, if_neg (by simpa using hne)]
  have hword := dropWhile_eq_self fun c hc => h c (List.mem_reverse.1 hc)
  have hback : ((word.toList ++ rest.toList).reverse.dropWhile isWhitespace).reverse =
      word.toList ++ (rest.toList.reverse.dropWhile isWhitespace).reverse := by
    rw [List.reverse_append, List.dropWhile_append]
    split
    · next hempty => simp [List.isEmpty_iff.1 hempty, hword]
    · simp
  rw [trim, hfront, hback, trimEnd, String.ofList_append, String.ofList_toList]

/-- Text without white space is left as it is, with a newline behind it or without. -/
theorem trim_line {word : String} (hne : word.toList ≠ []) (h : ∀ c ∈ word.toList, isWhitespace c = false) :
    trim word = word ∧ trim (word ++ "\n") = word := by
  have hword : trim (word ++ "") = word ++ trimEnd "" := trim_append hne h
  have hline : trim (word ++ "\n") = word ++ trimEnd "\n" := trim_append hne h
  have hempty : trimEnd "" = "" := rfl
  have hnewline : trimEnd "\n" = "" := by decide
  rw [hempty, String.append_empty] at hword
  rw [hnewline, String.append_empty] at hline
  exact ⟨hword, hline⟩

/-! ### Trimmed characters -/

def trimChars (cs : List Char) : List Char := (cs.dropWhile isWhitespace).rdropWhile isWhitespace

section trimChars
variable {cs rest : List Char} {c : Char}

theorem mem_of_mem_trimChars (h : c ∈ trimChars cs) : c ∈ cs :=
  (List.dropWhile_sublist _).subset ((List.rdropWhile_prefix ..).subset h)

theorem mem_dropWhile (h : c ∈ cs) (hc : isWhitespace c = false) : c ∈ cs.dropWhile isWhitespace := by
  rw [← List.takeWhile_append_dropWhile (p := isWhitespace) (l := cs)] at h
  rcases List.mem_append.1 h with h | h
  · rw [List.mem_takeWhile_imp h] at hc
    cases hc
  · exact h

theorem mem_trimChars (h : c ∈ cs) (hc : isWhitespace c = false) : c ∈ trimChars cs :=
  List.mem_reverse.2 (mem_dropWhile (List.mem_reverse.2 (mem_dropWhile h hc)) hc)

/-- What is trimmed begins the same with more behind it. -/
theorem trimChars_prefix (hne : trimChars cs ≠ []) : trimChars cs <+: trimChars (cs ++ rest) := by
  have hfront : cs.dropWhile isWhitespace ≠ [] := by
    intro h
    rw [trimChars, h] at hne
    exact hne rfl
  rw [trimChars, trimChars, List.dropWhile_append, if_neg (by simpa using hfront)]
  rw [List.rdropWhile, List.rdropWhile, List.reverse_append, List.dropWhile_append]
  split_ifs
  · exact List.prefix_rfl
  · rw [List.reverse_append, List.reverse_reverse]
    exact (List.rdropWhile_prefix ..).trans (List.prefix_append _ _)

theorem trimChars_trimChars (cs : List Char) : trimChars (trimChars cs) = trimChars cs := by
  have hfront : (trimChars cs).dropWhile isWhitespace = trimChars cs := by
    refine List.dropWhile_eq_self_iff.2 fun hpos => ?_
    have hstart : trimChars cs <+: cs.dropWhile isWhitespace := List.rdropWhile_prefix ..
    rw [hstart.getElem hpos]
    exact List.dropWhile_get_zero_not _ _ (hpos.trans_le hstart.length_le)
  calc trimChars (trimChars cs)
      = ((trimChars cs).dropWhile isWhitespace).rdropWhile isWhitespace := rfl
    _ = (trimChars cs).rdropWhile isWhitespace := by rw [hfront]
    _ = trimChars cs := List.rdropWhile_idempotent ..

end trimChars

/-! ### Lines -/

def newline : UInt8 := 10

/-- The first line, and what is behind its newline. -/
def takeLine (bs : List UInt8) : Option (List UInt8 × List UInt8) :=
  if newline ∈ bs then some (bs.takeWhile (· != newline), (bs.dropWhile (· != newline)).tail) else none

theorem takeLine_append {line : List UInt8} (h : newline ∉ line) (rest : List UInt8) :
    takeLine (line ++ newline :: rest) = some (line, rest) := by
  rw [takeLine, if_pos (by simp)]
  induction line with
  | nil => simp
  | cons b line ih =>
    simp only [List.mem_cons, not_or] at h
    have hb : (b != newline) = true := by simpa using Ne.symm h.1
    have hih := ih h.2
    simp only [Option.some.injEq, Prod.mk.injEq] at hih ⊢
    simpa [hb] using hih

theorem takeLine_eq_none {bs : List UInt8} : takeLine bs = none ↔ newline ∉ bs := by
  rw [takeLine]
  split <;> simp_all

end Text
