import Micronuts.Lib.Text

/-!
# Scanned payloads (`micronuts-wallet-core`: `payload.rs`)

A scanned text is a token, an invoice, the URL of a mint, or none of them. Behind the first `?` of a URL stand the items of
its query, and an item can carry a token. The items are read up to a second `?`, and up to the first one without a `=`, so
a token is found exactly when neither of these comes before its end (`classify_exact`).
-/

namespace Micronuts
open Text

inductive ScannedPayload
  | cashuToken (token : String)
  | lightningInvoice (invoice : String)
  | mintUrl (url : String)
  | unknown
deriving DecidableEq

namespace Payload

/-- `to_ascii_lowercase`. -/
def asciiLower (cs : List Char) : List Char := cs.map Char.toLower

def HasCashuPrefix (text : List Char) : Prop :=
  "cashub".toList <+: asciiLower text ∨ "cashua".toList <+: asciiLower text

instance : DecidablePred HasCashuPrefix := fun _ => inferInstanceAs (Decidable (_ ∨ _))

def HasUrlPrefix (text : List Char) : Prop := "http://".toList <+: text ∨ "https://".toList <+: text

instance : DecidablePred HasUrlPrefix := fun _ => inferInstanceAs (Decidable (_ ∨ _))

def splitOnce (sep : Char) (text : List Char) : Option (List Char × List Char) :=
  if sep ∈ text then some (text.takeWhile (· ≠ sep), (text.dropWhile (· ≠ sep)).tail) else none

def stripPrefix (word text : List Char) : Option (List Char) :=
  if word <+: text then some (text.drop word.length) else none

/-- The loop over the items of a query. An item without a `=` ends it, and the search with it. -/
def tokenInQuery : List (List Char) → Option (List Char)
  | [] => none
  | pair :: pairs =>
    match splitOnce '=' pair with
    | none => none
    | some (key, value) =>
      if asciiLower key = "token".toList ∧ HasCashuPrefix (trimChars value) then some (trimChars value)
      else tokenInQuery pairs

def extractToken (text : List Char) : Option (List Char) :=
  if HasCashuPrefix text then some text
  else if HasUrlPrefix (asciiLower text) then
    match (text.splitOn '?')[1]? with
    | none => none
    | some query => tokenInQuery (query.splitOn '&')
  else none

def classify (text : String) : ScannedPayload :=
  let trimmed := trimChars text.toList
  let unwrapped := trimChars (((stripPrefix "lightning:".toList trimmed).or
    (stripPrefix "LIGHTNING:".toList trimmed)).getD trimmed)
  match extractToken trimmed with
  | some token => .cashuToken (String.ofList token)
  | none =>
    if "lnb".toList <+: unwrapped then .lightningInvoice (String.ofList unwrapped)
    else if HasUrlPrefix unwrapped then .mintUrl (String.ofList unwrapped)
    else .unknown

/-! ### What a link carries -/

/-- The token of an item. -/
def carried (item : List Char) : Option (List Char) :=
  match splitOnce '=' item with
  | none => none
  | some (key, value) =>
    if asciiLower key = "token".toList ∧ HasCashuPrefix (trimChars value) then some (trimChars value) else none

/-- A URL with a query. -/
structure Link (text : String) (base : List Char) (items : List (List Char)) : Prop where
  trimmed : trimChars text.toList = base ++ '?' :: ['&'].intercalate items
  url : HasUrlPrefix (asciiLower (trimChars text.toList))
  first : '?' ∉ base
  nonempty : items ≠ []
  apart : ∀ item ∈ items, '&' ∉ item

/-- The first token, or else the URL. -/
def linkPayload (text : String) (items : List (List Char)) : ScannedPayload :=
  match items.findSome? carried with
  | some token => .cashuToken (String.ofList token)
  | none => .mintUrl (trim text)

/-- Up to the first item with a token there is no second `?`, and no item without a `=`. -/
def Readable (items : List (List Char)) : Prop :=
  ∀ before item after, items = before ++ item :: after → carried item ≠ none → (∀ i ∈ before, carried i = none) →
    '?' ∉ item ∧ ∀ i ∈ before, '=' ∈ i ∧ '?' ∉ i

/-! ### The items that are read -/

/-- The items up to a second `?`. -/
def cut : List (List Char) → List (List Char)
  | [] => []
  | item :: items => if '?' ∈ item then [item.takeWhile (· ≠ '?')] else item :: cut items

section items
variable {before behind cs item query token : List Char} {items : List (List Char)} {sep : Char}

theorem takeWhile_of_not_mem (h : sep ∉ cs) : cs.takeWhile (· ≠ sep) = cs :=
  List.takeWhile_eq_self_iff.2 fun c hc => by simpa using ne_of_mem_of_not_mem hc h

theorem takeWhile_first (h : sep ∉ before) : (before ++ sep :: behind).takeWhile (· ≠ sep) = before := by
  rw [List.takeWhile_append_of_pos fun c hc => by simpa using ne_of_mem_of_not_mem hc h,
    List.takeWhile_cons_of_neg (by simp), List.append_nil]

theorem splitOnce_first (h : sep ∉ before) : splitOnce sep (before ++ sep :: behind) = some (before, behind) := by
  rw [splitOnce, if_pos (by simp), takeWhile_first h,
    List.dropWhile_append_of_pos fun c hc => by simpa using ne_of_mem_of_not_mem hc h,
    List.dropWhile_cons_of_neg (by simp), List.tail_cons]

theorem splitOn_head (sep : Char) (cs : List Char) : (cs.splitOn sep)[0]? = some (cs.takeWhile (· ≠ sep)) := by
  by_cases h : sep ∈ cs
  · obtain ⟨before, behind, rfl, hbefore⟩ := List.eq_append_cons_of_mem h
    rw [List.splitOn_append_cons_self_of_not_mem hbefore, takeWhile_first hbefore]
    rfl
  · rw [List.splitOn_eq_singleton h, takeWhile_of_not_mem h]
    rfl

theorem not_mem_of_mem_splitOn (h : item ∈ cs.splitOn sep) : sep ∉ item := by
  induction cs generalizing item with
  | nil =>
    obtain rfl : item = [] := by simpa using h
    exact List.not_mem_nil
  | cons c cs ih =>
    rw [List.splitOn_cons_eq_if_modifyHead] at h
    split_ifs at h with hc
    · rcases List.mem_cons.1 h with rfl | h
      · exact List.not_mem_nil
      · exact ih h
    · obtain ⟨first, others, hsplit⟩ := List.exists_cons_of_ne_nil (List.splitOn_ne_nil sep cs)
      rw [hsplit, List.modifyHead_cons] at h
      rcases List.mem_cons.1 h with rfl | h
      · have hfirst := ih (hsplit ▸ List.mem_cons_self ..)
        exact List.not_mem_cons_of_ne_of_not_mem (fun heq => hc (by rw [heq, BEq.rfl])) hfirst
      · exact ih (hsplit ▸ List.mem_cons_of_mem _ h)

/-- What is read of the query, item by item. -/
theorem splitOn_query (hne : items ≠ []) (hapart : ∀ item ∈ items, '&' ∉ item) :
    ((['&'].intercalate items).takeWhile (· ≠ '?')).splitOn '&' = cut items := by
  induction items with
  | nil => exact absurd rfl hne
  | cons item items ih =>
    obtain ⟨hitem, hapart⟩ := List.forall_mem_cons.1 hapart
    have htake : '&' ∉ item.takeWhile (· ≠ '?') := fun h => hitem ((List.takeWhile_sublist _).subset h)
    rw [cut]
    by_cases hmark : '?' ∈ item
    · obtain ⟨before, behind, rfl, hbefore⟩ := List.eq_append_cons_of_mem hmark
      have hquery : ∃ more, ['&'].intercalate ((before ++ '?' :: behind) :: items) = before ++ '?' :: more := by
        rcases items with - | ⟨next, items⟩
        · exact ⟨behind, List.intercalate_singleton⟩
        · exact ⟨_, by rw [List.intercalate_cons_cons, List.append_assoc, List.append_assoc, List.cons_append]⟩
      obtain ⟨more, hmore⟩ := hquery
      rw [takeWhile_first hbefore] at htake
      rw [if_pos hmark, hmore, takeWhile_first hbefore, takeWhile_first hbefore, List.splitOn_eq_singleton htake]
    · rw [if_neg hmark]
      rcases items with - | ⟨next, items⟩
      · rw [List.intercalate_singleton, takeWhile_of_not_mem hmark, List.splitOn_eq_singleton hitem]
        rfl
      · rw [List.intercalate_cons_cons, List.append_assoc,
          List.takeWhile_append_of_pos fun c hc => by simpa using ne_of_mem_of_not_mem hc hmark, List.singleton_append,
          List.takeWhile_cons_of_pos (by decide), List.splitOn_append_cons_self_of_not_mem hitem,
          ih (by simp) hapart]

theorem tokenInQuery_cons : tokenInQuery (item :: items) =
    if '=' ∈ item then (carried item).or (tokenInQuery items) else none := by
  rw [tokenInQuery, carried]
  by_cases h : '=' ∈ item
  · obtain ⟨key, value, rfl, hkey⟩ := List.eq_append_cons_of_mem h
    rw [splitOnce_first hkey, if_pos h]
    dsimp only
    split_ifs
    · rfl
    · rfl
  · rw [splitOnce, if_neg h, if_neg h]

theorem carried_eq_some : carried item = some token ↔ ∃ key value, '=' ∉ key ∧ item = key ++ '=' :: value ∧
    asciiLower key = "token".toList ∧ HasCashuPrefix (trimChars value) ∧ token = trimChars value := by
  rw [carried]
  by_cases h : '=' ∈ item
  · obtain ⟨key, value, rfl, hkey⟩ := List.eq_append_cons_of_mem h
    rw [splitOnce_first hkey]
    constructor
    · intro htoken
      dsimp only at htoken
      split_ifs at htoken with hcashu
      exact ⟨key, value, hkey, rfl, hcashu.1, hcashu.2, (Option.some.inj htoken).symm⟩
    · rintro ⟨key', value', hkey', hitem, hlower, hcashu, rfl⟩
      obtain ⟨rfl, rfl⟩ : key = key' ∧ value = value' := by
        have hsplit : splitOnce '=' (key ++ '=' :: value) = some (key, value) := splitOnce_first hkey
        rw [hitem, splitOnce_first hkey'] at hsplit
        cases hsplit
        exact ⟨rfl, rfl⟩
      dsimp only
      rw [if_pos ⟨hlower, hcashu⟩]
  · rw [splitOnce, if_neg h]
    refine iff_of_false (by simp) ?_
    rintro ⟨key, value, -, rfl, -⟩
    exact h (by simp)

/-! ### Where a second question mark stands -/

theorem carried_truncated (h : carried before ≠ none) : carried (before ++ '?' :: behind) ≠ none := by
  obtain ⟨token, htoken⟩ := Option.ne_none_iff_exists'.1 h
  obtain ⟨key, value, hkey, rfl, hlower, hcashu, -⟩ := carried_eq_some.1 htoken
  have hne : trimChars value ≠ [] := by
    intro hnil
    rw [hnil] at hcashu
    revert hcashu
    decide
  have hstart : trimChars value <+: trimChars (value ++ '?' :: behind) := trimChars_prefix hne
  have hmore : HasCashuPrefix (trimChars (value ++ '?' :: behind)) :=
    hcashu.imp (fun h => h.trans (hstart.map _)) fun h => h.trans (hstart.map _)
  rw [carried_eq_some.2 ⟨key, _, hkey, by rw [List.append_assoc, List.cons_append], hlower, hmore, rfl⟩]
  exact Option.some_ne_none _

/-- A token with a question mark in it is not what is read. -/
theorem carried_ne_truncated (h : carried (before ++ '?' :: behind) = some token) (hbefore : '?' ∉ before) :
    carried before ≠ some token := by
  intro hcut
  obtain ⟨key', value', -, rfl, -, -, hvalue'⟩ := carried_eq_some.1 hcut
  obtain ⟨key, value, -, hitem, hlower, -, hvalue⟩ := carried_eq_some.1 h
  have hkey : '?' ∉ key := by
    intro hmem
    have : '?'.toLower ∈ asciiLower key := List.mem_map_of_mem hmem
    rw [hlower] at this
    revert this
    decide
  have hmark : '?' ∈ key ++ '=' :: value := by
    rw [← hitem]
    simp
  have hmem : '?' ∈ value := by simpa [hkey] using hmark
  have htoken : '?' ∈ token := hvalue ▸ mem_trimChars hmem (by decide)
  rw [hvalue'] at htoken
  exact hbefore (by simp [mem_of_mem_trimChars htoken])

theorem readable_cons_of_carried (h : carried item = some token) : Readable (item :: items) ↔ '?' ∉ item := by
  constructor
  · intro hreads
    exact (hreads [] item items rfl (by simp [h]) (by simp)).1
  · rintro hmark (- | ⟨first, before⟩) found after heq hfound hbefore
    · obtain ⟨rfl, rfl⟩ := List.cons.inj heq
      exact ⟨hmark, by simp⟩
    · obtain ⟨rfl, rfl⟩ := List.cons.inj heq
      simp [hbefore item (by simp)] at h

theorem readable_cons_of_none (h : carried item = none) :
    Readable (item :: items) ↔ (items.findSome? carried ≠ none → '=' ∈ item ∧ '?' ∉ item) ∧ Readable items := by
  constructor
  · refine fun hreads => ⟨fun hsome => ?_, fun before found after heq hfound hbefore => ?_⟩
    · obtain ⟨token, htoken⟩ := Option.ne_none_iff_exists'.1 hsome
      obtain ⟨before, found, after, rfl, hfound, hbefore⟩ := List.findSome?_eq_some_iff.1 htoken
      exact (hreads (item :: before) found after rfl (by simp [hfound]) (List.forall_mem_cons.2 ⟨h, hbefore⟩)).2 item
        (List.mem_cons_self ..)
    · obtain ⟨hmark, hall⟩ := hreads (item :: before) found after (by rw [heq, List.cons_append]) hfound
        (List.forall_mem_cons.2 ⟨h, hbefore⟩)
      exact ⟨hmark, (List.forall_mem_cons.1 hall).2⟩
  · rintro ⟨hitem, hreads⟩ (- | ⟨first, before⟩) found after heq hfound hbefore
    · obtain ⟨rfl, rfl⟩ := List.cons.inj heq
      exact absurd h hfound
    · obtain ⟨rfl, rfl⟩ := List.cons.inj heq
      obtain ⟨hmark, hall⟩ := hreads before found after rfl hfound fun i hi => hbefore i (List.mem_cons_of_mem _ hi)
      refine ⟨hmark, List.forall_mem_cons.2 ⟨hitem fun hnone => hfound ?_, hall⟩⟩
      exact List.findSome?_eq_none_iff.1 hnone found (by simp)

/-- The loop finds the first token exactly when the query can be read as far. -/
theorem tokenInQuery_cut (items : List (List Char)) :
    tokenInQuery (cut items) = items.findSome? carried ↔ Readable items := by
  induction items with
  | nil => exact iff_of_true rfl fun before item after heq => by simp at heq
  | cons item items ih =>
    rw [List.findSome?_cons, cut]
    rcases hcarried : carried item with - | token
    · rw [readable_cons_of_none hcarried]
      dsimp only
      split_ifs with hmark
      · -- what stands before the question mark carries no token, and nothing else is read
        obtain ⟨before, behind, rfl, hbefore⟩ := List.eq_append_cons_of_mem hmark
        have hcut : carried before = none := by
          by_contra hsome
          exact carried_truncated hsome hcarried
        have hread : tokenInQuery [before] = none := by
          rw [tokenInQuery_cons, hcut]
          split_ifs <;> rfl
        rw [takeWhile_first hbefore, hread]
        constructor
        · intro hnone
          refine ⟨fun hsome => absurd hnone.symm hsome, fun before' found after heq hfound => ?_⟩
          exact absurd (List.findSome?_eq_none_iff.1 hnone.symm found (by simp [heq])) hfound
        · rintro ⟨hitem, -⟩
          by_contra hsome
          exact (hitem (Ne.symm hsome)).2 hmark
      · rw [tokenInQuery_cons, hcarried, Option.none_or]
        split_ifs with hequals
        · rw [ih]
          exact ⟨fun h => ⟨fun _ => ⟨hequals, hmark⟩, h⟩, fun h => h.2⟩
        · constructor
          · intro hnone
            refine ⟨fun hsome => absurd hnone.symm hsome, fun before' found after heq hfound => ?_⟩
            exact absurd (List.findSome?_eq_none_iff.1 hnone.symm found (by simp [heq])) hfound
          · rintro ⟨hitem, -⟩
            by_contra hsome
            exact hequals (hitem (Ne.symm hsome)).1
    · rw [readable_cons_of_carried hcarried]
      dsimp only
      split_ifs with hmark
      · refine iff_of_false (fun hread => ?_) (not_not.2 hmark)
        obtain ⟨before, behind, rfl, hbefore⟩ := List.eq_append_cons_of_mem hmark
        rw [takeWhile_first hbefore, tokenInQuery_cons] at hread
        split_ifs at hread
        rw [show tokenInQuery [] = none from rfl, Option.or_none] at hread
        exact carried_ne_truncated hcarried hbefore hread
      · obtain ⟨key, value, -, rfl, -⟩ := carried_eq_some.1 hcarried
        rw [tokenInQuery_cons, hcarried, if_pos (by simp)]
        exact iff_of_true rfl hmark

end items

/-! ### The classification -/

section classify
variable {text : String} {base cs word : List Char} {items : List (List Char)} {token : String}

/-- A URL begins with none of the other words that are looked for. -/
theorem not_prefix_of_url (h : HasUrlPrefix (asciiLower cs)) (hword : (asciiLower word).head?.all (· ≠ 'h'))
    (hne : word ≠ []) : ¬ asciiLower word <+: asciiLower cs := by
  rintro ⟨rest, hrest⟩
  obtain ⟨tail, htail⟩ : ∃ tail, asciiLower cs = 'h' :: tail := by
    rcases h with ⟨tail, htail⟩ | ⟨tail, htail⟩
    · exact ⟨_, htail.symm⟩
    · exact ⟨_, htail.symm⟩
  rcases word with - | ⟨c, word⟩
  · exact hne rfl
  · rw [htail, asciiLower, List.map_cons, List.cons_append] at hrest
    rw [asciiLower, List.map_cons, List.head?_cons, (List.cons.inj hrest).1] at hword
    revert hword
    decide

theorem not_hasCashuPrefix_of_url (h : HasUrlPrefix (asciiLower cs)) : ¬ HasCashuPrefix cs := by
  rintro (hcashu | hcashu)
  · exact @not_prefix_of_url _ "cashub".toList h (by decide) (by decide) hcashu
  · exact @not_prefix_of_url _ "cashua".toList h (by decide) (by decide) hcashu

theorem extractToken_link (h : Link text base items) : extractToken (trimChars text.toList) = tokenInQuery (cut items) := by
  have hquery : ((trimChars text.toList).splitOn '?')[1]? = some ((['&'].intercalate items).takeWhile (· ≠ '?')) := by
    rw [h.trimmed, List.splitOn_append_cons_self_of_not_mem h.first, List.getElem?_cons_succ, splitOn_head]
  rw [extractToken, if_neg (not_hasCashuPrefix_of_url h.url), if_pos h.url, hquery]
  dsimp only
  rw [splitOn_query h.nonempty h.apart]

theorem classify_of_token {token : List Char} (h : extractToken (trimChars text.toList) = some token) :
    classify text = .cashuToken (String.ofList token) := by
  simp only [classify, h]

theorem classify_of_url (h : extractToken (trimChars text.toList) = none)
    (hurl : HasUrlPrefix (asciiLower (trimChars text.toList))) :
    classify text = if HasUrlPrefix (trimChars text.toList) then .mintUrl (trim text) else .unknown := by
  have hword : ∀ word : List Char, (asciiLower word).head?.all (· ≠ 'h') → word ≠ [] → ¬ word <+: trimChars text.toList :=
    fun word hhead hne hstart => not_prefix_of_url hurl hhead hne (hstart.map _)
  have hunwrapped : trimChars (((stripPrefix "lightning:".toList (trimChars text.toList)).or
      (stripPrefix "LIGHTNING:".toList (trimChars text.toList))).getD (trimChars text.toList)) = trimChars text.toList := by
    rw [stripPrefix, if_neg (hword _ (by decide) (by decide)), stripPrefix, if_neg (hword _ (by decide) (by decide))]
    exact trimChars_trimChars _
  simp only [classify, h, hunwrapped, if_neg (hword "lnb".toList (by decide) (by decide))]
  rfl

theorem classify_link (h : Link text base items) : classify text = linkPayload text items ↔
    Readable items ∧ (items.findSome? carried = none → HasUrlPrefix (trimChars text.toList)) := by
  have hextract := extractToken_link h
  rw [← tokenInQuery_cut, linkPayload]
  rcases hfound : items.findSome? carried with - | token
  · have hnone : tokenInQuery (cut items) = none := by
      rw [(tokenInQuery_cut items).2, hfound]
      exact fun before item after heq hcarried =>
        absurd (List.findSome?_eq_none_iff.1 hfound item (by simp [heq])) hcarried
    rw [classify_of_url (hextract.trans hnone) h.url, hnone]
    split_ifs with hlower
    · simp [hlower]
    · simp [hlower]
  · rcases hread : tokenInQuery (cut items) with - | read
    · rw [classify_of_url (hextract.trans hread) h.url]
      split_ifs
      · simp
      · simp
    · rw [classify_of_token (hextract.trans hread)]
      simp [String.ofList_inj]

/-- Every URL with a query is a link. -/
theorem exists_link (h : HasUrlPrefix (asciiLower (trimChars text.toList))) (hmark : '?' ∈ trimChars text.toList) :
    ∃ base items, Link text base items := by
  obtain ⟨base, query, htrimmed, hbase⟩ := List.eq_append_cons_of_mem hmark
  refine ⟨base, query.splitOn '&', ?_, h, hbase, by simp, fun item hitem => not_mem_of_mem_splitOn hitem⟩
  rw [List.intercalate_splitOn]
  exact htrimmed

/-- Any other text is a token as it stands. -/
theorem classify_other (hother : ∀ base items, ¬ Link text base items) (h : classify text = .cashuToken token) :
    HasCashuPrefix (trimChars text.toList) ∧ token = trim text := by
  rcases hextract : extractToken (trimChars text.toList) with - | read
  · simp only [classify, hextract] at h
    split_ifs at h
  · rw [classify_of_token hextract] at h
    obtain rfl : String.ofList read = token := by simpa using h
    rw [extractToken] at hextract
    split_ifs at hextract with hcashu hurl
    · obtain rfl := Option.some.inj hextract
      exact ⟨hcashu, rfl⟩
    · have hmark : '?' ∉ trimChars text.toList := fun hmark =>
        let ⟨base, items, hlink⟩ := exists_link hurl hmark
        hother base items hlink
      rw [List.splitOn_eq_singleton hmark] at hextract
      cases hextract

/-- A link is classified as its first token, or as a URL, exactly when it can be read as far; no other text is taken for a
token that does not begin like one. -/
theorem classify_exact (text : String) :
    (∀ base items, Link text base items → (classify text = linkPayload text items ↔
      Readable items ∧ (items.findSome? carried = none → HasUrlPrefix (trimChars text.toList)))) ∧
    ∀ token, (∀ base items, ¬ Link text base items) → classify text = .cashuToken token →
      HasCashuPrefix (trimChars text.toList) ∧ token = trim text :=
  ⟨fun _ _ => classify_link, fun _ => classify_other⟩

/-- Behind a flag without a value the token is lost, and the link is taken for a mint. -/
theorem classify_flag : Link "https://m/?x&token=cashuAb" "https://m/".toList ["x".toList, "token=cashuAb".toList] ∧
    linkPayload "https://m/?x&token=cashuAb" ["x".toList, "token=cashuAb".toList] = .cashuToken "cashuAb" ∧
    classify "https://m/?x&token=cashuAb" = .mintUrl "https://m/?x&token=cashuAb" := by
  refine ⟨⟨by decide, by decide, by decide, by decide, by decide⟩, by decide, by decide⟩

theorem classify_exact_toy : classify "https://m/?x=1&token=cashuAb" = .cashuToken "cashuAb" ∧
    HasCashuPrefix (trimChars "cashuAb".toList) := by
  have hlink : Link "https://m/?x=1&token=cashuAb" "https://m/".toList ["x=1".toList, "token=cashuAb".toList] :=
    ⟨by decide, by decide, by decide, by decide, by decide⟩
  have htoken : carried "token=cashuAb".toList = some "cashuAb".toList := by decide
  have hreads : Readable ["x=1".toList, "token=cashuAb".toList] :=
    (readable_cons_of_none (by decide)).2 ⟨fun _ => by decide, (readable_cons_of_carried htoken).2 (by decide)⟩
  have hother : ∀ base items, ¬ Link "cashuAb" base items := fun base items h =>
    not_hasCashuPrefix_of_url h.url (by decide)
  refine ⟨((classify_exact _).1 _ _ hlink).2 ⟨hreads, by decide⟩, ((classify_exact _).2 "cashuAb" hother (by decide)).1⟩

end classify

end Payload

end Micronuts
