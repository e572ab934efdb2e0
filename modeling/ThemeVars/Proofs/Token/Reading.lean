/-
What the lexer reads, one token at a time. `Leads` says what the first
character of a token settles and how the lexer reads on after it; every fact
about single tokens is proved over its cases.
-/
import ThemeVars.Token.Lexer
import ThemeVars.Proofs.Token.Escape
import ThemeVars.Proofs.Token.Numeral

namespace ThemeVars

open Text

/-! ## The first character of a token -/

/-- The tokens that `=` makes of a character before it. -/
def matcher? (c : Char) : Option Token :=
  if c == '~' then .some .includeMatch
  else if c == '|' then .some .dashMatch
  else if c == '^' then .some .prefixMatch
  else if c == '$' then .some .suffixMatch
  else if c == '*' then .some .substringMatch
  else .none

/-- The token that a character is by itself. -/
def signToken (c : Char) : Token :=
  if c == '(' then .opening .round
  else if c == '[' then .opening .square
  else if c == '\x7b' then .opening .curly
  else if c == ')' then .closing .round
  else if c == ']' then .closing .square
  else if c == '\x7d' then .closing .curly
  else if c == ':' then .colon
  else if c == ';' then .semicolon
  else if c == ',' then .comma
  else .delim c

/-- A character that is a token by itself, whatever follows, save that some
make another token with `=`. -/
def isSign (c : Char) : Bool :=
  !(isSpace c || c == '"' || c == '\'' || c.isDigit || isNameStart c ||
    c == '+' || c == '.' || c == '-' || c == '\\' || c == '#' || c == '@' || c == '/' || c == '<')

/-- How the lexer reads on after the first character of a token. -/
inductive Leads : Char → (List Char → Token × Nat) → Prop
  | space {c} : isSpace c = true → Leads c fun cs => (.space, 1 + (cs.takeWhile isSpace).length)
  | quote {c} : c = '"' ∨ c = '\'' → Leads c fun cs => ((stringAt c cs).1, 1 + (stringAt c cs).2)
  | digit {c} : c.isDigit = true → Leads c fun cs => numberAt (c :: cs)
  | name {c} : isNameStart c = true → Leads c fun cs => nameTokenAt (c :: cs)
  | plus : Leads '+' fun cs =>
      if Numeral.startsAt ('+' :: cs) then numberAt ('+' :: cs) else (.delim '+', 1)
  | dot : Leads '.' fun cs =>
      if Numeral.startsAt ('.' :: cs) then numberAt ('.' :: cs) else (.delim '.', 1)
  | hyphen : Leads '-' fun cs =>
      if Numeral.startsAt ('-' :: cs) then numberAt ('-' :: cs)
      else if cs.take 2 = ['-', '>'] then (.commentClose, 3)
      else if startsName ('-' :: cs) then nameTokenAt ('-' :: cs)
      else (.delim '-', 1)
  | backslash : Leads '\\' fun cs =>
      if startsName ('\\' :: cs) then nameTokenAt ('\\' :: cs) else (.delim '\\', 1)
  | hashSign : Leads '#' fun cs =>
      if startsName cs then (.idHash (unescape false (nameAt cs)), 1 + (nameAt cs).length)
      else if cs.head?.any fun d => d.isDigit || d == '-' then
        (.hash (unescape false (nameAt cs)), 1 + (nameAt cs).length)
      else (.delim '#', 1)
  | atSign : Leads '@' fun cs =>
      if startsName cs then (.atKeyword (unescape false (nameAt cs)), 1 + (nameAt cs).length)
      else (.delim '@', 1)
  | slash : Leads '/' fun cs =>
      if cs.head? = .some '*' then (.comment, 2 + (commentBody cs.tail).length) else (.delim '/', 1)
  | less : Leads '<' fun cs =>
      if cs.take 3 = ['!', '-', '-'] then (.commentOpen, 4) else (.delim '<', 1)
  | sign {c} : isSign c = true → Leads c fun cs =>
      match matcher? c with
      | .some t => if cs.head? = .some '=' then (t, 2) else (.delim c, 1)
      | .none => (signToken c, 1)

theorem isSpace_iff {c : Char} :
    isSpace c = true ↔ c = ' ' ∨ c = '\t' ∨ c = '\n' ∨ c = '\x0c' ∨ c = '\r' := by
  simp [isSpace, isNewline, or_assoc]

theorem Leads.of_eq {c : Char} {f : List Char → Token × Nat} (h : Leads c f)
    (e : ∀ cs, tokenAt c cs = f cs) : Leads c (tokenAt c) := by
  rw [funext e]
  exact h

/-- A character that starts a name is no other lead. -/
theorem isNameStart_ne {c d : Char} (h : isNameStart c = true) (hd : isNameStart d = false) : c ≠ d := by
  rintro rfl
  rw [h] at hd
  cases hd

theorem Numeral.signOf_of_ne {c : Char} (cs : List Char) (hp : c ≠ '+') (hm : c ≠ '-') :
    signOf (c :: cs) = [] := by
  simp [signOf, hp, hm]

theorem Numeral.startsAt_of_ne {c : Char} (cs : List Char) (hp : c ≠ '+') (hm : c ≠ '-') :
    startsAt (c :: cs) = (c.isDigit || (c == '.' && cs.head?.any Char.isDigit)) := by
  simp [startsAt, signOf_of_ne cs hp hm]

theorem startsName_of_ne {c : Char} (cs : List Char) (hm : c ≠ '-') (hb : c ≠ '\\') :
    startsName (c :: cs) = isNameStart c := by
  simp [startsName, hm, hb]

theorem isDigit_ne {c d : Char} (h : c.isDigit = true) (hd : d.isDigit = false) : c ≠ d := by
  rintro rfl
  rw [h] at hd
  cases hd

theorem leads_tokenAt (c : Char) : Leads c (tokenAt c) := by
  by_cases hs : isSpace c = true
  · exact .of_eq (.space hs) fun cs => by simp [tokenAt, hs]
  by_cases hq : c = '"' ∨ c = '\''
  · refine .of_eq (.quote hq) fun cs => ?_
    rcases hq with rfl | rfl <;> simp [tokenAt, isSpace, isNewline]
  rw [not_or] at hq
  by_cases hd : c.isDigit = true
  · refine .of_eq (.digit hd) fun cs => ?_
    have hp : c ≠ '+' := isDigit_ne hd rfl
    have hm : c ≠ '-' := isDigit_ne hd rfl
    simp [tokenAt, hs, hq, Numeral.startsAt_of_ne cs hp hm, hd]
  by_cases hn : isNameStart c = true
  · refine .of_eq (.name hn) fun cs => ?_
    have hp : c ≠ '+' := isNameStart_ne hn rfl
    have hm : c ≠ '-' := isNameStart_ne hn rfl
    have hb : c ≠ '\\' := isNameStart_ne hn rfl
    have hdot : c ≠ '.' := isNameStart_ne hn rfl
    simp [tokenAt, hs, hq, Numeral.startsAt_of_ne cs hp hm, startsName_of_ne cs hm hb, hd, hn, hm, hdot]
  by_cases hp : c = '+'
  · subst hp
    exact .of_eq .plus fun cs => by simp [tokenAt, isSpace, isNewline, startsName, isNameStart]
  by_cases hdot : c = '.'
  · subst hdot
    exact .of_eq .dot fun cs => by simp [tokenAt, isSpace, isNewline, startsName, isNameStart]
  by_cases hm : c = '-'
  · subst hm
    exact .of_eq .hyphen fun cs => by simp [tokenAt, isSpace, isNewline]
  by_cases hb : c = '\\'
  · subst hb
    exact .of_eq .backslash fun cs => by simp [tokenAt, isSpace, isNewline, Numeral.startsAt, Numeral.signOf]
  have hnum (cs : List Char) : Numeral.startsAt (c :: cs) = false := by
    simp [Numeral.startsAt_of_ne cs hp hm, hd, hdot]
  have hname (cs : List Char) : startsName (c :: cs) = false := by
    simp [startsName_of_ne cs hm hb, hn]
  by_cases hh : c = '#'
  · subst hh
    exact .of_eq .hashSign fun cs => by simp [tokenAt, isSpace, isNewline, hnum, hname]
  by_cases ha : c = '@'
  · subst ha
    exact .of_eq .atSign fun cs => by simp [tokenAt, isSpace, isNewline, hnum, hname]
  by_cases hsl : c = '/'
  · subst hsl
    exact .of_eq .slash fun cs => by simp [tokenAt, isSpace, isNewline, hnum, hname]
  by_cases hl : c = '<'
  · subst hl
    exact .of_eq .less fun cs => by simp [tokenAt, isSpace, isNewline, hnum, hname]
  refine .of_eq (.sign (by simp [isSign, *])) fun cs => ?_
  by_cases hmatch : c = '~' ∨ c = '|' ∨ c = '^' ∨ c = '$' ∨ c = '*'
  · rcases hmatch with rfl | rfl | rfl | rfl | rfl <;> simp [tokenAt, isSpace, isNewline, hnum, hname, matcher?]
  simp only [not_or] at hmatch
  have hnone : matcher? c = .none := by simp [matcher?, hmatch]
  rw [hnone]
  by_cases hsign : c = '(' ∨ c = '[' ∨ c = '\x7b' ∨ c = ')' ∨ c = ']' ∨ c = '\x7d' ∨ c = ':' ∨ c = ';' ∨ c = ','
  · rcases hsign with rfl | rfl | rfl | rfl | rfl | rfl | rfl | rfl | rfl <;>
      simp [tokenAt, isSpace, isNewline, hnum, hname, signToken]
  · simp only [not_or] at hsign
    have hplain : signToken c = .delim c := by simp [signToken, hsign]
    rw [hplain]
    simp [tokenAt, hs, hq, hnum, hname, hm, hh, ha, hsl, hl, hmatch, hsign]

/-! ## Tokens by their parts -/

/-- The token of a name that is not the start of a function. -/
theorem nameTokenAt_ident {name rest : List Char} (h : nameAt (name ++ rest) = name)
    (hr : rest.head? ≠ .some '(') :
    nameTokenAt (name ++ rest) = (.ident (unescape false name), name.length) := by
  simp only [nameTokenAt, h, List.drop_left]
  split
  · simp at hr
  · rfl

/-- The token of a name before a parenthesis. -/
theorem nameTokenAt_paren {name rest : List Char} (h : nameAt (name ++ '(' :: rest) = name) :
    nameTokenAt (name ++ '(' :: rest) =
      if (unescape false name).lowered = "url" then
        match urlAt rest with
        | .some (t, n) => (t, name.length + 1 + n)
        | .none => (.function (unescape false name), name.length + 1)
      else (.function (unescape false name), name.length + 1) := by
  simp only [nameTokenAt, h, List.drop_left]
  by_cases hu : (unescape false name).lowered = "url"
  · cases urlAt rest with
    | none => simp [hu]
    | some found => simp [hu]
  · simp [hu]

/-- The token of a number, by what comes after it. -/
theorem numberAt_append {n : Numeral} {rest : List Char} (h : Numeral.read (n.text ++ rest) = n) :
    numberAt (n.text ++ rest) =
      if rest.head? = .some '%' then (.percentage n, n.text.length + 1)
      else if startsName rest = true then
        (.dimension n (unescape false (nameAt rest)), n.text.length + (nameAt rest).length)
      else (.number n, n.text.length) := by
  simp only [numberAt, h, List.drop_left, beq_iff_eq]

/-- What may stand in a string between its quotes. -/
def isStringChar (quote c : Char) : Bool := c != quote && !isNewline c

/-- The token of a string, by what comes after its characters. -/
theorem stringAt_append {q : Char} {run rest : List Char}
    (h : spanEscaped true (isStringChar q) .plain (run ++ rest) = (run, rest)) :
    stringAt q (run ++ rest) =
      if rest = [] then (.string (unescape true run), run.length)
      else if rest.head? = .some q then (.string (unescape true run), run.length + 1)
      else (.badString (unescape true run), run.length) := by
  unfold isStringChar at h
  simp only [stringAt, h]
  cases rest with
  | nil => rfl
  | cons c u => simp

/-- The inside of a url without quotes: spaces, the path, spaces, and what
stops it. -/
structure UrlParts (lead path tail stop : List Char) : Prop where
  lead : ∀ c ∈ lead, isSpace c = true
  head : (path ++ (tail ++ stop)).head?.any isSpace = false
  path : spanEscaped false isUrlChar .plain (path ++ (tail ++ stop)) = (path, tail ++ stop)
  tail : ∀ c ∈ tail, isSpace c = true
  stop : stop.head?.any isSpace = false

theorem takeWhile_spaces {a b : List Char} (ha : ∀ c ∈ a, isSpace c = true) (hb : b.head?.any isSpace = false) :
    (a ++ b).takeWhile isSpace = a ∧ (a ++ b).dropWhile isSpace = b := by
  rw [List.takeWhile_append_of_pos ha, List.dropWhile_append_of_pos ha]
  cases b with
  | nil => simp
  | cons c b =>
    have hc : isSpace c = false := by simpa using hb
    simp [hc]

theorem head_dropWhile_space (s : List Char) : (s.dropWhile isSpace).head?.any isSpace = false := by
  have h := List.head?_dropWhile_not isSpace s
  cases hd : (s.dropWhile isSpace).head? with
  | none => rfl
  | some c =>
    rw [hd] at h
    simpa using h

theorem exists_urlParts (s : List Char) :
    ∃ lead path tail stop, s = lead ++ (path ++ (tail ++ stop)) ∧ UrlParts lead path tail stop := by
  have h1 := List.takeWhile_append_dropWhile (p := isSpace) (l := s)
  have h2 := spanEscaped_append false isUrlChar .plain (s.dropWhile isSpace)
  generalize hp : spanEscaped false isUrlChar .plain (s.dropWhile isSpace) = p at h2
  have h3 := List.takeWhile_append_dropWhile (p := isSpace) (l := p.2)
  refine ⟨s.takeWhile isSpace, p.1, p.2.takeWhile isSpace, p.2.dropWhile isSpace, ?_, ?_⟩
  · rw [h3, h2, h1]
  · refine ⟨fun _ => List.mem_takeWhile_imp, ?_, ?_, fun _ => List.mem_takeWhile_imp, head_dropWhile_space _⟩
    · rw [h3, h2]
      exact head_dropWhile_space s
    · rw [h3, h2, hp]

/-- The url that is stopped here, and the number of characters of `stop` that
it takes. -/
def urlStop (path tail : List Char) : List Char → Token × Nat
  | [] => (.url (unescape false path), 0)
  | c :: cs =>
    if c = ')' then (.url (unescape false path), 1)
    else
      (.badUrl (String.ofList (path ++ tail ++ c :: badUrlBody false cs)),
        1 + (badUrlBody false cs).length + if (cs.drop (badUrlBody false cs).length).isEmpty then 0 else 1)

def isQuote (c : Char) : Bool := c == '"' || c == '\''

/-- A url by its parts. -/
theorem urlAt_append {lead path tail stop : List Char} (h : UrlParts lead path tail stop) :
    urlAt (lead ++ (path ++ (tail ++ stop))) =
      if (path ++ (tail ++ stop)).head?.any isQuote then .none
      else
        .some ((urlStop path tail stop).1,
          lead.length + path.length + tail.length + (urlStop path tail stop).2) := by
  obtain ⟨h1, h2⟩ := takeWhile_spaces h.lead h.head
  obtain ⟨h3, h4⟩ := takeWhile_spaces h.tail h.stop
  unfold urlAt
  simp only [h1, h2, h.path, h3, h4, beq_iff_eq]
  unfold isQuote
  cases stop with
  | nil => rfl
  | cons c cs =>
    simp only [urlStop]
    split
    · rfl
    · split
      · rfl
      · simp only [Nat.add_assoc]

/-! ## How far a token reaches -/

theorem exists_nameAt (s : List Char) : ∃ name rest, s = name ++ rest ∧ nameAt s = name :=
  ⟨nameAt s, s.drop (nameAt s).length, (List.prefix_iff_eq_append.1 (nameAt_isPrefix s)).symm, rfl⟩

theorem length_commentBody_le (s : List Char) : (commentBody s).length ≤ s.length := by
  induction s with
  | nil => exact Nat.le_refl _
  | cons c cs ih =>
    simp only [commentBody]
    split
    · rename_i h
      cases cs <;> simp at h ⊢
    · simpa using ih

theorem length_badUrlBody_le (taken : Bool) (s : List Char) : (badUrlBody taken s).length ≤ s.length := by
  induction s generalizing taken with
  | nil => exact Nat.le_refl _
  | cons c cs ih =>
    simp only [badUrlBody]
    split
    · simpa using ih false
    · split
      · simp
      · simpa using ih _

theorem length_urlStop_le (path tail stop : List Char) : (urlStop path tail stop).2 ≤ stop.length := by
  cases stop with
  | nil => exact Nat.le_refl _
  | cons c cs =>
    have hjunk := length_badUrlBody_le false cs
    simp only [urlStop, List.length_cons]
    split
    · simp
    · simp only [List.isEmpty_iff, List.drop_eq_nil_iff]
      split
      · omega
      · omega

/-- A url reaches no further than the text. -/
theorem length_urlAt_le {s : List Char} {t : Token} {n : Nat} (h : urlAt s = .some (t, n)) : n ≤ s.length := by
  obtain ⟨lead, path, tail, stop, rfl, hparts⟩ := exists_urlParts s
  rw [urlAt_append hparts] at h
  have := length_urlStop_le path tail stop
  simp only [List.length_append]
  split at h
  · cases h
  · simp only [Option.some.injEq, Prod.mk.injEq] at h
    omega

theorem length_nameTokenAt {s : List Char} (h : startsName s = true) :
    0 < (nameTokenAt s).2 ∧ (nameTokenAt s).2 ≤ s.length := by
  obtain ⟨name, rest, rfl, hname⟩ := exists_nameAt s
  have hne : 0 < name.length := List.length_pos_iff.2 (hname ▸ nameAt_ne_nil h)
  simp only [List.length_append]
  by_cases hp : rest.head? = .some '('
  · obtain ⟨u, rfl⟩ := List.head?_eq_some_iff.1 hp
    rw [nameTokenAt_paren hname]
    simp only [List.length_cons]
    split
    · split
      · rename_i t n hu
        have := length_urlAt_le hu
        simp only
        omega
      · simp only
        omega
    · simp only
      omega
  · rw [nameTokenAt_ident hname hp]
    simp only
    omega

theorem length_numberAt {s : List Char} (h : Numeral.startsAt s = true) :
    0 < (numberAt s).2 ∧ (numberAt s).2 ≤ s.length := by
  obtain ⟨hn, rest, hs, he⟩ := Numeral.read_spec h
  have hread := Numeral.read_append hn he
  have hpos : 0 < (Numeral.read s).text.length := by
    rw [Numeral.text_eq]
    rcases hn.digits with hd | hd
    · have := List.length_pos_iff.2 hd
      simp only [List.length_append]
      omega
    · have := List.length_pos_iff.2 hd
      simp only [List.length_append, Numeral.pointed, List.isEmpty_iff, hd, if_false, List.length_cons]
      omega
  have hunit := (nameAt_isPrefix rest).length_le
  generalize Numeral.read s = n at *
  subst hs
  rw [numberAt_append hread]
  simp only [List.length_append]
  split
  · rename_i hp
    cases rest with
    | nil => simp at hp
    | cons c u =>
      simp only [List.length_cons]
      omega
  · split
    · simp only
      omega
    · simp only
      omega

theorem length_stringAt_le (q : Char) (s : List Char) : (stringAt q s).2 ≤ s.length := by
  have hs := spanEscaped_append true (isStringChar q) .plain s
  generalize hp : spanEscaped true (isStringChar q) .plain s = p at hs
  obtain ⟨run, rest⟩ := p
  simp only at hs
  subst hs
  rw [stringAt_append hp]
  simp only [List.length_append]
  split
  · simp only
    omega
  · split
    · rename_i hne _
      have := List.length_pos_iff.2 hne
      simp only
      omega
    · simp only
      omega

/-- A token takes at least its first character, and no more than there is. -/
theorem length_tokenAt (c : Char) (cs : List Char) :
    0 < (tokenAt c cs).2 ∧ (tokenAt c cs).2 ≤ cs.length + 1 := by
  have h := leads_tokenAt c
  generalize tokenAt c = f at h
  have hname := (nameAt_isPrefix cs).length_le
  cases h with
  | space _ =>
    have := (List.takeWhile_prefix (l := cs) isSpace).length_le
    simp only
    omega
  | quote _ =>
    have := length_stringAt_le c cs
    simp only
    omega
  | digit hd =>
    have := length_numberAt (s := c :: cs) (by simp [Numeral.startsAt_of_ne cs (isDigit_ne hd rfl) (isDigit_ne hd rfl), hd])
    simpa using this
  | name hn =>
    have := length_nameTokenAt (s := c :: cs)
      (by simp [startsName_of_ne cs (isNameStart_ne hn rfl) (isNameStart_ne hn rfl), hn])
    simpa using this
  | plus =>
    simp only
    split
    · exact length_numberAt (by assumption)
    · simp
  | dot =>
    simp only
    split
    · exact length_numberAt (by assumption)
    · simp
  | hyphen =>
    simp only
    split
    · exact length_numberAt (by assumption)
    · split
      · rename_i h
        have := congrArg List.length h
        simp only [List.length_take, List.length_cons, List.length_nil] at this
        simp only
        omega
      · split
        · exact length_nameTokenAt (by assumption)
        · simp
  | backslash =>
    simp only
    split
    · exact length_nameTokenAt (by assumption)
    · simp
  | hashSign =>
    simp only
    split
    · simp only
      omega
    · split
      · simp only
        omega
      · simp
  | atSign =>
    simp only
    split
    · simp only
      omega
    · simp
  | slash =>
    simp only
    split
    · rename_i h
      have := length_commentBody_le cs.tail
      cases cs with
      | nil => simp at h
      | cons d cs =>
        simp only [List.tail_cons, List.length_cons] at this ⊢
        omega
    · simp
  | less =>
    simp only
    split
    · rename_i h
      have := congrArg List.length h
      simp only [List.length_take, List.length_cons, List.length_nil] at this
      simp only
      omega
    · simp
  | sign _ =>
    simp only
    split
    · split
      · rename_i h
        cases cs with
        | nil => simp at h
        | cons d cs => simp
      · simp
    · simp

end ThemeVars
