/-
Tokens that are made of a name: `Reads.ident`, `Reads.function` and
`Reads.atKeyword` say how each is written. A name is plain if it is written
without escapes; it then stands for its own text.
-/
import ThemeVars.Proofs.Token.Tiling

namespace ThemeVars

open Text

/-! ## Plain names -/

/-- Written without escapes, and without NUL, which stands for another
character. -/
def IsPlain (name : List Char) : Prop := ∀ c ∈ name, c ≠ '\\' ∧ c ≠ '\x00'

theorem next_plain {c : Char} (h : c ≠ '\\') : EscapeState.plain.next c = .plain := by
  simp [EscapeState.next, EscapeState.isFresh, h]

theorem after_plain {name : List Char} (h : IsPlain name) : EscapeState.plain.after name = .plain := by
  induction name with
  | nil => rfl
  | cons c cs ih =>
    obtain ⟨hc, hcs⟩ := List.forall_mem_cons.1 h
    rw [EscapeState.after_cons, next_plain hc.1, ih hcs]

/-- A plain name stands for its own text. -/
theorem unescape_plain {name : List Char} (h : IsPlain name) (inString : Bool) :
    unescape inString name = String.ofList name := by
  rw [unescape]
  congr 1
  induction name with
  | nil => rfl
  | cons c cs ih =>
    obtain ⟨⟨hb, hn⟩, hcs⟩ := List.forall_mem_cons.1 h
    rw [unescapeFrom, next_plain hb, ih hcs]
    simp [EscapeState.reads, EscapeState.isFresh, withoutNull, hb, hn]

/-- A plain name reaches up to a character that is no part of one. -/
theorem nameAt_plain {name : List Char} (hp : IsPlain name) (h : nameAt name = name) {c : Char}
    (hc : isNameChar c = false) (hb : c ≠ '\\') (rest : List Char) : nameAt (name ++ c :: rest) = name := by
  have halone : nameAt (name ++ []) = name := by rwa [List.append_nil]
  refine nameAt_change halone fun d ds hd => ?_
  rw [after_plain hp]
  cases hd
  simp [endsRun, EscapeState.isFresh, hb, hc]

/-! ## Tokens that are names -/

/-- A name, or one with an opening parenthesis. -/
def Token.isName : Token → Bool
  | .ident _ => true
  | .function _ => true
  | _ => false

theorem isName_numberAt (s : List Char) : (numberAt s).1.isName = false := by
  simp only [numberAt]
  split
  · rfl
  · split <;> rfl

theorem isName_stringAt (q : Char) (s : List Char) : (stringAt q s).1.isName = false := by
  simp only [stringAt]
  split
  · rfl
  · split <;> rfl

theorem isName_urlAt {s : List Char} {t : Token} {n : Nat} (h : urlAt s = .some (t, n)) : t.isName = false := by
  obtain ⟨lead, path, tail, stop, rfl, hparts⟩ := exists_urlParts s
  rw [urlAt_append hparts] at h
  split at h
  · cases h
  · simp only [Option.some.injEq, Prod.mk.injEq] at h
    rw [← h.1]
    cases stop with
    | nil => rfl
    | cons c cs =>
      simp only [urlStop]
      split <;> rfl

theorem isWord_of_sign? {t : Token} {sign : List Char} (h : t.sign? = .some sign) : t.isWord = false := by
  cases t <;> first | rfl | cases h

/-- What a word begins with: a quote, a number or a name. -/
theorem Reads.word_cases {text rest : List Char} {t : Token} (h : Reads text rest t) (ht : t.isWord = true) :
    (∃ q cs, text = q :: cs ∧ isQuote q = true ∧ stringAt q (cs ++ rest) = (t, cs.length)) ∨
      (Numeral.startsAt (text ++ rest) = true ∧ numberAt (text ++ rest) = (t, text.length)) ∨
      (startsName (text ++ rest) = true ∧ ThemeVars.nameTokenAt (text ++ rest) = (t, text.length)) := by
  obtain ⟨c, cs, rfl, h⟩ := h
  have hlead := leads_tokenAt c
  have never {p : Token × Nat} (hp : p.1.isWord = false) (h : p = (t, (c :: cs).length)) : False := by
    rw [h, ht] at hp
    cases hp
  generalize tokenAt c = f at *
  cases hlead with
  | space => exact (never rfl h).elim
  | quote hq =>
    obtain ⟨hs, hn⟩ := Prod.mk.inj h
    rw [List.length_cons] at hn
    refine .inl ⟨c, cs, rfl, by simpa [isQuote] using hq, Prod.ext hs ?_⟩
    omega
  | digit hc => exact .inr (.inl ⟨by simp [Numeral.startsAt_of_ne _ (isDigit_ne hc rfl) (isDigit_ne hc rfl), hc], h⟩)
  | name hc =>
    refine .inr (.inr ⟨?_, h⟩)
    rw [List.cons_append, startsName_of_ne _ (isNameStart_ne hc rfl) (isNameStart_ne hc rfl), hc]
  | plus =>
    beta_reduce at h
    split at h
    · rename_i hnum
      exact .inr (.inl ⟨hnum, h⟩)
    · exact (never rfl h).elim
  | dot =>
    beta_reduce at h
    split at h
    · rename_i hnum
      exact .inr (.inl ⟨hnum, h⟩)
    · exact (never rfl h).elim
  | hyphen =>
    beta_reduce at h
    split_ifs at h with hnum hcdc hname
    · exact .inr (.inl ⟨hnum, h⟩)
    · exact (never rfl h).elim
    · exact .inr (.inr ⟨hname, h⟩)
    · exact (never rfl h).elim
  | backslash =>
    beta_reduce at h
    split at h
    · rename_i hname
      exact .inr (.inr ⟨hname, h⟩)
    · exact (never rfl h).elim
  | hashSign =>
    beta_reduce at h
    split_ifs at h
    · exact (never rfl h).elim
    · exact (never rfl h).elim
    · exact (never rfl h).elim
  | atSign =>
    beta_reduce at h
    split at h
    · exact (never rfl h).elim
    · exact (never rfl h).elim
  | slash =>
    beta_reduce at h
    split at h
    · exact (never rfl h).elim
    · exact (never rfl h).elim
  | less =>
    beta_reduce at h
    split at h
    · exact (never rfl h).elim
    · exact (never rfl h).elim
  | sign =>
    beta_reduce at h
    split at h
    · rename_i hu
      split at h
      · exact (never (isWord_of_sign? (sign?_matcher hu)) h).elim
      · exact (never rfl h).elim
    · exact (never (isWord_of_sign? (sign?_signToken c)) h).elim

theorem isWord_of_isName {t : Token} (h : t.isName = true) : t.isWord = true := by
  cases t <;> first | rfl | cases h

/-- Such a token is read where a name starts. -/
theorem Reads.nameTokenAt {text rest : List Char} {t : Token} (h : Reads text rest t) (ht : t.isName = true) :
    startsName (text ++ rest) = true ∧ nameTokenAt (text ++ rest) = (t, text.length) := by
  rcases h.word_cases (isWord_of_isName ht) with ⟨q, cs, -, -, hs⟩ | ⟨-, hn⟩ | hn
  · have hname := isName_stringAt q (cs ++ rest)
    rw [hs, ht] at hname
    cases hname
  · have hname := isName_numberAt (text ++ rest)
    rw [hn, ht] at hname
    cases hname
  · exact hn

/-- What a name is read as: a function before a parenthesis, unless that makes
a url, else a name alone. -/
theorem nameTokenAt_cases (s : List Char) :
    nameTokenAt s = (.ident (unescape false (nameAt s)), (nameAt s).length) ∨
      (∃ u, s = nameAt s ++ '(' :: u) ∧
        nameTokenAt s = (.function (unescape false (nameAt s)), (nameAt s).length + 1) ∨
      (nameTokenAt s).1.isName = false := by
  obtain ⟨name, after, rfl, hname⟩ := exists_nameAt s
  rw [hname]
  by_cases hp : after.head? = .some '('
  · obtain ⟨u, rfl⟩ := List.head?_eq_some_iff.1 hp
    right
    rw [nameTokenAt_paren hname]
    split
    · split
      · rename_i hu
        exact .inr (isName_urlAt hu)
      · exact .inl ⟨⟨u, rfl⟩, rfl⟩
    · exact .inl ⟨⟨u, rfl⟩, rfl⟩
  · exact .inl (nameTokenAt_ident hname hp)

/-- A prefix of the text that is as long as the name is the name. -/
theorem nameAt_of_length {text rest : List Char} (h : (nameAt (text ++ rest)).length = text.length) :
    nameAt (text ++ rest) = text := by
  obtain ⟨more, hm⟩ := nameAt_isPrefix (text ++ rest)
  exact (List.append_inj hm h).1

/-- A name is written as far as it reaches. -/
theorem Reads.ident {text rest : List Char} {n : String} (h : Reads text rest (.ident n)) :
    startsName (text ++ rest) = true ∧ nameAt (text ++ rest) = text ∧ n = unescape false text := by
  obtain ⟨hstarts, htoken⟩ := h.nameTokenAt rfl
  refine ⟨hstarts, ?_⟩
  rcases nameTokenAt_cases (text ++ rest) with h | ⟨-, h⟩ | h
  · obtain ⟨hn, hlen⟩ := Prod.mk.inj (h.symm.trans htoken)
    have hname := nameAt_of_length hlen
    rw [hname] at hn
    exact ⟨hname, (Token.ident.inj hn).symm⟩
  · cases h.symm.trans htoken
  · rw [htoken] at h
    cases h

/-- A function is written as its name and a parenthesis. -/
theorem Reads.function {text rest : List Char} {n : String} (h : Reads text rest (.function n)) :
    ∃ name, text = name ++ ['('] ∧ startsName (name ++ '(' :: rest) = true ∧ nameAt (name ++ '(' :: rest) = name := by
  obtain ⟨hstarts, htoken⟩ := h.nameTokenAt rfl
  rcases nameTokenAt_cases (text ++ rest) with h | ⟨⟨u, hu⟩, h⟩ | h
  · cases h.symm.trans htoken
  · obtain ⟨-, hlen⟩ := Prod.mk.inj (h.symm.trans htoken)
    have hcut : text ++ rest = (nameAt (text ++ rest) ++ ['(']) ++ u := by rwa [List.append_assoc]
    obtain ⟨htext, rfl⟩ := List.append_inj hcut (by simp [← hlen])
    have hs : text ++ rest = nameAt (text ++ rest) ++ '(' :: rest := hu
    exact ⟨_, htext, hs ▸ hstarts, congrArg nameAt hs.symm⟩
  · rw [htoken] at h
    cases h

/-- A token that is written with a mark is read from it on. -/
theorem Reads.marked {text rest : List Char} {t : Token} {mark : Char} (h : Reads text rest t) (ht : t.lead = [mark]) :
    ∃ cs, text = mark :: cs ∧ tokenAt mark (cs ++ rest) = (t, cs.length + 1) := by
  have hlead : [mark] <+: text := ht ▸ h.lead
  obtain ⟨cs, rfl⟩ := hlead
  obtain ⟨c, cs', hc, h⟩ := h
  cases hc
  exact ⟨cs, rfl, h⟩

theorem tokenAt_atSign (cs : List Char) :
    tokenAt '@' cs =
      if startsName cs then (.atKeyword (unescape false (nameAt cs)), 1 + (nameAt cs).length) else (.delim '@', 1) := by
  simp [tokenAt, isSpace, isNewline, Numeral.startsAt, Numeral.signOf, startsName, isNameStart]

theorem tokenAt_hashSign (cs : List Char) :
    tokenAt '#' cs =
      if startsName cs then (.idHash (unescape false (nameAt cs)), 1 + (nameAt cs).length)
      else if cs.head?.any fun d => d.isDigit || d == '-' then
        (.hash (unescape false (nameAt cs)), 1 + (nameAt cs).length)
      else (.delim '#', 1) := by
  simp [tokenAt, isSpace, isNewline, Numeral.startsAt, Numeral.signOf, startsName, isNameStart]

/-- An at-keyword is written as its mark and a name. -/
theorem Reads.atKeyword {text rest : List Char} {n : String} (h : Reads text rest (.atKeyword n)) :
    ∃ name, text = '@' :: name ∧ nameAt (name ++ rest) = name ∧ n = unescape false name := by
  obtain ⟨name, rfl, htoken⟩ := h.marked rfl
  refine ⟨name, rfl, ?_⟩
  rw [tokenAt_atSign] at htoken
  split at htoken
  · obtain ⟨hn, hlen⟩ := Prod.mk.inj htoken
    have hsame : (nameAt (name ++ rest)).length = name.length := by omega
    have hname := nameAt_of_length hsame
    rw [hname] at hn
    exact ⟨hname, (Token.atKeyword.inj hn).symm⟩
  · cases htoken

/-- What is read of a text is read in one way only. -/
theorem Reads.unique {text rest text' rest' : List Char} {t t' : Token} (h : Reads text rest t) (h' : Reads text' rest' t')
    (hs : text ++ rest = text' ++ rest') : text = text' ∧ t = t' := by
  obtain ⟨c, cs, rfl, h⟩ := h
  obtain ⟨c', cs', rfl, h'⟩ := h'
  obtain ⟨rfl, hcs⟩ := List.cons.inj hs
  change cs ++ rest = cs' ++ rest' at hcs
  rw [← hcs, h] at h'
  obtain ⟨ht, hlen⟩ := Prod.mk.inj h'
  exact ⟨(List.append_inj hs hlen).1, ht⟩

/-- A plain name that begins with two hyphens, before what follows it in a
reference. -/
theorem reads_custom {name : List Char} (hp : IsPlain ('-' :: '-' :: name))
    (hn : nameAt ('-' :: '-' :: name) = '-' :: '-' :: name) {c : Char} (hc : c = ')' ∨ c = ',') (rest : List Char) :
    Reads ('-' :: '-' :: name) (c :: rest) (.ident (String.ofList ('-' :: '-' :: name))) := by
  refine ⟨'-', '-' :: name, rfl, ?_⟩
  have hclose : (name ++ c :: rest).take 1 ≠ ['>'] := by
    cases name with
    | nil => rcases hc with rfl | rfl <;> simp
    | cons d cs =>
      intro hd
      cases hd
      simp [nameAt, spanEscaped, endsRun, EscapeState.isFresh, EscapeState.next, isNameChar, isNameStart] at hn
  have htoken : tokenAt '-' ('-' :: name ++ c :: rest) = nameTokenAt ('-' :: '-' :: name ++ c :: rest) := by
    simp [tokenAt, isSpace, isNewline, Numeral.startsAt, Numeral.signOf, startsName, hclose]
  have hname : nameAt ('-' :: '-' :: name ++ c :: rest) = '-' :: '-' :: name := by
    rcases hc with rfl | rfl
    · exact nameAt_plain hp hn rfl (by decide) rest
    · exact nameAt_plain hp hn rfl (by decide) rest
  have hparen : (c :: rest).head? ≠ .some '(' := by rcases hc with rfl | rfl <;> simp
  rw [htoken, nameTokenAt_ident hname hparen, unescape_plain hp]

end ThemeVars
