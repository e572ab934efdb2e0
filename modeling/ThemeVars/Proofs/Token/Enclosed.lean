/-
Tokens between quotes or parentheses: strings, and urls without quotes. A text
that needs no escape there can be written there, and is read as it is; so can
one that is an identifier as it is, in the place of another.
-/
import ThemeVars.Proofs.Token.Pasting

namespace ThemeVars

open Text

/-- A run without escapes, before what no run of its kind goes on with. -/
theorem spanEscaped_plain {inString : Bool} {admits : Char → Bool} {x u : List Char} (hp : IsPlain x)
    (hx : ∀ c ∈ x, admits c = true) (hu : RunEnds inString admits .plain u) :
    spanEscaped inString admits .plain (x ++ u) = (x, u) := by
  induction x with
  | nil => exact spanEscaped_of_runEnds hu
  | cons c x ih =>
    obtain ⟨hc, hp⟩ := List.forall_mem_cons.1 hp
    obtain ⟨hadmits, hx⟩ := List.forall_mem_cons.1 hx
    have hrun : endsRun inString admits .plain c (x ++ u) = false := by
      simp [endsRun, EscapeState.isFresh, hc.1, hadmits]
    rw [List.cons_append, spanEscaped_cons hrun, next_plain hc.1, ih hp hx]

/-! ## What is read as a string or a url -/

/-- A token between quotes, or between the parentheses of a url. -/
def Token.isEnclosed : Token → Bool
  | .string _ => true
  | .badString _ => true
  | .url _ => true
  | .badUrl _ => true
  | _ => false

theorem isEnclosed_numberAt (s : List Char) : (numberAt s).1.isEnclosed = false := by
  simp only [numberAt]
  split
  · rfl
  · split <;> rfl

theorem stringAt_cases (q : Char) (s : List Char) :
    ∃ v, (stringAt q s).1 = .string v ∨ (stringAt q s).1 = .badString v := by
  simp only [stringAt]
  split
  · exact ⟨_, .inl rfl⟩
  · split
    · exact ⟨_, .inl rfl⟩
    · exact ⟨_, .inr rfl⟩

theorem urlAt_cases {s : List Char} {t : Token} {n : Nat} (h : urlAt s = .some (t, n)) :
    ∃ v, t = .url v ∨ t = .badUrl v := by
  obtain ⟨lead, path, tail, stop, rfl, hparts⟩ := exists_urlParts s
  rw [urlAt_append hparts] at h
  split at h
  · cases h
  · simp only [Option.some.injEq, Prod.mk.injEq] at h
    rw [← h.1]
    cases stop with
    | nil => exact ⟨_, .inl rfl⟩
    | cons c cs =>
      simp only [urlStop]
      split
      · exact ⟨_, .inl rfl⟩
      · exact ⟨_, .inr rfl⟩

/-- What begins with a name and is read as none is a url. -/
theorem url_of_nameTokenAt {s : List Char} {t : Token} {n : Nat} (h : nameTokenAt s = (t, n)) (ht : t.isName = false) :
    (unescape false (nameAt s)).lowered = "url" ∧ ∃ v, t = .url v ∨ t = .badUrl v := by
  obtain ⟨name, rest, rfl, hname⟩ := exists_nameAt s
  by_cases hp : rest.head? = .some '('
  · obtain ⟨u, rfl⟩ := List.head?_eq_some_iff.1 hp
    rw [nameTokenAt_paren hname] at h
    rw [hname]
    split at h
    · rename_i hurl
      split at h
      · rename_i hu
        cases h
        exact ⟨hurl, urlAt_cases hu⟩
      · cases h
        cases ht
    · cases h
      cases ht
  · rw [nameTokenAt_ident hname hp] at h
    cases h
    cases ht

/-! ## Strings -/

/-- A string begins with its quote. -/
theorem Reads.string {x u : List Char} {value : String} (h : Reads x u (.string value)) :
    ∃ q cs, x = q :: cs ∧ isQuote q = true := by
  rcases h.word_cases rfl with ⟨q, cs, rfl, hq, -⟩ | ⟨-, hn⟩ | ⟨-, hn⟩
  · exact ⟨q, cs, rfl, hq⟩
  · have hnumber := isEnclosed_numberAt (x ++ u)
    rw [hn] at hnumber
    cases hnumber
  · obtain ⟨-, v, hv | hv⟩ := url_of_nameTokenAt hn rfl
    · cases hv
    · cases hv

-- Decided along the text, never by a search through all characters.
instance (x : List Char) : Decidable (IsPlain x) :=
  decidable_of_iff (x.all fun c => decide (c ≠ '\\' ∧ c ≠ '\x00')) (by simp [IsPlain])

/-- The text needs no escape between such quotes. -/
structure FitsQuotes (q : Char) (x : List Char) : Prop where
  plain : IsPlain x
  chars : ∀ c ∈ x, isStringChar q c = true

instance (q : Char) (x : List Char) : Decidable (FitsQuotes q x) :=
  decidable_of_iff (IsPlain x ∧ x.all (isStringChar q) = true)
    ⟨fun h => ⟨h.1, List.all_eq_true.1 h.2⟩, fun h => ⟨h.plain, List.all_eq_true.2 h.chars⟩⟩

/-- Between quotes such a text is read as it is. -/
theorem reads_string {q : Char} {x : List Char} (hq : isQuote q = true) (hx : FitsQuotes q x) (rest : List Char) :
    Reads (q :: (x ++ [q])) rest (.string (String.ofList x)) := by
  have hb : q ≠ '\\' := by
    rintro rfl
    cases hq
  have hends : RunEnds true (isStringChar q) .plain (q :: rest) := by
    intro c cs hc
    cases hc
    simp [endsRun, EscapeState.isFresh, isStringChar, hb]
  have hstring := stringAt_append (spanEscaped_plain hx.plain hx.chars hends)
  rw [if_neg (List.cons_ne_nil _ _), if_pos List.head?_cons, unescape_plain hx.plain] at hstring
  refine ⟨q, x ++ [q], rfl, ?_⟩
  have htoken (cs : List Char) : tokenAt q cs = ((stringAt q cs).1, 1 + (stringAt q cs).2) := by
    rw [isQuote, Bool.or_eq_true, beq_iff_eq, beq_iff_eq] at hq
    rcases hq with rfl | rfl <;> simp [tokenAt, isSpace, isNewline]
  rw [List.append_assoc, List.singleton_append, htoken, hstring]
  simp
  omega

/-! ## Urls -/

/-- The text needs no quotes and no escape in a url. -/
structure FitsUrl (x : List Char) : Prop where
  plain : IsPlain x
  chars : ∀ c ∈ x, isUrlChar c = true

instance (x : List Char) : Decidable (FitsUrl x) :=
  decidable_of_iff (IsPlain x ∧ x.all isUrlChar = true)
    ⟨fun h => ⟨h.1, List.all_eq_true.1 h.2⟩, fun h => ⟨h.plain, List.all_eq_true.2 h.chars⟩⟩

theorem isUrlChar_of_isSpace {c : Char} (h : isSpace c = true) : isUrlChar c = false := by
  simp [isUrlChar, h]

theorem isUrlChar_of_isQuote {c : Char} (h : isQuote c = true) : isUrlChar c = false := by
  rw [isQuote, Bool.or_eq_true, beq_iff_eq, beq_iff_eq] at h
  rcases h with rfl | rfl <;> rfl

theorem urlAt_plain {x : List Char} (hx : FitsUrl x) (rest : List Char) :
    urlAt (x ++ ')' :: rest) = .some (.url (String.ofList x), x.length + 1) := by
  have hhead {p : Char → Bool} (hp : p ')' = false) (h : ∀ c, p c = true → isUrlChar c = false) :
      (x ++ ')' :: rest).head?.any p = false := by
    cases x with
    | nil => exact hp
    | cons c x =>
      have hc := hx.chars c List.mem_cons_self
      by_contra hpc
      rw [h c (by simpa using hpc)] at hc
      cases hc
  have hends : RunEnds false isUrlChar .plain (')' :: rest) := by
    intro c cs hc
    cases hc
    rfl
  have hparts : UrlParts [] x [] (')' :: rest) := by
    refine ⟨fun c hc => (nomatch hc), hhead rfl fun _ => isUrlChar_of_isSpace, ?_, fun c hc => (nomatch hc), rfl⟩
    exact spanEscaped_plain hx.plain hx.chars hends
  have hurl := urlAt_append hparts
  rw [List.nil_append, List.nil_append, hhead rfl fun _ => isUrlChar_of_isQuote, if_neg Bool.false_ne_true, urlStop,
    if_pos rfl, unescape_plain hx.plain] at hurl
  rw [hurl]
  simp

/-- In the parentheses of a url such a text is read as it is. -/
theorem reads_url {x : List Char} (hx : FitsUrl x) (rest : List Char) :
    Reads ("url(".toList ++ (x ++ [')'])) rest (.url (String.ofList x)) := by
  have hname : nameAt ("url".toList ++ '(' :: (x ++ ')' :: rest)) = "url".toList :=
    nameAt_plain (by simp [IsPlain]) (by decide) rfl (by decide) _
  have htoken := nameTokenAt_paren hname
  rw [unescape_plain (by simp [IsPlain]), if_pos (by decide), urlAt_plain hx] at htoken
  refine ⟨'u', 'r' :: 'l' :: '(' :: (x ++ [')']), rfl, ?_⟩
  have hlead : tokenAt 'u' = fun cs => nameTokenAt ('u' :: cs) := by
    funext cs
    simp [tokenAt, isSpace, isNewline, Numeral.startsAt, Numeral.signOf, startsName, isNameStart]
  rw [hlead]
  simpa [Nat.add_comm, Nat.add_left_comm] using htoken

/-- A name that is written with a hyphen in front stands for one that has it. -/
theorem nameAt_hyphen {s : List Char} (h : s.head? = .some '-') :
    (unescape false (nameAt s)).lowered.toList.head? = .some '-' := by
  obtain ⟨s, rfl⟩ := List.head?_eq_some_iff.1 h
  have hrun : endsRun false isNameChar .plain '-' s = false := rfl
  rw [nameAt, spanEscaped_cons hrun]
  simp [unescape, unescapeFrom, EscapeState.reads, EscapeState.isFresh, withoutNull, String.lowered, lower]

/-- A url begins as a name does, and with no hyphen. -/
theorem Reads.url {x u : List Char} {path : String} (h : Reads x u (.url path)) :
    startsName (x ++ u) = true ∧ (outlook (x ++ u)).dashes = false := by
  rcases h.word_cases rfl with ⟨q, cs, -, -, hs⟩ | ⟨-, hn⟩ | ⟨hstarts, hn⟩
  · have hvalue := stringAt_cases q (cs ++ u)
    rw [hs] at hvalue
    obtain ⟨value, hv | hv⟩ := hvalue
    · cases hv
    · cases hv
  · have hnumber := isEnclosed_numberAt (x ++ u)
    rw [hn] at hnumber
    cases hnumber
  · refine ⟨hstarts, ?_⟩
    obtain ⟨hurl, -⟩ := url_of_nameTokenAt hn rfl
    obtain ⟨c, cs, rfl⟩ := List.exists_cons_of_ne_nil h.ne_nil
    have hm : c ≠ '-' := by
      rintro rfl
      have hhead := nameAt_hyphen (s := '-' :: cs ++ u) rfl
      rw [hurl] at hhead
      cases hhead
    simp [Outlook.step, hm]

/-! ## Identifiers -/

/-- The text is an identifier as it is; two hyphens alone could begin the mark
`-->`. -/
structure FitsName (x : List Char) : Prop where
  plain : IsPlain x
  chars : ∀ c ∈ x, isNameChar c = true
  starts : startsName x = true
  ne_dashes : x ≠ ['-', '-']

instance (x : List Char) : Decidable (FitsName x) :=
  decidable_of_iff (IsPlain x ∧ x.all isNameChar = true ∧ startsName x = true ∧ x ≠ ['-', '-'])
    ⟨fun h => ⟨h.1, List.all_eq_true.1 h.2.1, h.2.2.1, h.2.2.2⟩,
      fun h => ⟨h.plain, List.all_eq_true.2 h.chars, h.starts, h.ne_dashes⟩⟩

/-- Whether a name starts is seen from its first two characters. -/
theorem FitsName.starts_append {x : List Char} (hx : FitsName x) (rest : List Char) : startsName (x ++ rest) = true := by
  have hstarts := hx.starts
  obtain ⟨hp, -, -, -⟩ := hx
  match x with
  | [] => cases hstarts
  | [c] =>
    have hb : c ≠ '\\' := (hp c List.mem_cons_self).1
    by_cases hm : c = '-'
    · subst hm
      cases hstarts
    · rw [startsName_of_ne [] hm hb] at hstarts
      rw [List.singleton_append, startsName_of_ne rest hm hb, hstarts]
  | c :: d :: x => exact hstarts

/-- Where a name starts, the token of it is read, unless it is the mark `-->`. -/
theorem reads_name {x rest : List Char} {t : Token} (hs : startsName (x ++ rest) = true)
    (h : nameTokenAt (x ++ rest) = (t, x.length)) (hx : x ≠ []) (hclose : x ≠ ['-', '-']) : Reads x rest t := by
  obtain ⟨c, cs, rfl⟩ := List.exists_cons_of_ne_nil hx
  refine ⟨c, cs, rfl, ?_⟩
  rw [List.cons_append] at hs h
  have hquote : (c == '"' || c == '\'') = false := by
    have h1 : c ≠ '"' := startsName_ne hs (by decide)
    have h2 : c ≠ '\'' := startsName_ne hs (by decide)
    simp [h1, h2]
  have harrow : (c == '-' && (cs ++ rest).take 2 == ['-', '>']) = false := by
    by_contra hc
    simp only [Bool.not_eq_false, Bool.and_eq_true, beq_iff_eq] at hc
    obtain ⟨rfl, htake⟩ := hc
    obtain ⟨w, hw⟩ := htake ▸ List.take_prefix 2 (cs ++ rest)
    rw [← hw] at h
    obtain ⟨-, hlen⟩ := Prod.mk.inj ((nameTokenAt_arrow w).symm.trans h)
    obtain ⟨d, rfl⟩ := List.length_eq_one_iff.1 (by simpa using hlen.symm : cs.length = 1)
    obtain ⟨rfl, -⟩ := List.cons.inj hw
    exact hclose rfl
  simp only [tokenAt, isSpace_of_startsName hs, hquote, startsAt_eq_false_of_startsName hs, harrow, hs, h,
    Bool.false_eq_true, if_false, if_true]

/-- Such a text is read as it is where the name ends with it. -/
theorem reads_ident {x rest : List Char} (hx : FitsName x) (hends : NameEnds x rest) (hparen : rest.head? ≠ .some '(') :
    Reads x rest (.ident (String.ofList x)) := by
  rw [NameEnds, after_plain hx.plain] at hends
  have hname : nameAt (x ++ rest) = x := congrArg Prod.fst (spanEscaped_plain hx.plain hx.chars hends)
  have htoken := nameTokenAt_ident hname hparen
  rw [unescape_plain hx.plain] at htoken
  refine reads_name (hx.starts_append rest) htoken ?_ hx.ne_dashes
  rintro rfl
  cases hx.starts

/-- A function at the end of a text is read before any other. -/
theorem Reads.function_nil {x : List Char} {name : String} (h : Reads x [] (.function name)) (v : List Char) :
    Reads x v (.function name) := by
  obtain ⟨-, htoken⟩ := h.nameTokenAt rfl
  obtain ⟨written, rfl, hstarts, hname⟩ := h.function
  obtain ⟨hstarts', hname'⟩ := startsName_change (List.cons_ne_nil _ _) hstarts hname
    ((keepsName_of_nameAt hstarts hname).cons (by decide) v)
  rw [List.append_nil, nameTokenAt_paren hname] at htoken
  have htoken' := nameTokenAt_paren hname'
  -- a url would have been read to the end
  have hurl : (unescape false written).lowered ≠ "url" := by
    intro hurl
    rw [if_pos hurl] at htoken
    cases htoken
  rw [if_neg hurl] at htoken htoken'
  obtain ⟨rfl, -⟩ := Prod.mk.inj htoken |>.imp Token.function.inj id
  refine reads_name (by simpa using hstarts') (by simpa using htoken') (by simp) fun h => ?_
  have := congrArg List.getLast? h
  simp at this

/-! ## Other texts in the place of some -/

/-- The second lexeme is the first with another path or name in it, or the same. -/
inductive Replaced : Lexeme → Lexeme → Prop
  | kept (l : Lexeme) : Replaced l l
  | url {path : String} {text new : List Char} {start start' : Nat} (hnew : FitsUrl new) :
      Replaced ⟨.url path, text, start⟩ ⟨.url (String.ofList new), "url(".toList ++ (new ++ [')']), start'⟩
  | string {value : String} {q : Char} {cs new : List Char} {start start' : Nat} (hq : isQuote q = true)
      (hnew : FitsQuotes q new) :
      Replaced ⟨.string value, q :: cs, start⟩ ⟨.string (String.ofList new), q :: (new ++ [q]), start'⟩
  | ident {name : String} {text new : List Char} {start start' : Nat} (hnew : FitsName new)
      (hdashes : ['-', '-'] <+: text ↔ ['-', '-'] <+: new) :
      Replaced ⟨.ident name, text, start⟩ ⟨.ident (String.ofList new), new, start'⟩

/-- No token before the texts sees a difference between them, unless they begin
with names. -/
def SeenAlike (u v : List Char) : Prop :=
  outlook u = outlook v ∨ startsName u = true ∧ startsName v = true ∧ (outlook u).dashes = (outlook v).dashes

theorem SeenAlike.reads {u v x : List Char} {t : Token} (h : SeenAlike u v) (hx : Reads x u t) :
    Reads x v t ∧ outlook (x ++ u) = outlook (x ++ v) := by
  rcases h with h | ⟨hu, hv, hd⟩
  · exact ⟨hx.congr h, by rw [outlook_append, outlook_append, h]⟩
  · exact hx.paste hu hv hd

theorem outlook_dashes {s : List Char} : (outlook s).dashes = true ↔ ['-', '-'] <+: s := by
  match s with
  | [] => simp
  | [c] => simp [Outlook.step]
  | c :: d :: s =>
    simp only [outlook_cons, Outlook.step, Bool.and_eq_true, beq_iff_eq, Option.some.injEq, List.cons_prefix_cons,
      List.nil_prefix, and_true]
    exact and_congr eq_comm eq_comm

/-- A text that begins with two hyphens does so without what follows it. -/
theorem outlook_dashes_append {x u : List Char} (hx : x ≠ []) (h : x = ['-'] → u.head? ≠ .some '-') :
    (outlook (x ++ u)).dashes = true ↔ ['-', '-'] <+: x := by
  rw [outlook_dashes]
  match x with
  | [] => exact absurd rfl hx
  | [c] =>
    simp only [List.singleton_append, List.cons_prefix_cons, List.prefix_nil, List.cons_ne_self, and_false, iff_false, not_and]
    rintro rfl ⟨v, rfl⟩
    exact h rfl rfl
  | c :: d :: x => simp [List.cons_prefix_cons]

/-- An identifier has another in its place before what looks the same. -/
theorem Reads.replace {x u v new : List Char} {name : String} (h : Reads x u (.ident name)) (hnew : FitsName new)
    (hdashes : ['-', '-'] <+: x ↔ ['-', '-'] <+: new) (hseen : SeenAlike u v) :
    Reads new v (.ident (String.ofList new)) ∧ SeenAlike (x ++ u) (new ++ v) := by
  obtain ⟨hstarts, hname, -⟩ := h.ident
  have hsame : outlook u = outlook v := hseen.resolve_right fun hu => by
    have := h.glues_eq_false hu.1
    cases this
  have hkeeps := keepsName_of_nameAt hstarts hname
  have hends : NameEnds new v := by
    rw [nameEnds_iff, ← hsame]
    intro c hc
    rw [after_plain hnew.plain]
    exact ⟨rfl, (hkeeps.2 c hc).2⟩
  have hparen : v.head? ≠ .some '(' := by
    rw [← outlook_head, ← hsame]
    by_cases hu : u = []
    · rw [hu]
      exact fun h => nomatch h
    · exact (h.settled hu).2.1
  refine ⟨reads_ident hnew hends hparen, .inr ⟨hstarts, hnew.starts_append v, ?_⟩⟩
  rw [Bool.eq_iff_iff, outlook_dashes_append h.ne_nil, hdashes, outlook_dashes_append]
  · rintro rfl
    cases hnew.starts
  · rintro rfl
    cases hnew.starts
  · rintro rfl
    rw [← outlook_head, hkeeps.1 rfl]
    decide

/-- A lexeme with another text in it is read before what looks the same. -/
theorem Replaced.reads {l l' : Lexeme} {u v : List Char} (h : Replaced l l') (hl : Reads l.text u l.token)
    (hseen : SeenAlike u v) : Reads l'.text v l'.token ∧ SeenAlike (l.text ++ u) (l'.text ++ v) := by
  cases h with
  | kept =>
    obtain ⟨hread, hsame⟩ := hseen.reads hl
    exact ⟨hread, .inl hsame⟩
  | url hnew =>
    obtain ⟨hstarts, hdashes⟩ := hl.url
    exact ⟨reads_url hnew _, .inr ⟨hstarts, rfl, hdashes⟩⟩
  | string hq hnew =>
    exact ⟨reads_string hq hnew _, .inl (Outlook.step_of_blocks (Outlook.blocks_of_isQuote hq) _ _)⟩
  | ident hnew hdashes => exact hl.replace hnew hdashes hseen

/-- With other texts in the place of some, lexemes are still what the lexer
reads: an induction from the last, by what those before can see. -/
theorem tiled_replaced {ls ls' : List Lexeme} (h : List.Forall₂ Replaced ls ls') (ht : Tiled ls) :
    Tiled ls' ∧ SeenAlike (ls.flatMap (·.text)) (ls'.flatMap (·.text)) := by
  induction h with
  | nil => exact ⟨trivial, .inl rfl⟩
  | cons hl _ ih =>
    obtain ⟨htiled, hseen⟩ := ih ht.2
    obtain ⟨hread, hseen'⟩ := hl.reads ht.1 hseen
    exact ⟨⟨hread, htiled⟩, hseen'⟩

/-- Lexemes are read before other lexemes that look the same. -/
theorem tiled_append {ls ms ms' : List Lexeme} (h : Tiled (ls ++ ms)) (hms : Tiled ms')
    (hseen : SeenAlike (ms.flatMap (·.text)) (ms'.flatMap (·.text))) :
    Tiled (ls ++ ms') ∧ SeenAlike ((ls ++ ms).flatMap (·.text)) ((ls ++ ms').flatMap (·.text)) := by
  induction ls with
  | nil => exact ⟨hms, hseen⟩
  | cons l ls ih =>
    obtain ⟨htiled, hseen'⟩ := ih h.2
    obtain ⟨hread, hsame⟩ := hseen'.reads h.1
    exact ⟨⟨hread, htiled⟩, .inl hsame⟩

end ThemeVars
