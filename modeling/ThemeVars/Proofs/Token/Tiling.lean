/-
Texts as sequences of lexemes. `Reads` is one step of the lexer, `Tiled` all
of them: lexemes are tiled exactly if they are what the lexer makes of their
text. `Reads.sign` and `Reads.lead` say how tokens are written.
-/
import ThemeVars.Proofs.Token.Reading

namespace ThemeVars

open Text

/-- Before the text `rest`, the text is read as this token. -/
def Reads (text rest : List Char) (t : Token) : Prop :=
  ∃ c cs, text = c :: cs ∧ tokenAt c (cs ++ rest) = (t, text.length)

/-- Each lexeme is what the lexer reads before the lexemes after it. -/
def Tiled : List Lexeme → Prop
  | [] => True
  | l :: ls => Reads l.text (ls.flatMap (·.text)) l.token ∧ Tiled ls

theorem Reads.ne_nil {text rest : List Char} {t : Token} (h : Reads text rest t) : text ≠ [] := by
  obtain ⟨c, cs, rfl, -⟩ := h
  exact List.cons_ne_nil _ _

theorem lexemesFrom_skip (start skip : Nat) (s : List Char) :
    lexemesFrom start skip s = lexemesFrom (start + skip) 0 (s.drop skip) := by
  induction skip generalizing start s with
  | zero => rfl
  | succ skip ih =>
    cases s with
    | nil => rfl
    | cons c cs =>
      rw [lexemesFrom, ih, List.drop_succ_cons]
      congr 1
      omega

/-- The first lexeme of a text, and the lexemes of what is left. -/
theorem lexemesFrom_cons (start : Nat) (c : Char) (cs : List Char) :
    lexemesFrom start 0 (c :: cs) =
      ⟨(tokenAt c cs).1, (c :: cs).take (tokenAt c cs).2, start⟩ ::
        lexemesFrom (start + (tokenAt c cs).2) 0 ((c :: cs).drop (tokenAt c cs).2) := by
  obtain ⟨n, hn⟩ : ∃ n, (tokenAt c cs).2 = n + 1 :=
    ⟨(tokenAt c cs).2 - 1, by have := (length_tokenAt c cs).1; omega⟩
  simp only [lexemesFrom, hn, Nat.add_sub_cancel, List.take_succ_cons, List.drop_succ_cons]
  rw [lexemesFrom_skip]
  congr 2
  omega

theorem lexemesFrom_reads {start : Nat} {text rest : List Char} {t : Token} (h : Reads text rest t) :
    lexemesFrom start 0 (text ++ rest) = ⟨t, text, start⟩ :: lexemesFrom (start + text.length) 0 rest := by
  obtain ⟨c, cs, rfl, h⟩ := h
  rw [List.cons_append, lexemesFrom_cons, h]
  simp

/-- What the lexer makes of a text is tiled. -/
theorem tiled_lexemesFrom (start : Nat) (s : List Char) : Tiled (lexemesFrom start 0 s) := by
  induction hn : s.length using Nat.strong_induction_on generalizing start s with
  | _ n ih =>
    cases s with
    | nil => trivial
    | cons c cs =>
      have hlen := length_tokenAt c cs
      have hdrop : ((c :: cs).drop (tokenAt c cs).2).length < n := by
        rw [List.length_drop, ← hn, List.length_cons]
        omega
      rw [lexemesFrom_cons]
      refine ⟨?_, ih _ hdrop _ _ rfl⟩
      obtain ⟨k, hk⟩ : ∃ k, (tokenAt c cs).2 = k + 1 := ⟨(tokenAt c cs).2 - 1, by omega⟩
      refine ⟨c, cs.take k, by simp [hk], ?_⟩
      rw [lexemesFrom_text]
      simp only [hk, List.drop_succ_cons, List.drop_zero, List.take_append_drop, List.length_take,
        List.length_cons]
      rw [Nat.min_eq_left (by omega), ← hk]

theorem tiled_lexemes (s : List Char) : Tiled (lexemes s) := tiled_lexemesFrom 0 s

/-- A lexeme without its place. -/
def Lexeme.unplaced (l : Lexeme) : Lexeme := { l with start := 0 }

/-- Lexemes that are tiled are what the lexer makes of their text, save for
their places. -/
theorem lexemesFrom_of_tiled {ls : List Lexeme} (h : Tiled ls) (start : Nat) :
    (lexemesFrom start 0 (ls.flatMap (·.text))).map Lexeme.unplaced = ls.map Lexeme.unplaced := by
  induction ls generalizing start with
  | nil => rfl
  | cons l ls ih =>
    rw [List.flatMap_cons, lexemesFrom_reads h.1, List.map_cons, List.map_cons, ih h.2]
    rfl

theorem Tiled.of_append {a b : List Lexeme} (h : Tiled (a ++ b)) : Tiled b := by
  induction a with
  | nil => exact h
  | cons l a ih => exact ih h.2

theorem Tiled.reads {ls : List Lexeme} (h : Tiled ls) {l : Lexeme} (hl : l ∈ ls) :
    ∃ rest, Reads l.text rest l.token := by
  induction ls with
  | nil => cases hl
  | cons m ls ih =>
    rcases List.mem_cons.1 hl with rfl | hl
    · exact ⟨_, h.1⟩
    · exact ih h.2 hl

/-! ## Kinds of token -/

/-- A token that a name, a number or a quote begins. -/
def Token.isWord : Token → Bool
  | .ident _ => true
  | .function _ => true
  | .url _ => true
  | .badUrl _ => true
  | .number _ => true
  | .percentage _ => true
  | .dimension _ _ => true
  | .string _ => true
  | .badString _ => true
  | _ => false

theorem isWord_urlStop (path tail stop : List Char) : (urlStop path tail stop).1.isWord = true := by
  cases stop with
  | nil => rfl
  | cons c cs =>
    simp only [urlStop]
    split <;> rfl

theorem isWord_urlAt {s : List Char} {t : Token} {n : Nat} (h : urlAt s = .some (t, n)) : t.isWord = true := by
  obtain ⟨lead, path, tail, stop, rfl, hparts⟩ := exists_urlParts s
  rw [urlAt_append hparts] at h
  split at h
  · cases h
  · simp only [Option.some.injEq, Prod.mk.injEq] at h
    rw [← h.1]
    exact isWord_urlStop path tail stop

theorem isWord_nameTokenAt (s : List Char) : (nameTokenAt s).1.isWord = true := by
  obtain ⟨name, rest, rfl, hname⟩ := exists_nameAt s
  by_cases hp : rest.head? = .some '('
  · obtain ⟨u, rfl⟩ := List.head?_eq_some_iff.1 hp
    rw [nameTokenAt_paren hname]
    split
    · split
      · rename_i hu
        exact isWord_urlAt hu
      · rfl
    · rfl
  · rw [nameTokenAt_ident hname hp]
    rfl

theorem isWord_numberAt (s : List Char) : (numberAt s).1.isWord = true := by
  simp only [numberAt]
  split
  · rfl
  · split <;> rfl

theorem isWord_stringAt (q : Char) (s : List Char) : (stringAt q s).1.isWord = true := by
  simp only [stringAt]
  split
  · rfl
  · split <;> rfl

/-! ## How tokens are written -/

/-- The text of a token that is written in one way only. -/
def Token.sign? : Token → Option (List Char)
  | .colon => .some [':']
  | .semicolon => .some [';']
  | .comma => .some [',']
  | .includeMatch => .some ['~', '=']
  | .dashMatch => .some ['|', '=']
  | .prefixMatch => .some ['^', '=']
  | .suffixMatch => .some ['$', '=']
  | .substringMatch => .some ['*', '=']
  | .commentOpen => .some ['<', '!', '-', '-']
  | .commentClose => .some ['-', '-', '>']
  | .opening .round => .some ['(']
  | .opening .square => .some ['[']
  | .opening .curly => .some ['\x7b']
  | .closing .round => .some [')']
  | .closing .square => .some [']']
  | .closing .curly => .some ['\x7d']
  | .delim c => .some [c]
  | _ => .none

theorem sign?_matcher {c : Char} {t : Token} (h : matcher? c = .some t) : t.sign? = .some [c, '='] := by
  unfold matcher? at h
  split_ifs at h with h1 h2 h3 h4 h5
  · rw [beq_iff_eq] at h1
    rw [← Option.some.inj h, h1]
    rfl
  · rw [beq_iff_eq] at h2
    rw [← Option.some.inj h, h2]
    rfl
  · rw [beq_iff_eq] at h3
    rw [← Option.some.inj h, h3]
    rfl
  · rw [beq_iff_eq] at h4
    rw [← Option.some.inj h, h4]
    rfl
  · rw [beq_iff_eq] at h5
    rw [← Option.some.inj h, h5]
    rfl

theorem sign?_signToken (c : Char) : (signToken c).sign? = .some [c] := by
  by_cases h : c = '(' ∨ c = '[' ∨ c = '\x7b' ∨ c = ')' ∨ c = ']' ∨ c = '\x7d' ∨ c = ':' ∨ c = ';' ∨ c = ','
  · rcases h with rfl | rfl | rfl | rfl | rfl | rfl | rfl | rfl | rfl <;> rfl
  · simp only [not_or] at h
    simp [signToken, h, Token.sign?]

theorem sign?_of_isWord {t : Token} (h : t.isWord = true) : t.sign? = .none := by
  cases t <;> first | rfl | cases h

/-- What the text of a token of this kind begins with. -/
def Token.lead : Token → List Char
  | .comment => ['/', '*']
  | .lineComment => ['/', '/']
  | .atKeyword _ => ['@']
  | .hash _ => ['#']
  | .idHash _ => ['#']
  | _ => []

theorem lead_of_isWord {t : Token} (h : t.isWord = true) : t.lead = [] := by
  cases t <;> first | rfl | cases h

theorem lead_of_sign? {t : Token} {sign : List Char} (h : t.sign? = .some sign) : t.lead = [] := by
  cases t <;> first | rfl | cases h

/-- What a token and its text can be, before a rest: space that goes no
further, a word, a name after its mark, a comment, or a token that is written
in one way only. -/
inductive Shape (rest : List Char) : Token → List Char → Prop
  | space {text} : text ≠ [] → (text ++ rest).takeWhile isSpace = text → Shape rest .space text
  | word {t c cs} : isSpace c = false → t.isWord = true → Shape rest t (c :: cs)
  | hash {t cs} : t.lead = ['#'] → t.sign? = .none → Shape rest t ('#' :: cs)
  | atKeyword {name cs} : Shape rest (.atKeyword name) ('@' :: cs)
  | comment {cs} : Shape rest .comment ('/' :: '*' :: cs)
  | sign {t c cs} : isSpace c = false → t.sign? = .some (c :: cs) → Shape rest t (c :: cs)

theorem isSpace_of_isDigit {c : Char} (h : c.isDigit = true) : isSpace c = false := by
  by_contra hs
  rw [Bool.not_eq_false, isSpace_iff] at hs
  rcases hs with rfl | rfl | rfl | rfl | rfl <;> cases h

theorem isSpace_of_isNameStart {c : Char} (h : isNameStart c = true) : isSpace c = false := by
  by_contra hs
  rw [Bool.not_eq_false, isSpace_iff] at hs
  rcases hs with rfl | rfl | rfl | rfl | rfl <;> cases h

theorem Reads.shape {text rest : List Char} {t : Token} (h : Reads text rest t) : Shape rest t text := by
  obtain ⟨c, cs, rfl, h⟩ := h
  have hlead := leads_tokenAt c
  have htake : c :: cs = (c :: (cs ++ rest)).take (c :: cs).length := by simp
  -- a token of one spelling, of which the text has as many characters
  have sign {u : Token} (sign : List Char) {more : List Char} (hc : isSpace c = false) (hu : u.sign? = .some sign)
      (hs : c :: (cs ++ rest) = sign ++ more) (hp : (u, sign.length) = (t, (c :: cs).length)) :
      Shape rest t (c :: cs) := by
    obtain ⟨rfl, hn⟩ := Prod.mk.inj hp
    rw [hs, ← hn, List.take_left] at htake
    exact .sign hc (htake ▸ hu)
  have word {p : Token × Nat} (hc : isSpace c = false) (hw : p.1.isWord = true) (hp : p = (t, (c :: cs).length)) :
      Shape rest t (c :: cs) := .word hc (by rwa [hp] at hw)
  generalize tokenAt c = f at *
  cases hlead with
  | space hc =>
    obtain ⟨rfl, hn⟩ := Prod.mk.inj h
    refine .space (List.cons_ne_nil _ _) ?_
    rw [List.cons_append, List.takeWhile_cons_of_pos hc, List.cons.injEq]
    refine ⟨rfl, ?_⟩
    obtain ⟨more, hm⟩ := List.takeWhile_prefix (l := cs ++ rest) isSpace
    rw [List.length_cons] at hn
    exact (List.append_inj hm (by omega)).1
  | quote hc => exact word (by rcases hc with rfl | rfl <;> rfl) (by exact isWord_stringAt c (cs ++ rest)) h
  | digit hc => exact word (isSpace_of_isDigit hc) (isWord_numberAt _) h
  | name hc => exact word (isSpace_of_isNameStart hc) (isWord_nameTokenAt _) h
  | plus =>
    beta_reduce at h
    split at h
    · exact word rfl (isWord_numberAt _) h
    · exact sign ['+'] rfl rfl rfl h
  | dot =>
    beta_reduce at h
    split at h
    · exact word rfl (isWord_numberAt _) h
    · exact sign ['.'] rfl rfl rfl h
  | hyphen =>
    beta_reduce at h
    split at h
    · exact word rfl (isWord_numberAt _) h
    · split at h
      · rename_i hcdc
        obtain ⟨more, hm⟩ := hcdc ▸ List.take_prefix 2 (cs ++ rest)
        exact sign ['-', '-', '>'] rfl rfl (congrArg ('-' :: ·) hm.symm) h
      · split at h
        · exact word rfl (isWord_nameTokenAt _) h
        · exact sign ['-'] rfl rfl rfl h
  | backslash =>
    beta_reduce at h
    split at h
    · exact word rfl (isWord_nameTokenAt _) h
    · exact sign ['\\'] rfl rfl rfl h
  | hashSign =>
    beta_reduce at h
    split at h
    · obtain ⟨rfl, -⟩ := Prod.mk.inj h
      exact .hash rfl rfl
    · split at h
      · obtain ⟨rfl, -⟩ := Prod.mk.inj h
        exact .hash rfl rfl
      · exact sign ['#'] rfl rfl rfl h
  | atSign =>
    beta_reduce at h
    split at h
    · obtain ⟨rfl, -⟩ := Prod.mk.inj h
      exact .atKeyword
    · exact sign ['@'] rfl rfl rfl h
  | slash =>
    beta_reduce at h
    split at h
    · rename_i hstar
      obtain ⟨rfl, hn⟩ := Prod.mk.inj h
      rw [List.length_cons] at hn
      cases cs with
      | nil =>
        simp only [List.length_nil] at hn
        omega
      | cons d cs =>
        rw [List.cons_append, List.head?_cons, Option.some.injEq] at hstar
        rw [hstar]
        exact .comment
    · exact sign ['/'] rfl rfl rfl h
  | less =>
    beta_reduce at h
    split at h
    · rename_i hcdo
      obtain ⟨more, hm⟩ := hcdo ▸ List.take_prefix 3 (cs ++ rest)
      exact sign ['<', '!', '-', '-'] rfl rfl (congrArg ('<' :: ·) hm.symm) h
    · exact sign ['<'] rfl rfl rfl h
  | sign hc =>
    have hs : isSpace c = false := by
      simp only [isSign, Bool.not_eq_eq_eq_not, Bool.not_true, Bool.or_eq_false_iff] at hc
      exact hc.1.1.1.1.1.1.1.1.1.1.1.1
    beta_reduce at h
    split at h
    · rename_i hu
      split at h
      · rename_i heq
        obtain ⟨more, hm⟩ := List.head?_eq_some_iff.1 heq
        exact sign [c, '='] hs (sign?_matcher hu) (congrArg (c :: ·) hm) h
      · exact sign [c] hs rfl rfl h
    · exact sign [c] hs (sign?_signToken c) rfl h

/-- The text is one that a token of this kind can have. -/
structure Spelled (t : Token) (text : List Char) : Prop where
  ne_nil : text ≠ []
  lead : t.lead <+: text
  sign : ∀ sign, t.sign? = .some sign → text = sign

theorem Reads.spelled {text rest : List Char} {t : Token} (h : Reads text rest t) : Spelled t text := by
  refine ⟨h.ne_nil, ?_, ?_⟩
  · cases h.shape with
    | space => exact List.nil_prefix
    | word _ hw => exact lead_of_isWord hw ▸ List.nil_prefix
    | hash hl _ => exact ⟨_, by rw [hl]; rfl⟩
    | atKeyword => exact ⟨_, rfl⟩
    | comment => exact ⟨_, rfl⟩
    | sign _ hs => exact lead_of_sign? hs ▸ List.nil_prefix
  · intro sign hsign
    cases h.shape with
    | space => cases hsign
    | word _ hw =>
      rw [sign?_of_isWord hw] at hsign
      cases hsign
    | hash _ hs =>
      rw [hs] at hsign
      cases hsign
    | atKeyword => cases hsign
    | comment => cases hsign
    | sign _ hs =>
      rw [hs] at hsign
      exact Option.some.inj hsign

/-- A token that is written in one way only is written so. -/
theorem Reads.sign {text rest : List Char} {t : Token} (h : Reads text rest t) {sign : List Char}
    (ht : t.sign? = .some sign) : text = sign := h.spelled.sign sign ht

/-- The text of a token begins as that of its kind does. -/
theorem Reads.lead {text rest : List Char} {t : Token} (h : Reads text rest t) : t.lead <+: text :=
  h.spelled.lead

end ThemeVars
