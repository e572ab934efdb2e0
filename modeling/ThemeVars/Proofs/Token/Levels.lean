/-
How the splitter sees tokens: it counts brackets and skips strings, and knows
of neither comments nor urls. `Reads.wordlike`: in all other tokens but strings
only escapes hide what nests or separates, and the splitter skips those.
-/
import ThemeVars.Proofs.Text.Split
import ThemeVars.Proofs.Token.Enclosed
import ThemeVars.Proofs.Token.Matching

namespace ThemeVars

open Text

/-! ## Words -/

/-- The character neither nests nor separates, and is no space. -/
def isInner (c : Char) : Bool := !(isNesting c || c == ',' || c == ' ')

/-- Nothing but such characters, and escapes. -/
def Wordlike : EscapeState → List Char → Prop
  | _, [] => True
  | st, c :: cs => (st.isFresh c = true → c = '\\' ∨ isInner c = true) ∧ Wordlike (st.next c) cs

variable {st : EscapeState} {a b x u : List Char} {c : Char}

theorem wordlike_append : Wordlike st (a ++ b) ↔ Wordlike st a ∧ Wordlike (st.after a) b := by
  induction a generalizing st with
  | nil => exact (true_and _).to_iff.symm
  | cons c a ih => exact (and_congr_right fun _ => ih).trans and_assoc.symm

theorem isInner_ne {d : Char} (h : isInner c = true) (hd : isInner d = false) : c ≠ d := by
  rintro rfl
  rw [h] at hd
  cases hd

theorem isNesting_of_isInner (h : isInner c = true) : isNesting c = false ∧ c ≠ ',' := by
  simp only [isInner, Bool.not_eq_true', Bool.or_eq_false_iff, beq_eq_false_iff_ne] at h
  exact h.1

/-- Such characters begin no escape. -/
theorem after_inner (h : ∀ c ∈ a, isInner c = true) : EscapeState.plain.after a = .plain := by
  induction a with
  | nil => rfl
  | cons c a ih =>
    obtain ⟨hc, ha⟩ := List.forall_mem_cons.1 h
    rw [EscapeState.after_cons, next_plain (isInner_ne hc rfl), ih ha]

theorem wordlike_inner (h : ∀ c ∈ a, isInner c = true) : Wordlike .plain a := by
  induction a with
  | nil => trivial
  | cons c a ih =>
    obtain ⟨hc, ha⟩ := List.forall_mem_cons.1 h
    refine ⟨fun _ => .inr hc, ?_⟩
    rw [next_plain (isInner_ne hc rfl)]
    exact ih ha

theorem wordlike_of_span {admits : Char → Bool} (hadmits : ∀ c, admits c = true → isInner c = true)
    (h : spanEscaped false admits st (x ++ u) = (x, u)) : Wordlike st x := by
  induction x generalizing st with
  | nil => trivial
  | cons c x ih =>
    obtain ⟨hends, hrest⟩ := spanEscaped_cons_inv h
    refine ⟨fun hfresh => ?_, ih hrest⟩
    by_cases hb : c = '\\'
    · exact .inl hb
    · exact .inr (hadmits c (by simpa [endsRun, hfresh, hb] using hends))

theorem isInner_of_isNameChar (h : isNameChar c = true) : isInner c = true := by
  obtain ⟨hnesting, hcomma⟩ : isNesting c = false ∧ c ≠ ',' := isNesting_of_kind h rfl
  have hspace : c ≠ ' ' := by
    rintro rfl
    cases h
  simp [isInner, hnesting, hcomma, hspace]

theorem wordlike_nameAt (h : nameAt (x ++ u) = x) : Wordlike .plain x :=
  wordlike_of_span (fun _ => isInner_of_isNameChar) (nameAt_append_iff.1 h)

theorem isInner_of_isDigit (h : c.isDigit = true) : isInner c = true :=
  isInner_of_isNameChar (by simp [isNameChar, h])

theorem inner_numeral {n : Numeral} (hn : n.Written) : ∀ c ∈ n.text, isInner c = true := by
  have hsign : ∀ sign : List Char, sign = [] ∨ sign = ['+'] ∨ sign = ['-'] → ∀ c ∈ sign, isInner c = true := by
    rintro sign (rfl | rfl | rfl) <;> exact List.all_eq_true.1 rfl
  have hdigits {ds : List Char} (h : ∀ c ∈ ds, c.isDigit = true) : ∀ c ∈ ds, isInner c = true :=
    fun c hc => isInner_of_isDigit (h c hc)
  rw [Numeral.text_eq]
  simp only [List.forall_mem_append]
  refine ⟨hsign _ hn.sign, hdigits hn.whole, ?_, ?_⟩
  · unfold Numeral.pointed
    split
    · exact fun c hc => (nomatch hc)
    · exact List.forall_mem_cons.2 ⟨rfl, hdigits hn.fraction⟩
  · rcases hn.exponent with he | ⟨e, sign, ds, he, hmark, hs, -, hds⟩
    · rw [he]
      exact fun c hc => (nomatch hc)
    · rw [he, List.forall_mem_cons, List.forall_mem_append]
      exact ⟨by rcases hmark with rfl | rfl <;> rfl, hsign sign hs, hdigits hds⟩

/-! ## Tokens -/

/-- A token that is written with nothing but inner characters and escapes. -/
def Token.isWordlike : Token → Bool
  | .ident _ => true
  | .atKeyword _ => true
  | .hash _ => true
  | .idHash _ => true
  | .number _ => true
  | .percentage _ => true
  | .dimension _ _ => true
  | .colon => true
  | .semicolon => true
  | .includeMatch => true
  | .dashMatch => true
  | .prefixMatch => true
  | .suffixMatch => true
  | .substringMatch => true
  | .commentOpen => true
  | .commentClose => true
  | .delim _ => true
  | _ => false

/-- A hash is written as its mark and a name. -/
theorem Reads.hashName {text rest : List Char} {t : Token} (h : Reads text rest t) (ht : t.lead = ['#']) :
    ∃ name, text = '#' :: name ∧ nameAt (name ++ rest) = name := by
  obtain ⟨name, rfl, htoken⟩ := h.marked ht
  refine ⟨name, rfl, ?_⟩
  rw [tokenAt_hashSign] at htoken
  split_ifs at htoken
  · exact nameAt_of_length (by have := (Prod.mk.inj htoken).2; omega)
  · exact nameAt_of_length (by have := (Prod.mk.inj htoken).2; omega)
  · obtain ⟨rfl, -⟩ := Prod.mk.inj htoken
    cases ht

/-- A number is written as the numeral, and a unit or a percent sign after it. -/
theorem wordlike_numberAt {text rest : List Char} {t : Token} (hs : Numeral.startsAt (text ++ rest) = true)
    (h : numberAt (text ++ rest) = (t, text.length)) : Wordlike .plain text := by
  obtain ⟨hn, more, htext, -⟩ := Numeral.read_spec hs
  generalize hread : Numeral.read (text ++ rest) = n at hn htext
  have hinner := inner_numeral hn
  have hlen : ∃ unit, text = n.text ++ unit ∧ Wordlike .plain unit := by
    rw [htext] at hread
    rw [htext, numberAt_append hread] at h
    have hfront (k : Nat) (hk : n.text.length + k = text.length) : text = n.text ++ more.take k := by
      have := congrArg (List.take text.length) htext
      rwa [List.take_left, ← hk, List.take_append, List.take_of_length_le (by omega), Nat.add_sub_cancel_left] at this
    split_ifs at h with hpercent hname
    · obtain ⟨u, rfl⟩ := List.head?_eq_some_iff.1 hpercent
      exact ⟨['%'], hfront 1 (Prod.mk.inj h).2, fun _ => .inr rfl, trivial⟩
    · have htake : more.take (nameAt more).length = nameAt more := (List.prefix_iff_eq_take.1 (nameAt_isPrefix more)).symm
      refine ⟨nameAt more, by rw [← htake]; exact hfront _ (Prod.mk.inj h).2, ?_⟩
      obtain ⟨name, rest', hmore, hname'⟩ := exists_nameAt more
      rw [hname']
      exact wordlike_nameAt (u := rest') (hmore ▸ hname')
    · exact ⟨[], hfront 0 (Prod.mk.inj h).2, trivial⟩
  obtain ⟨unit, rfl, hunit⟩ := hlen
  rw [wordlike_append, after_inner hinner]
  exact ⟨wordlike_inner hinner, hunit⟩

/-- What nests or separates is never a delimiter, save a backslash. -/
theorem Reads.delim {text rest : List Char} (h : Reads text rest (.delim c)) : c = '\\' ∨ isInner c = true := by
  have htext : text = [c] := h.sign rfl
  obtain ⟨d, cs, rfl, h⟩ := h
  cases htext
  have hlead := leads_tokenAt c
  have never {p : Token × Nat} (hp : p.1.isWord = true) (h : p = (.delim c, 1)) : False := by
    rw [h] at hp
    cases hp
  generalize tokenAt c = f at *
  cases hlead with
  | space => cases h
  | quote => exact (never (by exact isWord_stringAt c rest) h).elim
  | digit => exact (never (isWord_numberAt _) h).elim
  | name => exact (never (isWord_nameTokenAt _) h).elim
  | backslash => exact .inl rfl
  | sign hc =>
    right
    by_contra hinner
    have hother : c = '(' ∨ c = '[' ∨ c = '\x7b' ∨ c = ')' ∨ c = ']' ∨ c = '\x7d' ∨ c = ',' := by
      have hspace : c ≠ ' ' := by
        rintro rfl
        cases hc
      simp only [isSign, Bool.not_eq_true', Bool.or_eq_false_iff] at hc
      simp [isInner, isNesting, Text.isQuote, isOpening, isClosing, hc, hspace] at hinner
      grind
    rcases hother with rfl | rfl | rfl | rfl | rfl | rfl | rfl <;> cases h
  | _ => exact .inr rfl

/-- A token that a number begins. -/
def Token.isNumeric : Token → Bool
  | .number _ => true
  | .percentage _ => true
  | .dimension _ _ => true
  | _ => false

theorem Reads.numeric {text rest : List Char} {t : Token} (h : Reads text rest t) (ht : t.isNumeric = true) :
    Numeral.startsAt (text ++ rest) = true ∧ numberAt (text ++ rest) = (t, text.length) := by
  have hword : t.isWord = true := by
    cases t <;> first | rfl | cases ht
  rcases h.word_cases hword with ⟨q, cs, -, -, hstring⟩ | hnumber | ⟨-, hname⟩
  · obtain ⟨v, hv⟩ := stringAt_cases q (cs ++ rest)
    rw [hstring] at hv
    rcases hv with rfl | rfl <;> cases ht
  · exact hnumber
  · have hn : t.isName = false := by
      cases t <;> first | rfl | cases ht
    obtain ⟨-, v, rfl | rfl⟩ := url_of_nameTokenAt hname hn <;> cases ht

/-- In such a token only escapes hide what nests or separates. -/
theorem Reads.wordlike {text rest : List Char} {t : Token} (h : Reads text rest t) (ht : t.isWordlike = true) :
    Wordlike .plain text := by
  have number (hn : t.isNumeric = true) : Wordlike .plain text := by
    obtain ⟨hstarts, hnumber⟩ := h.numeric hn
    exact wordlike_numberAt hstarts hnumber
  -- a mark and a name after it
  have name (mark : Char) (hmark : isInner mark = true)
      (h : ∃ name, text = mark :: name ∧ nameAt (name ++ rest) = name) : Wordlike .plain text := by
    obtain ⟨name, rfl, hname⟩ := h
    refine ⟨fun _ => .inr hmark, ?_⟩
    rw [next_plain (isInner_ne hmark rfl)]
    exact wordlike_nameAt hname
  have sign {sign : List Char} (hs : t.sign? = .some sign) (hinner : sign.all isInner = true) : Wordlike .plain text :=
    h.sign hs ▸ wordlike_inner (List.all_eq_true.1 hinner)
  cases t with
  | ident => exact wordlike_nameAt h.ident.2.1
  | atKeyword =>
    obtain ⟨written, htext, hname, -⟩ := h.atKeyword
    exact name '@' rfl ⟨written, htext, hname⟩
  | hash => exact name '#' rfl (h.hashName rfl)
  | idHash => exact name '#' rfl (h.hashName rfl)
  | number => exact number rfl
  | percentage => exact number rfl
  | dimension => exact number rfl
  | delim c =>
    rw [h.sign rfl]
    exact ⟨fun _ => h.delim, trivial⟩
  | colon | semicolon | includeMatch | dashMatch | prefixMatch | suffixMatch | substringMatch | commentOpen | commentClose =>
    exact sign rfl (by decide)
  | _ => cases ht

/-! ## What the splitter makes of a token -/

/-- Quotes, and between them nothing that ends a string. -/
def isWholeString : List Char → Bool
  | [] => false
  | q :: body => Text.isQuote q && (spanEscaped true (isStringChar q) .plain body).2 == [q]

/-- The splitter takes the characters of such a token for code. -/
def Token.isBlind (t : Token) (text : List Char) : Bool :=
  match t with
  | .space => true
  | .comment => true
  | .lineComment => true
  | .url _ => true
  | .badUrl _ => true
  | .badString _ => true
  | .string _ => !isWholeString text
  | _ => false

/-- How many brackets are open after the token. -/
def Token.level (t : Token) (depth : Nat) : Nat :=
  match t with
  | .function _ => depth + 1
  | .opening _ => depth + 1
  | .closing _ => depth - 1
  | _ => depth

/-- The splitter goes up and down with the token and is not cut in it, unless
it takes it for code or the token is a comma. -/
def Levelled (t : Token) (text : List Char) : Prop :=
  t.isBlind text = false → t ≠ .comma → ∀ depth, ∃ escaped,
    (⟨depth, .none, false⟩ : Nesting).after text = ⟨t.level depth, .none, escaped⟩ ∧
      (⟨depth, .none, false⟩ : Nesting).Uncut ',' text

/-! ### Strings -/

theorem next_eq_slash : st.next c = .slash ↔ st.isFresh c = true ∧ c = '\\' := by
  cases st <;> simp only [EscapeState.next] <;> split_ifs <;> simp_all [EscapeState.isFresh]

theorem isFresh_of_ne (hs : st ≠ .slash) (hd : isHexDigit c = false) (hspace : isSpace c = false) :
    st.isFresh c = true := by
  cases st with
  | slash => exact absurd rfl hs
  | plain => rfl
  | hex => simp [EscapeState.isFresh, hd, hspace]
  | carriage =>
    have hnl : c ≠ '\n' := by
      rintro rfl
      cases hspace
    simpa [EscapeState.isFresh] using hnl

theorem uncut_quoted (depth : Nat) (q : Char) (escaped : Bool) (s : Char) (c : Char) :
    (⟨depth, .some q, escaped⟩ : Nesting).cutsAt s c = false := by
  simp [Nesting.cutsAt]

/-- In a string the splitter waits for the quote, as the lexer does. -/
theorem after_stringRun {q : Char} (depth : Nat) (hq : Text.isQuote q = true) {escaped : Bool}
    (he : escaped = true ↔ st = .slash) (h : spanEscaped true (isStringChar q) st (x ++ u) = (x, u)) :
    ∃ escaped', (⟨depth, .some q, escaped⟩ : Nesting).after x = ⟨depth, .some q, escaped'⟩ ∧
      (escaped' = true ↔ st.after x = .slash) ∧ (⟨depth, .some q, escaped⟩ : Nesting).Uncut ',' x := by
  have hquote : isHexDigit q = false ∧ isSpace q = false ∧ q ≠ '\\' := by
    have : q = '"' ∨ q = '\'' := by simpa [Text.isQuote] using hq
    rcases this with rfl | rfl <;> decide
  induction x generalizing st escaped with
  | nil => exact ⟨escaped, rfl, he, trivial⟩
  | cons c x ih =>
    obtain ⟨hends, hrest⟩ := spanEscaped_cons_inv h
    have hstep : ∃ escaped', (⟨depth, .some q, escaped⟩ : Nesting).step c = ⟨depth, .some q, escaped'⟩ ∧
        (escaped' = true ↔ st.next c = .slash) := by
      by_cases hs : st = .slash
      · subst hs
        rw [he.2 rfl]
        exact ⟨false, rfl, by simp [next_eq_slash, EscapeState.isFresh]⟩
      obtain rfl : escaped = false := by simpa using fun h => hs (he.1 h)
      by_cases hb : c = '\\'
      · subst hb
        exact ⟨true, rfl, by simp [next_eq_slash, isFresh_of_ne (c := '\\') hs rfl rfl]⟩
      · have hne : c ≠ q := by
          rintro rfl
          simp [endsRun, isFresh_of_ne hs hquote.1 hquote.2.1, hb, isStringChar] at hends
        refine ⟨false, ?_, by simp [next_eq_slash, hb]⟩
        simp [Nesting.step, hb, Ne.symm hne]
    obtain ⟨escaped', hstep, hnext⟩ := hstep
    obtain ⟨last, hafter, hlast, huncut⟩ := ih hnext hrest
    exact ⟨last, by rw [Nesting.after_cons, hstep, hafter], hlast, uncut_quoted _ _ _ _ _, hstep ▸ huncut⟩

/-- The splitter passes over a whole string. -/
theorem after_wholeString (h : isWholeString x = true) (depth : Nat) :
    (⟨depth, .none, false⟩ : Nesting).after x = ⟨depth, .none, false⟩ ∧ (⟨depth, .none, false⟩ : Nesting).Uncut ',' x := by
  cases x with
  | nil => cases h
  | cons q body =>
    obtain ⟨hq, hend⟩ := Bool.and_eq_true_iff.1 h
    rw [beq_iff_eq] at hend
    have hbody := spanEscaped_append true (isStringChar q) .plain body
    generalize hrun : (spanEscaped true (isStringChar q) .plain body).1 = run at hbody
    rw [hend] at hbody
    subst hbody
    have hspan : spanEscaped true (isStringChar q) .plain (run ++ [q]) = (run, [q]) := Prod.ext hrun hend
    obtain ⟨escaped, hafter, hescaped, huncut⟩ := 
      after_stringRun depth hq (by decide : false = true ↔ EscapeState.plain = .slash) hspan
    have hplain : escaped = false := by
      have hends := runEnds_of_spanEscaped hspan q [] rfl
      cases escaped with
      | false => rfl
      | true =>
        rw [hescaped.1 rfl] at hends
        cases hends
    subst hplain
    have hquote : (⟨depth, .none, false⟩ : Nesting).step q = ⟨depth, .some q, false⟩ ∧
        (⟨depth, .some q, false⟩ : Nesting).step q = ⟨depth, .none, false⟩ ∧ q ≠ ',' := by
      have : q = '"' ∨ q = '\'' := by simpa [Text.isQuote] using hq
      rcases this with rfl | rfl <;> exact ⟨rfl, rfl, by decide⟩
    obtain ⟨hopens, hcloses, hcomma⟩ := hquote
    constructor
    · rw [Nesting.after_cons, hopens, Nesting.after_append, hafter]
      exact hcloses
    · refine ⟨Nesting.cutsAt_of_ne _ hcomma, ?_⟩
      rw [hopens, Nesting.uncut_append, hafter]
      exact ⟨huncut, uncut_quoted _ _ _ _ _, trivial⟩

/-! ## Sequences of tokens -/

/-- The text of the pieces between the commas outside blocks. -/
def Pieces.commaParts : Pieces → List (List Char)
  | .done => [[]]
  | .leaf l rest => if l.token == .comma then [] :: rest.commaParts else rest.commaParts.modifyHead (l.text ++ ·)
  | .block opener _ inner closer rest => rest.commaParts.modifyHead (blockText opener inner closer ++ ·)

/-- Every block is closed, and nothing else closes anything. -/
def Pieces.Balanced : Pieces → Prop
  | .done => True
  | .leaf l rest => (∀ bracket, l.token ≠ .closing bracket) ∧ rest.Balanced
  | .block _ _ inner closer rest => inner.Balanced ∧ closer.isSome = true ∧ rest.Balanced

instance decidableBalanced : ∀ p : Pieces, Decidable p.Balanced
  | .done => inferInstanceAs (Decidable True)
  | .leaf l rest =>
    have := decidableBalanced rest
    have : Decidable (∀ bracket, l.token ≠ .closing bracket) :=
      decidable_of_iff (∀ bracket ∈ [Bracket.round, .square, .curly], l.token ≠ .closing bracket)
        ⟨fun h bracket => h bracket (by cases bracket <;> simp), fun h bracket _ => h bracket⟩
    inferInstanceAs (Decidable (_ ∧ _))
  | .block _ _ inner _ rest =>
    have := decidableBalanced inner
    have := decidableBalanced rest
    inferInstanceAs (Decidable (_ ∧ _ ∧ _))

/-- Entered in the state `n`, no lexeme that the splitter takes for code moves
it to another level, opens a string or is cut by it. -/
def Clear : Nesting → List Lexeme → Prop
  | _, [] => True
  | n, l :: ls =>
    (if l.token.isBlind l.text then
        (n.after l.text).depth = n.depth ∧ (n.after l.text).quote = .none ∧ n.Uncut ',' l.text
      else n.escaped = false) ∧
      Clear (n.after l.text) ls

instance decidableClear : ∀ (n : Nesting) (ls : List Lexeme), Decidable (Clear n ls)
  | _, [] => inferInstanceAs (Decidable True)
  | n, l :: ls =>
    have := decidableClear (n.after l.text) ls
    inferInstanceAs (Decidable (@ite _ _ _ (_ ∧ _ ∧ _) _ ∧ _))

theorem clear_append {n : Nesting} {ls ms : List Lexeme} :
    Clear n (ls ++ ms) ↔ Clear n ls ∧ Clear (n.after (ls.flatMap (·.text))) ms := by
  induction ls generalizing n with
  | nil => exact (true_and _).to_iff.symm
  | cons l ls ih =>
    rw [List.flatMap_cons, Nesting.after_append]
    exact (and_congr_right fun _ => ih).trans and_assoc.symm

theorem level_of_isBlind {t : Token} {text : List Char} (h : t.isBlind text = true) (depth : Nat) :
    t.level depth = depth := by
  cases t <;> first | rfl | cases h

theorem level_of_leaf {t : Token} (ho : t.opens? = .none) (hc : ∀ bracket, t ≠ .closing bracket) (depth : Nat) :
    t.level depth = depth := by
  cases t with
  | function => cases ho
  | opening => cases ho
  | closing bracket => exact absurd rfl (hc bracket)
  | _ => rfl

theorem level_of_opens {t : Token} {bracket : Bracket} (h : t.opens? = .some bracket) (depth : Nat) :
    t.level depth = depth + 1 ∧ t ≠ .comma := by
  cases t with
  | function => exact ⟨rfl, fun h => nomatch h⟩
  | opening => exact ⟨rfl, fun h => nomatch h⟩
  | _ => cases h

/-- The splitter goes up and down with each lexeme but a comma, blind or not. -/
theorem after_lexeme {n : Nesting} {l : Lexeme} {ls : List Lexeme} (hn : n.quote = .none) (hcomma : l.token ≠ .comma)
    (hl : Levelled l.token l.text) (hc : Clear n (l :: ls)) :
    (n.after l.text).depth = l.token.level n.depth ∧ (n.after l.text).quote = .none ∧ n.Uncut ',' l.text := by
  obtain ⟨hhere, -⟩ := hc
  rcases hblind : l.token.isBlind l.text with _ | _
  · rw [hblind] at hhere
    obtain ⟨depth, quote, escaped⟩ := n
    obtain rfl : quote = .none := hn
    obtain rfl : escaped = false := hhere
    obtain ⟨escaped, hafter, huncut⟩ := hl hblind hcomma depth
    rw [hafter]
    exact ⟨rfl, rfl, huncut⟩
  · rw [hblind, if_pos rfl] at hhere
    rw [level_of_isBlind hblind]
    exact hhere

/-- The splitter cuts pieces at the commas outside of blocks, and not at all
where a bracket is open before them. -/
theorem splitFrom_pieces {p : Pieces} (hm : p.Matched) (hb : p.Balanced)
    (hl : ∀ l ∈ p.lexemes, Spelled l.token l.text ∧ Levelled l.token l.text) {n : Nesting} (hn : n.quote = .none)
    (hc : Clear n p.lexemes) :
    (n.after p.text).depth = n.depth ∧ (n.after p.text).quote = .none ∧
      (0 < n.depth → n.Uncut ',' p.text) ∧ (n.depth = 0 → splitFrom ',' n p.text = p.commaParts) := by
  induction p generalizing n with
  | done => exact ⟨rfl, hn, fun _ => trivial, fun _ => rfl⟩
  | leaf l rest ih =>
    obtain ⟨hspelled, hlevel⟩ := hl l (by simp [Pieces.lexemes])
    have hrest := ih hm.2 hb.2 (fun m hmem => hl m (by simp [Pieces.lexemes, hmem])) (n := n.after l.text)
    rw [Pieces.text_leaf, Nesting.after_append, Nesting.uncut_append]
    by_cases hcomma : l.token = .comma
    · obtain ⟨depth, quote, escaped⟩ := n
      obtain rfl : quote = .none := hn
      have hblind : l.token.isBlind l.text = false := by rw [hcomma]; rfl
      have hescaped := hc.1
      rw [hblind] at hescaped
      obtain rfl : escaped = false := hescaped
      have htext : l.text = [','] := hspelled.sign _ (by rw [hcomma]; rfl)
      have hsame : (⟨depth, .none, false⟩ : Nesting).after l.text = ⟨depth, .none, false⟩ := by rw [htext]; rfl
      rw [hsame] at hrest ⊢
      obtain ⟨hdepth, hquote, huncut, hsplit⟩ := hrest rfl (hsame ▸ hc.2)
      refine ⟨hdepth, hquote, fun hpos => ⟨?_, huncut hpos⟩, fun hzero => ?_⟩
      · rw [htext]
        refine ⟨?_, trivial⟩
        have hne : depth ≠ 0 := Nat.pos_iff_ne_zero.1 hpos
        simp [Nesting.cutsAt, hne]
      · obtain rfl : depth = 0 := hzero
        rw [htext, Pieces.commaParts, hcomma, ← hsplit rfl]
        rfl
    · obtain ⟨hdepth, hquote, huncut⟩ := after_lexeme hn hcomma hlevel hc
      rw [level_of_leaf hm.1 hb.1] at hdepth
      obtain ⟨hdepth', hquote', huncut', hsplit⟩ := hrest hquote hc.2
      rw [hdepth] at hdepth' huncut' hsplit
      refine ⟨hdepth', hquote', fun hpos => ⟨huncut, huncut' hpos⟩, fun hzero => ?_⟩
      rw [splitFrom_append huncut, hsplit hzero, Pieces.commaParts]
      simp [hcomma]
  | block opener bracket inner closer rest ihi ih =>
    obtain ⟨hopens, -, hinner, hcloses, -, hrest⟩ := hm
    obtain ⟨hbinner, hsome, hbrest⟩ := hb
    obtain ⟨closer, rfl⟩ := Option.isSome_iff_exists.1 hsome
    simp only [Pieces.lexemes, Option.toList_some, List.forall_mem_append, List.forall_mem_cons] at hl
    obtain ⟨⟨⟨hlopener, hlinner⟩, hlcloser, -⟩, hlrest⟩ := hl
    have hc' : Clear n (opener :: (inner.lexemes ++ closer :: rest.lexemes)) := by simpa [Pieces.lexemes] using hc
    -- one bracket more is open in the block
    obtain ⟨hdepth, hquote, huncut⟩ := after_lexeme hn (level_of_opens hopens 0).2 hlopener.2 hc'
    rw [(level_of_opens hopens _).1] at hdepth
    obtain ⟨hcinner, hctail⟩ := clear_append.1 hc'.2
    obtain ⟨hdepth₁, hquote₁, huncut₁, -⟩ := ihi hinner hbinner hlinner hquote hcinner
    have hinside := huncut₁ (by omega)
    -- and as many as before are open after it
    obtain ⟨hcloser, -⟩ := hcloses closer rfl
    obtain ⟨hdepth₂, hquote₂, huncut₂⟩ := after_lexeme hquote₁ (by simp [hcloser]) hlcloser.2 hctail
    rw [hcloser, Token.level, hdepth₁, hdepth, Nat.add_sub_cancel] at hdepth₂
    have hblock : n.Uncut ',' (Pieces.blockText opener inner (.some closer)) := by
      simp only [Pieces.blockText, Option.toList_some, List.flatMap_singleton, Nesting.uncut_append, Nesting.after_append]
      exact ⟨⟨huncut, hinside⟩, huncut₂⟩
    have hafter : n.after (Pieces.blockText opener inner (.some closer)) =
        ((n.after opener.text).after inner.text).after closer.text := by
      simp only [Pieces.blockText, Option.toList_some, List.flatMap_singleton, Nesting.after_append]
    obtain ⟨hdepth', hquote', huncut', hsplit⟩ := ih hrest hbrest hlrest hquote₂ hctail.2
    rw [Pieces.text_block, Nesting.after_append, Nesting.uncut_append, hafter]
    rw [hdepth₂] at hdepth' huncut' hsplit
    refine ⟨hdepth', hquote', fun hpos => ⟨hblock, huncut' hpos⟩, fun hzero => ?_⟩
    rw [splitFrom_append hblock, hafter, hsplit hzero, Pieces.commaParts]

end ThemeVars
