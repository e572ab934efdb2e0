/-
The branches of a rule. `branches_of_parse`: a list of selectors is cut at the
commas that are tokens outside of blocks, where no comment, url or broken
string hides what nests or separates; `branches_hidden` is one where an
apostrophe in a comment does.
-/
import ThemeVars.Proofs.Sheet.Printing
import ThemeVars.Proofs.Token.Levels
import ThemeVars.Scope.Annotation

namespace ThemeVars

open Text

namespace Masking

/-! ## Code and comments -/

/-- Code comes before no comment's rest, only before its start. -/
def Joined : List Cell → Prop := List.IsChain fun a b => a.mark = .code → b.mark ≠ .commentRest

theorem joined_append {a b : List Cell} (ha : Joined a) (hb : Joined b)
    (h : ∀ cell ∈ b.head?, cell.mark ≠ .commentRest) : Joined (a ++ b) :=
  List.isChain_append.2 ⟨ha, hb, fun _ _ y hy _ => h y hy⟩

theorem joined_map_codeCell (s : List Char) : Joined (s.map codeCell) := by
  induction s with
  | nil => exact .nil
  | cons c s ih =>
    refine joined_append (a := [codeCell c]) (.singleton _) ih ?_
    cases s with
    | nil => exact fun _ h => nomatch h
    | cons d s => rintro _ ⟨⟩ ⟨⟩

theorem mark_of_mem_commentCell {mark : Mark} (hmark : mark ≠ .code) {c : Char} :
    ∀ cell ∈ commentCell mark c, cell.mark ≠ .code := by
  intro cell h
  simp only [commentCell, List.mem_cons, List.mem_replicate] at h
  rcases h with rfl | ⟨-, rfl⟩
  · exact hmark
  · decide

theorem joined_of_comment {cells : List Cell} (h : ∀ cell ∈ cells, cell.mark ≠ .code) : Joined cells := by
  induction cells with
  | nil => exact .nil
  | cons cell cells ih =>
    obtain ⟨hcell, hcells⟩ := List.forall_mem_cons.1 h
    exact List.isChain_cons.2 ⟨fun _ _ hcode => absurd hcode hcell, ih hcells⟩

theorem joined_commentCells (c : Char) (rest : List Char) : Joined (commentCells c rest) := by
  refine joined_of_comment fun cell h => ?_
  rcases List.mem_append.1 h with h | h
  · exact mark_of_mem_commentCell (by decide) cell h
  · obtain ⟨d, -, hd⟩ := List.mem_flatMap.1 h
    exact mark_of_mem_commentCell (by decide) cell hd

/-- A masked text begins with code or with the start of a comment. -/
theorem head_maskFrom (s : List Char) : ∀ cell ∈ (maskFrom s).head?, cell.mark ≠ .commentRest := by
  have hcode (s : List Char) : ∀ cell ∈ (s.map codeCell).head?, cell.mark ≠ .commentRest := by
    cases s with
    | nil => exact fun _ h => nomatch h
    | cons c s => rintro _ ⟨⟩ ⟨⟩
  fun_induction maskFrom s with
  | case1 => exact hcode _
  | case2 => exact hcode _
  | case3 s start _ c cs h rest ih =>
    cases htake : s.take start with
    | nil => rintro _ ⟨⟩ ⟨⟩
    | cons d ds => rintro _ ⟨⟩ ⟨⟩

theorem joined_mask (dialect : Dialect) (s : List Char) : Joined (mask dialect s) := by
  unfold mask
  split
  · exact joined_map_codeCell s
  · fun_induction maskFrom s with
    | case1 => exact joined_map_codeCell _
    | case2 => exact joined_map_codeCell _
    | case3 s start _ c cs h rest ih =>
      refine joined_append (joined_append (joined_map_codeCell _) (joined_commentCells _ _) ?_) ih (head_maskFrom _)
      rintro _ ⟨⟩ ⟨⟩

/-! ## What the splitter makes of the tokens of a sheet -/

/-- A character that escapes may take, or one that neither nests nor separates. -/
theorem step_word (depth : Nat) {escaped : Bool} {c : Char}
    (h : escaped = true ∨ c = '\\' ∨ isNesting c = false ∧ c ≠ ',') :
    (⟨depth, .none, escaped⟩ : Nesting).step c = ⟨depth, .none, !escaped && c == '\\'⟩ ∧
      (⟨depth, .none, escaped⟩ : Nesting).cutsAt ',' c = false := by
  cases escaped with
  | true => exact ⟨rfl, by simp [Nesting.cutsAt]⟩
  | false =>
    rcases h with h | rfl | ⟨hnesting, hcomma⟩
    · cases h
    · exact ⟨rfl, rfl⟩
    · have hb : (c == '\\') = false := by
        rw [beq_eq_false_iff_ne]
        rintro rfl
        cases hnesting
      rw [Nesting.step_of_not_nesting rfl hnesting, hb]
      exact ⟨rfl, Nesting.cutsAt_of_ne _ hcomma⟩

/-- What an escape takes after its backslash and digits neither nests nor
separates. -/
theorem isNesting_of_not_isFresh {st : EscapeState} {c : Char} (hs : st ≠ .slash) (h : st.isFresh c = false) :
    isNesting c = false ∧ c ≠ ',' := by
  cases hd : isHexDigit c with
  | true => exact isNesting_of_kind hd rfl
  | false =>
    cases hspace : isSpace c with
    | true => exact isNesting_of_kind hspace rfl
    | false =>
      rw [isFresh_of_ne hs hd hspace] at h
      cases h

/-- One character stands for a cell that shows a part of a word, and the
splitter knows as well as the lexer whether it is escaped. -/
theorem source_of_word {st : EscapeState} {cell : Cell} {rest : List Cell} {escaped : Bool} (hm : CellMarked cell rest)
    (hfront : st.isFresh ' ' = false → cell.mark ≠ .commentRest) (he : escaped = true ↔ st = .slash)
    (hchar : st.isFresh cell.shown = true → cell.shown = '\\' ∨ isInner cell.shown = true) :
    ∃ c, cell.source = [c] ∧ (escaped = true ∨ c = '\\' ∨ isNesting c = false ∧ c ≠ ',') ∧
      ((!escaped && c == '\\') = true ↔ st.next cell.shown = .slash) ∧
      ((st.next cell.shown).isFresh ' ' = false → cell.mark = .code) := by
  have hspace (hshown : cell.shown = ' ') : st.isFresh ' ' = false := by
    rw [hshown] at hchar
    by_contra hfresh
    rcases hchar (by simpa using hfresh) with h | h <;> cases h
  unfold CellMarked at hm
  cases hmark : cell.mark with
  | code =>
    rw [hmark] at hm
    refine ⟨cell.shown, hm, ?_, ?_, fun _ => rfl⟩
    · by_cases hs : st = .slash
      · exact .inl (he.2 hs)
      · cases hfresh : st.isFresh cell.shown with
        | false => exact .inr (.inr (isNesting_of_not_isFresh hs hfresh))
        | true => exact .inr ((hchar hfresh).imp_right isNesting_of_isInner)
    · by_cases hs : st = .slash
      · rw [he.2 hs, hs, next_eq_slash]
        simp [EscapeState.isFresh]
      · have hescaped : escaped = false := by simpa using fun h => hs (he.1 h)
        rw [hescaped, next_eq_slash, Bool.not_false, Bool.true_and, beq_iff_eq]
        refine (and_iff_right_of_imp fun hb => ?_).symm
        rw [hb]
        exact isFresh_of_ne hs rfl rfl
  | commentStart =>
    rw [hmark] at hm
    obtain ⟨hshown, hsource, -⟩ := hm
    refine ⟨'/', hsource, .inr (.inr ⟨rfl, by decide⟩), ?_, fun h => ?_⟩
    · rw [hshown, next_eq_slash]
      simp
    · have hplain := hspace hshown
      rw [hshown] at h
      cases st with
      | hex digits value => simp [EscapeState.next, EscapeState.isFresh, isSpace, isHexDigit] at h
      | _ => cases h
  | commentRest =>
    rw [hmark] at hm
    exact absurd hmark (hfront (hspace hm))

/-- The splitter stays on its level in what shows as a word. A comment may begin
in the last escape of one, in the place of the space after its digits. -/
theorem after_source {st : EscapeState} {own more : List Cell} {escaped : Bool} (hm : Marked (own ++ more))
    (hj : Joined (own ++ more))
    (hfront : st.isFresh ' ' = false → ∀ cell ∈ (own ++ more).head?, cell.mark ≠ .commentRest)
    (he : escaped = true ↔ st = .slash) (hw : Wordlike st (shown own)) (depth : Nat) :
    ∃ escaped', (⟨depth, .none, escaped⟩ : Nesting).after (source own) = ⟨depth, .none, escaped'⟩ ∧
      (escaped' = true ↔ st.after (shown own) = .slash) ∧ (⟨depth, .none, escaped⟩ : Nesting).Uncut ',' (source own) := by
  induction own generalizing st escaped with
  | nil => exact ⟨escaped, rfl, he, trivial⟩
  | cons cell own ih =>
    obtain ⟨hnext, hj⟩ := List.isChain_cons.1 hj
    obtain ⟨c, hsource, hword, hescaped, hcode⟩ := source_of_word hm.1 (fun h => hfront h cell rfl) he hw.1
    obtain ⟨hstep, hcut⟩ := step_word depth hword
    have hfront' : (st.next cell.shown).isFresh ' ' = false → ∀ cell ∈ (own ++ more).head?, cell.mark ≠ .commentRest :=
      fun hfresh next hmem => hnext next hmem (hcode hfresh)
    obtain ⟨escaped', hafter, hlast, huncut⟩ := ih hm.2 hj hfront' hescaped hw.2
    rw [source_cons, hsource]
    exact ⟨escaped', by rw [List.singleton_append, Nesting.after_cons, hstep, hafter], hlast, hcut, hstep ▸ huncut⟩

theorem after_word {own more : List Cell} (hm : Marked (own ++ more)) (hj : Joined (own ++ more))
    (hw : Wordlike .plain (shown own)) (depth : Nat) :
    ∃ escaped, (⟨depth, .none, false⟩ : Nesting).after (source own) = ⟨depth, .none, escaped⟩ ∧
      (escaped = true ↔ EscapeState.plain.after (shown own) = .slash) ∧
      (⟨depth, .none, false⟩ : Nesting).Uncut ',' (source own) :=
  after_source hm hj (by exact fun h => nomatch h) (by decide) hw depth

/-- The splitter goes up at a function's parenthesis, which no escape takes. -/
theorem after_function {own more : List Cell} {rest : List Char} {name : String} (hm : Marked (own ++ more))
    (hj : Joined (own ++ more)) (hread : Reads (shown own) rest (.function name)) (depth : Nat) :
    (⟨depth, .none, false⟩ : Nesting).after (source own) = ⟨depth + 1, .none, false⟩ ∧
      (⟨depth, .none, false⟩ : Nesting).Uncut ',' (source own) := by
  obtain ⟨written, hshown, -, hname⟩ := hread.function
  obtain ⟨front, last, rfl, rfl, hlast⟩ := List.map_eq_append_iff.1 hshown
  obtain ⟨cell, rfl, hcell⟩ := List.map_eq_singleton_iff.1 hlast
  rw [List.append_assoc] at hm hj
  have hparen : source [cell] = ['('] := by
    have hne : ∀ c ∈ [cell], c.shown ≠ ' ' := by simp [hcell]
    rw [source_eq_shown hm.of_append hne]
    exact hlast
  obtain ⟨escaped, hafter, hescaped, huncut⟩ := after_word hm hj (wordlike_nameAt hname) depth
  have hends := nameEnds_of_nameAt hname '(' rest rfl
  have hplain : escaped = false := by
    cases escaped with
    | false => rfl
    | true =>
      have hslash : EscapeState.plain.after (front.map (·.shown)) = .slash := hescaped.1 rfl
      rw [hslash] at hends
      cases hends
  subst hplain
  rw [source_append, hparen, Nesting.after_append, Nesting.uncut_append, hafter]
  exact ⟨rfl, huncut, Nesting.cutsAt_of_ne _ (by decide), trivial⟩

/-- The splitter follows each token of a sheet that is neither blind nor a
comma: words as they show, all others as they are spelled. -/
theorem levelled_source {t : Token} {own more : List Cell} {rest : List Char} (hm : Marked (own ++ more))
    (hj : Joined (own ++ more)) (hread : Reads (shown own) rest t) (ht : t ≠ .space) : Levelled t (source own) := by
  intro hblind hcomma depth
  have wordlike (ht : t.isWordlike = true) (hlevel : t.level depth = depth) :
      ∃ escaped, (⟨depth, .none, false⟩ : Nesting).after (source own) = ⟨t.level depth, .none, escaped⟩ ∧
        (⟨depth, .none, false⟩ : Nesting).Uncut ',' (source own) := by
    obtain ⟨escaped, hafter, -, huncut⟩ := after_word hm hj (hread.wordlike ht) depth
    exact ⟨escaped, by rw [hlevel, hafter], huncut⟩
  have hspelled := spelled_of_reads hm hread ht
  cases t with
  | function name => exact ⟨false, after_function hm hj hread depth⟩
  | opening bracket =>
    cases bracket <;> rw [hspelled.sign _ rfl] <;> exact ⟨false, rfl, Nesting.uncut_of_not_mem _ (by decide)⟩
  | closing bracket =>
    cases bracket <;> rw [hspelled.sign _ rfl] <;> exact ⟨false, rfl, Nesting.uncut_of_not_mem _ (by decide)⟩
  | string value =>
    have hwhole : isWholeString (source own) = true := by simpa [Token.isBlind] using hblind
    exact ⟨false, after_wholeString hwhole depth⟩
  | comma => exact absurd rfl hcomma
  | space | comment | lineComment | url | badUrl | badString => cases hblind
  | _ => exact wordlike rfl rfl

theorem isBlind_runs (kind : Token) (cells : List Cell) : ∀ p ∈ (runs kind cells).2, p.1.isBlind p.2 = true := by
  induction cells generalizing kind with
  | nil => exact fun _ h => nomatch h
  | cons cell cells ih =>
    simp only [runs]
    split
    · exact List.forall_mem_cons.2 ⟨rfl, ih _⟩
    · exact ih _
    · split
      · exact ih _
      · exact List.forall_mem_cons.2 ⟨rfl, ih _⟩

theorem isBlind_spaceTokens (cells : List Cell) : ∀ p ∈ spaceTokens cells, p.1.isBlind p.2 = true := by
  simp only [spaceTokens]
  split
  · exact isBlind_runs _ _
  · exact List.forall_mem_cons.2 ⟨rfl, isBlind_runs _ _⟩

/-- The splitter follows the tokens of a sheet. -/
theorem levelled_sheetLexemes {dialect : Dialect} {s : List Char} :
    ∀ l ∈ sheetLexemes dialect s, Levelled l.token l.text := by
  intro l hl
  have hmarked := marked_mask dialect s
  rcases mem_sourceTokens hmarked (tiled_lexemes _) (lexemes_text _) (mem_place hl) with
    ⟨own, -, hp⟩ | ⟨own, more, rest, hsuffix, hread, hspace, htext⟩
  · intro hblind
    rw [isBlind_spaceTokens own _ hp] at hblind
    cases hblind
  · have htext : l.text = source own := htext
    rw [htext]
    exact levelled_source (hmarked.of_suffix hsuffix) ((joined_mask dialect s).suffix hsuffix) hread hspace

end Masking

/-! ## The rules of a sheet -/

namespace Node

mutual

/-- The selectors of the rules in the node, at any depth. -/
def selectors : Node → List String
  | .rule selector children _ => selector :: selectorsAll children
  | .group _ _ children _ _ => selectorsAll children
  | _ => []

def selectorsAll : List Node → List String
  | [] => []
  | node :: rest => node.selectors ++ selectorsAll rest

end

theorem selectorsAll_append (a b : List Node) : selectorsAll (a ++ b) = selectorsAll a ++ selectorsAll b := by
  induction a with
  | nil => rfl
  | cons node a ih => rw [List.cons_append, selectorsAll, ih, selectorsAll, List.append_assoc]

end Node

namespace Sheet

variable {dialect : Dialect} {ls tail : List Lexeme} {head gap : List Char}

/-- Among the lexemes stand some that are written `head`, then space and line
comments that are written `gap`, and then the tail. -/
def Stands (ls : List Lexeme) (head gap : List Char) (tail : List Lexeme) : Prop :=
  ∃ run space : List Lexeme, run ++ space ++ tail <:+: ls ∧
    (∀ l ∈ space, l.token = .space ∨ l.token = .lineComment) ∧ run.flatMap (·.text) = head ∧
      space.flatMap (·.text) = gap

theorem Stands.infix_tail (h : Stands ls head gap tail) : tail <:+: ls := by
  obtain ⟨run, space, hinfix, -⟩ := h
  exact (List.suffix_append _ _).isInfix.trans hinfix

theorem Stands.nil (h : tail <:+: ls) : Stands ls [] [] tail := 
  ⟨[], [], h, fun _ h => (nomatch h), rfl, rfl⟩

theorem Stands.addSpace {l : Lexeme} (h : Stands ls head gap (l :: tail))
    (hl : l.token = .space ∨ l.token = .lineComment) : Stands ls head (gap ++ l.text) tail := by
  obtain ⟨run, space, hinfix, hspace, rfl, rfl⟩ := h
  refine ⟨run, space ++ [l], by simpa using hinfix, ?_, rfl, by simp⟩
  exact List.forall_mem_append.2 ⟨hspace, List.forall_mem_singleton.2 hl⟩

theorem Stands.addWord {word : List Lexeme} (h : Stands ls head gap (word ++ tail)) :
    Stands ls (head ++ gap ++ word.flatMap (·.text)) [] tail := by
  obtain ⟨run, space, hinfix, -, rfl, rfl⟩ := h
  exact ⟨run ++ space ++ word, [], by simpa using hinfix, fun _ h => (nomatch h), by simp, rfl⟩

/-- What the draft would make the selector of a rule stands before the tail. -/
def Draft.Stands (ls : List Lexeme) (d : Draft) (tail : List Lexeme) : Prop :=
  match d with
  | .plain head gap => Sheet.Stands ls head gap tail
  | .valued property link value gap => Sheet.Stands ls (property ++ link ++ value) gap tail
  | .atRule _ _ _ _ => tail <:+: ls

def Pending.Stands (ls : List Lexeme) (pending : Pending) (tail : List Lexeme) : Prop :=
  match pending with
  | .gap _ => tail <:+: ls
  | .draft _ d _ => d.Stands ls tail

theorem Draft.Stands.infix_tail {d : Draft} (h : d.Stands ls tail) : tail <:+: ls := by
  cases d with
  | plain => exact Sheet.Stands.infix_tail h
  | valued => exact Sheet.Stands.infix_tail h
  | atRule => exact h

theorem Draft.Stands.addSpace {d : Draft} {l : Lexeme} (h : d.Stands ls (l :: tail))
    (hl : l.token = .space ∨ l.token = .lineComment) : (d.addSpace l.text).Stands ls tail := by
  cases d with
  | plain => exact Sheet.Stands.addSpace h hl
  | valued => exact Sheet.Stands.addSpace h hl
  | atRule => exact (List.suffix_cons _ _).isInfix.trans h

theorem Draft.Stands.addWord {d : Draft} {word : List Lexeme} (h : d.Stands ls (word ++ tail)) (isColon : Bool) :
    (d.addWord isColon (word.flatMap (·.text))).Stands ls tail := by
  cases d with
  | plain head gap =>
    have hword := Sheet.Stands.addWord h
    cases isColon with
    | false => exact hword
    | true => simpa [Draft.addWord, Draft.Stands] using hword
  | valued property link value gap =>
    have hword := Sheet.Stands.addWord h
    cases value with
    | nil => simpa [Draft.addWord, Draft.Stands] using hword
    | cons c cs => simpa [Draft.addWord, Draft.Stands] using hword
  | atRule name afterName params gap =>
    have hinfix := (List.suffix_append word tail).isInfix.trans h
    cases params <;> exact hinfix

theorem Pending.Stands.opened {pending : Pending} (h : pending.Stands ls tail) :
    pending.opened.2.1.Stands ls tail := by
  cases pending with
  | gap => exact Sheet.Stands.nil h
  | draft => exact h

theorem Pending.Stands.infix_tail {pending : Pending} (h : pending.Stands ls tail) : tail <:+: ls :=
  h.opened.infix_tail

/-- A lexeme ends no rule, and is added to what may become the selector of one. -/
theorem step_stands {rest : Pieces} {l : Lexeme} {pending pending' : Pending} {node : Option Node}
    (h : step dialect rest l pending = .ok (node, pending')) (hp : pending.Stands ls (l :: tail)) :
    pending'.Stands ls tail ∧ Node.selectorsAll node.toList = [] := by
  have htail : tail <:+: ls := (List.suffix_cons _ _).isInfix.trans hp.infix_tail
  have word (hw : (.ok (.none, .draft pending.opened.1 (pending.opened.2.1.addWord (l.token == .colon) l.text)
      (isInterpolationSign l.token)) : Except SheetError (Option Node × Pending)) = .ok (node, pending')) :
      pending'.Stands ls tail ∧ Node.selectorsAll node.toList = [] := by
    cases hw
    have hopened : pending.opened.2.1.Stands ls ([l] ++ tail) := hp.opened
    have hadded := hopened.addWord (l.token == .colon)
    rw [List.flatMap_singleton] at hadded
    exact ⟨hadded, rfl⟩
  cases pending with
  | gap before =>
    simp only [step] at h
    split at h
    · cases h
      exact ⟨htail, rfl⟩
    · cases h
      exact ⟨htail, rfl⟩
    · split at h
      · cases h
      · cases h
        exact ⟨htail, rfl⟩
    · cases h
      exact ⟨htail, rfl⟩
    · cases h
    · split at h
      · split at h
        · cases h
        · exact word h
      · cases h
        exact ⟨htail, rfl⟩
    · split at h
      · cases h
      · exact word h
  | draft before d sigil =>
    have hd : d.Stands ls (l :: tail) := hp
    simp only [step] at h
    split at h
    · rename_i ht
      cases h
      exact ⟨hd.addSpace (.inl ht), rfl⟩
    · rename_i ht
      cases h
      exact ⟨hd.addSpace (.inr ht), rfl⟩
    · cases h
      refine ⟨htail, ?_⟩
      cases d with
      | plain => rfl
      | valued property link value gap => cases value <;> rfl
      | atRule name afterName params gap => cases params <;> rfl
    · cases h
    · split at h
      · cases h
      · exact word h

/-- Before a brace among the lexemes stands what the selector is written with. -/
def Heads (ls : List Lexeme) (selector : String) : Prop :=
  ∃ gap brace tail, Stands ls selector.toList gap (brace :: tail) ∧ brace.token = .opening .curly

/-- The selector of a rule stands before the brace of its block. -/
theorem Draft.Stands.withBlock {d : Draft} {brace : Lexeme} (h : d.Stands ls (brace :: tail))
    (hb : brace.token = .opening .curly) {before after : List Char} {children : List Node}
    (hchildren : ∀ s ∈ Node.selectorsAll children, Heads ls s) :
    ∀ s ∈ (d.withBlock before children after).selectors, Heads ls s := by
  cases d with
  | plain head gap =>
    have hhead : Heads ls (.ofList head) := ⟨gap, brace, tail, by rw [String.toList_ofList]; exact h, hb⟩
    exact List.forall_mem_cons.2 ⟨hhead, hchildren⟩
  | valued property link value gap =>
    have hhead : Heads ls (.ofList (property ++ link ++ value)) :=
      ⟨gap, brace, tail, by rw [String.toList_ofList]; exact h, hb⟩
    exact List.forall_mem_cons.2 ⟨hhead, hchildren⟩
  | atRule name afterName params gap => cases params <;> exact hchildren

/-- The selectors of all rules that are read stand before braces. -/
theorem heads_of_nodesOf {p : Pieces} {pending : Pending} {nodes : List Node} {after : List Char}
    (h : nodesOf dialect pending p = .ok (nodes, after)) (hm : p.Matched) (hp : pending.Stands ls (p.lexemes ++ tail)) :
    ∀ s ∈ Node.selectorsAll nodes, Heads ls s := by
  induction p generalizing pending nodes after tail with
  | done =>
    cases pending with
    | gap before =>
      cases h
      exact fun _ h => nomatch h
    | draft before d sigil =>
      cases h
      cases d with
      | plain => exact fun _ h => nomatch h
      | valued property link value gap => cases value <;> exact fun _ h => nomatch h
      | atRule name afterName params gap => cases params <;> exact fun _ h => nomatch h
  | leaf l rest ih =>
    simp only [nodesOf, bind_ok] at h
    obtain ⟨⟨node, pending'⟩, hstep, ⟨more, last⟩, hrest, hret⟩ := h
    cases hret
    obtain ⟨hstands, hnone⟩ := step_stands hstep hp
    rw [Node.selectorsAll_append, hnone]
    exact ih hrest hm.2 hstands
  | block opener bracket inner closer rest ihi ihr =>
    obtain ⟨hopens, -, hmi, -, -, hmr⟩ := hm
    simp only [Pieces.lexemes, List.cons_append, List.append_assoc] at hp
    have hinfix := (List.suffix_cons _ _).isInfix.trans hp.infix_tail
    have hstands := hp.opened
    rcases ho : pending.opened with ⟨before, d, sigil⟩
    rw [ho] at hstands
    simp only [nodesOf, ho] at h
    split at h
    · rename_i hcurly
      simp only [Bool.and_eq_true, beq_iff_eq] at hcurly
      obtain ⟨rfl, -⟩ := hcurly
      simp only [bind_ok] at h
      obtain ⟨⟨children, after'⟩, hchildren, h⟩ := h
      cases closer with
      | none => cases h
      | some closer =>
        simp only [Option.isNone_some, Bool.false_eq_true, if_false, bind_ok] at h
        obtain ⟨⟨more, last⟩, hnodes, hret⟩ := h
        cases hret
        have hinner : Pending.Stands ls (.gap []) (inner.lexemes ++ (closer :: (rest.lexemes ++ tail))) := hinfix
        have hrest : Pending.Stands ls (.gap []) (rest.lexemes ++ tail) :=
          ((List.suffix_cons _ _).trans (List.suffix_append _ _)).isInfix.trans hinfix
        exact List.forall_mem_append.2
          ⟨hstands.withBlock (opens?_curly hopens) (ihi hchildren hmi hinner), ihr hnodes hmr hrest⟩
    · split at h
      · cases h
      · have hword : d.Stands ls ((opener :: inner.lexemes ++ closer.toList) ++ (rest.lexemes ++ tail)) := by
          simpa using hstands
        have hadded := hword.addWord false
        have htext : (opener :: inner.lexemes ++ closer.toList).flatMap (·.text) = Pieces.blockText opener inner closer := by
          simp [Pieces.blockText, Pieces.text]
        rw [htext] at hadded
        exact ihr h hmr hadded

/-- Before the brace of every rule stand the tokens that its selector is written
with, and space; and however tokens of the sheet write the selector, it is cut
at the commas outside of their blocks, if all that they open is closed and
nothing that the splitter takes for code hides what nests or separates. -/
theorem branches_of_parse {file : Option Path} {text selector : String} {sheet : Sheet}
    (h : parse dialect file text = .ok sheet) (hs : selector ∈ Node.selectorsAll sheet.nodes) :
    (∃ run space brace, run ++ space ++ [brace] <:+: Masking.sheetLexemes dialect text.toList ∧
      run.flatMap (·.text) = selector.toList ∧ (∀ l ∈ space, l.token = .space ∨ l.token = .lineComment) ∧
      brace.token = .opening .curly) ∧
    ∀ run, run <:+: Masking.sheetLexemes dialect text.toList → run.flatMap (·.text) = selector.toList →
      (Pieces.ofLexemes run).Balanced → Clear {} run →
      splitTopLevel ',' selector.toList = (Pieces.ofLexemes run).commaParts ∧
        ∀ marker, Selector.scope marker selector = String.ofList ([','].intercalate
          ((Pieces.ofLexemes run).commaParts.map (Selector.scopePiece marker.toList))) := by
  constructor
  · simp only [Sheet.parse, mapError_ok, Sheet.read, map_ok] at h
    obtain ⟨⟨nodes, after⟩, hnodes, rfl⟩ := h
    have hstands : Pending.Stands (Masking.sheetLexemes dialect text.toList) (.gap [])
        ((Pieces.ofLexemes (Masking.sheetLexemes dialect text.toList)).lexemes ++ []) := by
      rw [Pieces.lexemes_ofLexemes, List.append_nil]
      exact List.infix_rfl
    obtain ⟨gap, brace, tail, ⟨run, space, hinfix, hspace, hrun, -⟩, hbrace⟩ :=
      heads_of_nodesOf hnodes (Pieces.matched_ofLexemes _) hstands selector hs
    refine ⟨run, space, brace, List.IsInfix.trans ?_ hinfix, hrun, hspace, hbrace⟩
    exact ⟨[], tail, by simp⟩
  · intro run hrun htext hbalanced hclear
    have hlexemes : (Pieces.ofLexemes run).lexemes = run := Pieces.lexemes_ofLexemes run
    have hlevelled : ∀ l ∈ (Pieces.ofLexemes run).lexemes, Spelled l.token l.text ∧ Levelled l.token l.text := by
      rw [hlexemes]
      exact fun l hl => ⟨Masking.spelled_sheetLexemes l (hrun.subset hl), Masking.levelled_sheetLexemes l (hrun.subset hl)⟩
    have hsplit := (splitFrom_pieces (Pieces.matched_ofLexemes run) hbalanced hlevelled rfl (hlexemes.symm ▸ hclear)).2.2.2 rfl
    rw [Pieces.text, hlexemes, htext] at hsplit
    refine ⟨hsplit, fun marker => ?_⟩
    rw [Selector.scope, splitTopLevel, hsplit]

/-- A rule in a group, with commas in a function, a string and an escape, and a
line comment before the comma between its branches. -/
theorem branches_of_parse_media :
    ∃ sheet run, parse .scss .none "@media x \x7b .a:is(b, \"c,(\") // d\n, .e\\,f \x7b\x7d \x7d" = .ok sheet ∧
      Node.selectorsAll sheet.nodes = [".a:is(b, \"c,(\") // d\n, .e\\,f"] ∧ (Pieces.ofLexemes run).Balanced ∧
      Clear {} run ∧ (Pieces.ofLexemes run).commaParts = [".a:is(b, \"c,(\") // d\n".toList, " .e\\,f".toList] ∧
      splitTopLevel ',' ".a:is(b, \"c,(\") // d\n, .e\\,f".toList = (Pieces.ofLexemes run).commaParts := by
  obtain ⟨sheet, h, hselectors⟩ : ∃ sheet,
      parse .scss .none "@media x \x7b .a:is(b, \"c,(\") // d\n, .e\\,f \x7b\x7d \x7d" = .ok sheet ∧
        Node.selectorsAll sheet.nodes = [".a:is(b, \"c,(\") // d\n, .e\\,f"] :=
    ok_of_toOption (by decide +kernel)
  generalize hrun : ((Masking.sheetLexemes .scss
    "@media x \x7b .a:is(b, \"c,(\") // d\n, .e\\,f \x7b\x7d \x7d".toList).drop 6).take 16 = run
  have hinfix := hrun ▸ (List.take_prefix 16 _).isInfix.trans (List.drop_suffix 6 (Masking.sheetLexemes .scss
    "@media x \x7b .a:is(b, \"c,(\") // d\n, .e\\,f \x7b\x7d \x7d".toList)).isInfix
  have hbalanced : (Pieces.ofLexemes run).Balanced := by
    rw [← hrun]
    decide +kernel
  have hclear : Clear {} run := by
    rw [← hrun]
    decide +kernel
  have htext : run.flatMap (·.text) = ".a:is(b, \"c,(\") // d\n, .e\\,f".toList := by
    rw [← hrun]
    decide +kernel
  have hparts : (Pieces.ofLexemes run).commaParts = [".a:is(b, \"c,(\") // d\n".toList, " .e\\,f".toList] := by
    rw [← hrun]
    decide +kernel
  have hbranches := branches_of_parse h (hselectors.symm ▸ List.mem_cons_self)
  exact ⟨sheet, run, h, hselectors, hbalanced, hclear, hparts, (hbranches.2 run hinfix htext hbalanced hclear).1⟩

/-- An apostrophe in a comment hides the comma between two branches. -/
theorem branches_hidden :
    ∃ sheet run space brace, parse .css .none ".a /* it's */, .b \x7b color: red \x7d" = .ok sheet ∧
      ".a /* it's */, .b" ∈ Node.selectorsAll sheet.nodes ∧
      run ++ space ++ [brace] <:+: Masking.sheetLexemes .css ".a /* it's */, .b \x7b color: red \x7d".toList ∧
      run.flatMap (·.text) = ".a /* it's */, .b".toList ∧ (∀ l ∈ space, l.token = .space) ∧
      brace.token = .opening .curly ∧ (Pieces.ofLexemes run).Balanced ∧
      (Pieces.ofLexemes run).commaParts = [".a /* it's */".toList, " .b".toList] ∧
      splitTopLevel ',' ".a /* it's */, .b".toList = [".a /* it's */, .b".toList] := by
  obtain ⟨sheet, h, hselectors⟩ : ∃ sheet, parse .css .none ".a /* it's */, .b \x7b color: red \x7d" = .ok sheet ∧
      Node.selectorsAll sheet.nodes = [".a /* it's */, .b"] :=
    ok_of_toOption (by decide +kernel)
  refine ⟨sheet, (Masking.sheetLexemes .css ".a /* it's */, .b \x7b color: red \x7d".toList).take 8,
    [⟨.space, [' '], 17⟩], ⟨.opening .curly, ['\x7b'], 18⟩, h, hselectors.symm ▸ List.mem_cons_self, ?_, by decide +kernel,
    by simp, rfl, by decide +kernel, by decide +kernel, by decide +kernel⟩
  exact ⟨[], (Masking.sheetLexemes .css ".a /* it's */, .b \x7b color: red \x7d".toList).drop 10, by decide +kernel⟩

end Sheet

end ThemeVars
