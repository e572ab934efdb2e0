/-
What a sheet imports. `specifiers_of_parse`: where each clause of an import
begins with a path that is written plainly, the paths are what the sheet
imports; `specifiers_media` is a sheet where a media query is taken for one.
-/
import ThemeVars.Import
import ThemeVars.Proofs.Sheet.Branches
import ThemeVars.Proofs.Text.Trim

namespace ThemeVars

open Text

namespace Pieces

/-- The pieces between the commas outside blocks. -/
def parts : Pieces → List Pieces
  | .done => [.done]
  | .leaf l rest => if l.token == .comma then .done :: rest.parts else rest.parts.modifyHead (.leaf l)
  | .block opener bracket inner closer rest => rest.parts.modifyHead (.block opener bracket inner closer)

theorem map_modifyHead {α β : Type} {f : α → α} {g : β → β} {h : α → β} (hfg : ∀ a, h (f a) = g (h a)) (l : List α) :
    (l.modifyHead f).map h = (l.map h).modifyHead g := by
  cases l with
  | nil => rfl
  | cons a l => simp [hfg]

theorem map_text_parts (p : Pieces) : p.parts.map text = p.commaParts := by
  induction p with
  | done => rfl
  | leaf l rest ih =>
    rw [parts, commaParts]
    split
    · rw [List.map_cons, ih]
      rfl
    · rw [map_modifyHead (text_leaf l), ih]
  | block opener bracket inner closer rest _ ih =>
    rw [parts, commaParts, map_modifyHead (text_block opener bracket inner closer), ih]

/-- The text of the first piece. -/
def frontText : Pieces → List Char
  | .done => []
  | .leaf l _ => l.text
  | .block opener _ inner closer _ => blockText opener inner closer

/-- The sequence after the space at its front. -/
def afterSpace (p : Pieces) : Pieces := p.dropLeaves (· == .space)

/-- The space at the front is blank: a comment of which an escape has taken the
first character goes on in a token that is called space. -/
def hasBlankFront (p : Pieces) : Bool := (p.leavesText (· == .space)).all isBlank

theorem text_dropLeaves (f : Token → Bool) (p : Pieces) : p.leavesText f ++ (p.dropLeaves f).text = p.text := by
  induction p with
  | done => rfl
  | leaf l rest ih =>
    simp only [leavesText, dropLeaves]
    split
    · rw [List.append_assoc, ih, text_leaf]
    · rfl
  | block => rfl

theorem dropLeaves_dropLeaves {f g : Token → Bool} (h : ∀ t, f t = true → g t = true) (p : Pieces) :
    (p.dropLeaves f).dropLeaves g = p.dropLeaves g := by
  induction p with
  | done => rfl
  | leaf l rest ih =>
    by_cases hf : f l.token = true
    · rw [dropLeaves, if_pos hf, ih, dropLeaves, if_pos (h _ hf)]
    · rw [dropLeaves, if_neg hf]
  | block => rfl

theorem afterFiller_afterSpace (p : Pieces) : p.afterSpace.afterFiller = p.afterFiller := by
  refine dropLeaves_dropLeaves (fun t ht => ?_) p
  rw [beq_iff_eq.1 ht]
  rfl

end Pieces

namespace Import

open Pieces (frontText)

/-! ## What a clause states -/

/-- The string that stands first, space and comments aside. -/
def quoted? (p : Pieces) : Option String :=
  match p.afterFiller with
  | .leaf l _ =>
    match l.token with
    | .string path => .some path
    | _ => .none
  | _ => .none

/-- The path that the pieces begin with: a string, a url, or a url in quotes. -/
def path? : Pieces → Option String
  | .leaf l _ =>
    match l.token with
    | .string path => .some path
    | .url path => .some path
    | _ => .none
  | .block opener _ inner _ _ =>
    match opener.token with
    | .function name => if name.lowered == "url" then quoted? inner else .none
    | _ => .none
  | .done => .none

/-- What follows options in parentheses, where there are any. -/
def afterOptions (p : Pieces) : Pieces :=
  match p with
  | .block opener _ _ _ rest => if opener.token == .opening .round then rest.afterFiller else p
  | _ => p

/-- The path that a clause begins with, space, comments and options aside. -/
def stated? (clause : Pieces) : Option String :=
  (path? (afterOptions clause.afterFiller)).filter (!·.isEmpty)

/-- Imports of one sheet each. -/
def isSingle (name : String) : Bool := ["use", "forward"].contains name.lowered

/-- What the parameters of an import state: a path in each clause, or only in
the first. -/
def stated (name : String) (params : Pieces) : List String :=
  (if isSingle name then params.parts.take 1 else params.parts).filterMap stated?

/-! ## Clauses that are written plainly -/

/-- The path in quotes that are not in it. -/
def inQuotes (path : List Char) : List Char → Bool
  | q :: rest => Text.isQuote q && rest == path ++ [q] && !path.contains q
  | [] => false

/-- The path in the parentheses of a url, in quotes or not. -/
def inUrl (path text : List Char) : Bool :=
  let inner := (text.drop 4).dropLast
  text == "url(".toList ++ (inner ++ [')']) && !inner.contains ')' &&
    (inQuotes path (trim inner) || (trim inner == path && !path.head?.any Text.isQuote))

/-- Nothing is left, or a path that is written as it reads. -/
def beginsPlain (p : Pieces) : Bool :=
  p.size == 0 || (path? p).any fun path => inQuotes path.toList p.frontText || inUrl path.toList p.frontText

/-- The first parenthesis that closes closes the options, and what follows them
begins plainly. -/
def optionsPlain (opener : Lexeme) (inner : Pieces) (closer : Option Lexeme) (rest : Pieces) : Bool :=
  Pieces.blockText opener inner closer == '(' :: (inner.text ++ [')']) && !inner.text.contains ')' &&
    rest.hasBlankFront && beginsPlain rest.afterSpace

/-- After blanks, and options after which there are blanks, the clause begins
plainly. -/
def isPlain (clause : Pieces) : Bool :=
  clause.hasBlankFront &&
    match clause.afterSpace with
    | .block opener bracket inner closer rest =>
      if opener.token == .opening .round then optionsPlain opener inner closer rest
      else beginsPlain (.block opener bracket inner closer rest)
    | p => beginsPlain p

variable {path text more : List Char}

theorem inQuotes_iff : inQuotes path text = true ↔ ∃ q, Text.isQuote q = true ∧ text = q :: (path ++ [q]) ∧ q ∉ path := by
  cases text with
  | nil => simp [inQuotes]
  | cons q rest =>
    simp only [inQuotes, Bool.and_eq_true, beq_iff_eq, Bool.not_eq_true', List.contains_eq_mem, decide_eq_false_iff_not,
      List.cons.injEq]
    constructor
    · rintro ⟨⟨hq, hrest⟩, hmem⟩
      exact ⟨q, hq, ⟨rfl, hrest⟩, hmem⟩
    · rintro ⟨_, hq, ⟨rfl, hrest⟩, hmem⟩
      exact ⟨⟨hq, hrest⟩, hmem⟩

theorem before?_append {closer : Char} (h : closer ∉ path) (rest : List Char) :
    before? closer (path ++ closer :: rest) = .some path := by
  have htake : (path ++ closer :: rest).takeWhile (· != closer) = path := by
    rw [List.takeWhile_append_of_pos fun c hc => by simpa using fun heq : c = closer => h (heq ▸ hc),
      List.takeWhile_cons_of_neg (by simp), List.append_nil]
  rw [before?, if_pos (by simp), htake]

theorem isQuote_iff {q : Char} : Text.isQuote q = true ↔ q = '"' ∨ q = '\'' := by simp [Text.isQuote]

theorem named?_inQuotes (h : inQuotes path text = true) (more : List Char) : named? (text ++ more) = .some path := by
  obtain ⟨q, hq, rfl, hmem⟩ := inQuotes_iff.1 h
  have hurl : "url(".toList.isPrefixOf (q :: (path ++ [q]) ++ more) = false := by
    rcases isQuote_iff.1 hq with rfl | rfl <;> rfl
  rw [named?.eq_def, hurl, if_neg Bool.false_ne_true, List.cons_append, List.append_assoc, List.singleton_append]
  simp only [hq, if_true]
  exact before?_append hmem more

theorem unquoteChars_inQuotes (h : inQuotes path text = true) : unquoteChars text = path := by
  obtain ⟨q, hq, rfl, -⟩ := inQuotes_iff.1 h
  simp [unquoteChars, hq]

theorem inUrl_iff : inUrl path text = true ↔ ∃ inner, text = "url(".toList ++ (inner ++ [')']) ∧ ')' ∉ inner ∧
    (inQuotes path (trim inner) = true ∨ trim inner = path ∧ path.head?.any Text.isQuote = false) := by
  simp only [inUrl, Bool.and_eq_true, beq_iff_eq, Bool.not_eq_true', List.contains_eq_mem, decide_eq_false_iff_not,
    Bool.or_eq_true]
  constructor
  · rintro ⟨⟨htext, hmem⟩, hpath⟩
    exact ⟨_, htext, hmem, hpath⟩
  · rintro ⟨inner, rfl, hmem, hpath⟩
    have hinner : (("url(".toList ++ (inner ++ [')'])).drop 4).dropLast = inner := by
      rw [List.drop_left' (by rfl : "url(".toList.length = 4), List.dropLast_concat]
    rw [hinner]
    exact ⟨⟨rfl, hmem⟩, hpath⟩

theorem named?_inUrl (h : inUrl path text = true) (more : List Char) : named? (text ++ more) = .some path := by
  obtain ⟨inner, rfl, hmem, hpath⟩ := inUrl_iff.1 h
  have htext : "url(".toList ++ (inner ++ [')']) ++ more = "url(".toList ++ (inner ++ ')' :: more) := by simp
  have hunquote : unquoteChars (trim inner) = path := by
    rcases hpath with hquotes | ⟨hbare, hquote⟩
    · exact unquoteChars_inQuotes hquotes
    · rw [hbare]
      cases path with
      | nil => rfl
      | cons c path =>
        rw [List.head?_cons, Option.any_some] at hquote
        rw [unquoteChars, hquote, Bool.false_and, if_neg Bool.false_ne_true]
  rw [htext, named?.eq_def, if_pos (List.isPrefixOf_iff_prefix.2 (List.prefix_append _ _)),
    List.drop_left' (by rfl : "url(".toList.length = 4), before?_append hmem, Option.map_some, hunquote]

theorem isBlank_of_isQuote {q : Char} (h : Text.isQuote q = true) : isBlank q = false ∧ q ≠ '(' := by
  rcases isQuote_iff.1 h with rfl | rfl <;> decide

/-- What is written plainly is not trimmed, and is not taken for options. -/
theorem trim_written (h : inQuotes path text = true ∨ inUrl path text = true) (more : List Char) :
    trim (text ++ more) = text ++ trimEnd more ∧ text.head? ≠ .some '(' := by
  rcases h with h | h
  · obtain ⟨q, hq, rfl, -⟩ := inQuotes_iff.1 h
    obtain ⟨hblank, hparen⟩ := isBlank_of_isQuote hq
    refine ⟨?_, by simpa using hparen⟩
    have := trim_between hblank hblank path more
    simpa using this
  · obtain ⟨inner, rfl, -, -⟩ := inUrl_iff.1 h
    refine ⟨?_, by simp⟩
    have := trim_between (c := 'u') (d := ')') (by decide) (by decide) ("rl(".toList ++ inner) more
    simpa using this

theorem exists_frontText (p : Pieces) : ∃ more, p.text = p.frontText ++ more := by
  cases p with
  | done => exact ⟨[], rfl⟩
  | leaf l rest => exact ⟨_, Pieces.text_leaf l rest⟩
  | block opener bracket inner closer rest => exact ⟨_, Pieces.text_block opener bracket inner closer rest⟩

theorem filter_toList (path : String) :
    ((Option.some path.toList).filter (!·.isEmpty)).map String.ofList = (Option.some path).filter (!·.isEmpty) := by
  have hempty : path.toList.isEmpty = path.isEmpty := by
    rw [Bool.eq_iff_iff, List.isEmpty_iff, String.isEmpty_iff, String.toList_eq_nil_iff]
  by_cases h : path.isEmpty = true
  · simp [Option.filter, hempty, h]
  · simp [Option.filter, hempty, h, String.ofList_toList]

/-- What begins plainly is named as it states. -/
theorem named?_beginsPlain {p : Pieces} (h : beginsPlain p = true) :
    ((named? (trim p.text)).filter (!·.isEmpty)).map String.ofList = (path? p).filter (!·.isEmpty) ∧
      (trim p.text).head? ≠ .some '(' := by
  rcases Bool.or_eq_true_iff.1 h with hsize | hpath
  · cases p with
    | done => exact ⟨rfl, fun h => nomatch h⟩
    | _ => cases hsize
  · obtain ⟨path, hpath, hwritten⟩ := (Option.any_eq_true _ _).1 hpath
    have hw := Bool.or_eq_true_iff.1 hwritten
    obtain ⟨more, hmore⟩ := exists_frontText p
    obtain ⟨htrim, hhead⟩ := trim_written hw more
    have hnamed : named? (trim p.text) = .some path.toList := by
      rw [hmore, htrim]
      exact hw.elim (named?_inQuotes · _) (named?_inUrl · _)
    refine ⟨by rw [hnamed, hpath, filter_toList], ?_⟩
    rw [hmore, htrim, List.head?_append]
    cases hfront : p.frontText with
    | nil =>
      rw [hfront] at hw
      rcases hw with hw | hw
      · cases hw
      · obtain ⟨inner, hinner, -⟩ := inUrl_iff.1 hw
        cases hinner
    | cons c cs =>
      rw [hfront] at hhead
      exact hhead

/-- What begins plainly begins with neither space nor options. -/
theorem afterFiller_beginsPlain {p : Pieces} (h : beginsPlain p = true) : p.afterFiller = p ∧ afterOptions p = p := by
  rcases Bool.or_eq_true_iff.1 h with hsize | hpath
  · cases p with
    | done => exact ⟨rfl, rfl⟩
    | _ => cases hsize
  · obtain ⟨path, hpath, -⟩ := (Option.any_eq_true _ _).1 hpath
    cases p with
    | done => cases hpath
    | leaf l rest =>
      have hfiller : l.token.isFiller = false := by
        cases ht : l.token <;> rw [path?, ht] at hpath <;> first | rfl | cases hpath
      exact ⟨by rw [Pieces.afterFiller, Pieces.dropLeaves, hfiller, if_neg Bool.false_ne_true], rfl⟩
    | block opener bracket inner closer rest =>
      have hround : (opener.token == .opening .round) = false := by
        cases ht : opener.token <;> rw [path?, ht] at hpath <;> first | rfl | cases hpath
      exact ⟨rfl, by rw [afterOptions, hround, if_neg Bool.false_ne_true]⟩

theorem trim_afterSpace {p : Pieces} (h : p.hasBlankFront = true) : trim p.text = trim p.afterSpace.text := by
  rw [← Pieces.text_dropLeaves (· == .space) p, trim_append (List.all_eq_true.1 h)]
  rfl

/-- A clause that is written plainly is read as it states. -/
theorem specifier?_of_isPlain {clause : Pieces} (h : isPlain clause = true) : specifier? clause.text = stated? clause := by
  obtain ⟨hblank, hfront⟩ := Bool.and_eq_true_iff.1 h
  have plain (hbegins : beginsPlain clause.afterSpace = true) : specifier? clause.text = stated? clause := by
    obtain ⟨hnamed, hhead⟩ := named?_beginsPlain hbegins
    have hoptions : afterOptions? (trim clause.text) = .some (trim clause.text) := by
      rw [trim_afterSpace hblank, afterOptions?, if_neg (by simpa using hhead)]
    rw [specifier?, hoptions, Option.bind_some, trim_afterSpace hblank, hnamed, stated?, ← Pieces.afterFiller_afterSpace,
      (afterFiller_beginsPlain hbegins).1, (afterFiller_beginsPlain hbegins).2]
  split at hfront
  · rename_i opener bracket inner closer rest hspace
    split at hfront
    · rename_i hround
      simp only [optionsPlain, Bool.and_eq_true, beq_iff_eq, Bool.not_eq_true', List.contains_eq_mem,
        decide_eq_false_iff_not] at hfront
      obtain ⟨⟨⟨htext, hmem⟩, hrest⟩, hbegins⟩ := hfront
      obtain ⟨hnamed, -⟩ := named?_beginsPlain hbegins
      have htrim : trim clause.text = '(' :: (inner.text ++ ')' :: trimEnd rest.text) := by
        rw [trim_afterSpace hblank, hspace, Pieces.text_block, htext, List.cons_append, List.append_assoc,
          List.singleton_append, trim_between (by decide) (by decide)]
      have hoptions : afterOptions? (trim clause.text) = .some (trim rest.afterSpace.text) := by
        have hbefore : before? ')' ('(' :: (inner.text ++ ')' :: trimEnd rest.text)) = .some ('(' :: inner.text) :=
          before?_append (by simpa using hmem : ')' ∉ '(' :: inner.text) _
        rw [htrim, afterOptions?, if_pos (by rfl), hbefore, Option.map_some, ← trim_afterSpace hrest, ← trimStart_trimEnd]
        simp
      rw [specifier?, hoptions, Option.bind_some, hnamed, stated?, ← Pieces.afterFiller_afterSpace, hspace]
      have hfiller : (Pieces.block opener bracket inner closer rest).afterFiller = .block opener bracket inner closer rest :=
        rfl
      rw [hfiller, afterOptions, if_pos hround, ← Pieces.afterFiller_afterSpace, (afterFiller_beginsPlain hbegins).1]
    · exact plain (hspace ▸ hfront)
  · exact plain hfront

/-! ## Imports as tokens -/

variable {dialect : Dialect} {s : List Char}

/-- An import as its at-keyword and the tokens of its parameters. -/
structure Rule where
  keyword : Lexeme
  params : List Lexeme
deriving DecidableEq

namespace Rule

def name (r : Rule) : String := .ofList (r.keyword.text.drop 1)

/-- The name and the parameters as text. -/
def written (r : Rule) : String × String := (r.name, .ofList (r.params.flatMap (·.text)))

/-- What the import states. -/
def stated (r : Rule) : List String := Import.stated r.name (.ofLexemes r.params)

/-- Everything that the parameters open is closed, no token hides what nests or
separates, each clause is written plainly, and where one sheet is imported only
the first clause states a path. -/
structure IsPlain (r : Rule) : Prop where
  balanced : (Pieces.ofLexemes r.params).Balanced
  clear : Clear {} r.params
  plain : ∀ clause ∈ (Pieces.ofLexemes r.params).parts, isPlain clause = true
  single : isSingle r.name = true → ∀ clause ∈ (Pieces.ofLexemes r.params).parts.tail, stated? clause = .none

instance : DecidablePred IsPlain := fun r =>
  decidable_of_iff ((Pieces.ofLexemes r.params).Balanced ∧ Clear {} r.params ∧
      (∀ clause ∈ (Pieces.ofLexemes r.params).parts, isPlain clause = true) ∧
      (isSingle r.name = true → ∀ clause ∈ (Pieces.ofLexemes r.params).parts.tail, stated? clause = .none))
    ⟨fun h => ⟨h.1, h.2.1, h.2.2.1, h.2.2.2⟩, fun h => ⟨h.balanced, h.clear, h.plain, h.single⟩⟩

/-- The splitter cuts such parameters into their clauses, and each of them is
read as it states. -/
theorem IsPlain.specifiersOf {r : Rule} (h : r.IsPlain)
    (hl : ∀ l ∈ r.params, l ∈ Masking.sheetLexemes dialect s) : Import.specifiersOf r.written.2 = r.stated := by
  have hlexemes := Pieces.lexemes_ofLexemes r.params
  have hlevelled : ∀ l ∈ (Pieces.ofLexemes r.params).lexemes, Spelled l.token l.text ∧ Levelled l.token l.text := by
    rw [hlexemes]
    exact fun l hmem => ⟨Masking.spelled_sheetLexemes l (hl l hmem), Masking.levelled_sheetLexemes l (hl l hmem)⟩
  have hsplit := (splitFrom_pieces (Pieces.matched_ofLexemes _) h.balanced hlevelled rfl (hlexemes.symm ▸ h.clear)).2.2.2 rfl
  rw [Pieces.text, hlexemes, ← Pieces.map_text_parts] at hsplit
  have hclauses : (Pieces.ofLexemes r.params).parts.filterMap (specifier? ∘ Pieces.text) =
      (Pieces.ofLexemes r.params).parts.filterMap stated? :=
    List.filterMap_congr fun clause hmem => specifier?_of_isPlain (h.plain clause hmem)
  rw [Import.specifiersOf, written, String.toList_ofList, splitTopLevel, hsplit, List.filterMap_map, hclauses, stated,
    Import.stated]
  split
  · rename_i hsingle
    have htail := h.single hsingle
    cases hparts : (Pieces.ofLexemes r.params).parts with
    | nil => rfl
    | cons clause clauses =>
      rw [hparts] at htail
      have hnil : clauses.filterMap stated? = [] := List.filterMap_eq_nil_iff.2 htail
      rw [List.take_succ_cons, List.take_zero, List.filterMap_cons, hnil]
      rfl
  · rfl

end Rule

/-- In the order of the lexemes the rules stand among them, each with nothing
but space and line comments between its at-keyword and its parameters. -/
inductive Stand : List Lexeme → List Rule → Prop
  | nil {ls : List Lexeme} : Stand ls []
  | cons {front gap params rest : List Lexeme} {keyword : Lexeme} {rules : List Rule} {name : String}
      (hname : keyword.token = .atKeyword name) (hgap : ∀ l ∈ gap, l.token = .space ∨ l.token = .lineComment)
      (hrest : Stand rest rules) : Stand (front ++ keyword :: (gap ++ (params ++ rest))) (⟨keyword, params⟩ :: rules)

theorem Stand.append {ls : List Lexeme} {rules : List Rule} (h : Stand ls rules) (front : List Lexeme) :
    Stand (front ++ ls) rules := by
  cases h with
  | nil => exact .nil
  | cons hname hgap hrest =>
    rw [← List.append_assoc]
    exact .cons hname hgap hrest

theorem Stand.params_subset {ls : List Lexeme} {rules : List Rule} (h : Stand ls rules) :
    ∀ r ∈ rules, ∀ l ∈ r.params, l ∈ ls := by
  induction h with
  | nil => exact fun _ h => absurd h List.not_mem_nil
  | cons _ _ _ ih =>
    refine List.forall_mem_cons.2 ⟨fun l hl => ?_, fun r hr l hl => ?_⟩
    · simp [hl]
    · simp [ih r hr l hl]

end Import

/-- The name and the parameters of a node that is an import. -/
def Node.import? : Node → Option (String × String)
  | .statement name params _ _ _ _ => if isImportName name then .some (name, params) else .none
  | .group name params _ _ _ => if isImportName name then .some (name, params) else .none
  | _ => .none

theorem Import.specifiers_eq (sheet : Sheet) :
    specifiers sheet = (sheet.nodes.filterMap Node.import?).flatMap fun i => specifiersOf i.2 := by
  rw [specifiers]
  induction sheet.nodes with
  | nil => rfl
  | cons node nodes ih =>
    rw [List.flatMap_cons, ih, List.filterMap_cons]
    cases node with
    | statement name params before afterName between semicolon =>
      by_cases h : Node.isImportName name = true <;> simp [Node.import?, h]
    | group name params children spacing afterName =>
      by_cases h : Node.isImportName name = true <;> simp [Node.import?, h]
    | _ => rfl

namespace Sheet

open Import (Rule Stand)

variable {dialect : Dialect} {held tail : List Lexeme}

/-- The draft has been read from the last of the lexemes, if it is one of an
at-rule. -/
def Draft.HeldBy (held : List Lexeme) : Draft → Prop
  | .atRule name _ params gap => ∃ front keyword before run space, held = front ++ keyword :: (before ++ (run ++ space)) ∧
      (∃ ident, keyword.token = .atKeyword ident) ∧ keyword.text.drop 1 = name ∧
      (∀ l ∈ before, l.token = .space ∨ l.token = .lineComment) ∧
      (∀ l ∈ space, l.token = .space ∨ l.token = .lineComment) ∧
      run.flatMap (·.text) = params ∧ space.flatMap (·.text) = gap ∧ (params = [] → before = [] ∧ run = [])
  | _ => True

def Pending.HeldBy (held : List Lexeme) : Pending → Prop
  | .gap _ => True
  | .draft _ d _ => d.HeldBy held

theorem Draft.HeldBy.addSpace {d : Draft} {l : Lexeme} (h : d.HeldBy held)
    (hl : l.token = .space ∨ l.token = .lineComment) : (d.addSpace l.text).HeldBy (held ++ [l]) := by
  cases d with
  | atRule name afterName params gap =>
    obtain ⟨front, keyword, before, run, space, rfl, hkeyword, hname, hbefore, hspace, hparams, rfl, hnil⟩ := h
    refine ⟨front, keyword, before, run, space ++ [l], by simp, hkeyword, hname, hbefore, ?_, hparams, by simp, hnil⟩
    exact List.forall_mem_append.2 ⟨hspace, List.forall_mem_singleton.2 hl⟩
  | _ => trivial

theorem Draft.HeldBy.addWord {d : Draft} (h : d.HeldBy held) (word : List Lexeme) (isColon : Bool)
    (hword : word.flatMap (·.text) ≠ []) : (d.addWord isColon (word.flatMap (·.text))).HeldBy (held ++ word) := by
  cases d with
  | plain head gap => cases isColon <;> trivial
  | valued property link value gap => cases value <;> trivial
  | atRule name afterName params gap =>
    obtain ⟨front, keyword, before, run, space, rfl, hkeyword, hname, hbefore, hspace, hparams, rfl, hnil⟩ := h
    cases params with
    | nil =>
      obtain ⟨rfl, rfl⟩ := hnil rfl
      exact ⟨front, keyword, space, word, [], by simp, hkeyword, hname, hspace, by simp, rfl, rfl, fun h => absurd h hword⟩
    | cons c cs =>
      exact ⟨front, keyword, before, run ++ space ++ word, [], by simp, hkeyword, hname, hbefore, by simp, by simp [hparams],
        rfl, fun h => absurd h (by simp)⟩

/-- The lexemes end with those that the node has been read from. -/
def Ends (held : List Lexeme) (node : Node) : Prop :=
  ∃ rules : List Rule, node.import?.toList = rules.map Rule.written ∧
    ∀ rest more, Stand rest more → Stand (held ++ rest) (rules ++ more)

theorem ends_of_import? {node : Node} (h : node.import? = .none) : Ends held node :=
  ⟨[], by rw [h]; rfl, fun _ _ hrest => hrest.append held⟩

theorem Draft.HeldBy.ends {name afterName params gap : List Char} (h : (Draft.atRule name afterName params gap).HeldBy held)
    {node : Node} (hnode : node.import? =
      if Node.isImportName (.ofList name) then .some (.ofList name, .ofList params) else .none) : Ends held node := by
  split at hnode
  · obtain ⟨front, keyword, before, run, space, rfl, ⟨ident, hkeyword⟩, rfl, hbefore, -, rfl, -, -⟩ := h
    refine ⟨[⟨keyword, run⟩], by rw [hnode]; rfl, fun rest more hrest => ?_⟩
    have hlexemes : front ++ keyword :: (before ++ (run ++ space)) ++ rest =
        front ++ keyword :: (before ++ (run ++ (space ++ rest))) := by simp
    rw [hlexemes]
    exact .cons hkeyword hbefore (hrest.append space)
  · exact ends_of_import? hnode

theorem Draft.HeldBy.finish {d : Draft} (h : d.HeldBy held) (before : List Char) (semicolon : Bool) :
    Ends held (d.finish before semicolon) := by
  cases d with
  | plain head gap => exact ends_of_import? rfl
  | valued property link value gap => cases value <;> exact ends_of_import? rfl
  | atRule name afterName params gap => cases params <;> exact h.ends rfl

theorem Draft.HeldBy.withBlock {d : Draft} (h : d.HeldBy held) (before : List Char) (children : List Node)
    (after : List Char) : Ends held (d.withBlock before children after) := by
  cases d with
  | plain head gap => exact ends_of_import? rfl
  | valued property link value gap => exact ends_of_import? rfl
  | atRule name afterName params gap => cases params <;> exact h.ends rfl

theorem Pending.HeldBy.opened {pending : Pending} (h : pending.HeldBy held) : pending.opened.2.1.HeldBy held := by
  cases pending with
  | gap => trivial
  | draft => exact h

/-- A lexeme is added to what is pending, or ends a node. -/
theorem step_heldBy {rest : Pieces} {l : Lexeme} {pending pending' : Pending} {node : Option Node}
    (h : step dialect rest l pending = .ok (node, pending')) (hl : l.text ≠ []) (hp : pending.HeldBy held) :
    (node.bind Node.import? = .none ∧ pending'.HeldBy (held ++ [l])) ∨
      ∃ ended, node = .some ended ∧ pending' = .gap [] ∧ Ends held ended := by
  have word (hw : (.ok (.none, .draft pending.opened.1 (pending.opened.2.1.addWord (l.token == .colon) l.text)
      (isInterpolationSign l.token)) : Except SheetError (Option Node × Pending)) = .ok (node, pending')) :
      node.bind Node.import? = .none ∧ pending'.HeldBy (held ++ [l]) := by
    cases hw
    have hadded := hp.opened.addWord [l] (l.token == .colon) (by simpa using hl)
    rw [List.flatMap_singleton] at hadded
    exact ⟨rfl, hadded⟩
  cases pending with
  | gap before =>
    left
    simp only [step] at h
    split at h
    · cases h
      exact ⟨rfl, trivial⟩
    · cases h
      exact ⟨rfl, trivial⟩
    · split at h
      · cases h
      · cases h
        exact ⟨rfl, trivial⟩
    · cases h
      exact ⟨rfl, trivial⟩
    · cases h
    · rename_i name hname
      split at h
      · split at h
        · cases h
        · exact word h
      · cases h
        exact ⟨rfl, held, l, [], [], [], by simp, ⟨name, hname⟩, rfl, by simp, by simp, rfl, rfl, fun _ => ⟨rfl, rfl⟩⟩
    · split at h
      · cases h
      · exact word h
  | draft before d sigil =>
    have hd : d.HeldBy held := hp
    simp only [step] at h
    split at h
    · rename_i ht
      cases h
      exact .inl ⟨rfl, hd.addSpace (.inl ht)⟩
    · rename_i ht
      cases h
      exact .inl ⟨rfl, hd.addSpace (.inr ht)⟩
    · cases h
      exact .inr ⟨_, rfl, rfl, hd.finish before true⟩
    · cases h
    · split at h
      · cases h
      · exact .inl (word h)

/-- The imports among the nodes that are read stand among the lexemes: an
induction on the reader, in which `held` is what the draft under way has been
read from. -/
theorem stand_of_nodesOf {p : Pieces} {pending : Pending} {nodes : List Node} {after : List Char}
    (h : nodesOf dialect pending p = .ok (nodes, after)) (hp : pending.HeldBy held)
    (hne : ∀ l ∈ p.lexemes, l.text ≠ []) :
    ∃ rules : List Rule, nodes.filterMap Node.import? = rules.map Rule.written ∧ Stand (held ++ p.lexemes) rules := by
  induction p generalizing pending nodes after held with
  | done =>
    cases pending with
    | gap before =>
      cases h
      exact ⟨[], rfl, .nil⟩
    | draft before d sigil =>
      cases h
      obtain ⟨rules, hrules, hstand⟩ := Draft.HeldBy.finish hp before false
      refine ⟨rules, ?_, ?_⟩
      · rw [← hrules]
        cases hd : (d.finish before false).import? <;> simp [hd]
      · simpa [Pieces.lexemes] using hstand [] [] .nil
  | leaf l rest ih =>
    obtain ⟨hl, hne⟩ := List.forall_mem_cons.1 hne
    simp only [nodesOf, bind_ok] at h
    obtain ⟨⟨node, pending'⟩, hstep, ⟨more, last⟩, hrest, hret⟩ := h
    cases hret
    rcases step_heldBy hstep hl hp with ⟨hnone, hpending⟩ | ⟨ended, rfl, rfl, rules, hrules, hstand⟩
    · obtain ⟨rules, hrules, hstand⟩ := ih hrest hpending hne
      refine ⟨rules, ?_, by simpa [Pieces.lexemes] using hstand⟩
      rw [← hrules]
      cases node with
      | none => rfl
      | some node => exact List.filterMap_cons_none hnone
    · have hgap : Pending.HeldBy [l] (.gap []) := trivial
      obtain ⟨rules', hrules', hstand'⟩ := ih hrest hgap hne
      refine ⟨rules ++ rules', ?_, hstand _ _ (by simpa [Pieces.lexemes] using hstand')⟩
      rw [List.map_append, ← hrules, ← hrules']
      cases hended : ended.import? <;> simp [hended]
  | block opener bracket inner closer rest ihi ihr =>
    have hne' : ∀ l ∈ rest.lexemes, l.text ≠ [] := fun l hl => hne l (by simp [Pieces.lexemes, hl])
    have hheld := hp.opened
    rcases ho : pending.opened with ⟨before, d, sigil⟩
    rw [ho] at hheld
    simp only [nodesOf, ho] at h
    split at h
    · simp only [bind_ok] at h
      obtain ⟨⟨children, after'⟩, -, h⟩ := h
      split at h
      · cases h
      · simp only [bind_ok] at h
        obtain ⟨⟨more, last⟩, hnodes, hret⟩ := h
        cases hret
        obtain ⟨rules, hrules, hstand⟩ := hheld.withBlock before children after'
        have hgap : Pending.HeldBy (opener :: inner.lexemes ++ closer.toList) (.gap []) := trivial
        obtain ⟨rules', hrules', hstand'⟩ := ihr hnodes hgap hne'
        refine ⟨rules ++ rules', ?_, hstand _ _ (by simpa [Pieces.lexemes] using hstand')⟩
        rw [List.map_append, ← hrules, ← hrules']
        cases hended : (d.withBlock before children after').import? <;> simp [hended]
    · split at h
      · cases h
      · have htext : (opener :: inner.lexemes ++ closer.toList).flatMap (·.text) = Pieces.blockText opener inner closer := by
          simp [Pieces.blockText, Pieces.text]
        have hopener : opener.text ≠ [] := hne opener (by simp [Pieces.lexemes])
        have hadded := hheld.addWord (opener :: inner.lexemes ++ closer.toList) false (by simp [hopener])
        rw [htext] at hadded
        obtain ⟨rules, hrules, hstand⟩ := ihr h hadded hne'
        exact ⟨rules, hrules, by simpa [Pieces.lexemes] using hstand⟩

/-- A sheet of whose imports every clause is written plainly imports what they
state; its imports stand among its tokens in order. -/
theorem specifiers_of_parse {file : Option Path} {text : String} {sheet : Sheet} (h : parse dialect file text = .ok sheet) :
    (∃ rules, Stand (Masking.sheetLexemes dialect text.toList) rules ∧
      sheet.nodes.filterMap Node.import? = rules.map Rule.written) ∧
    ∀ rules, Stand (Masking.sheetLexemes dialect text.toList) rules →
      sheet.nodes.filterMap Node.import? = rules.map Rule.written → (∀ r ∈ rules, r.IsPlain) →
      Import.specifiers sheet = rules.flatMap Rule.stated := by
  constructor
  · simp only [Sheet.parse, mapError_ok, Sheet.read, map_ok] at h
    obtain ⟨⟨nodes, after⟩, hnodes, rfl⟩ := h
    have hlexemes := Pieces.lexemes_ofLexemes (Masking.sheetLexemes dialect text.toList)
    have hgap : Pending.HeldBy [] (.gap []) := trivial
    obtain ⟨rules, hrules, hstand⟩ := stand_of_nodesOf hnodes hgap fun l hl =>
      (Masking.spelled_sheetLexemes l (hlexemes ▸ hl)).ne_nil
    exact ⟨rules, by simpa [hlexemes] using hstand, hrules⟩
  · intro rules hstand hrules hplain
    rw [Import.specifiers_eq, hrules, List.flatMap_map]
    refine List.flatMap_congr fun r hr => ?_
    exact (hplain r hr).specifiersOf fun l hl => hstand.params_subset r hr l hl

/-- Commas in a configuration and between two clauses, a url without quotes, a
media query, and an import in a rule. -/
theorem specifiers_of_parse_plain :
    ∃ sheet rules,
      parse .scss .none "@use 'a' with ($x: 1, $y: 2);\n@import url( b.css ) screen, \"c\"; .r \x7b @import \"d\" \x7d" =
        .ok sheet ∧
      Stand (Masking.sheetLexemes .scss
        "@use 'a' with ($x: 1, $y: 2);\n@import url( b.css ) screen, \"c\"; .r \x7b @import \"d\" \x7d".toList) rules ∧
      sheet.nodes.filterMap Node.import? = rules.map Rule.written ∧ (∀ r ∈ rules, r.IsPlain) ∧
      rules.map Rule.stated = [["a"], ["b.css", "c"]] ∧ Import.specifiers sheet = ["a", "b.css", "c"] := by
  obtain ⟨sheet, h, himports⟩ : ∃ sheet,
      parse .scss .none "@use 'a' with ($x: 1, $y: 2);\n@import url( b.css ) screen, \"c\"; .r \x7b @import \"d\" \x7d" =
        .ok sheet ∧ sheet.nodes.filterMap Node.import? =
          [("use", "'a' with ($x: 1, $y: 2)"), ("import", "url( b.css ) screen, \"c\"")] :=
    ok_of_toOption (by decide +kernel)
  obtain ⟨ls, hls⟩ : ∃ ls, Masking.sheetLexemes .scss
    "@use 'a' with ($x: 1, $y: 2);\n@import url( b.css ) screen, \"c\"; .r \x7b @import \"d\" \x7d".toList = ls := ⟨_, rfl⟩
  have huse : [] ++ ⟨.atKeyword "use", "@use".toList, 0⟩ :: ([⟨.space, [' '], 4⟩] ++ ((ls.drop 2).take 18 ++ ls.drop 20)) =
      ls := by
    rw [← hls]
    decide +kernel
  have himport : (ls.drop 20).take 2 ++ ⟨.atKeyword "import", "@import".toList, 30⟩ ::
      ([⟨.space, [' '], 37⟩] ++ ((ls.drop 24).take 6 ++ ls.drop 30)) = ls.drop 20 := by
    rw [← hls]
    decide +kernel
  obtain ⟨rules, hrules⟩ : ∃ rules : List Rule, rules =
    [⟨⟨.atKeyword "use", "@use".toList, 0⟩, (ls.drop 2).take 18⟩,
      ⟨⟨.atKeyword "import", "@import".toList, 30⟩, (ls.drop 24).take 6⟩] := ⟨_, rfl⟩
  have hstand : Stand ls rules := by
    rw [hrules]
    conv =>
      arg 1
      rw [← huse]
    refine .cons rfl (by simp) ?_
    rw [← himport]
    exact .cons rfl (by simp) .nil
  have hwritten : sheet.nodes.filterMap Node.import? = rules.map Rule.written := by
    rw [himports, hrules, ← hls]
    decide +kernel
  have hplain : ∀ r ∈ rules, r.IsPlain := by
    rw [hrules, ← hls]
    decide +kernel
  have hstated : rules.map Rule.stated = [["a"], ["b.css", "c"]] := by
    rw [hrules, ← hls]
    decide +kernel
  refine ⟨sheet, rules, h, hls.symm ▸ hstand, hwritten, hplain, hstated, ?_⟩
  rw [(specifiers_of_parse h).2 rules (hls.symm ▸ hstand) hwritten hplain, List.flatMap_def, hstated]
  rfl

/-- A media query after a comma is taken for a path. -/
theorem specifiers_media :
    ∃ sheet rules, parse .css .none "@import \"a\" screen, projection;" = .ok sheet ∧
      Stand (Masking.sheetLexemes .css "@import \"a\" screen, projection;".toList) rules ∧
      sheet.nodes.filterMap Node.import? = rules.map Rule.written ∧ rules.map Rule.stated = [["a"]] ∧
      Import.specifiers sheet = ["a", "projection"] := by
  obtain ⟨sheet, h, himports⟩ : ∃ sheet, parse .css .none "@import \"a\" screen, projection;" = .ok sheet ∧
      (sheet.nodes.filterMap Node.import?, Import.specifiers sheet) =
        ([("import", "\"a\" screen, projection")], ["a", "projection"]) := ok_of_toOption (by decide +kernel)
  obtain ⟨himports, hspecifiers⟩ := Prod.mk.inj himports
  obtain ⟨ls, hls⟩ : ∃ ls, Masking.sheetLexemes .css "@import \"a\" screen, projection;".toList = ls := ⟨_, rfl⟩
  have himport : [] ++ ⟨.atKeyword "import", "@import".toList, 0⟩ ::
      ([⟨.space, [' '], 7⟩] ++ ((ls.drop 2).take 6 ++ ls.drop 8)) = ls := by
    rw [← hls]
    decide +kernel
  refine ⟨sheet, [⟨⟨.atKeyword "import", "@import".toList, 0⟩, (ls.drop 2).take 6⟩], h, ?_, ?_, ?_, hspecifiers⟩
  · rw [hls]
    conv =>
      arg 1
      rw [← himport]
    exact .cons rfl (by simp) .nil
  · rw [himports, ← hls]
    decide +kernel
  · rw [← hls]
    decide +kernel

end Sheet

end ThemeVars
