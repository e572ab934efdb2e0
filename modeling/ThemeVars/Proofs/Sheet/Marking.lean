/-
The lexemes of a sheet, line comments included. `text_sheetLexemes`: they are
the text of the sheet, cut into pieces. `spelled_sheetLexemes`: a masked
comment changes no sign of the sheet, and one that is found begins with two
slashes.
-/
import ThemeVars.Sheet.Masking
import ThemeVars.Proofs.Token.Tiling

namespace ThemeVars.Masking

open Text

/-- What holds of a cell, given the cells after it. -/
def CellMarked (cell : Cell) (rest : List Cell) : Prop :=
  match cell.mark with
  | .code => cell.source = [cell.shown]
  | .commentStart =>
    cell.shown = ' ' ∧ cell.source = ['/'] ∧ ∃ more, rest = ⟨' ', ['/'], .commentRest⟩ :: more
  | .commentRest => cell.shown = ' '

/-- Code shows as it is, a comment as spaces, and a comment begins with two
slashes. -/
def Marked : List Cell → Prop
  | [] => True
  | cell :: rest => CellMarked cell rest ∧ Marked rest

theorem marked_map_codeCell (s : List Char) : Marked (s.map codeCell) := by
  induction s with
  | nil => trivial
  | cons c cs ih => exact ⟨rfl, ih⟩

theorem Marked.code_append {s : List Char} {cells : List Cell} (h : Marked cells) :
    Marked (s.map codeCell ++ cells) := by
  induction s with
  | nil => exact h
  | cons c cs ih => exact ⟨rfl, ih⟩

theorem Marked.of_append {cells more : List Cell} (h : Marked (cells ++ more)) : Marked more := by
  induction cells with
  | nil => exact h
  | cons cell cells ih => exact ih h.2

theorem Marked.rest_append {cells more : List Cell} (hc : ∀ cell ∈ cells, cell.mark = .commentRest ∧ cell.shown = ' ')
    (h : Marked more) : Marked (cells ++ more) := by
  induction cells with
  | nil => exact h
  | cons cell cells ih =>
    obtain ⟨hm, hs⟩ := hc cell (by simp)
    exact ⟨by simpa [CellMarked, hm] using hs, ih fun c h => hc c (by simp [h])⟩

theorem commentCell_rest (c : Char) :
    ∀ cell ∈ commentCell .commentRest c, cell.mark = .commentRest ∧ cell.shown = ' ' := by
  intro cell h
  simp only [commentCell, List.mem_cons, List.mem_replicate] at h
  rcases h with rfl | ⟨-, rfl⟩ <;> exact ⟨rfl, rfl⟩

theorem Marked.comment_append {rest : List Char} {more : List Cell} (h : Marked more) :
    Marked (commentCells '/' ('/' :: rest) ++ more) := by
  have hrest : ∀ cell ∈ rest.flatMap (commentCell .commentRest), cell.mark = .commentRest ∧ cell.shown = ' ' := by
    intro cell hcell
    obtain ⟨c, -, hc⟩ := List.mem_flatMap.1 hcell
    exact commentCell_rest c cell hc
  have hcells : commentCells '/' ('/' :: rest) ++ more =
      ⟨' ', ['/'], .commentStart⟩ :: ⟨' ', ['/'], .commentRest⟩ ::
        (rest.flatMap (commentCell .commentRest) ++ more) := rfl
  rw [hcells]
  exact ⟨⟨rfl, rfl, _, rfl⟩, rfl, .rest_append hrest h⟩

/-! ## Where comments are found -/

/-- A comment is found at the first slash of two that no colon stands before. -/
theorem findComment_eq_some {before : Option Char} {ls : List Lexeme} {start : Nat}
    (h : findComment before ls = .some start) (hls : ∀ l ∈ ls, l.text ≠ []) :
    ∃ (code : List Lexeme) (l m : Lexeme) (more : List Lexeme), ls = code ++ l :: m :: more ∧ l.start = start ∧
      l.token = .delim '/' ∧ (m.token = .delim '/' ∨ m.token = .comment) ∧
        (code.flatMap (·.text)).getLast?.or before ≠ .some ':' ∧ findComment before code = .none := by
  fun_induction findComment before ls with
  | case1 before l m rest hif =>
    simp only [Bool.and_eq_true, Bool.or_eq_true, beq_iff_eq, bne_iff_ne] at hif
    exact ⟨[], l, m, rest, rfl, Option.some.inj h, hif.1.1, hif.1.2, hif.2, rfl⟩
  | case2 before l m rest hif ih =>
    obtain ⟨code, l', m', more, hcut, hstart, hslash, hnext, hcolon, hnone⟩ := ih h fun k hk => hls k (by simp [hk])
    refine ⟨l :: code, l', m', more, congrArg (l :: ·) hcut, hstart, hslash, hnext, ?_, ?_⟩
    · have hl : (l.text.getLast?).isSome = true := by simpa using hls l List.mem_cons_self
      rw [List.flatMap_cons, List.getLast?_append, Option.or_assoc, Option.or_of_isSome hl]
      exact hcolon
    · cases code with
      | nil => rfl
      | cons k code =>
        obtain ⟨rfl, -⟩ := List.cons.inj hcut
        rw [findComment, if_neg hif]
        exact hnone
  | case3 => cases h

theorem start_of_lexemesFrom {k : Nat} {s : List Char} {code more : List Lexeme} {l : Lexeme}
    (h : lexemesFrom k 0 s = code ++ l :: more) : l.start = k + (code.flatMap (·.text)).length := by
  induction code generalizing k s with
  | nil =>
    cases s with
    | nil => cases h
    | cons c cs =>
      rw [lexemesFrom_cons] at h
      obtain ⟨rfl, -⟩ := List.cons.inj h
      rfl
  | cons m code ih =>
    cases s with
    | nil => cases h
    | cons c cs =>
      rw [lexemesFrom_cons] at h
      obtain ⟨rfl, hmore⟩ := List.cons.inj h
      have hlen := (length_tokenAt c cs).2
      rw [ih hmore, List.flatMap_cons, List.length_append, List.length_take, List.length_cons]
      omega

/-- Where a comment is found there are two slashes, and the lexemes before them
are those of the text before them. -/
theorem exists_of_findComment {s : List Char} {start : Nat} (h : findComment .none (lexemes s) = .some start) :
    ∃ code more rest, Tiled (code ++ more) ∧ s.take start = code.flatMap (·.text) ∧
      s.drop start = '/' :: '/' :: rest ∧ more.flatMap (·.text) = '/' :: '/' :: rest ∧
        (code.flatMap (·.text)).getLast? ≠ .some ':' ∧ findComment .none code = .none := by
  have htiled := tiled_lexemes s
  have htext := lexemes_text s
  obtain ⟨code, l, m, more, hcut, rfl, hl, hm, hcolon, hnone⟩ :=
    findComment_eq_some h fun l hl => (htiled.reads hl).choose_spec.ne_nil
  rw [start_of_lexemesFrom hcut, Nat.zero_add]
  rw [hcut] at htiled htext
  have hslash : l.text = ['/'] := htiled.of_append.1.sign (by rw [hl]; rfl)
  obtain ⟨rest, hrest⟩ : ∃ rest, m.text = '/' :: rest := by
    have hread := htiled.of_append.2.1
    rcases hm with hm | hm
    · exact ⟨[], hread.sign (by rw [hm]; rfl)⟩
    · obtain ⟨rest, hrest⟩ := hread.lead
      rw [hm] at hrest
      exact ⟨'*' :: rest, hrest.symm⟩
  have hmore : (l :: m :: more).flatMap (·.text) = '/' :: '/' :: (rest ++ more.flatMap (·.text)) := by
    simp [hslash, hrest]
  rw [List.flatMap_append, hmore] at htext
  refine ⟨code, l :: m :: more, _, htiled, ?_, ?_, hmore, by simpa using hcolon, hnone⟩
  · rw [← htext, List.take_left]
  · rw [← htext, List.drop_left]

/-- A line comment, between what stands before and after it. -/
structure IsComment (before text after : List Char) : Prop where
  slashes : ['/', '/'] <+: text
  colon : before.getLast? ≠ .some ':'
  line : '\n' ∉ text
  /-- It goes to the end of its line or of the text, without a carriage return there. -/
  ends : after = [] ∨ after.head? = .some '\n' ∨ after = ['\r'] ∨ ['\r', '\n'] <+: after

/-- A line comment before which there is none. -/
structure First (before text after : List Char) extends IsComment before text after where
  code : ∃ code more, Tiled (code ++ more) ∧ code.flatMap (·.text) = before ∧
    more.flatMap (·.text) = text ++ after ∧ findComment .none code = .none

theorem restOfLine_spec (s : List Char) :
    '\n' ∉ restOfLine s ∧ (s.drop (restOfLine s).length = [] ∨ (s.drop (restOfLine s).length).head? = .some '\n' ∨
      s.drop (restOfLine s).length = ['\r'] ∨ ['\r', '\n'] <+: s.drop (restOfLine s).length) := by
  have hs := List.takeWhile_append_dropWhile (p := (· != '\n')) (l := s)
  have hline : '\n' ∉ s.takeWhile (· != '\n') := fun h => by simpa using List.mem_takeWhile_imp h
  have hafter : s.dropWhile (· != '\n') = [] ∨ (s.dropWhile (· != '\n')).head? = .some '\n' := by
    have hhead := List.head?_dropWhile_not (· != '\n') s
    cases h : (s.dropWhile (· != '\n')).head? with
    | none => exact .inl (List.head?_eq_none_iff.1 h)
    | some c =>
      rw [h] at hhead
      exact .inr (by simpa using hhead)
  simp only [restOfLine]
  generalize s.takeWhile (· != '\n') = line at *
  generalize s.dropWhile (· != '\n') = after at *
  subst hs
  split
  · rename_i hreturn
    obtain ⟨front, rfl⟩ : ∃ front, line = front ++ ['\r'] := by
      rw [beq_iff_eq, List.getLast?_eq_some_iff] at hreturn
      exact hreturn
    rw [List.dropLast_concat, List.append_assoc, List.drop_left]
    refine ⟨fun h => hline (List.mem_append_left _ h), .inr (.inr ?_)⟩
    rcases hafter with rfl | hafter
    · exact .inl rfl
    · obtain ⟨after, rfl⟩ := List.head?_eq_some_iff.1 hafter
      exact .inr ⟨after, rfl⟩
  · rw [List.drop_left]
    exact ⟨hline, hafter.imp_right .inl⟩

theorem restOfLine_slash (s : List Char) : ∃ rest, restOfLine ('/' :: s) = '/' :: rest := by
  have hline : ('/' :: s).takeWhile (· != '\n') = '/' :: s.takeWhile (· != '\n') := rfl
  simp only [restOfLine, hline]
  split
  · rename_i h
    rcases ht : s.takeWhile (· != '\n') with _ | ⟨d, t⟩
    · rw [ht] at h
      simp at h
    · exact ⟨(d :: t).dropLast, rfl⟩
  · exact ⟨_, rfl⟩

/-- Masking goes from one comment to the next: what holds of a text without
comments, and before a comment if it holds behind it, holds of every text. -/
theorem maskFrom_induction {P : List Char → List Cell → Prop}
    (code : ∀ s, findComment .none (lexemes s) = .none → P s (s.map codeCell))
    (comment : ∀ before rest after, First before ('/' :: '/' :: rest) after → P after (maskFrom after) →
      P (before ++ ('/' :: '/' :: rest ++ after))
        (before.map codeCell ++ (commentCells '/' ('/' :: rest) ++ maskFrom after)))
    (s : List Char) : P s (maskFrom s) := by
  fun_induction maskFrom s with
  | case1 s h => exact code s h
  | case2 s start h hnil =>
    obtain ⟨_, _, _, _, _, hdrop, -⟩ := exists_of_findComment h
    rw [hnil] at hdrop
    cases hdrop
  | case3 s start h c cs hcs rest ih =>
    obtain ⟨code', more, tail, htiled, htake, hdrop, hmore, hcolon, hnone⟩ := exists_of_findComment h
    rw [hcs, List.cons.injEq] at hdrop
    obtain ⟨rfl, rfl⟩ := hdrop
    obtain ⟨rest', hrest⟩ := restOfLine_slash tail
    have hline := restOfLine_spec ('/' :: tail)
    have htail := restOfLine_append ('/' :: tail)
    rw [show restOfLine ('/' :: tail) = rest from rfl] at hrest hline htail
    rw [hrest] at hline htail ih ⊢
    have hs : s = s.take start ++ ('/' :: '/' :: rest' ++ ('/' :: tail).drop ('/' :: rest').length) := by
      rw [List.cons_append, htail, ← hcs, List.take_append_drop]
    have hfirst : First (s.take start) ('/' :: '/' :: rest') (('/' :: tail).drop ('/' :: rest').length) := by
      refine ⟨⟨⟨rest', rfl⟩, htake ▸ hcolon, ?_, hline.2⟩, code', more, htiled, htake.symm, ?_, hnone⟩
      · exact fun h => hline.1 ((List.mem_cons.1 h).resolve_left (by decide))
      · rw [hmore, List.cons_append, htail]
    have h := comment _ _ _ hfirst ih
    rw [← hs] at h
    rwa [List.append_assoc]

theorem marked_maskFrom (s : List Char) : Marked (maskFrom s) := by
  refine maskFrom_induction (P := fun _ cells => Marked cells) (fun s _ => marked_map_codeCell s) ?_ s
  intro before rest after _ ih
  exact .code_append (.comment_append ih)

theorem marked_mask (dialect : Dialect) (s : List Char) : Marked (mask dialect s) := by
  unfold mask
  split
  · exact marked_map_codeCell s
  · exact marked_maskFrom s

theorem source_mask (dialect : Dialect) (s : List Char) : source (mask dialect s) = s := by
  unfold mask
  split
  · exact source_map_codeCell s
  · exact maskFrom_source s

/-! ## The lexemes are the text -/

theorem source_append (a b : List Cell) : source (a ++ b) = source a ++ source b := List.flatMap_append

theorem source_cons (cell : Cell) (cells : List Cell) : source (cell :: cells) = cell.source ++ source cells := rfl

theorem text_runs (kind : Token) (cells : List Cell) :
    (runs kind cells).1 ++ (runs kind cells).2.flatMap (·.2) = source cells := by
  induction cells generalizing kind with
  | nil => rfl
  | cons cell cells ih =>
    rw [source_cons]
    simp only [runs]
    split
    · rw [← ih .lineComment]
      simp
    · rw [← ih kind]
      simp
    · rw [← ih .space]
      split <;> simp

theorem text_spaceTokens (cells : List Cell) : (spaceTokens cells).flatMap (·.2) = source cells := by
  rw [← text_runs .space cells]
  unfold spaceTokens
  generalize runs .space cells = r
  obtain ⟨run, more⟩ := r
  cases run <;> rfl

theorem text_sourceTokens {cells : List Cell} {ls : List Lexeme}
    (h : (ls.flatMap (·.text)).length = cells.length) : (sourceTokens cells ls).flatMap (·.2) = source cells := by
  induction ls generalizing cells with
  | nil =>
    rw [List.eq_nil_of_length_eq_zero h.symm]
    rfl
  | cons l ls ih =>
    rw [List.flatMap_cons, List.length_append] at h
    have hlen : (ls.flatMap (·.text)).length = (cells.drop l.text.length).length := by
      rw [List.length_drop]
      omega
    have hrest := ih hlen
    have hown : (if l.token = .space then spaceTokens (cells.take l.text.length)
        else [(l.token, source (cells.take l.text.length))]).flatMap (·.2) =
        source (cells.take l.text.length) := by
      split
      · exact text_spaceTokens _
      · simp
    simp only [sourceTokens, beq_iff_eq, List.flatMap_append, hrest, hown]
    rw [← source_append, List.take_append_drop]

theorem text_place (start : Nat) (ts : List (Token × List Char)) :
    (place start ts).flatMap (·.text) = ts.flatMap (·.2) := by
  induction ts generalizing start with
  | nil => rfl
  | cons t ts ih =>
    obtain ⟨token, text⟩ := t
    simp only [place, List.flatMap_cons, ih]

/-- The lexemes of a sheet are its text, cut into pieces. -/
theorem text_sheetLexemes (dialect : Dialect) (s : List Char) :
    (sheetLexemes dialect s).flatMap (·.text) = s := by
  unfold sheetLexemes
  rw [text_place, text_sourceTokens, source_mask]
  rw [lexemes_text, shown, List.length_map]

/-! ## The lexemes are spelled as they should be -/

/-- Where no space shows there is code, which shows as it is. -/
theorem source_eq_shown {cells more : List Cell} (h : Marked (cells ++ more))
    (hs : ∀ cell ∈ cells, cell.shown ≠ ' ') : source cells = shown cells := by
  induction cells with
  | nil => rfl
  | cons cell cells ih =>
    have hrest := ih h.2 fun c hc => hs c (by simp [hc])
    have hcell := h.1
    have hne := hs cell (by simp)
    unfold CellMarked at hcell
    split at hcell
    · rw [source_cons, hrest, hcell]
      rfl
    · exact absurd hcell.1 hne
    · exact absurd hcell hne

theorem spelled_runs (kind : Token) {cells : List Cell} (h : Marked cells) :
    ∀ p ∈ (runs kind cells).2, Spelled p.1 p.2 := by
  induction cells generalizing kind with
  | nil => exact fun _ h => nomatch h
  | cons cell cells ih =>
    have hcell := h.1
    unfold CellMarked at hcell
    simp only [runs]
    split
    · rename_i hm
      rw [hm] at hcell
      obtain ⟨-, hsource, more, rfl⟩ := hcell
      intro p hp
      rcases List.mem_cons.1 hp with rfl | hp
      · refine ⟨by simp [hsource], ?_, fun _ h => nomatch h⟩
        rw [hsource]
        exact ⟨(runs .lineComment more).1, rfl⟩
      · exact ih _ h.2 p hp
    · exact ih _ h.2
    · rename_i hm
      rw [hm] at hcell
      split
      · exact ih _ h.2
      · intro p hp
        rcases List.mem_cons.1 hp with rfl | hp
        · exact ⟨by simp [hcell], List.nil_prefix, fun _ h => nomatch h⟩
        · exact ih _ h.2 p hp

theorem spelled_spaceTokens {cells : List Cell} (h : Marked cells) :
    ∀ p ∈ spaceTokens cells, Spelled p.1 p.2 := by
  have hr := spelled_runs .space h
  unfold spaceTokens
  generalize runs .space cells = r at hr
  obtain ⟨run, more⟩ := r
  cases run with
  | nil => exact hr
  | cons c cs =>
    intro p hp
    rcases List.mem_cons.1 hp with rfl | hp
    · exact ⟨List.cons_ne_nil _ _, List.nil_prefix, fun _ h => nomatch h⟩
    · exact hr p hp

/-- A comment that begins in a space ends in it. -/
theorem marked_takeWhile_space {cells : List Cell} (h : Marked cells) :
    Marked (cells.takeWhile fun cell => isSpace cell.shown) := by
  induction cells with
  | nil => exact h
  | cons cell cells ih =>
    rw [List.takeWhile_cons]
    split
    · refine ⟨?_, ih h.2⟩
      have hcell := h.1
      unfold CellMarked at hcell ⊢
      split at hcell
      · exact hcell
      · obtain ⟨hs, hsource, more, rfl⟩ := hcell
        exact ⟨hs, hsource, _, rfl⟩
      · exact hcell
    · trivial

/-- A text that shows without a space in it is code as it shows. -/
theorem source_of_isPrefix {a : List Char} {own more : List Cell} (h : Marked (own ++ more)) (ha : a <+: shown own)
    (hs : ∀ c ∈ a, c ≠ ' ') : a <+: source own := by
  have hlen : (own.take a.length).length = a.length := by
    have := ha.length_le
    rw [shown, List.length_map] at this
    rw [List.length_take]
    omega
  have hshown : shown (own.take a.length) = a := by
    rw [shown, List.map_take]
    exact (List.prefix_iff_eq_take.1 ha).symm
  have hmarked : Marked (own.take a.length ++ (own.drop a.length ++ more)) := by
    rwa [← List.append_assoc, List.take_append_drop]
  have hsource := source_eq_shown hmarked fun cell hc =>
    hs _ (hshown ▸ List.mem_map_of_mem hc)
  refine ⟨source (own.drop a.length), ?_⟩
  rw [← List.take_append_drop a.length own, source_append, hsource, hshown, List.take_append_drop]

/-- The text of a token that does not begin in a space is spelled as the token
is where it shows. -/
theorem spelled_source {t : Token} {own more : List Cell} (h : Marked (own ++ more)) (ht : Spelled t (shown own))
    (hlead : ∀ c ∈ t.lead, c ≠ ' ') (hsign : ∀ sign, t.sign? = .some sign → ∀ c ∈ sign, c ≠ ' ')
    (hne : ∀ c ∈ (shown own).head?, c ≠ ' ') : Spelled t (source own) := by
  refine ⟨?_, source_of_isPrefix h ht.lead hlead, ?_⟩
  · cases own with
    | nil => exact absurd rfl ht.ne_nil
    | cons cell own =>
      have hfirst : [cell.shown] <+: source (cell :: own) :=
        source_of_isPrefix h ⟨_, rfl⟩ fun c hc => hne c (by simpa [shown, eq_comm] using hc)
      intro hnil
      rw [hnil, List.prefix_nil] at hfirst
      cases hfirst
  · intro sign hs
    have hshown := ht.sign sign hs
    rw [← hshown]
    refine source_eq_shown h fun cell hc => ?_
    exact hsign sign hs _ (hshown ▸ List.mem_map_of_mem hc)

theorem lead_ne_space (t : Token) : ∀ c ∈ t.lead, c ≠ ' ' := by
  cases t <;> simp [Token.lead]

theorem sign_ne_space {t : Token} {text rest sign : List Char} (h : Shape rest t text) (hs : t.sign? = .some sign) :
    ∀ c ∈ sign, c ≠ ' ' := by
  have hdelim : ∀ c, t = .delim c → c ≠ ' ' := by
    rintro c rfl rfl
    cases h with
    | word _ hw => cases hw
    | hash hl _ => cases hl
    | sign hc ht =>
      obtain ⟨rfl, -⟩ := List.cons.inj (Option.some.inj ht)
      cases hc
  unfold Token.sign? at hs
  split at hs <;> cases hs
  case h_17.refl c =>
    intro d hd
    rw [List.mem_singleton.1 hd]
    exact hdelim c rfl
  all_goals simp

theorem head_ne_space {t : Token} {text rest : List Char} (h : Shape rest t text) (ht : t ≠ .space) :
    ∀ c ∈ text.head?, c ≠ ' ' := by
  cases h with
  | space => exact absurd rfl ht
  | word hc _ => rintro d ⟨⟩ rfl; cases hc
  | hash => simp
  | atKeyword => simp
  | comment => simp
  | sign hc _ => rintro d ⟨⟩ rfl; cases hc

/-- The space that shows ends no comment halfway. -/
theorem marked_take_space {cells : List Cell} {n : Nat} {rest : List Char} (h : Marked cells)
    {text : List Char} (ht : Shape rest .space text) (htext : text = shown (cells.take n))
    (hrest : rest = shown (cells.drop n)) : Marked (cells.take n) := by
  have htake : (shown cells).takeWhile isSpace = shown (cells.take n) := by
    cases ht with
    | space _ ht =>
      rw [hrest, htext, shown, shown, ← List.map_append, List.take_append_drop] at ht
      exact ht
    | word _ hw => cases hw
    | hash hl _ => cases hl
    | sign _ hs => cases hs
  have hcells : cells.take n = cells.takeWhile fun cell => isSpace cell.shown := by
    have hlen : (cells.take n).length = (cells.takeWhile fun cell => isSpace cell.shown).length := by
      rw [shown, List.takeWhile_map] at htake
      simpa [shown, Function.comp_def] using (congrArg List.length htake).symm
    exact (List.prefix_of_prefix_length_le (List.take_prefix n cells) (List.takeWhile_prefix _)
      hlen.le).eq_of_length hlen
  rw [hcells]
  exact marked_takeWhile_space h

/-- A token of masked text is a part of a space that shows, or it is as the
lexer reads it from what the cells show. -/
theorem mem_sourceTokens {cells : List Cell} {ls : List Lexeme} (hcells : Marked cells) (hls : Tiled ls)
    (h : ls.flatMap (·.text) = shown cells) {p : Token × List Char} (hp : p ∈ sourceTokens cells ls) :
    (∃ own, Marked own ∧ p ∈ spaceTokens own) ∨
      ∃ own more rest, own ++ more <:+ cells ∧ Reads (shown own) rest p.1 ∧ p.1 ≠ .space ∧ p.2 = source own := by
  induction ls generalizing cells with
  | nil => cases hp
  | cons l ls ih =>
    rw [List.flatMap_cons] at h
    have hown : shown (cells.take l.text.length) = l.text := by
      rw [shown, List.map_take, ← shown, ← h, List.take_left]
    have hmore : shown (cells.drop l.text.length) = ls.flatMap (·.text) := by
      rw [shown, List.map_drop, ← shown, ← h, List.drop_left]
    generalize hn : l.text.length = n at hown hmore
    simp only [sourceTokens, hn, beq_iff_eq] at hp
    rcases List.mem_append.1 hp with hp | hp
    · split at hp
      · rename_i hspace
        have hshape := hls.1.shape
        rw [← hown, hspace] at hshape
        exact .inl ⟨_, marked_take_space hcells hshape rfl hmore.symm, hp⟩
      · rename_i hspace
        obtain rfl := List.mem_singleton.1 hp
        refine .inr ⟨cells.take n, cells.drop n, ls.flatMap (·.text), ?_, hown ▸ hls.1, hspace, rfl⟩
        exact ⟨[], List.take_append_drop n cells⟩
    · rw [← List.take_append_drop n cells] at hcells
      rcases ih hcells.of_append hls.2 hmore.symm hp with hp | ⟨own, more, rest, hsuffix, hread⟩
      · exact .inl hp
      · exact .inr ⟨own, more, rest, hsuffix.trans (List.drop_suffix n cells), hread⟩

theorem Marked.of_suffix {cells more : List Cell} (h : Marked cells) (hs : more <:+ cells) : Marked more := by
  obtain ⟨front, rfl⟩ := hs
  exact h.of_append

theorem spelled_of_reads {t : Token} {own more : List Cell} {rest : List Char} (h : Marked (own ++ more))
    (hread : Reads (shown own) rest t) (ht : t ≠ .space) : Spelled t (source own) :=
  spelled_source h hread.spelled (lead_ne_space _) (fun _ hs => sign_ne_space hread.shape hs)
    (head_ne_space hread.shape ht)

theorem spelled_sourceTokens {cells : List Cell} {ls : List Lexeme} (hcells : Marked cells) (hls : Tiled ls)
    (h : ls.flatMap (·.text) = shown cells) : ∀ p ∈ sourceTokens cells ls, Spelled p.1 p.2 := by
  intro p hp
  rcases mem_sourceTokens hcells hls h hp with ⟨own, hown, hp⟩ | ⟨own, more, rest, hsuffix, hread, hspace, hp⟩
  · exact spelled_spaceTokens hown p hp
  · rw [hp]
    exact spelled_of_reads (hcells.of_suffix hsuffix) hread hspace

theorem mem_place {start : Nat} {ts : List (Token × List Char)} {l : Lexeme} (h : l ∈ place start ts) :
    (l.token, l.text) ∈ ts := by
  induction ts generalizing start with
  | nil => cases h
  | cons t ts ih =>
    rcases List.mem_cons.1 h with rfl | h
    · exact List.mem_cons_self
    · exact List.mem_cons_of_mem _ (ih h)

/-- The lexemes of a sheet are spelled as lexemes are. -/
theorem spelled_sheetLexemes {dialect : Dialect} {s : List Char} :
    ∀ l ∈ sheetLexemes dialect s, Spelled l.token l.text := by
  intro l hl
  exact spelled_sourceTokens (marked_mask dialect s) (tiled_lexemes _) (lexemes_text _) _ (mem_place hl)

end ThemeVars.Masking
